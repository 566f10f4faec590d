import ZalemCoin.Lib.SortedMap
import ZalemCoin.Script.Standard

/-!
# The key store of an encrypted wallet

Each secret is encrypted with the master key of the wallet, and the master key with a key that is
derived from the passphrase. Unlocking a key store takes a master key when the first of the encrypted
secrets, in the order of the key identifiers, decrypts with it to the secret of its public key.
-/

namespace ZalemCoin.Wallet

open Chain Lib Script

def WALLET_CRYPTO_KEY_SIZE : ℕ := 32
def WALLET_CRYPTO_SALT_SIZE : ℕ := 8

/-- What the keys of a wallet are computed with. -/
structure KeyContext where
  /-- Encryption of a text with a key and an initial vector, of 32 bytes each. -/
  EVP_Encrypt : List UInt8 → UInt256 → List UInt8 → List UInt8
  /-- Decryption, which fails when the padding is wrong. -/
  EVP_Decrypt : List UInt8 → UInt256 → List UInt8 → Option (List UInt8)
  /-- The key and the initial vector for a salt, some data and a number of rounds. -/
  EVP_BytesToKey : List UInt8 → List UInt8 → ℕ → List UInt8 × UInt256
  scrypt_salted_multiround_hash : List UInt8 → List UInt8 → ℕ → List UInt8
  Hash : List UInt8 → UInt256
  /-- The hash of a public key. -/
  Hash_bmw512 : List UInt8 → UInt256
  Hash160 : List UInt8 → CKeyID
  /-- Whether 32 bytes are a secret. -/
  Check : List UInt8 → Bool
  GetPubKey : List UInt8 → Bool → CPubKey
  /-- The compressed point of a secret. -/
  SecretToPublicKey : List UInt8 → Option (List UInt8)
  /-- The hash of the product of a point and a secret. -/
  sharedSecret : List UInt8 → List UInt8 → Option (List UInt8)
  addPoint : List UInt8 → List UInt8 → Option (List UInt8)
  /-- The sum of two secrets, which fails when it is zero. -/
  addSecret : List UInt8 → List UInt8 → Option (List UInt8)

/-- What the cipher and the curve do. -/
structure KeyContext.Lawful (ctx : KeyContext) : Prop where
  decrypt_encrypt : ∀ chKey chIV text,
    ctx.EVP_Decrypt chKey chIV (ctx.EVP_Encrypt chKey chIV text) = some text
  /-- The padding is at least one byte. -/
  decrypt_length : ∀ chKey chIV cipher text, ctx.EVP_Decrypt chKey chIV cipher = some text →
    text.length < cipher.length
  isCompressed : ∀ vch fCompressed, ctx.Check vch = true →
    (ctx.GetPubKey vch fCompressed).IsCompressed = fCompressed
  addPoint_eq : ∀ secret point c, ctx.SecretToPublicKey secret = some point →
    ctx.addPoint point c = (ctx.addSecret secret c).bind ctx.SecretToPublicKey
  addSecret_length : ∀ secret c sum, ctx.addSecret secret c = some sum → sum.length = 32
  addSecret_check : ∀ secret c sum, ctx.addSecret secret c = some sum → ctx.Check sum = true
  addSecret_point : ∀ secret c sum, ctx.addSecret secret c = some sum →
    ctx.SecretToPublicKey sum = some (ctx.GetPubKey sum true).vch
  /-- Only the bytes of a compressed key are read as a point. -/
  sharedSecret_point : ∀ secret point c, ctx.sharedSecret secret point = some c →
    (CPubKey.ofBytes point).vch = point

variable (ctx : KeyContext)

def SetKeyFromPassphrase (strKeyData chSalt : List UInt8) (nRounds nDerivationMethod : ℕ) :
    Option (List UInt8 × UInt256) :=
  if nRounds < 1 ∨ chSalt.length ≠ WALLET_CRYPTO_SALT_SIZE then none
  else if nDerivationMethod = 0 then some (ctx.EVP_BytesToKey chSalt strKeyData nRounds)
  else if nDerivationMethod = 1 then
    some (ctx.EVP_BytesToKey chSalt
      (ctx.scrypt_salted_multiround_hash strKeyData chSalt nRounds) nRounds)
  else none

def EncryptSecret (vMasterKey vchPlaintext : List UInt8) (nIV : UInt256) : Option (List UInt8) :=
  if vMasterKey.length ≠ WALLET_CRYPTO_KEY_SIZE then none
  else some (ctx.EVP_Encrypt vMasterKey nIV vchPlaintext)

def DecryptSecret (vMasterKey vchCiphertext : List UInt8) (nIV : UInt256) : Option (List UInt8) :=
  if vMasterKey.length ≠ WALLET_CRYPTO_KEY_SIZE then none
  else ctx.EVP_Decrypt vMasterKey nIV vchCiphertext

/-- A private key: a secret, and whether its public key is compressed. -/
structure CKey where
  vch : List UInt8
  fCompressed : Bool
deriving DecidableEq

namespace CKey

def Set (vch : List UInt8) (fCompressed : Bool) : Option CKey :=
  if vch.length = 32 ∧ ctx.Check vch = true then some ⟨vch, fCompressed⟩ else none

def GetPubKey (key : CKey) : CPubKey := ctx.GetPubKey key.vch key.fCompressed

structure IsValid (key : CKey) : Prop where
  length : key.vch.length = 32
  check : ctx.Check key.vch = true

variable {ctx}

theorem IsValid.set {key : CKey} (h : key.IsValid ctx) :
    Set ctx key.vch key.fCompressed = some key := if_pos ⟨h.length, h.check⟩

theorem IsValid.isCompressed (hctx : ctx.Lawful) {key : CKey} (h : key.IsValid ctx) :
    (key.GetPubKey ctx).IsCompressed = key.fCompressed := hctx.isCompressed _ _ h.check

end CKey

def PubKeyHash (pubkey : CPubKey) : UInt256 := ctx.Hash_bmw512 pubkey.vch

/-- The keys of a wallet. The identifiers are in order, as the code keeps them. -/
structure CCryptoKeyStore where
  /-- The keys of a wallet that is not encrypted. -/
  mapKeys : SortedMap CKeyID CKey
  /-- The public keys and encrypted secrets of an encrypted wallet. -/
  mapCryptedKeys : SortedMap CKeyID (CPubKey × List UInt8)
  vMasterKey : List UInt8
  fUseCrypto : Bool

namespace CCryptoKeyStore

/-- Whether the wallet is encrypted. -/
def IsCrypted (s : CCryptoKeyStore) : Bool := s.fUseCrypto

def IsLocked (s : CCryptoKeyStore) : Bool := s.fUseCrypto && s.vMasterKey.isEmpty

def HaveKey (s : CCryptoKeyStore) (address : CKeyID) : Bool :=
  if s.IsCrypted then (s.mapCryptedKeys.find address).isSome else (s.mapKeys.find address).isSome

/-- Turns to the encrypted form, which a wallet with plain keys refuses. -/
def SetCrypted (s : CCryptoKeyStore) : Option CCryptoKeyStore :=
  if s.fUseCrypto then some s
  else if s.mapKeys.first.isSome then none
  else some { s with fUseCrypto := true }

def LockKeyStore (s : CCryptoKeyStore) : Option CCryptoKeyStore :=
  s.SetCrypted.map fun s => { s with vMasterKey := [] }

def DecryptsKey (vMasterKeyIn : List UInt8) (vchPubKey : CPubKey) (vchCryptedSecret : List UInt8) :
    Bool :=
  match DecryptSecret ctx vMasterKeyIn vchCryptedSecret (PubKeyHash ctx vchPubKey) with
  | none => false
  | some vchSecret =>
    match CKey.Set ctx vchSecret vchPubKey.IsCompressed with
    | none => false
    | some key => key.GetPubKey ctx == vchPubKey

/-- Whether a master key passes the check of `Unlock`: the loop over the encrypted keys ends at the
first of them. -/
def ChecksMasterKey (s : CCryptoKeyStore) (vMasterKeyIn : List UInt8) : Bool :=
  match s.mapCryptedKeys.first with
  | none => true
  | some (_, vchPubKey, vchCryptedSecret) => DecryptsKey ctx vMasterKeyIn vchPubKey vchCryptedSecret

def Unlock (s : CCryptoKeyStore) (vMasterKeyIn : List UInt8) : Option CCryptoKeyStore :=
  s.SetCrypted.bind fun s =>
    if s.ChecksMasterKey ctx vMasterKeyIn then some { s with vMasterKey := vMasterKeyIn } else none

def AddCryptedKey (s : CCryptoKeyStore) (vchPubKey : CPubKey) (vchCryptedSecret : List UInt8) :
    Option CCryptoKeyStore :=
  s.SetCrypted.map fun s =>
    { s with mapCryptedKeys :=
        s.mapCryptedKeys.insert (vchPubKey.GetID ctx.Hash160) (vchPubKey, vchCryptedSecret) }

def AddKeyPubKey (s : CCryptoKeyStore) (key : CKey) (pubkey : CPubKey) : Option CCryptoKeyStore :=
  if s.IsCrypted = false then
    some { s with mapKeys := s.mapKeys.insert (pubkey.GetID ctx.Hash160) key }
  else if s.IsLocked then none
  else
    (EncryptSecret ctx s.vMasterKey key.vch (PubKeyHash ctx pubkey)).bind fun vchCryptedSecret =>
      s.AddCryptedKey ctx pubkey vchCryptedSecret

def AddKey (s : CCryptoKeyStore) (key : CKey) : Option CCryptoKeyStore :=
  s.AddKeyPubKey ctx key (key.GetPubKey ctx)

def GetKey (s : CCryptoKeyStore) (address : CKeyID) : Option CKey :=
  if s.IsCrypted = false then s.mapKeys.find address
  else
    match s.mapCryptedKeys.find address with
    | none => none
    | some (vchPubKey, vchCryptedSecret) =>
      (DecryptSecret ctx s.vMasterKey vchCryptedSecret (PubKeyHash ctx vchPubKey)).bind
        fun vchSecret => CKey.Set ctx vchSecret vchPubKey.IsCompressed

def GetPubKey (s : CCryptoKeyStore) (address : CKeyID) : Option CPubKey :=
  if s.IsCrypted = false then (s.mapKeys.find address).map (CKey.GetPubKey ctx)
  else (s.mapCryptedKeys.find address).map Prod.fst

def EncryptKeys (s : CCryptoKeyStore) (vMasterKeyIn : List UInt8) : Option CCryptoKeyStore :=
  if s.mapCryptedKeys.first.isSome ∨ s.IsCrypted = true then none
  else
    (s.mapKeys.entries.foldlM (fun s mKey =>
      (EncryptSecret ctx vMasterKeyIn mKey.2.vch (PubKeyHash ctx (mKey.2.GetPubKey ctx))).bind
        fun vchCryptedSecret => s.AddCryptedKey ctx (mKey.2.GetPubKey ctx) vchCryptedSecret)
      { s with fUseCrypto := true }).map fun s => { s with mapKeys := SortedMap.empty }

end CCryptoKeyStore

end ZalemCoin.Wallet
