import ZalemCoin.Wallet.Crypter

/-!
# Stealth payments

A payment to a stealth address pays to a key that the sender derives from the address and from a
point that the transaction carries. A wallet that is locked can tell the public key of such a payment
from its scan secrets, but needs the spend secrets for the private one: it stores the public key with
an empty secret, and `UnlockStealthAddresses` fills the secret in when the wallet is unlocked.
-/

namespace ZalemCoin.Wallet

open Chain Lib Script

def ec_secret_size : ℕ := 32
def ec_compressed_size : ℕ := 33

/-- A stealth address. The wallet owns those of which it has the scan secret; the spend secret is
encrypted while the wallet is locked. -/
structure CStealthAddress where
  options : UInt8
  scan_pubkey : List UInt8
  spend_pubkey : List UInt8
  scan_secret : List UInt8
  spend_secret : List UInt8
deriving DecidableEq

/-- What the private key of a payment received while locked is computed from. -/
structure CStealthKeyMetadata where
  pkEphem : CPubKey
  pkScan : CPubKey

structure CMasterKey where
  vchCryptedKey : List UInt8
  vchSalt : List UInt8
  nDerivationMethod : ℕ
  nDeriveIterations : ℕ

/-- A wallet: its keys, stealth addresses and master keys, and the stealth addresses in its
database. -/
structure CWallet extends CCryptoKeyStore where
  stealthAddresses : List CStealthAddress
  mapStealthKeyMeta : CKeyID → Option CStealthKeyMetadata
  mapMasterKeys : List CMasterKey
  sxAddrDb : List UInt8 → Option CStealthAddress
  fWalletUnlockAnonymizeOnly : Bool
  fWalletUnlockStakingOnly : Bool

variable (ctx : KeyContext)

/-- The shared secret of a payment, and the public key that it pays to. -/
def StealthSecret (secret pubkey pkSpend : List UInt8) : Option (List UInt8 × List UInt8) := do
  let sharedS ← ctx.sharedSecret secret pubkey
  let pkOut ← ctx.addPoint pkSpend sharedS
  return (sharedS, pkOut)

/-- The private key of a payment, from the secrets of the address and the point of the payment. -/
def StealthSecretSpend (scanSecret ephemPubkey spendSecret : List UInt8) : Option (List UInt8) := do
  let c ← ctx.sharedSecret scanSecret ephemPubkey
  ctx.addSecret spendSecret c

def StealthSharedToSecretSpend (sharedS spendSecret : List UInt8) : Option (List UInt8) :=
  ctx.addSecret spendSecret sharedS

namespace CStealthAddress

def Encrypt (vMasterKey : List UInt8) (sxAddr : CStealthAddress) : CStealthAddress :=
  if sxAddr.scan_secret.length < 32 then sxAddr
  else
    match EncryptSecret ctx vMasterKey (sxAddr.spend_secret.take 32)
        (ctx.Hash sxAddr.spend_pubkey) with
    | none => sxAddr
    | some vchCryptedSecret => { sxAddr with spend_secret := vchCryptedSecret }

/-- Decrypts the spend secret of an owned address, which stays as it is when that fails. -/
def Decrypt (vMasterKeyIn : List UInt8) (sxAddr : CStealthAddress) : CStealthAddress :=
  if sxAddr.scan_secret.length < 32 then sxAddr
  else
    match DecryptSecret ctx vMasterKeyIn sxAddr.spend_secret (ctx.Hash sxAddr.spend_pubkey) with
    | none => sxAddr
    | some vchSecret =>
      if vchSecret.length ≠ 32 then sxAddr
      else if ctx.SecretToPublicKey vchSecret = some sxAddr.spend_pubkey then
        { sxAddr with spend_secret := vchSecret }
      else sxAddr

def Reload (sxAddrDb : List UInt8 → Option CStealthAddress) (sxAddr : CStealthAddress) :
    CStealthAddress :=
  if sxAddr.scan_secret.length < 32 then sxAddr
  else
    match sxAddrDb sxAddr.scan_pubkey with
    | none => sxAddr
    | some sxAddrTemp => { sxAddr with spend_secret := sxAddrTemp.spend_secret }

end CStealthAddress

def writeStealthAddresses (sxAddrDb : List UInt8 → Option CStealthAddress)
    (addrs : List CStealthAddress) : List UInt8 → Option CStealthAddress :=
  addrs.foldl (fun db sxAddr =>
    if sxAddr.scan_secret.length < 32 then db
    else Function.update db sxAddr.scan_pubkey (some sxAddr)) sxAddrDb

namespace CWallet

def AddKey (w : CWallet) (key : CKey) : Option CWallet :=
  (w.toCCryptoKeyStore.AddKey ctx key).map fun s => { w with toCCryptoKeyStore := s }

/-- Fills in the secret of a key that was received while the wallet was locked. -/
def ExpandKey (w : CWallet) (ckid : CKeyID) : CWallet :=
  match w.mapCryptedKeys.find ckid with
  | none => w
  | some (pubKey, vchCryptedSecret) =>
    if vchCryptedSecret.length ≠ 0 then w
    else
      match w.mapStealthKeyMeta (pubKey.GetID ctx.Hash160) with
      | none => w
      | some sxKeyMeta =>
        match w.stealthAddresses.find? fun a => a.scan_pubkey == sxKeyMeta.pkScan.vch with
        | none => w
        | some si =>
          if si.spend_secret.length ≠ ec_secret_size ∨ si.scan_secret.length ≠ ec_secret_size then w
          else
            match StealthSecretSpend ctx si.scan_secret sxKeyMeta.pkEphem.vch si.spend_secret with
            | none => w
            | some sSpendR =>
              if (ctx.SecretToPublicKey sSpendR).isNone then w
              else
                match CKey.Set ctx sSpendR true with
                | none => w
                | some ckey =>
                  if (ckey.GetPubKey ctx).IsValid = false then w
                  else if ckey.GetPubKey ctx ≠ pubKey then w
                  else (w.AddKey ctx ckey).getD w

/-- Decrypts the spend secrets, and fills in the secrets that are missing. -/
def UnlockStealthAddresses (w : CWallet) (vMasterKeyIn : List UInt8) : CWallet :=
  let w := { w with stealthAddresses :=
    w.stealthAddresses.map (CStealthAddress.Decrypt ctx vMasterKeyIn) }
  w.mapCryptedKeys.keys.foldl (ExpandKey ctx) w

def Lock (w : CWallet) : Bool × CWallet :=
  if w.IsLocked then (true, w)
  else
    let w := { w with stealthAddresses :=
      w.stealthAddresses.map (CStealthAddress.Reload w.sxAddrDb) }
    match w.LockKeyStore with
    | none => (false, w)
    | some s => (true, { w with toCCryptoKeyStore := s, fWalletUnlockStakingOnly := false })

def openMasterKey (strWalletPassphrase : List UInt8) (pMasterKey : CMasterKey) :
    Option (List UInt8) :=
  (SetKeyFromPassphrase ctx strWalletPassphrase pMasterKey.vchSalt pMasterKey.nDeriveIterations
    pMasterKey.nDerivationMethod).bind fun crypter =>
      ctx.EVP_Decrypt crypter.1 crypter.2 pMasterKey.vchCryptedKey

def Unlock (w : CWallet) (strWalletPassphrase : List UInt8) (anonymizeOnly stakingOnly : Bool) :
    Bool × CWallet :=
  if w.IsLocked = false ∧ w.fWalletUnlockStakingOnly = false then
    (true, { w with fWalletUnlockAnonymizeOnly := anonymizeOnly })
  else
    match w.mapMasterKeys with
    | [] =>
      (true, UnlockStealthAddresses ctx { w with
        fWalletUnlockAnonymizeOnly := anonymizeOnly, fWalletUnlockStakingOnly := stakingOnly } [])
    | pMasterKey :: _ =>
      match openMasterKey ctx strWalletPassphrase pMasterKey with
      | none => (false, w)
      | some vMasterKey =>
        match w.toCCryptoKeyStore.Unlock ctx vMasterKey with
        | none => (false, w)
        | some s =>
          (true, UnlockStealthAddresses ctx { w with
            toCCryptoKeyStore := s
            fWalletUnlockAnonymizeOnly := anonymizeOnly
            fWalletUnlockStakingOnly := stakingOnly } vMasterKey)

/-- What `EncryptWallet` draws at random, measures or is configured with. -/
structure Encryption where
  vMasterKey : List UInt8
  vchSalt : List UInt8
  nDeriveIterations : ℕ
  nDerivationMethod : ℕ
  newKeys : List CKey
  vMasterKey_length : vMasterKey.length = WALLET_CRYPTO_KEY_SIZE

def NewKeyPool (w : CWallet) (newKeys : List CKey) : Option CWallet :=
  if w.IsLocked then some w else newKeys.foldlM (AddKey ctx) w

/-- Encrypts a wallet. There is no result when it refuses, and when the program ends because the keys
cannot be encrypted. -/
def EncryptWallet (w : CWallet) (strWalletPassphrase : List UInt8) (e : Encryption) :
    Option CWallet := do
  if w.IsCrypted then none
  let crypter ← SetKeyFromPassphrase ctx strWalletPassphrase e.vchSalt e.nDeriveIterations
    e.nDerivationMethod
  let kMasterKey : CMasterKey := {
    vchCryptedKey := ctx.EVP_Encrypt crypter.1 crypter.2 e.vMasterKey
    vchSalt := e.vchSalt
    nDerivationMethod := e.nDerivationMethod
    nDeriveIterations := e.nDeriveIterations }
  let s ← w.toCCryptoKeyStore.EncryptKeys ctx e.vMasterKey
  let addrs := w.stealthAddresses.map (CStealthAddress.Encrypt ctx e.vMasterKey)
  let w : CWallet := { w with
    toCCryptoKeyStore := s
    mapMasterKeys := w.mapMasterKeys ++ [kMasterKey]
    stealthAddresses := addrs
    sxAddrDb := writeStealthAddresses w.sxAddrDb addrs }
  let w := w.Lock.2
  let w := (w.Unlock ctx strWalletPassphrase false false).2
  let w ← w.NewKeyPool ctx e.newKeys
  return w.Lock.2

/-- What a wallet does with an output that pays to the key of a payment to one of its stealth
addresses, with the shared secret of the payment. -/
def TakeStealthKey (w : CWallet) (it : CStealthAddress) (vchEphemPK sShared : List UInt8)
    (cpkE : CPubKey) : Option CWallet :=
  if w.IsLocked then
    let s := (w.toCCryptoKeyStore.AddCryptedKey ctx cpkE []).getD w.toCCryptoKeyStore
    some { w with
      toCCryptoKeyStore := s
      mapStealthKeyMeta := Function.update w.mapStealthKeyMeta (cpkE.GetID ctx.Hash160)
        (some ⟨CPubKey.ofBytes vchEphemPK, CPubKey.ofBytes it.scan_pubkey⟩) }
  else if it.spend_secret.length ≠ ec_secret_size then none
  else do
    let sSpendR ← StealthSharedToSecretSpend ctx sShared it.spend_secret
    let _ ← ctx.SecretToPublicKey sSpendR
    let ckey ← CKey.Set ctx sSpendR true
    if (ckey.GetPubKey ctx).IsValid = false then none
    w.AddKey ctx ckey

def matchStealthAddress (w : CWallet) (vchEphemPK : List UInt8) (ckidMatch : CKeyID) :
    List CStealthAddress → Option CWallet
  | [] => none
  | it :: addrs =>
    if it.scan_secret.length ≠ ec_secret_size then w.matchStealthAddress vchEphemPK ckidMatch addrs
    else
      match StealthSecret ctx it.scan_secret vchEphemPK it.spend_pubkey with
      | none => w.matchStealthAddress vchEphemPK ckidMatch addrs
      | some (sShared, pkExtracted) =>
        let cpkE := CPubKey.ofBytes pkExtracted
        if cpkE.IsValid = false ∨ ckidMatch ≠ cpkE.GetID ctx.Hash160 then
          w.matchStealthAddress vchEphemPK ckidMatch addrs
        else
          match w.TakeStealthKey ctx it vchEphemPK sShared cpkE with
          | none => w.matchStealthAddress vchEphemPK ckidMatch addrs
          | some w' => some w'

/-- The other outputs of a transaction are tried one after the other, until one of them pays to a key
that is taken. -/
def matchOutputs (w : CWallet) (vchEphemPK : List UInt8) : List CTxOut → CWallet
  | [] => w
  | txoutB :: outs =>
    match ExtractDestination ctx.Hash160 txoutB.scriptPubKey with
    | some (.keyID ckidMatch) =>
      if w.HaveKey ckidMatch then w.matchOutputs vchEphemPK outs
      else
        match w.matchStealthAddress ctx vchEphemPK ckidMatch w.stealthAddresses with
        | none => w.matchOutputs vchEphemPK outs
        | some w' => w'
    | _ => w.matchOutputs vchEphemPK outs

end CWallet

/-- The point that an output carries for a stealth payment. -/
def ephemeralKey (txout : CTxOut) : Option (List UInt8) :=
  match readInstruction txout.scriptPubKey with
  | none => none
  | some op =>
    if op.opcode ≠ OP_RETURN then none
    else
      match readInstruction op.rest with
      | none => none
      | some data => if data.vch.length ≠ 33 then none else some data.vch

namespace CWallet

def FindStealthTransactions (w : CWallet) (tx : CTransaction) : CWallet :=
  (List.range tx.vout.length).foldl (fun w nOutputIdOuter =>
    match tx.vout[nOutputIdOuter]?.bind ephemeralKey with
    | none => w
    | some vchEphemPK => w.matchOutputs ctx vchEphemPK (tx.vout.eraseIdx nOutputIdOuter)) w

end CWallet

end ZalemCoin.Wallet
