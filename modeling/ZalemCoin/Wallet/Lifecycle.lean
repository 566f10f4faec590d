import ZalemCoin.Wallet.Stealth

/-!
# The life of an encrypted wallet

A wallet that is encrypted, locked and unlocked is followed by one that processes the same keys and
payments and is never encrypted. Every entry of the encrypted wallet is the encrypted secret of the
key that the other one has, or the empty secret of a payment received while locked. Unlocking with the
passphrase then gives the keys of the other wallet, unless the first entry, which is the one that
`Unlock` tries, is such an empty secret.
-/

namespace ZalemCoin.Wallet

open Chain Lib Script

/-- An address that a wallet owns, with its spend secret in the clear. -/
structure CStealthAddress.Owned (ctx : KeyContext) (a : CStealthAddress) : Prop where
  scan_length : a.scan_secret.length = 32
  spend_length : a.spend_secret.length = 32
  spend_point : ctx.SecretToPublicKey a.spend_secret = some a.spend_pubkey
  scan_point : (CPubKey.ofBytes a.scan_pubkey).vch = a.scan_pubkey

structure CWallet.Plain (ctx : KeyContext) (t : CWallet) : Prop where
  crypted : t.fUseCrypto = false
  keys : ∀ id key, t.mapKeys.find id = some key →
    key.IsValid ctx ∧ (key.GetPubKey ctx).GetID ctx.Hash160 = id
  addresses : ∀ a ∈ t.stealthAddresses, a.scan_secret.length < 32 ∨ a.Owned ctx
  distinct : t.stealthAddresses.Pairwise fun a b => a.scan_pubkey ≠ b.scan_pubkey

/-- The private key of a payment can be computed from what the wallet stores about it. -/
structure Expandable (ctx : KeyContext) (metas : CKeyID → Option CStealthKeyMetadata)
    (addrs : List CStealthAddress) (key : CKey) : Prop where
  compressed : key.fCompressed = true
  secret : ∃ sxKeyMeta a c, metas ((key.GetPubKey ctx).GetID ctx.Hash160) = some sxKeyMeta ∧
    a ∈ addrs ∧ a.Owned ctx ∧ sxKeyMeta.pkScan.vch = a.scan_pubkey ∧
    ctx.sharedSecret a.scan_secret sxKeyMeta.pkEphem.vch = some c ∧
    ctx.addSecret a.spend_secret c = some key.vch

def CWallet.EntryFor (ctx : KeyContext) (w t : CWallet) (vMasterKey : List UInt8) (id : CKeyID) :
    Prop :=
  w.mapCryptedKeys.find id = none ∧ t.mapKeys.find id = none ∨
    ∃ key, t.mapKeys.find id = some key ∧
      (w.mapCryptedKeys.find id = some (key.GetPubKey ctx,
          ctx.EVP_Encrypt vMasterKey (PubKeyHash ctx (key.GetPubKey ctx)) key.vch) ∨
        w.mapCryptedKeys.find id = some (key.GetPubKey ctx, []) ∧
          Expandable ctx w.mapStealthKeyMeta t.stealthAddresses key)

structure CWallet.Encrypted (ctx : KeyContext) (w t : CWallet)
    (strWalletPassphrase vMasterKey : List UInt8) : Prop where
  crypted : w.fUseCrypto = true
  master_length : vMasterKey.length = 32
  master : w.vMasterKey = [] ∨ w.vMasterKey = vMasterKey
  passphrase : ∃ pMasterKey rest, w.mapMasterKeys = pMasterKey :: rest ∧
    CWallet.openMasterKey ctx strWalletPassphrase pMasterKey = some vMasterKey
  entries : ∀ id, w.EntryFor ctx t vMasterKey id
  unlocked : w.IsLocked = false → w.stealthAddresses = t.stealthAddresses
  locked : w.IsLocked = true →
    w.stealthAddresses = t.stealthAddresses.map (CStealthAddress.Encrypt ctx vMasterKey)
  db : ∀ a ∈ t.stealthAddresses, 32 ≤ a.scan_secret.length → ∃ r, w.sxAddrDb a.scan_pubkey = some r ∧
    r.spend_secret = (a.Encrypt ctx vMasterKey).spend_secret

/-- Whether an identifier has no empty secret. -/
def CWallet.FullAt (w : CWallet) (id : CKeyID) : Prop :=
  ∀ pk c, w.mapCryptedKeys.find id = some (pk, c) → c ≠ []

/-- A wallet that is not encrypted yet, and the other one. -/
structure CWallet.Unencrypted (w t : CWallet) : Prop where
  crypted : w.fUseCrypto = false
  keys : w.mapKeys = t.mapKeys
  noCrypted : w.mapCryptedKeys = SortedMap.empty
  noMaster : w.mapMasterKeys = []
  noMasterKey : w.vMasterKey = []
  stakingOnly : w.fWalletUnlockStakingOnly = false
  addresses : w.stealthAddresses = t.stealthAddresses
  db : ∀ a ∈ t.stealthAddresses, 32 ≤ a.scan_secret.length → ∃ r, w.sxAddrDb a.scan_pubkey = some r ∧
    r.spend_secret = a.spend_secret

/-- A wallet, the one that processes the same keys and payments without being encrypted, and the
passphrase once there is one. -/
structure Pair where
  wallet : CWallet
  twin : CWallet
  passphrase : Option (List UInt8)

/-- What holds of a wallet and the one that is not encrypted. -/
def Pair.Keeps (ctx : KeyContext) (p : Pair) : Prop :=
  p.twin.Plain ctx ∧
    match p.passphrase with
    | none => p.wallet.Unencrypted p.twin
    | some strWalletPassphrase => ∃ vMasterKey,
        p.wallet.Encrypted ctx p.twin strWalletPassphrase vMasterKey ∧
          (p.wallet.IsLocked = false → ∀ id, p.wallet.FullAt id)

variable {ctx : KeyContext} {vMasterKey : List UInt8}

section

variable {a : CStealthAddress}

theorem encryptSecret_eq (hlen : vMasterKey.length = 32) (text : List UInt8) (nIV : UInt256) :
    EncryptSecret ctx vMasterKey text nIV = some (ctx.EVP_Encrypt vMasterKey nIV text) :=
  if_neg (not_not.mpr hlen)

theorem decryptSecret_eq (hlen : vMasterKey.length = 32) (cipher : List UInt8) (nIV : UInt256) :
    DecryptSecret ctx vMasterKey cipher nIV = ctx.EVP_Decrypt vMasterKey nIV cipher :=
  if_neg (not_not.mpr hlen)

theorem decryptSecret_length (hctx : ctx.Lawful) {cipher text : List UInt8} {nIV : UInt256}
    (h : DecryptSecret ctx vMasterKey cipher nIV = some text) : text.length < cipher.length := by
  unfold DecryptSecret at h
  split at h
  · simp at h
  · exact hctx.decrypt_length _ _ _ _ h

theorem CStealthAddress.encrypt_eq (hlen : vMasterKey.length = 32)
    (ha : 32 ≤ a.scan_secret.length) :
    a.Encrypt ctx vMasterKey = ⟨a.options, a.scan_pubkey, a.spend_pubkey, a.scan_secret,
      ctx.EVP_Encrypt vMasterKey (ctx.Hash a.spend_pubkey) (a.spend_secret.take 32)⟩ := by
  unfold CStealthAddress.Encrypt
  rw [if_neg (not_lt.mpr ha), encryptSecret_eq hlen]

theorem CStealthAddress.encrypt_frame (a : CStealthAddress) (vMasterKey : List UInt8) :
    (a.Encrypt ctx vMasterKey).scan_pubkey = a.scan_pubkey ∧
      (a.Encrypt ctx vMasterKey).spend_pubkey = a.spend_pubkey ∧
      (a.Encrypt ctx vMasterKey).scan_secret = a.scan_secret := by
  unfold CStealthAddress.Encrypt
  split
  · exact ⟨rfl, rfl, rfl⟩
  · split <;> exact ⟨rfl, rfl, rfl⟩

variable (hctx : ctx.Lawful)
include hctx

theorem CStealthAddress.decrypt_encrypt (hlen : vMasterKey.length = 32)
    (ha : a.scan_secret.length < 32 ∨ a.Owned ctx) :
    (a.Encrypt ctx vMasterKey).Decrypt ctx vMasterKey = a := by
  rcases ha with ha | ha
  · unfold CStealthAddress.Encrypt CStealthAddress.Decrypt
    rw [if_pos ha, if_pos ha]
  · rw [CStealthAddress.encrypt_eq hlen (ge_of_eq ha.scan_length)]
    unfold CStealthAddress.Decrypt
    have htake : a.spend_secret.take 32 = a.spend_secret :=
      List.take_of_length_le (le_of_eq ha.spend_length)
    rw [if_neg (not_lt.mpr (ge_of_eq ha.scan_length)), decryptSecret_eq hlen, htake,
      hctx.decrypt_encrypt]
    dsimp only
    rw [if_neg (not_not.mpr ha.spend_length), if_pos ha.spend_point]

theorem CStealthAddress.decrypt_self (vMasterKeyIn : List UInt8)
    (ha : a.scan_secret.length < 32 ∨ a.Owned ctx) : a.Decrypt ctx vMasterKeyIn = a := by
  unfold CStealthAddress.Decrypt
  rcases ha with ha | ha
  · rw [if_pos ha]
  · split
    · rfl
    · split
      · rfl
      · rename_i vchSecret hsec
        have hlt := decryptSecret_length hctx hsec
        have hspend := ha.spend_length
        rw [if_pos (by omega)]

theorem decryptsKey_encrypt (hlen : vMasterKey.length = 32) {key : CKey} (hkey : key.IsValid ctx) :
    CCryptoKeyStore.DecryptsKey ctx vMasterKey (key.GetPubKey ctx)
      (ctx.EVP_Encrypt vMasterKey (PubKeyHash ctx (key.GetPubKey ctx)) key.vch) = true := by
  unfold CCryptoKeyStore.DecryptsKey
  rw [decryptSecret_eq hlen, hctx.decrypt_encrypt]
  dsimp only
  rw [hkey.isCompressed hctx, hkey.set]
  exact beq_self_eq_true _

theorem encrypt_ne_nil (chKey : List UInt8) (chIV : UInt256)
    (text : List UInt8) : ctx.EVP_Encrypt chKey chIV text ≠ [] := by
  intro hnil
  have hlt := hctx.decrypt_length _ _ _ _ (hctx.decrypt_encrypt chKey chIV text)
  rw [hnil] at hlt
  simp at hlt

theorem decryptsKey_nil (vMasterKeyIn : List UInt8) (pubkey : CPubKey) :
    CCryptoKeyStore.DecryptsKey ctx vMasterKeyIn pubkey [] = false := by
  unfold CCryptoKeyStore.DecryptsKey
  split
  · rfl
  · rename_i vchSecret hsec
    have hlt := decryptSecret_length hctx hsec
    simp at hlt

end

variable {w t : CWallet} {strWalletPassphrase : List UInt8}

section

variable {key : CKey}

def CKey.id (ctx : KeyContext) (key : CKey) : CKeyID := (key.GetPubKey ctx).GetID ctx.Hash160

def CKey.encrypted (ctx : KeyContext) (vMasterKey : List UInt8) (key : CKey) : List UInt8 :=
  ctx.EVP_Encrypt vMasterKey (PubKeyHash ctx (key.GetPubKey ctx)) key.vch

def CWallet.putKey (ctx : KeyContext) (t : CWallet) (key : CKey) : CWallet :=
  { t with mapKeys := t.mapKeys.insert (key.id ctx) key }

/-- A wallet that is encrypted, with the entry of one more key and what is known about it. -/
def CWallet.putCrypted (ctx : KeyContext) (w : CWallet) (key : CKey) (vchCryptedSecret : List UInt8)
    (metas : CKeyID → Option CStealthKeyMetadata) : CWallet :=
  { w with
    mapCryptedKeys := w.mapCryptedKeys.insert (key.id ctx) (key.GetPubKey ctx, vchCryptedSecret)
    mapStealthKeyMeta := metas }

theorem CWallet.addKey_plain (ht : t.fUseCrypto = false) (key : CKey) :
    t.AddKey ctx key = some (t.putKey ctx key) := by
  unfold CWallet.AddKey CCryptoKeyStore.AddKey CCryptoKeyStore.AddKeyPubKey CCryptoKeyStore.IsCrypted
  rw [if_pos ht]
  rfl

theorem CWallet.isLocked_of_master (hw : w.fUseCrypto = true) (hmas : w.vMasterKey = vMasterKey)
    (hlen : vMasterKey.length = 32) : w.IsLocked = false := by
  unfold CCryptoKeyStore.IsLocked
  rw [hw, hmas]
  cases vMasterKey with
  | nil => simp at hlen
  | cons b bytes => rfl

theorem CWallet.addKey_crypted (hw : w.fUseCrypto = true) (hmas : w.vMasterKey = vMasterKey)
    (hlen : vMasterKey.length = 32) (key : CKey) :
    w.AddKey ctx key = some (w.putCrypted ctx key (key.encrypted ctx vMasterKey)
      w.mapStealthKeyMeta) := by
  have hlocked : w.IsLocked = false := CWallet.isLocked_of_master hw hmas hlen
  unfold CWallet.AddKey CCryptoKeyStore.AddKey CCryptoKeyStore.AddKeyPubKey CCryptoKeyStore.IsCrypted
  rw [if_neg (by simp [hw]), hlocked, if_neg Bool.false_ne_true, hmas, encryptSecret_eq hlen]
  unfold CCryptoKeyStore.AddCryptedKey CCryptoKeyStore.SetCrypted
  rw [Option.bind_some, if_pos hw]
  rfl

theorem CWallet.Plain.putKey (h : t.Plain ctx) (hkey : key.IsValid ctx) :
    (t.putKey ctx key).Plain ctx := by
  refine ⟨h.crypted, fun id k hfind => ?_, h.addresses, h.distinct⟩
  unfold CWallet.putKey at hfind
  rw [SortedMap.find_insert] at hfind
  split at hfind
  · rename_i hid
    cases hfind
    exact ⟨hkey, hid.symm⟩
  · exact h.keys id k hfind

variable (h : w.Encrypted ctx t strWalletPassphrase vMasterKey)
include h

theorem CWallet.Encrypted.haveKey (ht : t.Plain ctx) (id : CKeyID) :
    w.HaveKey id = t.HaveKey id := by
  unfold CCryptoKeyStore.HaveKey CCryptoKeyStore.IsCrypted
  rw [h.crypted, ht.crypted, if_pos rfl, if_neg Bool.false_ne_true]
  rcases h.entries id with ⟨hw, ht⟩ | ⟨key, ht, ⟨hw⟩ | ⟨hw, -⟩⟩ <;> rw [hw, ht] <;> rfl

theorem CWallet.Encrypted.put (ht : t.Plain ctx) {c : List UInt8}
    {metas : CKeyID → Option CStealthKeyMetadata}
    (hc : c = key.encrypted ctx vMasterKey ∨ c = [] ∧ Expandable ctx metas t.stealthAddresses key)
    (hmetas : ∀ id, id ≠ key.id ctx → metas id = w.mapStealthKeyMeta id) :
    (w.putCrypted ctx key c metas).Encrypted ctx (t.putKey ctx key) strWalletPassphrase
      vMasterKey := by
  refine ⟨h.crypted, h.master_length, h.master, h.passphrase, fun id => ?_, h.unlocked, h.locked,
    h.db⟩
  unfold CWallet.EntryFor CWallet.putCrypted CWallet.putKey
  dsimp only
  rw [SortedMap.find_insert, SortedMap.find_insert]
  by_cases hid : id = key.id ctx
  · rw [if_pos hid, if_pos hid]
    apply Or.inr
    refine ⟨key, rfl, ?_⟩
    rcases hc with rfl | ⟨rfl, hexpand⟩
    · exact .inl rfl
    · exact .inr ⟨rfl, hexpand⟩
  · rw [if_neg hid, if_neg hid]
    rcases h.entries id with hnone | ⟨k, hk, hent⟩
    · exact .inl hnone
    · apply Or.inr
      refine ⟨k, hk, hent.imp_right fun ⟨hw, hexpand⟩ => ⟨hw, hexpand.compressed, ?_⟩⟩
      -- What is known about another key has not changed.
      obtain ⟨sxKeyMeta, a, c, hmeta, hrest⟩ := hexpand.secret
      have hkid : (k.GetPubKey ctx).GetID ctx.Hash160 = id := (ht.keys id k hk).2
      refine ⟨sxKeyMeta, a, c, ?_, hrest⟩
      rw [hkid] at hmeta ⊢
      rw [hmetas id hid, hmeta]

theorem CWallet.Encrypted.congr_twin {t' : CWallet}
    (hkeys : ∀ id, t'.mapKeys.find id = t.mapKeys.find id)
    (haddrs : t'.stealthAddresses = t.stealthAddresses) :
    w.Encrypted ctx t' strWalletPassphrase vMasterKey := by
  refine ⟨h.crypted, h.master_length, h.master, h.passphrase, fun id => ?_, ?_, ?_, ?_⟩
  · unfold CWallet.EntryFor
    rw [hkeys, haddrs]
    exact h.entries id
  · rw [haddrs]
    exact h.unlocked
  · rw [haddrs]
    exact h.locked
  · rw [haddrs]
    exact h.db

omit h

theorem CWallet.Plain.find_scan (ht : t.Plain ctx) {a : CStealthAddress}
    (ha : a ∈ t.stealthAddresses) :
    t.stealthAddresses.find? (fun b => b.scan_pubkey == a.scan_pubkey) = some a := by
  cases hfound : t.stealthAddresses.find? fun b => b.scan_pubkey == a.scan_pubkey with
  | none => exact absurd (List.find?_eq_none.mp hfound a ha) (by simp)
  | some b =>
    have hscan : b.scan_pubkey = a.scan_pubkey := by
      have hbeq := @List.find?_some _ (fun b : CStealthAddress => b.scan_pubkey == a.scan_pubkey)
        _ _ hfound
      exact eq_of_beq hbeq
    have hmem := List.mem_of_find?_eq_some hfound
    have hnd : (t.stealthAddresses.map CStealthAddress.scan_pubkey).Nodup :=
      List.pairwise_map.mpr ht.distinct
    rw [List.inj_on_of_nodup_map hnd hmem ha hscan]

theorem CPubKey.isValid_of_isCompressed {pubkey : CPubKey} (h : pubkey.IsCompressed = true) :
    pubkey.IsValid = true := by
  unfold CPubKey.IsCompressed at h
  unfold CPubKey.IsValid
  cases hvch : pubkey.vch with
  | nil =>
    rw [hvch] at h
    simp at h
  | cons b bytes => rfl

/-- A key that was received in a locked wallet is found when it is unlocked. -/
theorem CWallet.Encrypted.expandKey_received (hctx : ctx.Lawful)
    (h : w.Encrypted ctx t strWalletPassphrase vMasterKey) (ht : t.Plain ctx)
    (hunl : w.vMasterKey = vMasterKey) {id : CKeyID} (hkey : t.mapKeys.find id = some key)
    (hent : w.mapCryptedKeys.find id = some (key.GetPubKey ctx, []))
    (hexpand : Expandable ctx w.mapStealthKeyMeta t.stealthAddresses key) :
    w.ExpandKey ctx id
      = w.putCrypted ctx key (key.encrypted ctx vMasterKey) w.mapStealthKeyMeta := by
  obtain ⟨hvalid, hid⟩ := ht.keys id key hkey
  obtain ⟨sxKeyMeta, a, c, hmeta, ha, howned, hscan, hshared, hsum⟩ := hexpand.secret
  have hlocked : w.IsLocked = false :=
    CWallet.isLocked_of_master h.crypted hunl h.master_length
  have hfind : w.stealthAddresses.find? (fun b => b.scan_pubkey == sxKeyMeta.pkScan.vch)
      = some a := by
    rw [h.unlocked hlocked, hscan]
    exact ht.find_scan ha
  have hspend : StealthSecretSpend ctx a.scan_secret sxKeyMeta.pkEphem.vch a.spend_secret
      = some key.vch := by
    unfold StealthSecretSpend
    rw [hshared]
    exact hsum
  have hpoint := hctx.addSecret_point _ _ _ hsum
  have hset : CKey.Set ctx key.vch true = some key := by
    have hset := hvalid.set
    rwa [hexpand.compressed] at hset
  have hpubkey : (key.GetPubKey ctx).IsValid = true := by
    apply CPubKey.isValid_of_isCompressed
    rw [hvalid.isCompressed hctx, hexpand.compressed]
  unfold CWallet.ExpandKey
  rw [hent]
  dsimp only
  rw [if_neg (by simp), hmeta]
  dsimp only
  rw [hfind]
  dsimp only
  rw [if_neg (by simp [howned.spend_length, howned.scan_length, ec_secret_size]), hspend]
  dsimp only
  rw [hpoint, if_neg (by simp), hset]
  dsimp only
  rw [if_neg (by simp [hpubkey]), if_neg (by simp),
    CWallet.addKey_crypted h.crypted hunl h.master_length]
  rfl

/-- Filling in the secret of an identifier keeps the two wallets related and every secret that is
there. -/
theorem CWallet.Encrypted.expandKey (hctx : ctx.Lawful)
    (h : w.Encrypted ctx t strWalletPassphrase vMasterKey) (ht : t.Plain ctx)
    (hunl : w.vMasterKey = vMasterKey) (id : CKeyID) :
    (w.ExpandKey ctx id).Encrypted ctx t strWalletPassphrase vMasterKey ∧
      (w.ExpandKey ctx id).vMasterKey = vMasterKey ∧ (w.ExpandKey ctx id).FullAt id ∧
      ∀ id', w.FullAt id' → (w.ExpandKey ctx id).FullAt id' := by
  rcases h.entries id with ⟨hw, -⟩ | ⟨key, hkey, hw | ⟨hw, hexpand⟩⟩
  · have hsame : w.ExpandKey ctx id = w := by
      unfold CWallet.ExpandKey
      rw [hw]
    rw [hsame]
    refine ⟨h, hunl, fun pk c hfind => ?_, fun _ hfull => hfull⟩
    rw [hw] at hfind
    simp at hfind
  · have hne := encrypt_ne_nil hctx vMasterKey (PubKeyHash ctx (key.GetPubKey ctx)) key.vch
    have hsame : w.ExpandKey ctx id = w := by
      unfold CWallet.ExpandKey
      rw [hw]
      dsimp only
      rw [if_pos fun hlen => hne (List.eq_nil_of_length_eq_zero hlen)]
    rw [hsame]
    refine ⟨h, hunl, fun pk c hfind => ?_, fun _ hfull => hfull⟩
    rw [hw] at hfind
    cases hfind
    exact hne
  · have hkid : key.id ctx = id := (ht.keys id key hkey).2
    have hput := h.put ht (.inl rfl : key.encrypted ctx vMasterKey = _ ∨ _)
      (fun _ _ => rfl : ∀ id, id ≠ key.id ctx → w.mapStealthKeyMeta id = _)
    rw [h.expandKey_received hctx ht hunl hkey hw hexpand]
    have hfull : ∀ id', w.FullAt id' ∨ id' = id →
        (w.putCrypted ctx key (key.encrypted ctx vMasterKey) w.mapStealthKeyMeta).FullAt id' := by
      intro id' hid' pk c hfind
      unfold CWallet.putCrypted at hfind
      rw [SortedMap.find_insert, hkid] at hfind
      split at hfind
      · cases hfind
        exact encrypt_ne_nil hctx _ _ _
      · rename_i hne
        exact hid'.resolve_right hne pk c hfind
    refine ⟨hput.congr_twin (fun id' => ?_) rfl, hunl, hfull id (.inr rfl),
      fun id' hid' => hfull id' (.inl hid')⟩
    -- The other wallet has the key already.
    unfold CWallet.putKey
    rw [SortedMap.find_insert, hkid]
    split
    · rename_i heq
      rw [heq, hkey]
    · rfl

theorem CWallet.Encrypted.expandKeys (hctx : ctx.Lawful) (ht : t.Plain ctx) (ids : List CKeyID)
    (h : w.Encrypted ctx t strWalletPassphrase vMasterKey) (hunl : w.vMasterKey = vMasterKey) :
    (ids.foldl (CWallet.ExpandKey ctx) w).Encrypted ctx t strWalletPassphrase vMasterKey ∧
      (ids.foldl (CWallet.ExpandKey ctx) w).vMasterKey = vMasterKey ∧
      ∀ id, id ∈ ids ∨ w.FullAt id → (ids.foldl (CWallet.ExpandKey ctx) w).FullAt id := by
  induction ids generalizing w with
  | nil => exact ⟨h, hunl, fun id hid => hid.resolve_left (by simp)⟩
  | cons id ids ih =>
    obtain ⟨hstep, hmas, hid, hkeeps⟩ := h.expandKey hctx ht hunl id
    obtain ⟨hrest, hrestMaster, hfull⟩ := ih hstep hmas
    refine ⟨hrest, hrestMaster, fun id' hid' => hfull id' ?_⟩
    rcases hid' with hmem | hbef
    · rcases List.mem_cons.mp hmem with rfl | hmem
      · exact .inr hid
      · exact .inl hmem
    · exact .inr (hkeeps id' hbef)

end

def CWallet.opened (w : CWallet) (vMasterKey : List UInt8) (anonymizeOnly stakingOnly : Bool) :
    CWallet :=
  { w with
    toCCryptoKeyStore := { w.toCCryptoKeyStore with vMasterKey := vMasterKey }
    fWalletUnlockAnonymizeOnly := anonymizeOnly
    fWalletUnlockStakingOnly := stakingOnly }

variable (hctx : ctx.Lawful) (h : w.Encrypted ctx t strWalletPassphrase vMasterKey)
  (ht : t.Plain ctx)
include hctx h ht

theorem CWallet.Encrypted.map_decrypt :
    w.stealthAddresses.map (CStealthAddress.Decrypt ctx vMasterKey) = t.stealthAddresses := by
  cases hlocked : w.IsLocked with
  | true =>
    rw [h.locked hlocked, List.map_map]
    refine (List.map_congr_left fun a ha => ?_).trans (List.map_id _)
    exact CStealthAddress.decrypt_encrypt hctx h.master_length (ht.addresses a ha)
  | false =>
    rw [h.unlocked hlocked]
    refine (List.map_congr_left fun a ha => ?_).trans (List.map_id _)
    exact CStealthAddress.decrypt_self hctx _ (ht.addresses a ha)

theorem CWallet.Encrypted.unlockStealthAddresses (anonymizeOnly stakingOnly : Bool) :
    ((w.opened vMasterKey anonymizeOnly stakingOnly).UnlockStealthAddresses ctx
        vMasterKey).Encrypted ctx t strWalletPassphrase vMasterKey ∧
      ((w.opened vMasterKey anonymizeOnly stakingOnly).UnlockStealthAddresses ctx
        vMasterKey).vMasterKey = vMasterKey ∧
      ∀ id, ((w.opened vMasterKey anonymizeOnly stakingOnly).UnlockStealthAddresses ctx
        vMasterKey).FullAt id := by
  unfold CWallet.UnlockStealthAddresses CWallet.opened
  dsimp only
  rw [h.map_decrypt hctx ht]
  -- The wallet before the loop over the keys.
  generalize hw' : ({ w with
    toCCryptoKeyStore := { w.toCCryptoKeyStore with vMasterKey := vMasterKey }
    stealthAddresses := t.stealthAddresses
    fWalletUnlockAnonymizeOnly := anonymizeOnly
    fWalletUnlockStakingOnly := stakingOnly } : CWallet) = w'
  have henc : w'.Encrypted ctx t strWalletPassphrase vMasterKey := by
    subst hw'
    refine ⟨h.crypted, h.master_length, .inr rfl, h.passphrase, h.entries, fun _ => rfl,
      fun hlocked => ?_, h.db⟩
    have hunl := @CWallet.isLocked_of_master vMasterKey { w with
      toCCryptoKeyStore := { w.toCCryptoKeyStore with vMasterKey := vMasterKey }
      stealthAddresses := t.stealthAddresses
      fWalletUnlockAnonymizeOnly := anonymizeOnly
      fWalletUnlockStakingOnly := stakingOnly } h.crypted rfl h.master_length
    rw [hunl] at hlocked
    simp at hlocked
  have hmas : w'.vMasterKey = vMasterKey := by
    subst hw'
    rfl
  have hkeys : w'.mapCryptedKeys = w.mapCryptedKeys := by
    subst hw'
    rfl
  obtain ⟨hfinal, hfinalMaster, hfull⟩ := henc.expandKeys hctx ht w.mapCryptedKeys.keys hmas
  refine ⟨hfinal, hfinalMaster, fun id => hfull id ?_⟩
  by_cases hid : id ∈ w.mapCryptedKeys.keys
  · exact .inl hid
  · apply Or.inr
    intro pk c hfind
    rw [hkeys, SortedMap.find_eq_none.mpr hid] at hfind
    simp at hfind

theorem CWallet.Encrypted.checksMasterKey_iff :
    w.ChecksMasterKey ctx vMasterKey = true ↔
      ∀ id pk c, w.mapCryptedKeys.first = some (id, pk, c) → c ≠ [] := by
  unfold CCryptoKeyStore.ChecksMasterKey
  cases hfst : w.mapCryptedKeys.first with
  | none => simp
  | some e =>
    obtain ⟨id, pk, c⟩ := e
    obtain ⟨hfind, -⟩ := SortedMap.first_eq_some hfst
    dsimp only
    rcases h.entries id with ⟨hw, -⟩ | ⟨key, hkey, hw | ⟨hw, -⟩⟩
    · rw [hfind] at hw
      simp at hw
    · rw [hfind] at hw
      cases hw
      rw [decryptsKey_encrypt hctx h.master_length (ht.keys id key hkey).1]
      refine ⟨fun _ id' pk' c' heq => ?_, fun _ => rfl⟩
      obtain ⟨-, hrest⟩ := Prod.mk.inj (Option.some.inj heq)
      rw [← (Prod.mk.inj hrest).2]
      exact encrypt_ne_nil hctx _ _ _
    · rw [hfind] at hw
      cases hw
      rw [decryptsKey_nil hctx]
      exact ⟨fun hfalse => absurd hfalse (by simp), fun hall => absurd rfl (hall _ _ _ rfl)⟩

def CWallet.Rejects (ctx : KeyContext) (w : CWallet) (strWalletPassphrase correct : List UInt8) :
    Prop :=
  ∀ pMasterKey rest vMasterKey, w.mapMasterKeys = pMasterKey :: rest →
    CWallet.openMasterKey ctx strWalletPassphrase pMasterKey = some vMasterKey →
      CWallet.openMasterKey ctx correct pMasterKey = some vMasterKey ∨
        w.ChecksMasterKey ctx vMasterKey = false

omit hctx ht in
theorem CWallet.Encrypted.master_of_unlocked (hlocked : w.IsLocked = false) :
    w.vMasterKey = vMasterKey := by
  rcases h.master with hnil | hmas
  · unfold CCryptoKeyStore.IsLocked at hlocked
    rw [h.crypted, hnil] at hlocked
    simp at hlocked
  · exact hmas

omit hctx ht in
theorem CWallet.Encrypted.unlock_cases {passphrase : List UInt8}
    (hrejects : w.Rejects ctx passphrase strWalletPassphrase)
    (anonymizeOnly stakingOnly : Bool) :
    w.IsLocked = false ∧ w.fWalletUnlockStakingOnly = false ∧
        w.Unlock ctx passphrase anonymizeOnly stakingOnly
          = (true, { w with fWalletUnlockAnonymizeOnly := anonymizeOnly }) ∨
      w.Unlock ctx passphrase anonymizeOnly stakingOnly = (false, w) ∨
      w.Unlock ctx passphrase anonymizeOnly stakingOnly
        = (true, (w.opened vMasterKey anonymizeOnly stakingOnly).UnlockStealthAddresses ctx
            vMasterKey) := by
  obtain ⟨pMasterKey, rest, hkeys, hopen⟩ := h.passphrase
  unfold CWallet.Unlock
  split
  · rename_i hopened
    exact .inl ⟨hopened.1, hopened.2, rfl⟩
  · apply Or.inr
    rw [hkeys]
    dsimp only
    cases hpass : CWallet.openMasterKey ctx passphrase pMasterKey with
    | none => exact .inl rfl
    | some k =>
      dsimp only
      unfold CCryptoKeyStore.Unlock CCryptoKeyStore.SetCrypted
      rw [if_pos h.crypted, Option.bind_some]
      rcases hrejects pMasterKey rest k hkeys hpass with hsame | hchk
      · rw [hopen] at hsame
        cases hsame
        split
        · exact .inl rfl
        · rename_i s hs
          split at hs
          · cases hs
            apply Or.inr
            unfold CWallet.opened
            rw [hkeys]
          · simp at hs
      · rw [if_neg (by simp [hchk])]
        exact .inl rfl

theorem CWallet.Encrypted.unlock_correct
    (hfull : w.IsLocked = false → ∀ id, w.FullAt id) (anonymizeOnly stakingOnly : Bool) :
    (w.Unlock ctx strWalletPassphrase anonymizeOnly stakingOnly).1 = true ↔
      ∀ id pk c, w.mapCryptedKeys.first = some (id, pk, c) → c ≠ [] := by
  obtain ⟨pMasterKey, rest, hkeys, hopen⟩ := h.passphrase
  unfold CWallet.Unlock
  split
  · rename_i hopened
    refine ⟨fun _ id pk c hfst => ?_, fun _ => rfl⟩
    exact hfull hopened.1 id pk c (SortedMap.first_eq_some hfst).1
  · rw [hkeys, ← h.checksMasterKey_iff hctx ht]
    dsimp only
    rw [hopen]
    dsimp only
    unfold CCryptoKeyStore.Unlock CCryptoKeyStore.SetCrypted
    rw [if_pos h.crypted, Option.bind_some]
    cases hchk : w.ChecksMasterKey ctx vMasterKey with
    | true => rw [if_pos rfl]
    | false => rw [if_neg Bool.false_ne_true]

theorem CWallet.Encrypted.unlock (hfull : w.IsLocked = false → ∀ id, w.FullAt id) {passphrase : List UInt8}
    (hrejects : w.Rejects ctx passphrase strWalletPassphrase) (anonymizeOnly stakingOnly : Bool) :
    (w.Unlock ctx passphrase anonymizeOnly stakingOnly).2.Encrypted ctx t strWalletPassphrase
        vMasterKey ∧
      ((w.Unlock ctx passphrase anonymizeOnly stakingOnly).1 = true →
        (w.Unlock ctx passphrase anonymizeOnly stakingOnly).2.vMasterKey = vMasterKey) ∧
      ((w.Unlock ctx passphrase anonymizeOnly stakingOnly).2.IsLocked = false →
        ∀ id, (w.Unlock ctx passphrase anonymizeOnly stakingOnly).2.FullAt id) := by
  rcases h.unlock_cases hrejects anonymizeOnly stakingOnly with ⟨hopen, -, hres⟩ | hres | hres
  · rw [hres]
    refine ⟨⟨h.crypted, h.master_length, h.master, h.passphrase, h.entries, h.unlocked, h.locked,
      h.db⟩, fun _ => h.master_of_unlocked hopen, hfull⟩
  · rw [hres]
    exact ⟨h, fun hfalse => absurd hfalse (by simp), hfull⟩
  · rw [hres]
    obtain ⟨henc, hmas, hall⟩ := h.unlockStealthAddresses hctx ht anonymizeOnly stakingOnly
    exact ⟨henc, fun _ => hmas, fun _ => hall⟩

omit hctx ht in
theorem CWallet.Encrypted.lock :
    w.Lock.2.Encrypted ctx t strWalletPassphrase vMasterKey ∧ w.Lock.2.IsLocked = true := by
  unfold CWallet.Lock
  cases hlocked : w.IsLocked with
  | true => exact ⟨h, hlocked⟩
  | false =>
    have hreload : w.stealthAddresses.map (CStealthAddress.Reload w.sxAddrDb)
        = t.stealthAddresses.map (CStealthAddress.Encrypt ctx vMasterKey) := by
      rw [h.unlocked hlocked]
      apply List.map_congr_left
      intro a ha
      unfold CStealthAddress.Reload
      split
      · rename_i hshort
        unfold CStealthAddress.Encrypt
        rw [if_pos hshort]
      · rename_i hlong
        obtain ⟨r, hr, hsec⟩ := h.db a ha (not_lt.mp hlong)
        rw [hr]
        dsimp only
        rw [hsec, CStealthAddress.encrypt_eq h.master_length (not_lt.mp hlong)]
    unfold CCryptoKeyStore.LockKeyStore CCryptoKeyStore.SetCrypted
    dsimp only
    rw [if_pos h.crypted, Option.map_some]
    have hnow : (w.fUseCrypto && ([] : List UInt8).isEmpty) = true := by
      rw [h.crypted]
      rfl
    refine ⟨⟨h.crypted, h.master_length, .inl rfl, h.passphrase, h.entries, fun hfalse => ?_,
      fun _ => hreload, h.db⟩, hnow⟩
    have hcontra : true = false := hnow.symm.trans hfalse
    simp at hcontra

end ZalemCoin.Wallet
