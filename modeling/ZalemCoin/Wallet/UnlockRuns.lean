import ZalemCoin.Wallet.Lifecycle

/-!
# Runs of an encrypted wallet

The steps of a run encrypt, lock and unlock a wallet, add keys while it is unlocked and let it receive
payments at any time. Each step keeps the wallet related to the one that is never encrypted; whether
the passphrase then unlocks it depends on its first entry only.
-/

namespace ZalemCoin.Wallet

open Chain Lib Script

variable {ctx : KeyContext} {w t : CWallet} {strWalletPassphrase vMasterKey : List UInt8}

section

variable {a : CStealthAddress} {sShared : List UInt8} {pass : Option (List UInt8)}

variable {vchEphemPK pkExtracted : List UInt8} {key : CKey} {f : CStealthAddress → CStealthAddress}

theorem stealthSecret_key (hctx : ctx.Lawful) (ha : a.Owned ctx)
    (h : StealthSecret ctx a.scan_secret vchEphemPK a.spend_pubkey = some (sShared, pkExtracted)) :
    ∃ key : CKey, key.fCompressed = true ∧ key.IsValid ctx ∧
      ctx.sharedSecret a.scan_secret vchEphemPK = some sShared ∧
      ctx.addSecret a.spend_secret sShared = some key.vch ∧
      ctx.SecretToPublicKey key.vch = some (key.GetPubKey ctx).vch ∧
      CPubKey.ofBytes pkExtracted = key.GetPubKey ctx := by
  unfold StealthSecret at h
  obtain ⟨c, hc, h⟩ := Option.bind_eq_some_iff.mp h
  obtain ⟨point, hpoint, h⟩ := Option.bind_eq_some_iff.mp h
  obtain ⟨rfl, rfl⟩ := Prod.mk.inj (Option.some.inj h)
  rw [hctx.addPoint_eq _ _ c ha.spend_point] at hpoint
  obtain ⟨sum, hsum, hpub⟩ := Option.bind_eq_some_iff.mp hpoint
  have hkey := hctx.addSecret_point _ _ _ hsum
  rw [hkey] at hpub
  refine ⟨⟨sum, true⟩, rfl, ⟨hctx.addSecret_length _ _ _ hsum, hctx.addSecret_check _ _ _ hsum⟩, hc,
    hsum, hkey, ?_⟩
  rw [← Option.some.inj hpub]
  exact CPubKey.ofBytes_vch _

theorem CWallet.takeStealthKey_unlocked (hctx : ctx.Lawful) {x : CWallet} (hx : x.IsLocked = false)
    (ha : a.spend_secret.length = 32) (hcompressed : key.fCompressed = true)
    (hkey : key.IsValid ctx) (hsum : ctx.addSecret a.spend_secret sShared = some key.vch)
    (hpoint : ctx.SecretToPublicKey key.vch = some (key.GetPubKey ctx).vch)
    (vchEphemPK : List UInt8) (cpkE : CPubKey) :
    x.TakeStealthKey ctx a vchEphemPK sShared cpkE = x.AddKey ctx key := by
  have hset : CKey.Set ctx key.vch true = some key := by
    have hset := hkey.set
    rwa [hcompressed] at hset
  have hpubkey : (key.GetPubKey ctx).IsValid = true := by
    apply CPubKey.isValid_of_isCompressed
    rw [hkey.isCompressed hctx, hcompressed]
  unfold CWallet.TakeStealthKey StealthSharedToSecretSpend
  rw [if_neg (by simp [hx]), if_neg (by simp [ha, ec_secret_size]), hsum]
  change ((ctx.SecretToPublicKey key.vch).bind fun _ => (CKey.Set ctx key.vch true).bind fun ckey =>
    _) = _
  rw [hpoint, Option.bind_some, hset, Option.bind_some]
  simp [hpubkey]

theorem Pair.Keeps.addKey (hctx : ctx.Lawful) (h : Pair.Keeps ctx ⟨w, t, pass⟩)
    (hlocked : w.IsLocked = false) (hkey : key.IsValid ctx) :
    ∃ w' t', w.AddKey ctx key = some w' ∧ t.AddKey ctx key = some t' ∧ w'.IsLocked = false ∧
      t'.stealthAddresses = t.stealthAddresses ∧ Pair.Keeps ctx ⟨w', t', pass⟩ := by
  obtain ⟨ht, h⟩ := h
  cases pass with
  | none =>
    refine ⟨_, _, CWallet.addKey_plain h.crypted key, CWallet.addKey_plain ht.crypted key, hlocked,
      rfl, ht.putKey hkey, h.crypted, ?_, h.noCrypted, h.noMaster, h.noMasterKey, h.stakingOnly,
      h.addresses, h.db⟩
    change w.mapKeys.insert _ key = t.mapKeys.insert _ key
    rw [h.keys]
  | some passphrase =>
    obtain ⟨vMasterKey, h, hfull⟩ := h
    have hmas := h.master_of_unlocked hlocked
    refine ⟨_, _, CWallet.addKey_crypted h.crypted hmas h.master_length key,
      CWallet.addKey_plain ht.crypted key, hlocked, rfl, ht.putKey hkey, vMasterKey,
      h.put ht (.inl rfl) fun _ _ => rfl, fun _ id pk c hfind => ?_⟩
    change (w.mapCryptedKeys.insert _ _).find id = _ at hfind
    rw [SortedMap.find_insert] at hfind
    split at hfind
    · cases hfind
      exact encrypt_ne_nil hctx _ _ _
    · exact hfull hlocked id pk c hfind

structure AddressForm (f : CStealthAddress → CStealthAddress) : Prop where
  scan_pubkey : ∀ a, (f a).scan_pubkey = a.scan_pubkey
  spend_pubkey : ∀ a, (f a).spend_pubkey = a.spend_pubkey
  scan_secret : ∀ a, (f a).scan_secret = a.scan_secret

variable (h : Pair.Keeps ctx ⟨w, t, pass⟩)
include h

/-- The addresses of a wallet are those of the other one, with the spend secrets encrypted while it is
locked. -/
theorem Pair.Keeps.addresses :
    ∃ f, AddressForm f ∧ w.stealthAddresses = t.stealthAddresses.map f ∧
      (w.IsLocked = false → ∀ a, f a = a) := by
  obtain ⟨-, h⟩ := h
  have hid : AddressForm id := ⟨fun _ => rfl, fun _ => rfl, fun _ => rfl⟩
  cases pass with
  | none => exact ⟨id, hid, by rw [List.map_id]; exact h.addresses, fun _ _ => rfl⟩
  | some passphrase =>
    obtain ⟨vMasterKey, h, -⟩ := h
    cases hlocked : w.IsLocked with
    | false => exact ⟨id, hid, by rw [List.map_id]; exact h.unlocked hlocked, fun _ _ => rfl⟩
    | true =>
      refine ⟨CStealthAddress.Encrypt ctx vMasterKey, ⟨fun a => ?_, fun a => ?_, fun a => ?_⟩,
        h.locked hlocked, fun hfalse => absurd hfalse (by simp)⟩
      · exact (a.encrypt_frame vMasterKey).1
      · exact (a.encrypt_frame vMasterKey).2.1
      · exact (a.encrypt_frame vMasterKey).2.2

theorem Pair.Keeps.haveKey (id : CKeyID) :
    w.HaveKey id = t.HaveKey id := by
  obtain ⟨ht, h⟩ := h
  cases pass with
  | none =>
    unfold CCryptoKeyStore.HaveKey CCryptoKeyStore.IsCrypted
    rw [show w.fUseCrypto = false from h.crypted, show t.fUseCrypto = false from ht.crypted,
      show w.mapKeys = t.mapKeys from h.keys]
    rfl
  | some passphrase =>
    obtain ⟨vMasterKey, h, -⟩ := h
    exact h.haveKey ht id

variable (hctx : ctx.Lawful)
include hctx

theorem Pair.Keeps.takeStealthKey (hform : AddressForm f)
    (hclear : w.IsLocked = false → ∀ a, f a = a) (ha : a ∈ t.stealthAddresses)
    (howned : a.Owned ctx)
    (hsec : StealthSecret ctx a.scan_secret vchEphemPK a.spend_pubkey = some (sShared, pkExtracted)) :
    ∃ w' t', w.TakeStealthKey ctx (f a) vchEphemPK sShared (CPubKey.ofBytes pkExtracted) = some w' ∧
      t.TakeStealthKey ctx a vchEphemPK sShared (CPubKey.ofBytes pkExtracted) = some t' ∧
      t'.stealthAddresses = t.stealthAddresses ∧ Pair.Keeps ctx ⟨w', t', pass⟩ := by
  obtain ⟨key, hcompressed, hkey, hshared, hsum, hpoint, hpubkey⟩ := stealthSecret_key hctx howned hsec
  have htlocked : t.IsLocked = false := by
    unfold CCryptoKeyStore.IsLocked
    rw [h.1.crypted]
    rfl
  rw [CWallet.takeStealthKey_unlocked hctx htlocked howned.spend_length hcompressed hkey hsum hpoint]
  cases hlocked : w.IsLocked with
  | false =>
    rw [hclear hlocked, CWallet.takeStealthKey_unlocked hctx hlocked howned.spend_length hcompressed
      hkey hsum hpoint]
    obtain ⟨w', t', hw, ht, -, haddrs, hkeeps⟩ := h.addKey hctx hlocked hkey
    exact ⟨w', t', hw, ht, haddrs, hkeeps⟩
  | true =>
    -- Only an encrypted wallet is locked: it stores the public key and what it knows about it.
    obtain ⟨ht, h⟩ := h
    cases pass with
    | none =>
      unfold CCryptoKeyStore.IsLocked at hlocked
      rw [show w.fUseCrypto = false from h.crypted] at hlocked
      simp at hlocked
    | some passphrase =>
      obtain ⟨vMasterKey, h, hfull⟩ := h
      obtain ⟨metas, hmetas⟩ : ∃ metas, metas = Function.update w.mapStealthKeyMeta (key.id ctx)
          (some ⟨CPubKey.ofBytes vchEphemPK, CPubKey.ofBytes (f a).scan_pubkey⟩) := ⟨_, rfl⟩
      have htake : w.TakeStealthKey ctx (f a) vchEphemPK sShared (CPubKey.ofBytes pkExtracted)
          = some (w.putCrypted ctx key [] metas) := by
        unfold CWallet.TakeStealthKey
        rw [if_pos hlocked, hpubkey, hmetas]
        unfold CCryptoKeyStore.AddCryptedKey CCryptoKeyStore.SetCrypted
        rw [if_pos h.crypted]
        rfl
      refine ⟨_, _, htake, CWallet.addKey_plain ht.crypted key, rfl, ht.putKey hkey, vMasterKey,
        h.put ht (.inr ⟨rfl, hcompressed, ?_⟩) fun id hid => ?_, fun hfalse => ?_⟩
      · refine ⟨⟨CPubKey.ofBytes vchEphemPK, CPubKey.ofBytes (f a).scan_pubkey⟩, a, sShared, ?_, ha,
          howned, ?_, ?_, hsum⟩
        · rw [hmetas]
          exact Function.update_self ..
        · rw [hform.scan_pubkey]
          exact howned.scan_point
        · change ctx.sharedSecret a.scan_secret (CPubKey.ofBytes vchEphemPK).vch = some sShared
          rw [hctx.sharedSecret_point _ _ _ hshared]
          exact hshared
      · rw [hmetas]
        exact Function.update_of_ne hid ..
      · exact absurd (hlocked.symm.trans hfalse) (by simp)

theorem Pair.Keeps.matchStealthAddress (hform : AddressForm f)
    (hclear : w.IsLocked = false → ∀ a, f a = a) (vchEphemPK : List UInt8) (ckidMatch : CKeyID)
    {addrs : List CStealthAddress} (haddrs : ∀ a ∈ addrs, a ∈ t.stealthAddresses) :
    w.matchStealthAddress ctx vchEphemPK ckidMatch (addrs.map f) = none ∧
        t.matchStealthAddress ctx vchEphemPK ckidMatch addrs = none ∨
      ∃ w' t', w.matchStealthAddress ctx vchEphemPK ckidMatch (addrs.map f) = some w' ∧
        t.matchStealthAddress ctx vchEphemPK ckidMatch addrs = some t' ∧
        t'.stealthAddresses = t.stealthAddresses ∧ Pair.Keeps ctx ⟨w', t', pass⟩ := by
  induction addrs with
  | nil => exact .inl ⟨rfl, rfl⟩
  | cons a addrs ih =>
    have hrest := ih fun b hb => haddrs b (List.mem_cons_of_mem _ hb)
    rw [List.map_cons]
    unfold CWallet.matchStealthAddress
    rw [hform.scan_secret, hform.spend_pubkey]
    by_cases hlen : a.scan_secret.length ≠ ec_secret_size
    · rw [if_pos hlen, if_pos hlen]
      exact hrest
    · rw [if_neg hlen, if_neg hlen]
      cases hsec : StealthSecret ctx a.scan_secret vchEphemPK a.spend_pubkey with
      | none => exact hrest
      | some pair =>
        obtain ⟨sShared, pkExtracted⟩ := pair
        dsimp only
        by_cases hskip : (CPubKey.ofBytes pkExtracted).IsValid = false ∨
            ckidMatch ≠ (CPubKey.ofBytes pkExtracted).GetID ctx.Hash160
        · rw [if_pos hskip, if_pos hskip]
          exact hrest
        · rw [if_neg hskip, if_neg hskip]
          have howned : a.Owned ctx := by
            rcases h.1.addresses a (haddrs a List.mem_cons_self) with hshort | howned
            · unfold ec_secret_size at hlen
              omega
            · exact howned
          obtain ⟨w', t', hw, ht, hsame, hkeeps⟩ := h.takeStealthKey hctx hform hclear
            (haddrs a List.mem_cons_self) howned hsec
          rw [hw, ht]
          exact .inr ⟨w', t', rfl, rfl, hsame, hkeeps⟩

theorem Pair.Keeps.matchOutputs (vchEphemPK : List UInt8) (outs : List CTxOut) :
    Pair.Keeps ctx ⟨w.matchOutputs ctx vchEphemPK outs, t.matchOutputs ctx vchEphemPK outs, pass⟩ := by
  obtain ⟨f, hform, haddrs, hclear⟩ := h.addresses
  induction outs with
  | nil => exact h
  | cons txoutB outs ih =>
    unfold CWallet.matchOutputs
    split
    · rename_i ckidMatch hdest
      rw [h.haveKey]
      cases hnew : t.HaveKey ckidMatch with
      | true => exact ih
      | false =>
        rw [if_neg Bool.false_ne_true, if_neg Bool.false_ne_true, haddrs]
        rcases h.matchStealthAddress hctx hform hclear vchEphemPK ckidMatch fun a ha => ha with
          ⟨hw, ht⟩ | ⟨w', t', hw, ht, -, hkeeps⟩
        · rw [hw, ht]
          exact ih
        · rw [hw, ht]
          exact hkeeps
    · exact ih

theorem Pair.Keeps.findStealthTransactions (tx : CTransaction) :
    Pair.Keeps ctx ⟨w.FindStealthTransactions ctx tx, t.FindStealthTransactions ctx tx, pass⟩ := by
  unfold CWallet.FindStealthTransactions
  generalize List.range tx.vout.length = outputs
  induction outputs generalizing w t with
  | nil => exact h
  | cons nOutputIdOuter outputs ih =>
    rw [List.foldl_cons, List.foldl_cons]
    apply ih
    cases tx.vout[nOutputIdOuter]?.bind ephemeralKey with
    | none => exact h
    | some vchEphemPK => exact h.matchOutputs hctx vchEphemPK _

end

/-- Encrypting the keys of a wallet one after the other never fails. -/
theorem encryptEntries (hlen : vMasterKey.length = 32) (entries : List (CKeyID × CKey))
    (hids : ∀ e ∈ entries, e.1 = e.2.id ctx) (hnd : (entries.map Prod.fst).Nodup)
    {s : CCryptoKeyStore} (hs : s.fUseCrypto = true) :
    ∃ s', entries.foldlM (fun s mKey =>
        (EncryptSecret ctx vMasterKey mKey.2.vch (PubKeyHash ctx (mKey.2.GetPubKey ctx))).bind
          fun vchCryptedSecret => s.AddCryptedKey ctx (mKey.2.GetPubKey ctx) vchCryptedSecret) s
        = some s' ∧ s'.fUseCrypto = true ∧ s'.vMasterKey = s.vMasterKey ∧
      (∀ id key, (id, key) ∈ entries →
        s'.mapCryptedKeys.find id = some (key.GetPubKey ctx, key.encrypted ctx vMasterKey)) ∧
      ∀ id, id ∉ entries.map Prod.fst → s'.mapCryptedKeys.find id = s.mapCryptedKeys.find id := by
  induction entries generalizing s with
  | nil => exact ⟨s, rfl, hs, rfl, by simp, fun _ _ => rfl⟩
  | cons e entries ih =>
    obtain ⟨id, key⟩ := e
    rw [List.map_cons, List.nodup_cons] at hnd
    obtain ⟨hnew, hnd⟩ := hnd
    have hid : id = key.id ctx := hids _ List.mem_cons_self
    obtain ⟨s₁, hs₁⟩ : ∃ s₁ : CCryptoKeyStore, s₁ = { s with
        mapCryptedKeys := s.mapCryptedKeys.insert (key.id ctx)
          (key.GetPubKey ctx, key.encrypted ctx vMasterKey) } := ⟨_, rfl⟩
    have hstep : (EncryptSecret ctx vMasterKey key.vch (PubKeyHash ctx (key.GetPubKey ctx))).bind
        (fun vchCryptedSecret => s.AddCryptedKey ctx (key.GetPubKey ctx) vchCryptedSecret)
        = some s₁ := by
      rw [encryptSecret_eq hlen, Option.bind_some]
      unfold CCryptoKeyStore.AddCryptedKey CCryptoKeyStore.SetCrypted
      rw [if_pos hs, hs₁]
      rfl
    have hcrypted : s₁.fUseCrypto = true := by
      rw [hs₁]
      exact hs
    obtain ⟨s', hrun, hs', hmas, hfound, hother⟩ :=
      ih (fun e he => hids e (List.mem_cons_of_mem _ he)) hnd hcrypted
    refine ⟨s', ?_, hs', ?_, fun id' key' hmem => ?_, fun id' hmem => ?_⟩
    · rw [List.foldlM_cons]
      change (Option.bind _ _) = _
      rw [hstep]
      exact hrun
    · rw [hmas, hs₁]
    · rcases List.mem_cons.mp hmem with heq | hmem
      · cases heq
        rw [hother _ hnew, hs₁, hid]
        exact SortedMap.find_insert_self ..
      · exact hfound id' key' hmem
    · rw [List.map_cons, List.mem_cons, not_or] at hmem
      rw [hother _ hmem.2, hs₁]
      exact SortedMap.find_insert_of_ne (hid ▸ hmem.1)

theorem writeStealthAddresses_of_ne (addrs : List CStealthAddress) {scan : List UInt8}
    (h : ∀ a ∈ addrs, a.scan_pubkey ≠ scan) (db : List UInt8 → Option CStealthAddress) :
    writeStealthAddresses db addrs scan = db scan := by
  unfold writeStealthAddresses
  induction addrs generalizing db with
  | nil => rfl
  | cons a addrs ih =>
    rw [List.foldl_cons, ih fun b hb => h b (List.mem_cons_of_mem _ hb)]
    split
    · rfl
    · exact Function.update_of_ne (Ne.symm (h a List.mem_cons_self)) ..

theorem writeStealthAddresses_mem {addrs : List CStealthAddress}
    (hdist : addrs.Pairwise fun a b => a.scan_pubkey ≠ b.scan_pubkey) {a : CStealthAddress}
    (ha : a ∈ addrs) (howned : 32 ≤ a.scan_secret.length)
    (db : List UInt8 → Option CStealthAddress) :
    writeStealthAddresses db addrs a.scan_pubkey = some a := by
  induction addrs generalizing db with
  | nil => simp at ha
  | cons b addrs ih =>
    obtain ⟨hfst, hrest⟩ := List.pairwise_cons.mp hdist
    unfold writeStealthAddresses
    rw [List.foldl_cons]
    rcases List.mem_cons.mp ha with rfl | ha
    · rw [if_neg (not_lt.mpr howned)]
      refine (writeStealthAddresses_of_ne addrs (fun c hc => Ne.symm (hfst c hc)) _).trans ?_
      exact Function.update_self ..
    · exact ih hrest ha _

theorem CWallet.Unencrypted.encryptKeys (hlen : vMasterKey.length = 32) (h : w.Unencrypted t)
    (ht : t.Plain ctx) :
    ∃ s, w.toCCryptoKeyStore.EncryptKeys ctx vMasterKey = some s ∧ s.fUseCrypto = true ∧
      s.vMasterKey = [] ∧
      (∀ id key, t.mapKeys.find id = some key →
        s.mapCryptedKeys.find id = some (key.GetPubKey ctx, key.encrypted ctx vMasterKey)) ∧
      ∀ id, t.mapKeys.find id = none → s.mapCryptedKeys.find id = none := by
  have hids : ∀ e ∈ w.mapKeys.entries, e.1 = e.2.id ctx := by
    rw [h.keys]
    intro e he
    exact (ht.keys e.1 e.2 (SortedMap.find_eq_some.mpr he)).2.symm
  obtain ⟨s, hrun, hs, hmas, hfound, hother⟩ := encryptEntries hlen w.mapKeys.entries hids
    w.mapKeys.keys_nodup (show ({ w.toCCryptoKeyStore with fUseCrypto := true } :
      CCryptoKeyStore).fUseCrypto = true from rfl)
  refine ⟨{ s with mapKeys := SortedMap.empty }, ?_, hs, hmas.trans h.noMasterKey,
    fun id key hfind => hfound id key ?_, fun id hfind => (hother id ?_).trans ?_⟩
  · unfold CCryptoKeyStore.EncryptKeys CCryptoKeyStore.IsCrypted
    rw [if_neg (by simp [h.noCrypted, h.crypted, SortedMap.first, SortedMap.empty]), hrun]
    rfl
  · rw [h.keys]
    exact SortedMap.find_eq_some.mp hfind
  · rw [h.keys]
    exact SortedMap.find_eq_none.mp hfind
  · change w.mapCryptedKeys.find id = none
    rw [h.noCrypted]
    rfl

theorem Pair.Keeps.newKeyPool (hctx : ctx.Lawful) {pass : Option (List UInt8)}
    {newKeys : List CKey} (hkeys : ∀ key ∈ newKeys, key.IsValid ctx)
    (h : Pair.Keeps ctx ⟨w, t, pass⟩) (hlocked : w.IsLocked = false) :
    ∃ w' t', newKeys.foldlM (CWallet.AddKey ctx) w = some w' ∧
      newKeys.foldlM (CWallet.AddKey ctx) t = some t' ∧ Pair.Keeps ctx ⟨w', t', pass⟩ := by
  induction newKeys generalizing w t with
  | nil => exact ⟨w, t, rfl, rfl, h⟩
  | cons key newKeys ih =>
    obtain ⟨w₁, t₁, hw, ht, hlocked₁, -, h₁⟩ := h.addKey hctx hlocked (hkeys key List.mem_cons_self)
    obtain ⟨w', t', hw', ht', h'⟩ :=
      ih (fun k hk => hkeys k (List.mem_cons_of_mem _ hk)) h₁ hlocked₁
    refine ⟨w', t', ?_, ?_, h'⟩
    · rw [List.foldlM_cons]
      rw [hw]
      exact hw'
    · rw [List.foldlM_cons]
      rw [ht]
      exact ht'

theorem CWallet.Unencrypted.encryptWallet (hctx : ctx.Lawful) (h : w.Unencrypted t)
    (ht : t.Plain ctx) {e : CWallet.Encryption} (hkeys : ∀ key ∈ e.newKeys, key.IsValid ctx)
    {w' t' : CWallet} (hw' : w.EncryptWallet ctx strWalletPassphrase e = some w')
    (ht' : t.NewKeyPool ctx e.newKeys = some t') :
    Pair.Keeps ctx ⟨w', t', some strWalletPassphrase⟩ := by
  have hlen : e.vMasterKey.length = 32 := e.vMasterKey_length
  obtain ⟨s, hs, hcrypted, hmas, hfound, hother⟩ := h.encryptKeys hlen ht
  unfold CWallet.EncryptWallet CCryptoKeyStore.IsCrypted at hw'
  rw [h.crypted] at hw'
  obtain ⟨-, -, hw'⟩ := Option.bind_eq_some_iff.mp hw'
  obtain ⟨crypter, hcrypter, hw'⟩ := Option.bind_eq_some_iff.mp hw'
  obtain ⟨s', hs', hw'⟩ := Option.bind_eq_some_iff.mp hw'
  rw [hs] at hs'
  cases hs'
  dsimp only at hw'
  -- The wallet before it is opened for the new keys.
  generalize hw₁ : ({ w with
    toCCryptoKeyStore := s
    mapMasterKeys := w.mapMasterKeys ++ [{
      vchCryptedKey := ctx.EVP_Encrypt crypter.1 crypter.2 e.vMasterKey
      vchSalt := e.vchSalt
      nDerivationMethod := e.nDerivationMethod
      nDeriveIterations := e.nDeriveIterations }]
    stealthAddresses := w.stealthAddresses.map (CStealthAddress.Encrypt ctx e.vMasterKey)
    sxAddrDb := writeStealthAddresses w.sxAddrDb
      (w.stealthAddresses.map (CStealthAddress.Encrypt ctx e.vMasterKey)) } : CWallet) = w₁ at hw'
  have hents : ∀ id, w₁.mapCryptedKeys.find id = none ∧ t.mapKeys.find id = none ∨
      ∃ key, t.mapKeys.find id = some key ∧ w₁.mapCryptedKeys.find id
        = some (key.GetPubKey ctx, key.encrypted ctx e.vMasterKey) := by
    subst hw₁
    intro id
    cases hkey : t.mapKeys.find id with
    | none => exact .inl ⟨hother id hkey, rfl⟩
    | some key => exact .inr ⟨key, rfl, hfound id key hkey⟩
  have hlocked : w₁.IsLocked = true := by
    subst hw₁
    change (s.fUseCrypto && s.vMasterKey.isEmpty) = true
    rw [hcrypted, hmas]
    rfl
  have henc : w₁.Encrypted ctx t strWalletPassphrase e.vMasterKey := by
    refine ⟨?_, hlen, ?_, ?_, fun id => ?_, fun hfalse => ?_, fun _ => ?_, fun a ha howned => ?_⟩
    · subst hw₁
      exact hcrypted
    · subst hw₁
      exact .inl hmas
    · subst hw₁
      refine ⟨_, [], by rw [h.noMaster]; rfl, ?_⟩
      unfold CWallet.openMasterKey
      dsimp only
      rw [hcrypter, Option.bind_some, hctx.decrypt_encrypt]
    · exact (hents id).imp_right fun ⟨key, hkey, hent⟩ => ⟨key, hkey, .inl hent⟩
    · exact absurd (hlocked.symm.trans hfalse) (by simp)
    · subst hw₁
      rw [h.addresses]
    · subst hw₁
      refine ⟨a.Encrypt ctx e.vMasterKey, ?_, rfl⟩
      have hframe := fun a => @CStealthAddress.encrypt_frame ctx a e.vMasterKey
      have hmem := List.mem_map_of_mem (f := CStealthAddress.Encrypt ctx e.vMasterKey) ha
      have hdist : (t.stealthAddresses.map (CStealthAddress.Encrypt ctx e.vMasterKey)).Pairwise
          fun a b => a.scan_pubkey ≠ b.scan_pubkey := by
        rw [List.pairwise_map]
        refine ht.distinct.imp fun {a b} hne => ?_
        rw [(hframe a).1, (hframe b).1]
        exact hne
      have hwr := writeStealthAddresses_mem hdist hmem
        (by rw [(hframe a).2.2]; exact howned) w.sxAddrDb
      rw [(hframe a).1] at hwr
      change writeStealthAddresses w.sxAddrDb (w.stealthAddresses.map _) a.scan_pubkey = _
      rw [h.addresses]
      exact hwr
  have hfull : ∀ id, w₁.FullAt id := by
    intro id pk c hfind
    rcases hents id with ⟨hnone, -⟩ | ⟨key, -, hent⟩
    · rw [hnone] at hfind
      simp at hfind
    · rw [hent] at hfind
      cases hfind
      exact encrypt_ne_nil hctx _ _ _
  -- It is locked already, and the passphrase opens it.
  have hlock : w₁.Lock.2 = w₁ := by
    unfold CWallet.Lock
    rw [if_pos hlocked]
  rw [hlock] at hw'
  have hrejects : w₁.Rejects ctx strWalletPassphrase strWalletPassphrase :=
    fun _ _ _ _ hopen => .inl hopen
  obtain ⟨hopened, hopenedMaster, hopenedFull⟩ :=
    henc.unlock hctx ht (fun _ => hfull) hrejects false false
  have hsuccess := (henc.unlock_correct hctx ht (fun _ => hfull) false false).mpr
    fun id pk c hfst => hfull id pk c (SortedMap.first_eq_some hfst).1
  have hunl := CWallet.isLocked_of_master hopened.crypted (hopenedMaster hsuccess) hlen
  obtain ⟨w₂, hpool, hw'⟩ := Option.bind_eq_some_iff.mp hw'
  unfold CWallet.NewKeyPool at hpool ht'
  rw [if_neg (by simp [hunl])] at hpool
  have htlocked : t.IsLocked = false := by
    unfold CCryptoKeyStore.IsLocked
    rw [ht.crypted]
    rfl
  rw [if_neg (by simp [htlocked])] at ht'
  have hkeeps : Pair.Keeps ctx ⟨(w₁.Unlock ctx strWalletPassphrase false false).2, t,
      some strWalletPassphrase⟩ := ⟨ht, e.vMasterKey, hopened, hopenedFull⟩
  obtain ⟨w₃, t₃, hw₃, ht₃, hkeeps₃⟩ := hkeeps.newKeyPool hctx hkeys hunl
  rw [hpool] at hw₃
  rw [ht'] at ht₃
  cases hw₃
  cases ht₃
  cases hw'
  obtain ⟨htwin, vMasterKey, hfinal, -⟩ := hkeeps₃
  obtain ⟨hlocking, hnow⟩ := hfinal.lock
  exact ⟨htwin, vMasterKey, hlocking, fun hfalse => absurd (hnow.symm.trans hfalse) (by simp)⟩

/-- A wallet that has never been encrypted. -/
structure CWallet.Fresh (ctx : KeyContext) (w : CWallet) : Prop extends w.Plain ctx where
  noCrypted : w.mapCryptedKeys = SortedMap.empty
  noMaster : w.mapMasterKeys = []
  noMasterKey : w.vMasterKey = []
  stakingOnly : w.fWalletUnlockStakingOnly = false
  db : ∀ a ∈ w.stealthAddresses, 32 ≤ a.scan_secret.length → ∃ r, w.sxAddrDb a.scan_pubkey = some r ∧
    r.spend_secret = a.spend_secret

/-- One step of a wallet and of the one that is never encrypted. A wallet without keys is not locked
before it is encrypted, and a wrong passphrase does not pass the check. -/
inductive Pair.Step (ctx : KeyContext) : Pair → Pair → Prop
  | encryptWallet (p : Pair) (strWalletPassphrase : List UInt8) (e : CWallet.Encryption)
      (w' t' : CWallet) (hkeys : ∀ key ∈ e.newKeys, key.IsValid ctx)
      (hwallet : p.wallet.EncryptWallet ctx strWalletPassphrase e = some w')
      (htwin : p.twin.NewKeyPool ctx e.newKeys = some t') :
      Step ctx p ⟨w', t', some strWalletPassphrase⟩
  | lock (p : Pair) (hkeys : p.wallet.fUseCrypto = true ∨ p.wallet.mapKeys.first.isSome = true) :
      Step ctx p { p with wallet := p.wallet.Lock.2 }
  | unlock (p : Pair) (passphrase : List UInt8) (anonymizeOnly stakingOnly : Bool)
      (hrejects : ∀ correct, p.passphrase = some correct → p.wallet.Rejects ctx passphrase correct) :
      Step ctx p
        { p with wallet := (p.wallet.Unlock ctx passphrase anonymizeOnly stakingOnly).2 }
  | addKey (p : Pair) (key : CKey) (w' t' : CWallet) (hkey : key.IsValid ctx)
      (hunlocked : p.wallet.IsLocked = false) (hwallet : p.wallet.AddKey ctx key = some w')
      (htwin : p.twin.AddKey ctx key = some t') :
      Step ctx p { p with wallet := w', twin := t' }
  | receive (p : Pair) (tx : CTransaction) :
      Step ctx p { p with
        wallet := p.wallet.FindStealthTransactions ctx tx
        twin := p.twin.FindStealthTransactions ctx tx }

theorem CWallet.Unencrypted.lock (h : w.Unencrypted t) (hkeys : w.mapKeys.first.isSome = true) :
    w.Lock.2 = w := by
  have hlocked : w.IsLocked = false := by
    unfold CCryptoKeyStore.IsLocked
    rw [h.crypted]
    rfl
  have hreload : w.stealthAddresses.map (CStealthAddress.Reload w.sxAddrDb)
      = w.stealthAddresses := by
    refine (List.map_congr_left fun a ha => ?_).trans (List.map_id _)
    unfold CStealthAddress.Reload
    split
    · rfl
    · rename_i hlong
      rw [h.addresses] at ha
      obtain ⟨r, hr, hsec⟩ := h.db a ha (not_lt.mp hlong)
      rw [hr]
      dsimp only
      rw [hsec]
      rfl
  unfold CWallet.Lock
  rw [if_neg (by simp [hlocked]), hreload]
  unfold CCryptoKeyStore.LockKeyStore CCryptoKeyStore.SetCrypted
  dsimp only
  rw [if_neg (by simp [h.crypted]), if_pos hkeys]
  rfl

theorem CWallet.Unencrypted.unlock (h : w.Unencrypted t) (passphrase : List UInt8)
    (anonymizeOnly stakingOnly : Bool) :
    w.Unlock ctx passphrase anonymizeOnly stakingOnly
      = (true, { w with fWalletUnlockAnonymizeOnly := anonymizeOnly }) := by
  apply if_pos
  refine ⟨?_, h.stakingOnly⟩
  unfold CCryptoKeyStore.IsLocked
  rw [h.crypted]
  rfl

/-- One call keeps the encrypted wallet and its plain twin together. -/
theorem Pair.Keeps.step (hctx : ctx.Lawful) {p q : Pair} (h : p.Keeps ctx) (hstep : p.Step ctx q) :
    q.Keeps ctx := by
  obtain ⟨w, t, pass⟩ := p
  cases hstep with
  | encryptWallet strWalletPassphrase e w' t' hkeys hwallet htwin =>
    obtain ⟨ht, h⟩ := h
    cases pass with
    | none => exact CWallet.Unencrypted.encryptWallet hctx h ht hkeys hwallet htwin
    | some passphrase =>
      obtain ⟨vMasterKey, h, -⟩ := h
      unfold CWallet.EncryptWallet CCryptoKeyStore.IsCrypted at hwallet
      rw [show w.fUseCrypto = true from h.crypted] at hwallet
      simp at hwallet
  | lock hkeys =>
    obtain ⟨ht, h⟩ := h
    cases pass with
    | none =>
      have hfst : w.mapKeys.first.isSome = true :=
        hkeys.resolve_left (by rw [show w.fUseCrypto = false from h.crypted]; simp)
      refine ⟨ht, ?_⟩
      change w.Lock.2.Unencrypted t
      rw [CWallet.Unencrypted.lock h hfst]
      exact h
    | some passphrase =>
      obtain ⟨vMasterKey, h, -⟩ := h
      obtain ⟨henc, hlocked⟩ := h.lock
      exact ⟨ht, vMasterKey, henc, fun hfalse => absurd (hlocked.symm.trans hfalse) (by simp)⟩
  | unlock passphrase anonymizeOnly stakingOnly hrejects =>
    obtain ⟨ht, h⟩ := h
    cases pass with
    | none =>
      refine ⟨ht, ?_⟩
      change (w.Unlock ctx passphrase anonymizeOnly stakingOnly).2.Unencrypted t
      rw [CWallet.Unencrypted.unlock h]
      exact ⟨h.crypted, h.keys, h.noCrypted, h.noMaster, h.noMasterKey, h.stakingOnly, h.addresses,
        h.db⟩
    | some correct =>
      obtain ⟨vMasterKey, h, hfull⟩ := h
      obtain ⟨henc, -, hall⟩ :=
        h.unlock hctx ht hfull (hrejects correct rfl) anonymizeOnly stakingOnly
      exact ⟨ht, vMasterKey, henc, hall⟩
  | addKey key w' t' hkey hunl hwallet htwin =>
    obtain ⟨w₁, t₁, hw₁, ht₁, -, -, hkeeps⟩ := h.addKey hctx hunl hkey
    obtain rfl := Option.mem_unique hwallet hw₁
    obtain rfl := Option.mem_unique htwin ht₁
    exact hkeeps
  | receive tx => exact h.findStealthTransactions hctx tx

theorem CWallet.Fresh.keeps (h : w.Fresh ctx) : Pair.Keeps ctx ⟨w, w, none⟩ :=
  ⟨h.toPlain, h.crypted, rfl, h.noCrypted, h.noMaster, h.noMasterKey, h.stakingOnly, rfl, h.db⟩

theorem CWallet.Fresh.keeps_of_run (hctx : ctx.Lawful) (h : w.Fresh ctx) {p : Pair}
    (hrun : Relation.ReflTransGen (Pair.Step ctx) ⟨w, w, none⟩ p) : p.Keeps ctx := by
  induction hrun with
  | refl => exact h.keeps
  | tail _ hstep ih => exact ih.step hctx hstep

/-- Unlocking succeeds, and the wallet then has the private keys of its public keys, which are those of
the wallet that is never encrypted. -/
structure Unlocks (ctx : KeyContext) (w t : CWallet) (passphrase : List UInt8)
    (anonymizeOnly stakingOnly : Bool) : Prop where
  success : (w.Unlock ctx passphrase anonymizeOnly stakingOnly).1 = true
  keys : ∀ id pubkey,
    (w.Unlock ctx passphrase anonymizeOnly stakingOnly).2.GetPubKey ctx id = some pubkey →
      ∃ key, (w.Unlock ctx passphrase anonymizeOnly stakingOnly).2.GetKey ctx id = some key ∧
        key.GetPubKey ctx = pubkey
  samePubKeys : ∀ id, (w.Unlock ctx passphrase anonymizeOnly stakingOnly).2.GetPubKey ctx id
    = t.GetPubKey ctx id
  sameKeys : ∀ id, (w.Unlock ctx passphrase anonymizeOnly stakingOnly).2.GetKey ctx id
    = t.GetKey ctx id

theorem Unlocks.of_same (ht : t.Plain ctx) {passphrase : List UInt8}
    {anonymizeOnly stakingOnly : Bool}
    (hsuccess : (w.Unlock ctx passphrase anonymizeOnly stakingOnly).1 = true)
    (hpub : ∀ id, (w.Unlock ctx passphrase anonymizeOnly stakingOnly).2.GetPubKey ctx id
      = t.GetPubKey ctx id)
    (hkey : ∀ id, (w.Unlock ctx passphrase anonymizeOnly stakingOnly).2.GetKey ctx id
      = t.GetKey ctx id) :
    Unlocks ctx w t passphrase anonymizeOnly stakingOnly := by
  refine ⟨hsuccess, fun id pubkey hpubkey => ?_, hpub, hkey⟩
  rw [hpub] at hpubkey
  unfold CCryptoKeyStore.GetPubKey CCryptoKeyStore.IsCrypted at hpubkey
  rw [if_pos ht.crypted] at hpubkey
  obtain ⟨key, hfind, rfl⟩ := Option.map_eq_some_iff.mp hpubkey
  refine ⟨key, ?_, rfl⟩
  rw [hkey]
  unfold CCryptoKeyStore.GetKey CCryptoKeyStore.IsCrypted
  rw [if_pos ht.crypted, hfind]

theorem CWallet.Encrypted.same_keys (hctx : ctx.Lawful)
    (h : w.Encrypted ctx t strWalletPassphrase vMasterKey) (ht : t.Plain ctx)
    (hmas : w.vMasterKey = vMasterKey) (hfull : ∀ id, w.FullAt id) (id : CKeyID) :
    w.GetPubKey ctx id = t.GetPubKey ctx id ∧ w.GetKey ctx id = t.GetKey ctx id := by
  have hcrypted : ¬w.fUseCrypto = false := by simp [h.crypted]
  unfold CCryptoKeyStore.GetPubKey CCryptoKeyStore.GetKey CCryptoKeyStore.IsCrypted
  rw [if_neg hcrypted, if_neg hcrypted, if_pos ht.crypted, if_pos ht.crypted]
  rcases h.entries id with ⟨hw, hnone⟩ | ⟨key, hkey, hw | ⟨hw, -⟩⟩
  · rw [hw, hnone]
    exact ⟨rfl, rfl⟩
  · have hvalid := (ht.keys id key hkey).1
    rw [hw, hkey, hmas]
    refine ⟨rfl, ?_⟩
    dsimp only
    rw [decryptSecret_eq h.master_length, hctx.decrypt_encrypt, Option.bind_some,
      hvalid.isCompressed hctx, hvalid.set]
  · exact absurd rfl (hfull id _ _ hw)

/-- In every run of a wallet in which no wrong passphrase passes the check and a wallet without keys is
not locked before it is encrypted, the passphrase unlocks the wallet and gives it all the keys of the
wallet that is never encrypted exactly when the first of its secrets is not an empty one, of a payment
received while locked. -/
theorem unlocks_iff (hctx : ctx.Lawful) (h : w.Fresh ctx) {p : Pair}
    (hrun : Relation.ReflTransGen (Pair.Step ctx) ⟨w, w, none⟩ p) {passphrase : List UInt8}
    (hpass : ∀ correct, p.passphrase = some correct → passphrase = correct)
    (anonymizeOnly stakingOnly : Bool) :
    Unlocks ctx p.wallet p.twin passphrase anonymizeOnly stakingOnly ↔
      ∀ id pk c, p.wallet.mapCryptedKeys.first = some (id, pk, c) → c ≠ [] := by
  obtain ⟨ht, hkeeps⟩ := h.keeps_of_run hctx hrun
  obtain ⟨w', t, pass⟩ := p
  cases pass with
  | none =>
    have hunlock := @CWallet.Unencrypted.unlock ctx w' t hkeeps passphrase anonymizeOnly stakingOnly
    refine ⟨fun _ id pk c hfirst => ?_, fun _ => ?_⟩
    · rw [show w'.mapCryptedKeys = SortedMap.empty from hkeeps.noCrypted] at hfirst
      simp [SortedMap.first, SortedMap.empty] at hfirst
    · have hplain : w'.fUseCrypto = false := hkeeps.crypted
      have htplain : t.fUseCrypto = false := ht.crypted
      have hkeys : w'.mapKeys = t.mapKeys := hkeeps.keys
      refine Unlocks.of_same ht (by rw [hunlock]) (fun id => ?_) fun id => ?_
      · rw [hunlock]
        unfold CCryptoKeyStore.GetPubKey CCryptoKeyStore.IsCrypted
        rw [if_pos hplain, if_pos htplain, hkeys]
      · rw [hunlock]
        unfold CCryptoKeyStore.GetKey CCryptoKeyStore.IsCrypted
        rw [if_pos hplain, if_pos htplain, hkeys]
  | some correct =>
    obtain rfl := hpass correct rfl
    obtain ⟨vMasterKey, hencrypted, hfull⟩ := hkeeps
    have hcorrect := hencrypted.unlock_correct hctx ht hfull anonymizeOnly stakingOnly
    refine ⟨fun hunlocks => hcorrect.mp hunlocks.success, fun hfirst => ?_⟩
    have hsuccess := hcorrect.mpr hfirst
    obtain ⟨hopened, hmaster, hall⟩ := hencrypted.unlock hctx ht hfull
      (fun _ _ _ _ hopen => Or.inl hopen) anonymizeOnly stakingOnly
    have hlocked :=
      CWallet.isLocked_of_master hopened.crypted (hmaster hsuccess) hopened.master_length
    have hsame := hopened.same_keys hctx ht (hmaster hsuccess) (hall hlocked)
    exact Unlocks.of_same ht hsuccess (fun id => (hsame id).1) fun id => (hsame id).2

/-! ## A payment whose key comes first -/

def addBytes (f c : List UInt8) : Option (List UInt8) :=
  if f.length = 32 ∧ c.length = 32 then some (List.zipWith (· + ·) f c) else none

/-- A context whose points are the secrets behind a header, and whose cipher adds a byte of
padding. -/
def headerContext : KeyContext where
  EVP_Encrypt _ _ text := 1 :: text
  EVP_Decrypt _ _ cipher := cipher.tail?
  EVP_BytesToKey _ data _ := (data, 0)
  scrypt_salted_multiround_hash data _ _ := data
  Hash _ := 0
  Hash_bmw512 _ := 0
  Hash160 := uint160
  Check vch := vch.length == 32
  GetPubKey vch fCompressed :=
    if fCompressed then CPubKey.ofBytes (2 :: vch) else CPubKey.ofBytes (4 :: vch ++ vch)
  SecretToPublicKey vch := some (2 :: vch)
  sharedSecret _ point := if (CPubKey.ofBytes point).vch = point then point.tail? else none
  addPoint point c := (addBytes point.tail c).map (2 :: ·)
  addSecret := addBytes

theorem headerContext_lawful : headerContext.Lawful where
  decrypt_encrypt _ _ _ := rfl
  decrypt_length _ _ cipher text h := by
    cases cipher with
    | nil => simp [headerContext] at h
    | cons b bytes =>
      cases h
      exact Nat.lt_succ_self _
  isCompressed vch fCompressed h := by
    have hlen : vch.length = 32 := eq_of_beq h
    cases fCompressed with
    | true =>
      have hsize : (2 :: vch).length = ((2 :: vch).head?.map GetLen).getD 0 := by
        rw [List.length_cons, hlen]
        rfl
      change (CPubKey.ofBytes (2 :: vch)).IsCompressed = true
      unfold CPubKey.ofBytes CPubKey.IsCompressed
      rw [dif_pos hsize]
      simp [hlen]
    | false =>
      have hsize : (4 :: vch ++ vch).length = ((4 :: vch ++ vch).head?.map GetLen).getD 0 := by
        rw [List.length_append, List.length_cons, hlen]
        rfl
      change (CPubKey.ofBytes (4 :: vch ++ vch)).IsCompressed = false
      unfold CPubKey.ofBytes CPubKey.IsCompressed
      rw [dif_pos hsize]
      simp [hlen]
  addPoint_eq secret point c h := by
    cases h
    change (addBytes secret c).map (2 :: ·) = (addBytes secret c).bind fun vch => some (2 :: vch)
    cases addBytes secret c <;> rfl
  addSecret_length f c sum h := by
    change addBytes f c = some sum at h
    unfold addBytes at h
    split at h
    · rename_i hlen
      cases h
      rw [List.length_zipWith, hlen.1, hlen.2]
      rfl
    · simp at h
  addSecret_check f c sum h := by
    change addBytes f c = some sum at h
    unfold addBytes at h
    split at h
    · rename_i hlen
      cases h
      change ((List.zipWith (· + ·) f c).length == 32) = true
      rw [List.length_zipWith, hlen.1, hlen.2]
      rfl
    · simp at h
  addSecret_point f c sum h := by
    change addBytes f c = some sum at h
    unfold addBytes at h
    split at h
    · rename_i hlen
      cases h
      have hsum : (List.zipWith (· + ·) f c).length = 32 := by
        rw [List.length_zipWith, hlen.1, hlen.2]
        rfl
      change some (2 :: _) = some (CPubKey.ofBytes (2 :: _)).vch
      unfold CPubKey.ofBytes
      rw [dif_pos (by rw [List.length_cons, hsum]; rfl)]
    · simp at h
  sharedSecret_point secret point c h := by
    change (if (CPubKey.ofBytes point).vch = point then point.tail? else none) = some c at h
    split at h
    · assumption
    · simp at h

def savingsWallet : CWallet where
  mapKeys := SortedMap.empty.insert (CKey.id headerContext ⟨List.replicate 32 7, true⟩)
    ⟨List.replicate 32 7, true⟩
  mapCryptedKeys := SortedMap.empty
  vMasterKey := []
  fUseCrypto := false
  stealthAddresses := [⟨0, 2 :: List.replicate 32 0, 2 :: List.replicate 32 5, List.replicate 32 0,
    List.replicate 32 5⟩]
  mapStealthKeyMeta _ := none
  mapMasterKeys := []
  sxAddrDb _ := some ⟨0, 2 :: List.replicate 32 0, 2 :: List.replicate 32 5, List.replicate 32 0,
    List.replicate 32 5⟩
  fWalletUnlockAnonymizeOnly := false
  fWalletUnlockStakingOnly := false

theorem savingsWallet_fresh : savingsWallet.Fresh headerContext where
  crypted := rfl
  keys id key h := by
    change (SortedMap.insert _ _ _).find id = some key at h
    rw [SortedMap.find_insert] at h
    split at h
    · rename_i hid
      cases h
      exact ⟨⟨rfl, rfl⟩, hid.symm⟩
    · simp at h
  addresses a ha := by
    obtain rfl := List.mem_singleton.mp ha
    exact .inr ⟨rfl, rfl, rfl, by decide⟩
  distinct := List.pairwise_singleton _ _
  noCrypted := rfl
  noMaster := rfl
  noMasterKey := rfl
  stakingOnly := rfl
  db a ha _ := by
    obtain rfl := List.mem_singleton.mp ha
    exact ⟨_, rfl, rfl⟩

def savingsEncryption : CWallet.Encryption where
  vMasterKey := List.replicate 32 9
  vchSalt := List.replicate 8 0
  nDeriveIterations := 25000
  nDerivationMethod := 0
  newKeys := []
  vMasterKey_length := rfl

def lockedWallet : CWallet :=
  (savingsWallet.EncryptWallet headerContext [1, 2, 3] savingsEncryption).getD savingsWallet

/-- A payment to the stealth address: the script pays to the hash of its key, and the data output
carries the point. -/
def stealthPayment (point : UInt8) : CTransaction where
  nVersion := 1
  nTime := 0
  vin := []
  vout := [⟨5, [OP_DUP, OP_HASH160, 20] ++ (2 :: List.replicate 19 (5 + point))
      ++ [OP_EQUALVERIFY, OP_CHECKSIG]⟩,
    ⟨0, [OP_RETURN, 33, 2] ++ List.replicate 32 point⟩]
  nLockTime := 0

theorem savingsWallet_run (point : UInt8) :
    Relation.ReflTransGen (Pair.Step headerContext) ⟨savingsWallet, savingsWallet, none⟩
      ⟨lockedWallet.FindStealthTransactions headerContext (stealthPayment point),
        savingsWallet.FindStealthTransactions headerContext (stealthPayment point),
        some [1, 2, 3]⟩ := by
  have hsome : (savingsWallet.EncryptWallet headerContext [1, 2, 3] savingsEncryption).isSome
      = true := by decide
  have hencrypt : savingsWallet.EncryptWallet headerContext [1, 2, 3] savingsEncryption
      = some lockedWallet := by
    obtain ⟨w, hw⟩ := Option.isSome_iff_exists.mp hsome
    rfl
  have hfst := Pair.Step.encryptWallet (⟨savingsWallet, savingsWallet, none⟩ : Pair) [1, 2, 3]
    savingsEncryption lockedWallet savingsWallet (fun _ h => absurd h List.not_mem_nil) hencrypt rfl
  exact (Relation.ReflTransGen.single hfst).tail (Pair.Step.receive _ _)

/-- A payment whose key stands behind the other one: the wallet unlocks with all its keys. -/
theorem savingsWallet_unlocks :
    Unlocks headerContext
      (lockedWallet.FindStealthTransactions headerContext (stealthPayment 200))
      (savingsWallet.FindStealthTransactions headerContext (stealthPayment 200)) [1, 2, 3] false
      false :=
  (unlocks_iff headerContext_lawful savingsWallet_fresh (savingsWallet_run 200)
    (fun _ h => Option.some.inj h) false false).mpr (by
      intro id pk c hfirst hnil
      have hfull : (lockedWallet.FindStealthTransactions headerContext
          (stealthPayment 200)).mapCryptedKeys.first.all (fun e => !e.2.2.isEmpty) = true := by
        decide
      rw [hfirst, hnil] at hfull
      simp at hfull)

/-- A payment whose key stands before the other one: the passphrase does not unlock the wallet any
more. -/
theorem savingsWallet_not_unlocks :
    ¬∀ p, Relation.ReflTransGen (Pair.Step headerContext) ⟨savingsWallet, savingsWallet, none⟩ p →
      p.passphrase = some [1, 2, 3] →
        Unlocks headerContext p.wallet p.twin [1, 2, 3] false false := by
  intro hall
  have hunlocks := hall _ (savingsWallet_run 0) rfl
  have hfails : ((lockedWallet.FindStealthTransactions headerContext (stealthPayment 0)).Unlock
      headerContext [1, 2, 3] false false).1 = false := by decide
  exact absurd (hunlocks.success.symm.trans hfails) (by simp)

end ZalemCoin.Wallet
