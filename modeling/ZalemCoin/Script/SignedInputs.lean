import ZalemCoin.Script.Signing
import ZalemCoin.Script.Templates

/-!
# What a signed input is judged by

With a signature scheme that is ideal, the signatures that `SignSignature` puts into an input are, in
their order, those of some of the keys of the script that asks for them. An output that names its keys
is tested by the signer as it is later judged by blocks. For an output that pays to the hash of a
script the test stops at the hash, and blocks judge the signatures as well: they refuse those of a hash
type that is not defined.
-/

namespace ZalemCoin.Script

open Chain Lib
open List (mem_cons_of_mem mem_cons_self length_cons map_nil sum_nil length_nil mem_cons
  not_mem_nil)

variable {Key : Type} {lib : SignatureLibrary Key}

/-- A signature scheme that is ideal, with encodings that are strict: the signature of a hash is
accepted for that hash, and for no other one. -/
structure IdealScheme (lib : SignatureLibrary Key) : Prop where
  length_RIPEMD160 : ∀ vch, (lib.RIPEMD160 vch).length = 20
  canonical : ∀ key, IsCompressedOrUncompressedPubKey (lib.GetPubKey key).vch = true
  der : ∀ {key hash vchSig}, lib.Sign key hash = some vchSig →
    ∀ nHashType, IsDERSignature (vchSig ++ [nHashType]) = true
  low : ∀ {key hash vchSig}, lib.Sign key hash = some vchSig → lib.CheckLowS vchSig = true
  verify : ∀ {key hash vchSig}, lib.Sign key hash = some vchSig →
    lib.Verify (lib.GetPubKey key) hash vchSig = true
  unforgeable : ∀ {key hash vchSig}, lib.Sign key hash = some vchSig →
    ∀ {pubkey hash'}, lib.Verify pubkey hash' vchSig = true → hash' = hash
  hashType : ∀ {txTo nHashType nHashType'},
    lib.HashWriter txTo nHashType = lib.HashWriter txTo nHashType' → nHashType = nHashType'

/-! ## Identifiers -/

variable {a b : List UInt8} {address : CKeyID} {scriptSigRet : CScript} {type : txnouttype}

theorem ofLittleEndian_inj (hlen : a.length = b.length) (h : ofLittleEndian a = ofLittleEndian b) :
    a = b := by
  induction a generalizing b with
  | nil => exact (List.length_eq_zero_iff.mp hlen.symm).symm
  | cons x a ih =>
    rcases b with _ | ⟨y, b⟩
    · simp at hlen
    · unfold ofLittleEndian at h
      have hx := x.toNat_lt
      have hy := y.toNat_lt
      have hfst : x.toNat = y.toNat := by omega
      have hrest : ofLittleEndian a = ofLittleEndian b := by omega
      rw [UInt8.toNat_inj.mp hfst, ih (Nat.succ.inj hlen) hrest]

theorem uint160_inj (ha : a.length = 20) (hb : b.length = 20) (h : uint160 a = uint160 b) :
    a = b := by
  have hbound : ∀ bytes : List UInt8, bytes.length = 20 → ofLittleEndian bytes < 2 ^ 160 := by
    intro bytes hlen
    have hlt := ofLittleEndian_lt bytes
    rw [hlen] at hlt
    exact lt_of_lt_of_eq hlt (by norm_num)
  apply ofLittleEndian_inj (ha.trans hb.symm)
  have hval := congrArg Fin.val h
  unfold uint160 at hval
  rwa [Fin.val_ofNat, Fin.val_ofNat, Nat.mod_eq_of_lt (hbound a ha), Nat.mod_eq_of_lt (hbound b hb)]
    at hval

/-! ## Signatures in the order of the keys -/

def SignatureOf (lib : SignatureLibrary Key) (key : Key) (hash : UInt256) (nHashType : UInt32)
    (vchSig : valtype) : Prop :=
  ∃ bare, lib.Sign key hash = some bare ∧ vchSig = bare ++ [nHashType.toUInt8]

/-- A signature with a key of the store that goes by the same identifier as a public key. The public
key is one that the script has, or that of the key itself. -/
def SignsFor (keystore : CKeyStore lib) (vSolutions : List valtype) (hash : UInt256)
    (nHashType : UInt32) (vchSig vchPubKey : valtype) : Prop :=
  ∃ key, SignatureOf lib key hash nHashType vchSig ∧
    keystore.GetKey (lib.GetID (CPubKey.ofBytes vchPubKey)) = some key ∧
    (vchPubKey ∈ vSolutions ∨ CPubKey.ofBytes vchPubKey = lib.GetPubKey key)

variable {keystore : CKeyStore lib} {hash : UInt256} {nHashType : UInt32}
  {scriptSig script scriptCode : CScript} {vSolutions sigs keys : List valtype} {d : Interpreter}

theorem sign1_eq_true (h : Sign1 keystore address hash nHashType scriptSigRet = (true, scriptSig)) :
    ∃ key vchSig, keystore.GetKey address = some key ∧ SignatureOf lib key hash nHashType vchSig ∧
      scriptSig = scriptSigRet ++ pushData vchSig := by
  unfold Sign1 at h
  rcases hkey : keystore.GetKey address with _ | key
  · rw [hkey] at h
    simp at h
  · rw [hkey] at h
    dsimp only at h
    rcases hsig : lib.Sign key hash with _ | bare
    · rw [hsig] at h
      simp at h
    · rw [hsig] at h
      exact ⟨key, _, rfl, ⟨bare, hsig, rfl⟩, (Prod.mk.inj h).2.symm⟩

theorem sign1_eq_false (h : Sign1 keystore address hash nHashType scriptSigRet = (false, scriptSig)) :
    scriptSig = scriptSigRet := by
  unfold Sign1 at h
  split at h
  · exact (Prod.mk.inj h).2.symm
  · split at h
    · exact (Prod.mk.inj h).2.symm
    · simp at h

/-- The loop appends one signature for each key that it signs with. -/
theorem signNLoop_eq {keystore : CKeyStore lib} {hash : UInt256} {nHashType : UInt32}
    {nRequired : ℕ} (vSolutions : List valtype) {pubkeys : List valtype}
    (hpubkeys : ∀ vchPubKey ∈ pubkeys, vchPubKey ∈ vSolutions) {nSigned : ℕ} {values : List valtype}
    {nDone : ℕ} {scriptSig : CScript}
    (h : signNLoop keystore hash nHashType nRequired pubkeys nSigned (PushAll values)
      = (nDone, scriptSig)) :
    ∃ sigs, scriptSig = PushAll (values ++ sigs) ∧ nDone = nSigned + sigs.length ∧
      List.SublistForall₂ (SignsFor keystore vSolutions hash nHashType) sigs pubkeys := by
  induction pubkeys generalizing nSigned values with
  | nil =>
    cases h
    exact ⟨[], by rw [List.append_nil], rfl, List.SublistForall₂.nil⟩
  | cons vchPubKey pubkeys ih =>
    have hrest : ∀ vchPubKey' ∈ pubkeys, vchPubKey' ∈ vSolutions := fun vchPubKey' hmem =>
      hpubkeys vchPubKey' (mem_cons_of_mem _ hmem)
    unfold signNLoop at h
    split_ifs at h with hmore
    · rcases hsign : Sign1 keystore (lib.GetID (CPubKey.ofBytes vchPubKey)) hash nHashType
          (PushAll values) with ⟨signed, scriptSig'⟩
      rw [hsign] at h
      cases signed with
      | false =>
        rw [sign1_eq_false hsign] at h
        obtain ⟨sigs, hscr, hdone, hsigs⟩ := ih hrest h
        exact ⟨sigs, hscr, hdone, hsigs.cons_right⟩
      | true =>
        obtain ⟨key, vchSig, hkey, hsig, rfl⟩ := sign1_eq_true hsign
        rw [← pushAll_append] at h
        obtain ⟨sigs, hscr, hdone, hsigs⟩ := ih hrest h
        have hfor : SignsFor keystore vSolutions hash nHashType vchSig vchPubKey :=
          ⟨key, hsig, hkey, .inl (hpubkeys vchPubKey mem_cons_self)⟩
        refine ⟨vchSig :: sigs, ?_, ?_, hsigs.cons hfor⟩
        · rw [hscr, List.append_assoc, List.singleton_append]
        · rw [hdone, if_pos rfl, length_cons]
          omega
    · cases h
      exact ⟨[], by rw [List.append_nil], rfl, List.SublistForall₂.nil⟩

/-! ## Scripts that have been signed for -/

/-- What has been pushed for a script: signatures for some of its keys in their order, which the script
comes down to checking. -/
structure Signed (keystore : CKeyStore lib) (script : CScript) (hash : UInt256) (nHashType : UInt32)
    (whichType : txnouttype) (args sigs pubkeys vSolutions : List valtype) : Prop where
  signs : List.SublistForall₂ (SignsFor keystore vSolutions hash nHashType) sigs pubkeys
  sigs_ne : sigs ≠ []
  args_mem : ∀ b ∈ args, b = [] ∨ b ∈ sigs ∨ ∃ key, b = (lib.GetPubKey key).vch
  few : args.length ≤ 17
  size_le : script.length ≤ nMaxScriptSize
  /-- The keys are those of the script when it has several, and otherwise the one that signed. -/
  pubkeys_eq : (∀ vchPubKey ∈ pubkeys,
      ∃ vchSig, SignsFor keystore vSolutions hash nHashType vchSig vchPubKey) ∨
    (whichType = .TX_MULTISIG ∧ pubkeys = vSolutions.tail.dropLast)
  parsed : ∃ ops, Parsed script ops ∧ ∀ op ∈ ops, op.vch = [] ∨ op.vch ∈ vSolutions
  checks : ∀ d : Interpreter, Plain d → d.HASH160 = lib.Hash160 → script.length ≤ nMaxScriptSize →
    evalScript d args.reverse script
      = (checkSigs d (scriptCodeOf script sigs.reverse) sigs.reverse pubkeys.reverse).map fun fSuccess =>
        [vchBool fSuccess]

theorem signed_pubKey (hmatch : matchTemplate [OP_PUBKEY, OP_CHECKSIG] script = some vSolutions)
    (h : Sign1 keystore (lib.GetID (CPubKey.ofBytes (vSolutions.headD []))) hash nHashType []
      = (true, scriptSig)) :
    ∃ args sigs pubkeys, scriptSig = PushAll args ∧
      Signed keystore script hash nHashType .TX_PUBKEY args sigs pubkeys vSolutions := by
  obtain ⟨key, hpush, hparsed, rfl⟩ := matchTemplate_pubKey hmatch
  obtain ⟨secret, vchSig, hkey, hsig, rfl⟩ := sign1_eq_true h
  have hfor : SignsFor keystore [key.vch] hash nHashType vchSig key.vch :=
    ⟨secret, hsig, hkey, .inl (List.mem_singleton_self _)⟩
  refine ⟨[vchSig], [vchSig], [key.vch], (List.append_nil _).symm, ?_⟩
  exact
    { signs := List.SublistForall₂.nil.cons hfor
      sigs_ne := List.cons_ne_nil _ _
      args_mem := by
        intro b hb
        exact .inr (.inl hb)
      few := by
        rw [List.length_singleton]
        omega
      size_le := by
        have hlen := hparsed.length_le
        have hmost := hpush.most
        have hlim : nMaxScriptSize = 10000 := rfl
        simp only [List.map_cons, map_nil, List.sum_cons, sum_nil, length_nil] at hlen
        omega
      pubkeys_eq := by
        left
        intro vchPubKey hmem
        rw [List.mem_singleton.mp hmem]
        exact ⟨vchSig, hfor⟩
      parsed := by
        refine ⟨_, hparsed, ?_⟩
        intro op hop
        simp only [mem_cons, not_mem_nil, or_false] at hop
        rcases hop with rfl | rfl
        · exact .inr (List.mem_singleton_self _)
        · exact .inl rfl
      checks := fun d hd _ hsize => hd.evalScript_pubKey hpush hparsed hsize vchSig }

theorem signed_pubKeyHash (hideal : IdealScheme lib)
    (hmatch : matchTemplate [OP_DUP, OP_HASH160, OP_PUBKEYHASH, OP_EQUALVERIFY, OP_CHECKSIG] script
      = some vSolutions)
    (h : Sign1 keystore (uint160 (vSolutions.headD [])) hash nHashType [] = (true, scriptSig)) :
    ∃ args sigs pubkeys,
      scriptSig ++ pushData ((keystore.GetPubKey (uint160 (vSolutions.headD []))).getD
        CPubKey.invalid).vch = PushAll args ∧
      Signed keystore script hash nHashType .TX_PUBKEYHASH args sigs pubkeys vSolutions := by
  obtain ⟨r1, r2, id, r4, hpush, hparsed, rfl⟩ := matchTemplate_pubKeyHash hmatch
  obtain ⟨secret, vchSig, hkey, hsig, rfl⟩ := sign1_eq_true h
  dsimp only [List.headD_cons] at hkey ⊢
  have hpubkey : (keystore.GetPubKey (uint160 id.vch)).getD CPubKey.invalid = lib.GetPubKey secret := by
    unfold CKeyStore.GetPubKey
    rw [hkey]
    rfl
  -- the key goes by the hash that the script has
  have hsame : lib.Hash160 (lib.GetPubKey secret).vch = id.vch := by
    apply uint160_inj (hideal.length_RIPEMD160 _) (le_antisymm hpush.most hpush.least)
    exact keystore.id_eq hkey
  have hfor : SignsFor keystore [id.vch] hash nHashType vchSig (lib.GetPubKey secret).vch := by
    refine ⟨secret, hsig, ?_, .inr (CPubKey.ofBytes_vch _)⟩
    rw [CPubKey.ofBytes_vch, keystore.id_eq hkey]
    exact hkey
  refine ⟨[vchSig, (lib.GetPubKey secret).vch], [vchSig], [(lib.GetPubKey secret).vch], ?_, ?_⟩
  · rw [hpubkey]
    simp [PushAll]
  exact
    { signs := List.SublistForall₂.nil.cons hfor
      sigs_ne := List.cons_ne_nil _ _
      args_mem := by
        intro b hb
        simp only [mem_cons, not_mem_nil, or_false] at hb
        rcases hb with rfl | rfl
        · exact .inr (.inl (List.mem_singleton_self _))
        · exact .inr (.inr ⟨secret, rfl⟩)
      few := by
        simp only [length_cons, length_nil]
        omega
      size_le := by
        have hlen := hparsed.length_le
        have hmost := hpush.most
        have hlim : nMaxScriptSize = 10000 := rfl
        simp only [List.map_cons, map_nil, List.sum_cons, sum_nil, length_nil] at hlen
        omega
      pubkeys_eq := by
        left
        intro vchPubKey hmem
        rw [List.mem_singleton.mp hmem]
        exact ⟨vchSig, hfor⟩
      parsed := by
        refine ⟨_, hparsed, ?_⟩
        intro op hop
        simp only [mem_cons, not_mem_nil, or_false] at hop
        rcases hop with rfl | rfl | rfl | rfl | rfl
        · exact .inl rfl
        · exact .inl rfl
        · exact .inr (List.mem_singleton_self _)
        · exact .inl rfl
        · exact .inl rfl
      checks := by
        intro d hd hhash hsize
        apply hd.evalScript_pubKeyHash hpush hparsed hsize
        rw [hhash, hsame] }

theorem smallInteger_of_pos {op : Instruction} (hread : readInstruction script = some op)
    (hsmall : IsSmallInteger op.opcode = true) (hpos : 1 ≤ DecodeOP_N op.opcode) :
    OP_1 ≤ op.opcode ∧ op.opcode ≤ OP_16 ∧ op.vch = [] := by
  have hne : op.opcode ≠ OP_0 := by
    intro hzero
    unfold DecodeOP_N at hpos
    rw [if_pos hzero] at hpos
    exact absurd hpos (by decide)
  unfold IsSmallInteger at hsmall
  simp only [Bool.or_eq_true, beq_iff_eq, hne, false_or, Bool.and_eq_true, decide_eq_true_eq] at hsmall
  obtain ⟨sizes, -, -, -, hother⟩ := readInstruction_eq_some hread
  have hhigh : ¬op.opcode ≤ OP_PUSHDATA4 := fun hle =>
    absurd (UInt8.le_trans hsmall.1 hle) (by decide)
  exact ⟨hsmall.1, hsmall.2, hother hhigh⟩

theorem decodeOP_N_le {opcode : UInt8} (hlow : OP_1 ≤ opcode) (hhigh : opcode ≤ OP_16) :
    (DecodeOP_N opcode).toNat ≤ 16 := by
  have hlow' := UInt8.le_iff_toNat_le.mp hlow
  have hhigh' := UInt8.le_iff_toNat_le.mp hhigh
  have hone : OP_1.toNat = 81 := rfl
  have hsixteen : OP_16.toNat = 96 := rfl
  have hsub : (OP_1 - 1 : UInt8).toNat = 80 := rfl
  unfold DecodeOP_N
  split_ifs
  · exact Nat.zero_le _
  · rw [UInt8.toNat_sub_of_le _ _ (UInt8.le_iff_toNat_le.mpr (by omega)), hsub]
    omega

theorem Parsed.read_of_append {script : CScript} {before : List Instruction} {op : Instruction}
    {after : List Instruction} (h : Parsed script (before ++ op :: after)) :
    ∃ script', readInstruction script' = some op := by
  induction before generalizing script with
  | nil =>
    cases h with
    | cons hread _ => exact ⟨_, hread⟩
  | cons _ _ ih =>
    cases h with
    | cons _ hrest => exact ih hrest

theorem multisigCounts_eq {m n : Instruction} {keys : List Instruction}
    (hsmallm : IsSmallInteger m.opcode = true) (hsmalln : IsSmallInteger n.opcode = true)
    (hparsed : Parsed script (m :: (keys ++ [n, ⟨OP_CHECKMULTISIG, [], []⟩])))
    (hcnts : MultisigCounts ([DecodeOP_N m.opcode] ::
      (keys.map Instruction.vch ++ [[DecodeOP_N n.opcode]])) = true) :
    (OP_1 ≤ m.opcode ∧ m.opcode ≤ OP_16 ∧ m.vch = []) ∧
      (OP_1 ≤ n.opcode ∧ n.opcode ≤ OP_16 ∧ n.vch = []) ∧ 1 ≤ (DecodeOP_N m.opcode).toNat ∧
      (DecodeOP_N m.opcode).toNat ≤ keys.length ∧ (DecodeOP_N n.opcode).toNat = keys.length := by
  have hlast : ([DecodeOP_N m.opcode] :: (keys.map Instruction.vch ++ [[DecodeOP_N n.opcode]])).getLast?
      = some [DecodeOP_N n.opcode] := by
    rw [← List.cons_append, List.getLast?_concat]
  unfold MultisigCounts at hcnts
  rw [hlast] at hcnts
  simp only [List.head?_cons, Option.bind_some, Option.getD_some, Bool.and_eq_true, beq_iff_eq,
    length_cons, List.length_append, length_nil, List.length_map] at hcnts
  obtain ⟨⟨⟨hposm, hposn⟩, hle⟩, hlen⟩ := hcnts
  replace hposm := of_decide_eq_true hposm
  obtain ⟨_, hreadm⟩ := @Parsed.read_of_append _ [] _ _ hparsed
  obtain ⟨_, hreadn⟩ := @Parsed.read_of_append _ (m :: keys) _ _ hparsed
  have hcnt : (DecodeOP_N n.opcode).toNat = keys.length := by omega
  refine ⟨smallInteger_of_pos hreadm hsmallm hposm,
    smallInteger_of_pos hreadn hsmalln (of_decide_eq_true hposn), UInt8.le_iff_toNat_le.mp hposm, ?_,
    hcnt⟩
  rw [← hcnt]
  exact UInt8.le_iff_toNat_le.mp (of_decide_eq_true hle)

theorem signed_multisig
    (hmatch : matchTemplate [OP_SMALLINTEGER, OP_PUBKEYS, OP_SMALLINTEGER, OP_CHECKMULTISIG] script
      = some vSolutions)
    (hcnts : MultisigCounts vSolutions = true)
    (h : SignN keystore vSolutions hash nHashType [OP_0] = (true, scriptSig)) :
    ∃ args sigs pubkeys, scriptSig = PushAll args ∧
      Signed keystore script hash nHashType .TX_MULTISIG args sigs pubkeys vSolutions := by
  obtain ⟨m, n, keys, hsmallm, hsmalln, hkeys, hparsed, rfl⟩ := matchTemplate_multisig hmatch
  obtain ⟨hm, hn, hposm, hle, hcnt⟩ := multisigCounts_eq hsmallm hsmalln hparsed hcnts
  set pubkeys := keys.map Instruction.vch with hpubkeys
  have htail : ([DecodeOP_N m.opcode] :: (pubkeys ++ [[DecodeOP_N n.opcode]])).tail.dropLast = pubkeys := by
    rw [List.tail_cons, List.dropLast_concat]
  -- the loop made as many signatures as the script asks for
  unfold SignN at h
  simp only [List.head?_cons, Option.bind_some, Option.getD_some] at h
  rw [htail] at h
  rcases hloop : signNLoop keystore hash nHashType (DecodeOP_N m.opcode).toNat pubkeys 0 [OP_0]
    with ⟨nDone, scriptSig'⟩
  rw [hloop] at h
  obtain ⟨hdone, rfl⟩ := Prod.mk.inj h
  have hmem : ∀ vchPubKey ∈ pubkeys, vchPubKey ∈
      [DecodeOP_N m.opcode] :: (pubkeys ++ [[DecodeOP_N n.opcode]]) := by
    intro vchPubKey hvch
    exact mem_cons_of_mem _ (List.mem_append_left _ hvch)
  obtain ⟨sigs, rfl, hsigs, hsigns⟩ :=
    @signNLoop_eq _ _ keystore hash nHashType _ _ pubkeys hmem 0 [[]] nDone scriptSig' hloop
  have hnum : (DecodeOP_N m.opcode).toNat = sigs.length := by
    have hequal := beq_iff_eq.mp hdone
    omega
  have hposm' : 1 ≤ sigs.length := hnum ▸ hposm
  have hmost : keys.length ≤ 16 := by
    rw [← hcnt]
    exact decodeOP_N_le hn.1 hn.2.1
  refine ⟨[] :: sigs, sigs, pubkeys, rfl, ?_⟩
  exact
    { signs := hsigns
      sigs_ne := List.length_pos_iff.mp hposm'
      args_mem := by
        intro b hb
        rcases List.mem_cons.mp hb with rfl | hb
        · exact .inl rfl
        · exact .inr (.inl hb)
      few := by
        rw [length_cons]
        omega
      size_le := by
        have hlen := hparsed.length_le
        have hlim : nMaxScriptSize = 10000 := rfl
        have hsum : (keys.map fun op => 5 + op.vch.length).sum ≤ keys.length * 125 := by
          have hbound := List.sum_le_card_nsmul (keys.map fun op => 5 + op.vch.length) 125
          rw [List.length_map, nsmul_eq_mul] at hbound
          apply hbound
          intro n hmem
          obtain ⟨key, hkey, rfl⟩ := List.mem_map.mp hmem
          have hlong := (hkeys key hkey).most
          omega
        simp only [List.map_cons, List.map_append, map_nil, List.sum_cons, List.sum_append,
          sum_nil, length_nil] at hlen
        rw [hm.2.2, hn.2.2, length_nil] at hlen
        omega
      pubkeys_eq := .inr ⟨rfl, htail.symm⟩
      parsed := by
        refine ⟨_, hparsed, ?_⟩
        intro op hop
        simp only [mem_cons, List.mem_append, not_mem_nil, or_false] at hop
        rcases hop with rfl | hop | rfl | rfl
        · exact .inl hm.2.2
        · exact .inr (hmem _ (List.mem_map_of_mem hop))
        · exact .inl hn.2.2
        · exact .inl rfl
      checks := by
        intro d hd _ hsize
        have hlengths : sigs.reverse.length = sigs.length := List.length_reverse
        rw [List.reverse_cons]
        apply hd.evalScript_multisig hm hn hkeys hparsed hsize
        all_goals omega }

theorem scanTemplates_eq_some {templates : List (txnouttype × CScript)}
    {vSolutions : List (List UInt8)} (h : scanTemplates script templates = some (type, vSolutions)) :
    ∃ template, (type, template) ∈ templates ∧ matchTemplate template script = some vSolutions ∧
      (type = .TX_MULTISIG → MultisigCounts vSolutions = true) := by
  induction templates with
  | nil => simp [scanTemplates] at h
  | cons entry templates ih =>
    obtain ⟨type', template⟩ := entry
    unfold scanTemplates at h
    rcases hmatch : matchTemplate template script with _ | found
    · rw [hmatch] at h
      obtain ⟨template', hmem, hrest⟩ := ih h
      exact ⟨template', mem_cons_of_mem _ hmem, hrest⟩
    · rw [hmatch] at h
      dsimp only at h
      split_ifs at h with hcnts
      cases h
      refine ⟨template, mem_cons_self, hmatch, ?_⟩
      intro hmulti
      by_contra hbad
      exact hcnts ⟨hmulti, Bool.eq_false_of_not_eq_true hbad⟩

theorem solver_eq_some {vSolutions : List (List UInt8)}
    (h : Solver script = some (type, vSolutions)) (htype : type ≠ .TX_SCRIPTHASH) :
    ∃ template, (type, template) ∈ mTemplates ∧ matchTemplate template script = some vSolutions ∧
      (type = .TX_MULTISIG → MultisigCounts vSolutions = true) := by
  unfold Solver at h
  split_ifs at h with hhash
  · exact absurd (Prod.mk.inj (Option.some.inj h)).1.symm htype
  · exact scanTemplates_eq_some h

/-- What `Solver` returns are signatures that fit the template. -/
theorem solver_signed (hideal : IdealScheme lib) {whichType : txnouttype}
    (h : keystore.Solver script hash nHashType = (some whichType, scriptSig))
    (htype : whichType ≠ .TX_SCRIPTHASH) :
    ∃ vSolutions args sigs pubkeys, Solver script = some (whichType, vSolutions) ∧
      scriptSig = PushAll args ∧
      Signed keystore script hash nHashType whichType args sigs pubkeys vSolutions := by
  unfold CKeyStore.Solver at h
  rcases hsolver : Solver script with _ | ⟨type, vSolutions⟩
  · rw [hsolver] at h
    simp at h
  rw [hsolver] at h
  have hsame : type = whichType := by
    have hfst := (Prod.mk.inj h).1
    split_ifs at hfst
    exact Option.some.inj hfst
  subst hsame
  obtain ⟨template, hmem, hmatch, hcnts⟩ := solver_eq_some hsolver htype
  have hof : ∀ (signed : Bool × CScript),
      (if signed.1 = true then some type else none, signed.2) = (some type, scriptSig) →
        signed = (true, scriptSig) := by
    rintro ⟨signed, scriptSig'⟩ heq
    obtain ⟨hsig, rfl⟩ := Prod.mk.inj heq
    dsimp only at hsig
    split_ifs at hsig with hif
    rw [hif]
  cases type with
  | TX_NONSTANDARD => simp [mTemplates] at hmem
  | TX_NULL_DATA => simp at h
  | TX_SCRIPTHASH => exact absurd rfl htype
  | TX_PUBKEY =>
    simp only [mTemplates, mem_cons, Prod.mk.injEq, reduceCtorEq, false_and, true_and,
      not_mem_nil, or_false] at hmem
    subst hmem
    obtain ⟨args, sigs, pubkeys, hargs, hsig⟩ := signed_pubKey hmatch (hof _ h)
    exact ⟨vSolutions, args, sigs, pubkeys, rfl, hargs, hsig⟩
  | TX_PUBKEYHASH =>
    simp only [mTemplates, mem_cons, Prod.mk.injEq, reduceCtorEq, false_and, true_and,
      not_mem_nil, or_false, false_or] at hmem
    subst hmem
    rcases hsign : Sign1 keystore (uint160 (vSolutions.headD [])) hash nHashType [] with
      ⟨signed, scriptSig'⟩
    simp only [hsign] at h
    cases signed with
    | false => simp at h
    | true =>
      have hscr := (Prod.mk.inj (hof _ h)).2
      obtain ⟨args, sigs, pubkeys, hargs, hsig⟩ := signed_pubKeyHash hideal hmatch hsign
      exact ⟨vSolutions, args, sigs, pubkeys, rfl, hscr.symm.trans hargs, hsig⟩
  | TX_MULTISIG =>
    simp only [mTemplates, mem_cons, Prod.mk.injEq, reduceCtorEq, false_and, true_and,
      not_mem_nil, or_false, false_or] at hmem
    subst hmem
    obtain ⟨args, sigs, pubkeys, hargs, hsig⟩ := signed_multisig hmatch (hcnts rfl) (hof _ h)
    exact ⟨vSolutions, args, sigs, pubkeys, rfl, hargs, hsig⟩

/-! ## The hash that is signed -/

/-- A transaction without the scripts of its inputs. -/
def CTransaction.unsigned (tx : CTransaction) : CTransaction :=
  { tx with vin := tx.vin.map fun txin => { txin with scriptSig := [] } }

theorem signatureHash_unsigned (scriptCode : CScript) (txTo : CTransaction) (nIn : ℕ)
    (nHashType : UInt32) :
    SignatureHash lib scriptCode (CTransaction.unsigned txTo) nIn nHashType
      = SignatureHash lib scriptCode txTo nIn nHashType := by
  have hblank : ∀ code, blankScripts code nIn (CTransaction.unsigned txTo).vin
      = blankScripts code nIn txTo.vin := by
    intro code
    unfold blankScripts CTransaction.unsigned
    apply List.ext_getElem?
    intro i
    rw [List.getElem?_mapIdx, List.getElem?_mapIdx, List.getElem?_map, Option.map_map]
    rfl
  have hlen : (CTransaction.unsigned txTo).vin.length = txTo.vin.length := List.length_map _
  unfold SignatureHash
  dsimp only
  rw [hlen, hblank]
  rfl

theorem signatureHash_congr {txTo txTo' : CTransaction}
    (h : CTransaction.unsigned txTo = CTransaction.unsigned txTo') (scriptCode : CScript) (nIn : ℕ)
    (nHashType : UInt32) :
    SignatureHash lib scriptCode txTo nIn nHashType = SignatureHash lib scriptCode txTo' nIn nHashType := by
  rw [← signatureHash_unsigned, h, signatureHash_unsigned]

theorem signatureHash_withScriptSig (scriptCode : CScript) (txTo : CTransaction) (nIn : ℕ)
    (scriptSig : CScript) (nHashType : UInt32) :
    SignatureHash lib scriptCode (CTransaction.withScriptSig txTo nIn scriptSig) nIn nHashType
      = SignatureHash lib scriptCode txTo nIn nHashType := by
  apply signatureHash_congr
  unfold CTransaction.unsigned CTransaction.withScriptSig
  congr 1
  apply List.ext_getElem?
  intro i
  rw [List.getElem?_map, List.getElem?_map, List.getElem?_modify]
  rcases txTo.vin[i]? with _ | txin
  · rfl
  · by_cases hi : nIn = i
    · simp [hi]
    · simp [hi]

/-- The hash of a type with its further bits is the one of its lowest byte only when there are none, or
when it is the constant that stands for an output that is missing. -/
def OneByte (txTo : CTransaction) (nIn : ℕ) (nHashType : UInt32) : Prop :=
  nHashType.toUInt8.toUInt32 = nHashType ∨
    (nHashType &&& 0x1f = SIGHASH_SINGLE.toUInt32 ∧ txTo.vout.length ≤ nIn)

theorem toUInt8_and {mask : UInt32} (hmask : mask.toNat < 2 ^ 8) (nHashType : UInt32) :
    nHashType.toUInt8.toUInt32 &&& mask = nHashType &&& mask := by
  apply UInt32.toNat_inj.mp
  rw [UInt32.toNat_and, UInt32.toNat_and, UInt8.toNat_toUInt32, UInt32.toNat_toUInt8]
  apply Nat.eq_of_testBit_eq
  intro i
  rw [Nat.testBit_and, Nat.testBit_and, Nat.testBit_mod_two_pow]
  by_cases hi : i < 8
  · rw [decide_eq_true hi, Bool.true_and]
  · -- beyond the byte the mask has no bits
    have hzero : mask.toNat.testBit i = false := by
      apply Nat.testBit_lt_two_pow
      exact lt_of_lt_of_le hmask (Nat.pow_le_pow_right (by omega) (by omega))
    rw [hzero, Bool.and_false, Bool.and_false]

theorem signatureHash_byte_iff (hideal : IdealScheme lib) (scriptCode : CScript) (txTo : CTransaction)
    {nIn : ℕ} (hnIn : nIn < txTo.vin.length) (nHashType : UInt32) :
    SignatureHash lib scriptCode txTo nIn nHashType.toUInt8.toUInt32
        = SignatureHash lib scriptCode txTo nIn nHashType ↔ OneByte txTo nIn nHashType := by
  have hin : ¬txTo.vin.length ≤ nIn := by omega
  unfold SignatureHash OneByte
  simp only [if_neg hin]
  rw [toUInt8_and (by decide), toUInt8_and (by decide)]
  by_cases hmiss : nHashType &&& 0x1f = SIGHASH_SINGLE.toUInt32 ∧ txTo.vout.length ≤ nIn
  · rw [if_pos hmiss, if_pos hmiss]
    exact iff_of_true rfl (.inr hmiss)
  · rw [if_neg hmiss, if_neg hmiss]
    constructor
    · intro h
      exact .inl (hideal.hashType h)
    · intro h
      rw [h.resolve_right hmiss]

/-! ## The two interpreters on signatures -/

abbrev inBlocks (lib : SignatureLibrary Key) (txTo : CTransaction) (nIn : ℕ) : Interpreter :=
  CBigNum.interpreter lib.toScriptLibrary SCRIPT_VERIFY_NOCACHE (CheckSig lib txTo nIn 0)

abbrev inTest (lib : SignatureLibrary Key) (txTo : CTransaction) (nIn : ℕ) : Interpreter :=
  checker lib.toScriptLibrary (SignatureChecker.CheckSig lib txTo nIn)

theorem checkSig_eq (txTo : CTransaction) (nIn : ℕ) :
    CheckSig lib txTo nIn 0 = SignatureChecker.CheckSig lib txTo nIn := by
  funext vchSig vchPubKey scriptCode
  unfold CheckSig SignatureChecker.CheckSig
  rcases vchSig.getLast? with _ | byte
  · rfl
  · dsimp only
    have hany : ¬((0 : UInt32) ≠ 0 ∧ (0 : UInt32) ≠ byte.toUInt32) := fun h => h.1 rfl
    rw [if_neg hany]

theorem plain_inBlocks (txTo : CTransaction) (nIn : ℕ) : Plain (inBlocks lib txTo nIn) where
  push _ _ := rfl
  count := by
    have hcnt : ∀ k ≤ 16, 1 ≤ k →
        (CastToBigNum (CBigNum.getvch (k : ℕ))).map CBigNum.getint = some (k : ℤ) := by
      decide
    intro k hpos hk
    exact hcnt k hk hpos

theorem plain_inTest (txTo : CTransaction) (nIn : ℕ) : Plain (inTest lib txTo nIn) where
  push _ _ := rfl
  count := by
    have hcnt : ∀ k ≤ 16, 1 ≤ k → (CScriptNum.ofVch (CScriptNum.serialize (wrap64 (k : ℕ)))
        false).map CScriptNum.getint = some (k : ℤ) := by
      decide
    have hflag : hasFlag STANDARD_SCRIPT_VERIFY_FLAGS SCRIPT_VERIFY_MINIMALDATA = false := by decide
    intro k hpos hk
    simp only [inTest, checker, CScriptNum.interpreter, hflag]
    exact hcnt k hk hpos

theorem sublistForall₂_tail {R : valtype → valtype → Prop} {vchSig : valtype}
    (h : List.SublistForall₂ R (vchSig :: sigs) keys) : List.SublistForall₂ R sigs keys := by
  obtain ⟨l, hl, hsub⟩ := List.sublistForall₂_iff.mp h
  apply List.sublistForall₂_iff.mpr
  cases hl with
  | cons _ htail => exact ⟨_, htail, (List.sublist_cons_self _ _).trans hsub⟩

theorem checkSigs_of_sublist
    (henc : ∀ vchSig ∈ sigs, ∀ vchPubKey ∈ keys, d.checkEncoding vchSig vchPubKey = true)
    (h : List.SublistForall₂
      (fun vchSig vchPubKey => d.CheckSig vchSig vchPubKey scriptCode = true) sigs keys) :
    checkSigs d scriptCode sigs keys = some true := by
  have hlen : ∀ {sigs keys : List valtype}, List.SublistForall₂
      (fun vchSig vchPubKey => d.CheckSig vchSig vchPubKey scriptCode = true) sigs keys →
      sigs.length ≤ keys.length := by
    intro sigs keys h
    induction h with
    | nil => exact Nat.zero_le _
    | cons _ _ ih => exact Nat.succ_le_succ ih
    | cons_right _ ih => exact Nat.le_succ_of_le ih
  induction keys generalizing sigs with
  | nil =>
    cases h with
    | nil => rfl
  | cons vchPubKey keys ih =>
    rcases sigs with _ | ⟨vchSig, sigs⟩
    · rfl
    -- what is left of the signatures belongs to the rest of the keys
    have hleft : List.SublistForall₂
        (fun vchSig vchPubKey => d.CheckSig vchSig vchPubKey scriptCode = true)
        (if d.CheckSig vchSig vchPubKey scriptCode = true then sigs else vchSig :: sigs) keys := by
      split_ifs with hsig
      · cases h with
        | cons _ hrest => exact hrest
        | cons_right hrest => exact sublistForall₂_tail hrest
      · cases h with
        | cons hsig' _ => exact absurd hsig' hsig
        | cons_right hrest => exact hrest
    have hmem : ∀ vchSig' ∈ (if d.CheckSig vchSig vchPubKey scriptCode = true then sigs
        else vchSig :: sigs), vchSig' ∈ vchSig :: sigs := by
      intro vchSig' hvch
      split_ifs at hvch
      · exact mem_cons_of_mem _ hvch
      · exact hvch
    unfold checkSigs
    rw [if_pos (henc vchSig mem_cons_self vchPubKey mem_cons_self)]
    rw [if_neg (Nat.not_lt.mpr (hlen hleft))]
    apply ih _ hleft
    intro vchSig' hvch vchPubKey' hkey
    exact henc vchSig' (hmem vchSig' hvch) vchPubKey' (mem_cons_of_mem _ hkey)

theorem checkSigs_of_refused (hsome : sigs ≠ [])
    (h : ∀ vchSig ∈ sigs, ∀ vchPubKey, d.CheckSig vchSig vchPubKey scriptCode = false) :
    checkSigs d scriptCode sigs keys ≠ some true := by
  induction keys with
  | nil =>
    rcases sigs with _ | ⟨vchSig, sigs⟩
    · exact absurd rfl hsome
    · simp [checkSigs]
  | cons vchPubKey keys ih =>
    rcases sigs with _ | ⟨vchSig, sigs⟩
    · exact absurd rfl hsome
    · have hfalse : ¬d.CheckSig vchSig vchPubKey scriptCode = true := by
        rw [h vchSig mem_cons_self vchPubKey]
        exact Bool.false_ne_true
      unfold checkSigs
      dsimp only
      split_ifs
      · simp
      · exact ih
      · simp

/-- What passes one interpreter passes another that refuses no pair of a signature and a key, and judges
those that the first one goes on with alike. -/
theorem checkSigs_transfer {d' : Interpreter}
    (henc : ∀ vchSig vchPubKey, d'.checkEncoding vchSig vchPubKey = true)
    (hsame : ∀ vchSig ∈ sigs, ∀ vchPubKey, d.checkEncoding vchSig vchPubKey = true →
      d'.CheckSig vchSig vchPubKey scriptCode = d.CheckSig vchSig vchPubKey scriptCode)
    (h : checkSigs d scriptCode sigs keys = some true) :
    checkSigs d' scriptCode sigs keys = some true := by
  induction keys generalizing sigs with
  | nil =>
    rcases sigs with _ | ⟨vchSig, sigs⟩
    · rfl
    · simp [checkSigs] at h
  | cons vchPubKey keys ih =>
    rcases sigs with _ | ⟨vchSig, sigs⟩
    · rfl
    · unfold checkSigs at h ⊢
      dsimp only at h ⊢
      rw [if_pos (henc vchSig vchPubKey)]
      by_cases hfst : d.checkEncoding vchSig vchPubKey = true
      · rw [if_pos hfst] at h
        rw [hsame vchSig mem_cons_self vchPubKey hfst]
        split_ifs at h ⊢
        · simp at h
        · exact ih (fun vchSig' hmem => hsame vchSig' (mem_cons_of_mem _ hmem)) h
        · simp at h
        · exact ih hsame h
      · rw [if_neg hfst] at h
        simp at h

end ZalemCoin.Script
