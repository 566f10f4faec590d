import ZalemCoin.Script.SignedInputs

/-!
# What can be spent

Blocks accept what `SignSignature` signs for an output that names its keys, and for an output that
pays to the hash of a script when the hash type of the signatures is one that blocks allow. `IsMine`
calls an output spendable when the keys for it are there, also when they stand in a script that is
hidden behind several hashes; `SignSignature` looks behind one.
-/

namespace ZalemCoin.Script

open Chain Lib
open List (length_cons length_nil)
open Option (bind_some some.inj)
open CTransaction (withScriptSig)

variable {Key : Type} {lib : SignatureLibrary Key}

/-! ## Signatures of an ideal scheme -/

theorem vch_of_ofBytes {vch : valtype} (h : (CPubKey.ofBytes vch).vch ≠ []) :
    (CPubKey.ofBytes vch).vch = vch := by
  unfold CPubKey.ofBytes at h ⊢
  split_ifs at h ⊢
  · rfl
  · exact absurd rfl h

variable {key : Key} {vchSig : valtype} {txTo : CTransaction} {nIn : ℕ} {values : List valtype}
  {d : Interpreter} {fromPubKey subscript : CScript} {R : valtype → valtype → Prop} {hash : UInt256}
  {nHashType : UInt32} {script : CScript}

theorem IdealScheme.vch_eq (hideal : IdealScheme lib) {vchPubKey : valtype}
    (h : CPubKey.ofBytes vchPubKey = lib.GetPubKey key) : vchPubKey = (lib.GetPubKey key).vch := by
  rw [← h]
  apply (vch_of_ofBytes _).symm
  intro hemp
  have hcanon := hideal.canonical key
  rw [← h, hemp] at hcanon
  exact absurd hcanon (by decide)

theorem IdealScheme.isValid (hideal : IdealScheme lib) (key : Key) :
    (lib.GetPubKey key).IsValid = true := by
  unfold CPubKey.IsValid
  rcases hvch : (lib.GetPubKey key).vch with _ | ⟨byte, bytes⟩
  · have hcanon := hideal.canonical key
    rw [hvch] at hcanon
    exact absurd hcanon (by decide)
  · rfl

theorem length_of_isDERSignature (h : IsDERSignature vchSig = true) :
    9 ≤ vchSig.length ∧ vchSig.length ≤ 73 := by
  unfold IsDERSignature at h
  simp only [Bool.and_eq_true, decide_eq_true_eq] at h
  obtain ⟨⟨⟨⟨⟨⟨⟨hleast, hmost⟩, -⟩, -⟩, -⟩, -⟩, -⟩, -⟩ := h
  exact ⟨hleast, hmost⟩

theorem IdealScheme.length_signatureOf (hideal : IdealScheme lib)
    (h : SignatureOf lib key hash nHashType vchSig) :
    9 ≤ vchSig.length ∧ vchSig.length ≤ 73 := by
  obtain ⟨bare, hsign, rfl⟩ := h
  exact length_of_isDERSignature (hideal.der hsign _)

theorem checkSig_signatureOf (txTo : CTransaction) (nIn : ℕ) (bare : valtype) (byte : UInt8)
    (vchPubKey : valtype) (scriptCode : CScript) :
    SignatureChecker.CheckSig lib txTo nIn (bare ++ [byte]) vchPubKey scriptCode
      = ((CPubKey.ofBytes vchPubKey).IsValid && lib.Verify (CPubKey.ofBytes vchPubKey)
        (SignatureHash lib scriptCode txTo nIn byte.toUInt32) bare) := by
  unfold SignatureChecker.CheckSig
  rw [List.getLast?_concat, List.dropLast_concat]
  dsimp only
  cases hvalid : (CPubKey.ofBytes vchPubKey).IsValid with
  | false => rw [if_pos rfl, Bool.false_and]
  | true => rw [if_neg Bool.true_eq_false.mp, Bool.true_and]

theorem checkEncoding_inBlocks (txTo : CTransaction) (nIn : ℕ) (vchSig vchPubKey : valtype) :
    (inBlocks lib txTo nIn).checkEncoding vchSig vchPubKey = true := by
  have hflag : hasFlag SCRIPT_VERIFY_NOCACHE SCRIPT_VERIFY_STRICTENC = false := by decide
  simp only [inBlocks, CBigNum.interpreter, hflag, Bool.not_false, Bool.true_or]

variable (hideal : IdealScheme lib)
include hideal

theorem IdealScheme.checkSig_inBlocks (h : SignatureOf lib key hash nHashType vchSig)
    (txTo : CTransaction) (nIn : ℕ) (vchPubKey : valtype) (scriptCode : CScript) :
    (inBlocks lib txTo nIn).CheckSig vchSig vchPubKey scriptCode
      = (strictlyEncoded vchSig vchPubKey &&
        SignatureChecker.CheckSig lib txTo nIn vchSig vchPubKey scriptCode) := by
  obtain ⟨bare, hsign, rfl⟩ := h
  have hlow : lib.CheckLowS (bare ++ [nHashType.toUInt8]).dropLast = true := by
    rw [List.dropLast_concat]
    exact hideal.low hsign
  change (CBigNum.CheckSignatureEncoding lib.toScriptLibrary (bare ++ [nHashType.toUInt8]) &&
    IsCompressedOrUncompressedPubKey vchPubKey && CheckSig lib txTo nIn 0 _ vchPubKey scriptCode) = _
  rw [strictlyEncoded_of_low, hlow, Bool.and_true, checkSig_eq]

theorem IdealScheme.strictlyEncoded_eq (h : SignatureOf lib key hash nHashType vchSig)
    (vchPubKey : valtype) :
    strictlyEncoded vchSig vchPubKey = (IsDefinedHashtypeSignature [nHashType.toUInt8] &&
      IsCompressedOrUncompressedPubKey vchPubKey) := by
  obtain ⟨bare, hsign, rfl⟩ := h
  unfold strictlyEncoded
  rw [hideal.der hsign, Bool.true_and]
  unfold IsDefinedHashtypeSignature
  rw [List.getLast?_concat]
  rfl

/-- A hash type that blocks allow: a defined one, without bits that the signature does not say. -/
structure HashTypeAllowed (txTo : CTransaction) (nIn : ℕ) (nHashType : UInt32) : Prop where
  defined : IsDefinedHashtypeSignature [nHashType.toUInt8] = true
  oneByte : OneByte txTo nIn nHashType

theorem IdealScheme.checkSig_of_key (hnIn : nIn < txTo.vin.length) {vchPubKey : valtype}
    {scriptCode : CScript}
    (h : SignatureOf lib key (SignatureHash lib scriptCode txTo nIn nHashType) nHashType vchSig)
    (hkey : CPubKey.ofBytes vchPubKey = lib.GetPubKey key) (hbyte : OneByte txTo nIn nHashType) :
    SignatureChecker.CheckSig lib txTo nIn vchSig vchPubKey scriptCode = true := by
  obtain ⟨bare, hsign, rfl⟩ := h
  rw [checkSig_signatureOf, hkey, hideal.isValid, Bool.true_and,
    (signatureHash_byte_iff hideal scriptCode txTo hnIn nHashType).mpr hbyte]
  exact hideal.verify hsign

theorem IdealScheme.checkSig_refused (hnIn : nIn < txTo.vin.length) {scriptCode : CScript}
    (h : SignatureOf lib key (SignatureHash lib scriptCode txTo nIn nHashType) nHashType vchSig)
    (hallow : ¬HashTypeAllowed txTo nIn nHashType) (vchPubKey : valtype) :
    (inBlocks lib txTo nIn).CheckSig vchSig vchPubKey scriptCode = false := by
  rw [hideal.checkSig_inBlocks h, hideal.strictlyEncoded_eq h]
  by_cases hdefined : IsDefinedHashtypeSignature [nHashType.toUInt8] = true
  · obtain ⟨bare, hsign, rfl⟩ := h
    have hver : lib.Verify (CPubKey.ofBytes vchPubKey)
        (SignatureHash lib scriptCode txTo nIn nHashType.toUInt8.toUInt32) bare = false := by
      by_contra hpass
      -- it would be a signature of the hash that blocks compute as well
      have hsame := hideal.unforgeable hsign (Bool.eq_true_of_not_eq_false hpass)
      exact hallow ⟨hdefined, (signatureHash_byte_iff hideal _ _ hnIn _).mp hsame⟩
    rw [checkSig_signatureOf, hver, Bool.and_false, Bool.and_false]
  · rw [Bool.eq_false_of_not_eq_true hdefined]
    rfl

omit hideal

/-! ## Evaluating what has been signed -/

theorem length_pushAll (h : ∀ b ∈ values, b.length ≤ MAX_SCRIPT_ELEMENT_SIZE) :
    (PushAll values).length ≤ values.length * 523 := by
  induction values with
  | nil => exact Nat.zero_le _
  | cons b values ih =>
    have hrest := ih fun b' hb' => h b' (List.mem_cons_of_mem _ hb')
    have hb := h b List.mem_cons_self
    have hmax : MAX_SCRIPT_ELEMENT_SIZE = 520 := rfl
    have hpush : (pushData b).length ≤ b.length + 3 := by
      unfold pushData
      split_ifs
      · rw [length_cons]
        omega
      · simp only [length_cons]
        omega
      · simp only [length_cons, List.length_append, littleEndian, length_nil]
        omega
      · omega
    have hsplit : PushAll (b :: values) = pushData b ++ PushAll values := rfl
    rw [hsplit, List.length_append, length_cons]
    omega

theorem Plain.evalScript_pushAll_eq (hd : Plain d)
    (h : ∀ b ∈ values, b.length ≤ MAX_SCRIPT_ELEMENT_SIZE) (hfew : values.length ≤ 18) :
    evalScript d [] (PushAll values) = some values.reverse := by
  obtain ⟨ops, hparsed, hdata, hpush⟩ := parsed_pushAll fun b hb => le_trans (h b hb) (by decide)
  have hsize : (PushAll values).length ≤ nMaxScriptSize := by
    have hlen := length_pushAll h
    have hlim : nMaxScriptSize = 10000 := rfl
    omega
  have hops : ∀ op ∈ ops, op.opcode ≤ OP_PUSHDATA4 ∧ op.vch.length ≤ MAX_SCRIPT_ELEMENT_SIZE := by
    intro op hop
    constructor
    · exact hpush op hop
    · apply h
      rw [← hdata]
      exact List.mem_map_of_mem hop
  have hroom : ([] : List valtype).length + ops.length + ([] : List valtype).length
      ≤ nMaxStackSize := by
    have hlen := congrArg List.length hdata
    rw [List.length_map] at hlen
    have hlim : nMaxStackSize = 1000 := rfl
    simp only [length_nil]
    omega
  have hst : (startState [] (PushAll values)).vfExec = [] := rfl
  rw [hparsed.evalScript hsize, hd.evalOps_push hops hst hroom, hdata, bind_some, if_pos hst]
  exact congrArg some (List.append_nil _)

def scriptHash (scriptPubKey : CScript) : valtype := (scriptPubKey.drop 2).take 20

theorem parsed_payToScriptHash (h : script.IsPayToScriptHash = true) :
    ∃ (r1 r2 : CScript) (opcode : UInt8), opcode ≤ OP_PUSHDATA4 ∧ (scriptHash script).length = 20 ∧
      Parsed script [⟨OP_HASH160, [], r1⟩, ⟨opcode, scriptHash script, r2⟩, ⟨OP_EQUAL, [], []⟩] := by
  unfold CScript.IsPayToScriptHash at h
  simp only [Bool.and_eq_true, beq_iff_eq] at h
  obtain ⟨⟨⟨hlen, hfst⟩, hsnd⟩, hlast⟩ := h
  have hhash : (scriptHash script).length = 20 := by
    unfold scriptHash
    rw [List.length_take, List.length_drop]
    omega
  have hsplit : script = OP_HASH160 :: (pushData (scriptHash script) ++ [OP_EQUAL]) := by
    have hpush : pushData (scriptHash script) = 0x14 :: scriptHash script := by
      rw [pushData_short (by omega), hhash]
      rfl
    rw [hpush]
    rcases script with _ | ⟨b0, _ | ⟨b1, rest⟩⟩
    · simp at hlen
    · simp at hlen
    · cases hfst
      cases hsnd
      have hrest : rest = rest.take 20 ++ rest.drop 20 := (List.take_append_drop 20 rest).symm
      have hend : rest.drop 20 = [OP_EQUAL] := by
        simp only [length_cons] at hlen
        rw [List.getElem?_cons_succ, List.getElem?_cons_succ] at hlast
        obtain ⟨hin, hget⟩ := List.getElem?_eq_some_iff.mp hlast
        rw [List.drop_eq_getElem_cons hin, hget, List.drop_eq_nil_of_le (by omega)]
      rw [hend] at hrest
      exact congrArg (fun l => OP_HASH160 :: 0x14 :: l) hrest
  obtain ⟨opcode, hopcode, hread⟩ := @readInstruction_pushData (scriptHash script) (by omega) [OP_EQUAL]
  refine ⟨pushData (scriptHash script) ++ [OP_EQUAL], [OP_EQUAL], opcode, hopcode, hhash, ?_⟩
  have hop : readInstruction script
      = some ⟨OP_HASH160, [], pushData (scriptHash script) ++ [OP_EQUAL]⟩ := by
    conv_lhs => rw [hsplit]
    rfl
  exact Parsed.cons hop (Parsed.cons hread (Parsed.cons rfl Parsed.nil))

theorem Plain.evalScript_scriptHash (hd : Plain d) (h : script.IsPayToScriptHash = true)
    (top : valtype) {stack : List valtype} (hroom : stack.length ≤ 900) :
    evalScript d (top :: stack) script
      = some (vchBool (d.HASH160 top == scriptHash script) :: stack) := by
  obtain ⟨r1, r2, opcode, hop, hlen, hparsed⟩ := parsed_payToScriptHash h
  have hstack : nMaxStackSize = 1000 := rfl
  have hmax : MAX_SCRIPT_ELEMENT_SIZE = 520 := rfl
  have hsize : script.length ≤ nMaxScriptSize := by
    unfold CScript.IsPayToScriptHash at h
    simp only [Bool.and_eq_true, beq_iff_eq] at h
    have hlim : nMaxScriptSize = 10000 := rfl
    omega
  have hhash : evalStep d OP_HASH160 [] r1 (startState (top :: stack) script)
      = if nMaxStackSize < stack.length + 1 + 0 then none
        else some ⟨d.HASH160 top :: stack, [], [], 1, script⟩ := rfl
  have hpush : evalStep d opcode (scriptHash script) r2 ⟨d.HASH160 top :: stack, [], [], 1, script⟩
      = some ⟨scriptHash script :: d.HASH160 top :: stack, [], [], 1, script⟩ := by
    apply hd.evalStep_short hop (by omega) _ rfl
    simp only [length_cons, length_nil]
    omega
  have hequal : evalStep d OP_EQUAL [] []
      ⟨scriptHash script :: d.HASH160 top :: stack, [], [], 1, script⟩
      = if nMaxStackSize < stack.length + 1 + 0 then none
        else some ⟨vchBool (d.HASH160 top == scriptHash script) :: stack, [], [], 2, script⟩ := rfl
  rw [hparsed.evalScript hsize, evalOps_cons, hhash, if_neg (by omega), bind_some, evalOps_cons,
    hpush, bind_some, evalOps_cons, hequal, if_neg (by omega)]
  rfl

/-! ## The signer -/

def redeemScript (keystore : CKeyStore lib) (scriptPubKey : CScript) : Option CScript :=
  keystore.GetCScript (uint160 (scriptHash scriptPubKey))

theorem withScriptSig_withScriptSig (txTo : CTransaction) (nIn : ℕ) (scriptSig scriptSig' : CScript) :
    withScriptSig (withScriptSig txTo nIn scriptSig) nIn scriptSig'
      = withScriptSig txTo nIn scriptSig' := by
  unfold withScriptSig
  rw [List.modify_modify_eq]
  rfl

variable (keystore : CKeyStore lib)

theorem signSignature_script (fromPubKey : CScript) (txTo : CTransaction)
    (nIn : ℕ) (nHashType : UInt32) : ∃ scriptSig,
    (SignSignature keystore fromPubKey txTo nIn nHashType).2
      = withScriptSig txTo nIn scriptSig := by
  unfold SignSignature
  dsimp only
  split
  · exact ⟨_, rfl⟩
  · -- the script of a script hash is signed for again
    rw [withScriptSig_withScriptSig]
    split_ifs
    · exact ⟨_, rfl⟩
    · exact ⟨_, rfl⟩
  · exact ⟨_, rfl⟩

theorem checkSig_withScriptSig (txTo : CTransaction) (nIn : ℕ) (scriptSig : CScript) :
    SignatureChecker.CheckSig lib (withScriptSig txTo nIn scriptSig) nIn
      = SignatureChecker.CheckSig lib txTo nIn := by
  funext vchSig vchPubKey scriptCode
  unfold SignatureChecker.CheckSig
  simp only [signatureHash_withScriptSig]

theorem signSignature_bare (hbare : fromPubKey.IsPayToScriptHash = false)
    (txTo : CTransaction) (nIn : ℕ) (nHashType : UInt32) :
    ∃ whichType scriptSig, whichType ≠ some .TX_SCRIPTHASH ∧
      keystore.Solver fromPubKey (SignatureHash lib fromPubKey txTo nIn nHashType) nHashType
        = (whichType, scriptSig) ∧
      SignSignature keystore fromPubKey txTo nIn nHashType
        = (whichType.isSome && verifyScript (inTest lib txTo nIn) false scriptSig fromPubKey,
          withScriptSig txTo nIn scriptSig) := by
  rcases hsolver : keystore.Solver fromPubKey (SignatureHash lib fromPubKey txTo nIn nHashType)
    nHashType with ⟨whichType, scriptSig⟩
  have htype : whichType ≠ some .TX_SCRIPTHASH := by
    rintro rfl
    unfold CKeyStore.Solver Solver at hsolver
    rw [hbare, if_neg Bool.false_ne_true] at hsolver
    rcases hscan : scanTemplates fromPubKey mTemplates with _ | ⟨type, vSolutions⟩
    · rw [hscan] at hsolver
      simp at hsolver
    · rw [hscan] at hsolver
      have hsame := (Prod.mk.inj hsolver).1
      split_ifs at hsame
      cases hsame
      obtain ⟨template, hmem, -⟩ := scanTemplates_eq_some hscan
      simp [mTemplates] at hmem
  refine ⟨whichType, scriptSig, htype, rfl, ?_⟩
  unfold SignSignature
  dsimp only
  rw [hsolver]
  rcases whichType with _ | whichType
  · rfl
  · have htest : CScriptNum.VerifyScript lib.toScriptLibrary STANDARD_SCRIPT_VERIFY_FLAGS
        (SignatureChecker.CheckSig lib (withScriptSig txTo nIn scriptSig) nIn) scriptSig
        fromPubKey = verifyScript (inTest lib txTo nIn) false scriptSig fromPubKey := by
      rw [checkSig_withScriptSig]
      rfl
    cases whichType with
    | TX_SCRIPTHASH => exact absurd rfl htype
    | _ => exact congrArg (fun b => (b, withScriptSig txTo nIn scriptSig)) htest

variable (hhash : fromPubKey.IsPayToScriptHash = true)
include hhash

theorem solver_scriptHash (hash : UInt256) (nHashType : UInt32) :
    keystore.Solver fromPubKey hash nHashType
      = (redeemScript keystore fromPubKey).elim (none, []) fun script => (some .TX_SCRIPTHASH, script) := by
  unfold CKeyStore.Solver Solver
  rw [hhash, if_pos rfl]
  have hscr : keystore.GetCScript (uint160 ((fromPubKey.drop 2).take 20))
      = redeemScript keystore fromPubKey := rfl
  simp only [List.headD_cons, hscr]
  cases redeemScript keystore fromPubKey <;> rfl

theorem signSignature_scriptHash (txTo : CTransaction) (nIn : ℕ) (nHashType : UInt32)
    (hsub : redeemScript keystore fromPubKey = some subscript) {subType : Option txnouttype}
    {scriptSig : CScript}
    (hsolver : keystore.Solver subscript (SignatureHash lib subscript txTo nIn nHashType) nHashType
      = (subType, scriptSig)) :
    SignSignature keystore fromPubKey txTo nIn nHashType
      = (decide (subType ≠ none ∧ subType ≠ some .TX_SCRIPTHASH) &&
          verifyScript (inTest lib txTo nIn) false (scriptSig ++ pushData subscript) fromPubKey,
        withScriptSig txTo nIn (scriptSig ++ pushData subscript)) := by
  have hfst : keystore.Solver fromPubKey (SignatureHash lib fromPubKey txTo nIn nHashType) nHashType
      = (some .TX_SCRIPTHASH, subscript) := by
    rw [solver_scriptHash keystore hhash, hsub]
    rfl
  unfold SignSignature
  dsimp only
  rw [hfst]
  rw [signatureHash_withScriptSig, hsolver, withScriptSig_withScriptSig, checkSig_withScriptSig]
  by_cases hsolved : subType = none ∨ subType = some .TX_SCRIPTHASH
  · have hnot : ¬(subType ≠ none ∧ subType ≠ some .TX_SCRIPTHASH) := by
      rintro ⟨hsome, hother⟩
      exact hsolved.elim hsome hother
    rw [if_pos hsolved, decide_eq_false hnot, Bool.false_and]
  · rw [not_or] at hsolved
    rw [if_neg (not_or.mpr hsolved), decide_eq_true hsolved, Bool.true_and]
    rfl

theorem signSignature_noScript (txTo : CTransaction) (nIn : ℕ) (nHashType : UInt32)
    (hsub : redeemScript keystore fromPubKey = none) :
    (SignSignature keystore fromPubKey txTo nIn nHashType).1 = false := by
  have hfst : keystore.Solver fromPubKey (SignatureHash lib fromPubKey txTo nIn nHashType) nHashType
      = (none, []) := by
    rw [solver_scriptHash keystore hhash, hsub]
    rfl
  unfold SignSignature
  dsimp only
  rw [hfst]

omit hhash

theorem verifySignature_withScriptSig {txFrom : CTransaction} {txin : CTxIn} {txout : CTxOut}
    (htxin : txTo.vin[nIn]? = some txin) (htxout : txFrom.vout[txin.prevout.n.toNat]? = some txout)
    (hhash : txin.prevout.hash = lib.GetHash txFrom) (scriptSig : CScript) :
    VerifySignature lib txFrom (withScriptSig txTo nIn scriptSig) nIn
        SCRIPT_VERIFY_NOCACHE 0
      = verifyScript (inBlocks lib txTo nIn) true scriptSig txout.scriptPubKey := by
  have hinput : (withScriptSig txTo nIn scriptSig).vin[nIn]?
      = some { txin with scriptSig := scriptSig } := by
    unfold withScriptSig
    rw [List.getElem?_modify_eq, htxin]
    rfl
  unfold VerifySignature
  rw [hinput]
  dsimp only
  rw [htxout]
  dsimp only
  rw [if_neg (not_not.mpr hhash)]
  unfold inBlocks
  rw [checkSig_eq, checkSig_eq, checkSig_withScriptSig]
  rfl

/-! ## Signed scripts -/

theorem endsTrue_map (fSuccess : Option Bool) :
    endsTrue (fSuccess.map fun fSuccess => [vchBool fSuccess]) = true ↔ fSuccess = some true := by
  rcases fSuccess with _ | _ | _ <;> decide

theorem exists_of_sublistForall₂ {sigs keys : List valtype} (h : List.SublistForall₂ R sigs keys)
    (hmem : vchSig ∈ sigs) : ∃ vchPubKey ∈ keys, R vchSig vchPubKey := by
  induction h with
  | nil => simp at hmem
  | cons hR _ ih =>
    rcases List.mem_cons.mp hmem with rfl | hmem
    · exact ⟨_, List.mem_cons_self, hR⟩
    · obtain ⟨vchPubKey, hkey, hfor⟩ := ih hmem
      exact ⟨vchPubKey, List.mem_cons_of_mem _ hkey, hfor⟩
  | cons_right _ ih =>
    obtain ⟨vchPubKey, hkey, hfor⟩ := ih hmem
    exact ⟨vchPubKey, List.mem_cons_of_mem _ hkey, hfor⟩

theorem sublistForall₂_imp {S : valtype → valtype → Prop} {sigs keys : List valtype}
    (himp : ∀ vchSig vchPubKey, R vchSig vchPubKey → S vchSig vchPubKey)
    (h : List.SublistForall₂ R sigs keys) : List.SublistForall₂ S sigs keys := by
  obtain ⟨l, hl, hsub⟩ := List.sublistForall₂_iff.mp h
  exact List.sublistForall₂_iff.mpr ⟨l, hl.imp himp, hsub⟩

theorem sublistForall₂_reverse {sigs keys : List valtype} (h : List.SublistForall₂ R sigs keys) :
    List.SublistForall₂ R sigs.reverse keys.reverse := by
  obtain ⟨l, hl, hsub⟩ := List.sublistForall₂_iff.mp h
  exact List.sublistForall₂_iff.mpr ⟨l.reverse, List.forall₂_reverse_iff.mpr hl, hsub.reverse⟩

/-- The keys and scripts at hand do not collide: a public key of the script that goes by the identifier
of a key is that of this key, and no data of the script is a signature that is made for it. -/
structure Distinct (keystore : CKeyStore lib) (script : CScript) (hash : UInt256)
    (nHashType : UInt32) : Prop where
  keys : ∀ {type vSolutions}, Solver script = some (type, vSolutions) → ∀ vch ∈ vSolutions, ∀ key,
    keystore.GetKey (lib.GetID (CPubKey.ofBytes vch)) = some key →
      CPubKey.ofBytes vch = lib.GetPubKey key
  sigs : ∀ {type vSolutions}, Solver script = some (type, vSolutions) → ∀ vch ∈ vSolutions,
    ∀ address key, keystore.GetKey address = some key → ∀ vchSig,
      SignatureOf lib key hash nHashType vchSig → vch ≠ vchSig

section

variable {keystore : CKeyStore lib} {whichType : txnouttype}
  {args sigs pubkeys vSolutions : List valtype}

theorem Signed.length_args (hideal : IdealScheme lib)
    (h : Signed keystore script hash nHashType whichType args sigs pubkeys vSolutions) :
    ∀ b ∈ args, b.length ≤ MAX_SCRIPT_ELEMENT_SIZE := by
  have hmax : MAX_SCRIPT_ELEMENT_SIZE = 520 := rfl
  intro b hb
  rcases h.args_mem b hb with rfl | hsig | ⟨key, rfl⟩
  · exact Nat.zero_le _
  · obtain ⟨vchPubKey, -, key, hof, -, -⟩ := exists_of_sublistForall₂ h.signs hsig
    have hlen := hideal.length_signatureOf hof
    omega
  · have hcanon := hideal.canonical key
    unfold IsCompressedOrUncompressedPubKey at hcanon
    split at hcanon
    · simp at hcanon
    · split_ifs at hcanon
      · have hlen := beq_iff_eq.mp hcanon
        omega
      · have hlen := beq_iff_eq.mp hcanon
        omega

theorem Signed.scriptCode_eq (hideal : IdealScheme lib)
    (h : Signed keystore script hash nHashType whichType args sigs pubkeys vSolutions)
    (hsolver : Solver script = some (whichType, vSolutions))
    (hdist : Distinct keystore script hash nHashType) :
    scriptCodeOf script sigs.reverse = script := by
  obtain ⟨ops, hparsed, hdata⟩ := h.parsed
  apply hparsed.scriptCodeOf
  · intro vchSig hmem
    obtain ⟨vchPubKey, -, key, hof, -, -⟩ :=
      exists_of_sublistForall₂ h.signs (List.mem_reverse.mp hmem)
    have hlen := hideal.length_signatureOf hof
    omega
  · intro vchSig hmem op hop
    obtain ⟨vchPubKey, -, key, hof, hkey, -⟩ :=
      exists_of_sublistForall₂ h.signs (List.mem_reverse.mp hmem)
    rcases hdata op hop with hemp | hsolution
    · rw [hemp]
      rintro rfl
      have hlen := hideal.length_signatureOf hof
      rw [length_nil] at hlen
      omega
    · exact hdist.sigs hsolver op.vch hsolution _ key hkey vchSig hof

theorem SignsFor.key_eq {vchPubKey : valtype}
    (h : SignsFor keystore vSolutions hash nHashType vchSig vchPubKey)
    (hsolver : Solver script = some (whichType, vSolutions))
    (hdist : Distinct keystore script hash nHashType) :
    ∃ key, SignatureOf lib key hash nHashType vchSig ∧
      CPubKey.ofBytes vchPubKey = lib.GetPubKey key := by
  obtain ⟨key, hof, hkey, hsolution | hown⟩ := h
  · exact ⟨key, hof, hdist.keys hsolver vchPubKey hsolution key hkey⟩
  · exact ⟨key, hof, hown⟩

theorem Signed.accepted_iff (hideal : IdealScheme lib) (hnIn : nIn < txTo.vin.length)
    (h : Signed keystore script (SignatureHash lib script txTo nIn nHashType) nHashType whichType args
      sigs pubkeys vSolutions) (hsolver : Solver script = some (whichType, vSolutions))
    (hdist : Distinct keystore script (SignatureHash lib script txTo nIn nHashType) nHashType)
    (hsize : script.length ≤ nMaxScriptSize) :
    endsTrue (evalScript (inBlocks lib txTo nIn) args.reverse script) = true ↔
      HashTypeAllowed txTo nIn nHashType := by
  rw [h.checks _ (plain_inBlocks txTo nIn) rfl hsize, endsTrue_map,
    h.scriptCode_eq hideal hsolver hdist]
  constructor
  · intro hpass
    by_contra hallow
    apply checkSigs_of_refused (List.reverse_ne_nil_iff.mpr h.sigs_ne) _ hpass
    intro vchSig hmem vchPubKey
    obtain ⟨_, -, key, hof, -, -⟩ := exists_of_sublistForall₂ h.signs (List.mem_reverse.mp hmem)
    exact hideal.checkSig_refused hnIn hof hallow vchPubKey
  · intro hallow
    apply checkSigs_of_sublist
    · intro vchSig _ vchPubKey _
      exact checkEncoding_inBlocks txTo nIn vchSig vchPubKey
    · apply sublistForall₂_reverse
      apply sublistForall₂_imp _ h.signs
      intro vchSig vchPubKey hfor
      obtain ⟨key, hof, hown⟩ := hfor.key_eq hsolver hdist
      rw [hideal.checkSig_inBlocks hof, hideal.strictlyEncoded_eq hof, hallow.defined,
        hideal.vch_eq hown, hideal.canonical key, ← hideal.vch_eq hown]
      exact hideal.checkSig_of_key hnIn hof hown hallow.oneByte

end

/-! ## What is signed is accepted -/

theorem Plain.verifyScript_pushAll (hd : Plain d)
    (h : ∀ b ∈ values, b.length ≤ MAX_SCRIPT_ELEMENT_SIZE) (hfew : values.length ≤ 18)
    (fP2SH : Bool) (scriptPubKey : CScript) :
    verifyScript d fP2SH (PushAll values) scriptPubKey
      = (endsTrue (evalScript d values.reverse scriptPubKey) &&
        (!(fP2SH && scriptPubKey.IsPayToScriptHash) || acceptsRevealed d values.reverse)) := by
  obtain ⟨ops, hparsed, -, hpush⟩ := parsed_pushAll fun b hb => le_trans (h b hb) (by decide)
  have hpushOnly : CScript.IsPushOnly (PushAll values) = true :=
    hparsed.isPushOnly fun op hop => UInt8.le_trans (hpush op hop) (by decide)
  unfold verifyScript
  rw [hd.evalScript_pushAll_eq h hfew]
  dsimp only
  rw [hpushOnly, Bool.true_and]

theorem Signed.verifyScript_scriptHash (hideal : IdealScheme lib) {keystore : CKeyStore lib}
    {whichType : txnouttype} {args sigs pubkeys vSolutions : List valtype}
    (h : Signed keystore subscript hash nHashType whichType args sigs pubkeys vSolutions)
    (hsize : subscript.length ≤ MAX_SCRIPT_ELEMENT_SIZE) (hd : Plain d)
    (hp2sh : script.IsPayToScriptHash = true) (fP2SH : Bool) :
    verifyScript d fP2SH (PushAll args ++ pushData subscript) script
      = ((d.HASH160 subscript == scriptHash script) &&
        (!fP2SH || endsTrue (evalScript d args.reverse subscript))) := by
  have hmost := h.few
  have hshort : ∀ b ∈ args ++ [subscript], b.length ≤ MAX_SCRIPT_ELEMENT_SIZE := by
    intro b hb
    rcases List.mem_append.mp hb with hb | hb
    · exact h.length_args hideal b hb
    · rw [List.mem_singleton.mp hb]
      exact hsize
  have hfew : (args ++ [subscript]).length ≤ 18 := by
    rw [List.length_append, List.length_singleton]
    omega
  have hroom : args.reverse.length ≤ 900 := by
    rw [List.length_reverse]
    omega
  have hbool : ∀ fValue, endsTrue (some (vchBool fValue :: args.reverse)) = fValue := by
    intro fValue
    cases fValue <;> rfl
  rw [← pushAll_append, hd.verifyScript_pushAll hshort hfew, List.reverse_append,
    List.reverse_singleton, List.singleton_append, hd.evalScript_scriptHash hp2sh subscript hroom,
    hp2sh, Bool.and_true, hbool]
  rfl

theorem Signed.accepted_of_test (hideal : IdealScheme lib) {keystore : CKeyStore lib}
    {whichType : txnouttype} {args sigs pubkeys vSolutions : List valtype}
    (h : Signed keystore script hash nHashType whichType args sigs pubkeys vSolutions)
    (htest : endsTrue (evalScript (inTest lib txTo nIn) args.reverse script) = true) :
    endsTrue (evalScript (inBlocks lib txTo nIn) args.reverse script) = true := by
  have hsize : script.length ≤ nMaxScriptSize := by
    by_contra hlong
    unfold evalScript at htest
    rw [if_pos (by omega)] at htest
    exact absurd htest (by decide)
  rw [h.checks _ (plain_inTest txTo nIn) rfl hsize, endsTrue_map] at htest
  rw [h.checks _ (plain_inBlocks txTo nIn) rfl hsize, endsTrue_map]
  apply checkSigs_transfer (checkEncoding_inBlocks txTo nIn) _ htest
  intro vchSig hmem vchPubKey henc
  obtain ⟨_, -, key, hof, -, -⟩ := exists_of_sublistForall₂ h.signs (List.mem_reverse.mp hmem)
  rw [checkEncoding_checker] at henc
  rw [hideal.checkSig_inBlocks hof, henc, Bool.true_and]
  rfl

/-- Blocks accept what `SignSignature` has signed with success, for an output that pays to a script hash
exactly when they allow the hash type. -/
theorem signSignature_verifies_iff (hideal : IdealScheme lib) (keystore : CKeyStore lib)
    {txFrom txTo signed : CTransaction} {nIn : ℕ} {nHashType : UInt32} {txin : CTxIn} {txout : CTxOut}
    (htxin : txTo.vin[nIn]? = some txin) (htxout : txFrom.vout[txin.prevout.n.toNat]? = some txout)
    (hhash : txin.prevout.hash = lib.GetHash txFrom)
    (hdistinct : txout.scriptPubKey.IsPayToScriptHash = true → ∀ subscript,
      redeemScript keystore txout.scriptPubKey = some subscript →
        Distinct keystore subscript (SignatureHash lib subscript txTo nIn nHashType) nHashType)
    (hsign : SignSignature keystore txout.scriptPubKey txTo nIn nHashType = (true, signed)) :
    VerifySignature lib txFrom signed nIn SCRIPT_VERIFY_NOCACHE 0 = true ↔
      (txout.scriptPubKey.IsPayToScriptHash = true → HashTypeAllowed txTo nIn nHashType) := by
  have hnIn : nIn < txTo.vin.length := (List.getElem?_eq_some_iff.mp htxin).1
  cases hp2sh : txout.scriptPubKey.IsPayToScriptHash with
  | false =>
    obtain ⟨whichType, scriptSig, htype, hsolver, hresult⟩ :=
      signSignature_bare keystore hp2sh txTo nIn nHashType
    rw [hresult] at hsign
    obtain ⟨htest, rfl⟩ := Prod.mk.inj hsign
    rcases whichType with _ | whichType
    · simp at htest
    · rw [Option.isSome_some, Bool.true_and] at htest
      obtain ⟨vSolutions, args, sigs, pubkeys, -, rfl, hsigned⟩ :=
        solver_signed hideal hsolver fun heq => htype (congrArg some heq)
      have hfew : args.length ≤ 18 := le_trans hsigned.few (by decide)
      rw [(plain_inTest txTo nIn).verifyScript_pushAll (hsigned.length_args hideal) hfew,
        Bool.false_and, Bool.not_false, Bool.true_or, Bool.and_true] at htest
      rw [verifySignature_withScriptSig htxin htxout hhash,
        (plain_inBlocks txTo nIn).verifyScript_pushAll (hsigned.length_args hideal) hfew, hp2sh,
        Bool.and_false, Bool.not_false, Bool.true_or, Bool.and_true]
      exact iff_of_true (hsigned.accepted_of_test hideal htest) nofun
  | true =>
    rcases hsubscript : redeemScript keystore txout.scriptPubKey with _ | subscript
    · have hfails := signSignature_noScript keystore hp2sh txTo nIn nHashType hsubscript
      rw [hsign] at hfails
      simp at hfails
    rcases hsolver : keystore.Solver subscript (SignatureHash lib subscript txTo nIn nHashType)
      nHashType with ⟨subType, scriptSig⟩
    rw [signSignature_scriptHash keystore hp2sh txTo nIn nHashType hsubscript hsolver] at hsign
    obtain ⟨htest, rfl⟩ := Prod.mk.inj hsign
    rw [Bool.and_eq_true, decide_eq_true_iff] at htest
    obtain ⟨⟨hsome, htype⟩, htest⟩ := htest
    obtain ⟨subType, rfl⟩ := Option.ne_none_iff_exists'.mp hsome
    obtain ⟨vSolutions, args, sigs, pubkeys, hsolutions, rfl, hsigned⟩ :=
      solver_signed hideal hsolver fun heq => htype (congrArg some heq)
    have hsize : subscript.length ≤ MAX_SCRIPT_ELEMENT_SIZE := keystore.size_le hsubscript
    -- the hash is compared alike by the test and by blocks
    rw [hsigned.verifyScript_scriptHash hideal hsize (plain_inTest txTo nIn) hp2sh, Bool.not_false,
      Bool.true_or, Bool.and_true] at htest
    have hcompared : ((inBlocks lib txTo nIn).HASH160 subscript == scriptHash txout.scriptPubKey)
        = true := htest
    rw [verifySignature_withScriptSig htxin htxout hhash,
      hsigned.verifyScript_scriptHash hideal hsize (plain_inBlocks txTo nIn) hp2sh, hcompared,
      Bool.true_and, Bool.not_true, Bool.false_or,
      hsigned.accepted_iff hideal hnIn hsolutions (hdistinct hp2sh subscript hsubscript)
        (le_trans hsize (by decide))]
    exact ⟨fun h _ => h, fun h => h rfl⟩

/-! ## What is owned can be signed for -/

def CKeyStore.Valid (keystore : CKeyStore lib) : Prop :=
  ∀ {address key}, keystore.GetKey address = some key → ∀ hash, (lib.Sign key hash).isSome = true

def Owned (keystore : CKeyStore lib) : txnouttype → List valtype → Prop
  | .TX_PUBKEY, vSolutions =>
    keystore.HaveKey (lib.GetID (CPubKey.ofBytes (vSolutions.headD []))) = true
  | .TX_PUBKEYHASH, vSolutions => keystore.HaveKey (uint160 (vSolutions.headD [])) = true
  | .TX_MULTISIG, vSolutions => ∀ pubkey ∈ vSolutions.tail.dropLast,
    keystore.HaveKey (lib.GetID (CPubKey.ofBytes pubkey)) = true
  | _, _ => False

section

variable {keystore : CKeyStore lib}

theorem CKeyStore.Valid.sign1 (hvalid : keystore.Valid) {address : CKeyID}
    (hkey : keystore.HaveKey address = true) (hash : UInt256) (nHashType : UInt32)
    (scriptSigRet : CScript) :
    ∃ scriptSig, Sign1 keystore address hash nHashType scriptSigRet = (true, scriptSig) := by
  obtain ⟨key, hkey⟩ := Option.isSome_iff_exists.mp hkey
  obtain ⟨vchSig, hsig⟩ := Option.isSome_iff_exists.mp (hvalid hkey hash)
  unfold Sign1
  rw [hkey]
  dsimp only
  rw [hsig]
  exact ⟨_, rfl⟩

theorem CKeyStore.Valid.signNLoop (hvalid : keystore.Valid) {pubkeys : List valtype}
    (hkeys : ∀ pubkey ∈ pubkeys, keystore.HaveKey (lib.GetID (CPubKey.ofBytes pubkey)) = true)
    (hash : UInt256) (nHashType : UInt32) {nRequired nSigned : ℕ} (hle : nSigned ≤ nRequired)
    (hmany : nRequired ≤ nSigned + pubkeys.length) (scriptSigRet : CScript) :
    (signNLoop keystore hash nHashType nRequired pubkeys nSigned scriptSigRet).1 = nRequired := by
  induction pubkeys generalizing nSigned scriptSigRet with
  | nil =>
    exact le_antisymm hle hmany
  | cons pubkey pubkeys ih =>
    rw [length_cons] at hmany
    unfold Script.signNLoop
    split_ifs with hmore
    · obtain ⟨scriptSig, hsign⟩ :=
        hvalid.sign1 (hkeys pubkey List.mem_cons_self) hash nHashType scriptSigRet
      rw [hsign]
      dsimp only
      rw [if_pos rfl]
      apply ih (fun pubkey' hmem => hkeys pubkey' (List.mem_cons_of_mem _ hmem))
      · omega
      · omega
    · exact le_antisymm hle (Nat.not_lt.mp hmore)

/-- A script whose keys are owned is solved. -/
theorem CKeyStore.Valid.solver (hvalid : keystore.Valid) {whichType : txnouttype}
    {vSolutions : List valtype} (hsolver : Script.Solver script = some (whichType, vSolutions))
    (howned : Owned keystore whichType vSolutions) (hash : UInt256) (nHashType : UInt32) :
    ∃ scriptSig, keystore.Solver script hash nHashType = (some whichType, scriptSig) := by
  unfold CKeyStore.Solver
  rw [hsolver]
  cases whichType with
  | TX_NONSTANDARD => exact howned.elim
  | TX_NULL_DATA => exact howned.elim
  | TX_SCRIPTHASH => exact howned.elim
  | TX_PUBKEY =>
    obtain ⟨scriptSig, hsign⟩ := hvalid.sign1 howned hash nHashType []
    dsimp only
    rw [hsign]
    exact ⟨scriptSig, rfl⟩
  | TX_PUBKEYHASH =>
    obtain ⟨scriptSig, hsign⟩ := hvalid.sign1 howned hash nHashType []
    dsimp only
    rw [hsign]
    exact ⟨_, rfl⟩
  | TX_MULTISIG =>
    obtain ⟨template, -, -, hcnts⟩ := solver_eq_some hsolver (by decide)
    have hcnts := hcnts rfl
    unfold MultisigCounts at hcnts
    simp only [Bool.and_eq_true, beq_iff_eq] at hcnts
    obtain ⟨⟨-, hle⟩, hlen⟩ := hcnts
    have hle := UInt8.le_iff_toNat_le.mp (of_decide_eq_true hle)
    have hmany : ((vSolutions.head?.bind List.head?).getD 0).toNat
        ≤ 0 + vSolutions.tail.dropLast.length := by
      rw [List.length_dropLast, List.length_tail]
      omega
    have hdone := hvalid.signNLoop howned hash nHashType (Nat.zero_le _) hmany [OP_0]
    have hsign : SignN keystore vSolutions hash nHashType [OP_0]
        = (true, (SignN keystore vSolutions hash nHashType [OP_0]).2) := by
      apply Prod.ext
      · exact beq_iff_eq.mpr hdone
      · rfl
    dsimp only
    rw [hsign]
    exact ⟨_, rfl⟩

theorem Signed.tested (hideal : IdealScheme lib) {whichType : txnouttype}
    {args sigs pubkeys vSolutions : List valtype} (hnIn : nIn < txTo.vin.length)
    (h : Signed keystore script (SignatureHash lib script txTo nIn nHashType) nHashType whichType args
      sigs pubkeys vSolutions) (hsolver : Solver script = some (whichType, vSolutions))
    (hdist : Distinct keystore script (SignatureHash lib script txTo nIn nHashType) nHashType)
    (hallow : HashTypeAllowed txTo nIn nHashType) (howned : Owned keystore whichType vSolutions) :
    endsTrue (evalScript (inTest lib txTo nIn) args.reverse script) = true := by
  have hcanon : ∀ vchPubKey ∈ pubkeys, IsCompressedOrUncompressedPubKey vchPubKey = true := by
    intro vchPubKey hmem
    rcases h.pubkeys_eq with hsigns | ⟨rfl, rfl⟩
    · obtain ⟨vchSig, hfor⟩ := hsigns vchPubKey hmem
      obtain ⟨key, -, hown⟩ := hfor.key_eq hsolver hdist
      rw [hideal.vch_eq hown]
      exact hideal.canonical key
    · obtain ⟨key, hkey⟩ := Option.isSome_iff_exists.mp (howned vchPubKey hmem)
      have hsolution := List.mem_of_mem_tail (List.mem_of_mem_dropLast hmem)
      rw [hideal.vch_eq (hdist.keys hsolver vchPubKey hsolution key hkey)]
      exact hideal.canonical key
  rw [h.checks _ (plain_inTest txTo nIn) rfl h.size_le, endsTrue_map,
    h.scriptCode_eq hideal hsolver hdist]
  apply checkSigs_of_sublist
  · intro vchSig hmem vchPubKey hkey
    obtain ⟨_, -, key, hof, -, -⟩ := exists_of_sublistForall₂ h.signs (List.mem_reverse.mp hmem)
    rw [checkEncoding_checker, hideal.strictlyEncoded_eq hof, hallow.defined,
      hcanon vchPubKey (List.mem_reverse.mp hkey)]
    rfl
  · apply sublistForall₂_reverse
    apply sublistForall₂_imp _ h.signs
    intro vchSig vchPubKey hfor
    obtain ⟨key, hof, hown⟩ := hfor.key_eq hsolver hdist
    exact hideal.checkSig_of_key hnIn hof hown hallow.oneByte

theorem watched_ne : ∀ watched : Bool,
    (if watched = true then isminetype.ISMINE_WATCH_ONLY else .ISMINE_NO) ≠ .ISMINE_SPENDABLE := by
  decide

theorem owned_of_isMine {fuel : ℕ} (hbare : script.IsPayToScriptHash = false)
    (hmine : IsMine keystore fuel script = some .ISMINE_SPENDABLE) :
    ∃ whichType vSolutions, Solver script = some (whichType, vSolutions) ∧
      Owned keystore whichType vSolutions := by
  cases fuel with
  | zero => simp [IsMine] at hmine
  | succ fuel =>
    unfold IsMine at hmine
    rcases hsolver : Solver script with _ | ⟨whichType, vSolutions⟩
    · rw [hsolver] at hmine
      exact absurd (some.inj hmine) (watched_ne _)
    · rw [hsolver] at hmine
      refine ⟨whichType, vSolutions, rfl, ?_⟩
      cases whichType with
      | TX_NONSTANDARD => exact absurd (some.inj hmine) (watched_ne _)
      | TX_NULL_DATA => exact absurd (some.inj hmine) (watched_ne _)
      | TX_SCRIPTHASH =>
        unfold Solver at hsolver
        rw [hbare, if_neg Bool.false_ne_true] at hsolver
        obtain ⟨template, hmem, -⟩ := scanTemplates_eq_some hsolver
        simp [mTemplates] at hmem
      | TX_PUBKEY =>
        dsimp only at hmine
        split_ifs at hmine with hkey
        · exact hkey
        · exact absurd (some.inj hmine) (by decide)
        · exact absurd (some.inj hmine) (by decide)
      | TX_PUBKEYHASH =>
        dsimp only at hmine
        split_ifs at hmine with hkey
        · exact hkey
        · exact absurd (some.inj hmine) (by decide)
        · exact absurd (some.inj hmine) (by decide)
      | TX_MULTISIG =>
        dsimp only at hmine
        split_ifs at hmine with hkeys
        · exact List.countP_eq_length.mp hkeys
        · exact absurd (some.inj hmine) (by decide)
        · exact absurd (some.inj hmine) (by decide)

theorem redeemScript_of_isMine {fuel : ℕ} (hp2sh : script.IsPayToScriptHash = true)
    (hmine : IsMine keystore fuel script = some .ISMINE_SPENDABLE) :
    ∃ subscript fuel', redeemScript keystore script = some subscript ∧
      IsMine keystore fuel' subscript = some .ISMINE_SPENDABLE := by
  cases fuel with
  | zero => simp [IsMine] at hmine
  | succ fuel =>
    have hsolver : Solver script = some (.TX_SCRIPTHASH, [scriptHash script]) := if_pos hp2sh
    unfold IsMine at hmine
    rw [hsolver] at hmine
    dsimp only [List.headD_cons] at hmine
    rcases hsub : redeemScript keystore script with _ | subscript
    · unfold redeemScript at hsub
      rw [hsub] at hmine
      exact absurd (some.inj hmine) (watched_ne _)
    · unfold redeemScript at hsub
      rw [hsub] at hmine
      obtain ⟨ret, hret, hspendable⟩ := Option.map_eq_some_iff.mp hmine
      by_cases hif : ret = .ISMINE_SPENDABLE
      · exact ⟨subscript, fuel, rfl, by rw [hret, hif]⟩
      · rw [if_neg hif] at hspendable
        exact absurd hspendable (watched_ne _)

end

/-- `SignSignature` signs with success for a script that `IsMine` calls spendable exactly when a script
that stands for another one by its hash does not hide a third. Only outputs whose scripts `IsMine` calls
spendable are counted by the balance. -/
theorem signSignature_isMine_iff (hideal : IdealScheme lib) {keystore : CKeyStore lib}
    (hvalid : keystore.Valid) (fuel : ℕ) :
    (∀ {script : CScript} {txTo : CTransaction} {nIn : ℕ} {nHashType : UInt32},
      nIn < txTo.vin.length → HashTypeAllowed txTo nIn nHashType →
      (script.IsPayToScriptHash = false →
        Distinct keystore script (SignatureHash lib script txTo nIn nHashType) nHashType) →
      IsMine keystore fuel script = some .ISMINE_SPENDABLE →
      ((SignSignature keystore script txTo nIn nHashType).1 = true ↔
        (script.IsPayToScriptHash = true → ∀ subscript, redeemScript keystore script = some subscript →
          subscript.IsPayToScriptHash = false))) ∧
    (∀ (txout : CTxOut) (credit : ℤ), GetCredit keystore fuel txout = some credit → credit ≠ 0 →
      IsMine keystore fuel txout.scriptPubKey = some .ISMINE_SPENDABLE) := by
  constructor
  · intro script txTo nIn nHashType hnIn hallowed hdistinct hmine
    cases hp2sh : script.IsPayToScriptHash with
    | false =>
      obtain ⟨whichType, vSolutions, hsolutions, howned⟩ := owned_of_isMine hp2sh hmine
      obtain ⟨scriptSig, hsolver⟩ := hvalid.solver hsolutions howned
        (SignatureHash lib script txTo nIn nHashType) nHashType
      obtain ⟨whichType', scriptSig', htype, hsolver', hresult⟩ :=
        signSignature_bare keystore hp2sh txTo nIn nHashType
      obtain ⟨rfl, rfl⟩ := Prod.mk.inj (hsolver.symm.trans hsolver')
      obtain ⟨vSolutions', args, sigs, pubkeys, hsolutions', rfl, hsigned⟩ :=
        solver_signed hideal hsolver fun heq => htype (congrArg some heq)
      obtain ⟨-, rfl⟩ := Prod.mk.inj (Option.some.inj (hsolutions.symm.trans hsolutions'))
      have hfew : args.length ≤ 18 := le_trans hsigned.few (by decide)
      have htested := hsigned.tested hideal hnIn hsolutions (hdistinct hp2sh) hallowed howned
      rw [hresult, (plain_inTest txTo nIn).verifyScript_pushAll (hsigned.length_args hideal) hfew, htested]
      exact iff_of_true rfl nofun
    | true =>
      obtain ⟨subscript, fuel', hsubscript, hmine'⟩ := redeemScript_of_isMine hp2sh hmine
      have hiff : ((true = true → ∀ subscript', redeemScript keystore script = some subscript' →
          subscript'.IsPayToScriptHash = false) ↔ subscript.IsPayToScriptHash = false) := by
        constructor
        · intro h
          exact h rfl subscript hsubscript
        · intro h _ subscript' hsubscript'
          rw [← Option.some.inj (hsubscript.symm.trans hsubscript')]
          exact h
      rw [hiff]
      cases hnested : subscript.IsPayToScriptHash with
      | true =>
        -- the solver returns yet another script, which is not signed for
        rcases hsolver : keystore.Solver subscript (SignatureHash lib subscript txTo nIn nHashType)
          nHashType with ⟨subType, scriptSig⟩
        have hnot : ¬(subType ≠ none ∧ subType ≠ some .TX_SCRIPTHASH) := by
          rintro ⟨hsome, hother⟩
          unfold CKeyStore.Solver Solver at hsolver
          rw [hnested, if_pos rfl] at hsolver
          have hfirst := (Prod.mk.inj hsolver).1
          split_ifs at hfirst
          · exact hother hfirst.symm
          · exact hsome hfirst.symm
        rw [signSignature_scriptHash keystore hp2sh txTo nIn nHashType hsubscript hsolver,
          decide_eq_false hnot]
        exact iff_of_false Bool.false_ne_true Bool.true_eq_false.mp
      | false =>
        obtain ⟨whichType, vSolutions, hsolutions, howned⟩ := owned_of_isMine hnested hmine'
        obtain ⟨scriptSig, hsolver⟩ := hvalid.solver hsolutions howned
          (SignatureHash lib subscript txTo nIn nHashType) nHashType
        have htype : whichType ≠ .TX_SCRIPTHASH := by
          rintro rfl
          exact howned
        obtain ⟨vSolutions', args, sigs, pubkeys, hsolutions', rfl, hsigned⟩ :=
          solver_signed hideal hsolver htype
        have hsize : subscript.length ≤ MAX_SCRIPT_ELEMENT_SIZE := keystore.size_le hsubscript
        have hcompared : (inTest lib txTo nIn).HASH160 subscript = scriptHash script := by
          obtain ⟨_, _, _, -, hlength, -⟩ := parsed_payToScriptHash hp2sh
          exact uint160_inj (hideal.length_RIPEMD160 _) hlength (keystore.hash_eq hsubscript)
        rw [signSignature_scriptHash keystore hp2sh txTo nIn nHashType hsubscript hsolver,
          hsigned.verifyScript_scriptHash hideal hsize (plain_inTest txTo nIn) hp2sh, hcompared,
          beq_self_eq_true, decide_eq_true ⟨Option.some_ne_none _, fun h => htype (Option.some.inj h)⟩]
        exact iff_of_true rfl rfl
  · intro txout credit hcredit hne
    unfold GetCredit at hcredit
    split_ifs at hcredit
    obtain ⟨mine, hmine, hvalue⟩ := Option.map_eq_some_iff.mp hcredit
    rw [hmine]
    by_contra hother
    rw [if_neg fun h => hother (congrArg some h)] at hvalue
    exact hne hvalue.symm

/-! ## One key and its scripts -/

def plainSignature (hash : UInt256) : valtype :=
  [0x30, 38, 0x02, 33, 1] ++ littleEndian 32 hash.toNat ++ [0x02, 1, 1]

def plainPubKey : CPubKey := ⟨2 :: List.replicate 32 7, rfl⟩

def plainScheme : SignatureLibrary Unit :=
  { plainLibrary with
    GetPubKey := fun _ => plainPubKey
    Sign := fun _ hash => some (plainSignature hash)
    Verify := fun _ hash vchSig => vchSig == plainSignature hash
    HashWriter := fun _ nHashType => BitVec.ofNat 256 nHashType.toNat
    GetHash := fun tx => BitVec.ofNat 256 tx.vout.length }

theorem plainSignature_inj {hash' : UInt256} (h : plainSignature hash = plainSignature hash') :
    hash = hash' := by
  have hbytes : littleEndian 32 hash.toNat = littleEndian 32 hash'.toNat :=
    List.append_cancel_left (List.append_cancel_right h)
  have hnum := congrArg ofLittleEndian hbytes
  have hlt := hash.isLt
  have hlt' := hash'.isLt
  have hpow : 256 ^ 32 = 2 ^ 256 := by norm_num
  rw [ofLittleEndian_littleEndian, ofLittleEndian_littleEndian, hpow, Nat.mod_eq_of_lt hlt,
    Nat.mod_eq_of_lt hlt'] at hnum
  exact BitVec.eq_of_toNat_eq hnum

theorem plainScheme_ideal : IdealScheme plainScheme where
  length_RIPEMD160 := by
    intro vch
    change ((vch ++ List.replicate 20 0).take 20).length = 20
    rw [List.length_take, List.length_append, List.length_replicate]
    omega
  canonical _ := rfl
  der := by
    rintro key hash vchSig hsign nHashType
    cases hsign
    simp [plainSignature, littleEndian, IsDERSignature, isDERInteger]
    decide
  low _ := rfl
  verify := by
    rintro key hash vchSig hsign
    cases hsign
    exact beq_self_eq_true (plainSignature hash)
  unforgeable := by
    rintro key hash vchSig hsign pubkey hash' hver
    cases hsign
    exact (plainSignature_inj (beq_iff_eq.mp hver)).symm
  hashType := by
    rintro txTo nHashType nHashType' h
    have hnum := congrArg BitVec.toNat h
    have hlt := nHashType.toNat_lt
    have hlt' := nHashType'.toNat_lt
    change (BitVec.ofNat 256 nHashType.toNat).toNat = (BitVec.ofNat 256 nHashType'.toNat).toNat at hnum
    rw [BitVec.toNat_ofNat, BitVec.toNat_ofNat, Nat.mod_eq_of_lt (by omega), Nat.mod_eq_of_lt (by omega)]
      at hnum
    exact UInt32.toNat_inj.mp hnum

def plainScript : CScript := pushData plainPubKey.vch ++ [OP_CHECKSIG]

def plainStore : CKeyStore plainScheme where
  GetKey address := if plainScheme.GetID plainPubKey = address then some () else none
  GetCScript hash :=
    if uint160 (plainLibrary.Hash160 plainScript) = hash then some plainScript
    else if uint160 (plainLibrary.Hash160 (payToScript plainScript)) = hash then
      some (payToScript plainScript)
    else none
  HaveWatchOnly _ := false
  id_eq := by
    intro address key h
    split_ifs at h with hid
    exact hid
  hash_eq := by
    intro hash script h
    split_ifs at h with hfirst hsecond
    · cases h
      exact hfirst
    · cases h
      exact hsecond
  size_le := by
    intro hash script h
    split_ifs at h
    · cases h
      decide
    · cases h
      decide

def plainFrom (scriptPubKey : CScript) : CTransaction := ⟨1, 0, [], [⟨10, scriptPubKey⟩], 0⟩

def plainTo : CTransaction := ⟨1, 0, [⟨⟨1, 0⟩, [], 0xffffffff⟩], [], 0⟩

theorem plainStore_distinct (hash : UInt256) (nHashType : UInt32) :
    Distinct plainStore plainScript hash nHashType := by
  have hsolver : Solver plainScript = some (.TX_PUBKEY, [plainPubKey.vch]) := by decide
  have hof : ∀ {type vSolutions}, Solver plainScript = some (type, vSolutions) →
      ∀ vch ∈ vSolutions, vch = plainPubKey.vch := by
    intro type vSolutions h vch hmem
    obtain ⟨-, rfl⟩ := Prod.mk.inj (Option.mem_unique hsolver h)
    exact List.mem_singleton.mp hmem
  constructor
  · intro type vSolutions h vch hmem key _
    rw [hof h vch hmem]
    exact CPubKey.ofBytes_vch plainPubKey
  · intro type vSolutions h vch hmem address key _ vchSig hsig heq
    obtain ⟨bare, hsign, rfl⟩ := hsig
    cases hsign
    rw [hof h vch hmem] at heq
    -- a public key does not start as a signature does
    have hhead := congrArg List.head? heq
    simp [plainPubKey, plainSignature] at hhead

theorem redeemScript_plainScript
    (h : redeemScript plainStore (payToScript plainScript) = some subscript) :
    subscript = plainScript := by
  have hfst : redeemScript plainStore (payToScript plainScript) = some plainScript := by
    decide
  exact (Option.mem_unique hfst h).symm

theorem hashTypeAllowed_all : HashTypeAllowed plainTo 0 1 := ⟨by decide, .inl (by decide)⟩

/-- Blocks accept an input that is signed for the hash of a script, with the usual hash type. -/
theorem all_accepted : VerifySignature plainScheme (plainFrom (payToScript plainScript))
    (SignSignature plainStore (payToScript plainScript) plainTo 0 1).2 0 SCRIPT_VERIFY_NOCACHE 0
      = true := by
  have hsign : (SignSignature plainStore (payToScript plainScript) plainTo 0 1).1 = true := by
    decide
  apply (@signSignature_verifies_iff _ _ plainScheme_ideal plainStore
    (plainFrom (payToScript plainScript)) plainTo _ 0 1 ⟨⟨1, 0⟩, [], 0xffffffff⟩
    ⟨10, payToScript plainScript⟩ rfl rfl rfl _ (Prod.ext hsign rfl)).mpr
  · intro _
    exact hashTypeAllowed_all
  · intro _ subscript hsubscript
    rw [redeemScript_plainScript hsubscript]
    exact plainStore_distinct _ _

/-- With a hash type that is not defined the test passes, and blocks refuse the input. -/
theorem undefined_refused : ¬ ∀ (lib : SignatureLibrary Unit) (keystore : CKeyStore lib)
    (txFrom txTo signed : CTransaction) (nIn : ℕ) (nHashType : UInt32) (txin : CTxIn) (txout : CTxOut),
    IdealScheme lib → txTo.vin[nIn]? = some txin →
    txFrom.vout[txin.prevout.n.toNat]? = some txout → txin.prevout.hash = lib.GetHash txFrom →
    SignSignature keystore txout.scriptPubKey txTo nIn nHashType = (true, signed) →
      VerifySignature lib txFrom signed nIn SCRIPT_VERIFY_NOCACHE 0 = true := by
  intro h
  have hsign : (SignSignature plainStore (payToScript plainScript) plainTo 0 4).1 = true := by
    decide
  have haccepted := h plainScheme plainStore (plainFrom (payToScript plainScript)) plainTo
    (SignSignature plainStore (payToScript plainScript) plainTo 0 4).2 0 4 ⟨⟨1, 0⟩, [], 0xffffffff⟩
    ⟨10, payToScript plainScript⟩ plainScheme_ideal rfl rfl rfl (Prod.ext hsign rfl)
  have hrefused : VerifySignature plainScheme (plainFrom (payToScript plainScript))
      (SignSignature plainStore (payToScript plainScript) plainTo 0 4).2 0 SCRIPT_VERIFY_NOCACHE 0
        = false := by
    decide
  exact Bool.false_ne_true (hrefused.symm.trans haccepted)

theorem plainStore_valid : plainStore.Valid := by
  intro address key _ hash
  rfl

/-- An output for the hash of a script that the store can sign for is signed for. -/
theorem hidden_once_signed :
    (SignSignature plainStore (payToScript plainScript) plainTo 0 1).1 = true := by
  have hmine : IsMine plainStore 2 (payToScript plainScript) = some .ISMINE_SPENDABLE := by
    decide
  apply ((signSignature_isMine_iff plainScheme_ideal plainStore_valid 2).1 (by decide)
    hashTypeAllowed_all _ hmine).mpr
  · intro _ subscript hsubscript
    rw [redeemScript_plainScript hsubscript]
    decide
  · intro hbare
    exact absurd hbare (by decide)

/-- An output for a script that is hidden behind two hashes is called spendable, and not signed for. -/
theorem hidden_twice_unsigned : ¬ ∀ (lib : SignatureLibrary Unit) (keystore : CKeyStore lib)
    (txTo : CTransaction) (nIn fuel : ℕ) (script : CScript), IdealScheme lib → keystore.Valid →
    nIn < txTo.vin.length → IsMine keystore fuel script = some .ISMINE_SPENDABLE →
      (SignSignature keystore script txTo nIn SIGHASH_ALL.toUInt32).1 = true := by
  intro h
  have hmine : IsMine plainStore 3 (payToScript (payToScript plainScript))
      = some .ISMINE_SPENDABLE := by
    decide
  have hsigned := h plainScheme plainStore plainTo 0 3 (payToScript (payToScript plainScript))
    plainScheme_ideal plainStore_valid (by decide) hmine
  have hunsigned : (SignSignature plainStore (payToScript (payToScript plainScript)) plainTo 0
      SIGHASH_ALL.toUInt32).1 = false := by
    decide
  exact Bool.false_ne_true (hunsigned.symm.trans hsigned)

end ZalemCoin.Script
