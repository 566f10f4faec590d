import ZalemCoin.Script.Interpreter

/-!
# Where the two interpreters agree

The interpreters differ in three places: the hash of `OP_HASH256`, the signatures with the higher one
of the two values, which only the one over `CBigNum` refuses, and what the flags of the two ask for. A
run that does not come to such a place has the same result for both. The verification with the
standard flags also leaves out the scripts that inputs reveal.
-/

namespace ZalemCoin.Script

open Chain

variable {lib : ScriptLibrary} {flags : UInt32} {CheckSig : SigOracle}

abbrev checker (lib : ScriptLibrary) (CheckSig : SigOracle) : Interpreter :=
  CScriptNum.interpreter lib STANDARD_SCRIPT_VERIFY_FLAGS CheckSig

/-! ## Numbers -/

theorem toNumber_eq (vch : valtype) :
    (CBigNum.interpreter lib flags CheckSig).toNumber vch = (checker lib CheckSig).toNumber vch :=
  castToBigNum_eq vch

variable {vch : valtype} {n : ℤ} {opcode : UInt8} {s : EvalState}

theorem natAbs_toNumber (h : (checker lib CheckSig).toNumber vch = some n) : n.natAbs ≤ 2 ^ 31 := by
  change CScriptNum.ofVch vch (hasFlag STANDARD_SCRIPT_VERIFY_FLAGS SCRIPT_VERIFY_MINIMALDATA) = some n
    at h
  unfold CScriptNum.ofVch at h
  split_ifs at h with hlong
  · cases h
    have hbound := CScriptNum.natAbs_set_vch vch
    have hpow : 256 ^ vch.length ≤ 256 ^ 4 := by
      apply Nat.pow_le_pow_right (by omega)
      unfold nMaxNumSize at hlong
      omega
    omega

theorem wrap64_of_natAbs_lt (hn : n.natAbs < 2 ^ 63) : wrap64 n = n := by
  apply Int.bmod_eq_of_le <;> omega

theorem written_eq (hn : n.natAbs < 2 ^ 63) :
    (CBigNum.interpreter lib flags CheckSig).getvch ((CBigNum.interpreter lib flags CheckSig).keep n)
      = (checker lib CheckSig).getvch ((checker lib CheckSig).keep n) := by
  change CBigNum.getvch n = CScriptNum.serialize (wrap64 n)
  rw [wrap64_of_natAbs_lt hn, getvch_eq_serialize]

theorem getint_toNumber (h : (checker lib CheckSig).toNumber vch = some n) :
    (CBigNum.interpreter lib flags CheckSig).getint n = (checker lib CheckSig).getint n := by
  have hbound := natAbs_toNumber h
  exact getint_eq (by omega)

theorem natAbs_bnBool (fValue : Bool) : (bnBool fValue).natAbs ≤ 1 := by
  cases fValue <;> decide

theorem natAbs_unaryResult (opcode : UInt8) {bn : ℤ} (h : bn.natAbs ≤ 2 ^ 31) :
    (unaryResult opcode bn).natAbs < 2 ^ 63 := by
  have hbool := natAbs_bnBool
  unfold unaryResult
  split_ifs
  · omega
  · omega
  · omega
  · omega
  · omega
  · have := hbool (bn == 0)
    omega
  · have := hbool (bn != 0)
    omega

theorem natAbs_binaryResult (opcode : UInt8) {bn1 bn2 : ℤ} (h1 : bn1.natAbs ≤ 2 ^ 31)
    (h2 : bn2.natAbs ≤ 2 ^ 31) : (binaryResult opcode bn1 bn2).natAbs < 2 ^ 63 := by
  have hite : ∀ (c : Prop) [Decidable c] (a b : ℤ), a.natAbs < 2 ^ 63 → b.natAbs < 2 ^ 63 →
      (if c then a else b).natAbs < 2 ^ 63 := by
    intro c _ a b ha hb
    split_ifs
    · exact ha
    · exact hb
  repeat' apply hite
  all_goals omega

theorem numericOp_eq (opcode : UInt8) (stack : List valtype) :
    numericOp (CBigNum.interpreter lib flags CheckSig) opcode stack
      = numericOp (checker lib CheckSig) opcode stack := by
  unfold numericOp
  by_cases hunary : opcode ∈ unaryOps
  · rw [if_pos hunary, if_pos hunary]
    rcases stack with _ | ⟨vch, stack⟩
    · rfl
    · dsimp only
      rw [toNumber_eq]
      apply Option.bind_congr
      intro bn hbn
      rw [written_eq (natAbs_unaryResult opcode (natAbs_toNumber hbn))]
  rw [if_neg hunary, if_neg hunary]
  by_cases hbinary : opcode ∈ binaryOps
  · rw [if_pos hbinary, if_pos hbinary]
    rcases stack with _ | ⟨vch2, _ | ⟨vch1, stack⟩⟩
    · rfl
    · rfl
    · dsimp only
      rw [toNumber_eq, toNumber_eq]
      apply Option.bind_congr
      intro bn1 hbn1
      apply Option.bind_congr
      intro bn2 hbn2
      rw [written_eq (natAbs_binaryResult opcode (natAbs_toNumber hbn1) (natAbs_toNumber hbn2))]
  · rw [if_neg hbinary, if_neg hbinary]
    rcases stack with _ | ⟨vch3, _ | ⟨vch2, _ | ⟨vch1, stack⟩⟩⟩
    · rfl
    · rfl
    · rfl
    · dsimp only
      rw [toNumber_eq, toNumber_eq, toNumber_eq]

theorem PICK_ROLL_eq (opcode : UInt8) (stack : List valtype) :
    PICK_ROLL (CBigNum.interpreter lib flags CheckSig) opcode stack
      = PICK_ROLL (checker lib CheckSig) opcode stack := by
  rcases stack with _ | ⟨vch, _ | ⟨x, stack⟩⟩
  · rfl
  · rfl
  · unfold PICK_ROLL
    dsimp only
    rw [toNumber_eq]
    apply Option.bind_congr
    intro n hn
    rw [getint_toNumber hn]

/-! ## Signatures -/

/-- Whether a signature and a key are written as the standard flags ask for. -/
def strictlyEncoded (vchSig vchPubKey : valtype) : Bool :=
  IsDERSignature vchSig && IsDefinedHashtypeSignature vchSig && IsCompressedOrUncompressedPubKey vchPubKey

/-- The interpreters treat a signature and a key alike: a signature that is written as it should be has
the lower value, or goes on to be refused by both, and it has to be written so when the flags do not
ask for it. -/
structure SigAgrees (lib : ScriptLibrary) (flags : UInt32) (CheckSig : SigOracle) (scriptCode : CScript)
    (vchSig vchPubKey : valtype) : Prop where
  low : strictlyEncoded vchSig vchPubKey = true → lib.CheckLowS vchSig.dropLast = true
    ∨ hasFlag flags SCRIPT_VERIFY_STRICTENC = false ∧ CheckSig vchSig vchPubKey scriptCode = false
  strict : hasFlag flags SCRIPT_VERIFY_STRICTENC = false → strictlyEncoded vchSig vchPubKey = true

/-- The interpreters treat alike the signatures that a multiple check comes to, each with the key that
it is tried with, and the check ends in the same way, unless an encoding stops it before. -/
def SigsAgree (lib : ScriptLibrary) (flags : UInt32) (CheckSig : SigOracle) (scriptCode : CScript)
    (ends : Prop) : List valtype → List valtype → Prop
  | [], _ => ends
  | _ :: _, [] => ends
  | vchSig :: sigs, vchPubKey :: keys =>
    SigAgrees lib flags CheckSig scriptCode vchSig vchPubKey ∧
      (strictlyEncoded vchSig vchPubKey = true →
        let left := if CheckSig vchSig vchPubKey scriptCode then sigs else vchSig :: sigs
        if keys.length < left.length then ends
        else SigsAgree lib flags CheckSig scriptCode ends left keys)
termination_by structural _ keys => keys

theorem checkEncoding_checker (vchSig vchPubKey : valtype) :
    (checker lib CheckSig).checkEncoding vchSig vchPubKey = strictlyEncoded vchSig vchPubKey := by
  have hder : hasFlag STANDARD_SCRIPT_VERIFY_FLAGS
      (SCRIPT_VERIFY_DERSIG ||| SCRIPT_VERIFY_LOW_S ||| SCRIPT_VERIFY_STRICTENC) = true := by decide
  have hlow : hasFlag STANDARD_SCRIPT_VERIFY_FLAGS SCRIPT_VERIFY_LOW_S = false := by decide
  have hstrict : hasFlag STANDARD_SCRIPT_VERIFY_FLAGS SCRIPT_VERIFY_STRICTENC = true := by decide
  change (CScriptNum.CheckSignatureEncoding lib vchSig STANDARD_SCRIPT_VERIFY_FLAGS &&
    CScriptNum.CheckPubKeyEncoding vchPubKey STANDARD_SCRIPT_VERIFY_FLAGS) = _
  unfold CScriptNum.CheckSignatureEncoding CScriptNum.CheckPubKeyEncoding strictlyEncoded
  rw [hder, hlow, hstrict]
  cases IsDERSignature vchSig <;> cases IsDefinedHashtypeSignature vchSig <;> simp

theorem strictlyEncoded_of_low (vchSig vchPubKey : valtype) :
    (CBigNum.CheckSignatureEncoding lib vchSig && IsCompressedOrUncompressedPubKey vchPubKey)
      = (strictlyEncoded vchSig vchPubKey && lib.CheckLowS vchSig.dropLast) := by
  unfold CBigNum.CheckSignatureEncoding ScriptLibrary.IsLowDERSignature strictlyEncoded
  cases IsDERSignature vchSig <;> cases IsDefinedHashtypeSignature vchSig <;>
    cases IsCompressedOrUncompressedPubKey vchPubKey <;> simp

section

variable {scriptCode : CScript} {vchSig vchPubKey : valtype}
  (h : SigAgrees lib flags CheckSig scriptCode vchSig vchPubKey)
include h

theorem SigAgrees.checkEncoding : (CBigNum.interpreter lib flags CheckSig).checkEncoding vchSig vchPubKey
    = (checker lib CheckSig).checkEncoding vchSig vchPubKey := by
  rw [checkEncoding_checker]
  change (!hasFlag flags SCRIPT_VERIFY_STRICTENC ||
    (CBigNum.CheckSignatureEncoding lib vchSig && IsCompressedOrUncompressedPubKey vchPubKey)) = _
  rw [strictlyEncoded_of_low]
  have hlow := h.low
  have hstrict := h.strict
  cases hflag : hasFlag flags SCRIPT_VERIFY_STRICTENC
  · rw [hstrict hflag]
    rfl
  · rcases henc : strictlyEncoded vchSig vchPubKey with _ | _
    · rfl
    · rw [(hlow henc).resolve_right fun hoff => by simp [hflag] at hoff]
      rfl

theorem SigAgrees.checkSig (henc : strictlyEncoded vchSig vchPubKey = true) :
    (CBigNum.interpreter lib flags CheckSig).CheckSig vchSig vchPubKey scriptCode
      = (checker lib CheckSig).CheckSig vchSig vchPubKey scriptCode := by
  change (CBigNum.CheckSignatureEncoding lib vchSig && IsCompressedOrUncompressedPubKey vchPubKey &&
    CheckSig vchSig vchPubKey scriptCode) = CheckSig vchSig vchPubKey scriptCode
  rw [strictlyEncoded_of_low, henc]
  rcases h.low henc with hlow | ⟨-, href⟩
  · rw [hlow]
    rfl
  · rw [href, Bool.and_false]

end

theorem CHECKSIG_eq (opcode : UInt8) (scriptCode : CScript) {stack : List valtype}
    (h : ∀ vchPubKey vchSig rest, stack = vchPubKey :: vchSig :: rest → SigAgrees lib flags CheckSig
      (CScript.FindAndDelete scriptCode (pushData vchSig)) vchSig vchPubKey) :
    CHECKSIG (CBigNum.interpreter lib flags CheckSig) opcode scriptCode stack
      = CHECKSIG (checker lib CheckSig) opcode scriptCode stack := by
  rcases stack with _ | ⟨vchPubKey, _ | ⟨vchSig, rest⟩⟩
  · rfl
  · rfl
  · have hagrees := h vchPubKey vchSig rest rfl
    unfold CHECKSIG
    dsimp only
    rw [hagrees.checkEncoding, checkEncoding_checker]
    split_ifs with henc
    · rw [hagrees.checkSig henc]
    · rfl

/-- The signatures are checked in the same way, and how the check ends matters only if it ends. -/
theorem checkSigs_eq (scriptCode : CScript) (ends : Prop) {sigs keys : List valtype}
    (h : SigsAgree lib flags CheckSig scriptCode ends sigs keys) :
    checkSigs (CBigNum.interpreter lib flags CheckSig) scriptCode sigs keys
        = checkSigs (checker lib CheckSig) scriptCode sigs keys
      ∧ ∀ fSuccess, checkSigs (checker lib CheckSig) scriptCode sigs keys = some fSuccess → ends := by
  induction keys generalizing sigs with
  | nil => rcases sigs with _ | ⟨vchSig, sigs⟩ <;> exact ⟨rfl, fun _ _ => h⟩
  | cons vchPubKey keys ih =>
    rcases sigs with _ | ⟨vchSig, sigs⟩
    · exact ⟨rfl, fun _ _ => h⟩
    · obtain ⟨hagrees, hleft⟩ := h
      unfold checkSigs
      rw [hagrees.checkEncoding, checkEncoding_checker]
      by_cases henc : strictlyEncoded vchSig vchPubKey = true
      · rw [if_pos henc, if_pos henc, hagrees.checkSig henc]
        have hleft := hleft henc
        dsimp only at hleft ⊢
        rw [show (checker lib CheckSig).CheckSig = CheckSig from rfl]
        generalize (if CheckSig vchSig vchPubKey scriptCode = true then sigs else vchSig :: sigs) = left
          at hleft ⊢
        split at hleft
        · rename_i hfew
          rw [if_pos hfew, if_pos hfew]
          exact ⟨rfl, fun _ _ => hleft⟩
        · rename_i henough
          rw [if_neg henough, if_neg henough]
          exact ih hleft
      · rw [if_neg henc, if_neg henc]
        exact ⟨rfl, fun _ hnone => by cases hnone⟩

theorem multisigArgs_eq (nOpCount : ℕ) (stack : List valtype) :
    multisigArgs (CBigNum.interpreter lib flags CheckSig) nOpCount stack
      = multisigArgs (checker lib CheckSig) nOpCount stack := by
  unfold multisigArgs
  apply Option.bind_congr
  intro vch _
  rw [toNumber_eq]
  apply Option.bind_congr
  intro n hn
  rw [getint_toNumber hn]
  dsimp only
  split_ifs
  · rfl
  · apply Option.bind_congr
    intro vch' _
    rw [toNumber_eq]
    apply Option.bind_congr
    intro m hm
    rw [getint_toNumber hm]

/-! ## Operations -/

/-- An operation has the same result for both interpreters, in the state before it. -/
structure OpAgrees (lib : ScriptLibrary) (flags : UInt32) (CheckSig : SigOracle) (opcode : UInt8)
    (s : EvalState) : Prop where
  /-- The standard flags refuse the operations without effect that are left for later. -/
  nop : OP_NOP1 ≤ opcode → opcode ≤ OP_NOP10 →
    hasFlag flags SCRIPT_VERIFY_DISCOURAGE_UPGRADABLE_NOPS = true
  /-- The size of an element is one that it can have. -/
  size : opcode = OP_SIZE → ∀ vch ∈ s.stack.head?, vch.length < 2 ^ 63
  hash256 : opcode = OP_HASH256 → ∀ vch ∈ s.stack.head?, lib.Hash_bmw512 vch = lib.CHash256 vch
  checksig : opcode = OP_CHECKSIG ∨ opcode = OP_CHECKSIGVERIFY → ∀ vchPubKey vchSig rest,
    s.stack = vchPubKey :: vchSig :: rest → SigAgrees lib flags CheckSig
      (CScript.FindAndDelete s.pbegincodehash (pushData vchSig)) vchSig vchPubKey
  /-- The element below the signatures is looked at when they have been checked. -/
  checkmultisig : opcode = OP_CHECKMULTISIG ∨ opcode = OP_CHECKMULTISIGVERIFY → ∀ args,
    multisigArgs (checker lib CheckSig) s.nOpCount s.stack = some args →
      SigsAgree lib flags CheckSig (args.sigs.foldl
          (fun scriptCode vchSig => CScript.FindAndDelete scriptCode (pushData vchSig)) s.pbegincodehash)
        (hasFlag flags SCRIPT_VERIFY_NULLDUMMY = true ∨ args.dummy = []) args.sigs args.keys

theorem hashOf_eq (h : opcode = OP_HASH256 → lib.Hash_bmw512 vch = lib.CHash256 vch)
    (hop : opcode ∈ hashOps) :
    hashOf (CBigNum.interpreter lib flags CheckSig) opcode vch
      = hashOf (checker lib CheckSig) opcode vch := by
  simp only [hashOps, List.mem_cons, List.not_mem_nil, or_false] at hop
  rcases hop with rfl | rfl | rfl | rfl | rfl
  · rfl
  · rfl
  · rfl
  · rfl
  · exact h rfl

variable (h : OpAgrees lib flags CheckSig opcode s)
include h

theorem CHECKMULTISIG_eq (hop : opcode = OP_CHECKMULTISIG ∨ opcode = OP_CHECKMULTISIGVERIFY) :
    CHECKMULTISIG (CBigNum.interpreter lib flags CheckSig) opcode s
      = CHECKMULTISIG (checker lib CheckSig) opcode s := by
  unfold CHECKMULTISIG
  rw [multisigArgs_eq]
  apply Option.bind_congr
  intro args hargs
  obtain ⟨hsigs, hends⟩ := checkSigs_eq _ _ (h.checkmultisig hop args hargs)
  dsimp only
  rw [hsigs]
  apply Option.bind_congr
  intro fSuccess hsuccess
  have href : ((CBigNum.interpreter lib flags CheckSig).flags &&& SCRIPT_VERIFY_NULLDUMMY ≠ 0 ∧
      args.dummy ≠ []) ↔ ((checker lib CheckSig).flags &&& SCRIPT_VERIFY_NULLDUMMY ≠ 0 ∧
      args.dummy ≠ []) := by
    have hstandard : STANDARD_SCRIPT_VERIFY_FLAGS &&& SCRIPT_VERIFY_NULLDUMMY ≠ 0 := by decide
    change (flags &&& SCRIPT_VERIFY_NULLDUMMY ≠ 0 ∧ _) ↔
      (STANDARD_SCRIPT_VERIFY_FLAGS &&& SCRIPT_VERIFY_NULLDUMMY ≠ 0 ∧ _)
    rcases hends fSuccess hsuccess with hflag | hemp
    · have hset : flags &&& SCRIPT_VERIFY_NULLDUMMY ≠ 0 := bne_iff_ne.mp hflag
      exact and_congr_left' (iff_of_true hset hstandard)
    · rw [hemp]
      exact iff_of_false (fun h => h.2 rfl) fun h => h.2 rfl
  simp only [href]

/-- An operation without signatures is the same in both interpreters, but for a deep `OP_DEPTH`. -/
theorem plainOp_eq (hdepth : opcode = OP_DEPTH → s.stack.length < 2 ^ 63) :
    plainOp (CBigNum.interpreter lib flags CheckSig) opcode s
      = plainOp (checker lib CheckSig) opcode s := by
  apply ite_congr rfl
  · intro _
    rw [written_eq]
    have hopcode := opcode.toNat_lt
    have hone : OP_1.toNat = 81 := rfl
    omega
  intro _
  apply ite_congr rfl
  · intro _
    rfl
  intro _
  apply ite_congr rfl
  · rintro ⟨hlow, hhigh⟩
    have hset : flags &&& SCRIPT_VERIFY_DISCOURAGE_UPGRADABLE_NOPS ≠ 0 :=
      bne_iff_ne.mp (h.nop hlow hhigh)
    have hstandard : STANDARD_SCRIPT_VERIFY_FLAGS &&& SCRIPT_VERIFY_DISCOURAGE_UPGRADABLE_NOPS ≠ 0 := by
      decide
    exact (if_pos hset).trans (if_pos hstandard).symm
  intro _
  apply ite_congr rfl
  · intro _
    rfl
  intro _
  apply ite_congr rfl
  · intro hop
    have hlen := hdepth hop
    rw [written_eq (by omega)]
  intro _
  apply ite_congr rfl
  · intro _
    exact PICK_ROLL_eq opcode s.stack
  intro _
  apply ite_congr rfl
  · intro hop
    have hsize := h.size hop
    rcases hstack : s.stack with _ | ⟨vch, stack⟩
    · rfl
    · have hlen := hsize vch (by rw [hstack]; rfl)
      dsimp only
      rw [written_eq (by omega)]
  intro _
  apply ite_congr rfl
  · intro _
    rfl
  intro _
  apply ite_congr rfl
  · intro _
    exact numericOp_eq opcode s.stack
  intro _
  apply ite_congr rfl
  · intro hop
    rcases hstack : s.stack with _ | ⟨vch, stack⟩
    · rfl
    · dsimp only
      rw [hashOf_eq (fun h256 => h.hash256 h256 vch (by rw [hstack]; rfl)) hop]
  intro _
  apply ite_congr rfl
  · intro hop
    exact CHECKSIG_eq opcode s.pbegincodehash (h.checksig hop)
  · intro _
    rfl

theorem evalOp_eq
    (hdepth : opcode = OP_DEPTH → s.stack.length < 2 ^ 63) (fExec : Bool) (script : CScript) :
    evalOp (CBigNum.interpreter lib flags CheckSig) fExec opcode script s
      = evalOp (checker lib CheckSig) fExec opcode script s := by
  unfold evalOp
  rw [plainOp_eq h hdepth]
  by_cases hop : opcode = OP_CHECKMULTISIG ∨ opcode = OP_CHECKMULTISIGVERIFY
  · rw [CHECKMULTISIG_eq h hop]
  · rw [if_neg hop, if_neg hop]

omit h

theorem countOp_eq_some {vchPushValue : valtype} {t : EvalState}
    (h : countOp opcode vchPushValue s = some t) :
    ∃ nOpCount, t = { s with nOpCount := nOpCount } := by
  unfold countOp at h
  dsimp only at h
  split_ifs at h
  · exact ⟨_, (Option.some.inj h).symm⟩
  · exact ⟨s.nOpCount, (Option.some.inj h).symm⟩

theorem evalStep_depth {d : Interpreter} (hfull : nMaxStackSize ≤ s.stack.length)
    (vchPushValue : valtype) (script : CScript) (hexec : s.vfExec.all id = true) :
    evalStep d OP_DEPTH vchPushValue script s = none := by
  unfold evalStep
  rcases hcnt : countOp OP_DEPTH vchPushValue s with _ | t
  · rfl
  · have ht : t.stack = s.stack ∧ t.vfExec = s.vfExec := by
      obtain ⟨nOpCount, rfl⟩ := countOp_eq_some hcnt
      exact ⟨rfl, rfl⟩
    have hplain : plainOp d OP_DEPTH t = some (d.getvch (d.keep t.stack.length) :: t.stack) := by
      unfold plainOp
      rw [if_neg (by decide), if_neg (by decide), if_neg (by decide), if_neg (by decide), if_pos rfl]
    have hop : evalOp d true OP_DEPTH script t
        = some { t with stack := d.getvch (d.keep t.stack.length) :: t.stack } := by
      unfold evalOp
      rw [if_neg (by decide), if_neg (by decide), if_neg (by decide), if_neg (by decide),
        if_neg (by decide), if_neg (by decide), if_neg (by decide), hplain]
      rfl
    have hrun : runOp d OP_DEPTH vchPushValue script t
        = some { t with stack := d.getvch (d.keep t.stack.length) :: t.stack } := by
      unfold runOp
      rw [ht.2, hexec]
      rw [if_neg (by decide), if_pos (.inl rfl), hop, ← ht.2]
    dsimp only [Option.bind_eq_bind, Option.bind_some]
    rw [hrun, Option.bind_some, if_pos]
    rw [List.length_cons, ht.1]
    omega

/-! ## Runs -/

/-- The operations that have the same result in every state. -/
def alwaysAgrees (opcode : UInt8) : Bool :=
  !(decide (OP_NOP1 ≤ opcode) && decide (opcode ≤ OP_NOP10)) &&
    !decide (opcode ∈ [OP_SIZE, OP_HASH256, OP_CHECKSIG, OP_CHECKSIGVERIFY, OP_CHECKMULTISIG,
      OP_CHECKMULTISIGVERIFY])

theorem opAgrees_of_alwaysAgrees (h : alwaysAgrees opcode = true) (s : EvalState) :
    OpAgrees lib flags CheckSig opcode s := by
  simp only [alwaysAgrees, Bool.and_eq_true, Bool.not_eq_true', Bool.and_eq_false_iff,
    decide_eq_false_iff_not, List.mem_cons, List.not_mem_nil, or_false, not_or] at h
  obtain ⟨hnop, hsize, hhash, hsig, hsigverify, hmulti, hmultiverify⟩ := h
  exact
    { nop := fun hlow hhigh => absurd hlow (hnop.resolve_right (not_not.mpr hhigh))
      size := fun h => absurd h hsize
      hash256 := fun h => absurd h hhash
      checksig := fun h => absurd h (not_or.mpr ⟨hsig, hsigverify⟩)
      checkmultisig := fun h => absurd h (not_or.mpr ⟨hmulti, hmultiverify⟩) }

theorem alwaysAgrees_of_le (hhigh : opcode ≤ OP_ENDIF) : alwaysAgrees opcode = true := by
  have hne : ∀ other : UInt8, ¬other ≤ OP_ENDIF → opcode ≠ other := by
    rintro other hother rfl
    exact hother hhigh
  have hnop : ¬OP_NOP1 ≤ opcode := fun h => absurd (UInt8.le_trans h hhigh) (by decide)
  simp only [alwaysAgrees, Bool.and_eq_true, Bool.not_eq_true', Bool.and_eq_false_iff,
    decide_eq_false_iff_not, List.mem_cons, List.not_mem_nil, or_false, not_or]
  exact ⟨.inl hnop, hne _ (by decide), hne _ (by decide), hne _ (by decide), hne _ (by decide),
    hne _ (by decide), hne _ (by decide)⟩

theorem evalStep_eq {vchPushValue : valtype} {script : CScript}
    (h : ∀ t, countOp opcode vchPushValue s = some t → t.vfExec.all id = true →
      OpAgrees lib flags CheckSig opcode t) :
    evalStep (CBigNum.interpreter lib flags CheckSig) opcode vchPushValue script s
      = evalStep (checker lib CheckSig) opcode vchPushValue script s := by
  by_cases hfull : opcode = OP_DEPTH ∧ nMaxStackSize ≤ s.stack.length ∧ s.vfExec.all id = true
  · obtain ⟨rfl, hlen, hexec⟩ := hfull
    rw [evalStep_depth hlen vchPushValue script hexec, evalStep_depth hlen vchPushValue script hexec]
  · unfold evalStep
    apply Option.bind_congr
    intro t hcnt
    have hrun : runOp (CBigNum.interpreter lib flags CheckSig) opcode vchPushValue script t
        = runOp (checker lib CheckSig) opcode vchPushValue script t := by
      obtain ⟨nOpCount, rfl⟩ := countOp_eq_some hcnt
      apply ite_congr rfl
      · intro _
        rfl
      intro hpush
      apply ite_congr rfl
      · intro hexec
        by_cases hall : s.vfExec.all id = true
        · apply evalOp_eq (h _ hcnt hall)
          intro hdepth
          have hshort : ¬nMaxStackSize ≤ s.stack.length := fun hlen =>
            hfull ⟨hdepth, hlen, hall⟩
          have hmax : nMaxStackSize = 1000 := rfl
          dsimp only
          omega
        · obtain ⟨-, hhigh⟩ := hexec.resolve_left hall
          apply evalOp_eq (opAgrees_of_alwaysAgrees (alwaysAgrees_of_le hhigh) _)
          rintro rfl
          exact absurd hhigh (by decide)
      · intro _
        rfl
    rw [hrun]

inductive Visits (d : Interpreter) : EvalState → CScript → EvalState → CScript → Prop
  | start (s script) : Visits d s script s script
  | step {s t s' : EvalState} {script script' : CScript} {op : Instruction} :
    readInstruction script = some op → evalStep d op.opcode op.vch op.rest s = some t →
      Visits d t op.rest s' script' → Visits d s script s' script'

/-- Every operation that is executed from a state on has the same result for both interpreters. -/
def RunAgrees (lib : ScriptLibrary) (flags : UInt32) (CheckSig : SigOracle) (s : EvalState)
    (script : CScript) : Prop :=
  ∀ s' script', Visits (CBigNum.interpreter lib flags CheckSig) s script s' script' →
    ∀ op t, readInstruction script' = some op → countOp op.opcode op.vch s' = some t →
      t.vfExec.all id = true → OpAgrees lib flags CheckSig op.opcode t

theorem evalLoop_eq {fuel : ℕ} {s : EvalState} {script : CScript}
    (h : RunAgrees lib flags CheckSig s script) :
    evalLoop (CBigNum.interpreter lib flags CheckSig) fuel s script
      = evalLoop (checker lib CheckSig) fuel s script := by
  induction fuel generalizing s script with
  | zero => rcases script with _ | ⟨byte, script⟩ <;> rfl
  | succ fuel ih =>
    rcases script with _ | ⟨byte, script⟩
    · rfl
    · unfold evalLoop
      apply Option.bind_congr
      intro op hop
      have hstep : evalStep (CBigNum.interpreter lib flags CheckSig) op.opcode op.vch op.rest s
          = evalStep (checker lib CheckSig) op.opcode op.vch op.rest s :=
        evalStep_eq fun t => h s _ (Visits.start s _) op t hop
      rw [← hstep]
      apply Option.bind_congr
      intro t ht
      apply ih
      intro s' script' hvis
      exact h s' script' (Visits.step hop ht hvis)

def startState (stack : List valtype) (script : CScript) : EvalState := ⟨stack, [], [], 0, script⟩

/-- Every operation that is executed when a script is evaluated has the same result. -/
def EvalAgrees (lib : ScriptLibrary) (flags : UInt32) (CheckSig : SigOracle) (stack : List valtype)
    (script : CScript) : Prop :=
  RunAgrees lib flags CheckSig (startState stack script) script

theorem evalScript_eq {stack : List valtype} {script : CScript}
    (h : EvalAgrees lib flags CheckSig stack script) :
    evalScript (CBigNum.interpreter lib flags CheckSig) stack script
      = evalScript (checker lib CheckSig) stack script := by
  have hloop := @evalLoop_eq _ _ _ script.length _ _ h
  unfold startState at hloop
  unfold evalScript
  rw [hloop]

def alwaysAgreesScript : ℕ → CScript → Bool
  | 0, _ => true
  | fuel + 1, script =>
    match readInstruction script with
    | none => true
    | some op => alwaysAgrees op.opcode && alwaysAgreesScript fuel op.rest

theorem runAgrees_of_alwaysAgrees {s : EvalState} {script : CScript} {fuel : ℕ}
    (hfuel : script.length ≤ fuel) (h : alwaysAgreesScript fuel script = true) :
    RunAgrees lib flags CheckSig s script := by
  intro s' script' hvis op t hop hcnt hexec
  apply opAgrees_of_alwaysAgrees
  clear hcnt hexec
  induction hvis generalizing fuel with
  | start s script =>
    have hlen := length_readInstruction hop
    obtain ⟨k, rfl⟩ : ∃ k, fuel = k + 1 := ⟨fuel - 1, by omega⟩
    unfold alwaysAgreesScript at h
    rw [hop] at h
    exact (Bool.and_eq_true_iff.mp h).1
  | step hread _ _ ih =>
    have hlen := length_readInstruction hread
    obtain ⟨k, rfl⟩ : ∃ k, fuel = k + 1 := ⟨fuel - 1, by omega⟩
    unfold alwaysAgreesScript at h
    rw [hread] at h
    exact ih (by omega) (Bool.and_eq_true_iff.mp h).2 hop

/-! ## Verification -/

def RevealedAccepted (d : Interpreter) (scriptSig scriptPubKey : CScript) : Prop :=
  scriptPubKey.IsPayToScriptHash = true → ∀ stackCopy, evalScript d [] scriptSig = some stackCopy →
    endsTrue (evalScript d stackCopy scriptPubKey) = true →
      CScript.IsPushOnly scriptSig = true ∧ acceptsRevealed d stackCopy = true

theorem verifyScript_iff (d : Interpreter) (scriptSig scriptPubKey : CScript) :
    verifyScript d true scriptSig scriptPubKey = verifyScript d false scriptSig scriptPubKey ↔
      RevealedAccepted d scriptSig scriptPubKey := by
  unfold verifyScript RevealedAccepted
  rcases evalScript d [] scriptSig with _ | stackCopy
  · simp
  · dsimp only
    cases hends : endsTrue (evalScript d stackCopy scriptPubKey) with
    | false => simp [hends]
    | true =>
      cases scriptPubKey.IsPayToScriptHash with
      | false => simp
      | true => simp [hends]

theorem verifyScript_congr {d d' : Interpreter} {scriptSig scriptPubKey : CScript}
    (hsig : evalScript d [] scriptSig = evalScript d' [] scriptSig)
    (hpub : ∀ stackCopy, evalScript d [] scriptSig = some stackCopy →
      evalScript d stackCopy scriptPubKey = evalScript d' stackCopy scriptPubKey) :
    verifyScript d false scriptSig scriptPubKey = verifyScript d' false scriptSig scriptPubKey := by
  unfold verifyScript
  rw [← hsig]
  rcases hstack : evalScript d [] scriptSig with _ | stackCopy
  · rfl
  · dsimp only
    rw [hpub stackCopy hstack]
    rfl

/-- The interpreters have the same result for every script whose operations have the same result where
they are executed. Then the two verifications have the same result exactly when the scripts that inputs
reveal are accepted. -/
theorem interpreters_agree (lib : ScriptLibrary) (flags : UInt32) (CheckSig : SigOracle) :
    (∀ stack script, EvalAgrees lib flags CheckSig stack script →
      CBigNum.EvalScript lib flags CheckSig stack script
        = CScriptNum.EvalScript lib STANDARD_SCRIPT_VERIFY_FLAGS CheckSig stack script) ∧
    (∀ scriptSig scriptPubKey, EvalAgrees lib flags CheckSig [] scriptSig →
      (∀ stackCopy, CBigNum.EvalScript lib flags CheckSig [] scriptSig = some stackCopy →
        EvalAgrees lib flags CheckSig stackCopy scriptPubKey) →
      (CBigNum.VerifyScript lib flags CheckSig scriptSig scriptPubKey
          = CScriptNum.VerifyScript lib STANDARD_SCRIPT_VERIFY_FLAGS CheckSig scriptSig scriptPubKey ↔
        RevealedAccepted (CBigNum.interpreter lib flags CheckSig) scriptSig scriptPubKey)) := by
  constructor
  · intro stack script h
    exact evalScript_eq h
  · intro scriptSig scriptPubKey hsig hpub
    have hsame : CScriptNum.VerifyScript lib STANDARD_SCRIPT_VERIFY_FLAGS CheckSig scriptSig scriptPubKey
        = verifyScript (checker lib CheckSig) false scriptSig scriptPubKey := rfl
    have hcongr := verifyScript_congr (evalScript_eq hsig) fun stackCopy h =>
      evalScript_eq (hpub stackCopy h)
    rw [hsame, ← hcongr]
    exact verifyScript_iff _ scriptSig scriptPubKey

/-! ## Scripts that inputs reveal -/

def plainLibrary : ScriptLibrary where
  RIPEMD160 vch := (vch ++ List.replicate 20 0).take 20
  SHA1 vch := (vch ++ List.replicate 20 1).take 20
  SHA256 vch := (vch ++ List.replicate 32 0).take 32
  Hash_bmw512 vch := (vch ++ List.replicate 32 2).take 32
  CheckLowS _ := true

def payToScript (script : CScript) : CScript :=
  [OP_HASH160, 20] ++ plainLibrary.Hash160 script ++ [OP_EQUAL]

theorem reveal_agrees (opcode : UInt8) :
    (EvalAgrees plainLibrary STANDARD_SCRIPT_VERIFY_FLAGS (fun _ _ _ => true) [] [1, opcode]) ∧
      ∀ stackCopy, EvalAgrees plainLibrary STANDARD_SCRIPT_VERIFY_FLAGS (fun _ _ _ => true) stackCopy
        (payToScript [opcode]) := by
  constructor
  · exact @runAgrees_of_alwaysAgrees _ _ _ _ _ 2 le_rfl rfl
  · intro stackCopy
    exact @runAgrees_of_alwaysAgrees _ _ _ _ _ 23 le_rfl rfl

/-- Both verifications accept an input that reveals a script that is true. -/
theorem reveal_true : CBigNum.VerifyScript plainLibrary STANDARD_SCRIPT_VERIFY_FLAGS (fun _ _ _ => true)
      [1, OP_1] (payToScript [OP_1]) =
    CScriptNum.VerifyScript plainLibrary STANDARD_SCRIPT_VERIFY_FLAGS (fun _ _ _ => true)
      [1, OP_1] (payToScript [OP_1]) := by
  obtain ⟨hsig, hpub⟩ := reveal_agrees OP_1
  apply ((interpreters_agree plainLibrary STANDARD_SCRIPT_VERIFY_FLAGS _).2 _ _ hsig
    fun stackCopy _ => hpub stackCopy).mpr
  intro _ stackCopy hstack _
  have heval : evalScript (CBigNum.interpreter plainLibrary STANDARD_SCRIPT_VERIFY_FLAGS
      fun _ _ _ => true) [] [1, OP_1] = some [[OP_1]] := by
    decide
  obtain rfl := Option.some.inj (heval.symm.trans hstack)
  decide

/-- An input that reveals a script that is false is accepted with a signature checker only. -/
theorem reveal_false : ¬ ∀ (lib : ScriptLibrary) (CheckSig : SigOracle),
    (∀ stack script, CBigNum.EvalScript lib STANDARD_SCRIPT_VERIFY_FLAGS CheckSig stack script
      = CScriptNum.EvalScript lib STANDARD_SCRIPT_VERIFY_FLAGS CheckSig stack script) ∧
    ∀ scriptSig scriptPubKey,
      CBigNum.VerifyScript lib STANDARD_SCRIPT_VERIFY_FLAGS CheckSig scriptSig scriptPubKey
        = CScriptNum.VerifyScript lib STANDARD_SCRIPT_VERIFY_FLAGS CheckSig scriptSig scriptPubKey := by
  intro h
  have hverify := (h plainLibrary fun _ _ _ => true).2 [1, OP_0] (payToScript [OP_0])
  have hbig : CBigNum.VerifyScript plainLibrary STANDARD_SCRIPT_VERIFY_FLAGS (fun _ _ _ => true)
      [1, OP_0] (payToScript [OP_0]) = false := by
    decide
  have hnum : CScriptNum.VerifyScript plainLibrary STANDARD_SCRIPT_VERIFY_FLAGS (fun _ _ _ => true)
      [1, OP_0] (payToScript [OP_0]) = true := by
    decide
  rw [hbig, hnum] at hverify
  cases hverify

end ZalemCoin.Script
