import ZalemCoin.Script.Templates

/-!
# Counting signature checks

`GetSigOpCount` reads a script without running it. The interpreter takes the number of keys of a
multiple check from the stack, but when the operation before it writes a small number, this is the
number on the stack; so what is counted in advance is never less than the signatures that a run
checks, whatever stack it starts with and however it ends.
-/

namespace ZalemCoin.Script

open Chain
open Nat (zero_le)
open Option (some.inj)

/-! ## The checks of a run -/

/-- The signatures that the loop of a multiple check verifies. -/
def checkSigsCount (d : Interpreter) (scriptCode : CScript) : List valtype → List valtype → ℕ
  | [], _ => 0
  | _ :: _, [] => 0
  | vchSig :: sigs, vchPubKey :: keys =>
    if d.checkEncoding vchSig vchPubKey then
      let left := if d.CheckSig vchSig vchPubKey scriptCode then sigs else vchSig :: sigs
      1 + if keys.length < left.length then 0 else checkSigsCount d scriptCode left keys
    else 0
termination_by structural _ keys => keys

variable (d : Interpreter)

/-- The signatures that an operation verifies when it is executed. -/
def opSigChecks (opcode : UInt8) (s : EvalState) : ℕ :=
  if opcode = OP_CHECKSIG ∨ opcode = OP_CHECKSIGVERIFY then
    match s.stack with
    | vchPubKey :: vchSig :: _ => if d.checkEncoding vchSig vchPubKey then 1 else 0
    | _ => 0
  else if opcode = OP_CHECKMULTISIG ∨ opcode = OP_CHECKMULTISIGVERIFY then
    match multisigArgs d s.nOpCount s.stack with
    | some args =>
      checkSigsCount d (args.sigs.foldl (fun scriptCode vchSig =>
        CScript.FindAndDelete scriptCode (pushData vchSig)) s.pbegincodehash) args.sigs args.keys
    | none => 0
  else 0

/-- The signatures that a round verifies. -/
def stepSigChecks (opcode : UInt8) (vchPushValue : valtype) (s : EvalState) : ℕ :=
  match countOp opcode vchPushValue s with
  | some s => if s.vfExec.all id then opSigChecks d opcode s else 0
  | none => 0

/-- The signatures that the loop verifies until it ends or fails. -/
def loopSigChecks (d : Interpreter) : ℕ → EvalState → CScript → ℕ
  | _, _, [] => 0
  | 0, _, _ :: _ => 0
  | fuel + 1, s, script =>
    match readInstruction script with
    | none => 0
    | some op =>
      stepSigChecks d op.opcode op.vch s +
        match evalStep d op.opcode op.vch op.rest s with
        | none => 0
        | some s => loopSigChecks d fuel s op.rest

/-- The signatures that are verified when a script is evaluated. -/
def sigChecks (stack : List valtype) (script : CScript) : ℕ :=
  if nMaxScriptSize < script.length then 0
  else loopSigChecks d script.length ⟨stack, [], [], 0, script⟩ script

/-- The signatures that a verification verifies while it evaluates the script that is revealed. -/
def redeemSigChecks (scriptSig scriptPubKey : CScript) : ℕ :=
  match evalScript d [] scriptSig with
  | some (pubKeySerialized :: stackCopy) =>
    if endsTrue (evalScript d (pubKeySerialized :: stackCopy) scriptPubKey) &&
        scriptPubKey.IsPayToScriptHash && CScript.IsPushOnly scriptSig then
      sigChecks d stackCopy pubKeySerialized
    else 0
  | _ => 0

/-! ## The count is an upper bound -/

theorem checkSigsCount_le (d : Interpreter) (scriptCode : CScript) (sigs keys : List valtype) :
    checkSigsCount d scriptCode sigs keys ≤ keys.length := by
  induction keys generalizing sigs with
  | nil => cases sigs <;> exact le_refl _
  | cons vchPubKey keys ih =>
    cases sigs with
    | nil => exact zero_le _
    | cons vchSig sigs =>
      unfold checkSigsCount
      dsimp only
      generalize (if d.CheckSig vchSig vchPubKey scriptCode then sigs else vchSig :: sigs) = left
      have hrest := ih left
      rw [List.length_cons]
      split_ifs <;> omega

/-- What the stack has on top when a small number has just been written and is not skipped. -/
def AfterOp (lastOpcode : UInt8) (s : EvalState) : Prop :=
  s.vfExec.all id = true → OP_1 ≤ lastOpcode → lastOpcode ≤ OP_16 →
    s.stack.head? = some (d.getvch (d.keep ((lastOpcode.toNat - (OP_1.toNat - 1) : ℕ) : ℤ)))

variable {opcode : UInt8} {d : Interpreter} {s : EvalState}

theorem evalOp_smallInteger (d : Interpreter) (hlow : OP_1 ≤ opcode) (hhigh : opcode ≤ OP_16)
    (fExec : Bool) (script : CScript) (s : EvalState) :
    evalOp d fExec opcode script s = some { s with
      stack := d.getvch (d.keep ((opcode.toNat - (OP_1.toNat - 1) : ℕ) : ℤ)) :: s.stack } := by
  obtain ⟨k, hk, rfl⟩ := exists_smallInteger hlow hhigh
  interval_cases k <;> rfl

variable {vch : valtype} {rest : CScript} {s' : EvalState} {lastOpcode : UInt8}

theorem evalStep_eq_some (h : evalStep d opcode vch rest s = some s') :
    ∃ s₁, countOp opcode vch s = some s₁ ∧ runOp d opcode vch rest s₁ = some s' := by
  obtain ⟨s₁, hcnt, h⟩ := Option.bind_eq_some_iff.mp h
  obtain ⟨s₂, hrun, h⟩ := Option.bind_eq_some_iff.mp h
  split at h
  · exact absurd h (by simp)
  · exact ⟨s₁, hcnt, hrun.trans h⟩

theorem afterOp_evalStep (h : evalStep d opcode vch rest s = some s') : AfterOp d opcode s' := by
  intro hexec hlow hhigh
  obtain ⟨s₁, -, hrun⟩ := evalStep_eq_some h
  have hpush : ¬opcode ≤ OP_PUSHDATA4 := fun hle =>
    absurd (UInt8.le_trans hlow hle) (by decide)
  unfold runOp at hrun
  rw [if_neg fun hand => hpush hand.2] at hrun
  split at hrun
  · rw [evalOp_smallInteger d hlow hhigh] at hrun
    rw [← some.inj hrun]
    rfl
  · rename_i hskip
    rw [← some.inj hrun] at hexec
    exact absurd (.inl hexec) hskip

theorem length_keys_multisigArgs {nOpCount : ℕ} {stack : List valtype} {args : MultisigArgs}
    (h : multisigArgs d nOpCount stack = some args) :
    args.keys.length ≤ 20 ∧ ∀ vch n, stack.head? = some vch →
      (d.toNumber vch).map d.getint = some ((n : ℕ) : ℤ) → args.keys.length ≤ n := by
  unfold multisigArgs at h
  obtain ⟨vch, hvch, h⟩ := Option.bind_eq_some_iff.mp h
  obtain ⟨bn, hbn, h⟩ := Option.bind_eq_some_iff.mp h
  dsimp only at h
  split at h
  · exact absurd h (by simp)
  rename_i hbound
  obtain ⟨vchSigs, -, h⟩ := Option.bind_eq_some_iff.mp h
  obtain ⟨bnSigs, -, h⟩ := Option.bind_eq_some_iff.mp h
  split at h
  · exact absurd h (by simp)
  obtain ⟨dummy, -, h⟩ := Option.bind_eq_some_iff.mp h
  rw [← some.inj h]
  have hlen : ((stack.drop 1).take (d.getint bn).toNat).length ≤ (d.getint bn).toNat :=
    List.length_take_le _ _
  refine ⟨by dsimp only; omega, fun vch' n hhead hn => ?_⟩
  rw [List.head?_eq_getElem?, hvch] at hhead
  rw [← some.inj hhead, hbn] at hn
  have := some.inj hn
  dsimp only
  omega

theorem stepSigChecks_le (hd : Plain d) (hlast : AfterOp d lastOpcode s) (opcode : UInt8)
    (vch : valtype) : stepSigChecks d opcode vch s ≤ sigOpsOf true lastOpcode opcode := by
  unfold stepSigChecks
  cases hcnt : countOp opcode vch s with
  | none => exact zero_le _
  | some s₁ =>
    obtain ⟨nOpCount, rfl⟩ := countOp_eq_some hcnt
    dsimp only
    split
    · rename_i hexec
      unfold opSigChecks sigOpsOf
      split
      · split
        · split <;> omega
        · omega
      · split
        · dsimp only
          cases hargs : multisigArgs d nOpCount s.stack with
          | none => exact zero_le _
          | some args =>
            obtain ⟨hmost, hcounted⟩ := length_keys_multisigArgs hargs
            refine (checkSigsCount_le d _ _ _).trans ?_
            split
            · rename_i hsmall
              have hhead := hlast hexec hsmall.2.1 hsmall.2.2
              have hlow := UInt8.le_iff_toNat_le.mp hsmall.2.1
              have hhigh := UInt8.le_iff_toNat_le.mp hsmall.2.2
              have hone : OP_1.toNat = 81 := rfl
              have hsixteen : OP_16.toNat = 96 := rfl
              exact hcounted _ _ hhead (hd.count _ (by omega) (by omega))
            · exact hmost
        · exact zero_le _
    · exact zero_le _

theorem loopSigChecks_le (hd : Plain d) (fuel : ℕ) (hlast : AfterOp d lastOpcode s)
    (script : CScript) :
    loopSigChecks d fuel s script ≤ sigOpCountLoop true fuel lastOpcode script := by
  induction fuel generalizing lastOpcode s script with
  | zero => cases script <;> exact zero_le _
  | succ fuel ih =>
    cases script with
    | nil => exact zero_le _
    | cons byte script =>
      unfold loopSigChecks sigOpCountLoop readInstruction
      dsimp only
      cases (GetOp byte script).opcode with
      | none => exact zero_le _
      | some opcode =>
        refine Nat.add_le_add (stepSigChecks_le hd hlast _ _) ?_
        split
        · exact zero_le _
        · rename_i s' hstep
          exact ih (afterOp_evalStep hstep) _

theorem sigChecks_le (hd : Plain d) (stack : List valtype) (script : CScript) :
    sigChecks d stack script ≤ CScript.GetSigOpCount script true := by
  unfold sigChecks
  split
  · exact zero_le _
  · exact loopSigChecks_le hd _ (fun _ _ hhigh => absurd hhigh (by decide)) script

theorem sigOpsOf_accurate_le (lastOpcode opcode : UInt8) :
    sigOpsOf true lastOpcode opcode ≤ sigOpsOf false lastOpcode opcode := by
  unfold sigOpsOf
  split
  · exact le_refl _
  · split
    · rw [@if_neg (false = true ∧ _) _ fun h => Bool.false_ne_true h.1]
      split
      · rename_i hsmall
        have hhigh := UInt8.le_iff_toNat_le.mp hsmall.2.2
        have hone : OP_1.toNat = 81 := rfl
        have hsixteen : OP_16.toNat = 96 := rfl
        omega
      · exact le_refl _
    · exact le_refl _

theorem getSigOpCount_accurate_le (script : CScript) :
    CScript.GetSigOpCount script true ≤ CScript.GetSigOpCount script false := by
  have hloop : ∀ fuel lastOpcode (script : CScript),
      sigOpCountLoop true fuel lastOpcode script ≤ sigOpCountLoop false fuel lastOpcode script := by
    intro fuel
    induction fuel with
    | zero => exact fun _ script => by cases script <;> exact zero_le _
    | succ fuel ih =>
      intro lastOpcode script
      cases script with
      | nil => exact zero_le _
      | cons byte script =>
        unfold sigOpCountLoop
        dsimp only
        split
        · exact zero_le _
        · exact Nat.add_le_add (sigOpsOf_accurate_le _ _) (ih _ _)
  exact hloop _ _ _

/-! ## The script that is revealed -/

variable (lib : ScriptLibrary) (flags : UInt32) (CheckSig : SigOracle)

theorem plain_interpreter : Plain (CBigNum.interpreter lib flags CheckSig) where
  push _ _ := rfl
  count := by
    have hcnt : ∀ k ≤ 16, 1 ≤ k →
        (CastToBigNum (CBigNum.getvch (k : ℕ))).map CBigNum.getint = some (k : ℤ) := by
      decide
    exact fun k hpos hk => hcnt k hk hpos

/-- The element of a small number, read as a script, verifies nothing: it is a push without its data, or
an operation that is disabled. -/
theorem sigChecks_number {n : ℤ} (hlow : -1 ≤ n) (hhigh : n ≤ 16)
    (stack : List valtype) :
    sigChecks (CBigNum.interpreter lib flags CheckSig) stack (CBigNum.getvch n) = 0 := by
  interval_cases n <;> rfl

/-- The top of the stack after the pushes of a script is the data of the last one, unless it verifies
nothing as a script. -/
def TopIs (data : List UInt8) (stack : List valtype) : Prop :=
  ∀ vch ∈ stack.head?, vch = data
    ∨ ∀ rest, sigChecks (CBigNum.interpreter lib flags CheckSig) rest vch = 0

theorem topIs_evalStep (hpush : opcode ≤ OP_16) (hexec : s.vfExec = [])
    (h : evalStep (CBigNum.interpreter lib flags CheckSig) opcode vch rest s = some s') :
    s'.vfExec = [] ∧ TopIs lib flags CheckSig vch s'.stack := by
  obtain ⟨s₁, hcnt, hrun⟩ := evalStep_eq_some h
  have hvfExec : s₁.vfExec = [] := by
    obtain ⟨nOpCount, rfl⟩ := countOp_eq_some hcnt
    exact hexec
  unfold runOp at hrun
  dsimp only at hrun
  rw [hvfExec] at hrun
  split at hrun
  · rw [if_pos ((plain_interpreter lib flags CheckSig).push _ _)] at hrun
    rw [← some.inj hrun]
    exact ⟨rfl, fun x hx => .inl (some.inj hx).symm⟩
  · rename_i hdata
    rw [if_pos (.inl (show ([] : List Bool).all id = true from rfl))] at hrun
    have hlow : OP_PUSHDATA4 < opcode := UInt8.not_le.mp fun hle => hdata ⟨rfl, hle⟩
    obtain ⟨k, hk, rfl⟩ : ∃ k : ℕ, k < 18 ∧ opcode = UInt8.ofNat (79 + k) := by
      have hlow' := UInt8.lt_iff_toNat_lt.mp hlow
      have hhigh' := UInt8.le_iff_toNat_le.mp hpush
      have hfour : OP_PUSHDATA4.toNat = 78 := rfl
      have hsixteen : OP_16.toNat = 96 := rfl
      refine ⟨opcode.toNat - 79, by omega, ?_⟩
      rw [Nat.add_sub_cancel' (by omega), UInt8.ofNat_toNat]
    obtain ⟨d, hd⟩ : ∃ d, CBigNum.interpreter lib flags CheckSig = d := ⟨_, rfl⟩
    have hwr : ∃ n : ℤ, -1 ≤ n ∧ n ≤ 16
        ∧ some s' = some { s₁ with stack := d.getvch (d.keep n) :: s₁.stack } := by
      rw [← hrun, hd]
      -- The reserved operation fails, the others write a number.
      by_cases hreserved : k = 1
      · subst hreserved
        exact absurd hrun (by intro hnone; cases hnone)
      · refine ⟨(79 + k : ℕ) - 80, by omega, by omega, ?_⟩
        interval_cases k <;> first | rfl | contradiction
    obtain ⟨n, hfst, hlast, hs'⟩ := hwr
    rw [some.inj hs']
    refine ⟨hvfExec, fun x hx => .inr fun stack => ?_⟩
    rw [← some.inj hx, ← hd]
    exact sigChecks_number lib flags CheckSig hfst hlast stack

theorem topIs_evalLoop (fuel : ℕ) {script : CScript} {data : List UInt8} (hexec : s.vfExec = [])
    (htop : TopIs lib flags CheckSig data s.stack) (hpush : isPushOnlyLoop fuel script = true)
    (h : evalLoop (CBigNum.interpreter lib flags CheckSig) fuel s script = some s') :
    ∃ data', CScript.lastPushLoop fuel data script = some data'
      ∧ TopIs lib flags CheckSig data' s'.stack := by
  induction fuel generalizing script data s with
  | zero =>
    cases script with
    | nil =>
      cases h
      exact ⟨data, rfl, htop⟩
    | cons byte script => cases hpush
  | succ fuel ih =>
    cases script with
    | nil =>
      cases h
      exact ⟨data, rfl, htop⟩
    | cons byte script =>
      obtain ⟨op, hread, h⟩ := Option.bind_eq_some_iff.mp h
      obtain ⟨s₁, hstep, h⟩ := Option.bind_eq_some_iff.mp h
      unfold isPushOnlyLoop at hpush
      rw [hread] at hpush
      rw [Bool.and_eq_true, decide_eq_true_eq] at hpush
      obtain ⟨hexec₁, htop₁⟩ := topIs_evalStep lib flags CheckSig hpush.1 hexec hstep
      obtain ⟨data', hlast, htop'⟩ := ih hexec₁ htop₁ hpush.2 h
      refine ⟨data', ?_, htop'⟩
      obtain ⟨opcode, hop, rfl⟩ := Option.map_eq_some_iff.mp hread
      unfold CScript.lastPushLoop
      dsimp only
      rw [hop]
      dsimp only
      rw [if_neg (UInt8.not_lt.mpr hpush.1)]
      exact hlast

/-- The signatures that a run of a script verifies, and those that a verification verifies in the script
that is revealed, are never more than are counted in advance; and counting accurately never counts
more. -/
theorem sigChecks_counted (stack : List valtype) (script scriptSig scriptPubKey : CScript) :
    sigChecks (CBigNum.interpreter lib flags CheckSig) stack script ≤ script.GetSigOpCount true
      ∧ script.GetSigOpCount true ≤ script.GetSigOpCount false
      ∧ redeemSigChecks (CBigNum.interpreter lib flags CheckSig) scriptSig scriptPubKey
        ≤ CScript.GetSigOpCountWith scriptPubKey scriptSig := by
  have hplain := plain_interpreter lib flags CheckSig
  refine ⟨sigChecks_le hplain stack script, getSigOpCount_accurate_le script, ?_⟩
  unfold redeemSigChecks
  split
  · rename_i pubKeySerialized stackCopy heval
    split
    · rename_i hall
      rw [Bool.and_eq_true, Bool.and_eq_true] at hall
      obtain ⟨⟨-, hp2sh⟩, hpush⟩ := hall
      unfold evalScript at heval
      split at heval
      · exact absurd heval (by simp)
      obtain ⟨s', hloop, hends⟩ := Option.bind_eq_some_iff.mp heval
      obtain ⟨data, hdata, htop⟩ := topIs_evalLoop lib flags CheckSig _ rfl
        (show TopIs lib flags CheckSig [] [] from fun _ hx => nomatch hx) hpush hloop
      split at hends
      · obtain hstack := Option.some.inj hends
        unfold CScript.GetSigOpCountWith
        rw [if_pos hp2sh, hdata]
        rcases htop pubKeySerialized (by rw [hstack]; rfl) with rfl | hzero
        · exact sigChecks_le hplain _ _
        · rw [hzero]
          exact Nat.zero_le _
      · exact absurd hends (by simp)
    · exact Nat.zero_le _
  · exact Nat.zero_le _

end ZalemCoin.Script
