import Mathlib.Tactic.IntervalCases
import ZalemCoin.Script.Agreement

/-!
# Evaluating the scripts of the templates

A script is the list of its instructions, and its evaluation goes through the list. For the scripts
that the templates for keys recognise, on the data that belongs to them, the evaluation comes down to
one check: that the signatures are, in their order, those of some of the keys.
-/

namespace ZalemCoin.Script

open Chain Lib
open List (length_cons length_append mem_cons_self mem_cons_of_mem cons_append nil_append take_left)

/-! ## The instructions of a script -/

inductive Parsed : CScript → List Instruction → Prop
  | nil : Parsed [] []
  | cons {script : CScript} {op : Instruction} {ops : List Instruction} :
    readInstruction script = some op → Parsed op.rest ops → Parsed script (op :: ops)

theorem Parsed.length_le {script : CScript} {ops : List Instruction} (h : Parsed script ops) :
    script.length ≤ (ops.map fun op => 5 + op.vch.length).sum := by
  induction h with
  | nil => exact Nat.zero_le _
  | cons hread _ ih =>
    obtain ⟨sizes, rfl, hfew, -, -⟩ := readInstruction_eq_some hread
    simp only [length_cons, length_append, List.map_cons, List.sum_cons]
    omega

variable {s : EvalState} {script rest : CScript} {ops : List Instruction} {b : valtype}
  {d : Interpreter} {opcode : UInt8} {op : Instruction} {sigs : List valtype}
  {vSolutions : List (List UInt8)}

variable {fuel nOpCount : ℕ} {opcode2 : UInt8} {template : CScript}

theorem evalLoop_fuel (d : Interpreter) (h : script.length ≤ fuel) :
    evalLoop d fuel s script = evalLoop d script.length s script := by
  -- both sides may have more than enough, since the rest of a script may lose several bytes at once
  have hboth : ∀ (n k k' : ℕ) (s : EvalState) (script : CScript), script.length ≤ n →
      script.length ≤ k → script.length ≤ k' → evalLoop d k s script = evalLoop d k' s script := by
    intro n
    induction n with
    | zero =>
      intro k k' s script hn _ _
      obtain rfl := List.length_eq_zero_iff.mp (Nat.le_zero.mp hn)
      cases k <;> cases k' <;> rfl
    | succ n ih =>
      intro k k' s script hn hk hk'
      rcases script with _ | ⟨byte, script⟩
      · cases k <;> cases k' <;> rfl
      · rw [length_cons] at hn hk hk'
        obtain ⟨j, rfl⟩ : ∃ j, k = j + 1 := ⟨k - 1, by omega⟩
        obtain ⟨j', rfl⟩ : ∃ j, k' = j + 1 := ⟨k' - 1, by omega⟩
        apply Option.bind_congr
        intro op hop
        have hshorter := length_readInstruction hop
        rw [length_cons] at hshorter
        apply Option.bind_congr
        intro t _
        exact ih j j' t op.rest (by omega) (by omega) (by omega)
  exact hboth fuel fuel script.length s script h h le_rfl

def evalOps (d : Interpreter) (s : EvalState) (ops : List Instruction) : Option EvalState :=
  ops.foldlM (fun s op => evalStep d op.opcode op.vch op.rest s) s

theorem evalOps_append (d : Interpreter) (s : EvalState) (ops ops' : List Instruction) :
    evalOps d s (ops ++ ops') = (evalOps d s ops).bind fun s => evalOps d s ops' :=
  List.foldlM_append

theorem evalOps_cons (d : Interpreter) (s : EvalState) (op : Instruction) (ops : List Instruction) :
    evalOps d s (op :: ops)
      = (evalStep d op.opcode op.vch op.rest s).bind fun s => evalOps d s ops :=
  List.foldlM_cons

theorem Parsed.evalLoop (h : Parsed script ops) (d : Interpreter) (s : EvalState) :
    evalLoop d script.length s script = evalOps d s ops := by
  induction h generalizing s with
  | nil => rfl
  | cons hread _ ih =>
    rename_i script op ops _
    have hshorter := length_readInstruction hread
    rcases script with _ | ⟨byte, script⟩
    · simp [readInstruction] at hread
    · rw [length_cons] at hshorter ⊢
      have hrest : ∀ t, Script.evalLoop d script.length t op.rest = evalOps d t ops := by
        intro t
        rw [evalLoop_fuel d (by omega), ih]
      unfold Script.evalLoop
      rw [hread]
      change ((evalStep d op.opcode op.vch op.rest s).bind fun t => Script.evalLoop d script.length t op.rest)
        = _
      apply Option.bind_congr
      intro t _
      exact hrest t

theorem Parsed.isPushOnly (h : Parsed script ops) (hops : ∀ op ∈ ops, op.opcode ≤ OP_16) :
    CScript.IsPushOnly script = true := by
  have hloop : ∀ fuel, script.length ≤ fuel → isPushOnlyLoop fuel script = true := by
    induction h with
    | nil =>
      intro fuel _
      cases fuel <;> rfl
    | cons hread _ ih =>
      intro fuel hfuel
      rename_i script op ops _
      have hshorter := length_readInstruction hread
      obtain ⟨k, rfl⟩ : ∃ k, fuel = k + 1 := ⟨fuel - 1, by omega⟩
      rcases script with _ | ⟨byte, script⟩
      · rfl
      · unfold isPushOnlyLoop
        rw [hread]
        rw [Bool.and_eq_true]
        constructor
        · exact decide_eq_true (hops _ mem_cons_self)
        · exact ih (fun op hop => hops op (mem_cons_of_mem _ hop)) k (by omega)
  exact hloop script.length le_rfl

/-! ## Pushes -/

/-- What a push looks like, and how any script behind it is read on. -/
theorem pushData_eq (hb : b.length < 2 ^ 32) :
    ∃ (opcode : UInt8) (sizes : CScript), opcode ≤ OP_PUSHDATA4 ∧
      pushData b = opcode :: (sizes ++ b) ∧
      ∀ rest, pushSize opcode (sizes ++ rest) = some (b.length, rest) := by
  unfold pushData
  split_ifs with hdirect hone htwo
  · -- the operation is the size
    have hlen : (UInt8.ofNat b.length).toNat = b.length := by
      have hmax : OP_PUSHDATA1.toNat = 76 := rfl
      rw [UInt8.toNat_ofNat']
      omega
    have hlt : UInt8.ofNat b.length < OP_PUSHDATA1 := by
      rw [UInt8.lt_iff_toNat_lt, hlen]
      exact hdirect
    refine ⟨UInt8.ofNat b.length, [], UInt8.le_of_lt (UInt8.lt_trans hlt (by decide)), rfl, ?_⟩
    intro rest
    unfold pushSize
    rw [if_pos hlt, hlen]
    rfl
  · have hlen : (UInt8.ofNat b.length).toNat = b.length := by
      rw [UInt8.toNat_ofNat']
      omega
    refine ⟨OP_PUSHDATA1, [UInt8.ofNat b.length], by decide, rfl, ?_⟩
    intro rest
    unfold pushSize
    rw [if_neg (by decide), if_pos rfl]
    dsimp only [cons_append, nil_append]
    rw [hlen]
  · refine ⟨OP_PUSHDATA2, littleEndian 2 b.length, by decide, by simp, ?_⟩
    intro rest
    unfold pushSize
    rw [if_neg (by decide), if_neg (by decide), if_pos rfl]
    dsimp only [littleEndian, cons_append, nil_append]
    rw [UInt8.toNat_ofNat', UInt8.toNat_ofNat']
    have hbytes : b.length % 2 ^ 8 + 256 * (b.length / 256 % 2 ^ 8) = b.length := by omega
    rw [hbytes]
  · refine ⟨OP_PUSHDATA4, littleEndian 4 b.length, by decide, by simp, ?_⟩
    intro rest
    unfold pushSize
    rw [if_neg (by decide), if_neg (by decide), if_neg (by decide)]
    dsimp only [littleEndian, cons_append, nil_append]
    rw [UInt8.toNat_ofNat', UInt8.toNat_ofNat', UInt8.toNat_ofNat', UInt8.toNat_ofNat']
    have hbytes : b.length % 2 ^ 8 + 256 * (b.length / 256 % 2 ^ 8
        + 256 * (b.length / 256 / 256 % 2 ^ 8 + 256 * (b.length / 256 / 256 / 256 % 2 ^ 8)))
          = b.length := by omega
    rw [hbytes]

theorem readInstruction_pushData {b : valtype} (hb : b.length ≤ 0xffff) (rest : CScript) :
    ∃ opcode, opcode ≤ OP_PUSHDATA4 ∧
      readInstruction (pushData b ++ rest) = some ⟨opcode, b, rest⟩ := by
  obtain ⟨opcode, sizes, hpush, hdata, hsize⟩ := pushData_eq (b := b) (by omega)
  have happ : pushData b ++ rest = opcode :: (sizes ++ (b ++ rest)) := by
    rw [hdata, cons_append, List.append_assoc]
  have hop : GetOp opcode (sizes ++ (b ++ rest)) = ⟨some opcode, b, rest⟩ := by
    unfold GetOp
    rw [if_pos hpush, hsize]
    dsimp only
    rw [if_neg (by simp), take_left, List.drop_left]
  apply Exists.intro opcode
  constructor
  · exact hpush
  · rw [happ]
    unfold readInstruction
    dsimp only
    rw [hop]
    rfl

def PushAll (values : List valtype) : CScript := values.flatMap pushData

theorem parsed_pushAll {values : List valtype} (h : ∀ b ∈ values, b.length ≤ 0xffff) :
    ∃ ops, Parsed (PushAll values) ops ∧ ops.map Instruction.vch = values ∧
      ∀ op ∈ ops, op.opcode ≤ OP_PUSHDATA4 := by
  induction values with
  | nil => exact ⟨[], Parsed.nil, rfl, by simp⟩
  | cons b values ih =>
    obtain ⟨ops, hops, hvalues, hpush⟩ := ih fun b' hb' => h b' (mem_cons_of_mem _ hb')
    obtain ⟨opcode, hopcode, hread⟩ := readInstruction_pushData (h b mem_cons_self) (PushAll values)
    refine ⟨⟨opcode, b, PushAll values⟩ :: ops, Parsed.cons hread hops, ?_, ?_⟩
    · rw [List.map_cons, hvalues]
    · intro op hop
      rcases List.mem_cons.mp hop with rfl | hop
      · exact hopcode
      · exact hpush op hop

theorem pushAll_append (values : List valtype) (b : valtype) :
    PushAll (values ++ [b]) = PushAll values ++ pushData b := by
  unfold PushAll
  rw [List.flatMap_append]
  simp

/-! ## Evaluating pushes -/

/-- An interpreter that takes every push for what it is, and reads the counts that it has written. -/
structure Plain (d : Interpreter) : Prop where
  push : ∀ vch opcode, d.checkPush vch opcode = true
  count : ∀ k : ℕ, 1 ≤ k → k ≤ 16 → (d.toNumber (d.getvch (d.keep k))).map d.getint = some (k : ℤ)

theorem Plain.evalStep_push (hd : Plain d) (hop : opcode ≤ OP_PUSHDATA4) (vch : valtype)
    (rest : CScript) (hexec : s.vfExec = []) :
    evalStep d opcode vch rest s =
      if MAX_SCRIPT_ELEMENT_SIZE < vch.length ∨ nMaxStackSize < s.stack.length + 1 + s.altstack.length
      then none
      else some { s with stack := vch :: s.stack } := by
  have hlow : ¬OP_16 < opcode := fun h => absurd (UInt8.lt_of_lt_of_le h hop) (by decide)
  have henabled : opcode ∉ disabledOps := by
    intro hmem
    have hall : ∀ other ∈ disabledOps, OP_16 < other := by
      rw [← List.forall_iff_forall_mem]
      decide
    exact hlow (hall opcode hmem)
  have hrun : runOp d opcode vch rest s = some { s with stack := vch :: s.stack } := by
    unfold runOp
    rw [hexec]
    rw [if_pos ⟨rfl, hop⟩, hd.push, if_pos rfl]
  unfold evalStep countOp
  by_cases hlong : MAX_SCRIPT_ELEMENT_SIZE < vch.length
  · rw [if_pos hlong, if_pos (.inl hlong)]
    rfl
  · rw [if_neg hlong]
    rw [if_neg hlow, if_neg fun h => hlow h.1, if_neg henabled]
    dsimp only [Option.bind_eq_bind, Option.bind_some]
    rw [hrun]
    simp only [Option.bind_some, length_cons, hlong, false_or]

theorem Plain.evalStep_short (hd : Plain d) (hop : opcode ≤ OP_PUSHDATA4) {vch : valtype}
    (hvch : vch.length ≤ MAX_SCRIPT_ELEMENT_SIZE) (rest : CScript) (hexec : s.vfExec = [])
    (hroom : s.stack.length + s.altstack.length < nMaxStackSize) :
    evalStep d opcode vch rest s = some { s with stack := vch :: s.stack } := by
  rw [hd.evalStep_push hop _ _ hexec, if_neg (by omega)]

theorem countOp_eq (hhigh : OP_16 < opcode) (henabled : opcode ∉ disabledOps)
    (hcnt : s.nOpCount < nMaxOpCount) :
    countOp opcode [] s = some { s with nOpCount := s.nOpCount + 1 } := by
  unfold countOp
  rw [if_neg (by decide)]
  rw [if_pos hhigh, if_neg fun h => absurd h.2 (by dsimp only; omega), if_neg henabled]

theorem Plain.evalOps_push (hd : Plain d)
    (hops : ∀ op ∈ ops, op.opcode ≤ OP_PUSHDATA4 ∧ op.vch.length ≤ MAX_SCRIPT_ELEMENT_SIZE)
    (hexec : s.vfExec = [])
    (hroom : s.stack.length + ops.length + s.altstack.length ≤ nMaxStackSize) :
    evalOps d s ops = some { s with stack := (ops.map Instruction.vch).reverse ++ s.stack } := by
  induction ops generalizing s with
  | nil => rfl
  | cons op ops ih =>
    obtain ⟨hpush, hshort⟩ := hops op mem_cons_self
    rw [length_cons] at hroom
    have hnext : ({ s with stack := op.vch :: s.stack } : EvalState).vfExec = [] := hexec
    rw [evalOps_cons, hd.evalStep_short hpush hshort _ hexec (by omega), Option.bind_some]
    rw [ih (fun op' hop' => hops op' (mem_cons_of_mem _ hop')) hnext]
    · simp
    · simp only [length_cons]
      omega

theorem Parsed.evalScript (h : Parsed script ops) (hsize : script.length ≤ nMaxScriptSize)
    (d : Interpreter) (stack : List valtype) :
    evalScript d stack script = (evalOps d (startState stack script) ops).bind fun s =>
      if s.vfExec = [] then some s.stack else none := by
  unfold Script.evalScript
  rw [if_neg (by omega), ← h.evalLoop d (startState stack script)]
  rfl

/-! ## Signatures that do not stand in a script -/

theorem pushData_short (hb : b.length < 76) : pushData b = UInt8.ofNat b.length :: b := if_pos hb

theorem vch_eq_of_push (hread : readInstruction script = some op) (hb : b.length < 76)
    (h : pushData b <+: script) : op.vch = b := by
  obtain ⟨t, ht⟩ := h
  obtain ⟨sizes, hscr, -, hdirect, -⟩ := readInstruction_eq_some hread
  rw [pushData_short hb, cons_append, hscr, List.cons.injEq] at ht
  obtain ⟨hop, hrest⟩ := ht
  have hlen : op.opcode.toNat = b.length := by
    rw [← hop, UInt8.toNat_ofNat']
    omega
  have hlt : op.opcode < OP_PUSHDATA1 := by
    rw [UInt8.lt_iff_toNat_lt, hlen]
    exact hb
  obtain ⟨rfl, hvch⟩ := hdirect hlt
  rw [nil_append] at hrest
  exact (List.append_inj_left hrest (by omega)).symm

/-- A push that is no operation of the script is not deleted from it. -/
theorem Parsed.findAndDelete (h : Parsed script ops) (hb : b.length < 76)
    (hops : ∀ op ∈ ops, op.vch ≠ b) : CScript.FindAndDelete script (pushData b) = script := by
  have hpush : pushData b ≠ [] := by
    rw [pushData_short hb]
    exact List.cons_ne_nil _ _
  have hkeep : ∀ (fuel : ℕ) (script : CScript), ¬pushData b <+: script →
      erasePrefix (pushData b) fuel script = script := by
    intro fuel script hprefix
    cases fuel with
    | zero => rfl
    | succ fuel =>
      unfold erasePrefix
      rw [if_neg fun h => hprefix (List.isPrefixOf_iff_prefix.mp h)]
  have hloop : ∀ fuel, findAndDeleteLoop (pushData b) fuel script = script := by
    induction h with
    | nil =>
      intro fuel
      cases fuel with
      | zero => rfl
      | succ fuel => rfl
    | cons hread _ ih =>
      intro fuel
      rename_i script op ops _
      cases fuel with
      | zero => rfl
      | succ fuel =>
        have hprefix : ¬pushData b <+: script := fun h =>
          hops op mem_cons_self (vch_eq_of_push hread hb h)
        obtain ⟨sizes, hscr, -, -, -⟩ := readInstruction_eq_some hread
        have hrest := ih (fun op' hop' => hops op' (mem_cons_of_mem _ hop')) fuel
        unfold findAndDeleteLoop
        dsimp only
        rw [hkeep _ _ hprefix, hread]
        dsimp only
        rw [hrest]
        have hsplit : script = (op.opcode :: (sizes ++ op.vch)) ++ op.rest := by
          rw [hscr, cons_append]
        have hlen : script.length - op.rest.length = (op.opcode :: (sizes ++ op.vch)).length := by
          rw [congrArg List.length hsplit, length_append, Nat.add_sub_cancel]
        rw [hlen]
        conv_rhs => rw [hsplit]
        conv_lhs => rw [congrArg (List.take _) hsplit, take_left]
  unfold CScript.FindAndDelete
  rw [if_neg hpush]
  exact hloop _

/-- The script that signatures sign: the one that is evaluated, without themselves. -/
def scriptCodeOf (script : CScript) (sigs : List valtype) : CScript :=
  sigs.foldl (fun scriptCode vchSig => CScript.FindAndDelete scriptCode (pushData vchSig)) script

theorem Parsed.scriptCodeOf (h : Parsed script ops) (hsigs : ∀ vchSig ∈ sigs, vchSig.length < 76)
    (hops : ∀ vchSig ∈ sigs, ∀ op ∈ ops, op.vch ≠ vchSig) : scriptCodeOf script sigs = script := by
  induction sigs with
  | nil => rfl
  | cons vchSig sigs ih =>
    unfold Script.scriptCodeOf
    rw [List.foldl_cons, h.findAndDelete (hsigs vchSig mem_cons_self)
      (hops vchSig mem_cons_self)]
    exact ih (fun sig hsig => hsigs sig (mem_cons_of_mem _ hsig))
      fun sig hsig => hops sig (mem_cons_of_mem _ hsig)

/-! ## Recognised scripts -/

theorem matchTemplate_nil (h : matchTemplate [] script = some vSolutions) :
    script = [] ∧ vSolutions = [] := by
  rcases script with _ | ⟨byte, script⟩
  · exact ⟨rfl, (Option.some.inj h).symm⟩
  · simp [matchTemplate] at h

theorem matchTemplate_cons (hopcode2 : opcode2 ≠ OP_PUBKEYS)
    (h : matchTemplate (opcode2 :: template) script = some vSolutions) :
    ∃ op found solutions, readInstruction script = some op ∧ matchOp opcode2 op = some found ∧
      matchTemplate template op.rest = some solutions ∧ vSolutions = found ++ solutions := by
  unfold matchTemplate at h
  rcases hread : readInstruction script with _ | op
  · rw [hread] at h
    rcases script with _ | ⟨byte, script⟩ <;> simp at h
  · rcases script with _ | ⟨byte, script⟩
    · simp [readInstruction] at hread
    rw [hread] at h
    dsimp only at h
    rw [if_neg hopcode2] at h
    obtain ⟨found, hfound, h⟩ := Option.bind_eq_some_iff.mp h
    obtain ⟨solutions, hsols, h⟩ := Option.bind_eq_some_iff.mp h
    exact ⟨op, found, solutions, rfl, hfound, hsols, (Option.some.inj h).symm⟩

/-- The operations of a template that stand for data. -/
def dataOps : List UInt8 := [OP_PUBKEY, OP_PUBKEYHASH, OP_SMALLINTEGER, OP_SMALLDATA, OP_PUBKEYS]

theorem matchTemplate_op (hopcode2 : opcode2 ∉ dataOps)
    (h : matchTemplate (opcode2 :: template) script = some vSolutions) :
    ∃ rest, readInstruction script = some ⟨opcode2, [], rest⟩ ∧
      matchTemplate template rest = some vSolutions := by
  simp only [dataOps, List.mem_cons, List.not_mem_nil, or_false, not_or] at hopcode2
  obtain ⟨hkey, hhash, hint, hdata, hkeys⟩ := hopcode2
  obtain ⟨op, found, solutions, hread, hfound, hsols, rfl⟩ := matchTemplate_cons hkeys h
  unfold matchOp at hfound
  rw [if_neg hkey, if_neg hhash, if_neg hint, if_neg hdata] at hfound
  split_ifs at hfound with hother
  cases hfound
  rw [not_or, not_not, not_not] at hother
  obtain ⟨rfl, hvch⟩ := hother
  exact ⟨op.rest, by rw [hread, ← hvch], hsols⟩

theorem push_of_vch (h : readInstruction script = some op) (hvch : op.vch ≠ []) :
    op.opcode ≤ OP_PUSHDATA4 := by
  obtain ⟨sizes, -, -, -, hother⟩ := readInstruction_eq_some h
  by_contra hlarge
  exact hvch (hother hlarge)

structure Pushes (op : Instruction) (least most : ℕ) : Prop where
  opcode : op.opcode ≤ OP_PUSHDATA4
  least : least ≤ op.vch.length
  most : op.vch.length ≤ most

theorem matchTemplate_pubKey (h : matchTemplate [OP_PUBKEY, OP_CHECKSIG] script = some vSolutions) :
    ∃ key, Pushes key 33 120 ∧ Parsed script [key, ⟨OP_CHECKSIG, [], []⟩] ∧ vSolutions = [key.vch] := by
  obtain ⟨key, found, solutions, hread, hfound, hrest, rfl⟩ := matchTemplate_cons (by decide) h
  obtain ⟨rest, hchk, hend⟩ := matchTemplate_op (by decide) hrest
  obtain ⟨rfl, rfl⟩ := matchTemplate_nil hend
  unfold matchOp at hfound
  rw [if_pos rfl] at hfound
  split_ifs at hfound with hlen
  cases hfound
  have hpush := push_of_vch hread (List.length_pos_iff.mp (by omega))
  exact ⟨key, ⟨hpush, by omega, by omega⟩, Parsed.cons hread (Parsed.cons hchk Parsed.nil), rfl⟩

theorem matchTemplate_pubKeyHash
    (h : matchTemplate [OP_DUP, OP_HASH160, OP_PUBKEYHASH, OP_EQUALVERIFY, OP_CHECKSIG] script
      = some vSolutions) :
    ∃ r1 r2 hash r4, Pushes hash 20 20 ∧ Parsed script [⟨OP_DUP, [], r1⟩, ⟨OP_HASH160, [], r2⟩, hash,
      ⟨OP_EQUALVERIFY, [], r4⟩, ⟨OP_CHECKSIG, [], []⟩] ∧ vSolutions = [hash.vch] := by
  obtain ⟨r1, hdup, h1⟩ := matchTemplate_op (by decide) h
  obtain ⟨r2, hhash, h2⟩ := matchTemplate_op (by decide) h1
  obtain ⟨hash, found, solutions, hread, hfound, h3, rfl⟩ := matchTemplate_cons (by decide) h2
  obtain ⟨r4, hequal, h4⟩ := matchTemplate_op (by decide) h3
  obtain ⟨rest, hchk, h5⟩ := matchTemplate_op (by decide) h4
  obtain ⟨rfl, rfl⟩ := matchTemplate_nil h5
  unfold matchOp at hfound
  rw [if_neg (by decide), if_pos rfl] at hfound
  split_ifs at hfound with hlen
  cases hfound
  have hpush := push_of_vch hread (List.length_pos_iff.mp (by omega))
  exact ⟨r1, r2, hash, r4, ⟨hpush, by omega, by omega⟩, Parsed.cons hdup (Parsed.cons hhash
    (Parsed.cons hread (Parsed.cons hequal (Parsed.cons hchk Parsed.nil)))), rfl⟩

theorem readPubkeys_eq {last : Instruction} {keys : List (List UInt8)}
    (hread : readInstruction script = some op) (h : readPubkeys fuel op = (keys, last))
    (hlast : last.opcode ≠ OP_INVALIDOPCODE) (hops : Parsed last.rest ops) :
    ∃ keyOps : List Instruction, Parsed script (keyOps ++ last :: ops) ∧
      keyOps.map Instruction.vch = keys ∧ ∀ key ∈ keyOps, Pushes key 33 120 := by
  induction fuel generalizing script op keys with
  | zero =>
    cases h
    exact ⟨[], Parsed.cons hread hops, rfl, by simp⟩
  | succ fuel ih =>
    unfold readPubkeys at h
    by_cases hkey : 33 ≤ op.vch.length ∧ op.vch.length ≤ 120
    · rw [if_pos hkey] at h
      rcases hnext : readInstruction op.rest with _ | next
      · rw [hnext] at h
        cases h
        exact absurd rfl hlast
      · rw [hnext] at h
        rcases hmore : readPubkeys fuel next with ⟨keys', last'⟩
        dsimp only at h
        rw [hmore] at h
        cases h
        obtain ⟨keyOps, hparsed, rfl, hkeys⟩ := ih hnext hmore
        have hpush := push_of_vch hread (List.length_pos_iff.mp (by omega))
        refine ⟨op :: keyOps, Parsed.cons hread hparsed, rfl, ?_⟩
        intro key hmem
        rcases List.mem_cons.mp hmem with rfl | hmem
        · exact ⟨hpush, hkey.1, hkey.2⟩
        · exact hkeys key hmem
    · rw [if_neg hkey] at h
      cases h
      exact ⟨[], Parsed.cons hread hops, rfl, by simp⟩

theorem matchOp_smallInteger {found : List (List UInt8)}
    (h : matchOp OP_SMALLINTEGER op = some found) :
    IsSmallInteger op.opcode = true ∧ found = [[DecodeOP_N op.opcode]] := by
  unfold matchOp at h
  rw [if_neg (by decide), if_neg (by decide), if_pos rfl] at h
  split_ifs at h with hsmall
  exact ⟨hsmall, (Option.some.inj h).symm⟩

theorem matchTemplate_multisig
    (h : matchTemplate [OP_SMALLINTEGER, OP_PUBKEYS, OP_SMALLINTEGER, OP_CHECKMULTISIG] script
      = some vSolutions) :
    ∃ (m n : Instruction) (keys : List Instruction),
      IsSmallInteger m.opcode = true ∧ IsSmallInteger n.opcode = true ∧
      (∀ key ∈ keys, Pushes key 33 120) ∧
      Parsed script (m :: (keys ++ [n, ⟨OP_CHECKMULTISIG, [], []⟩])) ∧
      vSolutions = [DecodeOP_N m.opcode] :: (keys.map Instruction.vch ++ [[DecodeOP_N n.opcode]]) := by
  obtain ⟨m, found, solutions, hm, hfound, h1, rfl⟩ := matchTemplate_cons (by decide) h
  obtain ⟨hsmallm, rfl⟩ := matchOp_smallInteger hfound
  unfold matchTemplate at h1
  rcases hread : readInstruction m.rest with _ | op
  · rw [hread] at h1
    rcases m.rest with _ | ⟨byte, rest⟩ <;> simp at h1
  · rcases hrest : m.rest with _ | ⟨byte, rest⟩
    · rw [hrest] at hread
      simp [readInstruction] at hread
    rw [hread, hrest] at h1
    rcases hkeys : readPubkeys (byte :: rest).length op with ⟨keys, n⟩
    dsimp only at h1
    rw [if_pos rfl, hkeys] at h1
    obtain ⟨found, hfound, h1⟩ := Option.bind_eq_some_iff.mp h1
    obtain ⟨more, hmore, h1⟩ := Option.bind_eq_some_iff.mp h1
    obtain ⟨hsmalln, rfl⟩ := matchOp_smallInteger hfound
    obtain ⟨end', hchk, hend⟩ := matchTemplate_op (by decide) hmore
    obtain ⟨rfl, rfl⟩ := matchTemplate_nil hend
    have hlast : n.opcode ≠ OP_INVALIDOPCODE := by
      intro hinvalid
      rw [hinvalid] at hsmalln
      exact absurd hsmalln (by decide)
    obtain ⟨keyOps, hparsed, rfl, hpushes⟩ :=
      readPubkeys_eq hread hkeys hlast (Parsed.cons hchk Parsed.nil)
    refine ⟨m, n, keyOps, hsmallm, hsmalln, hpushes, Parsed.cons hm hparsed, ?_⟩
    rw [← Option.some.inj h1]
    simp

/-! ## Their evaluation -/

theorem CHECKSIG_eq_checkSigs (d : Interpreter) (script : CScript) (vchPubKey vchSig : valtype) :
    CHECKSIG d OP_CHECKSIG script [vchPubKey, vchSig]
      = (checkSigs d (scriptCodeOf script [vchSig]) [vchSig] [vchPubKey]).map fun fSuccess =>
        [vchBool fSuccess] := by
  have hcode : scriptCodeOf script [vchSig] = CScript.FindAndDelete script (pushData vchSig) := rfl
  rw [hcode]
  unfold CHECKSIG checkSigs
  dsimp only
  by_cases henc : d.checkEncoding vchSig vchPubKey = true
  · rw [if_pos henc, if_pos henc]
    by_cases hsig : d.CheckSig vchSig vchPubKey (CScript.FindAndDelete script (pushData vchSig)) = true
    · rw [if_pos hsig, hsig]
      rfl
    · rw [if_neg hsig, Bool.eq_false_of_not_eq_true hsig]
      rfl
  · rw [if_neg henc, if_neg henc]
    rfl

theorem evalOps_CHECKSIG (d : Interpreter) (hcnt : nOpCount < nMaxOpCount) (script rest : CScript)
    (vchPubKey vchSig : valtype) :
    (evalOps d ⟨[vchPubKey, vchSig], [], [], nOpCount, script⟩ [⟨OP_CHECKSIG, [], rest⟩]).bind
        (fun s => if s.vfExec = [] then some s.stack else none)
      = (checkSigs d (scriptCodeOf script [vchSig]) [vchSig] [vchPubKey]).map fun fSuccess =>
        [vchBool fSuccess] := by
  have hstep : evalStep d OP_CHECKSIG [] rest ⟨[vchPubKey, vchSig], [], [], nOpCount, script⟩ =
      ((CHECKSIG d OP_CHECKSIG script [vchPubKey, vchSig]).map fun stack =>
        (⟨stack, [], [], nOpCount + 1, script⟩ : EvalState)).bind fun s =>
          if nMaxStackSize < s.stack.length + s.altstack.length then none else some s := by
    unfold evalStep
    rw [countOp_eq (by decide) (by decide) hcnt]
    rfl
  rw [evalOps_cons, hstep, CHECKSIG_eq_checkSigs]
  rcases checkSigs d (scriptCodeOf script [vchSig]) [vchSig] [vchPubKey] with _ | fSuccess
  · rfl
  · rfl

theorem Plain.evalScript_pubKey (hd : Plain d) {key : Instruction} (hkey : Pushes key 33 120)
    (hparsed : Parsed script [key, ⟨OP_CHECKSIG, [], rest⟩])
    (hsize : script.length ≤ nMaxScriptSize) (vchSig : valtype) :
    evalScript d [vchSig] script
      = (checkSigs d (scriptCodeOf script [vchSig]) [vchSig] [key.vch]).map fun fSuccess =>
        [vchBool fSuccess] := by
  have hshort : key.vch.length ≤ MAX_SCRIPT_ELEMENT_SIZE := le_trans hkey.most (by decide)
  have hpush : evalStep d key.opcode key.vch key.rest (startState [vchSig] script)
      = some ⟨[key.vch, vchSig], [], [], 0, script⟩ :=
    hd.evalStep_short hkey.opcode hshort _ rfl (by simp [startState, nMaxStackSize])
  rw [hparsed.evalScript hsize, evalOps_cons, hpush, Option.bind_some]
  exact evalOps_CHECKSIG d (by decide) script rest key.vch vchSig

theorem Plain.evalScript_pubKeyHash (hd : Plain d) {r1 r2 r4 : CScript} {hash : Instruction}
    (hhash : Pushes hash 20 20)
    (hparsed : Parsed script [⟨OP_DUP, [], r1⟩, ⟨OP_HASH160, [], r2⟩, hash,
      ⟨OP_EQUALVERIFY, [], r4⟩, ⟨OP_CHECKSIG, [], rest⟩])
    (hsize : script.length ≤ nMaxScriptSize) {vchPubKey : valtype}
    (hkey : d.HASH160 vchPubKey = hash.vch) (vchSig : valtype) :
    evalScript d [vchPubKey, vchSig] script
      = (checkSigs d (scriptCodeOf script [vchSig]) [vchSig] [vchPubKey]).map fun fSuccess =>
        [vchBool fSuccess] := by
  have hshort : hash.vch.length ≤ MAX_SCRIPT_ELEMENT_SIZE := le_trans hhash.most (by decide)
  have hpush : evalStep d hash.opcode hash.vch hash.rest
      ⟨[hash.vch, vchPubKey, vchSig], [], [], 2, script⟩
      = some ⟨[hash.vch, hash.vch, vchPubKey, vchSig], [], [], 2, script⟩ :=
    hd.evalStep_short hhash.opcode hshort _ rfl (by simp [nMaxStackSize])
  have hdup : evalStep d OP_DUP [] r1 (startState [vchPubKey, vchSig] script)
      = some ⟨[vchPubKey, vchPubKey, vchSig], [], [], 1, script⟩ := rfl
  have hhash160 : evalStep d OP_HASH160 [] r2 ⟨[vchPubKey, vchPubKey, vchSig], [], [], 1, script⟩
      = some ⟨[hash.vch, vchPubKey, vchSig], [], [], 2, script⟩ := by
    rw [← hkey]
    rfl
  have hequal : evalStep d OP_EQUALVERIFY [] r4
      ⟨[hash.vch, hash.vch, vchPubKey, vchSig], [], [], 2, script⟩
      = (pushResult true (hash.vch == hash.vch) [vchPubKey, vchSig]).bind fun stack =>
        if nMaxStackSize < stack.length then none else some ⟨stack, [], [], 3, script⟩ := by
    rw [beq_self_eq_true]
    have hop : evalOp d true OP_EQUALVERIFY r4
        ⟨[hash.vch, hash.vch, vchPubKey, vchSig], [], [], 3, script⟩
        = (pushResult true (hash.vch == hash.vch) [vchPubKey, vchSig]).map fun stack =>
          ⟨stack, [], [], 3, script⟩ := rfl
    rw [beq_self_eq_true] at hop
    have hstep : evalStep d OP_EQUALVERIFY [] r4
        ⟨[hash.vch, hash.vch, vchPubKey, vchSig], [], [], 2, script⟩
        = (evalOp d true OP_EQUALVERIFY r4
          ⟨[hash.vch, hash.vch, vchPubKey, vchSig], [], [], 3, script⟩).bind fun s =>
            if nMaxStackSize < s.stack.length + s.altstack.length then none else some s := rfl
    rw [hstep, hop]
    rfl
  rw [hparsed.evalScript hsize, evalOps_cons, hdup, Option.bind_some, evalOps_cons, hhash160,
    Option.bind_some, evalOps_cons, hpush, Option.bind_some, evalOps_cons, hequal, beq_self_eq_true]
  exact evalOps_CHECKSIG d (by decide) script rest vchPubKey vchSig

theorem exists_smallInteger (hlow : OP_1 ≤ opcode) (hhigh : opcode ≤ OP_16) :
    ∃ k : ℕ, k < 16 ∧ opcode = UInt8.ofNat (81 + k) := by
  have hlow' := UInt8.le_iff_toNat_le.mp hlow
  have hhigh' := UInt8.le_iff_toNat_le.mp hhigh
  have hone : OP_1.toNat = 81 := rfl
  have hsixteen : OP_16.toNat = 96 := rfl
  apply Exists.intro (opcode.toNat - 81)
  constructor
  · omega
  · rw [Nat.add_sub_cancel' (by omega), UInt8.ofNat_toNat]

theorem evalStep_smallInteger (d : Interpreter) (hlow : OP_1 ≤ opcode) (hhigh : opcode ≤ OP_16)
    (rest script : CScript) {stack : List valtype} (hroom : stack.length < nMaxStackSize) :
    evalStep d opcode [] rest ⟨stack, [], [], 0, script⟩
      = some ⟨d.getvch (d.keep (DecodeOP_N opcode).toNat) :: stack, [], [], 0, script⟩ := by
  have hstep : evalStep d opcode [] rest ⟨stack, [], [], 0, script⟩ =
      if nMaxStackSize < stack.length + 1 then none
      else some ⟨d.getvch (d.keep (DecodeOP_N opcode).toNat) :: stack, [], [], 0, script⟩ := by
    obtain ⟨k, hk, rfl⟩ := exists_smallInteger hlow hhigh
    interval_cases k <;> rfl
  rw [hstep, if_neg (by omega)]

/-- The arguments of a multisig check are found on the stack. -/
theorem Plain.multisigArgs_eq_some (hd : Plain d) {keys : List valtype} (hkeys : keys.length ≤ 16)
    (hpos : 1 ≤ sigs.length) (hsigs : sigs.length ≤ keys.length)
    (hcnt : nOpCount + 16 ≤ nMaxOpCount) (dummy : valtype) :
    multisigArgs d nOpCount (d.getvch (d.keep keys.length) :: (keys ++
        d.getvch (d.keep sigs.length) :: (sigs ++ [dummy])))
      = some ⟨keys, sigs, dummy, []⟩ := by
  obtain ⟨bnKeys, hbnKeys, hn⟩ := Option.map_eq_some_iff.mp (hd.count keys.length (by omega) hkeys)
  obtain ⟨bnSigs, hbnSigs, hm⟩ := Option.map_eq_some_iff.mp (hd.count sigs.length hpos (by omega))
  have hsnd : (d.getvch (d.keep keys.length) :: (keys ++
      d.getvch (d.keep sigs.length) :: (sigs ++ [dummy])))[1 + keys.length]?
      = some (d.getvch (d.keep sigs.length)) := by
    rw [Nat.add_comm, List.getElem?_cons_succ, List.getElem?_append_right le_rfl, Nat.sub_self]
    rfl
  have hdummy : (d.getvch (d.keep keys.length) :: (keys ++
      d.getvch (d.keep sigs.length) :: (sigs ++ [dummy])))[2 + keys.length + sigs.length]?
      = some dummy := by
    have hidx : 2 + keys.length + sigs.length = (keys.length + (1 + sigs.length)) + 1 := by omega
    rw [hidx, List.getElem?_cons_succ, List.getElem?_append_right (by omega),
      Nat.add_sub_cancel_left, Nat.add_comm, List.getElem?_cons_succ,
      List.getElem?_append_right le_rfl, Nat.sub_self]
    rfl
  have htakeKeys : ((d.getvch (d.keep keys.length) :: (keys ++
      d.getvch (d.keep sigs.length) :: (sigs ++ [dummy]))).drop 1).take keys.length = keys :=
    take_left
  have htakeSigs : ((d.getvch (d.keep keys.length) :: (keys ++
      d.getvch (d.keep sigs.length) :: (sigs ++ [dummy]))).drop (2 + keys.length)).take sigs.length
      = sigs := by
    have hidx : 2 + keys.length = (keys.length + 1) + 1 := by omega
    rw [hidx, List.drop_succ_cons, ← List.drop_drop, List.drop_left]
    exact take_left
  have hrest : (d.getvch (d.keep keys.length) :: (keys ++
      d.getvch (d.keep sigs.length) :: (sigs ++ [dummy]))).drop (3 + keys.length + sigs.length)
      = [] := by
    apply List.drop_eq_nil_of_le
    simp only [length_cons, length_append, List.length_nil]
    omega
  unfold multisigArgs
  rw [List.getElem?_cons_zero]
  dsimp only [Option.bind_eq_bind, Option.bind_some]
  rw [hbnKeys, Option.bind_some, hn, if_neg (by omega), Int.toNat_natCast, hsnd]
  dsimp only [Option.bind_some]
  rw [hbnSigs, Option.bind_some, hm, if_neg (by omega), Int.toNat_natCast, hdummy]
  rw [Option.bind_some, htakeKeys, htakeSigs, hrest]

/-- The script that asks for several signatures checks those that it is given, when there are as many
keys and signatures as it says. -/
theorem Plain.evalScript_multisig (hd : Plain d) {m n : Instruction} {keys : List Instruction}
    (hm : OP_1 ≤ m.opcode ∧ m.opcode ≤ OP_16 ∧ m.vch = [])
    (hn : OP_1 ≤ n.opcode ∧ n.opcode ≤ OP_16 ∧ n.vch = []) (hkeys : ∀ key ∈ keys, Pushes key 33 120)
    (hparsed : Parsed script (m :: (keys ++ [n, ⟨OP_CHECKMULTISIG, [], rest⟩])))
    (hsize : script.length ≤ nMaxScriptSize) (hpos : 1 ≤ sigs.length)
    (hsigs : (DecodeOP_N m.opcode).toNat = sigs.length)
    (hcnt : (DecodeOP_N n.opcode).toNat = keys.length) (hle : sigs.length ≤ keys.length)
    (hmost : keys.length ≤ 16) :
    evalScript d (sigs ++ [[]]) script
      = (checkSigs d (scriptCodeOf script sigs) sigs (keys.map Instruction.vch).reverse).map
        fun fSuccess => [vchBool fSuccess] := by
  have hstack : nMaxStackSize = 1000 := rfl
  set pubkeys := (keys.map Instruction.vch).reverse with hpubkeys
  have hlen : pubkeys.length = keys.length := by
    rw [hpubkeys, List.length_reverse, List.length_map]
  set nSigs := d.getvch (d.keep sigs.length) with hnSigs
  set nKeys := d.getvch (d.keep pubkeys.length) with hnKeys
  have hfst : evalStep d m.opcode m.vch m.rest (startState (sigs ++ [[]]) script)
      = some ⟨nSigs :: (sigs ++ [[]]), [], [], 0, script⟩ := by
    rw [hm.2.2, hnSigs, ← hsigs]
    apply evalStep_smallInteger d hm.1 hm.2.1
    rw [length_append, List.length_singleton]
    omega
  have hpush : evalOps d ⟨nSigs :: (sigs ++ [[]]), [], [], 0, script⟩ keys
      = some ⟨pubkeys ++ nSigs :: (sigs ++ [[]]), [], [], 0, script⟩ := by
    apply hd.evalOps_push _ rfl
    · simp only [length_cons, length_append, List.length_nil]
      omega
    · intro key hkey
      obtain ⟨hop, -, hlong⟩ := hkeys key hkey
      exact ⟨hop, le_trans hlong (by decide)⟩
  have hlast : evalStep d n.opcode n.vch n.rest ⟨pubkeys ++ nSigs :: (sigs ++ [[]]), [], [], 0, script⟩
      = some ⟨nKeys :: (pubkeys ++ nSigs :: (sigs ++ [[]])), [], [], 0, script⟩ := by
    rw [hn.2.2, hnKeys, hlen, ← hcnt]
    apply evalStep_smallInteger d hn.1 hn.2.1
    simp only [length_cons, length_append, List.length_nil]
    omega
  have hargs : multisigArgs d 1 (nKeys :: (pubkeys ++ nSigs :: (sigs ++ [[]])))
      = some ⟨pubkeys, sigs, [], []⟩ :=
    hd.multisigArgs_eq_some (by omega) hpos (by omega) (by decide) []
  have hchk : evalStep d OP_CHECKMULTISIG [] rest
      ⟨nKeys :: (pubkeys ++ nSigs :: (sigs ++ [[]])), [], [], 0, script⟩
      = (checkSigs d (scriptCodeOf script sigs) sigs pubkeys).map fun fSuccess =>
        ⟨[vchBool fSuccess], [], [], 1 + pubkeys.length, script⟩ := by
    change ((CHECKMULTISIG d OP_CHECKMULTISIG
      ⟨nKeys :: (pubkeys ++ nSigs :: (sigs ++ [[]])), [], [], 1, script⟩).bind fun s =>
        if nMaxStackSize < s.stack.length + s.altstack.length then none else some s) = _
    unfold CHECKMULTISIG
    rw [hargs]
    change (((checkSigs d (scriptCodeOf script sigs) sigs pubkeys).bind fun fSuccess =>
      if d.flags &&& SCRIPT_VERIFY_NULLDUMMY ≠ 0 ∧ ([] : valtype) ≠ [] then none
      else (pushResult false fSuccess []).bind fun stack =>
        some (⟨stack, [], [], 1 + pubkeys.length, script⟩ : EvalState)).bind fun s =>
          if nMaxStackSize < s.stack.length + s.altstack.length then none else some s) = _
    rcases checkSigs d (scriptCodeOf script sigs) sigs pubkeys with _ | fSuccess
    · rfl
    · dsimp only [Option.bind_some, Option.map_some]
      rw [if_neg fun h => h.2 rfl]
      rfl
  rw [hparsed.evalScript hsize, evalOps_cons, hfst, Option.bind_some, evalOps_append, hpush,
    Option.bind_some, evalOps_cons, hlast, Option.bind_some, evalOps_cons, hchk]
  rcases checkSigs d (scriptCodeOf script sigs) sigs pubkeys with _ | fSuccess
  · rfl
  · rfl

end ZalemCoin.Script
