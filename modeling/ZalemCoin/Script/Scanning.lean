import ZalemCoin.Chain.ConnectBlock
import ZalemCoin.Lib.Rounds
import ZalemCoin.Script.Templates

/-!
# Scanning a script with an iterator

`GetOp2` reads the operation at a position of a script and moves the position, whether it reads an
operation or fails. The loops that go through a script with it are run for a number of rounds here, and
more rounds than the script has bytes are enough. `FindAndDelete` erases from the script that it goes
through: what it leaves is what the script falls into without the erased parts, and it returns how many
these are.
-/

namespace ZalemCoin.Script.Scanning

open Chain
open Lib (Round runLoop runLoop_spec runLoop_of_decreasing)
open List (length_drop length_append drop_left drop_drop append_assoc)

/-! ## Reading at a position -/

/-- What `GetOp2` returns, and what it leaves in its arguments. -/
structure ReadResult where
  fRet : Bool
  pc : ℕ
  opcodeRet : UInt8
  vchRet : valtype
deriving DecidableEq

/-- Reads the operation at a position of a script. The bytes that are left are compared with a size as
an unsigned 32-bit number. -/
def GetOp2 (script : CScript) (pc : ℕ) : ReadResult :=
  match script.drop pc with
  | [] => ⟨false, pc, OP_INVALIDOPCODE, []⟩
  | opcode :: rest =>
    if opcode ≤ OP_PUSHDATA4 then
      match pushSize opcode rest with
      | none => ⟨false, pc + 1, OP_INVALIDOPCODE, []⟩
      | some (nSize, data) =>
        let pc := pc + 1 + (rest.length - data.length)
        if data.length % 2 ^ 32 < nSize then ⟨false, pc, OP_INVALIDOPCODE, []⟩
        else ⟨true, pc + nSize, opcode, data.take nSize⟩
    else ⟨true, pc + 1, opcode, []⟩

theorem getOp2_drop (script : CScript) (pc : ℕ) :
    GetOp2 script pc
      = { GetOp2 (script.drop pc) 0 with pc := pc + (GetOp2 (script.drop pc) 0).pc } := by
  unfold GetOp2
  rw [List.drop_zero]
  split
  · rfl
  · split_ifs
    · split
      · rfl
      · dsimp only
        split_ifs
        · simp only [ReadResult.mk.injEq, true_and, and_true]
          omega
        · simp only [ReadResult.mk.injEq, true_and, and_true]
          omega
    · rfl

variable {script b : CScript} {pc rounds : ℕ} {r : FindState} {fuel : ℕ}

theorem getOp2_end (h : script.length ≤ pc) :
    GetOp2 script pc = ⟨false, pc, OP_INVALIDOPCODE, []⟩ := by
  unfold GetOp2
  rw [List.drop_eq_nil_of_le h]

theorem getOp2_advances {pc : ℕ} (h : pc < script.length) :
    pc < (GetOp2 script pc).pc ∧ (GetOp2 script pc).pc ≤ script.length := by
  have hlen : (script.drop pc).length = script.length - pc := length_drop
  unfold GetOp2
  rcases hdrop : script.drop pc with _ | ⟨opcode, rest⟩
  · rw [hdrop, List.length_nil] at hlen
    omega
  · rw [hdrop, List.length_cons] at hlen
    dsimp only
    split_ifs with hpush
    · rcases hsize : pushSize opcode rest with _ | ⟨nSize, data⟩
      · exact ⟨Nat.lt_succ_self pc, h⟩
      · obtain ⟨sizes, rfl, -, -⟩ := pushSize_eq_some hsize
        rw [length_append] at hlen ⊢
        -- the number that is compared is at most the number of bytes that are left
        dsimp only
        split_ifs with hshort
        · exact ⟨by dsimp only; omega, by dsimp only; omega⟩
        · exact ⟨by dsimp only; omega, by dsimp only; omega⟩
    · exact ⟨Nat.lt_succ_self pc, h⟩

theorem getOp2_pushData (script : CScript) {b : valtype} (hb : b.length < 2 ^ 32) :
    ∃ opcode, opcode ≤ OP_PUSHDATA4 ∧ GetOp2 (script ++ pushData b) script.length
      = ⟨true, (script ++ pushData b).length, opcode, b⟩ := by
  obtain ⟨opcode, sizes, hpush, hdata, hsize⟩ := pushData_eq hb
  apply Exists.intro opcode
  constructor
  · exact hpush
  · unfold GetOp2
    rw [drop_left, hdata]
    dsimp only
    rw [if_pos hpush, hsize]
    dsimp only
    rw [if_neg (by rw [Nat.mod_eq_of_lt hb]; omega), List.take_length]
    simp only [ReadResult.mk.injEq, length_append, List.length_cons, true_and, and_true]
    omega

/-- In a script of less than four gigabytes, an operation is read as from the list of the bytes that
are left. -/
theorem getOp2_eq_getOp {rest : CScript} {opcode : UInt8} (h : script.length < 2 ^ 32)
    (hdrop : script.drop pc = opcode :: rest) :
    (GetOp2 script pc).fRet = (GetOp opcode rest).opcode.isSome ∧
      (GetOp2 script pc).opcodeRet = (GetOp opcode rest).opcode.getD OP_INVALIDOPCODE ∧
      (GetOp2 script pc).vchRet = (GetOp opcode rest).data ∧
      script.drop (GetOp2 script pc).pc = (GetOp opcode rest).rest := by
  have hlen : (script.drop pc).length = script.length - pc := length_drop
  rw [hdrop, List.length_cons] at hlen
  have hnext : script.drop (pc + 1) = rest := by
    rw [← drop_drop, hdrop]
    rfl
  unfold GetOp2 GetOp
  rw [hdrop]
  dsimp only
  split_ifs with hpush
  · rcases hsize : pushSize opcode rest with _ | ⟨nSize, data⟩
    · exact ⟨rfl, rfl, rfl, hnext⟩
    · obtain ⟨sizes, rfl, -, -⟩ := pushSize_eq_some hsize
      rw [length_append] at hlen
      have hdata : script.drop (pc + 1 + ((sizes ++ data).length - data.length)) = data := by
        rw [← drop_drop, hnext, length_append, Nat.add_sub_cancel, drop_left]
      dsimp only
      rw [Nat.mod_eq_of_lt (by omega)]
      split_ifs with hshort
      · exact ⟨rfl, rfl, rfl, hdata⟩
      · refine ⟨rfl, rfl, rfl, ?_⟩
        dsimp only
        rw [← drop_drop, hdata]
  · exact ⟨rfl, rfl, rfl, hnext⟩

theorem getOp2_eq_readInstruction (h : script.length < 2 ^ 32) (pc : ℕ) :
    (GetOp2 script pc).fRet = (readInstruction (script.drop pc)).isSome ∧
      ∀ op, readInstruction (script.drop pc) = some op →
        (GetOp2 script pc).opcodeRet = op.opcode ∧ script.drop (GetOp2 script pc).pc = op.rest := by
  rcases hdrop : script.drop pc with _ | ⟨opcode, rest⟩
  · rw [getOp2_end (List.drop_eq_nil_iff.mp hdrop)]
    exact ⟨rfl, fun op hop => nomatch hop⟩
  · obtain ⟨hret, hopcode, -, hrest⟩ := getOp2_eq_getOp h hdrop
    constructor
    · rw [hret]
      unfold readInstruction
      rw [Option.isSome_map]
    · intro op hop
      obtain ⟨read, hread, rfl⟩ := Option.map_eq_some_iff.mp hop
      rw [hopcode, hrest, hread]
      exact ⟨rfl, rfl⟩

/-! ## IsPushOnly -/

/-- A round of the loop of `IsPushOnly`, at a position of the script. -/
def isPushOnlyRound (script : CScript) (pc : ℕ) : Round ℕ Bool :=
  if pc < script.length then
    let op := GetOp2 script pc
    if !op.fRet then .done false
    else if OP_16 < op.opcodeRet then .done false
    else .next op.pc
  else .done true

def IsPushOnly (rounds : ℕ) (script : CScript) : Option Bool :=
  runLoop (isPushOnlyRound script) rounds 0

theorem isPushOnlyRound_next {pc' : ℕ} (h : isPushOnlyRound script pc = .next pc') :
    pc < script.length ∧ (GetOp2 script pc).fRet = true ∧ (GetOp2 script pc).opcodeRet ≤ OP_16 ∧
      pc' = (GetOp2 script pc).pc := by
  unfold isPushOnlyRound at h
  dsimp only at h
  split_ifs at h with hpc hret hop
  cases h
  exact ⟨hpc, by simpa using hret, UInt8.not_lt.mp hop, rfl⟩

theorem isPushOnly_ends (h : script.length < rounds) : ∃ r, IsPushOnly rounds script = some r := by
  apply @runLoop_of_decreasing _ _ (isPushOnlyRound script) rounds 0 (fun _ => True)
    (fun pc => script.length - pc)
  · intro pc pc' _ hrnd
    obtain ⟨hpc, -, -, rfl⟩ := isPushOnlyRound_next hrnd
    have hadvances := getOp2_advances hpc
    exact ⟨trivial, by omega⟩
  · exact trivial
  · exact h

theorem isPushOnly_eq (h : script.length < 2 ^ 32) {r : Bool}
    (hr : IsPushOnly rounds script = some r) : r = CScript.IsPushOnly script := by
  -- from any position on, with as many operations as there may be behind it
  have hpos : ∀ fuel, script.length - 0 ≤ fuel → r = isPushOnlyLoop fuel (script.drop 0) := by
    apply @runLoop_spec _ _ (isPushOnlyRound script) rounds 0 r
      (fun pc r => ∀ fuel, script.length - pc ≤ fuel → r = isPushOnlyLoop fuel (script.drop pc))
    · intro pc r hrnd fuel hfuel
      unfold isPushOnlyRound at hrnd
      dsimp only at hrnd
      by_cases hpc : pc < script.length
      · rw [if_pos hpc] at hrnd
        obtain ⟨k, rfl⟩ : ∃ k, fuel = k + 1 := ⟨fuel - 1, by omega⟩
        obtain ⟨hsome, hop⟩ := getOp2_eq_readInstruction h pc
        rw [List.drop_eq_getElem_cons hpc] at hsome hop ⊢
        unfold isPushOnlyLoop
        rcases hread : readInstruction (script[pc] :: script.drop (pc + 1)) with _ | op
        · rw [hread] at hsome
          rw [hsome] at hrnd
          exact (Round.done.inj hrnd).symm
        · rw [hread] at hsome
          rw [hsome, (hop op hread).1] at hrnd
          dsimp only
          by_cases hhigh : OP_16 < op.opcode
          · rw [if_neg (by simp), if_pos hhigh] at hrnd
            rw [decide_eq_false (UInt8.not_le.mpr hhigh), Bool.false_and]
            exact (Round.done.inj hrnd).symm
          · rw [if_neg (by simp), if_neg hhigh] at hrnd
            cases hrnd
      · rw [if_neg hpc] at hrnd
        rw [List.drop_eq_nil_of_le (by omega)]
        cases fuel <;> exact (Round.done.inj hrnd).symm
    · intro pc pc' r hrnd hrest fuel hfuel
      obtain ⟨hpc, hret, hopcode, rfl⟩ := isPushOnlyRound_next hrnd
      obtain ⟨k, rfl⟩ : ∃ k, fuel = k + 1 := ⟨fuel - 1, by omega⟩
      obtain ⟨hsome, hop⟩ := getOp2_eq_readInstruction h pc
      have hadvances := getOp2_advances hpc
      have hrest' := hrest k (by omega)
      rw [hret] at hsome
      obtain ⟨op, hread⟩ := Option.isSome_iff_exists.mp hsome.symm
      obtain ⟨hop1, hop2⟩ := hop op hread
      rw [List.drop_eq_getElem_cons hpc] at hread ⊢
      unfold isPushOnlyLoop
      rw [hread]
      dsimp only
      rw [← hop1, ← hop2, decide_eq_true hopcode, Bool.true_and]
      exact hrest'
    · exact hr
  exact hpos script.length (Nat.sub_le _ _)

/-! ## BuildAddrIndex -/

/-- What the loop of `BuildAddrIndex` goes on with. -/
structure AddrIndexState where
  pc : ℕ
  addrIds : List UInt160
  fHaveData : Bool

def addridOf (Hash160 : valtype → UInt160) (data : valtype) : UInt160 :=
  if data.length ≤ 20 then BitVec.ofNat 160 (data.foldr (fun b n => b.toNat + 256 * n) 0)
  else Hash160 data

/-- A round of the loop of `BuildAddrIndex`. It does not look at what `GetOp` returns. -/
def addrIndexRound (Hash160 : valtype → UInt160) (script : CScript) (s : AddrIndexState) :
    Round AddrIndexState AddrIndexState :=
  if s.pc < script.length then
    let op := GetOp2 script s.pc
    if op.opcodeRet ≤ OP_PUSHDATA4 ∧ 8 ≤ op.vchRet.length then
      .next ⟨op.pc, s.addrIds ++ [addridOf Hash160 op.vchRet], true⟩
    else .next { s with pc := op.pc }
  else .done s

def BuildAddrIndex (Hash160 : valtype → UInt160) (rounds : ℕ) (script : CScript)
    (addrIds : List UInt160) : Option (Bool × List UInt160) := do
  let s ← runLoop (addrIndexRound Hash160 script) rounds ⟨0, addrIds, false⟩
  if !s.fHaveData then some (true, s.addrIds ++ [Hash160 script])
  else some (decide (0 < s.addrIds.length), s.addrIds)

theorem addrIndexRound_next {Hash160 : valtype → UInt160} {s t : AddrIndexState}
    (h : addrIndexRound Hash160 script s = .next t) :
    s.pc < script.length ∧ t.pc = (GetOp2 script s.pc).pc := by
  unfold addrIndexRound at h
  dsimp only at h
  split_ifs at h with hpc hdata
  · cases h
    exact ⟨hpc, rfl⟩
  · cases h
    exact ⟨hpc, rfl⟩

theorem buildAddrIndex_ends (Hash160 : valtype → UInt160) (h : script.length < rounds)
    (addrIds : List UInt160) : ∃ r, BuildAddrIndex Hash160 rounds script addrIds = some r := by
  have hloop : ∃ s, runLoop (addrIndexRound Hash160 script) rounds ⟨0, addrIds, false⟩ = some s := by
    apply @runLoop_of_decreasing _ _ (addrIndexRound Hash160 script) rounds _ (fun _ => True)
      (fun s => script.length - s.pc)
    · intro s t _ hrnd
      obtain ⟨hpc, hnext⟩ := addrIndexRound_next hrnd
      have hadvances := getOp2_advances hpc
      exact ⟨trivial, by omega⟩
    · exact trivial
    · exact h
  obtain ⟨s, hs⟩ := hloop
  unfold BuildAddrIndex
  rw [hs]
  dsimp only [Option.bind_eq_bind, Option.bind_some]
  split_ifs
  · exact ⟨_, rfl⟩
  · exact ⟨_, rfl⟩

/-- The rounds over the iterator collect what the list function does. -/
theorem addrIndexRound_eq (ctx : Context) (h : script.length < 2 ^ 32) {s r : AddrIndexState}
    (hr : runLoop (addrIndexRound ctx.hash160 script) rounds s = some r) :
    ∀ fuel, script.length - s.pc ≤ fuel →
      r.addrIds = s.addrIds ++ addrIdsLoop ctx fuel (script.drop s.pc) ∧
        r.fHaveData = (s.fHaveData || !(addrIdsLoop ctx fuel (script.drop s.pc)).isEmpty) := by
  apply @runLoop_spec _ _ (addrIndexRound ctx.hash160 script) rounds s r
    (fun s r => ∀ fuel, script.length - s.pc ≤ fuel →
      r.addrIds = s.addrIds ++ addrIdsLoop ctx fuel (script.drop s.pc) ∧
        r.fHaveData = (s.fHaveData || !(addrIdsLoop ctx fuel (script.drop s.pc)).isEmpty))
  · intro s r hrnd fuel hfuel
    unfold addrIndexRound at hrnd
    dsimp only at hrnd
    split_ifs at hrnd with hpc
    cases hrnd
    rw [List.drop_eq_nil_of_le (by omega)]
    cases fuel <;> simp [addrIdsLoop]
  · intro s t r hrnd hrest fuel hfuel
    obtain ⟨hpc, hnext⟩ := addrIndexRound_next hrnd
    have hadvances := getOp2_advances hpc
    obtain ⟨k, rfl⟩ : ∃ k, fuel = k + 1 := ⟨fuel - 1, by omega⟩
    obtain ⟨hids, hdata⟩ := hrest k (by omega)
    have hdrop := List.drop_eq_getElem_cons hpc
    obtain ⟨-, hop, hvch, hleft⟩ := getOp2_eq_getOp h hdrop
    rw [hnext, hleft] at hids hdata
    unfold addrIndexRound at hrnd
    dsimp only at hrnd
    rw [if_pos hpc, hop, hvch] at hrnd
    rw [hdrop]
    unfold addrIdsLoop
    dsimp only
    rcases hread : (GetOp script[s.pc] (script.drop (s.pc + 1))).opcode with _ | opcode
    · -- a read that fails leaves an operation that does not push
      rw [hread, if_neg (fun hpush => absurd hpush.1 (by decide))] at hrnd
      cases hrnd
      exact ⟨hids, hdata⟩
    · rw [hread, Option.getD_some] at hrnd
      dsimp only
      by_cases hpush : opcode ≤ OP_PUSHDATA4 ∧
          8 ≤ (GetOp script[s.pc] (script.drop (s.pc + 1))).data.length
      · rw [if_pos hpush] at hrnd ⊢
        cases hrnd
        rw [append_assoc] at hids
        refine ⟨hids, ?_⟩
        rw [hdata]
        simp
      · rw [if_neg hpush] at hrnd ⊢
        cases hrnd
        exact ⟨hids, hdata⟩
  · exact hr

theorem buildAddrIndex_eq (ctx : Context) (h : script.length < 2 ^ 32) {r : Bool × List UInt160}
    (hr : BuildAddrIndex ctx.hash160 rounds script [] = some r) :
    r = (true, Chain.BuildAddrIndex ctx script) := by
  obtain ⟨s, hs, hr⟩ := Option.bind_eq_some_iff.mp hr
  obtain ⟨hids, hdata⟩ := addrIndexRound_eq ctx h hs script.length (Nat.sub_le _ _)
  rw [List.drop_zero] at hids hdata
  unfold Chain.BuildAddrIndex
  rcases hloop : addrIdsLoop ctx script.length script with _ | ⟨addrid, addrIds⟩
  · rw [hloop] at hids hdata
    rw [hids, hdata] at hr
    exact (Option.some.inj hr).symm
  · rw [hloop] at hids hdata
    rw [hids, hdata] at hr
    exact (Option.some.inj hr).symm

/-! ## FindAndDelete -/

/-- What the loops of `FindAndDelete` go on with: the script as it is by now, the iterator, and the
number of the occurrences that are erased. -/
structure FindState where
  script : CScript
  pc : ℕ
  nFound : Int32

/-- One test of the two loops of `FindAndDelete`. The inner one erases an occurrence where the iterator
stands, and when there is none, the outer one reads an operation. -/
def findRound (b : CScript) (s : FindState) : Round FindState FindState :=
  if b.length ≤ s.script.length - s.pc ∧ (s.script.drop s.pc).take b.length = b then
    .next { s with
      script := s.script.take s.pc ++ s.script.drop (s.pc + b.length)
      nFound := s.nFound + 1 }
  else
    let op := GetOp2 s.script s.pc
    if op.fRet then .next { s with pc := op.pc } else .done { s with pc := op.pc }

def FindAndDelete (rounds : ℕ) (script b : CScript) : Option FindState :=
  if b = [] then some ⟨script, 0, 0⟩ else runLoop (findRound b) rounds ⟨script, 0, 0⟩

theorem occurs_iff {s : FindState} :
    (b.length ≤ s.script.length - s.pc ∧ (s.script.drop s.pc).take b.length = b)
      ↔ b <+: s.script.drop s.pc := by
  rw [List.prefix_iff_eq_take]
  constructor
  · intro h
    exact h.2.symm
  · intro h
    have hlen := congrArg List.length h
    rw [List.length_take, length_drop] at hlen
    exact ⟨by omega, h.symm⟩

theorem findAndDelete_ends (h : script.length < rounds) (b : CScript) :
    ∃ r, FindAndDelete rounds script b = some r := by
  unfold FindAndDelete
  split_ifs with hb
  · exact ⟨_, rfl⟩
  · apply @runLoop_of_decreasing _ _ (findRound b) rounds _ (fun _ => True)
      (fun s => s.script.length - s.pc)
    · intro s t _ hrnd
      have hpos := List.length_pos_iff.mpr hb
      unfold findRound at hrnd
      dsimp only at hrnd
      split_ifs at hrnd with hoccurs hret
      · cases hrnd
        refine ⟨trivial, ?_⟩
        dsimp only
        rw [length_append, List.length_take, length_drop]
        omega
      · cases hrnd
        have hpc : s.pc < s.script.length := by
          by_contra hend
          rw [getOp2_end (by omega)] at hret
          cases hret
        have hadvances := getOp2_advances hpc
        refine ⟨trivial, ?_⟩
        dsimp only
        omega
    · exact trivial
    · exact h

/-- A part of a script that is gone through: an occurrence that is removed, or an operation with its
data. -/
inductive Segment
  | removed
  | kept (op : CScript)

def keptText (segs : List Segment) : CScript :=
  segs.flatMap fun
    | .removed => []
    | .kept op => op

def removedCount : List Segment → ℕ
  | [] => 0
  | .removed :: segs => removedCount segs + 1
  | .kept _ :: segs => removedCount segs

/-- How a script falls apart: an occurrence of `b` is removed wherever an operation is due, an operation
is kept where there is none, and what cannot be read is the tail. -/
inductive Cuts (b : CScript) : CScript → List Segment → CScript → Prop
  | tail {script : CScript} : ¬b <+: script → (GetOp2 script 0).fRet = false →
    Cuts b script [] script
  | removed {rest tail : CScript} {segs : List Segment} : Cuts b rest segs tail →
    Cuts b (b ++ rest) (.removed :: segs) tail
  | kept {op rest tail : CScript} {segs : List Segment} : ¬b <+: op ++ rest →
    (GetOp2 (op ++ rest) 0).fRet = true → (GetOp2 (op ++ rest) 0).pc = op.length →
    Cuts b rest segs tail → Cuts b (op ++ rest) (.kept op :: segs) tail

theorem Cuts.unique {tail tail' : CScript} {segs segs' : List Segment} (h : Cuts b script segs tail)
    (h' : Cuts b script segs' tail') : segs = segs' ∧ tail = tail' := by
  induction h generalizing segs' with
  | tail hno hret =>
    cases h' with
    | tail _ _ => exact ⟨rfl, rfl⟩
    | removed _ => exact absurd (List.prefix_append b _) hno
    | kept _ hret' _ _ => rw [hret] at hret'; cases hret'
  | @removed rest tail segs _ ih =>
    generalize hscr : b ++ rest = script at h'
    cases h' with
    | tail hno _ => exact absurd (hscr ▸ List.prefix_append b rest) hno
    | removed h' =>
      obtain rfl := List.append_cancel_left hscr
      obtain ⟨hsegs, htail⟩ := ih h'
      rw [hsegs]
      exact ⟨rfl, htail⟩
    | kept hno _ _ _ => exact absurd (hscr ▸ List.prefix_append b rest) hno
  | @kept op rest tail segs hno hret hpc _ ih =>
    generalize hscr : op ++ rest = script at h'
    cases h' with
    | tail _ hret' =>
      rw [hscr, hret'] at hret
      cases hret
    | removed _ => exact absurd (hscr ▸ List.prefix_append b _) hno
    | kept _ _ hpc' h' =>
      -- both operations are as long as what is read
      have hlen := hpc.symm.trans ((congrArg (fun script => (GetOp2 script 0).pc) hscr).trans hpc')
      obtain ⟨rfl, rfl⟩ := List.append_inj hscr hlen
      obtain ⟨hsegs, htail⟩ := ih h'
      rw [hsegs]
      exact ⟨rfl, htail⟩

theorem findRound_cuts (hb : b ≠ []) {s : FindState} (h : runLoop (findRound b) rounds s = some r) :
    ∃ segs tail, Cuts b (s.script.drop s.pc) segs tail ∧
      r.script = s.script.take s.pc ++ (keptText segs ++ tail) ∧
      r.nFound = s.nFound + Int32.ofNat (removedCount segs) := by
  apply @runLoop_spec _ _ (findRound b) rounds s r
    (fun s r => ∃ segs tail, Cuts b (s.script.drop s.pc) segs tail ∧
      r.script = s.script.take s.pc ++ (keptText segs ++ tail) ∧
      r.nFound = s.nFound + Int32.ofNat (removedCount segs))
  · intro s r hrnd
    unfold findRound at hrnd
    dsimp only at hrnd
    split_ifs at hrnd with hoccurs hret
    cases hrnd
    rw [occurs_iff] at hoccurs
    have hfail : (GetOp2 (s.script.drop s.pc) 0).fRet = false := by
      rw [getOp2_drop] at hret
      exact Bool.eq_false_iff.mpr hret
    refine ⟨[], s.script.drop s.pc, Cuts.tail hoccurs hfail, ?_, ?_⟩
    · exact (List.take_append_drop _ _).symm
    · exact (Int32.add_zero _).symm
  · intro s t r hrnd ⟨segs, tail, hcuts, hscr, hfound⟩
    unfold findRound at hrnd
    dsimp only at hrnd
    split_ifs at hrnd with hoccurs hret
    · -- the script from the iterator on has lost the occurrence
      cases hrnd
      have hpc : s.pc ≤ s.script.length := by
        have hpos := List.length_pos_iff.mpr hb
        omega
      have hbef : (s.script.take s.pc).length = s.pc := List.length_take_of_le hpc
      obtain ⟨rest, hrest⟩ := occurs_iff.mp hoccurs
      have hdrop : s.script.drop (s.pc + b.length) = rest := by
        rw [← drop_drop, ← hrest, drop_left]
      dsimp only at hcuts hscr hfound
      rw [List.drop_left' hbef, hdrop] at hcuts
      rw [List.take_left' hbef] at hscr
      refine ⟨.removed :: segs, tail, hrest ▸ Cuts.removed hcuts, hscr, ?_⟩
      rw [hfound, Int32.add_assoc, removedCount, Int32.ofNat_add, Int32.add_comm 1]
      rfl
    · cases hrnd
      rw [occurs_iff] at hoccurs
      have hpc : s.pc < s.script.length := by
        by_contra hend
        rw [getOp2_end (by omega)] at hret
        cases hret
      rw [getOp2_drop] at hret hcuts hscr
      -- the operation is what is read of the script from the iterator on
      have hfit : (GetOp2 (s.script.drop s.pc) 0).pc ≤ (s.script.drop s.pc).length := by
        refine (getOp2_advances ?_).2
        rw [length_drop]
        omega
      generalize hk : (GetOp2 (s.script.drop s.pc) 0).pc = k at hfit hcuts hscr
      rw [← drop_drop] at hcuts
      have hkept := @Cuts.kept b ((s.script.drop s.pc).take k) ((s.script.drop s.pc).drop k) tail segs
      rw [List.take_append_drop, List.length_take_of_le hfit] at hkept
      refine ⟨_, tail, hkept hoccurs hret hk hcuts, ?_, hfound⟩
      rw [hscr, List.take_add, append_assoc, keptText, keptText, List.flatMap_cons, append_assoc]
  · exact h

theorem findAndDelete_cuts (hb : b ≠ []) (h : FindAndDelete rounds script b = some r) :
    ∃ segs tail, Cuts b script segs tail ∧ r.script = keptText segs ++ tail ∧
      r.nFound = Int32.ofNat (removedCount segs) := by
  unfold FindAndDelete at h
  rw [if_neg hb] at h
  obtain ⟨segs, tail, hcuts, hscr, hfound⟩ := findRound_cuts hb h
  rw [Int32.zero_add] at hfound
  exact ⟨segs, tail, hcuts, hscr, hfound⟩

/-! ### The loops on lists -/

theorem not_prefix_erasePrefix (hb : b ≠ []) (h : script.length ≤ fuel) :
    ¬b <+: erasePrefix b fuel script := by
  have hpos := List.length_pos_iff.mpr hb
  induction fuel generalizing script with
  | zero =>
    intro hno
    have hle := hno.length_le
    unfold erasePrefix at hle
    omega
  | succ fuel ih =>
    unfold erasePrefix
    split_ifs with hoccurs
    · have hle := (List.isPrefixOf_iff_prefix.mp hoccurs).length_le
      refine ih ?_
      rw [length_drop]
      omega
    · exact fun hno => hoccurs (List.isPrefixOf_iff_prefix.mpr hno)

theorem length_erasePrefix_le (b : CScript) (fuel : ℕ) (script : CScript) :
    (erasePrefix b fuel script).length ≤ script.length := by
  induction fuel generalizing script with
  | zero => exact le_rfl
  | succ fuel ih =>
    unfold erasePrefix
    split_ifs
    · calc (erasePrefix b fuel (script.drop b.length)).length
          ≤ (script.drop b.length).length := ih _
        _ ≤ script.length := by rw [length_drop]; omega
    · exact le_rfl

theorem cuts_of_erasePrefix {b left : CScript}
    (h : ∃ segs tail, Cuts b (erasePrefix b fuel script) segs tail ∧ left = keptText segs ++ tail) :
    ∃ segs tail, Cuts b script segs tail ∧ left = keptText segs ++ tail := by
  induction fuel generalizing script with
  | zero => exact h
  | succ fuel ih =>
    unfold erasePrefix at h
    split_ifs at h with hoccurs
    · obtain ⟨segs, tail, hcuts, hleft⟩ := ih h
      obtain ⟨rest, rfl⟩ := List.isPrefixOf_iff_prefix.mp hoccurs
      rw [drop_left] at hcuts
      exact ⟨.removed :: segs, tail, Cuts.removed hcuts, hleft⟩
    · exact h

theorem findAndDeleteLoop_cuts (hb : b ≠ []) (hshort : script.length < 2 ^ 32)
    (hfuel : script.length < fuel) :
    ∃ segs tail, Cuts b script segs tail ∧
      findAndDeleteLoop b fuel script = keptText segs ++ tail := by
  induction fuel generalizing script with
  | zero => omega
  | succ fuel ih =>
    unfold findAndDeleteLoop
    dsimp only
    refine @cuts_of_erasePrefix script script.length b _ ?_
    have hno := not_prefix_erasePrefix hb (le_refl script.length)
    have hle := length_erasePrefix_le b script.length script
    generalize erasePrefix b script.length script = left at hno hle
    obtain ⟨hsome, hop⟩ := @getOp2_eq_readInstruction left (by omega) 0
    rw [List.drop_zero] at hsome hop
    rcases hread : readInstruction left with _ | op
    · rw [hread] at hsome
      exact ⟨[], left, Cuts.tail hno hsome, rfl⟩
    · rw [hread] at hsome
      have hshorter := length_readInstruction hread
      have hpc := (@getOp2_advances left 0 (by omega)).2
      have hrest := (hop op hread).2
      -- the operation is all that stands before the rest
      have hlen := congrArg List.length hrest
      rw [length_drop] at hlen
      have hhead : left.length - op.rest.length = (GetOp2 left 0).pc := by omega
      obtain ⟨segs, tail, hcuts, hloop⟩ := @ih op.rest (by omega) (by omega)
      have hkept := @Cuts.kept b (left.take (GetOp2 left 0).pc) (left.drop (GetOp2 left 0).pc) tail segs
      rw [List.take_append_drop, List.length_take_of_le hpc, hrest] at hkept
      refine ⟨_, tail, hkept hno hsome rfl hcuts, ?_⟩
      dsimp only
      rw [hloop, hhead, keptText, keptText, List.flatMap_cons, append_assoc]

/-- On a script of less than four gigabytes, `FindAndDelete` leaves what the evaluation takes it to
leave. -/
theorem findAndDelete_eq (hshort : script.length < 2 ^ 32)
    (h : FindAndDelete rounds script b = some r) : r.script = CScript.FindAndDelete script b := by
  unfold CScript.FindAndDelete
  split_ifs with hb
  · unfold FindAndDelete at h
    rw [if_pos hb] at h
    exact (congrArg FindState.script (Option.some.inj h)).symm
  · obtain ⟨segs, tail, hcuts, hscr, -⟩ := findAndDelete_cuts hb h
    obtain ⟨segs', tail', hcuts', hloop⟩ :=
      findAndDeleteLoop_cuts hb hshort (Nat.lt_succ_self script.length)
    obtain ⟨rfl, rfl⟩ := hcuts.unique hcuts'
    exact hscr.trans hloop.symm

/-! ## Pushing and scanning -/

/-- Data that is pushed is read back, and the read ends at the end of the push. A read before the end of
a script moves the iterator. The loops that scan a script end, and `FindAndDelete` returns the number of
the occurrences that it removes, leaves everything else, and changes nothing for an empty script. -/
theorem push_and_scan :
    (∀ script b : CScript, b.length < 2 ^ 32 →
      (GetOp2 (script ++ pushData b) script.length).fRet = true ∧
        (GetOp2 (script ++ pushData b) script.length).vchRet = b ∧
        (GetOp2 (script ++ pushData b) script.length).pc = (script ++ pushData b).length) ∧
    (∀ (script : CScript) (pc : ℕ), pc < script.length →
      pc < (GetOp2 script pc).pc ∧ (GetOp2 script pc).pc ≤ script.length) ∧
    (∀ (script : CScript) (rounds : ℕ), script.length < rounds →
      (∃ r, IsPushOnly rounds script = some r) ∧
        ∀ Hash160 addrIds, ∃ r, BuildAddrIndex Hash160 rounds script addrIds = some r) ∧
    ∀ (script b : CScript) (rounds : ℕ), script.length < rounds →
      ∃ r, FindAndDelete rounds script b = some r ∧ (b = [] → r.script = script ∧ r.nFound = 0) ∧
        (b ≠ [] → ∃ segs tail, Cuts b script segs tail ∧ r.script = keptText segs ++ tail ∧
          r.nFound = Int32.ofNat (removedCount segs)) := by
  refine ⟨?_, ?_, ?_, ?_⟩
  · intro script b hb
    obtain ⟨opcode, -, hread⟩ := getOp2_pushData script hb
    rw [hread]
    exact ⟨rfl, rfl, rfl⟩
  · intro script pc hpc
    exact getOp2_advances hpc
  · intro script rounds hrounds
    constructor
    · exact isPushOnly_ends hrounds
    · intro Hash160 addrIds
      exact buildAddrIndex_ends Hash160 hrounds addrIds
  · intro script b rounds hrounds
    obtain ⟨r, hr⟩ := findAndDelete_ends hrounds b
    refine ⟨r, hr, ?_, ?_⟩
    · rintro rfl
      cases hr
      exact ⟨rfl, rfl⟩
    · intro hb
      exact findAndDelete_cuts hb hr

/-- Two bytes are pushed behind an operation and read back, a push whose size is cut off still moves the
iterator, and two occurrences are removed around a third operation. -/
theorem push_and_scan_short :
    (GetOp2 ([OP_NOP] ++ pushData [7, 8]) 1).vchRet = [7, 8] ∧ 0 < (GetOp2 [OP_PUSHDATA2, 1] 0).pc ∧
      (∃ r, IsPushOnly 3 [OP_PUSHDATA2, 1] = some r) ∧
      ∃ r segs tail, FindAndDelete 4 [OP_NOP, OP_DUP, OP_NOP] [OP_NOP] = some r ∧
        Cuts [OP_NOP] [OP_NOP, OP_DUP, OP_NOP] segs tail ∧
        r.nFound = Int32.ofNat (removedCount segs) := by
  obtain ⟨hpush, hadvances, hends, hfind⟩ := push_and_scan
  obtain ⟨r, hr, -, hcuts⟩ := hfind [OP_NOP, OP_DUP, OP_NOP] [OP_NOP] 4 (by decide)
  obtain ⟨segs, tail, hcuts, -, hfound⟩ := hcuts (by decide)
  refine ⟨(hpush [OP_NOP] [7, 8] (by decide)).2.1, (hadvances [OP_PUSHDATA2, 1] 0 (by decide)).1,
    (hends [OP_PUSHDATA2, 1] 3 (by decide)).1, r, segs, tail, hr, hcuts, hfound⟩

/-- In a script of less than four gigabytes, the loops that go through it with an iterator end with what
the evaluation, the address index and the signature hash take them to return on the list of its bytes. -/
theorem scans_refine {rounds : ℕ} (h : script.length < 2 ^ 32) (hrounds : script.length < rounds) :
    IsPushOnly rounds script = some (CScript.IsPushOnly script) ∧
      (∀ ctx : Context, BuildAddrIndex ctx.hash160 rounds script []
        = some (true, Chain.BuildAddrIndex ctx script)) ∧
      ∀ b, (FindAndDelete rounds script b).map FindState.script
        = some (CScript.FindAndDelete script b) := by
  refine ⟨?_, ?_, ?_⟩
  · obtain ⟨r, hr⟩ := isPushOnly_ends hrounds
    rw [hr, isPushOnly_eq h hr]
  · intro ctx
    obtain ⟨r, hr⟩ := buildAddrIndex_ends ctx.hash160 hrounds []
    rw [hr, buildAddrIndex_eq ctx h hr]
  · intro b
    obtain ⟨r, hr⟩ := findAndDelete_ends hrounds b
    rw [hr, Option.map_some, findAndDelete_eq h hr]

/-- An operation is removed before and behind a third one. -/
theorem scans_refine_removed :
    (FindAndDelete 4 [OP_NOP, OP_DUP, OP_NOP] [OP_NOP]).map FindState.script
      = some (CScript.FindAndDelete [OP_NOP, OP_DUP, OP_NOP] [OP_NOP]) :=
  (@scans_refine [OP_NOP, OP_DUP, OP_NOP] 4 (by decide) (by decide)).2.2 [OP_NOP]

end ZalemCoin.Script.Scanning
