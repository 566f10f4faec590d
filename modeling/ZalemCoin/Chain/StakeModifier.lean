import ZalemCoin.Chain.Fork

/-!
# The stake modifier

`ComputeNextStakeModifier` makes a new stake modifier when the last one is from an earlier interval of
two minutes. The candidates are the last blocks of the chain, sorted by time. In each of up to 64 rounds
one of those that have not been selected is, among the ones up to a time that grows from round to round,
or the oldest one when there is none; its entropy bit is a bit of the modifier. The loops along the chain
are run for as many rounds as there are heights, which is enough in a tree of blocks.
-/

namespace ZalemCoin.Chain

open Lib

def nModifierInterval : ℕ := 2 * 60

def MODIFIER_INTERVAL_RATIO : ℕ := 3

section

variable (mapBlockIndex : UInt256 → Option CBlockIndex)

def entryAt (pindex : UInt256) : Except Failure CBlockIndex :=
  match mapBlockIndex pindex with
  | some i => .ok i
  | none => .error (.crash "null pointer")

/-- The loop of `GetLastStakeModifier`. -/
def lastModifierLoop : ℕ → UInt256 → Except Failure CBlockIndex
  | 0, _ => .error (.crash "GetLastStakeModifier does not return")
  | fuel + 1, pindex => do
    let i ← entryAt mapBlockIndex pindex
    match i.pprev with
    | none => pure i
    | some pprev => if i.fStakeModifier then pure i else lastModifierLoop fuel pprev

def GetLastStakeModifier (pindex : UInt256) : Except Failure (UInt64 × ℤ) := do
  let first ← entryAt mapBlockIndex pindex
  let i ← lastModifierLoop mapBlockIndex (first.nHeight + 1) pindex
  ensure (i.fStakeModifier = true) (.error "GetLastStakeModifier: no generation at genesis block")
  pure (i.nStakeModifier, i.GetBlockTime)

def GetStakeModifierSelectionIntervalSection (nSection : ℕ) : ℤ :=
  (nModifierInterval * 63 / (63 + (63 - nSection) * ( MODIFIER_INTERVAL_RATIO - 1)) : ℕ)

def GetStakeModifierSelectionInterval : ℤ :=
  (List.range 64).foldl (fun nSelectionInterval nSection =>
    nSelectionInterval + GetStakeModifierSelectionIntervalSection nSection) 0

def selectionIntervalStart (nTime : ℤ) : ℤ :=
  nTime / nModifierInterval * nModifierInterval - GetStakeModifierSelectionInterval

def candidateLoop (nSelectionIntervalStart : ℤ) : ℕ → UInt256 → Except Failure (List (ℤ × UInt256))
  | 0, _ => .error (.crash "ComputeNextStakeModifier does not return")
  | fuel + 1, pindex => do
    let i ← entryAt mapBlockIndex pindex
    if nSelectionIntervalStart ≤ i.GetBlockTime then
      match i.pprev with
      | none => pure [(i.GetBlockTime, pindex)]
      | some pprev =>
        let rest ← candidateLoop nSelectionIntervalStart fuel pprev
        pure ((i.GetBlockTime, pindex) :: rest)
    else pure []

/-- The order of pairs of a time and a hash. -/
def pairLe (a b : ℤ × UInt256) : Bool := decide (a.1 < b.1 ∨ a.1 = b.1 ∧ a.2 ≤ b.2)

def sortedCandidates (pindexPrev : UInt256) : Except Failure (List (ℤ × UInt256)) := do
  let prev ← entryAt mapBlockIndex pindexPrev
  let vSortedByTimestamp ← candidateLoop mapBlockIndex (selectionIntervalStart prev.GetBlockTime)
    (prev.nHeight + 1) pindexPrev
  pure (vSortedByTimestamp.reverse.mergeSort pairLe)

variable (hashModifier : UInt256 → UInt64 → UInt256)

def hashSelection (nStakeModifierPrev : UInt64) (pindex : CBlockIndex) : UInt256 :=
  let hash := hashModifier pindex.hashProof nStakeModifierPrev
  if pindex.fProofOfStake then hash >>> 32 else hash

def selectLoop (mapSelectedBlocks : List UInt256) (nSelectionIntervalStop : ℤ)
    (nStakeModifierPrev : UInt64) : List (ℤ × UInt256) → Option (UInt256 × UInt256) →
      Except Failure (Option (UInt256 × UInt256))
  | [], best => pure best
  | item :: items, best =>
    match mapBlockIndex item.2 with
    | none =>
      .error (.error "SelectBlockFromCandidates: failed to find block index for candidate block")
    | some pindex =>
      if best.isSome ∧ nSelectionIntervalStop < pindex.GetBlockTime then pure best
      else if item.2 ∈ mapSelectedBlocks then
        selectLoop mapSelectedBlocks nSelectionIntervalStop nStakeModifierPrev items best
      else
        let hash := hashSelection hashModifier nStakeModifierPrev pindex
        match best with
        | some (_, hashBest) =>
          selectLoop mapSelectedBlocks nSelectionIntervalStop nStakeModifierPrev items
            (if hash < hashBest then some (item.2, hash) else best)
        | none =>
          selectLoop mapSelectedBlocks nSelectionIntervalStop nStakeModifierPrev items
            (some (item.2, hash))

def SelectBlockFromCandidates (vSortedByTimestamp : List (ℤ × UInt256))
    (mapSelectedBlocks : List UInt256) (nSelectionIntervalStop : ℤ) (nStakeModifierPrev : UInt64) :
    Except Failure (Option UInt256) := do
  let best ← selectLoop mapBlockIndex hashModifier mapSelectedBlocks nSelectionIntervalStop
    nStakeModifierPrev vSortedByTimestamp none
  pure (best.map Prod.fst)

/-- What the rounds have made: the bits so far, the end of the last round's part of the selection
interval, and the blocks selected, in the order of the rounds. -/
structure Selection where
  nStakeModifierNew : UInt64
  nSelectionIntervalStop : ℤ
  mapSelectedBlocks : List UInt256

def selectRound (vSortedByTimestamp : List (ℤ × UInt256)) (nStakeModifier : UInt64) (r : Selection)
    (nRound : ℕ) : Except Failure Selection := do
  let nSelectionIntervalStop :=
    r.nSelectionIntervalStop + GetStakeModifierSelectionIntervalSection nRound
  let selected ← (SelectBlockFromCandidates mapBlockIndex hashModifier vSortedByTimestamp
    r.mapSelectedBlocks nSelectionIntervalStop nStakeModifier).mapError fun e =>
      e.reportedAs "ComputeNextStakeModifier: unable to select block"
  match selected with
  | none => .error (.error "ComputeNextStakeModifier: unable to select block")
  | some pindex =>
    let i ← entryAt mapBlockIndex pindex
    pure ⟨r.nStakeModifierNew ||| (i.fStakeEntropy.toUInt64 <<< UInt64.ofNat nRound),
      nSelectionIntervalStop, r.mapSelectedBlocks ++ [pindex]⟩

/-- The number of rounds. The number of candidates is converted to an `int`. -/
def selectionRounds (nCandidates : ℕ) : ℕ := (min 64 ((nCandidates : ℤ).bmod (2 ^ 32))).toNat

/-- What `ComputeNextStakeModifier` computes, with the blocks that it has selected. -/
structure NextModifier where
  nStakeModifier : UInt64
  fGeneratedStakeModifier : Bool
  mapSelectedBlocks : List UInt256

def ComputeNextStakeModifier (pindexPrev : Option UInt256) : Except Failure NextModifier :=
  match pindexPrev with
  | none => pure ⟨0, true, []⟩
  | some pindexPrev => do
    let prev ← entryAt mapBlockIndex pindexPrev
    let (nStakeModifier, nModifierTime) ← (GetLastStakeModifier mapBlockIndex pindexPrev).mapError
      fun e => e.reportedAs "ComputeNextStakeModifier: unable to get last modifier"
    if prev.GetBlockTime / nModifierInterval ≤ nModifierTime / nModifierInterval then
      pure ⟨nStakeModifier, false, []⟩
    else
      let vSortedByTimestamp ← sortedCandidates mapBlockIndex pindexPrev
      let r ← (List.range (selectionRounds vSortedByTimestamp.length)).foldlM
        (selectRound mapBlockIndex hashModifier vSortedByTimestamp nStakeModifier)
        ⟨0, selectionIntervalStart prev.GetBlockTime, []⟩
      pure ⟨r.nStakeModifierNew, true, r.mapSelectedBlocks⟩

end

/-! ## The loops along the chain -/

section

variable {s : NodeState} {genesis : UInt256} {g : CBlockIndex}

variable {p : UInt256} {i : CBlockIndex}

theorem entryAt_eq {mapBlockIndex : UInt256 → Option CBlockIndex} (h : mapBlockIndex p = some i) :
    entryAt mapBlockIndex p = .ok i := by
  unfold entryAt
  rw [h]

variable (htree : BlockTree s genesis)
include htree

theorem BlockTree.prev_entry {q : UInt256} (hp : s.mapBlockIndex p = some i)
    (hq : i.pprev = some q) :
    ∃ j, s.mapBlockIndex q = some j ∧ i.nHeight = j.nHeight + 1 := by
  have hpar : s.parent p = some q := (parent_eq hp).trans hq
  obtain ⟨j, hj⟩ := Option.ne_none_iff_exists'.mp (htree.known p q hpar)
  have hstep := htree.heights p q hpar
  rw [height_eq hp, height_eq hj] at hstep
  exact ⟨j, hj, hstep⟩

theorem BlockTree.exists_branch (hp : s.mapBlockIndex p = some i) :
    ∃ path, Branch s.parent p path ∧ path.length = i.nHeight + 1 := by
  induction hn : i.nHeight generalizing p i with
  | zero =>
    rcases hprev : i.pprev with _ | q
    · exact ⟨[p], Branch.root ((parent_eq hp).trans hprev), rfl⟩
    · obtain ⟨j, -, hstep⟩ := htree.prev_entry hp hprev
      omega
  | succ n ih =>
    rcases hprev : i.pprev with _ | q
    · -- only the genesis block has no block before it
      have hroot := htree.root p (by simp [hp]) ((parent_eq hp).trans hprev)
      have hlow := htree.low
      rw [← hroot, height_eq hp] at hlow
      omega
    · obtain ⟨j, hj, hstep⟩ := htree.prev_entry hp hprev
      obtain ⟨path, hpath, hlen⟩ := ih hj (by omega)
      exact ⟨p :: path, Branch.step ((parent_eq hp).trans hprev) hpath, by rw [List.length_cons, hlen]⟩

variable {fuel : ℕ}

theorem BlockTree.lastModifierLoop_isOk (hg : s.mapBlockIndex genesis = some g)
    (hgenerated : g.fStakeModifier = true) (hp : s.mapBlockIndex p = some i)
    (hfuel : i.nHeight < fuel) :
    ∃ j, lastModifierLoop s.mapBlockIndex fuel p = .ok j ∧ j.fStakeModifier = true := by
  induction fuel generalizing p i with
  | zero => omega
  | succ fuel ih =>
    rw [lastModifierLoop, entryAt_eq hp]
    simp only [bind, Except.bind]
    rcases hprev : i.pprev with _ | q
    · have hroot := htree.root p (by simp [hp]) ((parent_eq hp).trans hprev)
      obtain rfl : i = g := Option.some.inj (hp.symm.trans (hroot ▸ hg))
      exact ⟨i, rfl, hgenerated⟩
    · rcases hflag : i.fStakeModifier with _ | _
      · obtain ⟨j, hj, hstep⟩ := htree.prev_entry hp hprev
        exact ih hj (by omega)
      · exact ⟨i, rfl, hflag⟩

theorem BlockTree.getLastStakeModifier_isOk (hg : s.mapBlockIndex genesis = some g)
    (hgenerated : g.fStakeModifier = true) (hp : s.mapBlockIndex p = some i) :
    ∃ last, GetLastStakeModifier s.mapBlockIndex p = .ok last := by
  obtain ⟨j, hloop, hflag⟩ :=
    htree.lastModifierLoop_isOk hg hgenerated hp (Nat.lt_succ_self i.nHeight)
  refine ⟨(j.nStakeModifier, j.GetBlockTime), ?_⟩
  unfold GetLastStakeModifier
  rw [entryAt_eq hp]
  simp only [bind, Except.bind, hloop]
  rw [ensure, if_pos hflag]
  rfl

/-- What the loop over the chain has collected: the blocks of the chain down to one that is older than
the start of the selection interval. -/
structure Collected (s : NodeState) (nSelectionIntervalStart : ℤ) (p : UInt256)
    (candidates : List (ℤ × UInt256)) : Prop where
  branch : ∃ older, Branch s.parent p (candidates.map Prod.snd ++ older) ∧
    ∀ q j, older.head? = some q → s.mapBlockIndex q = some j →
      j.GetBlockTime < nSelectionIntervalStart
  entries : ∀ c ∈ candidates, ∃ j, s.mapBlockIndex c.2 = some j ∧ c.1 = j.GetBlockTime ∧
    nSelectionIntervalStart ≤ c.1

/-- The candidates are collected, not more than there are blocks. -/
theorem BlockTree.candidateLoop_isOk (nSelectionIntervalStart : ℤ) (hp : s.mapBlockIndex p = some i)
    (hfuel : i.nHeight < fuel) :
    ∃ candidates, candidateLoop s.mapBlockIndex nSelectionIntervalStart fuel p = .ok candidates ∧
      Collected s nSelectionIntervalStart p candidates ∧ candidates.length ≤ i.nHeight + 1 := by
  induction fuel generalizing p i with
  | zero => omega
  | succ fuel ih =>
    rw [candidateLoop, entryAt_eq hp]
    simp only [bind, Except.bind]
    by_cases htime : nSelectionIntervalStart ≤ i.GetBlockTime
    · rw [if_pos htime]
      rcases hprev : i.pprev with _ | q
      · refine ⟨_, rfl, ⟨⟨[], Branch.root ((parent_eq hp).trans hprev), by simp⟩, ?_⟩, by simp⟩
        intro c hc
        rw [List.mem_singleton.mp hc]
        exact ⟨i, hp, rfl, htime⟩
      · obtain ⟨j, hj, hstep⟩ := htree.prev_entry hp hprev
        obtain ⟨rest, hrest, hcollected, hlen⟩ := ih hj (by omega)
        obtain ⟨older, hbr, holder⟩ := hcollected.branch
        refine ⟨(i.GetBlockTime, p) :: rest, ?_, ⟨⟨older, ?_, holder⟩, ?_⟩, ?_⟩
        · dsimp only
          rw [hrest]
          rfl
        · exact Branch.step ((parent_eq hp).trans hprev) hbr
        · intro c hc
          rcases List.mem_cons.mp hc with rfl | hc
          · exact ⟨i, hp, rfl, htime⟩
          · exact hcollected.entries c hc
        · rw [List.length_cons]
          omega
    · -- the block is older than the interval
      rw [if_neg htime]
      obtain ⟨path, hpath, -⟩ := htree.exists_branch hp
      refine ⟨[], rfl, ⟨⟨path, hpath, ?_⟩, by simp⟩, by simp⟩
      intro q j hhead hj
      obtain ⟨above, rfl⟩ := hpath.eq_cons
      cases hhead
      obtain rfl := Option.mem_unique hp hj
      omega

omit htree

theorem pairwise_pairLe (candidates : List (ℤ × UInt256)) :
    (candidates.mergeSort pairLe).Pairwise fun a b => a.1 ≤ b.1 := by
  have htrans : ∀ a b c : ℤ × UInt256, pairLe a b = true → pairLe b c = true → pairLe a c = true := by
    intro a b c hab hbc
    simp only [pairLe, decide_eq_true_eq] at hab hbc ⊢
    rcases hab with hab | ⟨hab, hhash⟩
    · rcases hbc with hbc | ⟨hbc, -⟩
      · exact .inl (by omega)
      · exact .inl (by omega)
    · rcases hbc with hbc | ⟨hbc, hhash'⟩
      · exact .inl (by omega)
      · exact .inr ⟨by omega, BitVec.le_trans hhash hhash'⟩
  have htotal : ∀ a b : ℤ × UInt256, (pairLe a b || pairLe b a) = true := by
    intro a b
    simp only [pairLe, Bool.or_eq_true, decide_eq_true_eq]
    rcases lt_trichotomy a.1 b.1 with hlt | heq | hlt
    · exact .inl (.inl hlt)
    · rcases BitVec.le_total a.2 b.2 with hle | hle
      · exact .inl (.inr ⟨heq, hle⟩)
      · exact .inr (.inr ⟨heq.symm, hle⟩)
    · exact .inr (.inl hlt)
  refine (List.pairwise_mergeSort htrans htotal candidates).imp ?_
  intro a b hab
  simp only [pairLe, decide_eq_true_eq] at hab
  omega

/-- The candidates: the blocks of the chain in the selection interval, each once, sorted by time. -/
structure Candidates (s : NodeState) (p : UInt256) (candidates : List (ℤ × UInt256)) : Prop where
  collected : ∃ blocks i, s.mapBlockIndex p = some i ∧
    Collected s (selectionIntervalStart i.GetBlockTime) p blocks ∧ candidates.Perm blocks
  sorted : candidates.Pairwise fun a b => a.1 ≤ b.1

theorem Candidates.nodup {candidates : List (ℤ × UInt256)} (h : Candidates s p candidates) :
    (candidates.map Prod.snd).Nodup := by
  obtain ⟨blocks, i, -, hcollected, hperm⟩ := h.collected
  obtain ⟨older, hbr, -⟩ := hcollected.branch
  exact (hperm.map Prod.snd).nodup_iff.mpr (List.nodup_append.mp hbr.nodup).1

theorem Candidates.entry {candidates : List (ℤ × UInt256)} (h : Candidates s p candidates)
    {c : ℤ × UInt256} (hc : c ∈ candidates) :
    ∃ j, s.mapBlockIndex c.2 = some j ∧ c.1 = j.GetBlockTime := by
  obtain ⟨blocks, i, -, hcollected, hperm⟩ := h.collected
  obtain ⟨j, hj, htime, -⟩ := hcollected.entries c (hperm.mem_iff.mp hc)
  exact ⟨j, hj, htime⟩

theorem BlockTree.sortedCandidates_isOk (htree : BlockTree s genesis)
    (hp : s.mapBlockIndex p = some i) :
    ∃ candidates, sortedCandidates s.mapBlockIndex p = .ok candidates ∧ Candidates s p candidates ∧
      candidates.length ≤ i.nHeight + 1 := by
  obtain ⟨blocks, hloop, hcollected, hlen⟩ := htree.candidateLoop_isOk
    (selectionIntervalStart i.GetBlockTime) hp (Nat.lt_succ_self _)
  have hperm : (blocks.reverse.mergeSort pairLe).Perm blocks :=
    (List.mergeSort_perm _ _).trans blocks.reverse_perm
  refine ⟨blocks.reverse.mergeSort pairLe, ?_, ⟨⟨blocks, i, hp, hcollected, hperm⟩,
    pairwise_pairLe _⟩, hperm.length_eq ▸ hlen⟩
  unfold sortedCandidates
  rw [entryAt_eq hp]
  simp only [bind, Except.bind, hloop]
  rfl

end

/-! ## The rounds -/

section

variable {mapBlockIndex : UInt256 → Option CBlockIndex} {hashModifier : UInt256 → UInt64 → UInt256}
  {mapSelectedBlocks : List UInt256} {nSelectionIntervalStop : ℤ} {nStakeModifierPrev : UInt64}
  {items candidates : List (ℤ × UInt256)}

/-- The candidates have entries with their times. -/
def Entered (mapBlockIndex : UInt256 → Option CBlockIndex) (items : List (ℤ × UInt256)) : Prop :=
  ∀ c ∈ items, ∃ j, mapBlockIndex c.2 = some j ∧ c.1 = j.GetBlockTime

/-- What the loop over the candidates may end with: the block that it has started with, one that has
not been selected and is not too late, or, when it has started with none, the first one that has not
been selected. -/
def MayEnd (mapSelectedBlocks : List UInt256) (nSelectionIntervalStop : ℤ)
    (items : List (ℤ × UInt256)) (best best' : Option (UInt256 × UInt256)) : Prop :=
  match best'.map Prod.fst with
  | none => best = none ∧ ∀ c ∈ items, c.2 ∈ mapSelectedBlocks
  | some p => best.map Prod.fst = some p ∨
    ∃ c ∈ items, c.2 = p ∧ p ∉ mapSelectedBlocks ∧ (c.1 ≤ nSelectionIntervalStop ∨
      (best = none ∧ items.find? (fun c => c.2 ∉ mapSelectedBlocks) = some c))

variable {item : ℤ × UInt256} {best best' : Option (UInt256 × UInt256)}
  {nSelectionIntervalStart : ℤ} {rounds : ℕ}

theorem MayEnd.skip (h : MayEnd mapSelectedBlocks nSelectionIntervalStop items best best')
    (hitem : item.2 ∈ mapSelectedBlocks) :
    MayEnd mapSelectedBlocks nSelectionIntervalStop (item :: items) best best' := by
  unfold MayEnd at h ⊢
  split at h
  · exact ⟨h.1, List.forall_mem_cons.mpr ⟨hitem, h.2⟩⟩
  · refine h.imp_right ?_
    rintro ⟨c, hc, hp, hnew, hwhy⟩
    refine ⟨c, List.mem_cons_of_mem _ hc, hp, hnew, hwhy.imp_right ?_⟩
    rintro ⟨hnone, hfind⟩
    exact ⟨hnone, by rwa [List.find?_cons_of_neg (by simpa using hitem)]⟩

theorem MayEnd.take {next : UInt256 × UInt256}
    (h : MayEnd mapSelectedBlocks nSelectionIntervalStop items (some next) best')
    (hitem : item.2 ∉ mapSelectedBlocks)
    (hnext : (next.1 = item.2 ∧ (item.1 ≤ nSelectionIntervalStop ∨ best = none)) ∨
      best.map Prod.fst = some next.1) :
    MayEnd mapSelectedBlocks nSelectionIntervalStop (item :: items) best best' := by
  unfold MayEnd at h ⊢
  split at h
  · exact absurd h.1 (Option.some_ne_none _)
  · rename_i p _
    rcases h with hp | ⟨c, hc, hp, hnew, hwhy⟩
    · obtain rfl : next.1 = p := Option.some.inj hp
      rcases hnext with ⟨heq, hwhy⟩ | hbest
      · refine .inr ⟨item, List.mem_cons_self, heq.symm, heq ▸ hitem, hwhy.imp_right ?_⟩
        exact fun hnone => ⟨hnone, List.find?_cons_of_pos (by simpa using hitem)⟩
      · exact .inl hbest
    · -- with a best block there is no need for the first one
      refine .inr ⟨c, List.mem_cons_of_mem _ hc, hp, hnew, .inl ?_⟩
      rcases hwhy with htime | ⟨hnone, -⟩
      · exact htime
      · exact absurd hnone (Option.some_ne_none _)

theorem selectLoop_isOk (hentered : Entered mapBlockIndex items) (best : Option (UInt256 × UInt256)) :
    ∃ best', selectLoop mapBlockIndex hashModifier mapSelectedBlocks nSelectionIntervalStop
        nStakeModifierPrev items best = .ok best' ∧
      MayEnd mapSelectedBlocks nSelectionIntervalStop items best best' := by
  induction items generalizing best with
  | nil =>
    refine ⟨best, rfl, ?_⟩
    rcases best with _ | best
    · exact ⟨rfl, by simp⟩
    · exact .inl rfl
  | cons item items ih =>
    obtain ⟨⟨j, hj, htime⟩, hrest⟩ := List.forall_mem_cons.mp hentered
    rw [selectLoop, hj]
    dsimp only
    by_cases hlate : best.isSome ∧ nSelectionIntervalStop < j.GetBlockTime
    · -- the candidates from here on are too late
      rw [if_pos hlate]
      obtain ⟨b, rfl⟩ := Option.isSome_iff_exists.mp hlate.1
      exact ⟨some b, rfl, .inl rfl⟩
    · rw [if_neg hlate]
      by_cases hitem : item.2 ∈ mapSelectedBlocks
      · rw [if_pos hitem]
        obtain ⟨best', hloop, hend⟩ := ih hrest best
        exact ⟨best', hloop, hend.skip hitem⟩
      · rw [if_neg hitem]
        rcases best with _ | ⟨b, hashBest⟩
        · obtain ⟨best', hloop, hend⟩ := ih hrest (some (item.2, _))
          exact ⟨best', hloop, hend.take hitem (.inl ⟨rfl, .inr rfl⟩)⟩
        · have hearly : item.1 ≤ nSelectionIntervalStop := by
            rw [htime]
            exact not_lt.mp fun hlt => hlate ⟨rfl, hlt⟩
          dsimp only
          split_ifs
          · obtain ⟨best', hloop, hend⟩ := ih hrest (some (item.2, _))
            exact ⟨best', hloop, hend.take hitem (.inl ⟨rfl, .inl hearly⟩)⟩
          · obtain ⟨best', hloop, hend⟩ := ih hrest (some (b, hashBest))
            exact ⟨best', hloop, hend.take hitem (.inr rfl)⟩

/-- What a round may select: a candidate that has not been selected, and that is not after the end of
the round's part of the selection interval or is the oldest one left. -/
structure Eligible (candidates : List (ℤ × UInt256)) (mapSelectedBlocks : List UInt256)
    (nSelectionIntervalStop : ℤ) (p : UInt256) : Prop where
  fresh : p ∉ mapSelectedBlocks
  candidate : ∃ time, (time, p) ∈ candidates ∧ (time ≤ nSelectionIntervalStop ∨
    ∀ c ∈ candidates, c.2 ∉ mapSelectedBlocks → time ≤ c.1)

theorem le_of_find? {c d : ℤ × UInt256} (hsort : candidates.Pairwise fun a b => a.1 ≤ b.1)
    (hfind : candidates.find? (fun c => c.2 ∉ mapSelectedBlocks) = some c) (hd : d ∈ candidates)
    (hnew : d.2 ∉ mapSelectedBlocks) : c.1 ≤ d.1 := by
  induction candidates with
  | nil => simp at hd
  | cons a candidates ih =>
    obtain ⟨hfst, hrest⟩ := List.pairwise_cons.mp hsort
    by_cases ha : a.2 ∈ mapSelectedBlocks
    · rw [List.find?_cons_of_neg (by simpa using ha)] at hfind
      rcases List.mem_cons.mp hd with rfl | hd
      · exact absurd ha hnew
      · exact ih hrest hfind hd
    · rw [List.find?_cons_of_pos (by simpa using ha)] at hfind
      cases hfind
      rcases List.mem_cons.mp hd with rfl | hd
      · exact le_rfl
      · exact hfst d hd

theorem selectBlockFromCandidates_isOk (hentered : Entered mapBlockIndex candidates)
    (hsort : candidates.Pairwise fun a b => a.1 ≤ b.1)
    (hleft : ∃ c ∈ candidates, c.2 ∉ mapSelectedBlocks) :
    ∃ p, SelectBlockFromCandidates mapBlockIndex hashModifier candidates mapSelectedBlocks
        nSelectionIntervalStop nStakeModifierPrev = .ok (some p) ∧
      Eligible candidates mapSelectedBlocks nSelectionIntervalStop p := by
  obtain ⟨best', hloop, hend⟩ := @selectLoop_isOk mapBlockIndex hashModifier mapSelectedBlocks
    nSelectionIntervalStop nStakeModifierPrev candidates hentered none
  unfold MayEnd at hend
  unfold SelectBlockFromCandidates
  rw [hloop]
  split at hend
  · obtain ⟨c, hc, hnew⟩ := hleft
    exact absurd (hend.2 c hc) hnew
  · rename_i p hp
    refine ⟨p, congrArg Except.ok hp, ?_⟩
    rcases hend with hnone | ⟨c, hc, rfl, hnew, hwhy⟩
    · simp at hnone
    · refine ⟨hnew, c.1, hc, hwhy.imp_right ?_⟩
      exact fun hfst d hd hd' => le_of_find? hsort hfst.2 hd hd'

def selectionStop (nSelectionIntervalStart : ℤ) (rounds : ℕ) : ℤ :=
  nSelectionIntervalStart + ((List.range rounds).map GetStakeModifierSelectionIntervalSection).sum

/-- What some rounds have selected: as many different candidates, each of which the round was free to
select. -/
structure Selects (candidates : List (ℤ × UInt256)) (nSelectionIntervalStart : ℤ) (rounds : ℕ)
    (mapSelectedBlocks : List UInt256) : Prop where
  length_eq : mapSelectedBlocks.length = rounds
  nodup : mapSelectedBlocks.Nodup
  eligible : ∀ nRound p, mapSelectedBlocks[nRound]? = some p →
    Eligible candidates (mapSelectedBlocks.take nRound)
      (selectionStop nSelectionIntervalStart (nRound + 1)) p

theorem Selects.exists_left
    (h : Selects candidates nSelectionIntervalStart rounds mapSelectedBlocks)
    (hnd : (candidates.map Prod.snd).Nodup) (hrnds : rounds < candidates.length) :
    ∃ c ∈ candidates, c.2 ∉ mapSelectedBlocks := by
  by_contra hall
  push Not at hall
  have hsub : candidates.map Prod.snd ⊆ mapSelectedBlocks := by
    intro p hp
    obtain ⟨c, hc, rfl⟩ := List.mem_map.mp hp
    exact hall c hc
  have hlen := (hnd.subperm hsub).length_le
  rw [List.length_map, h.length_eq] at hlen
  omega

theorem Selects.concat {p : UInt256}
    (h : Selects candidates nSelectionIntervalStart rounds mapSelectedBlocks)
    (hp : Eligible candidates mapSelectedBlocks (selectionStop nSelectionIntervalStart (rounds + 1)) p) :
    Selects candidates nSelectionIntervalStart (rounds + 1) (mapSelectedBlocks ++ [p]) where
  length_eq := by rw [List.length_append, h.length_eq, List.length_singleton]
  nodup := List.nodup_append.mpr ⟨h.nodup, List.nodup_singleton p, by
    intro q hq q' hq' heq
    exact hp.fresh (List.mem_singleton.mp hq' ▸ heq ▸ hq)⟩
  eligible := by
    intro nRound q hq
    rcases lt_or_ge nRound mapSelectedBlocks.length with hlt | hge
    · rw [List.getElem?_append_left hlt] at hq
      rw [List.take_append_of_le_length hlt.le]
      exact h.eligible nRound q hq
    · -- the last round is the one that selects `p`
      rw [List.getElem?_append_right hge] at hq
      obtain ⟨hlt, hq⟩ := List.getElem?_eq_some_iff.mp hq
      rw [List.length_singleton] at hlt
      have hrnd : nRound = rounds := by
        have hlen := h.length_eq
        omega
      rw [List.getElem_singleton] at hq
      rw [hrnd, ← hq, ← h.length_eq, List.take_left']
      · rw [h.length_eq]
        exact hp
      · rfl

theorem selectRounds_isOk (hentered : Entered mapBlockIndex candidates)
    (hsort : candidates.Pairwise fun a b => a.1 ≤ b.1) (hnd : (candidates.map Prod.snd).Nodup)
    (nStakeModifier : UInt64) (nSelectionIntervalStart : ℤ) {rounds : ℕ}
    (hrnds : rounds ≤ candidates.length) :
    ∃ r, (List.range rounds).foldlM
        (selectRound mapBlockIndex hashModifier candidates nStakeModifier)
        ⟨0, nSelectionIntervalStart, []⟩ = .ok r ∧
      Selects candidates nSelectionIntervalStart rounds r.mapSelectedBlocks := by
  have hstep : ∀ nRound < rounds, ∀ r : Selection,
      (r.nSelectionIntervalStop = selectionStop nSelectionIntervalStart nRound ∧
        Selects candidates nSelectionIntervalStart nRound r.mapSelectedBlocks) →
      ∃ r', selectRound mapBlockIndex hashModifier candidates nStakeModifier r nRound = .ok r' ∧
        r'.nSelectionIntervalStop = selectionStop nSelectionIntervalStart (nRound + 1) ∧
        Selects candidates nSelectionIntervalStart (nRound + 1) r'.mapSelectedBlocks := by
    rintro nRound hrnd r ⟨hstop, hselects⟩
    have hnext : r.nSelectionIntervalStop + GetStakeModifierSelectionIntervalSection nRound
        = selectionStop nSelectionIntervalStart (nRound + 1) := by
      simp only [selectionStop, hstop, List.range_succ, List.map_append, List.map_singleton,
        List.sum_append, List.sum_singleton, add_assoc]
    obtain ⟨p, hsel, helig⟩ := @selectBlockFromCandidates_isOk mapBlockIndex hashModifier
      r.mapSelectedBlocks (selectionStop nSelectionIntervalStart (nRound + 1)) nStakeModifier candidates
      hentered hsort (hselects.exists_left hnd (by omega))
    obtain ⟨time, hmem, -⟩ := helig.candidate
    obtain ⟨j, hj, -⟩ := hentered (time, p) hmem
    refine ⟨⟨r.nStakeModifierNew ||| (j.fStakeEntropy.toUInt64 <<< UInt64.ofNat nRound),
      selectionStop nSelectionIntervalStart (nRound + 1), r.mapSelectedBlocks ++ [p]⟩, ?_, rfl,
      hselects.concat helig⟩
    unfold selectRound
    rw [hnext]
    dsimp only
    rw [hsel]
    simp only [bind, Except.bind, Except.mapError, entryAt_eq hj]
    rfl
  obtain ⟨r, hrun, -, hselects⟩ := @foldlM_range_isOk _ _
    (selectRound mapBlockIndex hashModifier candidates nStakeModifier)
    (fun n r => r.nSelectionIntervalStop = selectionStop nSelectionIntervalStart n ∧
      Selects candidates nSelectionIntervalStart n r.mapSelectedBlocks) rounds
    ⟨0, nSelectionIntervalStart, []⟩
    ⟨by simp [selectionStop], rfl, List.nodup_nil, by simp⟩ hstep
  exact ⟨r, hrun, hselects⟩

end

/-! ## The modifier -/

theorem Candidates.entered {s : NodeState} {p : UInt256} {candidates : List (ℤ × UInt256)}
    (h : Candidates s p candidates) : Entered s.mapBlockIndex candidates := fun _ hc => h.entry hc

theorem selectionRounds_eq {nCandidates : ℕ} (h : nCandidates < 2 ^ 31) :
    selectionRounds nCandidates = min 64 nCandidates := by
  have hint : (nCandidates : ℤ).bmod (2 ^ 32) = nCandidates := by
    apply Int.bmod_eq_of_le
    · omega
    · omega
  unfold selectionRounds
  rw [hint]
  omega

/-- The tree of blocks, whose first one has generated a modifier. -/
structure GenesisTree (s : NodeState) (genesis : UInt256) : Prop extends BlockTree s genesis where
  generated : ∃ g, s.mapBlockIndex genesis = some g ∧ g.fStakeModifier = true

/-- In a tree of blocks whose first one has generated a modifier, there is a next modifier. It is
generated exactly when the interval of the last one is over, and then the rounds have selected different
candidates, no more than 64. -/
theorem GenesisTree.computeNextStakeModifier_isOk {s : NodeState} {genesis : UInt256}
    (htree : GenesisTree s genesis) (hashModifier : UInt256 → UInt64 → UInt256) {p : UInt256}
    {i : CBlockIndex} (hp : s.mapBlockIndex p = some i) (hheight : i.nHeight + 1 < 2 ^ 31) :
    ∃ last, GetLastStakeModifier s.mapBlockIndex p = .ok last ∧
      ∃ next, ComputeNextStakeModifier s.mapBlockIndex hashModifier (some p) = .ok next ∧
      (next.fGeneratedStakeModifier = true ↔
        last.2 / nModifierInterval < i.GetBlockTime / nModifierInterval) ∧
      (next.fGeneratedStakeModifier = true → ∃ candidates,
        sortedCandidates s.mapBlockIndex p = .ok candidates ∧ Candidates s p candidates ∧
        Selects candidates (selectionIntervalStart i.GetBlockTime) (min 64 candidates.length)
          next.mapSelectedBlocks) := by
  obtain ⟨g, hg, hgenerated⟩ := htree.generated
  obtain ⟨⟨nStakeModifier, nModifierTime⟩, hlast⟩ :=
    htree.toBlockTree.getLastStakeModifier_isOk hg hgenerated hp
  obtain ⟨candidates, hsorted, hcandidates, hlength⟩ := htree.toBlockTree.sortedCandidates_isOk hp
  obtain ⟨r, hrounds, hselects⟩ := @selectRounds_isOk s.mapBlockIndex hashModifier candidates
    hcandidates.entered hcandidates.sorted hcandidates.nodup nStakeModifier
    (selectionIntervalStart i.GetBlockTime) (min 64 candidates.length) (min_le_right _ _)
  have hbind {α β : Type} (a : α) (f : α → Except Failure β) : (Except.ok a >>= f) = f a := rfl
  refine ⟨_, hlast, ?_⟩
  unfold ComputeNextStakeModifier
  dsimp only
  rw [entryAt_eq hp, hlast, hbind, Except.mapError, hbind]
  split_ifs with hover
  · exact ⟨_, rfl, iff_of_false Bool.false_ne_true (Int.not_lt.mpr hover), nofun⟩
  · rw [hsorted, hbind, selectionRounds_eq (by omega), hrounds]
    exact ⟨_, rfl, iff_of_true rfl (Int.not_le.mp hover),
      fun _ => ⟨candidates, rfl, hcandidates, hselects⟩⟩

def modifierNode : NodeState :=
  { emptyNode with
    mapBlockIndex := fun p =>
      if p = 1 then some { plainIndex 1 0 none (plainBlock 1 0 0 []) with fStakeModifier := true, nTime := 0 }
      else if p = 2 then some { plainIndex 2 1 (some 1) (plainBlock 2 1 0 []) with nTime := 1000 }
      else none }

theorem modifierNode_parent (p : UInt256) : modifierNode.parent p = if p = 2 then some 1 else none := by
  show (if p = 1 then _ else _ : Option CBlockIndex).bind CBlockIndex.pprev = _
  by_cases h1 : p = 1
  · rw [h1]
    rfl
  · by_cases h2 : p = 2
    · rw [h2]
      rfl
    · rw [if_neg h1, if_neg h2, if_neg h2]
      rfl

theorem modifierNode_tree : GenesisTree modifierNode 1 where
  low := rfl
  heights p q hpq := by
    rw [modifierNode_parent] at hpq
    split at hpq
    · rename_i hp
      cases hpq
      rw [hp]
      rfl
    · simp at hpq
  known p q hpq := by
    rw [modifierNode_parent] at hpq
    split at hpq
    · cases hpq
      exact Option.some_ne_none _
    · simp at hpq
  root p hp hroot := by
    rw [modifierNode_parent] at hroot
    by_contra hne
    refine hp (show (if p = 1 then _ else _) = none from ?_)
    rw [if_neg hne, if_neg fun h2 => by simp [h2] at hroot]
  generated := ⟨_, rfl, rfl⟩

/-- The modifier after the second block. -/
theorem modifierNode_selects :
    ∃ next, ComputeNextStakeModifier modifierNode.mapBlockIndex (fun _ _ => 0) (some 2) = .ok next ∧
      next.fGeneratedStakeModifier = true ∧ ∃ candidates,
        sortedCandidates modifierNode.mapBlockIndex 2 = .ok candidates ∧
        Candidates modifierNode 2 candidates ∧
        Selects candidates (selectionIntervalStart 1000) (min 64 candidates.length)
          next.mapSelectedBlocks := by
  have hentry : modifierNode.mapBlockIndex 2
      = some { plainIndex 2 1 (some 1) (plainBlock 2 1 0 []) with nTime := 1000 } := rfl
  have hlast : GetLastStakeModifier modifierNode.mapBlockIndex 2 = .ok (0, 0) := rfl
  obtain ⟨last, hlast', next, hnext, hiff, hselects⟩ :=
    modifierNode_tree.computeNextStakeModifier_isOk (fun _ _ => 0) hentry (by decide)
  cases hlast.symm.trans hlast'
  have hgenerated := hiff.mpr (by decide)
  exact ⟨next, hnext, hgenerated, hselects hgenerated⟩

end ZalemCoin.Chain
