import ZalemCoin.Mining.TemplateFees

/-!
# The candidates that wait

`CreateNewBlock` keeps a transaction that spends from others of the pool in a list, and its number
under each of the transactions that it waits for. A transaction whose inputs are not all there is taken
off the list again, but its numbers stay where they are. When one of the transactions that it waited
for is selected, the number is followed to a place that is empty.
-/

namespace ZalemCoin.Mining

open Lib Chain Script

variable (ctx : Context)

def Waits (s : NodeState) (txin : CTxIn) : Prop :=
  readPrevout ctx s txin.prevout = none ∧ (s.mempool.mapTx.lookup txin.prevout.hash).isSome = true

def Missing (s : NodeState) (txin : CTxIn) : Prop :=
  readPrevout ctx s txin.prevout = none ∧ s.mempool.mapTx.lookup txin.prevout.hash = none

/-- A transaction has started to wait for another one when an input of it turns out to be missing. A
debugging node stops there. -/
def Abandoned (args : MinerArgs) (s : NodeState) (tx : CTransaction)
    (hash : UInt256) : Prop :=
  args.fDebug = false ∧ ∃ seen txin rest, tx.vin = seen ++ txin :: rest ∧ Missing ctx s txin ∧
    (∀ i ∈ seen, ¬Missing ctx s i) ∧ ∃ i ∈ seen, Waits ctx s i ∧ i.prevout.hash = hash

/-- No transaction that can be selected has another one of the pool waiting for it that is abandoned. -/
def NoneAbandoned (env : Env) (args : MinerArgs) (s : NodeState) : Prop :=
  ∀ pindexPrev, s.index s.pindexBest = .ok pindexPrev →
    ∀ tx ∈ eligibleTxs env s (pindexPrev.nHeight + 1),
      ∀ u ∈ eligibleTxs env s (pindexPrev.nHeight + 1), ¬Abandoned ctx args s u (ctx.hashTx tx)

/-- A number refers to an element that is still in the list. -/
def Present (vOrphan : List (Option COrphan)) (porphan : ℕ) : Prop :=
  ∃ orphan, vOrphan[porphan]? = some (some orphan)

/-- The failure of following a number to an element that is not. -/
def orphanRemoved : Failure := .crash "porphan has been removed"

/-! ## Looking at the inputs -/

/-- What the loop over the inputs carries after some of them, none of which is missing. -/
structure Seen (s : NodeState) (porphan : ℕ) (seen : List CTxIn)
    (start scan : InputScan) : Prop where
  present : ∀ i ∈ seen, ¬Missing ctx s i
  depends : scan.setDependsOn.isSome = true ↔
    start.setDependsOn.isSome = true ∨ ∃ i ∈ seen, Waits ctx s i
  numbers : ∀ hash p, p ∈ scan.mapDependers hash ↔ p ∈ start.mapDependers hash ∨
    p = porphan ∧ ∃ i ∈ seen, Waits ctx s i ∧ i.prevout.hash = hash

variable {env : Env} {args : MinerArgs} {s : NodeState} {porphan : ℕ}

section

variable {ctx : Context} {nHeight : ℕ} {tx : CTransaction} {c c' : Candidates}
  {scan scan' start : InputScan}

theorem scanInput_eq_ok {txin : CTxIn} {r : Option InputScan}
    (h : scanInput ctx args s porphan scan txin = .ok r) :
    (r = none ∧ args.fDebug = false ∧ Missing ctx s txin) ∨
      ∃ scan', r = some scan' ∧ Seen ctx s porphan [txin] scan scan' := by
  unfold scanInput at h
  rcases hread : readPrevout ctx s txin.prevout with _ | ⟨txindex, txout⟩
  · rw [hread] at h
    rcases hlook : s.mempool.mapTx.lookup txin.prevout.hash with _ | txPrev
    · rw [hlook] at h
      split_ifs at h with hdebug
      exact .inl ⟨(Except.ok.inj h).symm, Bool.eq_false_iff.mpr hdebug, hread, hlook⟩
    · rw [hlook] at h
      dsimp only at h
      split at h
      · simp at h
      · cases h
        have hwaits : Waits ctx s txin := ⟨hread, by rw [hlook]; rfl⟩
        refine .inr ⟨_, rfl, ?_, ?_, fun hash p => ?_⟩
        · rw [List.forall_mem_singleton]
          rintro ⟨-, hnone⟩
          simp [hlook] at hnone
        · simp [hwaits]
        · -- The number is added under the transaction of the input and nowhere else.
          rcases eq_or_ne hash txin.prevout.hash with rfl | hne
          · simp [hwaits]
          · simp [Function.update_of_ne hne, hne.symm]
  · rw [hread] at h
    cases h
    have hwaits : ¬Waits ctx s txin := fun hw => by simp [hw.1] at hread
    have hpresent : ¬Missing ctx s txin := fun hm => by simp [hm.1] at hread
    exact .inr ⟨_, rfl, by simpa using hpresent, by simp [hwaits], by simp [hwaits]⟩

theorem Seen.append {seen seen' : List CTxIn} (h : Seen ctx s porphan seen start scan)
    (h' : Seen ctx s porphan seen' scan scan') :
    Seen ctx s porphan (seen ++ seen') start scan' := by
  refine ⟨List.forall_mem_append.mpr ⟨h.present, h'.present⟩, ?_, fun hash p => ?_⟩
  · rw [h'.depends, h.depends]
    simp only [List.mem_append, or_and_right, exists_or, or_assoc]
  · rw [h'.numbers, h.numbers]
    simp only [List.mem_append, or_and_right, exists_or, and_or_left, or_assoc]

theorem scanInputs_eq_ok {vin : List CTxIn} {found : Bool}
    (h : scanInputs ctx args s porphan vin start = .ok (scan, found)) :
    ∃ seen rest, vin = seen ++ rest ∧ Seen ctx s porphan seen start scan ∧
      (found = true ∧ rest = [] ∨ found = false ∧ args.fDebug = false ∧
        ∃ txin tail, rest = txin :: tail ∧ Missing ctx s txin) := by
  induction vin generalizing start with
  | nil =>
    cases h
    exact ⟨[], [], rfl, ⟨by simp, by simp, by simp⟩, .inl ⟨rfl, rfl⟩⟩
  | cons txin vin ih =>
    obtain ⟨r, hone, h⟩ := bind_ok h
    rcases scanInput_eq_ok hone with ⟨rfl, hdebug, hmiss⟩ | ⟨scan', rfl, hseen⟩
    · cases h
      exact ⟨[], txin :: vin, rfl, ⟨by simp, by simp, by simp⟩,
        .inr ⟨rfl, hdebug, txin, vin, rfl, hmiss⟩⟩
    · obtain ⟨seen, rest, rfl, hrest, hend⟩ := ih h
      exact ⟨txin :: seen, rest, rfl, hseen.append hrest, hend⟩

/-! ## The numbers that are left behind -/

/-- What the loop over the pool keeps: the numbers are those of the list, and the ones that refer to a
place which is empty are those of the transactions that have been abandoned. -/
structure Waiting (ctx : Context) (args : MinerArgs) (s : NodeState) (done : List CTransaction)
    (c : Candidates) : Prop where
  bound : ∀ hash, ∀ p ∈ c.mapDependers hash, p < c.vOrphan.length
  empty_iff : ∀ hash, (∃ p ∈ c.mapDependers hash, c.vOrphan[p]? = some none) ↔
    ∃ tx ∈ done, Abandoned ctx args s tx hash

/-- What looking at a transaction of the pool adds to the list: itself when it waits, and an empty place
when it has been abandoned. -/
theorem collectTx_eq_ok (hskip : (tx.IsCoinBase || tx.IsCoinStake || !IsFinalTx env s tx nHeight 0) = false)
    (h : collectTx ctx env args s nHeight c tx = .ok c') :
    ∃ scan found added,
      scanInputs ctx args s c.vOrphan.length tx.vin ⟨none, c.mapDependers, 0, 0⟩ = .ok (scan, found) ∧
      c'.mapDependers = scan.mapDependers ∧ c'.vOrphan = c.vOrphan ++ added ∧
      (scan.setDependsOn.isSome = false ∧ added = [] ∨
        scan.setDependsOn.isSome = true ∧ found = true ∧ (∃ orphan, added = [some orphan]) ∨
        scan.setDependsOn.isSome = true ∧ found = false ∧ added = [none]) := by
  unfold collectTx at h
  rw [hskip, if_neg Bool.false_ne_true] at h
  obtain ⟨⟨scan, found⟩, hscan, h⟩ := bind_ok h
  dsimp only at h
  rcases found with _ | _
  · cases h
    refine ⟨scan, false, _, hscan, rfl, rfl, ?_⟩
    rcases scan.setDependsOn with _ | set <;> simp
  · rw [if_pos rfl] at h
    obtain ⟨nValueOut, -, h⟩ := bind_ok h
    rcases hset : scan.setDependsOn with _ | set
    · rw [hset] at h
      cases h
      exact ⟨scan, true, [], hscan, rfl, (List.append_nil _).symm, by simp [hset]⟩
    · rw [hset] at h
      cases h
      exact ⟨scan, true, _, hscan, rfl, rfl, by simp [hset]⟩

theorem abandoned_iff {seen rest : List CTxIn} {txin : CTxIn} {hash : UInt256}
    (hvin : tx.vin = seen ++ txin :: rest) (hdebug : args.fDebug = false)
    (hpresent : ∀ i ∈ seen, ¬Missing ctx s i) (hmiss : Missing ctx s txin) :
    Abandoned ctx args s tx hash ↔ ∃ i ∈ seen, Waits ctx s i ∧ i.prevout.hash = hash := by
  constructor
  · rintro ⟨-, seen', txin', rest', hvin', hmiss', hpresent', hwaits⟩
    -- There is one first input that is missing.
    have hsame : seen' = seen := by
      rw [hvin] at hvin'
      rcases List.append_eq_append_iff.mp hvin' with ⟨mid, rfl, hmid⟩ | ⟨mid, rfl, hmid⟩
      · rcases mid with _ | ⟨i, mid⟩
        · exact List.append_nil _
        · obtain ⟨rfl, -⟩ := List.cons.inj hmid
          exact absurd hmiss (hpresent' _ (by simp))
      · rcases mid with _ | ⟨i, mid⟩
        · exact (List.append_nil _).symm
        · obtain ⟨rfl, -⟩ := List.cons.inj hmid
          exact absurd hmiss' (hpresent _ (by simp))
    rwa [hsame] at hwaits
  · intro hwaits
    exact ⟨hdebug, seen, txin, rest, hvin, hmiss, hpresent, hwaits⟩

theorem not_abandoned {hash : UInt256} (hpresent : ∀ i ∈ tx.vin, ¬Missing ctx s i) :
    ¬Abandoned ctx args s tx hash := by
  rintro ⟨-, seen, txin, rest, hvin, hmiss, -⟩
  exact hpresent txin (by simp [hvin]) hmiss

theorem Waiting.collectTx {done : List CTransaction} (h : Waiting ctx args s done c)
    (hskip : (tx.IsCoinBase || tx.IsCoinStake || !IsFinalTx env s tx nHeight 0) = false)
    (hstep : collectTx ctx env args s nHeight c tx = .ok c') :
    Waiting ctx args s (done ++ [tx]) c' := by
  obtain ⟨scan, found, added, hscan, hmap, hlist, hadded⟩ := collectTx_eq_ok hskip hstep
  obtain ⟨seen, rest, hvin, hseen, hend⟩ := scanInputs_eq_ok hscan
  have hdepends : scan.setDependsOn.isSome = true ↔ ∃ i ∈ seen, Waits ctx s i := by
    simpa using hseen.depends
  -- The old numbers refer to what they referred to, and the new one to the element that is added.
  have hold : ∀ p < c.vOrphan.length, c'.vOrphan[p]? = c.vOrphan[p]? := fun p hp => by
    rw [hlist, List.getElem?_append_left hp]
  have hnew : c'.vOrphan[c.vOrphan.length]? = added[0]? := by
    rw [hlist, List.getElem?_append_right le_rfl, Nat.sub_self]
  constructor
  · intro hash p hp
    rw [hmap, hseen.numbers] at hp
    rw [hlist, List.length_append]
    rcases hp with hp | ⟨rfl, i, hi, hwaits, -⟩
    · exact Nat.lt_add_right _ (h.bound hash p hp)
    · have hsome := hdepends.mpr ⟨i, hi, hwaits⟩
      rcases hadded with ⟨hnone, -⟩ | ⟨-, -, orphan, rfl⟩ | ⟨-, -, rfl⟩
      · simp [hnone] at hsome
      · simp
      · simp
  · intro hash
    -- The number of the transaction refers to an empty place exactly when it is abandoned.
    have hlast : (added[0]? = some none ∧ ∃ i ∈ seen, Waits ctx s i ∧ i.prevout.hash = hash) ↔
        Abandoned ctx args s tx hash := by
      rcases hend with ⟨rfl, rfl⟩ | ⟨rfl, hdebug, txin, tail, rfl, hmiss⟩
      · have hnot : ¬Abandoned ctx args s tx hash :=
          not_abandoned (by rw [hvin, List.append_nil]; exact hseen.present)
        rcases hadded with ⟨-, rfl⟩ | ⟨-, -, orphan, rfl⟩ | ⟨-, hfalse, -⟩
        · simpa using hnot
        · simpa using hnot
        · simp at hfalse
      · rw [abandoned_iff hvin hdebug hseen.present hmiss]
        rcases hadded with ⟨hnone, rfl⟩ | ⟨-, hfalse, -⟩ | ⟨-, -, rfl⟩
        · refine ⟨fun hp => by simp at hp, fun ⟨i, hi, hwaits, _⟩ => ?_⟩
          have hsome := hdepends.mpr ⟨i, hi, hwaits⟩
          simp [hnone] at hsome
        · simp at hfalse
        · simp
    simp only [List.mem_append, List.mem_singleton, or_and_right, exists_or, exists_eq_left,
      ← h.empty_iff, ← hlast]
    rw [hmap]
    constructor
    · rintro ⟨p, hp, hemp⟩
      rcases (hseen.numbers hash p).mp hp with hp | ⟨rfl, hwaits⟩
      · exact .inl ⟨p, hp, (hold p (h.bound hash p hp)).symm.trans hemp⟩
      · exact .inr ⟨hnew.symm.trans hemp, hwaits⟩
    · rintro (⟨p, hp, hemp⟩ | ⟨hemp, hwaits⟩)
      · exact ⟨p, (hseen.numbers hash p).mpr (.inl hp), (hold p (h.bound hash p hp)).trans hemp⟩
      · exact ⟨_, (hseen.numbers hash _).mpr (.inr ⟨rfl, hwaits⟩), hnew.trans hemp⟩

/-- The numbers that the loop over the pool leaves refer to elements that are still in the list, but for
those of transactions that have been abandoned. -/
theorem collect_present_iff (h : collect ctx env args s nHeight = .ok c) (hash : UInt256) :
    (∀ p ∈ c.mapDependers hash, Present c.vOrphan p) ↔
      ∀ tx ∈ eligibleTxs env s nHeight, ¬Abandoned ctx args s tx hash := by
  have hwaiting : Waiting ctx args s (eligibleTxs env s nHeight) c := by
    refine foldlM_ok_induction (fun done c => Waiting ctx args s (done.filter fun tx =>
      !(tx.IsCoinBase || tx.IsCoinStake || !IsFinalTx env s tx nHeight 0)) c)
      ⟨by simp, by simp⟩ ?_ h
    intro done tx rest c c' _ hc hstep
    rw [List.filter_append]
    rcases hskip : (tx.IsCoinBase || tx.IsCoinStake || !IsFinalTx env s tx nHeight 0) with _ | _
    · rw [List.filter_singleton, hskip]
      exact hc.collectTx hskip hstep
    · rw [List.filter_singleton, hskip, (held_collectTx hstep).2 hskip]
      simpa using hc
  have hemp := hwaiting.empty_iff hash
  constructor
  · intro hpresent tx htx habandoned
    obtain ⟨p, hp, hnone⟩ := hemp.mpr ⟨tx, htx, habandoned⟩
    obtain ⟨orphan, horphan⟩ := hpresent p hp
    simp [hnone] at horphan
  · intro hnone p hp
    obtain ⟨place, hplace⟩ : ∃ place, c.vOrphan[p]? = some place :=
      ⟨_, List.getElem?_eq_getElem (hwaiting.bound hash p hp)⟩
    rcases place with _ | orphan
    · obtain ⟨tx, htx, habandoned⟩ := hemp.mp ⟨p, hp, hplace⟩
      exact absurd habandoned (hnone tx htx)
    · exact ⟨orphan, hplace⟩

end

/-! ## Following the numbers -/

section

variable {ctx : Context} {hash : UInt256} {p : ℕ} {a a' : Assembly} {pindexPrev : CBlockIndex}
  {fProofOfStake : Bool} {nTimeCoinbase : UInt32} {mapDependers : UInt256 → List ℕ}
  {candidate : TxPriority} {rest : List TxPriority}

theorem Present.releaseOrphan_ne (h : Present a.vOrphan porphan) {e : Failure} :
    releaseOrphan hash a porphan ≠ .error e := by
  obtain ⟨orphan, horphan⟩ := h
  unfold releaseOrphan
  rw [horphan]
  dsimp only
  split_ifs <;> simp

theorem Present.releaseOrphan (h : Present a.vOrphan p)
    (hstep : releaseOrphan hash a porphan = .ok a') : Present a'.vOrphan p := by
  have hset (orphan orphan' : COrphan) (horphan : a.vOrphan[porphan]? = some (some orphan)) :
      Present (a.vOrphan.set porphan (some orphan')) p := by
    rcases eq_or_ne porphan p with rfl | hne
    · exact ⟨orphan', List.getElem?_set_self (List.getElem?_eq_some_iff.mp horphan).1⟩
    · unfold Present
      rw [List.getElem?_set_ne hne]
      exact h
  unfold Mining.releaseOrphan at hstep
  split at hstep
  · rename_i orphan horphan
    dsimp only at hstep
    split_ifs at hstep <;> obtain rfl := Except.ok.inj hstep
    · exact h
    · exact hset orphan _ horphan
    · exact hset orphan _ horphan
  · simp at hstep

theorem ne_orphanRemoved {e : Failure} (h : InputFailure e) : e ≠ orphanRemoved := by
  rintro rfl
  simp [InputFailure, orphanRemoved, Failure.text, inputTexts] at h

theorem failsAsInputs_attempt {α : Type} {x : Except Failure α} (h : FailsWith InputFailure x) :
    FailsWith InputFailure (attempt x) := by
  intro e he
  rcases x with (⟨nDoS, msg⟩ | msg) | a
  · simp [attempt] at he
  · cases he
    exact h _ rfl
  · simp [attempt] at he

theorem failsAsInputs_connectCandidate {tx : CTransaction} :
    FailsWith InputFailure (connectCandidate ctx env s pindexPrev a tx) := by
  apply (failsAsInputs_attempt failsAsInputs_fetchInputs).bind
  intro fetched
  rcases fetched with _ | mapInputs
  · exact FailsWith.pure _
  apply failsAsInputs_getValueIn.bind
  intro nValueIn
  apply failsAsInputs_getValueOut.bind
  intro nValueOut
  apply failsAsInputs_getP2SHSigOpCount.bind
  intro nP2SH
  refine FailsWith.ite (FailsWith.pure _) ?_
  apply (failsAsInputs_attempt failsAsInputs_connectInputs).bind
  intro spent
  rcases spent with _ | spent
  · exact FailsWith.pure _
  · exact FailsWith.pure _

theorem Present.considerTx (h : Present a.vOrphan p)
    (hstep : considerTx ctx env args s pindexPrev fProofOfStake nTimeCoinbase mapDependers
      { a with vecPriority := rest } candidate = .ok a') : Present a'.vOrphan p := by
  unfold Mining.considerTx at hstep
  split_ifs at hstep with hskip
  · cases hstep
    exact h
  obtain ⟨added, -, hstep⟩ := bind_ok hstep
  rcases added with _ | ⟨nTxSigOps, nTxFees, mapTestPool⟩
  · cases hstep
    exact h
  exact foldlM_ok_induction (fun _ b => Present b.vOrphan p) h
    (fun _ _ _ _ _ _ hb hrelease => hb.releaseOrphan hrelease) hstep

/-- Considering a candidate follows no number to an empty place when none of its numbers refers to
one. -/
theorem considerTx_ne (h : ∀ p ∈ mapDependers (ctx.hashTx candidate.tx), Present a.vOrphan p) :
    considerTx ctx env args s pindexPrev fProofOfStake nTimeCoinbase mapDependers
      { a with vecPriority := rest } candidate ≠ .error orphanRemoved := by
  unfold considerTx
  split_ifs with hskip
  · simp
  apply except_bind_ne_error
    (failsAsInputs_connectCandidate.ne fun he => ne_orphanRemoved he rfl)
  intro added
  rcases added with _ | ⟨nTxSigOps, nTxFees, mapTestPool⟩
  · simp [pure, Except.pure]
  -- The numbers are followed one after the other, and each leaves the elements where they are.
  refine foldlM_ne_error (fun _ b =>
    ∀ p ∈ mapDependers (ctx.hashTx candidate.tx), Present b.vOrphan p) h ?_ ?_
  · intro _ _ _ b b' _ hb hrelease p hp
    exact (hb p hp).releaseOrphan hrelease
  · intro _ porphan _ b hl hb
    exact (hb porphan (by simp [hl])).releaseOrphan_ne

theorem fillBlock_ne_error {consider : Assembly → TxPriority → Except Failure Assembly}
    {P : Assembly → Prop} {e : Failure} (he : e ≠ .crash "CreateNewBlock does not return")
    (step : ∀ a candidate rest a', P a →
      popHeap a.fSortedByFee a.vecPriority = some (candidate, rest) →
        consider { a with vecPriority := rest } candidate = .ok a' → P a')
    (hconsider : ∀ a candidate rest, P a →
      popHeap a.fSortedByFee a.vecPriority = some (candidate, rest) →
        consider { a with vecPriority := rest } candidate ≠ .error e) {fuel : ℕ} (ha : P a) :
    fillBlock consider fuel a ≠ .error e := by
  induction fuel generalizing a with
  | zero =>
    unfold fillBlock
    split
    · simp
    · exact fun h => he (Except.error.inj h).symm
  | succ fuel ih =>
    unfold fillBlock
    rcases hpop : popHeap a.fSortedByFee a.vecPriority with _ | ⟨candidate, rest⟩
    · simp
    · intro h
      rcases except_bind_eq_error.mp h with h | ⟨b, hstep, h⟩
      · exact hconsider a candidate rest ha hpop h
      · exact ih (step a candidate rest b ha hpop hstep) h

/-! ## The other failures -/

/-- Some step fails otherwise than by following a number to an empty place. -/
abbrev FollowsNone {α : Type} (x : Except Failure α) : Prop := FailsWith (· ≠ orphanRemoved) x

theorem followsNone_index {i : Option UInt256} : FollowsNone (s.index i) :=
  failsAsInputs_index.mono fun _ he => ne_orphanRemoved he

theorem followsNone_target {pindexLast : UInt256} :
    FollowsNone (GetNextTargetRequired ctx s pindexLast fProofOfStake) := by
  have hlast (fuel : ℕ) (i : UInt256) : FollowsNone (lastBlockIndex s fProofOfStake fuel i) := by
    induction fuel generalizing i with
    | zero => exact FailsWith.error (by simp [orphanRemoved])
    | succ fuel ih =>
      refine followsNone_index.bind fun entry => ?_
      split
      · exact FailsWith.pure _
      · exact FailsWith.ite (ih _) (FailsWith.pure _)
  have hrnds (rounds : ℕ) (i : CBlockIndex) : FollowsNone (scanRounds s rounds i) := by
    induction rounds generalizing i with
    | zero => exact FailsWith.ok _
    | succ rounds ih =>
      refine followsNone_index.bind fun prev => ?_
      exact (ih prev).bind fun scan => FailsWith.pure _
  refine followsNone_index.bind fun last => ?_
  refine FailsWith.ite (FailsWith.pure _) ?_
  refine (followsNone_index.bind fun i => hlast _ _).bind fun velocity => ?_
  refine FailsWith.bind ?_ fun average => ?_
  · refine (hrnds _ _).bind fun scan => ?_
    exact (followsNone_index.bind fun prev => FailsWith.pure _).bind fun times => FailsWith.pure _
  · exact FailsWith.ite (FailsWith.error (by simp [orphanRemoved])) (FailsWith.ok _)

theorem followsNone_collect {nHeight : ℕ} : FollowsNone (collect ctx env args s nHeight) := by
  have hone (porphan : ℕ) (scan : InputScan) (txin : CTxIn) :
      FollowsNone (scanInput ctx args s porphan scan txin) := by
    unfold scanInput
    repeat' split
    all_goals first
      | exact FailsWith.ok _
      | exact FailsWith.error (by simp [orphanRemoved])
  have hall (porphan : ℕ) (vin : List CTxIn) (scan : InputScan) :
      FollowsNone (scanInputs ctx args s porphan vin scan) := by
    induction vin generalizing scan with
    | nil => exact FailsWith.ok _
    | cons txin vin ih =>
      refine (hone _ _ _).bind fun r => ?_
      rcases r with _ | scan
      · exact FailsWith.pure _
      · exact ih scan
  refine FailsWith.foldlM (fun c tx => ?_) _ _
  refine FailsWith.ite (FailsWith.ok _) ((hall _ _ _).bind fun r => ?_)
  refine FailsWith.ite ?_ (FailsWith.pure _)
  refine (failsAsInputs_getValueOut.mono fun _ he => ne_orphanRemoved he).bind fun nValueOut => ?_
  split
  · exact FailsWith.pure _
  · exact FailsWith.pure _

theorem followsNone_rewardedVtx {nHeight : ℕ} :
    FollowsNone (rewardedVtx ctx s nHeight fProofOfStake a) := by
  refine FailsWith.ite (FailsWith.ok _) (FailsWith.bind ?_ fun nReward => FailsWith.pure _)
  refine (followsNone_index.bind fun best => FailsWith.pure _).bind fun rand => ?_
  refine followsNone_index.bind fun best => ?_
  refine FailsWith.ite (FailsWith.ite ?_ ?_) (FailsWith.ite ?_ ?_) <;> exact FailsWith.pure _

end

/-- Where no transaction that can be selected has an abandoned one waiting for it, `CreateNewBlock`
follows every number to an element that is still in the list. -/
theorem createNewBlock_followsNone {ctx : Context} {reservekey : Option CKeyID}
    {fProofOfStake : Bool} (h : NoneAbandoned ctx env args s) :
    CreateNewBlock ctx env args reservekey fProofOfStake s ≠ .error orphanRemoved := by
  intro hfail
  unfold CreateNewBlock at hfail
  rcases except_bind_eq_error.mp hfail with hfail | ⟨pindexPrev, hbest, hfail⟩
  · exact followsNone_index.ne (by simp) hfail
  by_cases hkey : fProofOfStake = false ∧ reservekey = none
  · rw [if_pos hkey] at hfail
    simp [pure, Except.pure] at hfail
  rw [if_neg hkey] at hfail
  rcases except_bind_eq_error.mp hfail with hfail | ⟨⟨⟩, -, hfail⟩
  · obtain ⟨-, he⟩ := ensure_eq_error.mp hfail
    simp [orphanRemoved] at he
  rcases except_bind_eq_error.mp hfail with hfail | ⟨nBits, -, hfail⟩
  · exact followsNone_target.ne (by simp) hfail
  rcases except_bind_eq_error.mp hfail with hfail | ⟨candidates, hcands, hfail⟩
  · exact followsNone_collect.ne (by simp) hfail
  rcases except_bind_eq_error.mp hfail with hfail | ⟨filled, -, hfail⟩
  · -- A candidate is one of the pool, so its numbers are among those that were left intact.
    refine fillBlock_ne_error (P := fun a =>
      (∀ tx ∈ eligibleTxs env s (pindexPrev.nHeight + 1),
        ∀ p ∈ candidates.mapDependers (ctx.hashTx tx), Present a.vOrphan p) ∧
      ∃ sel, Fills args (eligibleTxs env s (pindexPrev.nHeight + 1))
        (baseOf env fProofOfStake reservekey pindexPrev) a sel) (by simp [orphanRemoved]) ?_ ?_
      ⟨fun tx htx => ?_, [], Fills.start hcands⟩ hfail
    · rintro a candidate rest a' ⟨hpresent, sel, hfills⟩ hpop hstep
      exact ⟨fun tx htx p hp => (hpresent tx htx p hp).considerTx hstep,
        hfills.considerTx (popHeap_perm hpop) hstep⟩
    · rintro a candidate rest ⟨hpresent, sel, hfills⟩ hpop
      exact considerTx_ne (hpresent _ ((hfills.subperm (popHeap_perm hpop)).subset
        List.mem_concat_self))
    · exact (collect_present_iff hcands _).mpr (h pindexPrev hbest tx htx)
  rcases except_bind_eq_error.mp hfail with hfail | ⟨vtx, -, hfail⟩
  · exact followsNone_rewardedVtx.ne (by simp) hfail
  · simp [pure, Except.pure] at hfail

end ZalemCoin.Mining
