import ZalemCoin.Floatingcity.BlockHashes
import ZalemCoin.Floatingcity.Lookups

/-!
# The ranks of the masternodes

For every block the masternodes have scores, and the place of one in the order of the scores is its
rank. `GetFloatingcityRank` finds the rank of an input and `GetFloatingcityByRank` the masternode of a
rank; each makes the list of scores for itself and sorts it. The lists are the same, because the second
call finds the entries as the first one has left them and bringing them up to date twice is the same as
doing it once (`check_check`). So the functions are inverse to each other, however the sort orders
masternodes with the same score.
-/

namespace ZalemCoin.Floatingcity

open Lib Chain
open Except (ok.inj)
open Lib.Action (get_bind bind_of_ok)

structure ScoreHash where
  /-- `Hash` of the bytes of one number. -/
  Hash : UInt256 → UInt256
  /-- `Hash` of the bytes of two numbers. -/
  HashPair : UInt256 → UInt256 → UInt256

/-- `std::sort` over reverse iterators: the greatest score comes first, and the order of equal ones is
left open. -/
structure DescendingSort where
  sort : {α : Type} → List (UInt32 × α) → List (UInt32 × α)
  perm : ∀ {α : Type} (l : List (UInt32 × α)), (sort l).Perm l
  sorted : ∀ {α : Type} (l : List (UInt32 × α)), (sort l).Pairwise fun s t => t.1 ≤ s.1

structure RankNode extends HashNode where
  mnodeman : CFloatingcityMan

/-- A call on the masternodes. -/
abbrev RankM := Action RankNode Failure

def blockHash (nBlockHeight : ℤ) : RankM (Option UInt256) := fun n =>
  ((GetBlockHash nBlockHeight n.toHashNode).1,
    { n with toHashNode := (GetBlockHash nBlockHeight n.toHashNode).2 })

def CFloatingcity.CalculateScore (hasher : ScoreHash) (nBlockHeight : ℤ) (mn : CFloatingcity) :
    RankM UInt256 := do
  let n ← Action.get
  if n.chain.pindexBest = none then pure 0
  else do
    let aux := mn.vin.prevout.hash + BitVec.ofNat 256 mn.vin.prevout.n.toNat
    match ← blockHash nBlockHeight with
    | none => pure 0
    | some hash =>
      let hash2 := hasher.Hash hash
      let hash3 := hasher.HashPair hash aux
      pure (if hash2 < hash3 then hash3 - hash2 else hash2 - hash3)

/-- The loop over the masternodes: each one is brought up to date, and may get a score. -/
def scoreLoop {α : Type} (entry : CFloatingcity → RankM (CFloatingcity × Option (UInt32 × α))) :
    List CFloatingcity → RankM (List CFloatingcity × List (UInt32 × α))
  | [] => pure ([], [])
  | mn :: rest => do
    let (mn, score) ← entry mn
    let (entries, scores) ← scoreLoop entry rest
    pure (mn :: entries, score.toList ++ scores)

def vecFloatingcityScores {α : Type}
    (entry : CFloatingcity → RankM (CFloatingcity × Option (UInt32 × α))) :
    RankM (List (UInt32 × α)) := do
  let n ← Action.get
  let (entries, scores) ← scoreLoop entry n.mnodeman.vFloatingcities
  Action.modify fun n => { n with mnodeman := { n.mnodeman with vFloatingcities := entries } }
  pure scores

section

variable (ctx : Context) (hasher : ScoreHash) (stdSort : DescendingSort) (env : FcEnv)

/-- The score of a masternode, whose first four bytes count. -/
def scoreOf {α : Type} (nBlockHeight : ℤ) (item : CFloatingcity → α) (mn : CFloatingcity) :
    RankM (CFloatingcity × Option (UInt32 × α)) := do
  let n ← mn.CalculateScore hasher nBlockHeight
  pure (mn, some (UInt32.ofNat n.toNat, item mn))

/-- One masternode in the loops of `GetFloatingcityRank` and `GetFloatingcityByRank`. -/
def rankEntry (nBlockHeight minProtocol : ℤ) (fOnlyActive : Bool) (mn : CFloatingcity) :
    RankM (CFloatingcity × Option (UInt32 × CTxIn)) :=
  if mn.protocolVersion < minProtocol then pure (mn, none)
  else if fOnlyActive then do
    let mn ← Action.reading fun n => mn.Check ctx env n.chain
    if mn.IsEnabled = false then pure (mn, none)
    else scoreOf hasher nBlockHeight CFloatingcity.vin mn
  else scoreOf hasher nBlockHeight CFloatingcity.vin mn

def rankLoop (vin : CTxIn) : List (UInt32 × CTxIn) → ℤ → ℤ
  | [], _ => -1
  | s :: rest, rank => if s.2 = vin then rank + 1 else rankLoop vin rest (rank + 1)

def byRankLoop (nRank : ℤ) : List (UInt32 × CTxIn) → ℤ → Option CTxIn
  | [], _ => none
  | s :: rest, rank => if rank + 1 = nRank then some s.2 else byRankLoop nRank rest (rank + 1)

def GetFloatingcityRank (vin : CTxIn) (nBlockHeight minProtocol : ℤ) (fOnlyActive : Bool) :
    RankM ℤ := do
  -- make sure we know about this block
  match ← blockHash nBlockHeight with
  | none => pure (-1)
  | some _ => do
    let scores ← vecFloatingcityScores (rankEntry ctx hasher env nBlockHeight minProtocol fOnlyActive)
    pure (rankLoop vin (stdSort.sort scores) 0)

def GetFloatingcityByRank (nRank nBlockHeight minProtocol : ℤ) (fOnlyActive : Bool) :
    RankM (Option ℕ) := do
  let scores ← vecFloatingcityScores (rankEntry ctx hasher env nBlockHeight minProtocol fOnlyActive)
  let n ← Action.get
  pure ((byRankLoop nRank (stdSort.sort scores) 0).bind n.mnodeman.Find)

/-- Whether a masternode has a rank: its protocol is not too old, and it is enabled once it is up to
date. -/
def isRanked (s : NodeState) (minProtocol : ℤ) (mn : CFloatingcity) : Bool :=
  decide (minProtocol ≤ mn.protocolVersion) &&
    match mn.Check ctx env s with
    | .ok mn' => mn'.IsEnabled
    | .error _ => false

end

variable {ctx : Context} {hasher : ScoreHash} {stdSort : DescendingSort} {env : FcEnv}
  {s : NodeState} {mn mn' : CFloatingcity} {n n' : RankNode} {nBlockHeight minProtocol : ℤ}
  {hash : UInt256}

/-! ## Entries that are brought up to date -/

theorem check_eq (h : mn.Check ctx env s = .ok mn') :
    ∃ state, mn' = { mn with activeState := state } := by
  unfold CFloatingcity.Check at h
  split_ifs at h
  · exact ⟨mn.activeState, (ok.inj h).symm⟩
  · exact ⟨mn.activeState, (ok.inj h).symm⟩
  · exact ⟨_, (ok.inj h).symm⟩
  · exact ⟨_, (ok.inj h).symm⟩
  · split at h
    · exact ⟨_, (ok.inj h).symm⟩
    · exact nomatch h
    · exact ⟨_, (ok.inj h).symm⟩

theorem check_withState {state : ActiveState} (hst : state ≠ .FLOATINGCITY_VIN_SPENT)
    (hskip : ¬(env.shutdownRequested = true ∨ env.lockMain mn.vin.prevout = false))
    (hspent : mn.activeState ≠ .FLOATINGCITY_VIN_SPENT) :
    CFloatingcity.Check ctx env s { mn with activeState := state } = mn.Check ctx env s := by
  unfold CFloatingcity.Check
  rw [if_neg hskip, if_neg hskip, if_neg hst, if_neg hspent]
  rfl

theorem check_check (h : mn.Check ctx env s = .ok mn') : mn'.Check ctx env s = .ok mn' := by
  by_cases hskip : env.shutdownRequested = true ∨ env.lockMain mn.vin.prevout = false
  · have hrun := h
    unfold CFloatingcity.Check at hrun
    rw [if_pos hskip] at hrun
    rw [← ok.inj hrun] at h ⊢
    exact h
  by_cases hspent : mn.activeState = .FLOATINGCITY_VIN_SPENT
  · have hrun := h
    unfold CFloatingcity.Check at hrun
    rw [if_neg hskip, if_pos hspent] at hrun
    rw [← ok.inj hrun] at h ⊢
    exact h
  obtain ⟨state, rfl⟩ := check_eq h
  by_cases hst : state = .FLOATINGCITY_VIN_SPENT
  · -- A spent collateral is not looked at again.
    unfold CFloatingcity.Check
    rw [if_neg hskip, if_pos hst]
  · rw [check_withState hst hskip hspent, h]

/-- An entry as the loops leave it. -/
def upToDate (ctx : Context) (env : FcEnv) (s : NodeState) (minProtocol : ℤ) (mn : CFloatingcity) :
    CFloatingcity :=
  if mn.protocolVersion < minProtocol then mn
  else
    match mn.Check ctx env s with
    | .ok mn' => mn'
    | .error _ => mn

theorem upToDate_eq (mn : CFloatingcity) :
    ∃ state, upToDate ctx env s minProtocol mn = { mn with activeState := state } := by
  unfold upToDate
  split_ifs
  · exact ⟨mn.activeState, rfl⟩
  · rcases hchk : mn.Check ctx env s with e | mn'
    · exact ⟨mn.activeState, rfl⟩
    · exact check_eq hchk

@[simp]
theorem upToDate_vin (mn : CFloatingcity) : (upToDate ctx env s minProtocol mn).vin = mn.vin := by
  obtain ⟨state, heq⟩ := @upToDate_eq ctx env s minProtocol mn
  rw [heq]

@[simp]
theorem upToDate_protocolVersion (mn : CFloatingcity) :
    (upToDate ctx env s minProtocol mn).protocolVersion = mn.protocolVersion := by
  obtain ⟨state, heq⟩ := @upToDate_eq ctx env s minProtocol mn
  rw [heq]

theorem check_upToDate (h : ¬mn.protocolVersion < minProtocol) (hchk : mn.Check ctx env s = .ok mn') :
    upToDate ctx env s minProtocol mn = mn' ∧
      (upToDate ctx env s minProtocol mn).Check ctx env s = .ok mn' := by
  have hdone : upToDate ctx env s minProtocol mn = mn' := by
    unfold upToDate
    rw [if_neg h, hchk]
  rw [hdone]
  exact ⟨rfl, check_check hchk⟩

/-! ## The block hash and the scores -/

def KnowsHash (nBlockHeight : ℤ) (hash : UInt256) (n : HashNode) : Prop :=
  GetBlockHash nBlockHeight n = (.ok (some hash), n)

theorem knowsHash_of_lookup {n n' : HashNode}
    (h : GetBlockHash nBlockHeight n = (.ok (some hash), n')) :
    KnowsHash nBlockHeight hash n' ∧ n'.chain = n.chain := by
  unfold GetBlockHash at h
  rcases htip : n.chain.pindexBest with _ | tip
  · rw [htip] at h
    exact nomatch h
  rw [htip] at h
  dsimp only at h
  rcases hbest : n.chain.index (some tip) with e | best
  · rw [hbest] at h
    exact nomatch h
  rw [hbest] at h
  -- The cache has the hash, either before or because the lookup has put it there.
  obtain ⟨hchain, hcached⟩ : n'.chain = n.chain ∧ n'.mapCacheBlockHashes
      (if nBlockHeight = 0 then best.nHeight else nBlockHeight) = some hash := by
    rcases lookup_cases h with ⟨rfl, hold⟩ | ⟨hash', hr, hchain, hcache, -, -⟩
    · exact ⟨rfl, hold hash rfl⟩
    · refine ⟨hchain, ?_⟩
      rw [hcache, Function.update_self, Option.some.inj (ok.inj hr)]
  refine ⟨?_, hchain⟩
  unfold KnowsHash GetBlockHash
  rw [hchain, htip]
  dsimp only
  rw [hbest]
  dsimp only
  unfold HashNode.lookup
  rw [hcached]

theorem blockHash_eq (h : KnowsHash nBlockHeight hash n.toHashNode) :
    blockHash nBlockHeight n = (.ok (some hash), n) := by
  unfold blockHash
  rw [show GetBlockHash nBlockHeight n.toHashNode = _ from h]

def scoreAt (hasher : ScoreHash) (hash : UInt256) (vin : CTxIn) : UInt32 :=
  let aux := vin.prevout.hash + BitVec.ofNat 256 vin.prevout.n.toNat
  let hash2 := hasher.Hash hash
  let hash3 := hasher.HashPair hash aux
  UInt32.ofNat (if hash2 < hash3 then hash3 - hash2 else hash2 - hash3).toNat

theorem scoreOf_eq {α : Type} (h : KnowsHash nBlockHeight hash n.toHashNode)
    (item : CFloatingcity → α) (mn : CFloatingcity) :
    scoreOf hasher nBlockHeight item mn n
      = (.ok (mn, some (scoreAt hasher hash mn.vin, item mn)), n) := by
  have htip : n.chain.pindexBest ≠ none := by
    intro hnone
    unfold KnowsHash GetBlockHash at h
    rw [hnone] at h
    exact nomatch h
  have hscore : ∃ score, mn.CalculateScore hasher nBlockHeight n = (.ok score, n) ∧
      UInt32.ofNat score.toNat = scoreAt hasher hash mn.vin := by
    unfold CFloatingcity.CalculateScore
    rw [get_bind, if_neg htip, bind_of_ok (blockHash_eq h)]
    exact ⟨_, rfl, rfl⟩
  obtain ⟨score, hrun, heq⟩ := hscore
  unfold scoreOf
  rw [bind_of_ok hrun, heq, Action.pure_apply]

/-! ## The lists of scores -/

theorem scoreLoop_eq {α : Type} {entry : CFloatingcity → RankM (CFloatingcity × Option (UInt32 × α))}
    {f : CFloatingcity → CFloatingcity × Option (UInt32 × α)} (l : List CFloatingcity)
    (h : ∀ mn ∈ l, entry mn n = (.ok (f mn), n)) :
    scoreLoop entry l n
      = (.ok (l.map fun mn => (f mn).1, l.filterMap fun mn => (f mn).2), n) := by
  induction l with
  | nil => rfl
  | cons mn rest ih =>
    have hrest := ih fun mn' hmem => h mn' (List.mem_cons_of_mem _ hmem)
    have hfst := h mn List.mem_cons_self
    rw [List.map_cons, List.filterMap_cons]
    unfold scoreLoop
    rw [bind_of_ok hfst]
    dsimp only
    rw [bind_of_ok hrest]
    rcases f mn with ⟨mn', _ | score⟩ <;> rfl

/-- The masternodes after a pass over them. -/
def RankNode.setEntries (n : RankNode) (vFloatingcities : List CFloatingcity) : RankNode :=
  { n with mnodeman := { n.mnodeman with vFloatingcities := vFloatingcities } }

theorem vecFloatingcityScores_eq {α : Type}
    {entry : CFloatingcity → RankM (CFloatingcity × Option (UInt32 × α))}
    {f : CFloatingcity → CFloatingcity × Option (UInt32 × α)}
    (h : ∀ mn ∈ n.mnodeman.vFloatingcities, entry mn n = (.ok (f mn), n)) :
    vecFloatingcityScores entry n
      = (.ok (n.mnodeman.vFloatingcities.filterMap fun mn => (f mn).2),
        n.setEntries (n.mnodeman.vFloatingcities.map fun mn => (f mn).1)) := by
  unfold vecFloatingcityScores
  rw [get_bind, bind_of_ok (scoreLoop_eq _ h)]
  rfl

def rankScores (ctx : Context) (hasher : ScoreHash) (env : FcEnv) (s : NodeState) (hash : UInt256)
    (minProtocol : ℤ) (l : List CFloatingcity) : List (UInt32 × CTxIn) :=
  (l.filter (isRanked ctx env s minProtocol)).map fun mn => (scoreAt hasher hash mn.vin, mn.vin)

theorem rankEntry_eq (hknown : KnowsHash nBlockHeight hash n.toHashNode)
    (hchk : minProtocol ≤ mn.protocolVersion → ∃ mn', mn.Check ctx env n.chain = .ok mn') :
    rankEntry ctx hasher env nBlockHeight minProtocol true mn n
      = (.ok (upToDate ctx env n.chain minProtocol mn,
          if isRanked ctx env n.chain minProtocol mn then
            some (scoreAt hasher hash mn.vin, mn.vin) else none), n) := by
  unfold rankEntry upToDate isRanked
  by_cases hold : mn.protocolVersion < minProtocol
  · rw [if_pos hold, if_pos hold, decide_eq_false (not_le.mpr hold)]
    rfl
  · obtain ⟨mn', hrun⟩ := hchk (not_lt.mp hold)
    obtain ⟨state, heq⟩ := check_eq hrun
    rw [if_neg hold, if_neg hold, if_pos rfl, decide_eq_true (not_lt.mp hold), hrun,
      bind_of_ok (show (Action.reading fun n : RankNode => mn.Check ctx env n.chain) n
        = (.ok mn', n) by rw [Action.reading_apply, hrun])]
    by_cases henabled : mn'.IsEnabled = true
    · have hvin : mn'.vin = mn.vin := by rw [heq]
      rw [if_neg (by rw [henabled]; decide), scoreOf_eq hknown, hvin]
      simp [henabled]
    · rw [if_pos (by simpa using henabled)]
      simp [henabled]

theorem scores_eq (hknown : KnowsHash nBlockHeight hash n.toHashNode)
    (hchecks : ∀ mn ∈ n.mnodeman.vFloatingcities, minProtocol ≤ mn.protocolVersion →
      ∃ mn', mn.Check ctx env n.chain = .ok mn') :
    vecFloatingcityScores (rankEntry ctx hasher env nBlockHeight minProtocol true) n
      = (.ok (rankScores ctx hasher env n.chain hash minProtocol n.mnodeman.vFloatingcities),
        n.setEntries (n.mnodeman.vFloatingcities.map (upToDate ctx env n.chain minProtocol))) := by
  have hscores : ∀ l, rankScores ctx hasher env n.chain hash minProtocol l = l.filterMap fun mn =>
      if isRanked ctx env n.chain minProtocol mn then some (scoreAt hasher hash mn.vin, mn.vin)
      else none := by
    intro l
    unfold rankScores
    rw [← List.filterMap_eq_map', List.filterMap_filter]
  rw [vecFloatingcityScores_eq fun mn hmem => rankEntry_eq hknown (hchecks mn hmem), hscores]

theorem isRanked_upToDate (hchk : minProtocol ≤ mn.protocolVersion →
      ∃ mn', mn.Check ctx env s = .ok mn') :
    isRanked ctx env s minProtocol (upToDate ctx env s minProtocol mn)
      = isRanked ctx env s minProtocol mn := by
  unfold isRanked
  rw [upToDate_protocolVersion]
  by_cases hold : mn.protocolVersion < minProtocol
  · rw [decide_eq_false (not_le.mpr hold), Bool.false_and, Bool.false_and]
  · obtain ⟨mn', hrun⟩ := hchk (not_lt.mp hold)
    rw [(check_upToDate hold hrun).2, hrun]

theorem rankScores_upToDate {l : List CFloatingcity}
    (hchecks : ∀ mn ∈ l, minProtocol ≤ mn.protocolVersion →
      ∃ mn', mn.Check ctx env s = .ok mn') :
    rankScores ctx hasher env s hash minProtocol (l.map (upToDate ctx env s minProtocol))
      = rankScores ctx hasher env s hash minProtocol l := by
  unfold rankScores
  rw [List.filter_map, List.map_map]
  have hsame : l.filter (isRanked ctx env s minProtocol ∘ upToDate ctx env s minProtocol)
      = l.filter (isRanked ctx env s minProtocol) :=
    List.filter_congr fun mn hmem => isRanked_upToDate (hchecks mn hmem)
  rw [hsame]
  apply List.map_congr_left
  intro mn _
  dsimp only [Function.comp_apply]
  rw [upToDate_vin]

theorem checks_upToDate {l : List CFloatingcity}
    (hchecks : ∀ mn ∈ l, minProtocol ≤ mn.protocolVersion →
      ∃ mn', mn.Check ctx env s = .ok mn') :
    ∀ mn ∈ l.map (upToDate ctx env s minProtocol), minProtocol ≤ mn.protocolVersion →
      ∃ mn', mn.Check ctx env s = .ok mn' := by
  intro mn' hmem hprotocol
  obtain ⟨mn, hmn, rfl⟩ := List.mem_map.mp hmem
  rw [upToDate_protocolVersion] at hprotocol
  obtain ⟨mn', hrun⟩ := hchecks mn hmn hprotocol
  exact ⟨mn', (check_upToDate (not_lt.mpr hprotocol) hrun).2⟩

/-! ## The two loops -/

variable (l : List (UInt32 × CTxIn))
include l

theorem rankLoop_eq {vin : CTxIn} (rank : ℤ) (h : vin ∈ l.map Prod.snd) :
    rankLoop vin l rank = rank + (l.map Prod.snd).idxOf vin + 1 := by
  induction l generalizing rank with
  | nil => exact nomatch h
  | cons s rest ih =>
    unfold rankLoop
    rw [List.map_cons, List.idxOf_cons]
    by_cases hvin : s.2 = vin
    · rw [if_pos hvin, cond_eq_ite, if_pos (by simpa using hvin)]
      simp
    · have hrest : vin ∈ rest.map Prod.snd := by
        rw [List.map_cons] at h
        exact (List.mem_cons.mp h).resolve_left fun heq => hvin heq.symm
      rw [if_neg hvin, ih _ hrest, cond_eq_ite, if_neg (by simpa using hvin)]
      omega

theorem map_rankLoop (hnd : (l.map Prod.snd).Nodup) :
    (l.map Prod.snd).map (fun vin => rankLoop vin l 0)
      = (List.range' 1 l.length).map fun rank : ℕ => (rank : ℤ) := by
  apply List.ext_getElem
  · rw [List.length_map, List.length_map, List.length_map, List.length_range']
  · intro i hi _
    rw [List.length_map] at hi
    rw [List.getElem_map, rankLoop_eq _ _ (List.getElem_mem hi), List.Nodup.idxOf_getElem hnd,
      List.getElem_map, List.getElem_range']
    omega

theorem byRankLoop_eq (rank : ℤ) (i : ℕ) :
    byRankLoop (rank + i + 1) l rank = (l.map Prod.snd)[i]? := by
  induction l generalizing rank i with
  | nil => rfl
  | cons s rest ih =>
    unfold byRankLoop
    cases i with
    | zero => rw [if_pos (by simp)]; rfl
    | succ i =>
      rw [if_neg (by omega), show rank + (i + 1 : ℕ) + 1 = rank + 1 + i + 1 by omega, ih]
      rfl

omit l

theorem find_eq_some {man : CFloatingcityMan} {place : ℕ} {vin : CTxIn}
    (hdist : (man.vFloatingcities.map fun mn => mn.vin.prevout).Nodup)
    (hmn : man.vFloatingcities[place]? = some mn) (hvin : mn.vin.prevout = vin.prevout) :
    man.Find vin = some place := by
  unfold CFloatingcityMan.Find
  obtain ⟨hlt, hget⟩ := List.getElem?_eq_some_iff.mp hmn
  rw [List.findIdx?_eq_some_iff_getElem]
  refine ⟨hlt, by simp [hget, hvin], fun j hj hbef => ?_⟩
  -- An earlier entry with the outpoint would be a second one.
  have hsame : (man.vFloatingcities.map fun mn => mn.vin.prevout)[j]?
      = (man.vFloatingcities.map fun mn => mn.vin.prevout)[place]? := by
    rw [List.getElem?_map, List.getElem?_map, hmn, List.getElem?_eq_getElem (by omega),
      Option.map_some, Option.map_some, hvin]
    simpa using hbef
  have heq := (List.getElem?_inj (by rw [List.length_map]; omega) hdist).mp hsame
  omega

/-! ## The ranks -/

def RankNode.ranked (ctx : Context) (env : FcEnv) (minProtocol : ℤ) (n : RankNode) (m : HashNode) :
    RankNode :=
  RankNode.setEntries { n with toHashNode := m }
    (n.mnodeman.vFloatingcities.map (upToDate ctx env n.chain minProtocol))

section

variable {m : HashNode}
  (hlookup : GetBlockHash nBlockHeight n.toHashNode = (.ok (some hash), m))
  (hchecks : ∀ mn ∈ n.mnodeman.vFloatingcities, minProtocol ≤ mn.protocolVersion →
    ∃ mn', mn.Check ctx env n.chain = .ok mn')

include hlookup hchecks

theorem getFloatingcityRank_eq (vin : CTxIn) :
    GetFloatingcityRank ctx hasher stdSort env vin nBlockHeight minProtocol true n
      = (.ok (rankLoop vin (stdSort.sort (rankScores ctx hasher env n.chain hash minProtocol
          n.mnodeman.vFloatingcities)) 0), n.ranked ctx env minProtocol m) := by
  obtain ⟨hknown, hchain⟩ := knowsHash_of_lookup hlookup
  unfold GetFloatingcityRank
  rw [bind_of_ok (show blockHash nBlockHeight n
    = (.ok (some hash), { n with toHashNode := m }) by unfold blockHash; rw [hlookup])]
  have hchks' : ∀ mn ∈ ({ n with toHashNode := m } : RankNode).mnodeman.vFloatingcities,
      minProtocol ≤ mn.protocolVersion →
        ∃ mn', mn.Check ctx env ({ n with toHashNode := m } : RankNode).chain = .ok mn' := by
    rw [hchain]
    exact hchecks
  have hscores := @scores_eq ctx hasher env { n with toHashNode := m } nBlockHeight minProtocol hash
    hknown hchks'
  dsimp only
  rw [bind_of_ok hscores]
  rw [hchain]
  rfl

theorem getFloatingcityByRank_eq (nRank : ℤ) :
    (GetFloatingcityByRank ctx hasher stdSort env nRank nBlockHeight minProtocol true
        (n.ranked ctx env minProtocol m)).1
      = .ok ((byRankLoop nRank (stdSort.sort (rankScores ctx hasher env n.chain hash minProtocol
          n.mnodeman.vFloatingcities)) 0).bind
            { n.mnodeman with
              vFloatingcities := (n.mnodeman.vFloatingcities.map
                (upToDate ctx env n.chain minProtocol)).map
                  (upToDate ctx env n.chain minProtocol) }.Find) := by
  obtain ⟨hknown, hchain⟩ := knowsHash_of_lookup hlookup
  have hchain' : (n.ranked ctx env minProtocol m).chain = n.chain := hchain
  have hchks' : ∀ mn ∈ (n.ranked ctx env minProtocol m).mnodeman.vFloatingcities,
      minProtocol ≤ mn.protocolVersion →
        ∃ mn', mn.Check ctx env (n.ranked ctx env minProtocol m).chain = .ok mn' := by
    rw [hchain']
    exact checks_upToDate hchecks
  have hscores := @scores_eq ctx hasher env (n.ranked ctx env minProtocol m) nBlockHeight minProtocol
    hash hknown hchks'
  unfold GetFloatingcityByRank
  rw [bind_of_ok hscores, hchain', get_bind]
  unfold RankNode.ranked RankNode.setEntries
  rw [rankScores_upToDate hchecks]
  rfl

end

/-- At a block with a known hash, the rank of every enabled masternode leads back to the masternode, and
the ranks of the enabled masternodes are the numbers from one on, each once. -/
theorem ranks_inverse {m : HashNode}
    (hlookup : GetBlockHash nBlockHeight n.toHashNode = (.ok (some hash), m))
    (hdistinct : (n.mnodeman.vFloatingcities.map fun mn => mn.vin.prevout).Nodup)
    (hchecks : ∀ mn ∈ n.mnodeman.vFloatingcities, minProtocol ≤ mn.protocolVersion →
      ∃ mn', mn.Check ctx env n.chain = .ok mn') :
    (∀ place mn, n.mnodeman.vFloatingcities[place]? = some mn →
      isRanked ctx env n.chain minProtocol mn = true →
        ∃ rank n', GetFloatingcityRank ctx hasher stdSort env mn.vin nBlockHeight minProtocol true n
            = (.ok rank, n') ∧
          (GetFloatingcityByRank ctx hasher stdSort env rank nBlockHeight minProtocol true n').1
            = .ok (some place)) ∧
      ((n.mnodeman.vFloatingcities.filter (isRanked ctx env n.chain minProtocol)).map fun mn =>
          (GetFloatingcityRank ctx hasher stdSort env mn.vin nBlockHeight minProtocol true n).1).Perm
        ((List.range' 1 (n.mnodeman.vFloatingcities.filter
          (isRanked ctx env n.chain minProtocol)).length).map fun rank : ℕ => .ok (rank : ℤ)) := by
  -- The inputs in the order of the ranks: those of the ranked masternodes, each once.
  have hperm : ((stdSort.sort (rankScores ctx hasher env n.chain hash minProtocol
      n.mnodeman.vFloatingcities)).map Prod.snd).Perm ((n.mnodeman.vFloatingcities.filter
        (isRanked ctx env n.chain minProtocol)).map CFloatingcity.vin) := by
    have hsort := (stdSort.perm (rankScores ctx hasher env n.chain hash minProtocol
      n.mnodeman.vFloatingcities)).map Prod.snd
    unfold rankScores at hsort ⊢
    rw [List.map_map] at hsort
    exact hsort
  have hnodup : ((stdSort.sort (rankScores ctx hasher env n.chain hash minProtocol
      n.mnodeman.vFloatingcities)).map Prod.snd).Nodup := by
    refine hperm.nodup_iff.mpr (List.Nodup.of_map CTxIn.prevout ?_)
    rw [List.map_map]
    exact (List.filter_sublist.map _).nodup hdistinct
  constructor
  · intro place mn hmn hranked
    have hmem : mn.vin ∈ (stdSort.sort (rankScores ctx hasher env n.chain hash minProtocol
        n.mnodeman.vFloatingcities)).map Prod.snd :=
      hperm.mem_iff.mpr (List.mem_map.mpr
        ⟨mn, List.mem_filter.mpr ⟨List.mem_of_getElem? hmn, hranked⟩, rfl⟩)
    refine ⟨_, _, getFloatingcityRank_eq hlookup hchecks mn.vin, ?_⟩
    rw [getFloatingcityByRank_eq hlookup hchecks, rankLoop_eq _ _ hmem, byRankLoop_eq,
      List.getElem?_idxOf hmem, Option.bind_some]
    apply congrArg
    apply @find_eq_some (upToDate ctx env n.chain minProtocol
      (upToDate ctx env n.chain minProtocol mn))
    · rw [List.map_map, List.map_map]
      simpa [Function.comp_def] using hdistinct
    · rw [List.getElem?_map, List.getElem?_map, hmn]
      rfl
    · rw [upToDate_vin, upToDate_vin]
  · have hranks : ((n.mnodeman.vFloatingcities.filter (isRanked ctx env n.chain minProtocol)).map
        fun mn => (GetFloatingcityRank ctx hasher stdSort env mn.vin nBlockHeight minProtocol true
          n).1) = ((n.mnodeman.vFloatingcities.filter
            (isRanked ctx env n.chain minProtocol)).map CFloatingcity.vin).map fun vin =>
          .ok (rankLoop vin (stdSort.sort (rankScores ctx hasher env n.chain hash minProtocol
            n.mnodeman.vFloatingcities)) 0) := by
      rw [List.map_map]
      apply List.map_congr_left
      intro mn _
      rw [getFloatingcityRank_eq hlookup hchecks]
      rfl
    rw [hranks]
    refine ((hperm.symm).map _).trans (List.Perm.of_eq ?_)
    have hlength := hperm.length_eq
    rw [List.length_map, List.length_map] at hlength
    rw [← hlength]
    have hnumbers := congrArg (List.map (Except.ok : ℤ → Except Failure ℤ))
      (map_rankLoop _ hnodup)
    rw [List.map_map (l := List.range' 1 _)] at hnumbers
    rw [List.map_map] at hnumbers
    exact hnumbers

def stableSort : DescendingSort where
  sort l := l.mergeSort fun s t => decide (t.1 ≤ s.1)
  perm l := List.mergeSort_perm l _
  sorted {α} l := by
    have hsorted := @List.pairwise_mergeSort (UInt32 × α) (fun s t => decide (t.1 ≤ s.1))
      (by simpa using fun _ _ _ _ _ _ hab hbc => UInt32.le_trans hbc hab)
      (by simpa using fun a _ b _ => UInt32.le_total b a) l
    simpa using hsorted

def rankedPair : RankNode := ⟨⟨branchNode 1, fun _ => none⟩, pairNode.mnodeman⟩

/-- The rank of the second one leads back to it. -/
theorem rankedPair_inverse : ∃ rank n',
    GetFloatingcityRank branchContext ⟨id, fun a b => a + b⟩ stableSort lockedEnv (inputOf 11 1) 2
        MIN_POOL_PEER_PROTO_VERSION true rankedPair = (.ok rank, n') ∧
      (GetFloatingcityByRank branchContext ⟨id, fun a b => a + b⟩ stableSort lockedEnv rank 2
        MIN_POOL_PEER_PROTO_VERSION true n').1 = .ok (some 1) :=
  (@ranks_inverse branchContext ⟨id, fun a b => a + b⟩ stableSort lockedEnv rankedPair 2
    MIN_POOL_PEER_PROTO_VERSION 2 _ branchNode_cached (by decide) fun mn _ _ => ⟨mn, rfl⟩).1 1
      (CFloatingcity.new fundedEnv (fundedDsee 1)) rfl rfl

end ZalemCoin.Floatingcity
