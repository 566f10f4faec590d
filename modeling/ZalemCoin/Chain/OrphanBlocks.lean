import ZalemCoin.Chain.OrphanTxs
import ZalemCoin.Lib.ParentTree
import ZalemCoin.Lib.Rounds

/-!
# Orphan blocks

A block whose previous block is not known is kept until that block has come. The orphans are found by
their hash and by the hash of their previous block, and the stakes of the orphans are kept as a set. The
previous blocks make the orphans a forest as long as the search for the root of every orphan ends. What
is taken out of the maps is a list of orphans, and it leaves a forest.
-/

namespace ZalemCoin.Chain

open Lib

attribute [local instance] instLinearOrderUInt256

def CBlock.GetProofOfStake (block : CBlock) : COutPoint × UInt32 :=
  match block.IsProofOfStake, block.vtx with
  | true, _ :: coinstake :: _ =>
    ((coinstake.vin.head?.map CTxIn.prevout).getD COutPoint.null, coinstake.nTime)
  | _, _ => (COutPoint.null, 0)

variable {block : CBlock}

theorem CBlock.getProofOfStake_ne (h : block.IsProofOfStake = true) :
    block.GetProofOfStake ≠ (COutPoint.null, 0) := by
  intro heq
  unfold GetProofOfStake at heq
  rw [h] at heq
  unfold IsProofOfStake at h
  split at h
  · rename_i coinbase coinstake rest hvtx
    rw [hvtx] at heq
    dsimp only at heq
    have hnull := congrArg Prod.fst heq
    unfold CTransaction.IsCoinStake at h
    split at h
    · rename_i txin vin txout txout' vout hvin hvout
      rw [hvin] at hnull
      have hprev : txin.prevout = COutPoint.null := hnull
      have hisnull : COutPoint.null.IsNull = true := by decide
      rw [hprev, hisnull] at h
      cases h
    · cases h
  · cases h

theorem CBlock.getProofOfStake_eq (h : ¬block.IsProofOfStake = true) :
    block.GetProofOfStake = (COutPoint.null, 0) := by
  unfold GetProofOfStake
  rw [Bool.eq_false_iff.mpr h]

structure COrphanBlock where
  hashBlock : UInt256
  hashPrev : UInt256
  stake : COutPoint × UInt32
  vchBlock : CBlock
deriving DecidableEq

def COrphanBlock.of (ctx : Context) (block : CBlock) : COrphanBlock where
  hashBlock := ctx.GetHash block
  hashPrev := block.hashPrevBlock
  stake := block.GetProofOfStake
  vchBlock := block

/-- The orphan blocks by their hash and by the hash of their previous block, where the entries of one
key are in the order in which they came, and the stakes of the orphans. -/
structure OrphanBlocks where
  mapOrphanBlocks : SortedMap UInt256 COrphanBlock
  mapOrphanBlocksByPrev : List (UInt256 × COrphanBlock)
  setStakeSeenOrphan : Finset (COutPoint × UInt32)

/-- Adds an entry to a multimap, behind the entries of its key. -/
def insertMulti (e : UInt256 × COrphanBlock) :
    List (UInt256 × COrphanBlock) → List (UInt256 × COrphanBlock)
  | [] => [e]
  | e' :: entries => if e.1 < e'.1 then e :: e' :: entries else e' :: insertMulti e entries

theorem insertMulti_perm (e : UInt256 × COrphanBlock) (entries : List (UInt256 × COrphanBlock)) :
    (insertMulti e entries).Perm (e :: entries) := by
  induction entries with
  | nil => exact List.Perm.refl _
  | cons e' entries ih =>
    unfold insertMulti
    split_ifs
    · exact List.Perm.refl _
    · calc (e' :: insertMulti e entries).Perm (e' :: e :: entries) := ih.cons e'
        _ |>.Perm (e :: e' :: entries) := List.Perm.swap _ _ _

/-! ## Walks through the orphans -/

/-- A round of `GetOrphanRoot`, at an orphan with its hash. -/
def orphanRootRound (mapOrphanBlocks : SortedMap UInt256 COrphanBlock)
    (it : UInt256 × COrphanBlock) : Round (UInt256 × COrphanBlock) UInt256 :=
  match mapOrphanBlocks.find it.2.hashPrev with
  | none => .done it.1
  | some it2 => .next (it.2.hashPrev, it2)

def GetOrphanRoot (rounds : ℕ) (mapOrphanBlocks : SortedMap UInt256 COrphanBlock) (hash : UInt256) :
    Option UInt256 :=
  match mapOrphanBlocks.find hash with
  | none => some hash
  | some it => runLoop (orphanRootRound mapOrphanBlocks) rounds (hash, it)

/-- A round of `WantedByOrphan`. -/
def wantedRound (mapOrphanBlocks : SortedMap UInt256 COrphanBlock) (pblockOrphan : COrphanBlock) :
    Round COrphanBlock UInt256 :=
  match mapOrphanBlocks.find pblockOrphan.hashPrev with
  | none => .done pblockOrphan.hashPrev
  | some prev => .next prev

def WantedByOrphan (rounds : ℕ) (mapOrphanBlocks : SortedMap UInt256 COrphanBlock)
    (pblockOrphan : COrphanBlock) : Option UInt256 :=
  runLoop (wantedRound mapOrphanBlocks) rounds pblockOrphan

def leafRound (entries : List (UInt256 × COrphanBlock)) (it : ℕ) : Round ℕ ℕ :=
  match entries[it]? with
  | none => .done it
  | some e =>
    match entries.findIdx? fun e' => decide (e'.1 = e.2.hashBlock) with
    | none => .done it
    | some it2 => .next it2

/-- Removes a random orphan block that no other one depends on when there are too many, within a number
of rounds. -/
def PruneOrphanBlocks (rounds : ℕ) (maxorphanblocks : ℤ) (nRand : ℕ) (orphans : OrphanBlocks) :
    Option OrphanBlocks :=
  if orphans.mapOrphanBlocksByPrev.length ≤ (max 0 maxorphanblocks).toNat then some orphans
  else do
    let it ← runLoop (leafRound orphans.mapOrphanBlocksByPrev) rounds
      (nRand % orphans.mapOrphanBlocksByPrev.length)
    let e ← orphans.mapOrphanBlocksByPrev[it]?
    some {
      mapOrphanBlocks := orphans.mapOrphanBlocks.erase e.2.hashBlock
      mapOrphanBlocksByPrev := orphans.mapOrphanBlocksByPrev.eraseIdx it
      setStakeSeenOrphan := orphans.setStakeSeenOrphan.erase e.2.stake }

/-! ## The forest -/

def orphanParent (mapOrphanBlocks : SortedMap UInt256 COrphanBlock) (hash : UInt256) :
    Option UInt256 :=
  (mapOrphanBlocks.find hash).map COrphanBlock.hashPrev

def Rooted (mapOrphanBlocks : SortedMap UInt256 COrphanBlock) : Prop :=
  ∀ hash, ∃ path, Branch (orphanParent mapOrphanBlocks) hash path

theorem branch_of_getOrphanRoot {rounds : ℕ} {mapOrphanBlocks : SortedMap UInt256 COrphanBlock}
    {hash root : UInt256} (h : GetOrphanRoot rounds mapOrphanBlocks hash = some root) :
    ∃ path, Branch (orphanParent mapOrphanBlocks) hash path := by
  unfold GetOrphanRoot at h
  rcases hfind : mapOrphanBlocks.find hash with _ | it
  · have hnone : orphanParent mapOrphanBlocks hash = none := by
      unfold orphanParent
      rw [hfind]
      rfl
    exact ⟨[hash], Branch.root hnone⟩
  · rw [hfind] at h
    -- the loop stands at an orphan, and its previous block has a branch when the loop ends
    have hloop : ∃ path, Branch (orphanParent mapOrphanBlocks) it.hashPrev path := by
      apply @runLoop_spec _ _ (orphanRootRound mapOrphanBlocks) rounds (hash, it) root
        (fun it _ => ∃ path, Branch (orphanParent mapOrphanBlocks) it.2.hashPrev path)
      · intro it root hrnd
        unfold orphanRootRound at hrnd
        split at hrnd
        · rename_i hnone
          refine ⟨[it.2.hashPrev], Branch.root ?_⟩
          unfold orphanParent
          rw [hnone]
          rfl
        · cases hrnd
      · rintro it it2 root hrnd ⟨path, hpath⟩
        unfold orphanRootRound at hrnd
        split at hrnd
        · cases hrnd
        · rename_i o ho
          cases hrnd
          refine ⟨it.2.hashPrev :: path, Branch.step ?_ hpath⟩
          unfold orphanParent
          rw [ho]
          rfl
      · exact h
    obtain ⟨path, hpath⟩ := hloop
    refine ⟨hash :: path, Branch.step ?_ hpath⟩
    unfold orphanParent
    rw [hfind]
    rfl

/-! ## What the maps have -/

/-- The two maps have the same orphans, the first one under their hashes and the second one under those
of their previous blocks. -/
structure Agrees (ctx : Context) (orphans : OrphanBlocks) : Prop where
  made : ∀ hash o, orphans.mapOrphanBlocks.find hash = some o →
    o = COrphanBlock.of ctx o.vchBlock ∧ o.hashBlock = hash
  mem : ∀ e, e ∈ orphans.mapOrphanBlocksByPrev ↔
    e.1 = e.2.hashPrev ∧ orphans.mapOrphanBlocks.find e.2.hashBlock = some e.2
  nodup : (orphans.mapOrphanBlocksByPrev.map fun e => e.2.hashBlock).Nodup

def StakesKept (orphans : OrphanBlocks) : Prop :=
  ∀ stake, stake ∈ orphans.setStakeSeenOrphan ↔ ∃ hash o,
    orphans.mapOrphanBlocks.find hash = some o ∧ o.vchBlock.IsProofOfStake = true ∧ o.stake = stake

def DistinctStakes (orphans : OrphanBlocks) : Prop :=
  ∀ hash hash' o o', orphans.mapOrphanBlocks.find hash = some o →
    orphans.mapOrphanBlocks.find hash' = some o' → o.vchBlock.IsProofOfStake = true →
    o'.vchBlock.IsProofOfStake = true → o.stake = o'.stake → hash = hash'

/-- The orphans with some hashes are taken out of the maps, and their stakes out of the set. -/
structure Removes (hashes : List UInt256) (orphans orphans' : OrphanBlocks) : Prop where
  find : ∀ hash, orphans'.mapOrphanBlocks.find hash =
    if hash ∈ hashes then none else orphans.mapOrphanBlocks.find hash
  byPrev : orphans'.mapOrphanBlocksByPrev.Sublist orphans.mapOrphanBlocksByPrev
  mem : ∀ e ∈ orphans.mapOrphanBlocksByPrev,
    e ∈ orphans'.mapOrphanBlocksByPrev ↔ e.2.hashBlock ∉ hashes
  stakes : ∀ stake, stake ∈ orphans'.setStakeSeenOrphan ↔ stake ∈ orphans.setStakeSeenOrphan ∧
    ∀ hash ∈ hashes, ∀ o, orphans.mapOrphanBlocks.find hash = some o → stake ≠ o.stake

variable {ctx : Context} {orphans orphans' : OrphanBlocks}

namespace Removes

variable {hashes : List UInt256}

variable (h : Removes hashes orphans orphans')
include h

theorem find_of_left {hash : UInt256} {o : COrphanBlock}
    (ho : orphans'.mapOrphanBlocks.find hash = some o) :
    hash ∉ hashes ∧ orphans.mapOrphanBlocks.find hash = some o := by
  rw [h.find] at ho
  split_ifs at ho with hmem
  exact ⟨hmem, ho⟩

theorem agrees (hagrees : Agrees ctx orphans) :
    Agrees ctx orphans' where
  made hash o ho := hagrees.made hash o (h.find_of_left ho).2
  mem e := by
    constructor
    · intro he
      obtain ⟨hkey, hfind⟩ := (hagrees.mem e).mp (h.byPrev.subset he)
      have hmem := (h.mem e (h.byPrev.subset he)).mp he
      refine ⟨hkey, ?_⟩
      rw [h.find, if_neg hmem]
      exact hfind
    · rintro ⟨hkey, hfind⟩
      obtain ⟨hmem, hfind⟩ := h.find_of_left hfind
      exact (h.mem e ((hagrees.mem e).mpr ⟨hkey, hfind⟩)).mpr hmem
  nodup := hagrees.nodup.sublist (h.byPrev.map _)

theorem rooted (hrooted : Rooted orphans.mapOrphanBlocks) : Rooted orphans'.mapOrphanBlocks := by
  intro hash
  obtain ⟨path, hpath⟩ := hrooted hash
  refine hpath.exists_of_cut fun x => ?_
  unfold orphanParent
  rw [h.find]
  split_ifs
  · exact .inl rfl
  · exact .inr rfl

theorem distinctStakes (hdist : DistinctStakes orphans) :
    DistinctStakes orphans' := fun hash hash' o o' ho ho' =>
  hdist hash hash' o o' (h.find_of_left ho).2 (h.find_of_left ho').2

theorem stakesKept (hagrees : Agrees ctx orphans)
    (hdist : DistinctStakes orphans) (hkept : StakesKept orphans) : StakesKept orphans' := by
  intro stake
  rw [h.stakes, hkept stake]
  constructor
  · rintro ⟨⟨hash, o, ho, hpos, rfl⟩, hleft⟩
    refine ⟨hash, o, ?_, hpos, rfl⟩
    rw [h.find, if_neg]
    · exact ho
    · exact fun hmem => hleft hash hmem o ho rfl
  · rintro ⟨hash, o, ho, hpos, rfl⟩
    obtain ⟨hmem, ho⟩ := h.find_of_left ho
    refine ⟨⟨hash, o, ho, hpos, rfl⟩, ?_⟩
    intro hash' hmem' o' ho' heq
    -- an orphan without a stake has none of a proof-of-stake block
    by_cases hpos' : o'.vchBlock.IsProofOfStake = true
    · obtain rfl := hdist hash hash' o o' ho ho' hpos hpos' heq
      exact hmem hmem'
    · rw [(hagrees.made hash o ho).1, (hagrees.made hash' o' ho').1] at heq
      exact CBlock.getProofOfStake_ne hpos (heq.trans (CBlock.getProofOfStake_eq hpos'))

end Removes

/-! ## Pruning -/

variable {rounds : ℕ}

section

variable {entries : List (UInt256 × COrphanBlock)} {it : ℕ} {maxorphanblocks : ℤ}

theorem leafRound_next {it2 : ℕ} (h : leafRound entries it = .next it2) :
    ∃ e e2, entries[it]? = some e ∧ entries[it2]? = some e2 ∧ e2.1 = e.2.hashBlock := by
  unfold leafRound at h
  split at h
  · cases h
  · rename_i e he
    split at h
    · cases h
    · rename_i it2' hfound
      obtain rfl := Round.next.inj h
      obtain ⟨hlt, hkey, -⟩ := List.findIdx?_eq_some_iff_getElem.mp hfound
      exact ⟨e, entries[it2'], he, List.getElem?_eq_getElem hlt, of_decide_eq_true hkey⟩

theorem leafRound_done {leaf : ℕ} (h : leafRound entries it = .done leaf) : leaf = it ∧
      ∀ e, entries[it]? = some e → ∀ e' ∈ entries, e'.1 ≠ e.2.hashBlock := by
  unfold leafRound at h
  split at h
  · rename_i hnone
    refine ⟨(Round.done.inj h).symm, ?_⟩
    intro e he
    rw [hnone] at he
    cases he
  · rename_i e he
    split at h
    · rename_i hnone
      refine ⟨(Round.done.inj h).symm, ?_⟩
      intro e' he' e'' hmem hkey
      obtain rfl := Option.mem_unique he he'
      have hno := List.findIdx?_eq_none_iff.mp hnone e'' hmem
      exact absurd hkey (of_decide_eq_false hno)
    · cases h

variable (hagrees : Agrees ctx orphans)
include hagrees

/-- From the orphan at a position, the search ends, at a leaf. Every step leads further away from the
block that the chain of orphans wants, and the orphans are that far away at most. -/
theorem leaf_of_rooted (hrooted : Rooted orphans.mapOrphanBlocks)
    (hit : it < orphans.mapOrphanBlocksByPrev.length)
    (hrnds : orphans.mapOrphanBlocksByPrev.length < rounds) :
    ∃ leaf e, runLoop (leafRound orphans.mapOrphanBlocksByPrev) rounds it = some leaf ∧
      orphans.mapOrphanBlocksByPrev[leaf]? = some e ∧
      ∀ e' ∈ orphans.mapOrphanBlocksByPrev, e'.1 ≠ e.2.hashBlock := by
  choose path hpath using hrooted
  have hpar : ∀ e ∈ orphans.mapOrphanBlocksByPrev,
      orphanParent orphans.mapOrphanBlocks e.2.hashBlock = some e.1 := by
    intro e he
    obtain ⟨hkey, hfind⟩ := (hagrees.mem e).mp he
    unfold orphanParent
    rw [hfind, hkey]
    rfl
  have hfar : ∀ hash, (path hash).length ≤ orphans.mapOrphanBlocksByPrev.length + 1 := by
    intro hash
    have hle := @Branch.length_le _ _ _ _ (hpath hash)
      (orphans.mapOrphanBlocksByPrev.map fun e => e.2.hashBlock) ?_
    · rwa [List.length_map] at hle
    · intro x y hxy
      obtain ⟨o, ho, -⟩ := Option.map_eq_some_iff.mp hxy
      obtain ⟨-, rfl⟩ := hagrees.made x o ho
      exact List.mem_map_of_mem ((hagrees.mem (o.hashPrev, o)).mpr ⟨rfl, ho⟩)
  -- the measure of a position: how much further its orphan might be away
  have hends : ∃ leaf, runLoop (leafRound orphans.mapOrphanBlocksByPrev) rounds it = some leaf := by
    apply @runLoop_of_decreasing _ _ (leafRound orphans.mapOrphanBlocksByPrev) rounds it
      (fun it => it < orphans.mapOrphanBlocksByPrev.length)
      (fun it => orphans.mapOrphanBlocksByPrev.length + 1
        - (path (((orphans.mapOrphanBlocksByPrev[it]?).map fun e => e.2.hashBlock).getD 0)).length)
    · intro it it2 _ hrnd
      obtain ⟨e, e2, he, he2, hkey⟩ := leafRound_next hrnd
      have hstep := hpar e2 (List.mem_of_getElem? he2)
      rw [hkey] at hstep
      have hlonger := (hpath e2.2.hashBlock).unique (Branch.step hstep (hpath e.2.hashBlock))
      have hlen := congrArg List.length hlonger
      rw [List.length_cons] at hlen
      have hle := hfar e2.2.hashBlock
      refine ⟨(List.getElem?_eq_some_iff.mp he2).1, ?_⟩
      rw [he, he2]
      dsimp only [Option.map_some, Option.getD_some]
      omega
    · exact hit
    · obtain ⟨above, habove⟩ := (hpath (((orphans.mapOrphanBlocksByPrev[it]?).map
        fun e => e.2.hashBlock).getD 0)).eq_cons
      rw [habove, List.length_cons]
      omega
  obtain ⟨leaf, hleaf⟩ := hends
  have hlast : it < orphans.mapOrphanBlocksByPrev.length →
      ∃ e, orphans.mapOrphanBlocksByPrev[leaf]? = some e ∧
        ∀ e' ∈ orphans.mapOrphanBlocksByPrev, e'.1 ≠ e.2.hashBlock := by
    apply @runLoop_spec _ _ (leafRound orphans.mapOrphanBlocksByPrev) rounds it leaf
      (fun it leaf => it < orphans.mapOrphanBlocksByPrev.length →
        ∃ e, orphans.mapOrphanBlocksByPrev[leaf]? = some e ∧
          ∀ e' ∈ orphans.mapOrphanBlocksByPrev, e'.1 ≠ e.2.hashBlock)
    · intro it leaf hrnd hlt
      obtain ⟨rfl, hnone⟩ := leafRound_done hrnd
      have he := List.getElem?_eq_getElem hlt
      exact ⟨_, he, hnone _ he⟩
    · intro it it2 leaf hrnd hnext _
      obtain ⟨-, e2, -, he2, -⟩ := leafRound_next hrnd
      exact hnext (List.getElem?_eq_some_iff.mp he2).1
    · exact hleaf
  obtain ⟨e, he, hnone⟩ := hlast hit
  exact ⟨leaf, e, hleaf, he, hnone⟩

theorem removes_eraseIdx {e : UInt256 × COrphanBlock}
    (he : orphans.mapOrphanBlocksByPrev[it]? = some e) :
    Removes [e.2.hashBlock] orphans
      { mapOrphanBlocks := orphans.mapOrphanBlocks.erase e.2.hashBlock
        mapOrphanBlocksByPrev := orphans.mapOrphanBlocksByPrev.eraseIdx it
        setStakeSeenOrphan := orphans.setStakeSeenOrphan.erase e.2.stake } where
  find hash := by
    rw [SortedMap.find_erase]
    simp only [List.mem_singleton]
  byPrev := List.eraseIdx_sublist _ _
  mem e' he' := by
    rw [List.mem_singleton, List.mem_eraseIdx_iff_getElem?]
    constructor
    · -- the entries of one hash stand at one position
      rintro ⟨i, hne, hi⟩ hsame
      have hlt := (List.getElem?_eq_some_iff.mp hi).1
      refine hne ((List.getElem?_inj (by rwa [List.length_map]) hagrees.nodup).mp ?_)
      rw [List.getElem?_map, List.getElem?_map, hi, he]
      exact congrArg some hsame
    · intro hne
      obtain ⟨i, hi⟩ := List.getElem?_of_mem he'
      refine ⟨i, ?_, hi⟩
      rintro rfl
      exact hne (congrArg (fun e => e.2.hashBlock) (Option.mem_unique hi he))
  stakes stake := by
    have hfind := ((hagrees.mem e).mp (List.mem_of_getElem? he)).2
    rw [Finset.mem_erase, and_comm]
    apply and_congr_right
    intro _
    constructor
    · intro hne hash hmem o ho
      obtain rfl := List.mem_singleton.mp hmem
      obtain rfl := Option.mem_unique hfind ho
      exact hne
    · intro hne
      exact hne _ (List.mem_singleton_self _) _ hfind

theorem pruneOrphanBlocks_spec (hrooted : Rooted orphans.mapOrphanBlocks)
    (hrnds : orphans.mapOrphanBlocksByPrev.length < rounds) (nRand : ℕ)
    (hmany : (max 0 maxorphanblocks).toNat < orphans.mapOrphanBlocksByPrev.length) :
    ∃ orphans' e, PruneOrphanBlocks rounds maxorphanblocks nRand orphans = some orphans' ∧
      e ∈ orphans.mapOrphanBlocksByPrev ∧
      (∀ e' ∈ orphans.mapOrphanBlocksByPrev, e'.1 ≠ e.2.hashBlock) ∧
      Removes [e.2.hashBlock] orphans orphans' := by
  have hpos : nRand % orphans.mapOrphanBlocksByPrev.length < orphans.mapOrphanBlocksByPrev.length :=
    Nat.mod_lt _ (by omega)
  obtain ⟨leaf, e, hleaf, he, hnone⟩ := leaf_of_rooted hagrees hrooted hpos hrnds
  refine ⟨_, e, ?_, List.mem_of_getElem? he, hnone, removes_eraseIdx hagrees he⟩
  unfold PruneOrphanBlocks
  rw [if_neg (by omega), hleaf]
  dsimp only [Option.bind_eq_bind, Option.bind_some]
  rw [he]
  rfl

theorem removes_of_pruneOrphanBlocks {nRand : ℕ}
    (h : PruneOrphanBlocks rounds maxorphanblocks nRand orphans = some orphans') :
    orphans' = orphans ∨ ∃ e, Removes [e] orphans orphans' := by
  unfold PruneOrphanBlocks at h
  split_ifs at h
  · exact .inl (Option.some.inj h).symm
  · obtain ⟨it, -, h⟩ := Option.bind_eq_some_iff.mp h
    obtain ⟨e, he, h⟩ := Option.bind_eq_some_iff.mp h
    cases h
    exact .inr ⟨_, removes_eraseIdx hagrees he⟩

end

/-! ## The bookkeeping -/

/-- The maps agree and are a forest, and as long as something holds, the stakes that are seen are those
of the orphans and are all different. -/
structure Bookkept (ctx : Context) (p : Prop) (orphans : OrphanBlocks) : Prop where
  agrees : Agrees ctx orphans
  rooted : Rooted orphans.mapOrphanBlocks
  stakes : p → DistinctStakes orphans ∧ StakesKept orphans

namespace Bookkept

variable {p : Prop}

theorem empty : Bookkept ctx p ⟨SortedMap.empty, [], ∅⟩ where
  agrees := by
    refine ⟨?_, ?_, List.nodup_nil⟩
    · intro hash o ho
      cases ho
    · intro e
      simp
  rooted hash := ⟨[hash], Branch.root rfl⟩
  stakes _ := by
    constructor
    · intro hash hash' o o' ho
      cases ho
    · intro stake
      simp

variable (h : Bookkept ctx p orphans)
include h

theorem removes {hashes : List UInt256} (hr : Removes hashes orphans orphans') :
    Bookkept ctx p orphans' where
  agrees := hr.agrees h.agrees
  rooted := hr.rooted h.rooted
  stakes hp := by
    obtain ⟨hdist, hkept⟩ := h.stakes hp
    exact ⟨hr.distinctStakes hdist, hr.stakesKept h.agrees hdist hkept⟩

theorem prune {nRand : ℕ} {maxorphanblocks : ℤ}
    (hprune : PruneOrphanBlocks rounds maxorphanblocks nRand orphans = some orphans') :
    Bookkept ctx p orphans' ∧
      (∀ hash, orphans.mapOrphanBlocks.find hash = none →
        orphans'.mapOrphanBlocks.find hash = none) ∧
      orphans'.setStakeSeenOrphan ⊆ orphans.setStakeSeenOrphan := by
  rcases removes_of_pruneOrphanBlocks h.agrees hprune with rfl | ⟨hash, hr⟩
  · exact ⟨h, fun _ hnone => hnone, fun _ hmem => hmem⟩
  · refine ⟨h.removes hr, ?_, ?_⟩
    · intro hash' hnone
      rw [hr.find]
      split_ifs
      · rfl
      · exact hnone
    · intro stake hstake
      exact ((hr.stakes stake).mp hstake).1

theorem insert (hnew : orphans.mapOrphanBlocks.find (ctx.GetHash block) = none) {root : UInt256}
    (hroot : GetOrphanRoot rounds (orphans.mapOrphanBlocks.insert (ctx.GetHash block)
      (COrphanBlock.of ctx block)) (ctx.GetHash block) = some root)
    (hstake : p → block.IsProofOfStake = true → block.GetProofOfStake ∉ orphans.setStakeSeenOrphan) :
    Bookkept ctx p
      { mapOrphanBlocks := orphans.mapOrphanBlocks.insert (ctx.GetHash block)
          (COrphanBlock.of ctx block)
        mapOrphanBlocksByPrev := insertMulti ((COrphanBlock.of ctx block).hashPrev,
          COrphanBlock.of ctx block) orphans.mapOrphanBlocksByPrev
        setStakeSeenOrphan :=
          if block.IsProofOfStake then Insert.insert block.GetProofOfStake orphans.setStakeSeenOrphan
          else orphans.setStakeSeenOrphan } where
  agrees := by
    have hperm := insertMulti_perm ((COrphanBlock.of ctx block).hashPrev, COrphanBlock.of ctx block)
      orphans.mapOrphanBlocksByPrev
    refine ⟨?_, ?_, ?_⟩
    · intro hash o ho
      rw [SortedMap.find_insert] at ho
      split_ifs at ho with heq
      · cases ho
        exact ⟨rfl, heq.symm⟩
      · exact h.agrees.made hash o ho
    · intro e
      rw [hperm.mem_iff, List.mem_cons, h.agrees.mem, SortedMap.find_insert]
      constructor
      · rintro (rfl | ⟨hkey, hfind⟩)
        · exact ⟨rfl, if_pos rfl⟩
        · refine ⟨hkey, ?_⟩
          rw [if_neg]
          · exact hfind
          · rintro heq
            rw [heq, hnew] at hfind
            cases hfind
      · rintro ⟨hkey, hfind⟩
        split_ifs at hfind with heq
        · have hsame := Option.some.inj hfind
          left
          rw [hsame]
          exact Prod.ext hkey rfl
        · exact .inr ⟨hkey, hfind⟩
    · dsimp only
      rw [(hperm.map _).nodup_iff, List.map_cons, List.nodup_cons]
      refine ⟨?_, h.agrees.nodup⟩
      intro hmem
      obtain ⟨e, he, heq⟩ := List.mem_map.mp hmem
      have hfind := ((h.agrees.mem e).mp he).2
      rw [heq] at hfind
      exact absurd (hnew.symm.trans hfind) (by simp)
  rooted hash := by
    obtain ⟨path, hpath⟩ := h.rooted hash
    refine hpath.exists_of_update (x := ctx.GetHash block) ?_ (branch_of_getOrphanRoot hroot)
    intro y hy
    unfold orphanParent
    rw [SortedMap.find_insert_of_ne hy]
  stakes hp := by
    obtain ⟨hdist, hkept⟩ := h.stakes hp
    -- the stake of the new orphan, if it has one, is that of no other
    have hother : ∀ hash o, orphans.mapOrphanBlocks.find hash = some o →
        o.vchBlock.IsProofOfStake = true → block.IsProofOfStake = true →
        o.stake ≠ block.GetProofOfStake := by
      intro hash o ho hpos hpos' heq
      exact hstake hp hpos' ((hkept _).mpr ⟨hash, o, ho, hpos, heq⟩)
    constructor
    · intro hash hash' o o' ho ho' hpos hpos' heq
      rw [SortedMap.find_insert] at ho ho'
      split_ifs at ho ho' with hnew1 hnew2 hnew2
      · rw [hnew1, hnew2]
      · cases ho
        exact absurd heq.symm (hother hash' o' ho' hpos' hpos)
      · cases ho'
        exact absurd heq (hother hash o ho hpos hpos')
      · exact hdist hash hash' o o' ho ho' hpos hpos' heq
    · intro stake
      have hold : ∀ stake, (∃ hash o, (orphans.mapOrphanBlocks.insert (ctx.GetHash block)
          (COrphanBlock.of ctx block)).find hash = some o ∧ o.vchBlock.IsProofOfStake = true ∧
            o.stake = stake) ↔
          (block.IsProofOfStake = true ∧ block.GetProofOfStake = stake) ∨
            stake ∈ orphans.setStakeSeenOrphan := by
        intro stake
        rw [hkept]
        constructor
        · rintro ⟨hash, o, ho, hpos, rfl⟩
          rw [SortedMap.find_insert] at ho
          split_ifs at ho
          · cases ho
            exact .inl ⟨hpos, rfl⟩
          · exact .inr ⟨hash, o, ho, hpos, rfl⟩
        · rintro (⟨hpos, rfl⟩ | ⟨hash, o, ho, hpos, rfl⟩)
          · exact ⟨ctx.GetHash block, _, SortedMap.find_insert_self _ _ _, hpos, rfl⟩
          · refine ⟨hash, o, ?_, hpos, rfl⟩
            rw [SortedMap.find_insert, if_neg]
            · exact ho
            · rintro rfl
              rw [hnew] at ho
              cases ho
      rw [hold]
      split_ifs with hpos
      · rw [Finset.mem_insert, eq_comm]
        simp [hpos]
      · simp [hpos]

end Bookkept

end ZalemCoin.Chain
