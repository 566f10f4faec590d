import ZalemCoin.Chain.ReorganizePaths

/-!
# The block size calculator does not fail

The calculator follows links in both directions from the ends of the best chain and from the block
that it found last. On a tree of blocks whose links lead along the branch of the best block, and as
long as the block that was found last is on that branch, it always finds what it looks for.
-/

namespace ZalemCoin.Chain

open Lib

/-- The blocks form a tree, and the globals and the links are those of a branch of it. -/
structure Anchored (s : NodeState) (genesis tip : UInt256) : Prop where
  tree : BlockTree s genesis
  links : LinksTo s tip
  started : s.pindexGenesisBlock = some genesis
  best : s.pindexBest = some tip
  known : s.mapBlockIndex tip ≠ none
  onDisk : ∀ p i, s.mapBlockIndex p = some i → i.nFile ≠ 0xffffffff

/-- A state that differs from an anchored one in the limits and the static variables only, with the
block that was found last on the branch. -/
structure Sized (t : NodeState) (tip : UInt256) (s : NodeState) : Prop where
  core : s.core = t.core
  last : ∀ l, s.pblockindexFBBHLast = some l → IsAncestor t.parent l tip

theorem BlockTree.known_of_isAncestor {s : NodeState} {genesis p q : UInt256}
    (h : BlockTree s genesis) (hp : s.mapBlockIndex p ≠ none) (hq : IsAncestor s.parent q p) :
    s.mapBlockIndex q ≠ none := by
  induction hq with
  | refl => exact hp
  | tail _ hyz _ => exact h.known _ _ hyz

theorem BlockTree.height_le {s : NodeState} {genesis p q : UInt256} (h : BlockTree s genesis)
    (hq : IsAncestor s.parent q p) : s.height q ≤ s.height p := by
  rcases hq.eq_or_lt h.heights with rfl | hlt <;> omega

variable {s t : NodeState} {genesis tip p : UInt256}

theorem Anchored.congr (h : Anchored t genesis tip) (hcore : s.core = t.core) :
    Anchored s genesis tip := by
  have hidx := mapBlockIndex_of_core hcore
  have hplace : SamePlace t s := fun p => by rw [hidx]
  refine ⟨⟨?_, ?_, ?_, ?_⟩, ?_, ?_, ?_, ?_, ?_⟩
  · intro p q hpq
    rw [hplace.height_eq, hplace.height_eq]
    rw [hplace.parent_eq] at hpq
    exact h.tree.heights p q hpq
  · rw [hplace.height_eq]
    exact h.tree.low
  · rw [hplace.parent_eq, hidx]
    exact h.tree.known
  · rw [hplace.parent_eq, hidx]
    exact h.tree.root
  · refine h.links.congr ?_ hplace.parent_eq
    funext p
    exact next_congr (by rw [hidx])
  · exact (pindexGenesisBlock_of_globals (globals_of_core hcore)).trans h.started
  · exact (pindexBest_of_globals (globals_of_core hcore)).trans h.best
  · rw [hidx]
    exact h.known
  · rw [hidx]
    exact h.onDisk

/-! ## The search for a height -/

theorem BlockTree.walkBack_isOk (h : BlockTree s genesis) {n fuel : ℕ}
    (hp : s.mapBlockIndex p ≠ none) (hfuel : s.height p < fuel) :
    ∃ q, walkBack s n fuel (some p) = .ok (some q) ∧ IsAncestor s.parent q p ∧ s.height q ≤ n := by
  induction fuel generalizing p with
  | zero => omega
  | succ fuel ih =>
    obtain ⟨i, hidx, hi⟩ := exists_index hp
    have hheight := height_eq hi
    unfold walkBack
    rw [hidx]
    simp only [bind, Except.bind]
    split
    · rename_i hhigh
      rcases hprev : i.pprev with _ | q
      · -- The genesis block is not too high.
        have hroot : p = genesis := h.root p hp ((parent_eq hi).trans hprev)
        have hlow := h.low
        rw [← hroot] at hlow
        omega
      · have hpar : s.parent p = some q := (parent_eq hi).trans hprev
        have hstep := h.heights p q hpar
        obtain ⟨r, hr, hrq, hlow⟩ := ih (h.known p q hpar) (by omega)
        exact ⟨r, hr, Relation.ReflTransGen.head hpar hrq, hlow⟩
    · exact ⟨p, rfl, IsAncestor.refl _ _, by omega⟩

theorem Anchored.walkForward_isOk (h : Anchored s genesis tip) {n fuel : ℕ}
    (hp : IsAncestor s.parent p tip) (hlow : s.height p ≤ n) (hn : n ≤ s.height tip)
    (hfuel : n < s.height p + fuel) :
    ∃ q, walkForward s n fuel (some p) = .ok (some q) ∧ IsAncestor s.parent q tip := by
  induction fuel generalizing p with
  | zero => omega
  | succ fuel ih =>
    obtain ⟨i, hidx, hi⟩ := exists_index (h.tree.known_of_isAncestor h.known hp)
    have hheight := height_eq hi
    unfold walkForward
    rw [hidx]
    simp only [bind, Except.bind]
    split
    · rename_i hbelow
      -- A block below the height is not the last one, so that it has a link.
      rcases Relation.ReflTransGen.cases_tail hp with rfl | ⟨b, hb, hpar⟩
      · omega
      · have hnext : i.pnext = some b := by
          have hlink := h.links p b hb hpar
          unfold NodeState.next at hlink
          rwa [hi] at hlink
        have hstep := h.tree.heights b p hpar
        rw [hnext]
        exact ih hb (by omega) (by omega)
    · exact ⟨p, rfl, hp⟩

theorem Anchored.findStart_isOk (h : Anchored s genesis tip) (n : ℕ)
    (hlast : ∀ l, s.pblockindexFBBHLast = some l → IsAncestor s.parent l tip) :
    ∃ q, findStart s n = .ok (some q) ∧ IsAncestor s.parent q tip := by
  have hgen := h.tree.genesis_isAncestor h.known
  obtain ⟨a, ha, hatip⟩ : ∃ a, (if (n : ℤ) < s.nBestHeight.tdiv 2 then s.pindexGenesisBlock
      else s.pindexBest) = some a ∧ IsAncestor s.parent a tip := by
    split
    · exact ⟨genesis, h.started, hgen⟩
    · exact ⟨tip, h.best, IsAncestor.refl _ _⟩
  obtain ⟨i, hidx, -⟩ := exists_index (h.tree.known_of_isAncestor h.known hatip)
  unfold findStart
  rw [ha]
  rcases hlast' : s.pblockindexFBBHLast with _ | l
  · exact ⟨a, rfl, hatip⟩
  · have hl := hlast l hlast'
    obtain ⟨j, hidx', -⟩ := exists_index (h.tree.known_of_isAncestor h.known hl)
    simp only [bind, Except.bind, hidx, hidx']
    split
    · exact ⟨l, rfl, hl⟩
    · exact ⟨a, rfl, hatip⟩

variable (h : Anchored t genesis tip)
include h

theorem Anchored.succeeds_findBlockByHeight {n : ℕ} (hn : n ≤ t.height tip) :
    Action.Succeeds (Sized t tip) (FindBlockByHeight n) fun q s =>
      Sized t tip s ∧ ∃ p, q = some p ∧ t.mapBlockIndex p ≠ none := by
  refine Action.Succeeds.bind (Action.Succeeds.reading (Q := fun q s =>
    Sized t tip s ∧ ∃ p, q = some p ∧ IsAncestor t.parent p tip) fun s hs => ?_) fun q => ?_
  · have hidx := mapBlockIndex_of_core hs.core
    have hplace : SamePlace t s := fun p => by rw [hidx]
    have hanchored := h.congr hs.core
    have hlast := hs.last
    rw [← hplace.parent_eq] at hlast ⊢
    rw [← hplace.height_eq] at hn
    obtain ⟨a, hstart, ha⟩ := hanchored.findStart_isOk n hlast
    have hknown := hanchored.tree.known_of_isAncestor hanchored.known ha
    obtain ⟨i, hi, hent⟩ := exists_index hknown
    have hheight := height_eq hent
    obtain ⟨lower, hback, hlower, hlow⟩ : ∃ q, walkBack s n (i.nHeight + 1) (some a)
        = .ok (some q) ∧ IsAncestor s.parent q a ∧ s.height q ≤ n :=
      hanchored.tree.walkBack_isOk hknown (by omega)
    obtain ⟨p, hforward, hp⟩ : ∃ q, walkForward s n (n + 1) (some lower) = .ok (some q) ∧
        IsAncestor s.parent q tip :=
      hanchored.walkForward_isOk (ha.trans hlower) hlow hn (by omega)
    refine ⟨some p, ?_, hs, p, rfl, hp⟩
    rw [hstart]
    simp only [bind, Except.bind, hi, hback, hforward]
  · refine Action.Succeeds.bind (Action.Succeeds.modify (Q := fun _ s =>
      Sized t tip s ∧ ∃ p, q = some p ∧ t.mapBlockIndex p ≠ none) ?_) fun _ =>
        Action.Succeeds.pure fun s hs => hs
    rintro s ⟨hs, p, rfl, hp⟩
    refine ⟨⟨hs.core, ?_⟩, p, rfl, h.tree.known_of_isAncestor h.known hp⟩
    rintro l hl
    cases hl
    exact hp

/-! ## The sizes -/

omit h in
theorem succeeds_index (hi : t.mapBlockIndex p = some i) :
    Action.Succeeds (Sized t tip) (Action.reading fun s => s.index (some p))
      fun j s => Sized t tip s ∧ j = i :=
  Action.Succeeds.reading fun s hs =>
    ⟨i, by rwa [index_eq_ok, mapBlockIndex_of_core hs.core], hs, rfl⟩

variable (hp : t.mapBlockIndex p ≠ none)
include hp

theorem Anchored.succeeds_getBlockSize :
    Action.Succeeds (Sized t tip) (GetBlockSize (some p)) fun _ => Sized t tip := by
  obtain ⟨i, -, hi⟩ := exists_index hp
  refine (succeeds_index hi).bind fun j => ?_
  refine Action.Succeeds.bind (Action.Succeeds.check (Q := fun _ => Sized t tip) ?_) fun _ => ?_
  · rintro s ⟨hs, rfl⟩
    exact ⟨h.onDisk p j hi, hs⟩
  intro s hs
  exact ⟨_, _, rfl, ⟨hs.core, hs.last⟩⟩

theorem Anchored.succeeds_collectSizes {firstBlock fuel : ℕ} (hfuel : t.height p < fuel) :
    Action.Succeeds (Sized t tip) (collectSizes firstBlock fuel (some p))
      fun _ => Sized t tip := by
  induction fuel generalizing p with
  | zero => omega
  | succ fuel ih =>
    obtain ⟨i, -, hi⟩ := exists_index hp
    have hheight := height_eq hi
    refine (succeeds_index hi).bind fun j => ?_
    rintro s ⟨hs, rfl⟩
    revert s
    refine Action.Succeeds.ite (fun hhigh => ?_) fun _ => Action.Succeeds.pure fun s hs => hs
    refine (h.succeeds_getBlockSize hp).bind fun size => ?_
    refine Action.Succeeds.bind (Action.Succeeds.modify (Q := fun _ => Sized t tip) ?_) fun _ => ?_
    · intro s hs
      split <;> exact ⟨hs.core, hs.last⟩
    · rcases hprev : j.pprev with _ | q
      · unfold collectSizes
        exact Action.Succeeds.pure fun s hs => hs
      · have hpar : t.parent p = some q := (parent_eq hi).trans hprev
        have hstep := h.tree.heights p q hpar
        exact ih (h.tree.known p q hpar) (by omega)

theorem Anchored.succeeds_moveWindow {firstBlock : ℕ} (hfst : firstBlock ≤ t.height tip) :
    Action.Succeeds (Sized t tip) (moveWindow p firstBlock) fun _ => Sized t tip := by
  refine (h.succeeds_getBlockSize hp).bind fun latest => ?_
  refine Action.Succeeds.ite (fun _ => ?_) fun _ => Action.Succeeds.pure fun s hs => hs
  refine (h.succeeds_findBlockByHeight hfst).bind fun first => ?_
  rintro s ⟨hs, q, rfl, hq⟩
  revert s
  refine (h.succeeds_getBlockSize hq).bind fun oldest => ?_
  refine Action.Succeeds.ite (fun _ => ?_) fun _ => Action.Succeeds.pure fun s hs => hs
  refine Action.Succeeds.modify fun s hs => ?_
  split <;> exact ⟨hs.core, hs.last⟩

theorem Anchored.succeeds_computeBlockSize
    (hheight : t.height p ≤ t.height tip + NUM_BLOCKS_FOR_MEDIAN_BLOCK) :
    Action.Succeeds (Sized t tip) (ComputeBlockSize p) fun size s =>
      Sized t tip s ∧ MIN_BLOCK_SIZE ≤ size := by
  obtain ⟨i, -, hi⟩ := exists_index hp
  have hi' := height_eq hi
  have hsizes : Action.Succeeds (Sized t tip) (GetBlockSizes p NUM_BLOCKS_FOR_MEDIAN_BLOCK)
      fun _ => Sized t tip := by
    refine (succeeds_index hi).bind fun j => ?_
    rintro s ⟨hs, rfl⟩
    revert s
    refine Action.Succeeds.ite (fun _ => Action.Succeeds.pure fun s hs => hs) fun _ => ?_
    intro s hs
    show ∃ a s', (if s.blocksizes ≠ [] then _ else _ : NodeM Unit) s = _ ∧ _
    split
    · exact h.succeeds_moveWindow hp (by omega) s hs
    · exact h.succeeds_collectSizes hp (by omega) s hs
  have hmedian : Action.Succeeds (Sized t tip) (GetMedianBlockSize p NUM_BLOCKS_FOR_MEDIAN_BLOCK)
      fun _ => Sized t tip := by
    refine hsizes.bind fun _ => ?_
    refine Action.Succeeds.bind (Action.Succeeds.modify (Q := fun _ => Sized t tip) fun s hs => ?_)
      fun _ s hs => ⟨_, s, rfl, hs⟩
    split <;> exact ⟨hs.core, hs.last⟩
  refine hmedian.bind fun size => ?_
  refine Action.Succeeds.ite (fun _ => ?_) fun _ => ?_
  · exact Action.Succeeds.pure fun s hs => ⟨hs, le_max_right _ _⟩
  · exact Action.Succeeds.pure fun s hs => ⟨hs, le_rfl⟩

end ZalemCoin.Chain
