import ZalemCoin.Chain.ChainMoves

/-!
# The last common block and the links

The search of `Reorganize` ends at a block that all common ancestors of the two tips are ancestors
of, so that nothing that is connected was on the old branch. The links to the next block, updated
for the blocks that leave and for those that enter the best chain, mark the proper ancestors of the
new tip when they marked those of the old one.
-/

namespace ZalemCoin.Chain

open Lib

def NodeState.height (s : NodeState) (p : UInt256) : ℕ :=
  ((s.mapBlockIndex p).map CBlockIndex.nHeight).getD 0

/-- Every block is one higher than its parent. -/
def HeightsOk (s : NodeState) : Prop := ∀ p q, s.parent p = some q → s.height p = s.height q + 1

variable {p f tip new : UInt256} {fuel : ℕ} {l : List UInt256} {S : UInt256 → Prop}
  {parent : UInt256 → Option UInt256} {s s' : NodeState}

theorem height_eq {i : CBlockIndex} (h : s.mapBlockIndex p = some i) :
    s.height p = i.nHeight := by
  unfold NodeState.height
  rw [h]
  rfl

/-! ## Trees of blocks -/

structure BlockTree (s : NodeState) (genesis : UInt256) : Prop where
  heights : HeightsOk s
  low : s.height genesis = 0
  known : ∀ p q, s.parent p = some q → s.mapBlockIndex q ≠ none
  root : ∀ p, s.mapBlockIndex p ≠ none → s.parent p = none → p = genesis

theorem BlockTree.genesis_isAncestor {genesis : UInt256} (h : BlockTree s genesis)
    (hp : s.mapBlockIndex p ≠ none) : IsAncestor s.parent genesis p := by
  induction hn : s.height p generalizing p with
  | zero =>
    rcases hpar : s.parent p with _ | q
    · rw [h.root p hp hpar]
      exact IsAncestor.refl _ _
    · have hstep := h.heights p q hpar
      omega
  | succ n ih =>
    rcases hpar : s.parent p with _ | q
    · rw [h.root p hp hpar]
      exact IsAncestor.refl _ _
    · have hstep := h.heights p q hpar
      have hq : s.height q = n := by omega
      exact Relation.ReflTransGen.head hpar (ih (h.known p q hpar) hq)

theorem exists_index (hp : s.mapBlockIndex p ≠ none) :
    ∃ i, s.index (some p) = .ok i ∧ s.mapBlockIndex p = some i := by
  obtain ⟨i, hi⟩ := Option.ne_none_iff_exists'.mp hp
  exact ⟨i, index_eq_ok.mpr hi, hi⟩

/-! ## The search for the fork -/

/-- The inner loop keeps every ancestor that is not too high, and ends at a block that is not too
high. -/
theorem descend_eq_ok {nHeight : ℕ} {p' : UInt256} (h : descend s nHeight fuel p = .ok p') :
    s.height p' ≤ nHeight ∧
      ∀ x, IsAncestor s.parent x p → s.height x ≤ nHeight → IsAncestor s.parent x p' := by
  induction fuel generalizing p with
  | zero => simp [descend] at h
  | succ fuel ih =>
    obtain ⟨i, hi, h⟩ := bind_ok h
    have hi := index_eq_ok.mp hi
    split at h
    · rename_i hhigh
      rcases hprev : i.pprev with _ | q
      · rw [hprev] at h
        simp at h
      · rw [hprev] at h
        have hpar : s.parent p = some q := (parent_eq hi).trans hprev
        obtain ⟨hlow, hkeep⟩ := ih h
        refine ⟨hlow, fun x hx hxlow => hkeep x (hx.of_ne hpar ?_) hxlow⟩
        rintro rfl
        rw [height_eq hi] at hxlow
        omega
    · rename_i hlow
      cases h
      rw [height_eq hi]
      exact ⟨by omega, fun x hx _ => hx⟩

section

variable (hheights : HeightsOk s)
include hheights

theorem findFork_eq_ok {a b : UInt256} (h : findFork s fuel a b = .ok f) :
    ∀ x, IsAncestor s.parent x a → IsAncestor s.parent x b → IsAncestor s.parent x f := by
  induction fuel generalizing a b with
  | zero => simp [findFork] at h
  | succ fuel ih =>
    unfold findFork at h
    split at h
    · cases h
      exact fun x hx _ => hx
    · obtain ⟨i, hi, h⟩ := bind_ok h
      obtain ⟨longer, -, h⟩ := bind_ok h
      obtain ⟨c, hdescend, h⟩ := bind_ok h
      have hi := index_eq_ok.mp hi
      obtain ⟨hlow, hkeep⟩ := descend_eq_ok hdescend
      -- A common ancestor is not higher than the block on the old branch.
      have hcommon : ∀ x, IsAncestor s.parent x a → IsAncestor s.parent x b →
          IsAncestor s.parent x c := by
        intro x hxa hxb
        refine hkeep x hxb ?_
        rw [← height_eq hi]
        rcases hxa.eq_or_lt hheights with rfl | hlt <;> omega
      split at h
      · cases h
        exact fun x hx _ => hx
      · rename_i hne
        rcases hprev : i.pprev with _ | q
        · rw [hprev] at h
          simp at h
        · rw [hprev] at h
          have hpar : s.parent a = some q := (parent_eq hi).trans hprev
          intro x hxa hxb
          have hxc := hcommon x hxa hxb
          refine ih h x (hxa.of_ne hpar ?_) hxc
          -- The block on the old branch is no common ancestor: the other one is at most as high.
          rintro rfl
          rw [← height_eq hi] at hlow
          rcases hxc.eq_or_lt hheights with heq | hlt
          · exact hne heq
          · omega

end

theorem blocksUntil_eq_ok (h : blocksUntil s f fuel p = .ok l) :
    Segment s.parent p l f := by
  induction fuel generalizing p l with
  | zero => simp [blocksUntil] at h
  | succ fuel ih =>
    unfold blocksUntil at h
    split at h
    · rename_i heq
      cases h
      rw [heq]
      exact Segment.refl f
    · obtain ⟨i, hi, h⟩ := bind_ok h
      rcases hprev : i.pprev with _ | q
      · rw [hprev] at h
        simp at h
      · rw [hprev] at h
        obtain ⟨rest, hrest, h⟩ := bind_ok h
        cases h
        exact Segment.step ((parent_eq (index_eq_ok.mp hi)).trans hprev) (ih hrest)

theorem findSwitch_eq_ok {switch : Switch} (hheights : HeightsOk s)
    (hbest : s.pindexBest = some tip) (h : findSwitch s new = .ok switch) :
    ∃ f, Segment s.parent tip switch.vDisconnect f ∧ Segment s.parent new switch.vConnect f ∧
      ∀ x ∈ switch.vConnect, ¬IsAncestor s.parent x tip := by
  unfold findSwitch at h
  rw [hbest, Option.getD_some] at h
  obtain ⟨best, -, h⟩ := bind_ok h
  obtain ⟨newIndex, -, h⟩ := bind_ok h
  obtain ⟨f, hfork, h⟩ := bind_ok h
  obtain ⟨vDisconnect, hdisc, h⟩ := bind_ok h
  obtain ⟨vConnect, hconn, h⟩ := bind_ok h
  cases h
  have hseg := blocksUntil_eq_ok hconn
  refine ⟨f, blocksUntil_eq_ok hdisc, hseg, fun x hx hxtip => ?_⟩
  have hlt := hseg.lt_of_mem hheights hx
  have hxf := findFork_eq_ok hheights hfork x hxtip (hseg.isAncestor_of_mem hx)
  rcases hxf.eq_or_lt hheights with rfl | hlow <;> omega

/-! ## The links to the next block -/

/-- The blocks that have a link to a next block are those of a set. -/
def Linked (s : NodeState) (S : UInt256 → Prop) : Prop :=
  ∀ p i, s.mapBlockIndex p = some i → (i.pnext.isSome = true ↔ S p)

theorem Linked.congr {S' : UInt256 → Prop} (h : Linked s S) (heq : ∀ p, S p ↔ S' p) :
    Linked s S' := fun p i hi => (h p i hi).trans (heq p)

/-- What a change of links leaves alone: everything but the links. -/
structure LinkFrame (s s' : NodeState) : Prop where
  entries : ∀ p, SameEntry s s' p
  globals : s'.globals = s.globals
  txdb : s'.txdb = s.txdb

theorem LinkFrame.refl (s : NodeState) : LinkFrame s s := ⟨fun _ => rfl, rfl, rfl⟩

theorem LinkFrame.trans {s'' : NodeState} (h : LinkFrame s s') (h' : LinkFrame s' s'') :
    LinkFrame s s'' :=
  ⟨fun p => (h'.entries p).trans (h.entries p), h'.globals.trans h.globals, h'.txdb.trans h.txdb⟩

theorem LinkFrame.samePlace (h : LinkFrame s s') : SamePlace s s' := fun p => (h.entries p).place_eq

theorem setNext_eq_ok {q : UInt256} {pnext : Option UInt256} (hlinked : Linked s S)
    (h : setNext (some q) pnext s = (.ok (), s')) :
    LinkFrame s s' ∧ Linked s' fun p => if p = q then pnext.isSome = true else S p := by
  obtain ⟨i, hi, h⟩ := Action.reading_bind_eq_ok.mp h
  cases h
  have hi := index_eq_ok.mp hi
  refine ⟨⟨fun p => ?_, rfl, rfl⟩, fun p j hj => ?_⟩
  · unfold SameEntry
    change (Function.update s.mapBlockIndex q _ p).map _ = _
    by_cases hp : p = q
    · subst hp
      rw [Function.update_self, hi]
      rfl
    · rw [Function.update_of_ne hp]
  · change Function.update s.mapBlockIndex q _ p = some j at hj
    by_cases hp : p = q
    · subst hp
      rw [Function.update_self] at hj
      cases hj
      show pnext.isSome = true ↔ if p = p then pnext.isSome = true else S p
      rw [if_pos rfl]
    · rw [Function.update_of_ne hp] at hj
      show j.pnext.isSome = true ↔ if p = q then pnext.isSome = true else S p
      rw [if_neg hp]
      exact hlinked p j hj

theorem forM_linkPrev_eq_ok {pnext : UInt256 → Option UInt256} {linked : Prop}
    (hpnext : ∀ p, (pnext p).isSome = true ↔ linked) (hlinked : Linked s S)
    (h : l.forM (linkPrev pnext) s = (.ok (), s')) :
    LinkFrame s s' ∧
      Linked s' fun p => (S p ∧ ¬∃ x ∈ l, s.parent x = some p) ∨
        (linked ∧ ∃ x ∈ l, s.parent x = some p) := by
  induction l generalizing s S with
  | nil =>
    obtain ⟨-, rfl⟩ := Prod.mk.inj h
    exact ⟨LinkFrame.refl s, hlinked.congr (by simp)⟩
  | cons x l ih =>
    obtain ⟨t, hone, hrest⟩ := Action.forM_cons_eq_ok.mp h
    obtain ⟨i, hi, hone⟩ := Action.reading_bind_eq_ok.mp hone
    have hpar := parent_eq (index_eq_ok.mp hi)
    rcases hprev : i.pprev with _ | q
    · rw [hprev] at hone hpar
      obtain ⟨-, rfl⟩ := Prod.mk.inj hone
      obtain ⟨hframe, hl⟩ := ih hlinked hrest
      refine ⟨hframe, hl.congr fun p => ?_⟩
      simp [hpar]
    · rw [hprev] at hone hpar
      obtain ⟨hfst, hset⟩ := setNext_eq_ok hlinked hone
      obtain ⟨hframe, hl⟩ := ih hset hrest
      refine ⟨hfst.trans hframe, hl.congr fun p => ?_⟩
      rw [hfst.samePlace.parent_eq]
      simp only [List.mem_cons, exists_eq_or_imp, hpar, Option.some.injEq, hpnext]
      by_cases hp : p = q
      · subst hp
        by_cases hex : ∃ x ∈ l, s.parent x = some p <;> simp [hex]
      · simp [hp, Ne.symm hp]

theorem mem_tail_iff {x : UInt256} {path : List UInt256} (h : Branch parent p path) :
    x ∈ path.tail ↔ ∃ y ∈ path, parent y = some x := by
  induction h with
  | root hroot => simp [hroot]
  | @step p q path hpq hb ih =>
    obtain ⟨above, hpath⟩ := hb.eq_cons
    rw [List.tail_cons, hpath, List.mem_cons]
    rw [hpath, List.tail_cons] at ih
    rw [ih]
    simp only [List.mem_cons, exists_eq_or_imp, hpq, Option.some.injEq]
    constructor
    · rintro (rfl | h)
      · exact .inl rfl
      · exact .inr h
    · rintro (rfl | h)
      · exact .inl rfl
      · exact .inr h

theorem switch_links {dis con low : List UInt256} (hdis : Segment parent tip dis f)
    (hcon : Segment parent new con f) (hlow : Branch parent f (f :: low)) (p : UInt256) :
    ((p ∈ (dis ++ f :: low).tail ∧ ¬∃ x ∈ dis, parent x = some p) ∨
        ∃ x ∈ con, parent x = some p) ↔ p ∈ (con ++ f :: low).tail := by
  have hold := hdis.branch hlow
  rw [mem_tail_iff hold, mem_tail_iff (hcon.branch hlow)]
  simp only [List.mem_append, or_and_right, exists_or]
  constructor
  · rintro ((⟨h, hn⟩ | ⟨h, -⟩) | h)
    · exact absurd h hn
    · exact .inr h
    · exact .inl h
  · rintro (h | ⟨x, hx, hxp⟩)
    · exact .inr h
    · -- A proper ancestor of the fork is no parent of a block above it.
      refine .inl (.inr ⟨⟨x, hx, hxp⟩, ?_⟩)
      rintro ⟨y, hy, hyp⟩
      have hplow : p ∈ low := (mem_tail_iff hlow).mpr ⟨x, hx, hxp⟩
      have hnd := hold.nodup
      rw [List.nodup_append] at hnd
      rcases hdis.parent_mem hy hyp with hmem | rfl
      · exact hnd.2.2 p hmem p (List.mem_cons_of_mem _ hplow) rfl
      · exact (List.nodup_cons.mp hnd.2.1).1 hplow

end ZalemCoin.Chain
