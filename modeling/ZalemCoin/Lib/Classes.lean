import Mathlib.Data.Set.Lattice

/-!
# The classes of a family of sets

The sets of a family link their elements: two elements are linked when a chain of sets of the family
leads from one to the other. The classes of the family are the sets of elements that are linked. When a
set is added to the family, the classes that it meets become one (`IsClasses.insert`).
-/

namespace ZalemCoin.Lib

variable {α : Type*} {F F' P : Set (Set α)} {g s : Set α} {a b c : α}

def Together (F : Set (Set α)) (a b : α) : Prop := ∃ g ∈ F, a ∈ g ∧ b ∈ g

/-- A chain of sets of the family leads from one element to the other. -/
def Linked (F : Set (Set α)) : α → α → Prop := Relation.ReflTransGen (Together F)

namespace Linked

theorem symm (h : Linked F a b) : Linked F b a := by
  induction h with
  | refl => exact Relation.ReflTransGen.refl
  | tail _ hlast ih =>
    obtain ⟨g, hg, hb, hc⟩ := hlast
    exact Relation.ReflTransGen.head ⟨g, hg, hc, hb⟩ ih

theorem trans (h : Linked F a b) (h' : Linked F b c) : Linked F a c :=
  Relation.ReflTransGen.trans h h'

theorem mono (hsub : F ⊆ F') (h : Linked F a b) : Linked F' a b := by
  have htogether : Together F ≤ Together F' := fun _ _ ⟨g, hg, hab⟩ => ⟨g, hsub hg, hab⟩
  exact Relation.ReflTransGen.mono htogether a b h

theorem of_mem (hg : g ∈ F) (ha : a ∈ g) (hb : b ∈ g) : Linked F a b :=
  Relation.ReflTransGen.single ⟨g, hg, ha, hb⟩

/-- What is linked to an element of a set stays in the set, when each set of the family does that meets
it. -/
theorem mem_of_closed (hclosed : ∀ g ∈ F, ∀ a ∈ g, a ∈ s → g ⊆ s) (ha : a ∈ s)
    (h : Linked F a b) : b ∈ s := by
  induction h with
  | refl => exact ha
  | tail _ hlast ih =>
    obtain ⟨g, hg, hb, hc⟩ := hlast
    exact hclosed g hg _ hb ih hc

end Linked

structure IsClasses (P F : Set (Set α)) : Prop where
  nonempty : ∀ s ∈ P, s.Nonempty
  covers : ⋃₀ P = ⋃₀ F
  linked : ∀ s ∈ P, ∀ a ∈ s, ∀ b, b ∈ s ↔ Linked F a b

namespace IsClasses

theorem eq_of_mem (h : IsClasses P F) {t : Set α} (hs : s ∈ P) (ht : t ∈ P) (has : a ∈ s)
    (hat : a ∈ t) : s = t := by
  ext b
  rw [h.linked s hs a has, h.linked t ht a hat]

theorem empty : IsClasses (∅ : Set (Set α)) ∅ := ⟨nofun, rfl, nofun⟩

theorem subset_of_mem (h : IsClasses P F) (hs : s ∈ P) (hg : g ∈ F) (has : a ∈ s) (hag : a ∈ g) :
    g ⊆ s :=
  fun b hb => (h.linked s hs a has b).mpr (Linked.of_mem hg hag hb)

theorem insert (h : IsClasses P F) (hg : g.Nonempty) :
    IsClasses (Insert.insert (g ∪ ⋃₀ {s ∈ P | (s ∩ g).Nonempty}) {s ∈ P | ¬(s ∩ g).Nonempty})
      (Insert.insert g F) := by
  have hsub : F ⊆ Insert.insert g F := Set.subset_insert g F
  refine ⟨?_, ?_, ?_⟩
  · rintro s (rfl | ⟨hs, -⟩)
    · exact hg.mono Set.subset_union_left
    · exact h.nonempty s hs
  · rw [Set.sUnion_insert, Set.sUnion_insert, ← h.covers, Set.union_assoc]
    congr 1
    rw [← Set.sUnion_union]
    congr 1
    ext s
    constructor
    · rintro (⟨hs, -⟩ | ⟨hs, -⟩)
      · exact hs
      · exact hs
    · intro hs
      rcases Classical.em (s ∩ g).Nonempty with hmeets | hmiss
      · exact .inl ⟨hs, hmeets⟩
      · exact .inr ⟨hs, hmiss⟩
  · rintro s (rfl | ⟨hs, hmiss⟩) a ha b
    · -- Everything in the new class is linked to the elements of the set.
      have hlink : ∀ a ∈ g ∪ ⋃₀ {s ∈ P | (s ∩ g).Nonempty}, ∀ x ∈ g,
          Linked (Insert.insert g F) a x := by
        rintro a (ha | ⟨s, ⟨hs, y, hys, hyg⟩, has⟩) x hx
        · exact Linked.of_mem (Set.mem_insert g F) ha hx
        · have hay := (h.linked s hs a has y).mp hys
          exact (hay.mono hsub).trans (Linked.of_mem (Set.mem_insert g F) hyg hx)
      constructor
      · intro hb
        obtain ⟨x, hx⟩ := hg
        exact (hlink a ha x hx).trans (hlink b hb x hx).symm
      · refine Linked.mem_of_closed ?_ ha
        rintro f (rfl | hf) c hcf hc
        · exact Set.subset_union_left
        · -- The class of `c` meets the set, so it has become part of the new one.
          have hcover : c ∈ ⋃₀ P := h.covers ▸ Set.mem_sUnion_of_mem hcf hf
          obtain ⟨s, hs, hcs⟩ := hcover
          have hmeets : (s ∩ g).Nonempty := by
            rcases hc with hc | ⟨t, ⟨ht, hmeets⟩, hct⟩
            · exact ⟨c, hcs, hc⟩
            · rwa [h.eq_of_mem hs ht hcs hct]
          exact (h.subset_of_mem hs hf hcs hcf).trans
            ((Set.subset_sUnion_of_mem (show s ∈ {s ∈ P | (s ∩ g).Nonempty} from ⟨hs, hmeets⟩)).trans
              Set.subset_union_right)
    · constructor
      · intro hb
        exact ((h.linked s hs a ha b).mp hb).mono hsub
      · refine Linked.mem_of_closed ?_ ha
        rintro f (rfl | hf) c hcf hcs
        · exact absurd ⟨c, hcs, hcf⟩ hmiss
        · exact h.subset_of_mem hs hf hcs hcf

end IsClasses

end ZalemCoin.Lib
