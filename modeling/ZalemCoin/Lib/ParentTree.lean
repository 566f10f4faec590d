import Mathlib.Data.List.Nodup
import Mathlib.Data.List.Perm.Subperm

/-!
# Trees by parent pointers

Nodes that each know their parent form trees. The branch of a node lists the node, its parent, and
so on up to a root; a segment is what the branch of a node lists before it reaches a given ancestor.
A node has at most one branch, its members are the node and its ancestors, and it mentions nobody
twice.
-/

namespace ZalemCoin.Lib

open Relation.ReflTransGen (cases_head)

variable {ι : Type*}

/-- Whether the first node is the second or one of its ancestors. -/
def IsAncestor (parent : ι → Option ι) (b a : ι) : Prop :=
  Relation.ReflTransGen (fun x y => parent x = some y) a b

theorem IsAncestor.refl (parent : ι → Option ι) (a : ι) : IsAncestor parent a a :=
  Relation.ReflTransGen.refl

/-- The ancestors of a node are the same when the pointers agree on a set that contains the node and
is closed under them. -/
theorem IsAncestor.congr {parent parent' : ι → Option ι} {known : ι → Prop} {a b : ι}
    (h : IsAncestor parent b a) (closed : ∀ x y, known x → parent x = some y → known y)
    (heq : ∀ x, known x → parent' x = parent x) (ha : known a) : IsAncestor parent' b a := by
  -- Every node on the way is in the set.
  suffices H : IsAncestor parent' b a ∧ known b from H.1
  induction h with
  | refl => exact ⟨IsAncestor.refl _ _, ha⟩
  | tail _ hyz ih => exact ⟨ih.1.tail ((heq _ ih.2).trans hyz), closed _ _ ih.2 hyz⟩

def lastAncestors (parent : ι → Option ι) : ℕ → ι → List ι
  | 0, _ => []
  | n + 1, a =>
    match parent a with
    | none => []
    | some b => b :: lastAncestors parent n b

/-- The branch of a node, from the node up to its root. -/
inductive Branch (parent : ι → Option ι) : ι → List ι → Prop
  | root {a : ι} (h : parent a = none) : Branch parent a [a]
  | step {a b : ι} {path : List ι} (h : parent a = some b) (hb : Branch parent b path) :
      Branch parent a (a :: path)

/-- The way from a node up to an ancestor, which is not listed itself. -/
inductive Segment (parent : ι → Option ι) : ι → List ι → ι → Prop
  | refl (a : ι) : Segment parent a [] a
  | step {a b c : ι} {path : List ι} (h : parent a = some b) (hb : Segment parent b path c) :
      Segment parent a (a :: path) c

/-- The way from a node down to a descendant, without the node itself. -/
inductive Ascent (parent : ι → Option ι) : ι → List ι → ι → Prop
  | refl (a : ι) : Ascent parent a [] a
  | step {a b c : ι} {path : List ι} (h : parent b = some a) (hb : Ascent parent b path c) :
      Ascent parent a (b :: path) c

variable {parent parent' : ι → Option ι} {a b x : ι} {path path' : List ι}

namespace Branch

variable (h : Branch parent a path)
include h

theorem eq_cons : ∃ above, path = a :: above := by
  cases h with
  | root => exact ⟨[], rfl⟩
  | step => exact ⟨_, rfl⟩

theorem self_mem : a ∈ path := by
  obtain ⟨above, rfl⟩ := h.eq_cons
  exact List.mem_cons_self

theorem unique (h' : Branch parent a path') : path = path' := by
  induction h generalizing path' with
  | root hroot =>
    cases h' with
    | root => rfl
    | step hstep => exact absurd (hroot.symm.trans hstep) (by simp)
  | step hstep _ ih =>
    cases h' with
    | root hroot => exact absurd (hroot.symm.trans hstep) (by simp)
    | step hstep' hb' =>
      obtain rfl := Option.mem_unique hstep hstep'
      rw [ih hb']

theorem congr (heq : ∀ x ∈ path, parent' x = parent x) : Branch parent' a path := by
  induction h with
  | root hroot => exact root ((heq _ List.mem_cons_self).trans hroot)
  | step hstep _ ih =>
    exact step ((heq _ List.mem_cons_self).trans hstep)
      (ih fun x hx => heq x (List.mem_cons_of_mem _ hx))

omit h

theorem of_cons_cons (h : Branch parent a (a :: b :: path)) :
    parent a = some b ∧ Branch parent b (b :: path) := by
  cases h with
  | step hstep hb =>
    obtain ⟨above, heq⟩ := hb.eq_cons
    obtain rfl := (List.cons.inj heq).1
    exact ⟨hstep, hb⟩

variable (h : Branch parent a path)
include h

theorem exists_suffix (hx : x ∈ path) :
    ∃ below rest, path = below ++ rest ∧ Branch parent x rest := by
  induction h with
  | root hroot =>
    obtain rfl := List.mem_singleton.mp hx
    exact ⟨[], [x], rfl, root hroot⟩
  | @step a b path hstep hb ih =>
    rcases List.mem_cons.mp hx with rfl | hx
    · exact ⟨[], x :: path, rfl, step hstep hb⟩
    · obtain ⟨below, rest, rfl, hrest⟩ := ih hx
      exact ⟨a :: below, rest, rfl, hrest⟩

theorem nodup : path.Nodup := by
  induction h with
  | root => exact List.nodup_singleton _
  | @step a b path hstep hb ih =>
    refine List.nodup_cons.mpr ⟨fun hmem => ?_, ih⟩
    -- A node that is its own proper ancestor would have a branch shorter than itself.
    obtain ⟨below, rest, hpath, hrest⟩ := hb.exists_suffix hmem
    have hsame : rest = a :: path := hrest.unique (step hstep hb)
    have hlen := congrArg List.length hpath
    rw [hsame, List.length_append, List.length_cons] at hlen
    omega

theorem length_le {nodes : List ι}
    (hnodes : ∀ x y, parent x = some y → x ∈ nodes) : path.length ≤ nodes.length + 1 := by
  have hmem : ∃ root, ∀ x ∈ path, x ∈ root :: nodes := by
    induction h with
    | @root a _ =>
      exact ⟨a, fun x hx => List.mem_singleton.mp hx ▸ List.mem_cons_self⟩
    | step hstep _ ih =>
      obtain ⟨root, hroot⟩ := ih
      refine ⟨root, fun x hx => ?_⟩
      rcases List.mem_cons.mp hx with rfl | hx
      · exact List.mem_cons_of_mem _ (hnodes _ _ hstep)
      · exact hroot x hx
  obtain ⟨root, hroot⟩ := hmem
  exact (List.subperm_of_subset h.nodup hroot).length_le

theorem exists_of_cut
    (hcut : ∀ x, parent' x = none ∨ parent' x = parent x) : ∃ path', Branch parent' a path' := by
  induction h with
  | @root a hroot =>
    rcases hcut a with hnone | hsame
    · exact ⟨[a], root hnone⟩
    · exact ⟨[a], root (hsame.trans hroot)⟩
  | @step a b path hstep _ ih =>
    rcases hcut a with hnone | hsame
    · exact ⟨[a], root hnone⟩
    · obtain ⟨path', hb⟩ := ih
      exact ⟨a :: path', step (hsame.trans hstep) hb⟩

theorem exists_of_update (hsame : ∀ y, y ≠ x → parent' y = parent y)
    (hx : ∃ path', Branch parent' x path') : ∃ path', Branch parent' a path' := by
  -- the branch is the same up to the other node
  induction h with
  | @root a hroot =>
    by_cases ha : a = x
    · exact ha ▸ hx
    · exact ⟨[a], root ((hsame a ha).trans hroot)⟩
  | @step a b path hstep _ ih =>
    by_cases ha : a = x
    · exact ha ▸ hx
    · obtain ⟨path', hb⟩ := ih
      exact ⟨a :: path', step ((hsame a ha).trans hstep) hb⟩

theorem mem_iff : x ∈ path ↔ IsAncestor parent x a := by
  constructor
  · intro hx
    induction h with
    | root =>
      obtain rfl := List.mem_singleton.mp hx
      exact IsAncestor.refl _ _
    | step hstep _ ih =>
      rcases List.mem_cons.mp hx with rfl | hx
      · exact IsAncestor.refl _ _
      · exact Relation.ReflTransGen.head hstep (ih hx)
  · intro hx
    induction hx with
    | refl => exact h.self_mem
    | @tail y z _ hyz ih =>
      obtain ⟨below, rest, rfl, hrest⟩ := h.exists_suffix ih
      cases hrest with
      | root hroot => exact absurd (hroot.symm.trans hyz) (by simp)
      | step hstep hb =>
        obtain rfl := Option.mem_unique hstep hyz
        exact List.mem_append_right _ (List.mem_cons_of_mem _ hb.self_mem)

end Branch

namespace Segment

variable (h : Segment parent a path b)
include h

theorem branch (hb : Branch parent b path') : Branch parent a (path ++ path') := by
  induction h with
  | refl => exact hb
  | step hstep _ ih => exact Branch.step hstep (ih hb)

theorem isAncestor : IsAncestor parent b a := by
  induction h with
  | refl => exact IsAncestor.refl _ _
  | step hstep _ ih => exact Relation.ReflTransGen.head hstep ih

theorem isAncestor_of_mem (hx : x ∈ path) : IsAncestor parent x a := by
  induction h with
  | refl => simp at hx
  | step hstep _ ih =>
    rcases List.mem_cons.mp hx with rfl | hx
    · exact IsAncestor.refl _ _
    · exact Relation.ReflTransGen.head hstep (ih hx)

theorem parent_mem {y : ι} (hx : x ∈ path) (hxy : parent x = some y) : y ∈ path ∨ y = b := by
  induction h with
  | refl => simp at hx
  | @step a c b path hstep hseg ih =>
    rcases List.mem_cons.mp hx with rfl | hx
    · obtain rfl := Option.mem_unique hstep hxy
      cases hseg with
      | refl => exact .inr rfl
      | step => exact .inl (by simp)
    · exact (ih hx).imp_left (List.mem_cons_of_mem _)

theorem isAncestor_of_not_mem (hx : IsAncestor parent x a)
    (hmem : x ∉ path) : IsAncestor parent x b := by
  induction h with
  | refl => exact hx
  | step hstep _ ih =>
    rcases cases_head hx with rfl | ⟨c', hac, hcx⟩
    · exact absurd List.mem_cons_self hmem
    · obtain rfl := Option.mem_unique hstep hac
      exact ih hcx fun hx => hmem (List.mem_cons_of_mem _ hx)

end Segment

theorem Ascent.isAncestor (h : Ascent parent a path b) : IsAncestor parent a b := by
  induction h with
  | refl => exact IsAncestor.refl _ _
  | step hstep _ ih => exact Relation.ReflTransGen.tail ih hstep

/-! ## Heights -/

section

variable {height : ι → ℕ} (hheight : ∀ a b, parent a = some b → height a = height b + 1)
include hheight

theorem IsAncestor.eq_or_lt (h : IsAncestor parent b a) : b = a ∨ height b < height a := by
  induction h with
  | refl => exact .inl rfl
  | @tail y z _ hyz ih =>
    have hstep := hheight y z hyz
    rcases ih with rfl | hlt
    · exact .inr (by omega)
    · exact .inr (by omega)

theorem Segment.lt_of_mem (h : Segment parent a path b) (hx : x ∈ path) :
    height b < height x := by
  induction h with
  | refl => simp at hx
  | @step a c b path hstep hb ih =>
    rcases List.mem_cons.mp hx with rfl | hx
    · have hpar := hheight x c hstep
      rcases hb.isAncestor.eq_or_lt hheight with rfl | hlt <;> omega
    · exact ih hx

theorem Segment.pairwise_lt (h : Segment parent a path b) :
    path.Pairwise fun x y => height y < height x := by
  induction h with
  | refl => exact List.Pairwise.nil
  | step hstep hb ih =>
    refine List.pairwise_cons.mpr ⟨fun y hy => ?_, ih⟩
    have hpar := hheight _ _ hstep
    rcases (hb.isAncestor_of_mem hy).eq_or_lt hheight with rfl | hlt <;> omega

theorem IsAncestor.eq_of_height_eq (h : IsAncestor parent b a) (h' : IsAncestor parent x a)
    (heq : height b = height x) : b = x := by
  induction h using Relation.ReflTransGen.head_induction_on with
  | refl =>
    rcases h'.eq_or_lt hheight with rfl | hlt
    · rfl
    · omega
  | head hac hcb ih =>
    rcases cases_head h' with rfl | ⟨c', hac', hcx⟩
    · -- The other ancestor is the node itself, which is higher than all of its proper ancestors.
      have hstep := hheight _ _ hac
      rcases IsAncestor.eq_or_lt hheight hcb with rfl | hlt <;> omega
    · obtain rfl := Option.mem_unique hac hac'
      exact ih hcx

end

/-- The last one of the common ancestors of two nodes. -/
structure IsFork (parent : ι → Option ι) (fork a b : ι) : Prop where
  left : IsAncestor parent fork a
  right : IsAncestor parent fork b
  last : ∀ x, IsAncestor parent x a → IsAncestor parent x b → IsAncestor parent x fork

theorem IsAncestor.of_ne (h : IsAncestor parent x a) (hab : parent a = some b) (hne : x ≠ a) :
    IsAncestor parent x b := by
  rcases cases_head h with rfl | ⟨c, hac, hc⟩
  · exact absurd rfl hne
  · obtain rfl := Option.mem_unique hab hac
    exact hc

theorem IsAncestor.eq_of_root (h : IsAncestor parent x a) (ha : parent a = none) : x = a := by
  rcases cases_head h with rfl | ⟨c, hac, -⟩
  · rfl
  · exact absurd (ha.symm.trans hac) (by simp)

end ZalemCoin.Lib
