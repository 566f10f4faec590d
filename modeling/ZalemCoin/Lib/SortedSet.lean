import Mathlib.Data.List.Lex
import Mathlib.Data.Set.Insert
import ZalemCoin.Lib.SortedMap

/-!
# Sorted sets

A set whose elements are kept in their order: a sorted map without values. A loop over the set visits
them in that order. Sets are compared element by element, so that there are sorted sets of sorted sets.
-/

namespace ZalemCoin.Lib

/-- A set with its elements in their order. -/
structure SortedSet (α : Type*) [LT α] where
  toMap : SortedMap α Unit

namespace SortedSet

variable {α : Type*} [LinearOrder α]

/-- The elements, the least one first. -/
def elems (s : SortedSet α) : List α := s.toMap.keys

def empty : SortedSet α := ⟨.empty⟩

instance : EmptyCollection (SortedSet α) := ⟨empty⟩

def insert (s : SortedSet α) (a : α) : SortedSet α := ⟨s.toMap.insert a ()⟩

def erase (s : SortedSet α) (a : α) : SortedSet α := ⟨s.toMap.erase a⟩

def union (s t : SortedSet α) : SortedSet α := t.elems.foldl insert s

def toSet (s : SortedSet α) : Set α := {a | a ∈ s.elems}

instance : Membership α (SortedSet α) := ⟨fun s a => a ∈ s.elems⟩

instance (a : α) (s : SortedSet α) : Decidable (a ∈ s) := inferInstanceAs (Decidable (a ∈ s.elems))

theorem elems_sorted (s : SortedSet α) : s.elems.Pairwise (· < ·) :=
  List.pairwise_map.mpr s.toMap.sorted

theorem nodup_elems (s : SortedSet α) : s.elems.Nodup := s.elems_sorted.imp ne_of_lt

theorem elems_injective : Function.Injective (elems : SortedSet α → List α) := by
  rintro ⟨⟨entries, hsort⟩⟩ ⟨⟨entries', hsort'⟩⟩ h
  have hmap : entries.map Prod.fst = entries'.map Prod.fst := h
  have hfst : Function.Injective (Prod.fst : α × Unit → α) := fun a b hab => Prod.ext hab rfl
  obtain rfl : entries = entries' := List.map_injective_iff.mpr hfst hmap
  rfl

/-- Sets are compared element by element. -/
instance : LinearOrder (SortedSet α) := LinearOrder.lift' elems elems_injective

variable {s t : SortedSet α} {a b : α}

theorem mem_iff_find : a ∈ s ↔ s.toMap.find a = some () := by
  change a ∈ s.toMap.keys ↔ _
  rw [SortedMap.mem_keys]
  exact ⟨fun ⟨_, h⟩ => h, fun h => ⟨_, h⟩⟩

@[simp]
theorem notMem_empty (a : α) : a ∉ (∅ : SortedSet α) := List.not_mem_nil

@[simp]
theorem mem_insert : b ∈ s.insert a ↔ b = a ∨ b ∈ s := by
  rw [mem_iff_find, mem_iff_find]
  change (s.toMap.insert a ()).find b = _ ↔ _
  rw [SortedMap.find_insert]
  split_ifs with h
  · simp [h]
  · simp [h]

@[simp]
theorem mem_erase : b ∈ s.erase a ↔ b ≠ a ∧ b ∈ s := by
  rw [mem_iff_find, mem_iff_find]
  change (s.toMap.erase a).find b = _ ↔ _
  rw [SortedMap.find_erase]
  split_ifs with h
  · simp [h]
  · simp [h]

theorem mem_foldl_insert {l : List α} : a ∈ l.foldl insert s ↔ a ∈ s ∨ a ∈ l := by
  induction l generalizing s with
  | nil => simp
  | cons b l ih =>
    rw [List.foldl_cons, ih, mem_insert, List.mem_cons, or_left_comm, or_assoc]

@[simp]
theorem mem_union : a ∈ s.union t ↔ a ∈ s ∨ a ∈ t := mem_foldl_insert

theorem eq_empty_or_mem (s : SortedSet α) : s = ∅ ∨ ∃ a, a ∈ s := by
  rcases h : s.elems with _ | ⟨a, l⟩
  · exact .inl (elems_injective h)
  · exact .inr ⟨a, by change a ∈ s.elems; rw [h]; exact List.mem_cons_self⟩

theorem ext_mem (h : ∀ a, a ∈ s ↔ a ∈ t) : s = t := by
  apply elems_injective
  have hperm : s.elems.Perm t.elems :=
    (List.perm_ext_iff_of_nodup s.nodup_elems t.nodup_elems).mpr h
  exact hperm.eq_of_pairwise (fun a b _ _ hab hba => absurd (hab.trans hba) (lt_irrefl a))
    s.elems_sorted t.elems_sorted

end SortedSet

end ZalemCoin.Lib
