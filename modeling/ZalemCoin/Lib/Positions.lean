import Mathlib.Data.List.Nodup

/-!
# Lists with the positions of their members

A list in which every member knows its position, so that a member is found without a search. The
positions are kept by a map beside the list: swapping two members, adding one at the end and
removing the last one change both, and the two stay inverse to each other.
-/

namespace ZalemCoin.Lib

open Function (update_of_ne update_self)
open Option (mem_unique some.inj)

/-- The map has the position of each member of the list, and a position for no one else. -/
def Indexed {κ : Type*} (order : List κ) (pos : κ → Option ℕ) : Prop :=
  ∀ i k, order[i]? = some k ↔ pos k = some i

namespace Indexed

variable {κ : Type*} {order : List κ} {pos : κ → Option ℕ}

theorem nodup (h : Indexed order pos) : order.Nodup := by
  apply List.nodup_iff_getElem?_ne_getElem?.mpr
  intro i j hij hj heq
  have hsome : order[j]? = some order[j] := List.getElem?_eq_getElem hj
  have hi : pos order[j] = some i := (h i _).mp (heq.trans hsome)
  have hjp : pos order[j] = some j := (h j _).mp hsome
  have : i = j := mem_unique hi hjp
  omega

theorem mem_iff (h : Indexed order pos) (k : κ) : k ∈ order ↔ (pos k).isSome := by
  rw [List.mem_iff_getElem?, Option.isSome_iff_exists]
  exact exists_congr fun i => h i k

theorem lt_length (h : Indexed order pos) {k : κ} {i : ℕ} (hk : pos k = some i) :
    i < order.length := by
  have hsome := (h i k).mpr hk
  exact (List.getElem?_eq_some_iff.mp hsome).1

theorem nil : Indexed [] (fun _ : κ => none) := by
  intro i k
  simp

variable (h : Indexed order pos)
include h

theorem congr {pos' : κ → Option ℕ} (heq : ∀ k, pos' k = pos k) :
    Indexed order pos' := by
  intro i k
  rw [heq]
  exact h i k

variable [DecidableEq κ]

theorem push {k : κ} (hnew : pos k = none) :
    Indexed (order ++ [k]) (Function.update pos k (some order.length)) := by
  intro i k'
  rw [List.getElem?_append]
  by_cases hk : k' = k
  · subst hk
    rw [update_self]
    split
    · rename_i hi
      rw [h i k', hnew]
      constructor
      · intro hnone
        exact absurd hnone (by simp)
      · intro hlen
        have := some.inj hlen
        omega
    · rename_i hi
      rw [List.getElem?_singleton]
      constructor
      · intro hsome
        split at hsome
        · congr 1
          omega
        · exact absurd hsome (by simp)
      · intro hlen
        have := some.inj hlen
        rw [if_pos (by omega)]
  · rw [update_of_ne hk]
    split
    · exact h i k'
    · rename_i hi
      rw [List.getElem?_singleton]
      constructor
      · intro hsome
        split at hsome
        · exact absurd (some.inj hsome).symm hk
        · exact absurd hsome (by simp)
      · intro hpos
        exact absurd (h.lt_length hpos) hi

/-- Swapping two elements keeps the positions right. -/
theorem swap {i j : ℕ} {a b : κ} (hi : order[i]? = some a) (hj : order[j]? = some b) :
    Indexed ((order.set i b).set j a)
      (Function.update (Function.update pos a (some j)) b (some i)) := by
  have hilt : i < order.length := (List.getElem?_eq_some_iff.mp hi).1
  have hjlt : j < order.length := (List.getElem?_eq_some_iff.mp hj).1
  have hpa : pos a = some i := (h i a).mp hi
  have hpb : pos b = some j := (h j b).mp hj
  intro n k
  rw [List.getElem?_set, List.getElem?_set, List.length_set]
  by_cases hkb : k = b
  · subst hkb
    rw [update_self, if_pos hjlt, if_pos hilt]
    constructor
    · intro hn
      split at hn
      · -- The second write stands at this position, so both members are the same.
        rename_i hjn
        have hak := some.inj hn
        rw [hak] at hpa
        have hij : i = j := mem_unique hpa hpb
        rw [hij, hjn]
      · split at hn
        · rename_i hin
          rw [hin]
        · rename_i hjn _
          have := (h n k).mp hn
          exact absurd (mem_unique hpb this) hjn
    · intro hn
      have hin : i = n := some.inj hn
      subst hin
      rw [if_pos rfl]
      split
      · rename_i hji
        subst hji
        exact hi.symm.trans hj
      · rfl
  · rw [update_of_ne hkb]
    by_cases hka : k = a
    · subst hka
      rw [update_self, if_pos hjlt, if_pos hilt]
      constructor
      · intro hn
        split at hn
        · rename_i hjn
          rw [hjn]
        · split at hn
          · exact absurd (some.inj hn).symm hkb
          · rename_i hin
            have := (h n k).mp hn
            exact absurd (mem_unique hpa this) hin
      · intro hn
        rw [if_pos (some.inj hn)]
    · rw [update_of_ne hka, if_pos hjlt, if_pos hilt]
      constructor
      · intro hn
        split at hn
        · exact absurd (some.inj hn).symm hka
        · split at hn
          · exact absurd (some.inj hn).symm hkb
          · exact (h n k).mp hn
      · intro hn
        have hsome := (h n k).mpr hn
        rw [if_neg, if_neg]
        · exact hsome
        · intro hin
          subst hin
          exact hka (mem_unique hsome hi)
        · intro hjn
          subst hjn
          exact hkb (mem_unique hsome hj)

theorem dropLast {k : κ} (hk : pos k = some (order.length - 1)) :
    Indexed order.dropLast (Function.update pos k none) := by
  intro i k'
  rw [List.getElem?_dropLast]
  by_cases hkk : k' = k
  · subst hkk
    rw [update_self]
    constructor
    · intro hi
      split at hi
      · have := some.inj (hk.symm.trans ((h i k').mp hi))
        omega
      · exact absurd hi (by simp)
    · intro hnone
      exact absurd hnone (by simp)
  · rw [update_of_ne hkk]
    split
    · exact h i k'
    · rename_i hi
      constructor
      · intro hnone
        exact absurd hnone (by simp)
      · intro hpos
        -- Only the last position is dropped, and that is another member's.
        have hile := h.lt_length hpos
        have hil : i = order.length - 1 := by omega
        subst hil
        have hsame := ((h _ k').mpr hpos).symm.trans ((h _ k).mpr hk)
        exact absurd (some.inj hsame) hkk

end Indexed

end ZalemCoin.Lib
