import Mathlib.Algebra.Order.BigOperators.Group.List
import Mathlib.Algebra.Ring.Int.Defs

/-!
# Marked elements

A list of marks beside another list picks some of its elements. Marking one more element adds what it is
worth to what the marked elements are worth together.
-/

namespace ZalemCoin.Lib

variable {α : Type*} {M : Type*}

def marked : List α → List Bool → List α
  | a :: l, mark :: marks => if mark then a :: marked l marks else marked l marks
  | [], _ => []
  | _ :: _, [] => []

theorem marked_sublist (l : List α) (marks : List Bool) : (marked l marks).Sublist l := by
  induction l generalizing marks with
  | nil => exact List.Sublist.slnil
  | cons a l ih =>
    cases marks with
    | nil => exact List.nil_sublist _
    | cons mark marks =>
      rw [marked]
      split_ifs
      · exact (ih marks).cons_cons a
      · exact (ih marks).cons a

theorem marked_replicate_false (l : List α) (n : ℕ) : marked l (List.replicate n false) = [] := by
  induction l generalizing n with
  | nil => rfl
  | cons a l ih =>
    cases n with
    | zero => rfl
    | succ n => exact ih n

theorem marked_replicate_true (l : List α) : marked l (List.replicate l.length true) = l := by
  induction l with
  | nil => rfl
  | cons a l ih => exact congrArg (a :: ·) ih

theorem marked_map {β : Type*} (f : α → β) (l : List α) (marks : List Bool) :
    marked (l.map f) marks = (marked l marks).map f := by
  induction l generalizing marks with
  | nil => rfl
  | cons a l ih =>
    cases marks with
    | nil => rfl
    | cons mark marks =>
      rw [List.map_cons, marked, marked, ih]
      split_ifs <;> rfl

theorem sum_marked_set [AddCommMonoid M] {l : List M} {marks : List Bool} {i : ℕ} {a : M}
    (ha : l[i]? = some a) (hmark : marks[i]? = some false) :
    (marked l (marks.set i true)).sum = (marked l marks).sum + a := by
  induction l generalizing marks i with
  | nil => cases ha
  | cons b l ih =>
    cases marks with
    | nil => cases hmark
    | cons mark marks =>
      cases i with
      | zero =>
        cases ha
        cases hmark
        rw [List.set_cons_zero, marked, marked, if_pos rfl, if_neg Bool.false_ne_true, List.sum_cons,
          add_comm]
      | succ i =>
        have hrest := ih (i := i) ha hmark
        rw [List.set_cons_succ, marked, marked]
        split_ifs
        · rw [List.sum_cons, List.sum_cons, hrest, add_assoc]
        · exact hrest

theorem sum_marked_le {l : List ℤ} (hl : ∀ n ∈ l, 0 ≤ n) (marks : List Bool) :
    0 ≤ (marked l marks).sum ∧ (marked l marks).sum ≤ l.sum := by
  have hsub := marked_sublist l marks
  exact ⟨List.sum_nonneg fun n hn => hl n (hsub.mem hn), hsub.sum_le_sum hl⟩

end ZalemCoin.Lib
