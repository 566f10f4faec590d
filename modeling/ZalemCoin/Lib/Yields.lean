import Mathlib.Data.List.Basic

/-!
# Computations that fail in known ways only

A computation yields what is said of its result, unless it fails with one of the known errors. This holds
of sequences and of loops when it holds of their steps, so that what a computation returns and how it can
fail are proved together.
-/

namespace ZalemCoin.Lib

/-- The result has the property, or the error is one of the known ones. -/
def Yields {ε : Type*} {α : Type*} (E : ε → Prop) (x : Except ε α) (P : α → Prop) : Prop :=
  match x with
  | .ok a => P a
  | .error e => E e

namespace Yields

variable {ε : Type*} {α β : Type*} {γ : Type*} {E E' : ε → Prop} {x : Except ε α} {P Q : α → Prop}

theorem pure {a : α} (h : P a) : Yields E (Pure.pure a : Except ε α) P := h

theorem of_ok {a : α} (h : Yields E x P) (hx : x = .ok a) : P a := by
  subst hx
  exact h

theorem exists_ok (h : Yields (fun _ => False) x P) : ∃ a, x = .ok a ∧ P a := by
  cases x with
  | ok a => exact ⟨a, rfl, h⟩
  | error e => exact h.elim

theorem mono (h : Yields E x P) (hE : ∀ e, E e → E' e) (hP : ∀ a, P a → Q a) : Yields E' x Q := by
  cases x with
  | ok a => exact hP a h
  | error e => exact hE e h

theorem bind {α β : Type} {x : Except ε α} {P : α → Prop} {f : α → Except ε β} {Q : β → Prop}
    (h : Yields E x P) (hf : ∀ a, P a → Yields E (f a) Q) : Yields E (x >>= f) Q := by
  cases x with
  | ok a => exact hf a h
  | error e => exact h

theorem foldlM {β : Type} {f : β → γ → Except ε β} (P : List γ → β → Prop) {l : List γ} {b : β}
    (start : P [] b)
    (step : ∀ done a rest c, l = done ++ a :: rest → P done c →
      Yields E (f c a) (P (done ++ [a]))) :
    Yields E (l.foldlM f b) (P l) := by
  -- The induction is on the elements still to come, with the consumed ones as an accumulator.
  suffices hrest : ∀ rest done c, l = done ++ rest → P done c → Yields E (rest.foldlM f c) (P l) from
    hrest l [] b rfl start
  intro rest
  induction rest with
  | nil =>
    intro done c hl hc
    rw [List.append_nil] at hl
    exact Yields.pure (hl ▸ hc)
  | cons a rest ih =>
    intro done c hl hc
    rw [List.foldlM_cons]
    refine Yields.bind (step done a rest c hl hc) fun c' hc' => ?_
    exact ih (done ++ [a]) c' (by rw [hl, List.append_assoc, List.singleton_append]) hc'

end Yields

end ZalemCoin.Lib
