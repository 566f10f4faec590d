import Mathlib.Data.Nat.Basic

/-!
# Attempts, one after another

A program that tries something again, from the state that its last attempt has left, until an attempt is
the last one. The loop ends when a measure goes down from each attempt to the next, its result is that of
an attempt in a state with every property that the attempts preserve, and it does not end when each
attempt leads to another one.
-/

namespace ZalemCoin.Lib

/-- What an attempt leads to: another one, or the end. -/
inductive Attempted (σ ρ : Type*)
  | again (s : σ)
  | done (r : ρ)

variable {σ ρ : Type*} (step : ℕ → σ → Attempted σ ρ)

/-- Attempts from a number on. The first argument is how many are made at most. -/
def attempts : ℕ → ℕ → σ → Option ρ
  | 0, _, _ => none
  | fuel + 1, k, s =>
    match step k s with
    | .again s => attempts fuel (k + 1) s
    | .done r => some r

variable {step} {Inv : σ → Prop} {s : σ} {r : ρ}

theorem attempts_again {k : ℕ} {s' : σ} (h : step k s = .again s') (fuel : ℕ) :
    attempts step (fuel + 1) k s = attempts step fuel (k + 1) s' := by
  rw [attempts, h]

theorem attempts_done {k : ℕ} (h : step k s = .done r) (fuel : ℕ) :
    attempts step (fuel + 1) k s = some r := by
  rw [attempts, h]

theorem exists_attempts (μ : σ → ℕ)
    (hstep : ∀ k s s', Inv s → step k s = .again s' → Inv s' ∧ μ s' < μ s) {bound : ℕ} (k : ℕ)
    (hs : Inv s) (hbound : μ s < bound) : ∃ r, attempts step bound k s = some r := by
  induction bound generalizing k s with
  | zero => exact absurd hbound (Nat.not_lt_zero _)
  | succ bound ih =>
    cases h : step k s with
    | again s' =>
      obtain ⟨hs', hlt⟩ := hstep k s s' hs h
      rw [attempts_again h]
      exact ih (k + 1) hs' (by omega)
    | done r => exact ⟨r, attempts_done h bound⟩

theorem attempts_eq_some (hstep : ∀ k s s', Inv s → step k s = .again s' → Inv s') {fuel k : ℕ}
    (hs : Inv s) (h : attempts step fuel k s = some r) :
    ∃ k' s', k ≤ k' ∧ Inv s' ∧ step k' s' = .done r := by
  induction fuel generalizing k s with
  | zero => exact nomatch h
  | succ fuel ih =>
    cases hnext : step k s with
    | again s' =>
      rw [attempts_again hnext] at h
      obtain ⟨k', s'', hk, hs'', hdone⟩ := ih (hstep k s s' hs hnext) h
      exact ⟨k', s'', Nat.le_of_succ_le hk, hs'', hdone⟩
    | done r' =>
      rw [attempts_done hnext] at h
      cases h
      exact ⟨k, s, le_rfl, hs, hnext⟩

theorem attempts_eq_none (hstep : ∀ k s, Inv s → ∃ s', step k s = .again s' ∧ Inv s') (fuel k : ℕ)
    (hs : Inv s) : attempts step fuel k s = none := by
  induction fuel generalizing k s with
  | zero => rfl
  | succ fuel ih =>
    obtain ⟨s', hnext, hs'⟩ := hstep k s hs
    rw [attempts_again hnext]
    exact ih (k + 1) hs'

end ZalemCoin.Lib
