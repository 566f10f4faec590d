import Mathlib.Data.Nat.Notation

/-!
# Loops that end when they do

A loop does rounds until one of them has a result. It is run for a number of rounds, and has no result
when that number is too small. A loop whose rounds make a measure smaller has a result after more rounds
than the measure, and what its rounds keep holds at its result.
-/

namespace ZalemCoin.Lib

variable {σ ρ : Type*}

/-- What a round of a loop comes to: a state to go on with, or a result. -/
inductive Round (σ ρ : Type*)
  | next (s : σ)
  | done (r : ρ)

def runLoop (round : σ → Round σ ρ) : ℕ → σ → Option ρ
  | 0, _ => none
  | rounds + 1, s =>
    match round s with
    | .next t => runLoop round rounds t
    | .done r => some r

variable {round : σ → Round σ ρ} {rounds : ℕ} {s t : σ} {r : ρ}

theorem runLoop_next (h : round s = .next t) :
    runLoop round (rounds + 1) s = runLoop round rounds t := by
  simp only [runLoop, h]

theorem runLoop_done (h : round s = .done r) : runLoop round (rounds + 1) s = some r := by
  simp only [runLoop, h]

/-- What the states and the results are to each other: a round that ends establishes it, and a round
that goes on passes it back. -/
theorem runLoop_spec {P : σ → ρ → Prop} (hdone : ∀ s r, round s = .done r → P s r)
    (hnext : ∀ s t r, round s = .next t → P t r → P s r) (h : runLoop round rounds s = some r) :
    P s r := by
  induction rounds generalizing s with
  | zero => cases h
  | succ rounds ih =>
    cases hrnd : round s with
    | next t =>
      rw [runLoop_next hrnd] at h
      exact hnext s t r hrnd (ih h)
    | done r' =>
      rw [runLoop_done hrnd] at h
      obtain rfl := Option.some.inj h
      exact hdone s r' hrnd

theorem runLoop_of_decreasing {I : σ → Prop} {measure : σ → ℕ}
    (hdecr : ∀ s t, I s → round s = .next t → I t ∧ measure t < measure s) (hs : I s)
    (hrnds : measure s < rounds) : ∃ r, runLoop round rounds s = some r := by
  induction rounds generalizing s with
  | zero => omega
  | succ rounds ih =>
    cases hrnd : round s with
    | next t =>
      obtain ⟨ht, hless⟩ := hdecr s t hs hrnd
      rw [runLoop_next hrnd]
      exact ih ht (by omega)
    | done r => exact ⟨r, runLoop_done hrnd⟩

theorem runLoop_eq_none {I : σ → Prop} (hgo : ∀ s, I s → ∃ t, round s = .next t ∧ I t) (hs : I s) :
    runLoop round rounds s = none := by
  induction rounds generalizing s with
  | zero => rfl
  | succ rounds ih =>
    obtain ⟨t, hrnd, ht⟩ := hgo s hs
    rw [runLoop_next hrnd]
    exact ih ht

end ZalemCoin.Lib
