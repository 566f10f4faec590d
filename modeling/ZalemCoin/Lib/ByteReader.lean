import Mathlib.Data.List.Basic
import Mathlib.Tactic.Ring

/-!
# Reading bytes

A reader takes a value from the front of a list of bytes, or fails. `Reads` says that a reader takes
exactly the given bytes, whatever follows them, and what it gives for them. It is a property of
sequences of readers when it is one of their parts (`Reads.bind`), and of a loop when each of its
rounds has it (`Reads.loop`), so a format is read back by following how it was written.
-/

namespace ZalemCoin.Lib

abbrev Reader (α : Type) := StateT (List UInt8) Option α

/-- The reader takes these bytes, whatever follows them, and gives this value. -/
def Reads {α : Type} (r : Reader α) (bytes : List UInt8) (a : α) : Prop :=
  ∀ rest, r.run (bytes ++ rest) = some (a, rest)

namespace Reader

def takeBytes (n : ℕ) : Reader (List UInt8) := fun bytes =>
  if bytes.length < n then none else some (bytes.take n, bytes.drop n)

def takeSized (n : ℕ) : Reader { bytes : List UInt8 // bytes.length = n } := fun bytes =>
  if h : bytes.length < n then none
  else some (⟨bytes.take n, List.length_take_of_le (not_lt.mp h)⟩, bytes.drop n)

/-- Runs a step for the given number of rounds, which are counted from `i` on. -/
def loop {σ : Type} (step : ℕ → σ → Reader σ) : ℕ → ℕ → σ → Reader σ
  | _, 0, s => pure s
  | i, n + 1, s => do
    let s ← step i s
    loop step (i + 1) n s

end Reader

namespace Reads

variable {α β σ : Type}

variable {r : Reader α} {bytes : List UInt8} {a : α}

theorem run (h : Reads r bytes a) : r.run bytes = some (a, []) := by
  have := h []
  rwa [List.append_nil] at this

theorem pure (a : α) : Reads (Pure.pure a) [] a := fun _ => rfl

theorem bind {f : α → Reader β} {bytes' : List UInt8} {b : β} (hr : Reads r bytes a)
    (hf : Reads (f a) bytes' b) : Reads (r >>= f) (bytes ++ bytes') b := by
  intro rest
  rw [StateT.run_bind, List.append_assoc, hr]
  exact hf rest

theorem map (hr : Reads r bytes a) (f : α → β) : Reads (f <$> r) bytes (f a) := by
  intro rest
  rw [StateT.run_map, hr]
  rfl

theorem takeBytes (bytes : List UInt8) : Reads (Reader.takeBytes bytes.length) bytes bytes := by
  intro rest
  change (if (bytes ++ rest).length < bytes.length then none else _) = _
  rw [if_neg (by rw [List.length_append]; omega), List.take_left, List.drop_left]

theorem takeSized {n : ℕ} (bytes : List UInt8) (hlen : bytes.length = n) :
    Reads (Reader.takeSized n) bytes ⟨bytes, hlen⟩ := by
  intro rest
  subst hlen
  change (if h : (bytes ++ rest).length < bytes.length then none else _) = _
  rw [dif_neg (by rw [List.length_append]; omega), List.drop_left]
  congr 3
  exact List.take_left

theorem loop {step : ℕ → σ → Reader σ} {write : α → List UInt8} {P : List α → σ → Prop}
    (L : List α)
    (hstep : ∀ done a rest, L = done ++ a :: rest → ∀ s, P done s →
      ∃ s', Reads (step done.length s) (write a) s' ∧ P (done ++ [a]) s')
    {s : σ} (hs : P [] s) :
    ∃ s', Reads (Reader.loop step 0 L.length s) (L.flatMap write) s' ∧ P L s' := by
  -- The rounds that are left, after those of `done`.
  suffices hrest : ∀ rest done, L = done ++ rest → ∀ s, P done s →
      ∃ s', Reads (Reader.loop step done.length rest.length s) (rest.flatMap write) s' ∧ P L s' by
    exact hrest L [] rfl s hs
  intro rest
  induction rest with
  | nil =>
    intro done hL s hP
    rw [List.append_nil] at hL
    exact ⟨s, Reads.pure s, hL ▸ hP⟩
  | cons a rest ih =>
    intro done hL s hP
    obtain ⟨s₁, hread, hP₁⟩ := hstep done a rest hL s hP
    have hL' : L = (done ++ [a]) ++ rest := by rw [hL, List.append_assoc, List.singleton_append]
    obtain ⟨s₂, hreads, hP₂⟩ := ih (done ++ [a]) hL' s₁ hP₁
    rw [List.length_append, List.length_singleton] at hreads
    refine ⟨s₂, ?_, hP₂⟩
    rw [List.flatMap_cons, List.length_cons]
    exact Reads.bind hread hreads

end Reads

/-- `isspace` of the C locale. -/
def isspace (c : Char) : Bool := c == ' ' || ('\t' ≤ c && c ≤ '\r')

/-- The bytes of a number, the lowest one first. -/
def littleEndian : ℕ → ℕ → List UInt8
  | 0, _ => []
  | k + 1, n => UInt8.ofNat n :: littleEndian k (n / 256)

/-- The number of the bytes, the lowest one first. -/
def ofLittleEndian : List UInt8 → ℕ
  | [] => 0
  | b :: bytes => b.toNat + 256 * ofLittleEndian bytes

@[simp]
theorem length_littleEndian (k n : ℕ) : (littleEndian k n).length = k := by
  induction k generalizing n with
  | zero => rfl
  | succ k ih => rw [littleEndian, List.length_cons, ih]

variable {k n : ℕ}

theorem ofLittleEndian_littleEndian (k n : ℕ) : ofLittleEndian (littleEndian k n) = n % 256 ^ k := by
  induction k generalizing n with
  | zero => exact (Nat.mod_one n).symm
  | succ k ih =>
    have hpow : 256 ^ (k + 1) = 256 * 256 ^ k := by rw [pow_succ, Nat.mul_comm]
    unfold littleEndian ofLittleEndian
    rw [ih, UInt8.toNat_ofNat', hpow, Nat.mod_mul]

theorem ofLittleEndian_of_lt (h : n < 256 ^ k) : ofLittleEndian (littleEndian k n) = n :=
  (ofLittleEndian_littleEndian k n).trans (Nat.mod_eq_of_lt h)

theorem ofLittleEndian_lt (bytes : List UInt8) : ofLittleEndian bytes < 256 ^ bytes.length := by
  induction bytes with
  | nil => exact Nat.one_pos
  | cons b bytes ih =>
    have hb : b.toNat < 256 := b.toNat_lt
    rw [ofLittleEndian, List.length_cons, pow_succ]
    omega

theorem littleEndian_ofLittleEndian (bytes : List UInt8) :
    littleEndian bytes.length (ofLittleEndian bytes) = bytes := by
  induction bytes with
  | nil => rfl
  | cons b bytes ih =>
    have hb : b.toNat < 256 := b.toNat_lt
    have hlow : UInt8.ofNat (b.toNat + 256 * ofLittleEndian bytes) = b := by
      apply UInt8.toNat_inj.mp
      rw [UInt8.toNat_ofNat']
      omega
    have hdiv : (b.toNat + 256 * ofLittleEndian bytes) / 256 = ofLittleEndian bytes := by omega
    rw [List.length_cons, ofLittleEndian, littleEndian, hlow, hdiv, ih]

/-- Reads a number of the given number of bytes. -/
def Reader.takeNat (k : ℕ) : Reader ℕ := ofLittleEndian <$> takeBytes k

theorem Reader.run_takeNat (k : ℕ) (bytes : List UInt8) : (Reader.takeNat k).run bytes =
    if bytes.length < k then none else some (ofLittleEndian (bytes.take k), bytes.drop k) := by
  unfold Reader.takeNat
  rw [StateT.run_map]
  change (if bytes.length < k then none else some (bytes.take k, bytes.drop k)).map _ = _
  split <;> rfl

theorem Reads.takeNat {k n : ℕ} (h : n < 256 ^ k) :
    Reads (Reader.takeNat k) (littleEndian k n) n := by
  have hread := (Reads.takeBytes (littleEndian k n)).map ofLittleEndian
  rwa [length_littleEndian, ofLittleEndian_of_lt h] at hread

theorem Reader.run_takeNat_eq_some {bytes rest : List UInt8} :
    (Reader.takeNat k).run bytes = some (n, rest) ↔ n < 256 ^ k ∧ bytes = littleEndian k n ++ rest := by
  constructor
  · intro h
    rw [Reader.run_takeNat] at h
    split at h
    · cases h
    · rename_i hlong
      cases h
      have hlen : (bytes.take k).length = k := List.length_take_of_le (not_lt.mp hlong)
      have hlt := ofLittleEndian_lt (bytes.take k)
      have hbytes := littleEndian_ofLittleEndian (bytes.take k)
      rw [hlen] at hlt hbytes
      rw [hbytes, List.take_append_drop]
      exact ⟨hlt, rfl⟩
  · rintro ⟨hlt, rfl⟩
    exact Reads.takeNat hlt rest

end ZalemCoin.Lib
