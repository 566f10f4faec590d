import Mathlib.Data.Nat.Bitwise
import Mathlib.Tactic.Ring

/-!
# Numbers in base 128 with an offset

The bytes of a number have seven bits of it each, the highest ones first, and the top bit of a byte says
that another one follows. One is subtracted from what is before a byte, so that no number is written in
two ways: reading is the inverse of writing (`readFrom_eq_some`).
-/

namespace ZalemCoin.Lib.OffsetBase128

/-- The bits of a number in a byte. -/
def digit (b : UInt8) : ℕ := (b &&& 0x7f).toNat

/-- Whether another byte follows. -/
def Continues (b : UInt8) : Prop := b &&& 0x80 ≠ 0

instance (b : UInt8) : Decidable (Continues b) := inferInstanceAs (Decidable (b &&& 0x80 ≠ 0))

def readFrom (n : ℕ) : List UInt8 → Option (ℕ × List UInt8)
  | [] => none
  | b :: rest =>
    if Continues b then readFrom (128 * n + digit b + 1) rest else some (128 * n + digit b, rest)

/-- The bytes before the last one, of which one is subtracted. -/
def leading (n : ℕ) : List UInt8 :=
  if n = 0 then [] else leading ((n - 1) / 128) ++ [UInt8.ofNat ((n - 1) % 128 + 128)]
termination_by n
decreasing_by omega

/-- The bytes of a number. -/
def write (n : ℕ) : List UInt8 := leading (n / 128) ++ [UInt8.ofNat (n % 128)]

/-- The number of some bytes, by the places of their digits. -/
def number : List UInt8 → ℕ
  | [] => 0
  | [b] => digit b
  | b :: rest => 128 ^ rest.length * (digit b + 1) + number rest

/-! ## Bytes and digits -/

theorem toNat_eq (b : UInt8) : b.toNat = digit b + if Continues b then 128 else 0 := by
  have hlt := b.toNat_lt
  have hdigit : digit b = b.toNat % 128 := by
    exact Nat.and_two_pow_sub_one_eq_mod b.toNat 7
  have hbit : (b &&& 0x80).toNat = (b.toNat.testBit 7).toNat * 2 ^ 7 := by
    exact Nat.and_two_pow b.toNat 7
  rw [Nat.testBit_eq_decide_div_mod_eq] at hbit
  have hcontinues : Continues b ↔ 128 ≤ b.toNat := by
    unfold Continues
    rw [ne_eq, ← UInt8.toNat_inj, hbit, UInt8.toNat_zero]
    by_cases hodd : b.toNat / 2 ^ 7 % 2 = 1
    · rw [decide_eq_true hodd, Bool.toNat_true]
      omega
    · rw [decide_eq_false hodd, Bool.toNat_false]
      omega
  rw [hdigit, if_congr hcontinues rfl rfl]
  split_ifs <;> omega

theorem digit_lt (b : UInt8) : digit b < 128 := by
  exact Nat.lt_of_le_of_lt Nat.and_le_right (by decide)

theorem eq_of_not_continues {b : UInt8} (h : ¬Continues b) : b = UInt8.ofNat (digit b) := by
  have heq := toNat_eq b
  rw [if_neg h, Nat.add_zero] at heq
  rw [← heq, UInt8.ofNat_toNat]

theorem eq_of_continues {b : UInt8} (h : Continues b) : b = UInt8.ofNat (digit b + 128) := by
  have heq := toNat_eq b
  rw [if_pos h] at heq
  rw [← heq, UInt8.ofNat_toNat]

theorem digit_ofNat {d : ℕ} (hd : d < 128) :
    digit (UInt8.ofNat d) = d ∧ ¬Continues (UInt8.ofNat d) := by
  have heq := toNat_eq (UInt8.ofNat d)
  have hlt := digit_lt (UInt8.ofNat d)
  rw [UInt8.toNat_ofNat_of_lt' (show d < 256 by omega)] at heq
  split_ifs at heq with h
  · omega
  · exact ⟨by omega, h⟩

theorem digit_ofNat_add {d : ℕ} (hd : d < 128) :
    digit (UInt8.ofNat (d + 128)) = d ∧ Continues (UInt8.ofNat (d + 128)) := by
  have heq := toNat_eq (UInt8.ofNat (d + 128))
  have hlt := digit_lt (UInt8.ofNat (d + 128))
  rw [UInt8.toNat_ofNat_of_lt' (show d + 128 < 256 by omega)] at heq
  split_ifs at heq with h
  · exact ⟨by omega, h⟩
  · omega

/-! ## Reading and writing -/

variable {n m : ℕ} {bytes rest : List UInt8}

theorem readFrom_leading (n : ℕ) (bytes : List UInt8) :
    readFrom 0 (leading n ++ bytes) = readFrom n bytes := by
  induction n using Nat.strongRecOn generalizing bytes with
  | ind n ih =>
    rw [leading]
    split
    · rename_i hzero
      rw [hzero, List.nil_append]
    · rename_i hpos
      obtain ⟨hdigit, hcontinues⟩ := digit_ofNat_add (Nat.mod_lt (n - 1) (show 0 < 128 by decide))
      rw [List.append_assoc, ih _ (by omega), List.singleton_append, readFrom, if_pos hcontinues, hdigit]
      congr 1
      omega

theorem readFrom_write (n : ℕ) (rest : List UInt8) : readFrom 0 (write n ++ rest) = some (n, rest) := by
  obtain ⟨hdigit, hlast⟩ := digit_ofNat (Nat.mod_lt n (show 0 < 128 by decide))
  unfold write
  rw [List.append_assoc, readFrom_leading, List.singleton_append, readFrom, if_neg hlast, hdigit,
    Nat.div_add_mod]

theorem leading_append {b : UInt8} (hb : Continues b) (n : ℕ) :
    leading n ++ [b] = leading (128 * n + digit b + 1) := by
  have hlt := digit_lt b
  rw [leading.eq_1 (128 * n + digit b + 1), if_neg (by omega), Nat.add_sub_cancel,
    show (128 * n + digit b) / 128 = n by omega, show (128 * n + digit b) % 128 = digit b by omega,
    ← eq_of_continues hb]

theorem leading_append_of_readFrom (h : readFrom n bytes = some (m, rest)) :
    leading n ++ bytes = write m ++ rest := by
  induction bytes generalizing n with
  | nil => cases h
  | cons b bytes ih =>
    rw [readFrom] at h
    split at h
    · rename_i hb
      rw [← ih h, ← leading_append hb, List.append_assoc, List.singleton_append]
    · rename_i hb
      cases h
      have hlt := digit_lt b
      unfold write
      rw [show (128 * n + digit b) / 128 = n by omega, show (128 * n + digit b) % 128 = digit b by omega,
        ← eq_of_not_continues hb, List.append_assoc, List.singleton_append]

theorem readFrom_eq_some : readFrom 0 bytes = some (n, rest) ↔ bytes = write n ++ rest := by
  constructor
  · intro h
    have hbytes := leading_append_of_readFrom h
    rwa [leading, if_pos rfl, List.nil_append] at hbytes
  · rintro rfl
    exact readFrom_write n rest

theorem eq_number_of_readFrom (h : readFrom n bytes = some (m, [])) :
    m = 128 ^ bytes.length * n + number bytes := by
  induction bytes generalizing n with
  | nil => cases h
  | cons b bytes ih =>
    rw [readFrom] at h
    split at h
    · rw [ih h]
      cases bytes with
      | nil => cases h
      | cons c bytes =>
        have hnum : number (b :: c :: bytes)
            = 128 ^ (c :: bytes).length * (digit b + 1) + number (c :: bytes) := rfl
        rw [hnum, List.length_cons (a := b), pow_succ]
        ring
    · cases h
      rw [number, List.length_singleton, pow_one]

theorem number_write (n : ℕ) : number (write n) = n := by
  have hread := readFrom_write n []
  rw [List.append_nil] at hread
  have heq := eq_number_of_readFrom hread
  rw [Nat.mul_zero, Nat.zero_add] at heq
  exact heq.symm

end ZalemCoin.Lib.OffsetBase128
