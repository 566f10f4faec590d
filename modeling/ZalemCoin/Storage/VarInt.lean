import ZalemCoin.Lib.OffsetBase128
import ZalemCoin.Storage.Serialize

/-!
# Variable-length integers

The templates `WriteVarInt` and `ReadVarInt` write an integer in base 128, with one subtracted from all
but the last digit, so that each number has one encoding. They compute in the type of the integer: the
loop of the writer stops at once at a negative number, and that of the reader lets the number run out of
its type.
-/

namespace ZalemCoin.Storage

open Lib
open OffsetBase128 (readFrom number_write)

inductive IntegerType
  | int
  | unsigned_int
  | int64_t
  | uint64_t
  deriving DecidableEq, Repr

namespace IntegerType

def bits : IntegerType → ℕ
  | int | unsigned_int => 32
  | int64_t | uint64_t => 64

def isSigned : IntegerType → Bool
  | int | int64_t => true
  | unsigned_int | uint64_t => false

abbrev Value (t : IntegerType) := BitVec t.bits

def toInt (t : IntegerType) (n : t.Value) : ℤ := if t.isSigned then n.toInt else n.toNat

def max (t : IntegerType) : ℕ := if t.isSigned then 2 ^ (t.bits - 1) - 1 else 2 ^ t.bits - 1

/-- `n >> k`, which keeps the sign. -/
def shiftRight (t : IntegerType) (n : t.Value) (k : ℕ) : t.Value :=
  if t.isSigned then n.sshiftRight k else n >>> k

variable {t : IntegerType} {n : t.Value}

theorem le_bits (t : IntegerType) : 32 ≤ t.bits ∧ 127 < t.max ∧ t.max < 2 ^ t.bits := by
  cases t <;> decide

theorem toNat_ofNat (t : IntegerType) {d : ℕ} (hd : d < 128) : (BitVec.ofNat t.bits d).toNat = d := by
  have hmax := le_bits t
  exact Nat.mod_eq_of_lt (by omega)

theorem toInt_eq (t : IntegerType) (n : t.Value) :
    t.toInt n = if n.toNat ≤ t.max then (n.toNat : ℤ) else n.toNat - 2 ^ t.bits := by
  have hlt := n.isLt
  cases t
  · change n.toInt = if n.toNat ≤ 2 ^ 31 - 1 then (n.toNat : ℤ) else n.toNat - 2 ^ 32
    change (if 2 * n.toNat < 2 ^ 32 then (n.toNat : ℤ) else n.toNat - (2 ^ 32 : ℕ)) = _
    split_ifs <;> omega
  · change (n.toNat : ℤ) = if n.toNat ≤ 2 ^ 32 - 1 then (n.toNat : ℤ) else n.toNat - 2 ^ 32
    change n.toNat < 2 ^ 32 at hlt
    rw [if_pos (by omega)]
  · change n.toInt = if n.toNat ≤ 2 ^ 63 - 1 then (n.toNat : ℤ) else n.toNat - 2 ^ 64
    change (if 2 * n.toNat < 2 ^ 64 then (n.toNat : ℤ) else n.toNat - (2 ^ 64 : ℕ)) = _
    split_ifs <;> omega
  · change (n.toNat : ℤ) = if n.toNat ≤ 2 ^ 64 - 1 then (n.toNat : ℤ) else n.toNat - 2 ^ 64
    change n.toNat < 2 ^ 64 at hlt
    rw [if_pos (by omega)]

theorem toInt_nonneg_iff : 0 ≤ t.toInt n ↔ n.toNat ≤ t.max := by
  have hlt := n.isLt
  rw [toInt_eq]
  split_ifs with hmax
  · exact ⟨fun _ => hmax, fun _ => Int.natCast_nonneg _⟩
  · zify at hlt
    omega

theorem lt_toNat (h : ¬t.toInt n ≤ 0x7F) : 127 < n.toNat ∧ n.toNat ≤ t.max := by
  have hmax := toInt_nonneg_iff.mp (show 0 ≤ t.toInt n by omega)
  rw [toInt_eq, if_pos hmax] at h
  omega

theorem toNat_le (hmax : n.toNat ≤ t.max) (h : t.toInt n ≤ 0x7F) : n.toNat ≤ 127 := by
  rw [toInt_eq, if_pos hmax] at h
  omega

theorem toNat_next (h : ¬t.toInt n ≤ 0x7F) :
    (t.shiftRight n 7 - 1).toNat = n.toNat / 128 - 1 := by
  obtain ⟨hlow, hhigh⟩ := lt_toNat h
  have hshift : t.shiftRight n 7 = n >>> 7 := by
    unfold shiftRight
    split_ifs with hsig
    · have htoInt : 0 ≤ n.toInt := by
        have hnn := toInt_nonneg_iff.mpr hhigh
        rwa [toInt, if_pos hsig] at hnn
      exact BitVec.sshiftRight_eq_of_msb_false (by rw [BitVec.msb_eq_toInt]; simpa using htoInt)
    · rfl
  have hdiv : (n >>> 7).toNat = n.toNat / 128 := by
    rw [BitVec.toNat_ushiftRight, Nat.shiftRight_eq_div_pow]
  have hone : (1 : t.Value).toNat = 1 := toNat_ofNat t (by decide)
  have hle : (1 : t.Value) ≤ n >>> 7 := by
    rw [BitVec.le_def, hone, hdiv]
    omega
  rw [hshift, BitVec.toNat_sub_of_le hle, hdiv, hone]

theorem toNat_and (n : t.Value) : (n &&& 0x7F).toNat = n.toNat % 128 := by
  have hmask : (0x7F : t.Value).toNat = 2 ^ 7 - 1 := toNat_ofNat t (by decide)
  rw [BitVec.toNat_and, hmask, Nat.and_two_pow_sub_one_eq_mod]

end IntegerType

/-- The number of bytes that an integer is written in. -/
def GetSizeOfVarInt (t : IntegerType) (n : t.Value) : ℕ :=
  if t.toInt n ≤ 0x7F then 1 else GetSizeOfVarInt t (t.shiftRight n 7 - 1) + 1
termination_by n.toNat
decreasing_by
  rename_i hmore
  have hlow := IntegerType.lt_toNat hmore
  rw [IntegerType.toNat_next hmore]
  omega

/-- The array `tmp` of `WriteVarInt` from a place on, the last digit first. -/
def varIntDigits (t : IntegerType) (len : ℕ) (n : t.Value) : List UInt8 :=
  let tmp := UInt8.ofBitVec ((n &&& 0x7F).setWidth 8) ||| if len ≠ 0 then 0x80 else 0x00
  if t.toInt n ≤ 0x7F then [tmp] else tmp :: varIntDigits t (len + 1) (t.shiftRight n 7 - 1)
termination_by n.toNat
decreasing_by
  rename_i hmore
  have hlow := IntegerType.lt_toNat hmore
  rw [IntegerType.toNat_next hmore]
  omega

def WriteVarInt (t : IntegerType) (n : t.Value) : List UInt8 := (varIntDigits t 0 n).reverse

def readVarIntFrom (t : IntegerType) (n : t.Value) : List UInt8 → Option (t.Value × List UInt8)
  | [] => none
  | chData :: is =>
    let n := n <<< 7 ||| (chData &&& 0x7F).toBitVec.setWidth t.bits
    if chData &&& 0x80 ≠ 0 then readVarIntFrom t (n + 1) is else some (n, is)

def ReadVarInt (t : IntegerType) : Reader t.Value := readVarIntFrom t 0

section

variable {t : IntegerType} {n : t.Value}

theorem length_varIntDigits (t : IntegerType) (len : ℕ) (n : t.Value) :
    (varIntDigits t len n).length = GetSizeOfVarInt t n := by
  induction n using GetSizeOfVarInt.induct t generalizing len with
  | case1 n hlast => rw [varIntDigits, GetSizeOfVarInt, if_pos hlast, if_pos hlast, List.length_singleton]
  | case2 n hmore ih =>
    rw [varIntDigits, GetSizeOfVarInt, if_neg hmore, if_neg hmore, List.length_cons, ih]

theorem length_writeVarInt (n : t.Value) : (WriteVarInt t n).length = GetSizeOfVarInt t n := by
  unfold WriteVarInt
  rw [List.length_reverse, length_varIntDigits]

theorem varIntDigit_eq (n : t.Value) (len : ℕ) :
    (UInt8.ofBitVec ((n &&& 0x7F).setWidth 8) ||| if len ≠ 0 then 0x80 else 0x00)
      = UInt8.ofNat (n.toNat % 128 + if len ≠ 0 then 128 else 0) := by
  have hdigit : (UInt8.ofBitVec ((n &&& 0x7F).setWidth 8)).toNat = n.toNat % 128 := by
    change ((n &&& 0x7F).setWidth 8).toNat = _
    rw [BitVec.toNat_setWidth, IntegerType.toNat_and]
    omega
  have hlt : n.toNat % 128 < 128 := Nat.mod_lt _ (by decide)
  apply UInt8.toNat_inj.mp
  rw [UInt8.toNat_or, hdigit]
  split_ifs
  · have hor : 2 ^ 7 * 1 + n.toNat % 128 = 2 ^ 7 * 1 ||| n.toNat % 128 :=
      Nat.two_pow_add_eq_or_of_lt hlt 1
    rw [UInt8.toNat_ofNat_of_lt' (show n.toNat % 128 + 128 < 256 by omega), Nat.or_comm]
    change 2 ^ 7 * 1 ||| n.toNat % 128 = _
    omega
  · rw [UInt8.toNat_ofNat_of_lt' (show n.toNat % 128 + 0 < 256 by omega)]
    exact Nat.or_zero _

theorem reverse_varIntDigits_succ (len : ℕ) (hmax : n.toNat ≤ t.max) :
    (varIntDigits t (len + 1) n).reverse = OffsetBase128.leading (n.toNat + 1) := by
  induction n using GetSizeOfVarInt.induct t generalizing len with
  | case1 n hlast =>
    have hsmall := IntegerType.toNat_le hmax hlast
    rw [varIntDigits, if_pos hlast, varIntDigit_eq, if_pos (Nat.succ_ne_zero len),
      OffsetBase128.leading, if_neg (Nat.succ_ne_zero _), Nat.add_sub_cancel,
      show n.toNat / 128 = 0 by omega, OffsetBase128.leading, if_pos rfl]
    rfl
  | case2 n hmore ih =>
    obtain ⟨hlow, -⟩ := IntegerType.lt_toNat hmore
    have hnext := IntegerType.toNat_next hmore
    rw [varIntDigits, if_neg hmore, varIntDigit_eq, if_pos (Nat.succ_ne_zero len), List.reverse_cons,
      ih (len + 1) (by omega), hnext, OffsetBase128.leading.eq_1 (n.toNat + 1),
      if_neg (Nat.succ_ne_zero _), Nat.add_sub_cancel, show n.toNat / 128 - 1 + 1 = n.toNat / 128 by omega]

theorem writeVarInt_eq (n : t.Value) : WriteVarInt t n =
    OffsetBase128.write (if 0 ≤ t.toInt n then n.toNat else n.toNat % 128) := by
  unfold WriteVarInt OffsetBase128.write
  rw [varIntDigits, varIntDigit_eq, if_neg (show ¬(0 : ℕ) ≠ 0 by decide), Nat.add_zero]
  split_ifs with hlast hnn hnn
  · have hsmall := IntegerType.toNat_le (IntegerType.toInt_nonneg_iff.mp hnn) hlast
    rw [show n.toNat / 128 = 0 by omega, OffsetBase128.leading, if_pos rfl]
    rfl
  · rw [show n.toNat % 128 / 128 = 0 by omega, OffsetBase128.leading, if_pos rfl, Nat.mod_mod]
    rfl
  · obtain ⟨hlow, hmax⟩ := IntegerType.lt_toNat hlast
    have hnext := IntegerType.toNat_next hlast
    rw [List.reverse_cons, reverse_varIntDigits_succ 0 (by omega), hnext,
      show n.toNat / 128 - 1 + 1 = n.toNat / 128 by omega]
  · omega

end

section

variable {t : IntegerType} {n : t.Value} {bytes : List UInt8}

theorem shiftLeft_or_digit (t : IntegerType) (m : ℕ) (b : UInt8) :
    (BitVec.ofNat t.bits m <<< 7 ||| (b &&& 0x7F).toBitVec.setWidth t.bits)
      = BitVec.ofNat t.bits (128 * m + OffsetBase128.digit b) := by
  have hdigit := OffsetBase128.digit_lt b
  have hbits := (IntegerType.le_bits t).1
  obtain ⟨k, hk⟩ : ∃ k, t.bits = 7 + k := ⟨t.bits - 7, by omega⟩
  have hpow : 2 ^ t.bits = 128 * 2 ^ k := by rw [hk, Nat.pow_add]
  apply BitVec.eq_of_toNat_eq
  have hlow : ((b &&& 0x7F).toBitVec.setWidth t.bits).toNat = OffsetBase128.digit b := by
    have hmax := IntegerType.le_bits t
    rw [BitVec.toNat_setWidth]
    exact Nat.mod_eq_of_lt (lt_of_lt_of_le hdigit (by omega))
  -- The digit fills the bits that the shift has cleared.
  have hshift : (BitVec.ofNat t.bits m <<< 7).toNat = 2 ^ 7 * (m % 2 ^ t.bits % 2 ^ k) := by
    rw [BitVec.toNat_shiftLeft, BitVec.toNat_ofNat, Nat.shiftLeft_eq, Nat.mul_comm]
    nth_rewrite 2 [hpow]
    exact Nat.mul_mod_mul_left _ _ _
  have hmod : m % 2 ^ t.bits % 2 ^ k = m % 2 ^ k := by
    rw [hpow]
    exact Nat.mod_mod_of_dvd m (Nat.dvd_mul_left _ _)
  calc _ = 2 ^ 7 * (m % 2 ^ t.bits % 2 ^ k) + OffsetBase128.digit b := by
        rw [BitVec.toNat_or, hshift, hlow, Nat.two_pow_add_eq_or_of_lt hdigit]
    _ = 128 * (m % 2 ^ t.bits % 2 ^ k) + OffsetBase128.digit b := rfl
    _ = (128 * m + OffsetBase128.digit b) % (128 * 2 ^ k) := by
        rw [hmod, Nat.mod_mul, Nat.mul_add_mod, Nat.mod_eq_of_lt hdigit, Nat.mul_add_div (by decide),
          Nat.div_eq_of_lt hdigit, Nat.add_zero, Nat.add_comm]
    _ = _ := by rw [BitVec.toNat_ofNat, hpow]

theorem readVarIntFrom_ofNat (m : ℕ) (bytes : List UInt8) :
    readVarIntFrom t (BitVec.ofNat t.bits m) bytes =
      (readFrom m bytes).map fun p => (BitVec.ofNat t.bits p.1, p.2) := by
  induction bytes generalizing m with
  | nil => rfl
  | cons chData is ih =>
    unfold readVarIntFrom readFrom
    rw [shiftLeft_or_digit]
    split_ifs with hmore hcontinues hcontinues
    · rw [← ih, BitVec.ofNat_add _ 1]
      rfl
    · exact absurd hmore hcontinues
    · exact absurd hcontinues hmore
    · rfl

theorem reads_varInt_iff : Reads (ReadVarInt t) bytes n ↔
    bytes = OffsetBase128.write (OffsetBase128.number bytes) ∧
      BitVec.ofNat t.bits (OffsetBase128.number bytes) = n := by
  have hread (rest : List UInt8) : (ReadVarInt t).run rest
      = (readFrom 0 rest).map fun p => (BitVec.ofNat t.bits p.1, p.2) :=
    readVarIntFrom_ofNat 0 rest
  constructor
  · intro h
    have hrun := h.run
    rw [hread] at hrun
    obtain ⟨⟨m, rest⟩, hm, heq⟩ := Option.map_eq_some_iff.mp hrun
    obtain ⟨hn, rfl⟩ := Prod.mk.inj heq
    have hbytes := OffsetBase128.readFrom_eq_some.mp hm
    rw [List.append_nil] at hbytes
    rw [hbytes, number_write]
    exact ⟨rfl, hn⟩
  · rintro ⟨hbytes, hn⟩ rest
    rw [hread, hbytes, OffsetBase128.readFrom_write]
    exact congrArg some (Prod.ext hn rfl)

theorem number_writeVarInt (n : t.Value) : OffsetBase128.number (WriteVarInt t n) =
    if 0 ≤ t.toInt n then n.toNat else n.toNat % 128 := by
  rw [writeVarInt_eq, number_write]

theorem reads_writeVarInt_iff : Reads (ReadVarInt t) (WriteVarInt t n) n ↔ 0 ≤ t.toInt n := by
  have hmax := IntegerType.le_bits t
  have htoNat : (BitVec.ofNat t.bits n.toNat).toNat = n.toNat := by
    rw [BitVec.toNat_ofNat, Nat.mod_eq_of_lt n.isLt]
  rw [reads_varInt_iff, number_writeVarInt, writeVarInt_eq]
  split_ifs with hnn
  · exact iff_of_true ⟨rfl, BitVec.eq_of_toNat_eq htoNat⟩ hnn
  · refine iff_of_false ?_ hnn
    rintro ⟨-, heq⟩
    have hbits := congrArg BitVec.toNat heq
    rw [IntegerType.toNat_ofNat t (Nat.mod_lt _ (by decide))] at hbits
    rw [IntegerType.toInt_nonneg_iff] at hnn
    omega

theorem eq_writeVarInt_iff (h : Reads (ReadVarInt t) bytes n) :
    bytes = WriteVarInt t n ↔ OffsetBase128.number bytes ≤ t.max := by
  obtain ⟨hbytes, hn⟩ := reads_varInt_iff.mp h
  have hmax := IntegerType.le_bits t
  constructor
  · intro heq
    rw [heq, number_writeVarInt]
    split_ifs with hnn
    · exact IntegerType.toInt_nonneg_iff.mp hnn
    · omega
  · intro hnum
    have hbits : n.toNat = OffsetBase128.number bytes := by
      rw [← hn, BitVec.toNat_ofNat]
      exact Nat.mod_eq_of_lt (by omega)
    have hnn := IntegerType.toInt_nonneg_iff.mpr (hbits.trans_le hnum)
    rw [writeVarInt_eq, if_pos hnn, hbits]
    exact hbytes

end

/-- The variable-length code of every integer type: the size is that of what is written; an integer is
read back, and is that of exactly one sequence of bytes whose number is one of the type, when it is not
negative; and bytes that are read as an integer are its own when their number is one of the type. -/
theorem varInt_codec (t : IntegerType) (n : t.Value) :
    (WriteVarInt t n).length = GetSizeOfVarInt t n ∧
    (Reads (ReadVarInt t) (WriteVarInt t n) n ↔ 0 ≤ t.toInt n) ∧
    ((∃! bytes, Reads (ReadVarInt t) bytes n ∧ OffsetBase128.number bytes ≤ t.max)
      ↔ 0 ≤ t.toInt n) ∧
    ∀ bytes, Reads (ReadVarInt t) bytes n →
      (bytes = WriteVarInt t n ↔ OffsetBase128.number bytes ≤ t.max) := by
  refine ⟨?_, reads_writeVarInt_iff, ?_, fun bytes => eq_writeVarInt_iff⟩
  · exact length_writeVarInt n
  · constructor
    · rintro ⟨bytes, ⟨hread, hnumber⟩, -⟩
      rw [(eq_writeVarInt_iff hread).mpr hnumber] at hread
      exact reads_writeVarInt_iff.mp hread
    · intro hnonneg
      have hread := reads_writeVarInt_iff.mpr hnonneg
      refine ⟨WriteVarInt t n, ⟨hread, (eq_writeVarInt_iff hread).mp rfl⟩, ?_⟩
      rintro bytes ⟨hbytes, hnumber⟩
      exact (eq_writeVarInt_iff hbytes).mpr hnumber

/-- The place of a block that is not on the disk has the file number -1, which is read back as 127; and
the bytes of `2 ^ 32` are read as the number zero of 32 bits, which has a byte of its own. -/
theorem varInt_codec_not_every :
    (ReadVarInt .int).run (WriteVarInt .int (-1)) = some (127, []) ∧
    ¬Reads (ReadVarInt .int) (WriteVarInt .int (-1)) (-1) ∧
    ¬∃! bytes, Reads (ReadVarInt .unsigned_int) bytes 0 := by
  have hwrite : WriteVarInt .int (-1) = [0x7F] := by
    rw [WriteVarInt, varIntDigits, if_pos (by decide)]
    decide
  refine ⟨?_, ?_, ?_⟩
  · rw [hwrite]
    decide
  · rw [reads_writeVarInt_iff]
    decide
  · rintro ⟨bytes, -, hunique⟩
    have hzero : Reads (ReadVarInt .unsigned_int) [0x00] 0 := fun rest => rfl
    have hwraps : Reads (ReadVarInt .unsigned_int) [0x8E, 0xFE, 0xFE, 0xFF, 0x00] 0 := fun rest => rfl
    have heq := (hunique _ hzero).trans (hunique _ hwraps).symm
    exact absurd heq (by decide)

end ZalemCoin.Storage
