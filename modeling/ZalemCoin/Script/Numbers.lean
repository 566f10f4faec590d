import Mathlib.Tactic.Ring
import ZalemCoin.Script.Standard

/-!
# The numbers of scripts

An element of the stack stands for a number: its bytes, the lowest one first, where the top bit of the
last one is the sign. `CBigNum` reads and writes it through the format of the library, which has the
bytes in the other order, and `CScriptNum` computes with 64 bits. On the operands that scripts may have
the two agree.
-/

namespace ZalemCoin.Script

open Chain Lib

/-- An element of the stack. -/
abbrev valtype := List UInt8

/-- No operand has more bytes than this. -/
def nMaxNumSize : ℕ := 4

/-! ## CBigNum -/

/-- The number with the given bytes, the highest one first. -/
def ofBigEndian (bytes : List UInt8) : ℕ := bytes.foldl (fun n b => 256 * n + b.toNat) 0

namespace CBigNum

/-- The number of the library's format, whose first bit is the sign. -/
def BN_mpi2bn : List UInt8 → ℤ
  | [] => 0
  | top :: bytes =>
    let magnitude := ofBigEndian ((top &&& 0x7f) :: bytes)
    if top &&& 0x80 ≠ 0 then -magnitude else magnitude

/-- The library's format of a number: a byte is added when the sign needs room. -/
def BN_bn2mpi (n : ℤ) : List UInt8 :=
  match (leBytes n.natAbs n.natAbs).reverse with
  | [] => []
  | top :: bytes =>
    let bytes := if top &&& 0x80 ≠ 0 then 0 :: top :: bytes else top :: bytes
    if n < 0 then bytes.modifyHead (· ||| 0x80) else bytes

/-- Reads a number. -/
def setvch (vch : valtype) : ℤ := BN_mpi2bn vch.reverse

/-- Writes a number. -/
def getvch (n : ℤ) : valtype := (BN_bn2mpi n).reverse

/-- The `int` that a number is converted to. The library returns a word of ones for a number that does
not fit into a word. -/
def getint (n : ℤ) : ℤ :=
  let word : ℕ := if n.natAbs < 2 ^ 64 then n.natAbs else 2 ^ 64 - 1
  if 0 ≤ n then if 2 ^ 31 - 1 < word then 2 ^ 31 - 1 else word
  else if 2 ^ 31 - 1 < word then -2 ^ 31 else -word

end CBigNum

/-- The number of an element of the stack. It is read twice, to get rid of zeros. -/
def CastToBigNum (vch : valtype) : Option ℤ :=
  if nMaxNumSize < vch.length then none
  else some (CBigNum.setvch (CBigNum.getvch (CBigNum.setvch vch)))

/-! ## CScriptNum -/

namespace CScriptNum

/-- Whether a number is written with as few bytes as possible. -/
def isMinimal (vch : valtype) : Bool :=
  match vch.reverse with
  | [] => true
  | last :: bytes => last &&& 0x7f != 0 || bytes.head?.any fun byte => byte &&& 0x80 != 0

/-- Reads a number. -/
def set_vch (vch : valtype) : ℤ :=
  match vch.getLast? with
  | none => 0
  | some last =>
    let result := ofLittleEndian vch
    if last &&& 0x80 ≠ 0 then -((result - 0x80 * 256 ^ (vch.length - 1) : ℕ) : ℤ) else result

/-- The number of an element of the stack. -/
def ofVch (vch : valtype) (fRequireMinimal : Bool) : Option ℤ :=
  if nMaxNumSize < vch.length then none
  else if fRequireMinimal && !isMinimal vch then none
  else some (set_vch vch)

/-- Writes a number. -/
def serialize (value : ℤ) : valtype :=
  let result := leBytes value.natAbs value.natAbs
  match result.getLast? with
  | none => []
  | some last =>
    if last &&& 0x80 ≠ 0 then result ++ [if value < 0 then 0x80 else 0]
    else if value < 0 then result.dropLast ++ [last ||| 0x80]
    else result

/-- The `int` that a number is converted to. -/
def getint (n : ℤ) : ℤ :=
  if 2 ^ 31 - 1 < n then 2 ^ 31 - 1 else if n < -2 ^ 31 then -2 ^ 31 else n

end CScriptNum

/-! ## The two agree -/

theorem ofBigEndian_reverse (bytes : List UInt8) : ofBigEndian bytes.reverse = ofLittleEndian bytes := by
  unfold ofBigEndian
  rw [List.foldl_reverse]
  induction bytes with
  | nil => rfl
  | cons b bytes ih =>
    rw [List.foldr_cons, ih]
    exact Nat.add_comm _ _

theorem ofLittleEndian_append (bytes : List UInt8) (b : UInt8) :
    ofLittleEndian (bytes ++ [b]) = ofLittleEndian bytes + 256 ^ bytes.length * b.toNat := by
  induction bytes with
  | nil => simp [ofLittleEndian]
  | cons a bytes ih =>
    rw [List.cons_append, ofLittleEndian, ih, ofLittleEndian, List.length_cons, pow_succ]
    ring

theorem byte_eq_sign (b : UInt8) : b.toNat = (b &&& 0x7f).toNat + if b &&& 0x80 ≠ 0 then 128 else 0 := by
  obtain ⟨n, rfl⟩ : ∃ n : Fin 256, b = UInt8.ofFin n := ⟨b.toFin, rfl⟩
  revert n
  decide +kernel

theorem setvch_eq_set_vch (vch : valtype) : CBigNum.setvch vch = CScriptNum.set_vch vch := by
  unfold CBigNum.setvch CScriptNum.set_vch
  rcases List.eq_nil_or_concat vch with rfl | ⟨bytes, last, rfl⟩
  · rfl
  · rw [List.concat_eq_append, List.reverse_append, List.reverse_singleton, List.singleton_append,
      List.getLast?_concat, List.length_append, List.length_singleton, Nat.add_sub_cancel]
    unfold CBigNum.BN_mpi2bn
    dsimp only
    have hmag : ofBigEndian ((last &&& 0x7f) :: bytes.reverse)
        = ofLittleEndian bytes + 256 ^ bytes.length * (last &&& 0x7f).toNat := by
      rw [← ofLittleEndian_append, ← ofBigEndian_reverse, List.reverse_append, List.reverse_singleton,
        List.singleton_append]
    rw [hmag, ofLittleEndian_append, byte_eq_sign last]
    split_ifs with hsign
    · have hpow : 256 ^ bytes.length * ((last &&& 0x7f).toNat + 128)
          = 256 ^ bytes.length * (last &&& 0x7f).toNat + 128 * 256 ^ bytes.length := by
        ring
      rw [hpow]
      congr 2
      omega
    · rw [Nat.add_zero]

theorem getvch_eq_serialize (n : ℤ) : CBigNum.getvch n = CScriptNum.serialize n := by
  unfold CBigNum.getvch CBigNum.BN_bn2mpi CScriptNum.serialize
  rcases List.eq_nil_or_concat (leBytes n.natAbs n.natAbs) with hnil | ⟨bytes, last, hbytes⟩
  · rw [hnil]
    rfl
  · rw [hbytes, List.concat_eq_append, List.reverse_append, List.reverse_singleton,
      List.singleton_append]
    dsimp only
    rw [List.getLast?_concat]
    dsimp only
    split_ifs
    · simp
    · simp
    · simp
    · simp

/-! ## Reading what has been written -/

theorem ofLittleEndian_leBytes {fuel n : ℕ} (hn : n ≤ fuel) : ofLittleEndian (leBytes fuel n) = n := by
  induction fuel generalizing n with
  | zero =>
    obtain rfl := Nat.le_zero.mp hn
    rfl
  | succ fuel ih =>
    unfold leBytes
    split_ifs with hzero
    · exact hzero.symm
    · have hrest : ofLittleEndian (leBytes fuel (n / 256)) = n / 256 := ih (by omega)
      have hbyte : (UInt8.ofNat (n % 256)).toNat = n % 256 :=
        UInt8.toNat_ofNat_of_lt' (Nat.mod_lt _ (by norm_num))
      rw [ofLittleEndian, hrest, hbyte]
      omega

theorem byte_or_sign (b : UInt8) (h : b &&& 0x80 = 0) :
    (b ||| 0x80).toNat = b.toNat + 128 ∧ (b ||| 0x80) &&& 0x80 ≠ 0 := by
  obtain ⟨n, rfl⟩ : ∃ n : Fin 256, b = UInt8.ofFin n := ⟨b.toFin, rfl⟩
  revert n
  decide +kernel

namespace CScriptNum

theorem set_vch_concat (bytes : valtype) (last : UInt8) :
    set_vch (bytes ++ [last]) =
      if last &&& 0x80 ≠ 0 then
        -((ofLittleEndian (bytes ++ [last]) - 0x80 * 256 ^ bytes.length : ℕ) : ℤ)
      else ofLittleEndian (bytes ++ [last]) := by
  unfold set_vch
  rw [List.getLast?_concat, List.length_append, List.length_singleton, Nat.add_sub_cancel]

theorem set_vch_serialize (n : ℤ) : set_vch (serialize n) = n := by
  have hbytes : ofLittleEndian (leBytes n.natAbs n.natAbs) = n.natAbs := ofLittleEndian_leBytes le_rfl
  unfold serialize
  dsimp only
  rcases List.eq_nil_or_concat (leBytes n.natAbs n.natAbs) with hnil | ⟨bytes, last, hlast⟩
  · rw [hnil] at hbytes ⊢
    have hzero : n.natAbs = 0 := hbytes.symm
    exact (Int.natAbs_eq_zero.mp hzero).symm
  · rw [List.concat_eq_append] at hlast
    rw [hlast] at hbytes ⊢
    rw [List.getLast?_concat]
    dsimp only
    split_ifs with htop hneg hneg
    · -- The sign of a negative number has a byte of its own.
      rw [set_vch_concat, if_pos (by decide), ofLittleEndian_append, hbytes,
        show (0x80 : UInt8).toNat = 128 from rfl, Nat.mul_comm 128, Nat.add_sub_cancel]
      omega
    · rw [set_vch_concat, if_neg (by decide), ofLittleEndian_append, hbytes,
        show (0 : UInt8).toNat = 0 from rfl, Nat.mul_zero, Nat.add_zero]
      omega
    · have hclear : last &&& 0x80 = 0 := by simpa using htop
      obtain ⟨hsum, hset⟩ := byte_or_sign last hclear
      rw [List.dropLast_concat, set_vch_concat, if_pos hset, ofLittleEndian_append, hsum, Nat.mul_add,
        ← Nat.add_assoc, ← ofLittleEndian_append, hbytes, Nat.mul_comm 128, Nat.add_sub_cancel]
      omega
    · rw [set_vch_concat, if_neg htop, hbytes]
      omega

theorem natAbs_set_vch (vch : valtype) : 2 * (set_vch vch).natAbs < 256 ^ vch.length + 1 := by
  rcases List.eq_nil_or_concat vch with rfl | ⟨bytes, last, rfl⟩
  · decide
  · rw [List.concat_eq_append, set_vch_concat, List.length_append, List.length_singleton, pow_succ]
    have hbytes := ofLittleEndian_lt bytes
    have hlast : (last &&& 0x7f).toNat ≤ 127 := by
      exact Nat.and_le_right
    have hmul : 256 ^ bytes.length * (last &&& 0x7f).toNat ≤ 256 ^ bytes.length * 127 :=
      Nat.mul_le_mul_left _ hlast
    rw [ofLittleEndian_append, byte_eq_sign last]
    split_ifs with hsign
    · rw [Nat.mul_add]
      omega
    · rw [Nat.add_zero]
      omega

end CScriptNum

theorem castToBigNum_eq (vch : valtype) : CastToBigNum vch = CScriptNum.ofVch vch false := by
  unfold CastToBigNum CScriptNum.ofVch
  rw [setvch_eq_set_vch, setvch_eq_set_vch, getvch_eq_serialize, CScriptNum.set_vch_serialize]
  rfl

theorem getint_eq {n : ℤ} (hn : n.natAbs < 2 ^ 64) : CBigNum.getint n = CScriptNum.getint n := by
  unfold CBigNum.getint CScriptNum.getint
  rw [if_pos hn]
  dsimp only
  split_ifs <;> omega

end ZalemCoin.Script
