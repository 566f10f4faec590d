import ZalemCoin.Lib.ByteReader
import Mathlib.Tactic.NormNum
import Mathlib.Tactic.Positivity
import Mathlib.Tactic.Zify

/-!
# Serialisation of basic types

The templates of `serialize.h` for integers, sizes and vectors of bytes, on the machines the program
runs on: an integer is written as its bytes in memory, the lowest one first. A reader that throws, or
that runs out of bytes, fails.
-/

namespace ZalemCoin.Storage

open Lib

/-- The largest size that `ReadCompactSize` takes. -/
def MAX_SIZE : ℕ := 0x02000000

/-- `Serialize` of a signed integer of `k` bytes. -/
def writeInt (k : ℕ) (n : ℤ) : List UInt8 := littleEndian k (n % 256 ^ k).toNat

/-- `Unserialize` of a signed integer of `k` bytes: a number from the half on stands for a negative
one. -/
def readInt (k : ℕ) : Reader ℤ :=
  (fun n : ℕ => if 2 * (n : ℤ) < 256 ^ k then (n : ℤ) else n - 256 ^ k) <$> Reader.takeNat k

theorem reads_int {k : ℕ} {n : ℤ} (hlow : -256 ^ k ≤ 2 * n) (hhigh : 2 * n < 256 ^ k) :
    Reads (readInt k) (writeInt k n) n := by
  have hpos : (0 : ℤ) < 256 ^ k := by positivity
  have hmod : 0 ≤ n % 256 ^ k := Int.emod_nonneg n (ne_of_gt hpos)
  have hlt : n % 256 ^ k < 256 ^ k := Int.emod_lt_of_pos n hpos
  have hfits : (n % 256 ^ k).toNat < 256 ^ k := by
    zify
    rwa [Int.toNat_of_nonneg hmod]
  have hread := (Reads.takeNat hfits).map
    (fun n : ℕ => if 2 * (n : ℤ) < 256 ^ k then (n : ℤ) else n - 256 ^ k)
  rw [Int.toNat_of_nonneg hmod] at hread
  have hval : (if 2 * (n % 256 ^ k) < 256 ^ k then n % 256 ^ k
      else n % 256 ^ k - 256 ^ k) = n := by
    rcases lt_or_ge n 0 with hneg | hnn
    · have hshift : n % 256 ^ k = n + 256 ^ k := by
        rw [← Int.add_emod_right]
        exact Int.emod_eq_of_lt (by omega) (by omega)
      rw [hshift, if_neg (by omega)]
      omega
    · rw [Int.emod_eq_of_lt hnn (by omega), if_pos hhigh]
  rwa [hval] at hread

/-- `Serialize` and `Unserialize` of `int`. -/
def writeInt32 (n : Int32) : List UInt8 := writeInt 4 n.toInt
def readInt32 : Reader Int32 := Int32.ofInt <$> readInt 4

/-- `Serialize` and `Unserialize` of `int64_t`. -/
def writeInt64 (n : Int64) : List UInt8 := writeInt 8 n.toInt
def readInt64 : Reader Int64 := Int64.ofInt <$> readInt 8

/-- `Serialize` and `Unserialize` of `unsigned short`, `unsigned int` and `uint64_t`. -/
def writeUInt16 (n : UInt16) : List UInt8 := littleEndian 2 n.toNat
def readUInt16 : Reader UInt16 := UInt16.ofNat <$> Reader.takeNat 2
def writeUInt32 (n : UInt32) : List UInt8 := littleEndian 4 n.toNat
def readUInt32 : Reader UInt32 := UInt32.ofNat <$> Reader.takeNat 4
def writeUInt64 (n : UInt64) : List UInt8 := littleEndian 8 n.toNat
def readUInt64 : Reader UInt64 := UInt64.ofNat <$> Reader.takeNat 8

theorem reads_int32 (n : Int32) : Reads readInt32 (writeInt32 n) n := by
  have hlow := n.le_toInt
  have hhigh := n.toInt_lt
  have hread := (@reads_int 4 n.toInt (by norm_num; omega) (by norm_num; omega)).map Int32.ofInt
  rwa [Int32.ofInt_toInt] at hread

theorem reads_int64 (n : Int64) : Reads readInt64 (writeInt64 n) n := by
  have hlow := n.le_toInt
  have hhigh := n.toInt_lt
  have hread := (@reads_int 8 n.toInt (by norm_num; omega) (by norm_num; omega)).map Int64.ofInt
  rwa [Int64.ofInt_toInt] at hread

theorem reads_uint16 (n : UInt16) : Reads readUInt16 (writeUInt16 n) n := by
  have hread := (@Reads.takeNat 2 n.toNat n.toNat_lt).map UInt16.ofNat
  rwa [UInt16.ofNat_toNat] at hread

theorem reads_uint32 (n : UInt32) : Reads readUInt32 (writeUInt32 n) n := by
  have hread := (@Reads.takeNat 4 n.toNat n.toNat_lt).map UInt32.ofNat
  rwa [UInt32.ofNat_toNat] at hread

theorem reads_uint64 (n : UInt64) : Reads readUInt64 (writeUInt64 n) n := by
  have hread := (@Reads.takeNat 8 n.toNat n.toNat_lt).map UInt64.ofNat
  rwa [UInt64.ofNat_toNat] at hread

/-- A size in one byte, or behind a byte that says how long it is. -/
def WriteCompactSize (nSize : ℕ) : List UInt8 :=
  if nSize < 253 then [UInt8.ofNat nSize]
  else if nSize ≤ 0xFFFF then 253 :: littleEndian 2 nSize
  else if nSize ≤ 0xFFFFFFFF then 254 :: littleEndian 4 nSize
  else 255 :: littleEndian 8 nSize

/-- The size after a first byte that announces `k` bytes, which must need that many. -/
def readLongSize (k : ℕ) (nLeast : ℕ) : Reader ℕ := do
  let nSizeRet ← Reader.takeNat k
  if nSizeRet < nLeast then failure else pure nSizeRet

def readSizeAfter (chSize : ℕ) : Reader ℕ :=
  if chSize < 253 then pure chSize
  else if chSize = 253 then readLongSize 2 253
  else if chSize = 254 then readLongSize 4 0x10000
  else readLongSize 8 0x100000000

/-- Reads a size that is written in the shortest way and not above `MAX_SIZE`. -/
def ReadCompactSize : Reader ℕ := do
  let chSize ← Reader.takeNat 1
  let nSizeRet ← readSizeAfter chSize
  if nSizeRet > MAX_SIZE then failure else pure nSizeRet

/-- `Serialize` of a vector of bytes. -/
def writeBytes (v : List UInt8) : List UInt8 := WriteCompactSize v.length ++ v

/-- `Unserialize` of a vector of bytes. -/
def readBytes : Reader (List UInt8) := do
  let nSize ← ReadCompactSize
  Reader.takeBytes nSize

theorem reads_longSize {k nLeast nSize : ℕ} (hleast : nLeast ≤ nSize) (hfits : nSize < 256 ^ k) :
    Reads (readLongSize k nLeast) (littleEndian k nSize) nSize := by
  have hread : Reads (readLongSize k nLeast) (littleEndian k nSize ++ []) nSize := by
    apply Reads.bind (Reads.takeNat hfits)
    rw [if_neg (by omega)]
    exact Reads.pure nSize
  rwa [List.append_nil] at hread

theorem reads_size {nSize : ℕ} (h : nSize < 256 ^ 8) :
    Reads (Reader.takeNat 1 >>= readSizeAfter) (WriteCompactSize nSize) nSize := by
  have haft : ∀ {chSize : ℕ} {bytes : List UInt8}, chSize < 256 ^ 1 →
      Reads (readSizeAfter chSize) bytes nSize →
        Reads (Reader.takeNat 1 >>= readSizeAfter) (littleEndian 1 chSize ++ bytes) nSize :=
    fun hfits hrest => Reads.bind (Reads.takeNat hfits) hrest
  unfold WriteCompactSize
  split
  · rename_i hsmall
    have hrest : Reads (readSizeAfter nSize) [] nSize := by
      unfold readSizeAfter
      rw [if_pos hsmall]
      exact Reads.pure nSize
    exact haft (by omega) hrest
  · split
    · exact @haft 253 _ (by norm_num) (reads_longSize (by omega) (by omega))
    · split
      · exact @haft 254 _ (by norm_num) (reads_longSize (by omega) (by omega))
      · exact @haft 255 _ (by norm_num) (reads_longSize (by omega) h)

theorem reads_compactSize {nSize : ℕ} (h : nSize ≤ MAX_SIZE) :
    Reads ReadCompactSize (WriteCompactSize nSize) nSize := by
  have hmax : MAX_SIZE = 33554432 := rfl
  have hsplit : ReadCompactSize = (Reader.takeNat 1 >>= readSizeAfter) >>= fun nSizeRet =>
      if nSizeRet > MAX_SIZE then failure else pure nSizeRet := (bind_assoc _ _ _).symm
  rw [hsplit, ← List.append_nil (WriteCompactSize nSize)]
  apply Reads.bind (reads_size (by omega))
  rw [if_neg (not_lt.mpr h)]
  exact Reads.pure nSize

theorem reads_bytes {v : List UInt8} (h : v.length ≤ MAX_SIZE) :
    Reads readBytes (writeBytes v) v :=
  Reads.bind (reads_compactSize h) (Reads.takeBytes v)

end ZalemCoin.Storage
