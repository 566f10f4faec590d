import ZalemCoin.Chain.Primitives
import ZalemCoin.Storage.Serialize

/-!
# Compact sizes

A size is written in one, three, five or nine bytes. Reading refuses the bytes of a size that fits into
fewer of them, and a size that is too large, so that what is read is exactly what is written.
-/

namespace ZalemCoin.Storage

open Lib Chain

theorem length_writeCompactSize (nSize : ℕ) :
    (WriteCompactSize nSize).length = GetSizeOfCompactSize nSize := by
  unfold WriteCompactSize GetSizeOfCompactSize
  split_ifs
  · rfl
  · rw [List.length_cons, length_littleEndian]
  · rw [List.length_cons, length_littleEndian]
  · rw [List.length_cons, length_littleEndian]

section

variable {k nLeast chSize nSize : ℕ} {bytes rest : List UInt8}

theorem readLongSize_eq_some (h : (readLongSize k nLeast).run bytes = some (nSize, rest)) :
    nLeast ≤ nSize ∧ nSize < 256 ^ k ∧ bytes = littleEndian k nSize ++ rest := by
  unfold readLongSize at h
  rw [StateT.run_bind] at h
  obtain ⟨⟨n, after⟩, hread, hnext⟩ := Option.bind_eq_some_iff.mp h
  obtain ⟨hlt, hbytes⟩ := Reader.run_takeNat_eq_some.mp hread
  split at hnext
  · cases hnext
  · rename_i hleast
    cases hnext
    exact ⟨not_lt.mp hleast, hlt, hbytes⟩

theorem readSizeAfter_eq_some (hfst : chSize < 256)
    (h : (readSizeAfter chSize).run bytes = some (nSize, rest)) :
    UInt8.ofNat chSize :: bytes = WriteCompactSize nSize ++ rest := by
  unfold readSizeAfter at h
  unfold WriteCompactSize
  split at h
  · rename_i hsmall
    cases h
    rw [if_pos hsmall, List.singleton_append]
  · split at h
    · rename_i hchSize
      obtain ⟨hleast, hlt, rfl⟩ := readLongSize_eq_some h
      rw [if_neg (by omega), if_pos (by omega), hchSize]
      rfl
    · split at h
      · rename_i hchSize
        obtain ⟨hleast, hlt, rfl⟩ := readLongSize_eq_some h
        rw [if_neg (by omega), if_neg (by omega), if_pos (by omega), hchSize]
        rfl
      · obtain ⟨hleast, -, rfl⟩ := readLongSize_eq_some h
        rw [if_neg (by omega), if_neg (by omega), if_neg (by omega), show chSize = 255 by omega]
        rfl

theorem readCompactSize_eq_some (h : ReadCompactSize.run bytes = some (nSize, rest)) :
    nSize ≤ MAX_SIZE ∧ bytes = WriteCompactSize nSize ++ rest := by
  unfold ReadCompactSize at h
  rw [StateT.run_bind] at h
  obtain ⟨⟨chSize, after⟩, hfst, hnext⟩ := Option.bind_eq_some_iff.mp h
  obtain ⟨hlt, rfl⟩ := Reader.run_takeNat_eq_some.mp hfst
  rw [StateT.run_bind] at hnext
  obtain ⟨⟨n, rest'⟩, hsize, hlast⟩ := Option.bind_eq_some_iff.mp hnext
  split at hlast
  · cases hlast
  · rename_i hmax
    cases hlast
    exact ⟨not_lt.mp hmax, readSizeAfter_eq_some hlt hsize⟩

end

/-- A size up to the largest one is read back, from as many bytes as are announced; and the bytes that are
read are those of such a size, followed by anything. -/
theorem compactSize_codec (nSize : ℕ) :
    (nSize ≤ MAX_SIZE → ReadCompactSize.run (WriteCompactSize nSize) = some (nSize, [])) ∧
    (WriteCompactSize nSize).length = GetSizeOfCompactSize nSize ∧
    ∀ bytes rest, ReadCompactSize.run bytes = some (nSize, rest) ↔
      nSize ≤ MAX_SIZE ∧ bytes = WriteCompactSize nSize ++ rest := by
  refine ⟨fun hmax => (reads_compactSize hmax).run, length_writeCompactSize nSize, ?_⟩
  intro bytes rest
  constructor
  · exact readCompactSize_eq_some
  · rintro ⟨hmax, rfl⟩
    exact reads_compactSize hmax rest

end ZalemCoin.Storage
