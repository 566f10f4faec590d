import ZalemCoin.Chain.CompactTarget
import ZalemCoin.Script.NumberWords

/-!
# The compact form of a target, by its bytes

`GetCompact` and `SetCompact` go through the format of the library, whose first bit is the sign: the
compact form is the number of its bytes, and the leading three of them. The number of bytes has eight
bits in it.
-/

namespace ZalemCoin.Script.CBigNum

def GetCompact (n : ℤ) : UInt32 :=
  let vch := BN_bn2mpi n
  let nSize := vch.length
  let nCompact := UInt32.ofNat nSize <<< 24
  let nCompact := if 1 ≤ nSize then nCompact ||| ((vch.getD 0 0).toUInt32 <<< 16) else nCompact
  let nCompact := if 2 ≤ nSize then nCompact ||| ((vch.getD 1 0).toUInt32 <<< 8) else nCompact
  if 3 ≤ nSize then nCompact ||| (vch.getD 2 0).toUInt32 else nCompact

/-- The number that a compact form stands for. -/
def SetCompact (nCompact : UInt32) : ℤ :=
  let nSize := (nCompact >>> 24).toNat
  let vch := List.replicate nSize (0 : UInt8)
  let vch := if 1 ≤ nSize then vch.set 0 ((nCompact >>> 16) &&& 0xff).toUInt8 else vch
  let vch := if 2 ≤ nSize then vch.set 1 ((nCompact >>> 8) &&& 0xff).toUInt8 else vch
  let vch := if 3 ≤ nSize then vch.set 2 (nCompact &&& 0xff).toUInt8 else vch
  BN_mpi2bn vch

end ZalemCoin.Script.CBigNum

namespace ZalemCoin.Chain

open Lib Script

/-! ## The leading bytes -/

theorem ofBigEndian_cons (b : UInt8) (bytes : List UInt8) :
    ofBigEndian (b :: bytes) = b.toNat * 256 ^ bytes.length + ofBigEndian bytes := by
  rw [← List.reverse_reverse bytes, ← List.reverse_concat, ofBigEndian_reverse, ofBigEndian_reverse,
    ofLittleEndian_append, List.length_reverse, List.reverse_reverse]
  ring

theorem ofBigEndian_lt (bytes : List UInt8) : ofBigEndian bytes < 256 ^ bytes.length := by
  have hlt := ofLittleEndian_lt bytes.reverse
  rwa [← ofBigEndian_reverse, List.reverse_reverse, List.length_reverse] at hlt

/-- The leading three bytes, as `GetCompact` places them. -/
def leadingWord (bytes : List UInt8) : ℕ :=
  (bytes.getD 0 0).toNat * 2 ^ 16 + (bytes.getD 1 0).toNat * 2 ^ 8 + (bytes.getD 2 0).toNat

theorem leadingWord_eq (bytes : List UInt8) : leadingWord bytes =
    if bytes.length ≤ 3 then ofBigEndian bytes * 256 ^ (3 - bytes.length)
    else ofBigEndian bytes / 256 ^ (bytes.length - 3) := by
  match bytes with
  | [] => rfl
  | [a] => simp [leadingWord, ofBigEndian]
  | [a, b] =>
    simp [leadingWord, ofBigEndian]
    ring
  | [a, b, c] =>
    simp [leadingWord, ofBigEndian]
    ring
  | a :: b :: c :: d :: rest =>
    have hlt := ofBigEndian_lt (d :: rest)
    have hsplit : ofBigEndian (a :: b :: c :: d :: rest)
        = ofBigEndian (d :: rest) + 256 ^ (d :: rest).length * leadingWord (a :: b :: c :: d :: rest) := by
      rw [ofBigEndian_cons, ofBigEndian_cons, ofBigEndian_cons]
      simp only [leadingWord, List.length_cons, List.getD_cons_zero, List.getD_cons_succ, pow_succ]
      ring
    have hlen : (a :: b :: c :: d :: rest).length - 3 = (d :: rest).length := by
      simp only [List.length_cons]
      omega
    rw [if_neg (by simp only [List.length_cons]; omega), hlen, hsplit,
      Nat.add_mul_div_left _ _ (by positivity), Nat.div_eq_of_lt hlt, Nat.zero_add]

/-! ## The bytes of a number -/

theorem compactSize_eq {m j : ℕ} (hlow : 2 ^ (8 * j) ≤ 2 * m) (hhigh : 2 * m < 2 ^ (8 * (j + 1))) :
    compactSize m = j + 1 := by
  have hle : compactSize m ≤ j + 1 := by
    apply (compactSize_le_iff (show 0 < j + 1 by omega)).mpr
    rw [show 8 * (j + 1) = 8 * (j + 1) - 1 + 1 by omega, pow_succ] at hhigh
    omega
  have hge : ¬compactSize m ≤ j := by
    rcases Nat.eq_zero_or_pos j with rfl | hj
    · unfold compactSize
      omega
    · rw [compactSize_le_iff hj]
      rw [show 8 * j = 8 * j - 1 + 1 by omega, pow_succ] at hlow
      omega
  omega

/-- The MPI bytes of a number are its digits, as many as the compact size says. -/
theorem bn2mpi_natCast {m : ℕ} (hm : m ≠ 0) :
    (CBigNum.BN_bn2mpi m).length = compactSize m ∧ ofBigEndian (CBigNum.BN_bn2mpi m) = m := by
  have hbytes : ofLittleEndian (leBytes m m) = m := ofLittleEndian_leBytes le_rfl
  unfold CBigNum.BN_bn2mpi
  rw [Int.natAbs_natCast]
  rcases List.eq_nil_or_concat (leBytes m m) with hnil | ⟨init, last, hlast⟩
  · rw [hnil] at hbytes
    exact absurd hbytes.symm hm
  · rw [List.concat_eq_append] at hlast
    have hne : last ≠ 0 := CScriptNum.getLast?_leBytes le_rfl (by rw [hlast, List.getLast?_concat])
    have hpos : 0 < last.toNat := UInt8.pos_iff_ne_zero.mpr hne
    rw [hlast] at hbytes ⊢
    rw [List.reverse_append, List.reverse_singleton, List.singleton_append]
    dsimp only
    rw [if_neg (show ¬((m : ℤ) < 0) by omega)]
    have hinit := ofLittleEndian_lt init
    have hpow : 2 ^ (8 * init.length) = 256 ^ init.length := (pow_256 _).symm
    have hnum : ofBigEndian (last :: init.reverse) = m := by
      rw [← hbytes, ← ofBigEndian_reverse, List.reverse_append, List.reverse_singleton,
        List.singleton_append]
    have hval := ofLittleEndian_append init last
    rw [hbytes, byte_eq_sign last] at hval
    have hlow : (last &&& 0x7f).toNat ≤ 127 := by
      rw [UInt8.toNat_and]
      exact Nat.and_le_right
    have hmul : 256 ^ init.length * (last &&& 0x7f).toNat ≤ 256 ^ init.length * 127 :=
      Nat.mul_le_mul_left _ hlow
    split_ifs at hval ⊢ with htop
    · -- A byte is added, since the first bit is taken by the number.
      rw [Nat.mul_add] at hval
      constructor
      · rw [List.length_cons, List.length_cons, List.length_reverse]
        apply (compactSize_eq _ _).symm
        · rw [Nat.mul_add, pow_add, hpow]
          omega
        · rw [Nat.mul_add, Nat.mul_add, pow_add, pow_add, hpow]
          omega
      · rw [ofBigEndian_cons, hnum, UInt8.toNat_zero, Nat.zero_mul, Nat.zero_add]
    · have hfst : 256 ^ init.length * 1 ≤ 256 ^ init.length * last.toNat := Nat.mul_le_mul_left _ hpos
      have happ := ofLittleEndian_append init last
      rw [hbytes] at happ
      rw [Nat.add_zero] at hval
      constructor
      · rw [List.length_cons, List.length_reverse]
        apply (compactSize_eq _ _).symm
        · rw [hpow]
          omega
        · rw [Nat.mul_add, pow_add, hpow]
          omega
      · exact hnum

/-! ## The two forms agree -/

theorem toNat_shift32 (b : UInt8) {k : ℕ} (hk : k ≤ 24) :
    (b.toUInt32 <<< UInt32.ofNat k).toNat = 2 ^ k * b.toNat := by
  have hb := b.toNat_lt
  have hle : 2 ^ k ≤ 2 ^ 24 := Nat.pow_le_pow_right (by decide) hk
  rw [UInt32.toNat_shiftLeft, UInt8.toNat_toUInt32, UInt32.toNat_ofNat_of_lt' (show k < 2 ^ 32 by omega),
    Nat.mod_eq_of_lt (show k < 32 by omega), Nat.shiftLeft_eq, Nat.mul_comm]
  apply Nat.mod_eq_of_lt
  calc 2 ^ k * b.toNat ≤ 2 ^ 24 * 255 := Nat.mul_le_mul hle (by omega)
    _ < 2 ^ 32 := by decide

theorem or_eq_add {a b k : ℕ} (h : b < 2 ^ k) : 2 ^ k * a ||| b = 2 ^ k * a + b :=
  (Nat.two_pow_add_eq_or_of_lt h a).symm

theorem getCompact_eq_or (n : ℤ) : CBigNum.GetCompact n =
    UInt32.ofNat (CBigNum.BN_bn2mpi n).length <<< 24
      ||| (((CBigNum.BN_bn2mpi n).getD 0 0).toUInt32 <<< 16)
      ||| (((CBigNum.BN_bn2mpi n).getD 1 0).toUInt32 <<< 8)
      ||| ((CBigNum.BN_bn2mpi n).getD 2 0).toUInt32 := by
  unfold CBigNum.GetCompact
  generalize CBigNum.BN_bn2mpi n = vch
  match vch with
  | [] => rfl
  | [a] => simp
  | [a, b] => simp
  | a :: b :: c :: rest => simp

theorem toNat_getCompact (n : ℤ) : (CBigNum.GetCompact n).toNat =
    (CBigNum.BN_bn2mpi n).length % 256 * 2 ^ 24 + leadingWord (CBigNum.BN_bn2mpi n) := by
  rw [getCompact_eq_or]
  unfold leadingWord
  generalize CBigNum.BN_bn2mpi n = vch
  have h0 := (vch.getD 0 0).toNat_lt
  have h1 := (vch.getD 1 0).toNat_lt
  have h2 := (vch.getD 2 0).toNat_lt
  have hlen : (UInt32.ofNat vch.length <<< 24).toNat = 2 ^ 24 * (vch.length % 256) := by
    rw [UInt32.toNat_shiftLeft, UInt32.toNat_ofNat', Nat.shiftLeft_eq]
    change vch.length % 2 ^ 32 * 2 ^ 24 % 2 ^ 32 = _
    omega
  have hbyte0 : ((vch.getD 0 0).toUInt32 <<< 16).toNat = 2 ^ 16 * (vch.getD 0 0).toNat :=
    toNat_shift32 _ (show 16 ≤ 24 by decide)
  have hbyte1 : ((vch.getD 1 0).toUInt32 <<< 8).toNat = 2 ^ 8 * (vch.getD 1 0).toNat :=
    toNat_shift32 _ (show 8 ≤ 24 by decide)
  -- The parts do not overlap, so that they are added.
  rw [UInt32.toNat_or, UInt32.toNat_or, UInt32.toNat_or, hlen, hbyte0, hbyte1, UInt8.toNat_toUInt32,
    or_eq_add (show 2 ^ 16 * (vch.getD 0 0).toNat < 2 ^ 24 by omega),
    show 2 ^ 24 * (vch.length % 256) + 2 ^ 16 * (vch.getD 0 0).toNat
      = 2 ^ 16 * (2 ^ 8 * (vch.length % 256) + (vch.getD 0 0).toNat) by ring,
    or_eq_add (show 2 ^ 8 * (vch.getD 1 0).toNat < 2 ^ 16 by omega),
    show 2 ^ 16 * (2 ^ 8 * (vch.length % 256) + (vch.getD 0 0).toNat) + 2 ^ 8 * (vch.getD 1 0).toNat
      = 2 ^ 8 * (2 ^ 8 * (2 ^ 8 * (vch.length % 256) + (vch.getD 0 0).toNat) + (vch.getD 1 0).toNat) by
        ring,
    or_eq_add h2]
  ring

theorem getCompact_eq (m : ℕ) : CBigNum.GetCompact m = GetCompact m := by
  apply UInt32.toNat_inj.mp
  rw [toNat_getCompact]
  rcases Nat.eq_zero_or_pos m with rfl | hpos
  · rfl
  · obtain ⟨hlen, hnum⟩ := bn2mpi_natCast hpos.ne'
    have hword := headWord_lt m
    rw [leadingWord_eq, hlen, hnum, getCompact_natCast hpos.ne', UInt32.toNat_ofNat']
    change compactSize m % 256 * 2 ^ 24 + headWord m = (compactSize m * 2 ^ 24 + headWord m) % 2 ^ 32
    omega

theorem ofBigEndian_replicate (k : ℕ) : ofBigEndian (List.replicate k 0) = 0 := by
  induction k with
  | zero => rfl
  | succ k ih => rw [List.replicate_succ, ofBigEndian_cons, ih, UInt8.toNat_zero, Nat.zero_mul]

theorem toNat_byte (n : UInt32) {k : ℕ} (hk : k < 32) :
    ((n >>> UInt32.ofNat k) &&& 0xff).toUInt8.toNat = n.toNat / 2 ^ k % 256 := by
  rw [UInt32.toNat_toUInt8, UInt32.toNat_and, UInt32.toNat_shiftRight,
    UInt32.toNat_ofNat_of_lt' (show k < 2 ^ 32 by omega), Nat.mod_eq_of_lt hk,
    Nat.shiftRight_eq_div_pow]
  change (n.toNat / 2 ^ k &&& 2 ^ 8 - 1) % 2 ^ 8 = _
  rw [Nat.and_two_pow_sub_one_eq_mod, Nat.mod_mod]

theorem mpi2bn_cons (top : UInt8) (bytes : List UInt8) : CBigNum.BN_mpi2bn (top :: bytes) =
    if 128 ≤ top.toNat
    then -((top.toNat % 128 * 256 ^ bytes.length + ofBigEndian bytes : ℕ) : ℤ)
    else ((top.toNat % 128 * 256 ^ bytes.length + ofBigEndian bytes : ℕ) : ℤ) := by
  have hval := byte_eq_sign top
  have hlow : (top &&& 0x7f).toNat ≤ 127 := by
    exact Nat.and_le_right
  unfold CBigNum.BN_mpi2bn
  dsimp only
  rw [ofBigEndian_cons]
  split_ifs at hval ⊢ with hsign hbig
  · rw [show (top &&& 0x7f).toNat = top.toNat % 128 by omega]
  · omega
  · omega
  · rw [show (top &&& 0x7f).toNat = top.toNat % 128 by omega]

theorem mpi2bn_of_word {n magnitude : ℕ} {top : UInt8} {bytes : List UInt8}
    (htop : top.toNat = n / 2 ^ 16 % 256)
    (hmag : n / 2 ^ 16 % 128 * 256 ^ bytes.length + ofBigEndian bytes = magnitude) :
    CBigNum.BN_mpi2bn (top :: bytes) =
      if n / 2 ^ 23 % 2 = 1 then -(magnitude : ℤ) else (magnitude : ℤ) := by
  rw [mpi2bn_cons, htop, show n / 2 ^ 16 % 256 % 128 = n / 2 ^ 16 % 128 by omega, hmag]
  apply if_congr
  · omega
  · rfl
  · rfl

theorem setCompact_eq (nCompact : UInt32) : CBigNum.SetCompact nCompact = SetCompact nCompact := by
  have hbyte0 := toNat_byte nCompact (show 16 < 32 by decide)
  have hbyte1 := toNat_byte nCompact (show 8 < 32 by decide)
  have hbyte2 := toNat_byte nCompact (show 0 < 32 by decide)
  have hsize : (nCompact >>> 24).toNat = nCompact.toNat / 2 ^ 24 := by
    rw [UInt32.toNat_shiftRight, Nat.shiftRight_eq_div_pow]
    rfl
  rw [show nCompact >>> UInt32.ofNat 0 = nCompact from UInt32.shiftRight_zero] at hbyte2
  unfold CBigNum.SetCompact SetCompact
  dsimp only
  rw [hsize]
  generalize ((nCompact >>> 16) &&& 0xff).toUInt8 = b0 at hbyte0 ⊢
  generalize ((nCompact >>> 8) &&& 0xff).toUInt8 = b1 at hbyte1 ⊢
  generalize (nCompact &&& 0xff).toUInt8 = b2 at hbyte2 ⊢
  generalize nCompact.toNat = n at *
  -- The leading bytes are those of the word, as many of them as there are.
  match hk : n / 2 ^ 24 with
  | 0 =>
    have hword : n % 2 ^ 23 / 256 ^ 3 = 0 := by omega
    have hsign : ¬(n / 2 ^ 23 % 2 = 1 ∧ 1 ≤ 0) := by omega
    rw [if_neg hsign, if_pos (show 0 ≤ 3 by omega), hword]
    rfl
  | 1 =>
    have hmag : n / 2 ^ 16 % 128 * 256 ^ ([] : List UInt8).length + ofBigEndian []
        = n % 2 ^ 23 / 256 ^ 2 := by
      change n / 2 ^ 16 % 128 * 256 ^ 0 + 0 = _
      omega
    have hread := mpi2bn_of_word hbyte0 hmag
    simpa using hread
  | 2 =>
    have hmag : n / 2 ^ 16 % 128 * 256 ^ [b1].length + ofBigEndian [b1]
        = n % 2 ^ 23 / 256 ^ 1 := by
      rw [ofBigEndian_cons, hbyte1]
      change n / 2 ^ 16 % 128 * 256 ^ 1 + (n / 2 ^ 8 % 256 * 256 ^ 0 + 0) = _
      omega
    have hread := mpi2bn_of_word hbyte0 hmag
    simpa using hread
  | k + 3 =>
    have hmag : n / 2 ^ 16 % 128 * 256 ^ (b1 :: b2 :: List.replicate k 0).length
        + ofBigEndian (b1 :: b2 :: List.replicate k 0) = n % 2 ^ 23 * 256 ^ k := by
      rw [ofBigEndian_cons, ofBigEndian_cons, ofBigEndian_replicate, hbyte1, hbyte2]
      have hword : n % 2 ^ 23 = n / 2 ^ 16 % 128 * 2 ^ 16 + n / 2 ^ 8 % 256 * 2 ^ 8 + n / 2 ^ 0 % 256 := by
        omega
      rw [hword, List.length_cons, List.length_cons, List.length_replicate, pow_succ, pow_succ]
      ring
    have hread := mpi2bn_of_word hbyte0 hmag
    have hsize3 : (if k + 3 ≤ 3 then n % 2 ^ 23 / 256 ^ (3 - (k + 3))
        else n % 2 ^ 23 * 256 ^ (k + 3 - 3)) = n % 2 ^ 23 * 256 ^ k := by
      split_ifs with hsmall
      · rw [show k = 0 by omega]
        simp
      · rfl
    rw [hsize3, if_pos (show 1 ≤ k + 3 by omega), if_pos (show 2 ≤ k + 3 by omega),
      if_pos (show 3 ≤ k + 3 by omega)]
    simpa [List.replicate_succ] using hread

/-! ## Writing a number and reading it back -/

theorem setCompact_getCompact (m : ℕ) :
    CBigNum.SetCompact (CBigNum.GetCompact m) = compactTarget m := by
  rw [setCompact_eq, getCompact_eq]
  rfl

theorem compactSize_lt_iff (m : ℕ) : compactSize m < 256 ↔ m < compactLimit :=
  calc compactSize m < 256 ↔ compactSize m ≤ 255 := Nat.lt_succ_iff
    _ ↔ m < compactLimit := compactSize_le_iff (by decide)

/-- The compact form of a number that is not negative: what is read back is no more than the number.
It is the leading three bytes of the number, and it has the same compact form, where the number has at
most 255 bytes with room for the sign; of two such numbers the larger one is not read back smaller. -/
theorem compact_codec {x : ℤ} (hx : 0 ≤ x) :
    CBigNum.SetCompact (CBigNum.GetCompact x) ≤ x ∧
    (CBigNum.SetCompact (CBigNum.GetCompact x) = keptMagnitude x.toNat ↔ x < compactLimit) ∧
    (x < compactLimit →
      CBigNum.GetCompact (CBigNum.SetCompact (CBigNum.GetCompact x)) = CBigNum.GetCompact x) ∧
    ∀ y, x ≤ y → y < compactLimit →
      CBigNum.SetCompact (CBigNum.GetCompact x) ≤ CBigNum.SetCompact (CBigNum.GetCompact y) := by
  obtain ⟨m, rfl⟩ := Int.eq_ofNat_of_zero_le hx
  have hkept : m < compactLimit → compactTarget m = keptMagnitude m := fun hm =>
    compactTarget_of_compactSize ((compactSize_lt_iff m).mpr hm)
  rw [setCompact_getCompact, Int.toNat_natCast, Int.ofNat_lt]
  refine ⟨?_, ⟨?_, hkept⟩, ?_, ?_⟩
  · rcases Nat.lt_or_ge m compactLimit with hm | hm
    · rw [hkept hm]
      exact Int.ofNat_le.mpr (keptMagnitude_le m)
    · have hlt := compactTarget_lt_keptMagnitude hm
      have hle := keptMagnitude_le m
      omega
  · intro heq
    by_contra hm
    have hlt := compactTarget_lt_keptMagnitude (not_lt.mp hm)
    omega
  · intro hm
    rw [hkept hm, getCompact_eq, getCompact_eq, getCompact_keptMagnitude]
  · intro y hxy hy
    obtain ⟨n, rfl⟩ := Int.eq_ofNat_of_zero_le (hx.trans hxy)
    have hmn : m ≤ n := Int.ofNat_le.mp hxy
    have hn : n < compactLimit := Int.ofNat_lt.mp hy
    have htarget := compactTarget_of_compactSize ((compactSize_lt_iff n).mpr hn)
    rw [setCompact_getCompact, hkept (lt_of_le_of_lt hmn hn), htarget]
    exact Int.ofNat_le.mpr (keptMagnitude_mono hmn)

/-- A number of four bytes loses the last one. -/
theorem compact_codec_four_bytes :
    CBigNum.GetCompact 0x12345678 = 0x04123456 ∧ CBigNum.SetCompact 0x04123456 = 0x12345600 ∧
    CBigNum.GetCompact 0x12345600 = 0x04123456 ∧
    CBigNum.SetCompact (CBigNum.GetCompact 0x12345678) ≤ 0x12345678 := by
  refine ⟨?_, ?_, ?_, (compact_codec (by decide)).1⟩
  · rw [show (0x12345678 : ℤ) = (0x12345678 : ℕ) from rfl, getCompact_eq]
    decide
  · rw [setCompact_eq]
    decide
  · rw [show (0x12345600 : ℤ) = (0x12345600 : ℕ) from rfl, getCompact_eq]
    decide

/-- A number of 256 bytes is not read back: its size has nine bits. -/
theorem compact_codec_not_256 :
    ¬∀ x : ℤ, 0 ≤ x → CBigNum.SetCompact (CBigNum.GetCompact x) = keptMagnitude x.toNat := by
  intro h
  have heq := h compactLimit (Int.natCast_nonneg _)
  have hlt := compactTarget_lt_keptMagnitude (le_refl compactLimit)
  rw [setCompact_getCompact, Int.toNat_natCast] at heq
  omega

end ZalemCoin.Chain
