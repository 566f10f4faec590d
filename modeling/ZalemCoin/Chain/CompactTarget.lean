import ZalemCoin.Chain.Retarget

/-!
# What the compact form of a target keeps

`GetCompact` keeps the leading three bytes of a target, one bit of which is its sign, and the number
of its bytes. Reading the form back with `SetCompact` gives the target rounded towards zero: it is
not zero, and it is smaller by less than one part in `2 ^ 15`.
-/

namespace ZalemCoin.Chain

/-- The number of bytes of a magnitude, with room for the sign. -/
def compactSize (m : ℕ) : ℕ := (m.log2 + 1) / 8 + 1

/-- The magnitude without the bytes after the leading three. -/
def keptMagnitude (m : ℕ) : ℕ :=
  m / 256 ^ (compactSize m - 3) * 256 ^ (compactSize m - 3)

section

variable {m n : ℕ}

theorem lt_two_pow_compactSize (m : ℕ) : m < 2 ^ (8 * compactSize m - 1) := by
  have hlog : m < 2 ^ (m.log2 + 1) := Nat.lt_log2_self
  have hsize : m.log2 + 1 ≤ 8 * compactSize m - 1 := by
    unfold compactSize
    omega
  exact lt_of_lt_of_le hlog (Nat.pow_le_pow_right two_pos hsize)

theorem two_pow_compactSize_le (hm : m ≠ 0) : 2 ^ (8 * compactSize m) ≤ m * 2 ^ 9 := by
  have hlog : 2 ^ m.log2 ≤ m := Nat.log2_self_le hm
  have hsize : 8 * compactSize m ≤ m.log2 + 9 := by
    unfold compactSize
    omega
  calc 2 ^ (8 * compactSize m) ≤ 2 ^ (m.log2 + 9) := Nat.pow_le_pow_right two_pos hsize
    _ = 2 ^ m.log2 * 2 ^ 9 := Nat.pow_add _ _ _
    _ ≤ m * 2 ^ 9 := Nat.mul_le_mul_right _ hlog

theorem compactSize_mono (h : m ≤ n) : compactSize m ≤ compactSize n := by
  have hlog : m.log2 ≤ n.log2 := by
    rw [Nat.log2_eq_log_two, Nat.log2_eq_log_two]
    exact Nat.log_mono_right h
  unfold compactSize
  omega

theorem pow_256 (e : ℕ) : 256 ^ e = 2 ^ (8 * e) := by
  rw [Nat.pow_mul]

theorem keptMagnitude_le (m : ℕ) : keptMagnitude m ≤ m := Nat.div_mul_le_self _ _

theorem le_keptMagnitude (m : ℕ) : m * 2 ^ 15 ≤ keptMagnitude m * (2 ^ 15 + 1) := by
  unfold keptMagnitude
  generalize he : compactSize m - 3 = e
  rcases Nat.eq_zero_or_pos e with rfl | hpos
  · rw [pow_zero, Nat.div_one, Nat.mul_one]
    omega
  · -- There are bytes to drop, so that the leading three are all used.
    have hm : m ≠ 0 := by
      rintro rfl
      rw [show compactSize 0 = 1 by decide] at he
      omega
    have hsize := two_pow_compactSize_le hm
    rw [show 8 * compactSize m = 8 * e + 15 + 9 by omega, Nat.pow_add _ _ 9] at hsize
    have hfull : 2 ^ 15 * 256 ^ e ≤ m := by
      rw [pow_256, Nat.mul_comm, ← Nat.pow_add]
      exact Nat.le_of_mul_le_mul_right hsize (by norm_num)
    have hlead : 2 ^ 15 ≤ m / 256 ^ e := (Nat.le_div_iff_mul_le (by positivity)).mpr hfull
    have hdrop : m < (m / 256 ^ e + 1) * 256 ^ e := by
      rw [Nat.mul_comm]
      exact Nat.lt_mul_div_succ m (by positivity)
    calc m * 2 ^ 15 ≤ (m / 256 ^ e + 1) * 256 ^ e * 2 ^ 15 := Nat.mul_le_mul_right _ hdrop.le
      _ = m / 256 ^ e * 256 ^ e * 2 ^ 15 + 2 ^ 15 * 256 ^ e := by ring
      _ ≤ m / 256 ^ e * 256 ^ e * 2 ^ 15 + m / 256 ^ e * 256 ^ e :=
          Nat.add_le_add_left (Nat.mul_le_mul_right _ hlead) _
      _ = m / 256 ^ e * 256 ^ e * (2 ^ 15 + 1) := by ring

theorem keptMagnitude_pos (hm : 0 < m) : 0 < keptMagnitude m := by
  have h := le_keptMagnitude m
  omega

theorem keptMagnitude_mono (h : m ≤ n) : keptMagnitude m ≤ keptMagnitude n := by
  have hsize := compactSize_mono h
  rcases Nat.lt_or_ge (compactSize m - 3) (compactSize n - 3) with hlt | hge
  · -- The larger one has more bytes: the top one alone exceeds the smaller one.
    have hn : n ≠ 0 := by
      rintro rfl
      rw [show compactSize 0 = 1 by decide] at hlt
      omega
    have hlow := lt_two_pow_compactSize m
    have htop := two_pow_compactSize_le hn
    rw [show 8 * compactSize n = 8 * (compactSize n - 3) + 15 + 9 by omega,
      Nat.pow_add _ _ 9] at htop
    have hfull : 2 ^ 15 * 256 ^ (compactSize n - 3) ≤ n := by
      rw [pow_256, Nat.mul_comm, ← Nat.pow_add]
      exact Nat.le_of_mul_le_mul_right htop (by norm_num)
    have hlead : 2 ^ 15 ≤ n / 256 ^ (compactSize n - 3) :=
      (Nat.le_div_iff_mul_le (by positivity)).mpr hfull
    calc keptMagnitude m ≤ m := keptMagnitude_le m
      _ ≤ 2 ^ (8 * compactSize m - 1) := hlow.le
      _ ≤ 2 ^ (15 + 8 * (compactSize n - 3)) := Nat.pow_le_pow_right two_pos (by omega)
      _ = 2 ^ 15 * 256 ^ (compactSize n - 3) := by rw [pow_256, Nat.pow_add]
      _ ≤ keptMagnitude n := Nat.mul_le_mul_right _ hlead
  · have heq : compactSize m - 3 = compactSize n - 3 := by omega
    unfold keptMagnitude
    rw [heq]
    exact Nat.mul_le_mul_right _ (Nat.div_le_div_right h)

end

def compactTarget (n : ℤ) : ℤ := SetCompact (GetCompact n)

section

variable {m n : ℤ}

theorem setCompact_ofNat {nSize word : ℕ} (hsize : nSize < 256) (hword : word < 2 ^ 23) :
    SetCompact (UInt32.ofNat (nSize * 2 ^ 24 + word))
      = ((if nSize ≤ 3 then word / 256 ^ (3 - nSize) else word * 256 ^ (nSize - 3) : ℕ) : ℤ) := by
  have hnat : (UInt32.ofNat (nSize * 2 ^ 24 + word)).toNat = nSize * 2 ^ 24 + word :=
    UInt32.toNat_ofNat_of_lt' (show _ < 2 ^ 32 by omega)
  have htop : (nSize * 2 ^ 24 + word) / 2 ^ 24 = nSize := by omega
  have hlow : (nSize * 2 ^ 24 + word) % 2 ^ 23 = word := by omega
  have hsign : ¬((nSize * 2 ^ 24 + word) / 2 ^ 23 % 2 = 1 ∧ 1 ≤ nSize) := by omega
  unfold SetCompact
  simp only [hnat, htop, hlow]
  rw [if_neg hsign]

/-- The leading three bytes of a magnitude. -/
def headWord (m : ℕ) : ℕ :=
  if compactSize m ≤ 3 then m * 256 ^ (3 - compactSize m) else m / 256 ^ (compactSize m - 3)

theorem headWord_lt (m : ℕ) : headWord m < 2 ^ 23 := by
  have hbits := lt_two_pow_compactSize m
  have hone : 1 ≤ compactSize m := by
    unfold compactSize
    omega
  unfold headWord
  split_ifs with hsmall
  · -- A number of three bytes at most is shifted up.
    rw [pow_256]
    calc m * 2 ^ (8 * (3 - compactSize m))
        < 2 ^ (8 * compactSize m - 1) * 2 ^ (8 * (3 - compactSize m)) :=
          Nat.mul_lt_mul_of_pos_right hbits (by positivity)
      _ = 2 ^ 23 := by
          rw [← Nat.pow_add]
          congr 1
          omega
  · rw [Nat.div_lt_iff_lt_mul (by positivity), pow_256, ← Nat.pow_add]
    exact lt_of_lt_of_le hbits (Nat.pow_le_pow_right two_pos (by omega))

theorem getCompact_natCast {m : ℕ} (hm : m ≠ 0) :
    GetCompact m = UInt32.ofNat (compactSize m * 2 ^ 24 + headWord m) := by
  unfold GetCompact
  rw [if_neg (by omega), Int.natAbs_natCast]
  simp only [if_neg (show ¬((m : ℤ) < 0) by omega), Nat.add_zero]
  rfl

theorem compactTarget_of_compactSize {m : ℕ} (hsize : compactSize m < 256) :
    compactTarget (m : ℤ) = (keptMagnitude m : ℤ) := by
  rcases Nat.eq_zero_or_pos m with rfl | hpos
  · decide
  unfold compactTarget
  rw [getCompact_natCast hpos.ne', setCompact_ofNat hsize (headWord_lt m)]
  unfold keptMagnitude headWord
  rcases Nat.lt_or_ge 3 (compactSize m) with hbig | hsmall
  · rw [if_neg (by omega), if_neg (by omega)]
  · rw [if_pos hsmall, if_pos hsmall, Nat.mul_div_cancel _ (by positivity),
      show compactSize m - 3 = 0 by omega, pow_zero, Nat.div_one, Nat.mul_one]

theorem compactSize_le_iff {m k : ℕ} (hk : 0 < k) : compactSize m ≤ k ↔ m < 2 ^ (8 * k - 1) := by
  rcases Nat.eq_zero_or_pos m with rfl | hpos
  · exact ⟨fun _ => by positivity, fun _ => hk⟩
  · rw [← Nat.log2_lt hpos.ne']
    unfold compactSize
    omega

theorem compactTarget_natCast {m : ℕ} (hm : m < 2 ^ 256) :
    compactTarget (m : ℤ) = (keptMagnitude m : ℤ) := by
  have hsize := compactSize_mono hm.le
  have hlog : (2 ^ 256).log2 = 256 := Nat.log2_two_pow
  unfold compactSize at hsize
  rw [hlog] at hsize
  apply compactTarget_of_compactSize
  unfold compactSize
  omega

theorem compactTarget_eq (hn : 0 ≤ n) (hbound : n < 2 ^ 256) :
    compactTarget n = (keptMagnitude n.toNat : ℤ) := by
  have hm : n.toNat < 2 ^ 256 := by
    omega
  calc compactTarget n = compactTarget (n.toNat : ℤ) := by rw [Int.toNat_of_nonneg hn]
    _ = (keptMagnitude n.toNat : ℤ) := compactTarget_natCast hm

theorem compactTarget_le (hn : 0 ≤ n) (hbound : n < 2 ^ 256) : compactTarget n ≤ n := by
  have hle := keptMagnitude_le n.toNat
  rw [compactTarget_eq hn hbound]
  omega

theorem compactTarget_pos (hn : 0 < n) (hbound : n < 2 ^ 256) : 0 < compactTarget n := by
  have hpos := keptMagnitude_pos (show 0 < n.toNat by omega)
  rw [compactTarget_eq hn.le hbound]
  omega

theorem compactTarget_mono (hm : 0 ≤ m) (h : m ≤ n) (hbound : n < 2 ^ 256) :
    compactTarget m ≤ compactTarget n := by
  have hle := keptMagnitude_mono (show m.toNat ≤ n.toNat by omega)
  rw [compactTarget_eq hm (lt_of_le_of_lt h hbound), compactTarget_eq (hm.trans h) hbound]
  omega

end

/-! ## Numbers of every size -/

theorem keptMagnitude_two_pow (j : ℕ) : keptMagnitude (2 ^ j) = 2 ^ j := by
  have hlog : (2 ^ j).log2 = j := Nat.log2_two_pow
  have hle : 8 * (compactSize (2 ^ j) - 3) ≤ j := by
    unfold compactSize
    omega
  unfold keptMagnitude
  rw [pow_256]
  exact Nat.div_mul_cancel (Nat.pow_dvd_pow 2 hle)

theorem compactSize_keptMagnitude (m : ℕ) : compactSize (keptMagnitude m) = compactSize m := by
  apply le_antisymm (compactSize_mono (keptMagnitude_le m))
  by_contra hlt
  have hone : 1 ≤ compactSize m := Nat.le_add_left _ _
  have htwo : 1 ≤ compactSize (keptMagnitude m) := Nat.le_add_left _ _
  -- The least number of the size of `m` keeps its only bit.
  have hk : 0 < compactSize m - 1 := by omega
  have hlow : 2 ^ (8 * (compactSize m - 1) - 1) ≤ m := by
    by_contra hsmall
    have hsize := (compactSize_le_iff hk).mpr (not_le.mp hsmall)
    omega
  have hkept := keptMagnitude_mono hlow
  rw [keptMagnitude_two_pow] at hkept
  have hsize := (compactSize_le_iff hk).mp (show compactSize (keptMagnitude m) ≤ _ by omega)
  omega

theorem headWord_keptMagnitude (m : ℕ) : headWord (keptMagnitude m) = headWord m := by
  unfold headWord
  rw [compactSize_keptMagnitude]
  unfold keptMagnitude
  split_ifs with hsmall
  · rw [show compactSize m - 3 = 0 by omega, pow_zero, Nat.div_one, Nat.mul_one]
  · rw [Nat.mul_div_cancel _ (by positivity)]

theorem getCompact_keptMagnitude (m : ℕ) : GetCompact (keptMagnitude m) = GetCompact m := by
  rcases Nat.eq_zero_or_pos m with rfl | hpos
  · rfl
  · rw [getCompact_natCast (keptMagnitude_pos hpos).ne', getCompact_natCast hpos.ne',
      compactSize_keptMagnitude, headWord_keptMagnitude]

/-- The first number that needs more bytes than the first byte of a compact form counts. -/
def compactLimit : ℕ := 2 ^ (8 * 255 - 1)

theorem setCompact_lt (nCompact : UInt32) : SetCompact nCompact < (compactLimit : ℤ) := by
  have hlt := nCompact.toNat_lt
  have hword : nCompact.toNat % 2 ^ 23 < 2 ^ 23 := Nat.mod_lt _ (by decide)
  have hsize : nCompact.toNat / 2 ^ 24 ≤ 255 := by omega
  have hsmall : nCompact.toNat % 2 ^ 23 / 256 ^ (3 - nCompact.toNat / 2 ^ 24) < compactLimit :=
    calc nCompact.toNat % 2 ^ 23 / 256 ^ (3 - nCompact.toNat / 2 ^ 24)
        ≤ nCompact.toNat % 2 ^ 23 := Nat.div_le_self _ _
      _ < 2 ^ 23 := hword
      _ ≤ compactLimit := by
          unfold compactLimit
          exact pow_le_pow_right₀ one_le_two (by decide)
  have hlarge : nCompact.toNat % 2 ^ 23 * 256 ^ (nCompact.toNat / 2 ^ 24 - 3) < compactLimit :=
    calc nCompact.toNat % 2 ^ 23 * 256 ^ (nCompact.toNat / 2 ^ 24 - 3)
        < 2 ^ 23 * 256 ^ (nCompact.toNat / 2 ^ 24 - 3) :=
          Nat.mul_lt_mul_of_pos_right hword (by positivity)
      _ ≤ 2 ^ 23 * 2 ^ (8 * 252) := by
          rw [pow_256]
          exact Nat.mul_le_mul_left _ (pow_le_pow_right₀ one_le_two (by omega))
      _ = compactLimit := by
          unfold compactLimit
          rw [← pow_add, show 23 + 8 * 252 = 8 * 255 - 1 by decide]
  have hmag : (if nCompact.toNat / 2 ^ 24 ≤ 3
        then nCompact.toNat % 2 ^ 23 / 256 ^ (3 - nCompact.toNat / 2 ^ 24)
        else nCompact.toNat % 2 ^ 23 * 256 ^ (nCompact.toNat / 2 ^ 24 - 3)) < compactLimit := by
    split_ifs
    · exact hsmall
    · exact hlarge
  unfold SetCompact
  dsimp only
  generalize (if nCompact.toNat / 2 ^ 24 ≤ 3
    then nCompact.toNat % 2 ^ 23 / 256 ^ (3 - nCompact.toNat / 2 ^ 24)
    else nCompact.toNat % 2 ^ 23 * 256 ^ (nCompact.toNat / 2 ^ 24 - 3)) = magnitude at hmag ⊢
  split_ifs <;> omega

theorem compactTarget_lt_keptMagnitude {m : ℕ} (hm : compactLimit ≤ m) :
    compactTarget (m : ℤ) < (keptMagnitude m : ℤ) := by
  have hkept := keptMagnitude_mono hm
  have hlim : keptMagnitude compactLimit = compactLimit := keptMagnitude_two_pow _
  have hlt : compactTarget (m : ℤ) < (compactLimit : ℤ) := setCompact_lt _
  omega

end ZalemCoin.Chain
