import ZalemCoin.Wallet.WalletFormat

/-!
# Amounts as texts

`ParseMoney` reads the digits before the point into a string and those behind it into a sum whose
multiplier shrinks to zero. Every operation on 64 bits is checked here, so that a text on which one of
them overflowed would have no result at all; there is none.
-/

namespace ZalemCoin.Wallet

open Chain Lib Storage
open List (append_assoc mem_cons_self length_cons nil_append)

/-! ## `FormatMoney` and `ParseMoney` -/

/-- A result of 64 bits, unless it overflows. -/
def fit64 (n : ℤ) : Option ℤ := if -2 ^ 63 ≤ n ∧ n < 2 ^ 63 then some n else none

/-- The digits of a number with zeros before them, eight at least. -/
def paddedDigits (k : ℕ) : List UInt8 := List.replicate (8 - (digitBytes k).length) 48 ++ digitBytes k

/-- Takes zeros off the end of a text, which comes first here, while there is a digit two places before. -/
def trimZeros : List UInt8 → List UInt8
  | c2 :: c1 :: c0 :: str =>
    if c2 = 48 ∧ isDigit c0 then trimZeros (c1 :: c0 :: str) else c2 :: c1 :: c0 :: str
  | str => str

/-- The text of an amount, whose absolute value has 64 bits. -/
def FormatMoney (n : ℤ) (fPlus : Bool) : List UInt8 :=
  let n_abs := if n > 0 then n else -n
  let quotient := n_abs / COIN
  let remainder := n_abs % COIN
  let str := (trimZeros (i64tostr quotient ++ 46 :: paddedDigits remainder.toNat).reverse).reverse
  if n < 0 then 45 :: str else if fPlus ∧ n > 0 then 43 :: str else str

/-- The loop over the digits behind the point. -/
def fractionLoop : List UInt8 → ℤ → ℤ → Option (ℤ × List UInt8)
  | [], _, nUnits => some (nUnits, [])
  | b :: p, nMult, nUnits =>
    if isDigit b ∧ nMult > 0 then
      (fit64 (nMult * (b.toNat - 48))).bind fun product =>
        (fit64 (nUnits + product)).bind fun nUnits => fractionLoop p (nMult / 10) nUnits
    else some (nUnits, b :: p)

/-- The loop over the text, with the digits before the point, what is behind it, and the rest of the
text. It refuses a character that is none of an amount. -/
def wholeLoop : List UInt8 → List UInt8 → Option (Option (List UInt8 × ℤ × List UInt8))
  | [], strWhole => some (some (strWhole, 0, []))
  | b :: p, strWhole =>
    if b = 46 then
      (fractionLoop p (CENT * 10) 0).map fun result => some (strWhole, result)
    else if isSpace b then some (some (strWhole, 0, b :: p))
    else if isDigit b = false then some none
    else wholeLoop p (strWhole ++ [b])

/-- What follows the loop. -/
def finishMoney : Option (List UInt8 × ℤ × List UInt8) → Option (Option ℤ)
  | none => some none
  | some (strWhole, nUnits, p) =>
    if p.all isSpace = false then some none
    else if 10 < strWhole.length then some none
    else if nUnits < 0 ∨ COIN < nUnits then some none
    else
      (fit64 (atoi64 strWhole * COIN)).bind fun product => (fit64 (product + nUnits)).map some

/-- What a string has for a function that takes it as one that a zero byte ends. -/
def c_str (str : List UInt8) : List UInt8 := str.takeWhile (· ≠ 0)

/-- Reads an amount. There is no result after an overflow, and no amount when the text is refused. -/
def ParseMoney (str : List UInt8) : Option (Option ℤ) :=
  (wholeLoop ((c_str str).dropWhile isSpace) []).bind finishMoney

/-! ## Decimal values -/

/-- The number that digits stand for. -/
def decimal (ds : List UInt8) : ℕ := ds.foldl (fun n b => 10 * n + (b.toNat - 48)) 0

/-- Digits, perhaps a point and more digits, between white space. -/
structure IsMoney (s whole fraction : List UInt8) : Prop where
  whole_digits : ∀ b ∈ whole, isDigit b = true
  fraction_digits : ∀ b ∈ fraction, isDigit b = true
  whole_few : whole.length ≤ 10
  fraction_few : fraction.length ≤ 8
  parts : ∃ before point after, (∀ b ∈ before, isSpace b = true) ∧ (∀ b ∈ after, isSpace b = true) ∧
    (point = [46] ∨ point = [] ∧ fraction = []) ∧ s = before ++ (whole ++ (point ++ (fraction ++ after)))

variable {ds s whole fraction : List UInt8}

theorem decimal_append (ds ds' : List UInt8) :
    decimal (ds ++ ds') = decimal ds * 10 ^ ds'.length + decimal ds' := by
  induction ds' using List.reverseRecOn with
  | nil => simp [decimal]
  | append_singleton ds' b ih =>
    have hlast : ∀ l : List UInt8, decimal (l ++ [b]) = 10 * decimal l + (b.toNat - 48) := by
      intro l
      unfold decimal
      rw [List.foldl_append]
      rfl
    rw [← append_assoc, hlast, hlast, ih, List.length_append, List.length_singleton, pow_succ]
    ring

theorem decimal_replicate (j : ℕ) : decimal (List.replicate j 48) = 0 := by
  induction j with
  | zero => rfl
  | succ j ih =>
    rw [List.replicate_succ', decimal_append, ih]
    rfl

theorem digit_bounds {b : UInt8} (h : isDigit b = true) : 48 ≤ b.toNat ∧ b.toNat ≤ 57 := by
  rw [isDigit, Bool.and_eq_true, decide_eq_true_eq, decide_eq_true_eq] at h
  exact ⟨UInt8.le_iff_toNat_le.mp h.1, UInt8.le_iff_toNat_le.mp h.2⟩

theorem decimal_cons (b : UInt8) (ds : List UInt8) :
    decimal (b :: ds) = (b.toNat - 48) * 10 ^ ds.length + decimal ds := by
  rw [← List.singleton_append, decimal_append]
  simp [decimal]

theorem decimal_lt (h : ∀ b ∈ ds, isDigit b = true) : decimal ds < 10 ^ ds.length := by
  induction ds with
  | nil => exact Nat.one_pos
  | cons b ds ih =>
    obtain ⟨-, hhigh⟩ := digit_bounds (h b mem_cons_self)
    have hrest := ih fun c hc => h c (List.mem_cons_of_mem _ hc)
    have hfst : (b.toNat - 48) * 10 ^ ds.length ≤ 9 * 10 ^ ds.length :=
      Nat.mul_le_mul_right _ (by omega)
    rw [decimal_cons, length_cons, pow_succ]
    omega

theorem leadingDigits_eq (h : ∀ b ∈ ds, isDigit b = true) : leadingDigits ds = decimal ds := by
  unfold leadingDigits
  rw [List.takeWhile_eq_self_iff.mpr h]
  rfl

theorem decimal_digitBytes (k : ℕ) : decimal (digitBytes k) = k := by
  rw [← leadingDigits_eq isDigit_digitBytes, leadingDigits_digitBytes]

/-! ## The loops -/

theorem fit64_eq {n : ℤ} (hlow : 0 ≤ n) (hhigh : n ≤ 10 ^ 18) : fit64 n = some n :=
  if_pos (by omega)

/-- The digits behind the point are read with falling weights. -/
theorem fractionLoop_eq (h : ∀ b ∈ ds, isDigit b = true) {k : ℕ} (hk : ds.length ≤ k)
    {rest : List UInt8} (hstop : ds.length = k ∨ ∀ b ∈ rest.head?, isDigit b = false) {nUnits : ℕ}
    (hunits : nUnits + 10 ^ k ≤ 10 ^ 8) : fractionLoop (ds ++ rest) (10 ^ k / 10) nUnits
      = some (((nUnits + decimal ds * 10 ^ (k - ds.length) : ℕ) : ℤ), rest) := by
  induction ds generalizing k nUnits with
  | nil =>
    have hval : nUnits + decimal [] * 10 ^ (k - 0) = nUnits := by simp [decimal]
    rw [nil_append, List.length_nil, hval]
    cases rest with
    | nil => rfl
    | cons b rest =>
      unfold fractionLoop
      rw [if_neg]
      rintro ⟨hdigit, hmult⟩
      rcases hstop with hzero | hstop
      · rw [← hzero] at hmult
        exact absurd hmult (by decide)
      · rw [hstop b rfl] at hdigit
        cases hdigit
  | cons b ds ih =>
    obtain ⟨k, rfl⟩ : ∃ j, k = j + 1 := ⟨k - 1, by rw [length_cons] at hk; omega⟩
    rw [length_cons] at hk hstop
    obtain ⟨hlow, hhigh⟩ := digit_bounds (h b mem_cons_self)
    have hmult : (10 : ℤ) ^ (k + 1) / 10 = (10 ^ k : ℕ) := by
      rw [pow_succ, Int.mul_ediv_cancel _ (by decide)]
      norm_cast
    have hpos : 0 < 10 ^ k := Nat.pow_pos (by decide)
    have hproduct : 10 ^ k * (b.toNat - 48) ≤ 10 ^ k * 9 := Nat.mul_le_mul_left _ (by omega)
    have hcast : ((10 ^ k : ℕ) : ℤ) * (b.toNat - 48) = ((10 ^ k * (b.toNat - 48) : ℕ) : ℤ) := by
      push_cast [hlow]
      ring
    rw [pow_succ] at hunits
    have hnext := @ih (fun c hc => h c (List.mem_cons_of_mem _ hc)) k (by omega)
      (hstop.imp_left Nat.succ.inj) (nUnits + 10 ^ k * (b.toNat - 48)) (by omega)
    have hdiv : ((10 ^ k : ℕ) : ℤ) / 10 = 10 ^ k / 10 := by rw [Nat.cast_pow, Nat.cast_ofNat]
    have hval : nUnits + ((b.toNat - 48) * 10 ^ ds.length + decimal ds) * 10 ^ (k - ds.length)
        = nUnits + 10 ^ k * (b.toNat - 48) + decimal ds * 10 ^ (k - ds.length) := by
      have hsplit : 10 ^ k = 10 ^ ds.length * 10 ^ (k - ds.length) := by
        rw [← pow_add, Nat.add_sub_cancel' (by omega)]
      rw [hsplit]
      ring
    rw [hmult, List.cons_append]
    unfold fractionLoop
    rw [if_pos ⟨h b mem_cons_self, by omega⟩, hcast, fit64_eq (by omega) (by omega),
      Option.bind_some, ← Nat.cast_add, fit64_eq (by omega) (by omega), Option.bind_some, hdiv, hnext,
      decimal_cons, length_cons, Nat.add_sub_add_right, hval]

theorem wholeLoop_digits (h : ∀ b ∈ ds, isDigit b = true) (rest strWhole : List UInt8) :
    wholeLoop (ds ++ rest) strWhole = wholeLoop rest (strWhole ++ ds) := by
  induction ds generalizing strWhole with
  | nil => rw [List.append_nil, nil_append]
  | cons b ds ih =>
    have hdigit := h b mem_cons_self
    have hdot : b ≠ 46 := by
      rintro rfl
      exact absurd hdigit (by decide)
    rw [List.cons_append, wholeLoop, if_neg hdot, (isDigit_cases hdigit).1, hdigit]
    have hrest := ih (fun c hc => h c (List.mem_cons_of_mem _ hc)) (strWhole ++ [b])
    rwa [append_assoc] at hrest

theorem finishMoney_eq (hdigs : ∀ b ∈ whole, isDigit b = true) (hfew : whole.length ≤ 10)
    {after : List UInt8} (haft : ∀ b ∈ after, isSpace b = true) {nUnits : ℕ}
    (hunits : nUnits < 10 ^ 8) :
    finishMoney (some (whole, (nUnits : ℤ), after)) = some (some (decimal whole * COIN + nUnits)) := by
  have hcoin : COIN = 100000000 := rfl
  have hwhole := (decimal_lt hdigs).trans_le (Nat.pow_le_pow_right (by decide) hfew)
  have hval : atoi64 whole = decimal whole := by
    rw [atoi64_digits hdigs, leadingDigits_eq hdigs]
    omega
  have hproduct : 0 ≤ (decimal whole : ℤ) * COIN ∧ (decimal whole : ℤ) * COIN ≤ 10 ^ 18 - COIN := by
    rw [hcoin]
    omega
  unfold finishMoney
  dsimp only
  rw [List.all_eq_true.mpr haft, if_neg Bool.true_eq_false.mp, if_neg (by omega), if_neg (by omega),
    hval, fit64_eq (by omega) (by omega), Option.bind_some, fit64_eq (by omega) (by omega),
    Option.map_some]

theorem not_isDigit_of_isSpace {b : UInt8} (h : isSpace b = true) : isDigit b = false ∧ b ≠ 46 := by
  constructor
  · by_contra hdigit
    rw [(isDigit_cases (Bool.eq_true_of_not_eq_false hdigit)).1] at h
    cases h
  · rintro rfl
    exact absurd h (by decide)

/-! ## Acceptance -/

theorem parseMoney_of_isMoney (h : IsMoney (c_str s) whole fraction) : ParseMoney s
    = some (some (decimal whole * COIN + (decimal fraction * 10 ^ (8 - fraction.length) : ℕ))) := by
  obtain ⟨before, point, after, hbef, haft, hpoint, hparts⟩ := h.parts
  have hunits : decimal fraction * 10 ^ (8 - fraction.length) < 10 ^ 8 := by
    have hlt := decimal_lt h.fraction_digits
    calc decimal fraction * 10 ^ (8 - fraction.length)
        < 10 ^ fraction.length * 10 ^ (8 - fraction.length) :=
          Nat.mul_lt_mul_of_pos_right hlt (Nat.pow_pos (by decide))
      _ = 10 ^ 8 := by rw [← pow_add, Nat.add_sub_cancel' h.fraction_few]
  have hspaces : ∀ {l : List UInt8}, (∀ b ∈ l, isSpace b = true) → ∀ b ∈ l.head?, isDigit b = false :=
    fun hl b hb => (not_isDigit_of_isSpace (hl b (List.mem_of_mem_head? hb))).1
  -- the loop over what is left of the white space at the end
  have hend : ∀ (l : List UInt8), (∀ b ∈ l, isSpace b = true) →
      wholeLoop (point ++ (fraction ++ l)) whole
        = some (some (whole, ((decimal fraction * 10 ^ (8 - fraction.length) : ℕ) : ℤ), l)) := by
    intro l hl
    rcases hpoint with rfl | ⟨rfl, rfl⟩
    · have hloop := @fractionLoop_eq fraction h.fraction_digits 8 h.fraction_few l
        (.inr (hspaces hl)) 0 (by decide)
      have hcent : CENT * 10 = 10 ^ 8 / 10 := by decide
      rw [Nat.zero_add, ← hcent] at hloop
      rw [List.singleton_append, wholeLoop, if_pos rfl]
      exact congrArg (Option.map _) hloop
    · cases l with
      | nil => rfl
      | cons b l =>
        have hspace := hl b mem_cons_self
        have hdot := (not_isDigit_of_isSpace hspace).2
        rw [nil_append, nil_append, wholeLoop, if_neg hdot, if_pos hspace]
        rfl
  have hdrop : ∃ l : List UInt8, (∀ b ∈ l, isSpace b = true) ∧
      (c_str s).dropWhile isSpace = whole ++ (point ++ (fraction ++ l)) := by
    rw [hparts, List.dropWhile_append_of_pos hbef]
    have hkept : ∀ (b : UInt8) (l : List UInt8), isSpace b = false →
        (b :: l).dropWhile isSpace = b :: l := fun b l hb =>
      List.dropWhile_cons_of_neg (by rw [hb]; exact Bool.false_ne_true)
    cases hwhole : whole with
    | cons b ds =>
      have hdigit := h.whole_digits b (by rw [hwhole]; exact mem_cons_self)
      exact ⟨after, haft, hkept _ _ (isDigit_cases hdigit).1⟩
    | nil =>
      rcases hpoint with rfl | ⟨rfl, rfl⟩
      · exact ⟨after, haft, hkept _ _ (by decide)⟩
      · exact ⟨[], by simp, by simpa using haft⟩
  obtain ⟨l, hl, hdrop⟩ := hdrop
  unfold ParseMoney
  rw [hdrop, wholeLoop_digits h.whole_digits, nil_append, hend l hl, Option.bind_some,
    finishMoney_eq h.whole_digits h.whole_few hl hunits]

theorem finishMoney_none {nUnits : ℤ} {rest : List UInt8}
    (h : ¬((∀ b ∈ rest, isSpace b = true) ∧ whole.length ≤ 10)) :
    finishMoney (some (whole, nUnits, rest)) = some none := by
  unfold finishMoney
  dsimp only
  by_cases hall : rest.all isSpace = true
  · rw [if_neg (by rw [hall]; exact Bool.true_eq_false.mp), if_pos]
    exact Nat.lt_of_not_le fun hfew => h ⟨List.all_eq_true.mp hall, hfew⟩
  · rw [if_pos (Bool.eq_false_of_not_eq_true hall)]

theorem parseMoney_cases (s : List UInt8) :
    ParseMoney s = some none ∨ ∃ whole fraction, IsMoney (c_str s) whole fraction := by
  set p := (c_str s).dropWhile isSpace with hp
  set whole := p.takeWhile isDigit with hwhole
  have hdigs : ∀ b ∈ whole, isDigit b = true := fun b hb => List.mem_takeWhile_imp hb
  have hsplit : c_str s = (c_str s).takeWhile isSpace ++ (whole ++ p.dropWhile isDigit) := by
    rw [List.takeWhile_append_dropWhile, hp, List.takeWhile_append_dropWhile]
  have hloop : wholeLoop p [] = wholeLoop (p.dropWhile isDigit) whole := by
    have hdone := wholeLoop_digits hdigs (p.dropWhile isDigit) []
    rwa [List.takeWhile_append_dropWhile, nil_append] at hdone
  have hparse : ParseMoney s = (wholeLoop (p.dropWhile isDigit) whole).bind finishMoney := by
    rw [← hloop]
    rfl
  -- with the rest of the text that the loop leaves
  have hmoney : ∀ (point fraction rest : List UInt8),
      (∀ b ∈ fraction, isDigit b = true) → fraction.length ≤ 8 →
      (point = [46] ∨ point = [] ∧ fraction = []) →
      p.dropWhile isDigit = point ++ (fraction ++ rest) →
      (∃ nUnits, wholeLoop (p.dropWhile isDigit) whole = some (some (whole, nUnits, rest))) →
      ParseMoney s = some none ∨ ∃ whole fraction, IsMoney (c_str s) whole fraction := by
    rintro point fraction rest hfraction hfew hpoint htail ⟨nUnits, hread⟩
    by_cases hgood : (∀ b ∈ rest, isSpace b = true) ∧ whole.length ≤ 10
    · rw [htail] at hsplit
      exact .inr ⟨whole, fraction, hdigs, hfraction, hgood.2, hfew, _, point, rest,
        fun b hb => List.mem_takeWhile_imp hb, hgood.1, hpoint, hsplit⟩
    · rw [hparse, hread, Option.bind_some, finishMoney_none hgood]
      exact .inl rfl
  cases htail : p.dropWhile isDigit with
  | nil =>
    refine hmoney [] [] [] (by simp) (by decide) (.inr ⟨rfl, rfl⟩) htail ⟨0, ?_⟩
    rw [htail]
    rfl
  | cons b t =>
    by_cases hdot : b = 46
    · subst hdot
      -- the digits that the loop takes, eight at most
      obtain ⟨ds, rest, rfl, hall, hfew, hstop⟩ : ∃ ds rest, t = ds ++ rest ∧
          (∀ b ∈ ds, isDigit b = true) ∧ ds.length ≤ 8 ∧
          (ds.length = 8 ∨ ∀ b ∈ rest.head?, isDigit b = false) := by
        by_cases hlong : 8 ≤ (t.takeWhile isDigit).length
        · refine ⟨(t.takeWhile isDigit).take 8, (t.takeWhile isDigit).drop 8 ++ t.dropWhile isDigit, ?_,
            fun b hb => List.mem_takeWhile_imp (List.mem_of_mem_take hb), List.length_take_le _ _,
            .inl (List.length_take_of_le hlong)⟩
          rw [← append_assoc, List.take_append_drop, List.takeWhile_append_dropWhile]
        · refine ⟨t.takeWhile isDigit, t.dropWhile isDigit, List.takeWhile_append_dropWhile.symm,
            fun b hb => List.mem_takeWhile_imp hb, by omega, .inr fun b hb => ?_⟩
          have hhead := List.head?_dropWhile_not isDigit t
          rwa [Option.mem_def.mp hb] at hhead
      have hcent : CENT * 10 = 10 ^ 8 / 10 := by decide
      have hread := @fractionLoop_eq ds hall 8 hfew rest hstop 0 (by decide)
      apply hmoney [46] ds rest hall hfew (.inl rfl) htail
      rw [htail, wholeLoop, if_pos rfl, hcent]
      exact ⟨_, congrArg (Option.map _) hread⟩
    · have hdigit : isDigit b = false := by
        have hhead := List.head?_dropWhile_not isDigit p
        rwa [htail] at hhead
      by_cases hspace : isSpace b = true
      · refine hmoney [] [] (b :: t) (by simp) (by decide) (.inr ⟨rfl, rfl⟩) htail ⟨0, ?_⟩
        rw [htail, wholeLoop, if_neg hdot, if_pos hspace]
      · left
        rw [hparse, htail, wholeLoop, if_neg hdot, if_neg hspace, if_pos hdigit]
        rfl

/-! ## Round trips -/

theorem trimZeros_digits (c2 c1 : UInt8) (ds t : List UInt8)
    (h : ∀ b ∈ c2 :: c1 :: ds, isDigit b = true) : ∃ j kept,
    c2 :: c1 :: ds = List.replicate j 48 ++ kept ∧
      trimZeros (c2 :: c1 :: (ds ++ 46 :: t)) = kept ++ 46 :: t := by
  induction ds generalizing c2 c1 with
  | nil =>
    refine ⟨0, [c2, c1], rfl, ?_⟩
    rw [nil_append, trimZeros, if_neg fun hand => absurd hand.2 (by decide)]
    rfl
  | cons c0 ds ih =>
    rw [List.cons_append, trimZeros]
    split
    · rename_i hzero
      obtain ⟨j, kept, hkept, htrim⟩ := ih c1 c0 fun b hb => h b (List.mem_cons_of_mem _ hb)
      refine ⟨j + 1, kept, ?_, htrim⟩
      rw [hzero.1, hkept]
      rfl
    · exact ⟨0, c2 :: c1 :: c0 :: ds, rfl, rfl⟩

theorem length_digitBytes {k j : ℕ} (hj : 0 < j) (h : k < 10 ^ j) : (digitBytes k).length ≤ j := by
  unfold digitBytes
  rw [List.length_map]
  exact (Nat.length_toDigits_le_iff (by decide) hj).mpr h

/-- The text of an amount: the coins, a point and the digits of the rest. -/
theorem formatMoney_eq (q r : ℕ) (hr : r < 10 ^ 8) : ∃ fraction,
    FormatMoney (q * COIN + r) false = digitBytes q ++ ([46] ++ (fraction ++ [])) ∧
      (∀ b ∈ fraction, isDigit b = true) ∧ fraction.length ≤ 8 ∧
      decimal fraction * 10 ^ (8 - fraction.length) = r := by
  have hcoin : COIN = 100000000 := rfl
  have hfew := length_digitBytes (by decide) hr
  have hlength : (paddedDigits r).length = 8 := by
    unfold paddedDigits
    rw [List.length_append, List.length_replicate]
    omega
  have hdigs : ∀ b ∈ paddedDigits r, isDigit b = true := by
    intro b hb
    rcases List.mem_append.mp hb with hb | hb
    · rw [List.eq_of_mem_replicate hb]
      decide
    · exact isDigit_digitBytes b hb
  have hval : decimal (paddedDigits r) = r := by
    unfold paddedDigits
    rw [decimal_append, decimal_replicate, decimal_digitBytes, Nat.zero_mul, Nat.zero_add]
  obtain ⟨j, kept, hkept, htrim⟩ : ∃ j kept, (paddedDigits r).reverse = List.replicate j 48 ++ kept ∧
      trimZeros ((paddedDigits r).reverse ++ 46 :: (digitBytes q).reverse)
        = kept ++ 46 :: (digitBytes q).reverse := by
    obtain ⟨c2, c1, ds, hlist⟩ : ∃ c2 c1 ds, (paddedDigits r).reverse = c2 :: c1 :: ds := by
      rcases hrev : (paddedDigits r).reverse with _ | ⟨c2, _ | ⟨c1, ds⟩⟩
      all_goals
        have hlen := congrArg List.length hrev
        rw [List.length_reverse, hlength] at hlen
      · simp at hlen
      · simp at hlen
      · exact ⟨c2, c1, ds, rfl⟩
    rw [hlist]
    apply trimZeros_digits
    rw [← hlist]
    exact fun b hb => hdigs b (List.mem_reverse.mp hb)
  have hpadded : paddedDigits r = kept.reverse ++ List.replicate j 48 := by
    rw [← List.reverse_reverse (paddedDigits r), hkept, List.reverse_append, List.reverse_replicate]
  have hcnt : kept.reverse.length + j = 8 := by
    rw [hpadded, List.length_append, List.length_replicate] at hlength
    exact hlength
  refine ⟨kept.reverse, ?_, ?_, by omega, ?_⟩
  · have habs : (if (q * COIN + r : ℤ) > 0 then (q * COIN + r : ℤ) else -(q * COIN + r)) = q * COIN + r := by
      rw [hcoin]
      split <;> omega
    have hparts : (q * COIN + r : ℤ) / COIN = q ∧ (q * COIN + r : ℤ) % COIN = r ∧
        ¬(q * COIN + r : ℤ) < 0 := by
      rw [hcoin]
      omega
    obtain ⟨hquotient, hremainder, hpos⟩ := hparts
    unfold FormatMoney
    dsimp only
    rw [habs, hquotient, hremainder, if_neg hpos, if_neg fun hand => Bool.false_ne_true hand.1,
      i64tostr_eq, if_neg (by omega), Int.natAbs_natCast, Int.toNat_natCast, nil_append,
      List.reverse_append, List.reverse_cons, append_assoc, List.singleton_append, htrim,
      List.reverse_append, List.reverse_cons, List.reverse_reverse, List.append_nil, append_assoc]
  · intro b hb
    exact hdigs b (by rw [hpadded]; exact List.mem_append_left _ hb)
  · rw [hpadded, decimal_append, decimal_replicate, Nat.add_zero, List.length_replicate] at hval
    rwa [← hcnt, Nat.add_sub_cancel_left]

/-- An amount is read back from its text. A text is accepted exactly when it is, up to its first zero
byte, an amount between white space, its value is the one of its digits, and no text leads to an
overflow. -/
theorem parseMoney_exact :
    (∀ n : ℤ, 0 ≤ n → n < 10 ^ 10 * COIN → ParseMoney (FormatMoney n false) = some (some n)) ∧
    (∀ s, ParseMoney s ≠ none) ∧
    ∀ s v, ParseMoney s = some (some v) ↔ ∃ whole fraction, IsMoney (c_str s) whole fraction ∧
      v = decimal whole * COIN + (decimal fraction * 10 ^ (8 - fraction.length) : ℕ) := by
  have hcoin : COIN = 100000000 := rfl
  refine ⟨?_, ?_, ?_⟩
  · intro n hlow hhigh
    obtain ⟨q, r, hq, hr, rfl⟩ : ∃ q r : ℕ, q < 10 ^ 10 ∧ r < 10 ^ 8 ∧ n = q * COIN + r := by
      refine ⟨(n / COIN).toNat, (n % COIN).toNat, ?_⟩
      rw [hcoin]
      omega
    obtain ⟨fraction, htext, hdigits, hfew, hvalue⟩ := formatMoney_eq q r hr
    have hwhole := length_digitBytes (by decide) hq
    have hstr : c_str (FormatMoney (q * COIN + r) false) = FormatMoney (q * COIN + r) false := by
      refine List.takeWhile_eq_self_iff.mpr fun b hb => decide_eq_true ?_
      rintro rfl
      rw [htext, List.append_nil, List.mem_append, List.singleton_append, List.mem_cons] at hb
      rcases hb with hb | hb | hb
      · exact absurd (isDigit_digitBytes 0 hb) (by decide)
      · exact absurd hb (by decide)
      · exact absurd (hdigits 0 hb) (by decide)
    have hmoney : IsMoney (c_str (FormatMoney (q * COIN + r) false)) (digitBytes q) fraction :=
      ⟨isDigit_digitBytes, hdigits, hwhole, hfew, [], [46], [], by simp, by simp, Or.inl rfl,
        hstr.trans htext⟩
    rw [parseMoney_of_isMoney hmoney, hvalue, decimal_digitBytes]
  · intro s hnone
    rcases parseMoney_cases s with hrefused | ⟨whole, fraction, hmoney⟩
    · rw [hnone] at hrefused
      simp at hrefused
    · rw [parseMoney_of_isMoney hmoney] at hnone
      simp at hnone
  · intro s v
    constructor
    · intro hparse
      rcases parseMoney_cases s with hrefused | ⟨whole, fraction, hmoney⟩
      · rw [hparse] at hrefused
        simp at hrefused
      · rw [parseMoney_of_isMoney hmoney] at hparse
        exact ⟨whole, fraction, hmoney, (Option.some.inj (Option.some.inj hparse)).symm⟩
    · rintro ⟨whole, fraction, hmoney, rfl⟩
      exact parseMoney_of_isMoney hmoney

/-- What stands behind a zero byte is not read. -/
theorem hidden_tail_accepted : ¬ ∀ s v, ParseMoney s = some (some v) →
    ∃ whole fraction, IsMoney s whole fraction := by
  intro h
  obtain ⟨whole, fraction, hmoney⟩ := h [49, 0, 120] 100000000 (by decide)
  obtain ⟨before, point, after, hbefore, hafter, hpoint, hparts⟩ := hmoney.parts
  have hzero : (0 : UInt8) ∈ before ++ (whole ++ (point ++ (fraction ++ after))) := by
    rw [← hparts]
    decide
  simp only [List.mem_append] at hzero
  rcases hzero with hb | hb | hb | hb | hb
  · exact absurd (hbefore 0 hb) (by decide)
  · exact absurd (hmoney.whole_digits 0 hb) (by decide)
  · rcases hpoint with rfl | ⟨rfl, -⟩
    · exact absurd hb (by decide)
    · exact absurd hb (by decide)
  · exact absurd (hmoney.fraction_digits 0 hb) (by decide)
  · exact absurd (hafter 0 hb) (by decide)

end ZalemCoin.Wallet
