import Mathlib.Algebra.GroupWithZero.Nat
import Mathlib.Data.List.Basic
import Mathlib.Data.List.Induction
import Mathlib.Data.Nat.Log

/-!
# Decimal texts of integers, one after the other

The decimal texts of a list of integers, written one after the other without separators, say how
many digits they have together, which number these digits form, and after how many digits each minus
sign stands. They say nothing else: two lists have the same text exactly when these three agree. Where
one integer ends and the next one begins is lost.
-/

namespace ZalemCoin.Lib.Decimal

open Nat (ofDigitChars toDigits)

/-! ## Texts as digits and marks -/

/-- The characters of a text that are not minus signs. -/
def digits (cs : List Char) : List Char := cs.filter (· ≠ '-')

/-- For each minus sign of a text, the number of other characters before it. -/
def marks : List Char → List ℕ
  | [] => []
  | c :: cs => if c = '-' then 0 :: marks cs else (marks cs).map (· + 1)

theorem text_ext {cs cs' : List Char} (hdigs : digits cs = digits cs')
    (hmarks : marks cs = marks cs') : cs = cs' := by
  induction cs generalizing cs' with
  | nil =>
    rcases cs' with _ | ⟨c', cs'⟩
    · rfl
    · by_cases hc : c' = '-'
      · simp [marks, hc] at hmarks
      · simp [digits, hc] at hdigs
  | cons c cs ih =>
    rcases cs' with _ | ⟨c', cs'⟩
    · by_cases hc : c = '-'
      · simp [marks, hc] at hmarks
      · simp [digits, hc] at hdigs
    · by_cases hc : c = '-' <;> by_cases hc' : c' = '-'
      · simp only [marks, if_pos hc, if_pos hc', List.cons.injEq, true_and] at hmarks
        simp only [digits, List.filter_cons, hc, hc'] at hdigs
        rw [hc, hc', ih (by simpa [digits] using hdigs) hmarks]
      · -- A minus sign at the front is marked with zero, and nothing else is.
        have hzero : (0 : ℕ) ∈ marks (c' :: cs') := by
          rw [← hmarks]
          simp [marks, hc]
        simp [marks, hc'] at hzero
      · have hzero : (0 : ℕ) ∈ marks (c :: cs) := by
          rw [hmarks]
          simp [marks, hc']
        simp [marks, hc] at hzero
      · simp only [marks, if_neg hc, if_neg hc'] at hmarks
        simp only [digits, List.filter_cons, decide_eq_true hc, decide_eq_true hc', if_true,
          List.cons.injEq] at hdigs
        have hmap := List.map_injective_iff.mpr Nat.succ_injective hmarks
        rw [hdigs.1, ih hdigs.2 hmap]

theorem digits_append (cs cs' : List Char) : digits (cs ++ cs') = digits cs ++ digits cs' :=
  List.filter_append ..

theorem marks_append (cs cs' : List Char) :
    marks (cs ++ cs') = marks cs ++ (marks cs').map (· + (digits cs).length) := by
  induction cs with
  | nil => simp [marks, digits]
  | cons c cs ih =>
    by_cases hc : c = '-'
    · simp [marks, digits, hc, ih]
    · have hlen : (digits (c :: cs)).length = (digits cs).length + 1 := by simp [digits, hc]
      rw [List.cons_append, marks, if_neg hc, ih, marks, if_neg hc, hlen, List.map_append,
        List.map_map]
      congr 1

/-! ## Digits as a number -/

theorem digits_ext {l l' : List Char} (hl : ∀ c ∈ l, c.isDigit) (hl' : ∀ c ∈ l', c.isDigit)
    (hlen : l.length = l'.length) (h : ofDigitChars 10 l 0 = ofDigitChars 10 l' 0) :
    l = l' := by
  induction l using List.reverseRecOn generalizing l' with
  | nil => exact (List.length_eq_zero_iff.mp hlen.symm).symm
  | append_singleton l c ih =>
    rcases l'.eq_nil_or_concat with rfl | ⟨l', c', rfl⟩
    · simp at hlen
    · -- The last digit is the remainder by ten, and the others form the quotient.
      have hlast (c : Char) (hc : c.isDigit) : c.toNat - '0'.toNat < 10 ∧ 48 ≤ c.toNat := by
        rw [Char.isDigit_iff_toNat] at hc
        simp at hc ⊢
        omega
      have hc := hlast c (hl c (by simp))
      have hc' := hlast c' (hl' c' (by simp))
      simp only [List.concat_eq_append] at h hlen hl' ⊢
      rw [Nat.ofDigitChars_append, Nat.ofDigitChars_append, Nat.ofDigitChars_cons,
        Nat.ofDigitChars_cons, Nat.ofDigitChars_nil, Nat.ofDigitChars_nil] at h
      have hfront : ofDigitChars 10 l 0 = ofDigitChars 10 l' 0 := by omega
      have hchar : c.toNat = c'.toNat := by
        change c'.toNat - 48 < 10 ∧ _ at hc'
        change _ + (c.toNat - 48) = _ + (c'.toNat - 48) at h
        omega
      rw [Char.toNat_inj.mp hchar, ih (fun d hd => hl d (by simp [hd]))
        (fun d hd => hl' d (by simp [hd])) (by simpa using hlen) hfront]

/-! ## Decimal texts -/

/-- The text of an integer. -/
def chars (n : ℤ) : List Char := (toString n).toList

def text (ns : List ℤ) : List Char := ns.flatMap chars

def digitCount (n : ℤ) : ℕ := Nat.log 10 n.natAbs + 1

/-- The number of digits of integers together. -/
def count (ns : List ℤ) : ℕ := (ns.map digitCount).sum

/-- The number that the digits of integers form. -/
def number : List ℤ → ℕ
  | [] => 0
  | n :: ns => n.natAbs * 10 ^ count ns + number ns

/-- For each negative one of some integers, the number of digits before it. -/
def signs : List ℤ → List ℕ
  | [] => []
  | n :: ns => (if n < 0 then [0] else []) ++ (signs ns).map (· + digitCount n)

/-- Integers have as many digits as other ones together, the digits form the same number, and minus
signs stand after the same numbers of digits. -/
structure SameDigits (ns ns' : List ℤ) : Prop where
  count : count ns = count ns'
  number : number ns = number ns'
  signs : signs ns = signs ns'

theorem chars_eq (n : ℤ) :
    chars n = (if n < 0 then ['-'] else []) ++ toDigits 10 n.natAbs := by
  unfold chars
  rw [Int.toString_eq_repr, Int.repr_eq_if]
  by_cases hn : n < 0
  · rw [if_neg (by omega), if_pos hn, show (-n).toNat = n.natAbs by omega]
    simp
  · rw [if_pos (by omega), if_neg hn, show n.toNat = n.natAbs by omega]
    simp

theorem length_toDigits (k : ℕ) : (toDigits 10 k).length = Nat.log 10 k + 1 := by
  have hle : (toDigits 10 k).length ≤ Nat.log 10 k + 1 :=
    (Nat.length_toDigits_le_iff (by omega) (by omega)).mpr (Nat.lt_pow_succ_log_self (by omega) k)
  have hpos : 0 < (toDigits 10 k).length := Nat.length_toDigits_pos
  by_contra hne
  have hlog : 0 < Nat.log 10 k := by omega
  -- With fewer digits, the number would be below the power of ten that it reaches.
  have hlt := (Nat.length_toDigits_le_iff (b := 10) (n := k) (by omega) hlog).mp (by omega)
  have hk : k ≠ 0 := by
    rintro rfl
    simp at hlog
  exact absurd hlt (not_lt.mpr (Nat.pow_log_le_self 10 hk))

theorem digits_toDigits (k : ℕ) : digits (toDigits 10 k) = toDigits 10 k := by
  refine List.filter_eq_self.mpr fun c hc => decide_eq_true ?_
  rintro rfl
  exact absurd (Nat.isDigit_of_mem_toDigits (by omega) (by omega) hc) (by decide)

theorem marks_toDigits (k : ℕ) : marks (toDigits 10 k) = [] := by
  have hnone (l : List Char) (hl : ∀ c ∈ l, c ≠ '-') : marks l = [] := by
    induction l with
    | nil => rfl
    | cons c l ih =>
      rw [marks, if_neg (hl c (by simp)), ih fun d hd => hl d (by simp [hd])]
      rfl
  refine hnone _ fun c hc => ?_
  rintro rfl
  exact absurd (Nat.isDigit_of_mem_toDigits (by omega) (by omega) hc) (by decide)

theorem digits_chars (n : ℤ) : digits (chars n) = toDigits 10 n.natAbs := by
  rw [chars_eq, digits_append, digits_toDigits]
  split <;> simp [digits]

theorem marks_chars (n : ℤ) : marks (chars n) = if n < 0 then [0] else [] := by
  rw [chars_eq, marks_append, marks_toDigits]
  split <;> simp [marks]

theorem digits_text (ns : List ℤ) :
    (∀ c ∈ digits (text ns), c.isDigit) ∧ (digits (text ns)).length = count ns ∧
      ofDigitChars 10 (digits (text ns)) 0 = number ns := by
  induction ns with
  | nil => simp [text, digits, count, number]
  | cons n ns ih =>
    obtain ⟨hdigit, hlen, hnum⟩ := ih
    have happ : digits (text (n :: ns)) = toDigits 10 n.natAbs ++ digits (text ns) := by
      rw [text, List.flatMap_cons, digits_append, digits_chars]
      rfl
    rw [happ]
    refine ⟨fun c hc => ?_, ?_, ?_⟩
    · rcases List.mem_append.mp hc with hc | hc
      · exact Nat.isDigit_of_mem_toDigits (by omega) (by omega) hc
      · exact hdigit c hc
    · rw [List.length_append, length_toDigits, hlen, count, count, List.map_cons, List.sum_cons]
      rfl
    · rw [Nat.ofDigitChars_append, Nat.ofDigitChars_ten_toDigits,
        Nat.ofDigitChars_eq_ofDigitChars_zero, hlen, hnum, number, Nat.mul_comm]

theorem marks_text (ns : List ℤ) : marks (text ns) = signs ns := by
  induction ns with
  | nil => rfl
  | cons n ns ih =>
    rw [text, List.flatMap_cons, marks_append, marks_chars, digits_chars, length_toDigits]
    change _ ++ (marks (text ns)).map _ = _
    rw [ih]
    rfl

theorem text_eq_iff (ns ns' : List ℤ) : text ns = text ns' ↔ SameDigits ns ns' := by
  obtain ⟨hdigit, hlen, hnumber⟩ := digits_text ns
  obtain ⟨hdigit', hlen', hnum'⟩ := digits_text ns'
  constructor
  · intro h
    exact ⟨by rw [← hlen, ← hlen', h], by rw [← hnumber, ← hnum', h],
      by rw [← marks_text, ← marks_text, h]⟩
  · rintro ⟨hcnt, hnum, hsigns⟩
    refine text_ext (digits_ext hdigit hdigit' ?_ ?_) ?_
    · rw [hlen, hlen', hcnt]
    · rw [hnumber, hnum', hnum]
    · rw [marks_text, marks_text, hsigns]

theorem chars_injective : Function.Injective chars := by
  intro n n' h
  have hdigs := congrArg (fun cs => ofDigitChars 10 (digits cs) 0) h
  have hmarks := congrArg marks h
  simp only [digits_chars, Nat.ofDigitChars_ten_toDigits, marks_chars] at hdigs hmarks
  split_ifs at hmarks <;> omega

theorem zero_mem_signs (n : ℤ) (ns : List ℤ) : 0 ∈ signs (n :: ns) ↔ n < 0 := by
  unfold signs digitCount
  by_cases hn : n < 0 <;> simp [hn]

theorem SameDigits.eq_of_digitCount {ns ns' : List ℤ} (h : SameDigits ns ns')
    (hcnts : ns.map digitCount = ns'.map digitCount) : ns = ns' := by
  have htext := (text_eq_iff ns ns').mpr h
  clear h
  induction ns generalizing ns' with
  | nil => exact (List.map_eq_nil_iff.mp hcnts.symm).symm
  | cons n ns ih =>
    rcases ns' with _ | ⟨n', ns'⟩
    · simp at hcnts
    · obtain ⟨hcnt, hcnts⟩ := List.cons.inj hcnts
      -- The texts of the first integers are as long as each other, for their signs agree.
      have hsign : n < 0 ↔ n' < 0 := by
        rw [← zero_mem_signs n ns, ← zero_mem_signs n' ns', ← marks_text, ← marks_text, htext]
      rw [text, text, List.flatMap_cons, List.flatMap_cons] at htext
      have hlen : (chars n).length = (chars n').length := by
        unfold digitCount at hcnt
        rw [chars_eq, chars_eq, List.length_append, List.length_append, length_toDigits,
          length_toDigits, hcnt]
        by_cases hn : n < 0
        · rw [if_pos hn, if_pos (hsign.mp hn)]
        · rw [if_neg hn, if_neg (mt hsign.mpr hn)]
      obtain ⟨hfst, hrest⟩ := List.append_inj htext hlen
      rw [chars_injective hfst, ih hcnts hrest]

end ZalemCoin.Lib.Decimal
