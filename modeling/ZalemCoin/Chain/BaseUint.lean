import Mathlib.Data.List.GetD
import Mathlib.Data.List.TakeWhile
import ZalemCoin.Chain.Primitives
import ZalemCoin.Lib.ByteReader

/-!
# Wide integers in limbs

`base_uint` keeps an integer in 32-bit limbs, the lowest one first, and computes with loops over them: a
carry goes up through an addition, and a shift puts each limb into two others. The numbers that the limbs
stand for are bit vectors, and each loop does what the operation on bit vectors does. Sums and differences
go by the value of the limbs, shifts by single bits.
-/

namespace ZalemCoin.Chain

open Lib

/-- An integer of `WIDTH` limbs, of which there are at least those of a `uint64_t`. -/
structure base_uint (WIDTH : ℕ) where
  pn : List UInt32
  length_pn : pn.length = WIDTH
  wide : 2 ≤ WIDTH

namespace base_uint

/-! ## The loops -/

/-- The loop of `operator+=`. -/
def addLoop : UInt64 → List UInt32 → List UInt32 → List UInt32
  | carry, p :: ps, b :: bs =>
    let n := carry + p.toUInt64 + b.toUInt64
    (n &&& 0xffffffff).toUInt32 :: addLoop (n >>> 32) ps bs
  | _, _, _ => []

/-- The loop of `operator++`, which goes on past a limb that has become zero. -/
def incLoop : List UInt32 → List UInt32
  | [] => []
  | p :: ps => if p + 1 = 0 ∧ ps ≠ [] then (p + 1) :: incLoop ps else (p + 1) :: ps

/-- The loop of `operator--`, which goes on past a limb that has become -1. -/
def decLoop : List UInt32 → List UInt32
  | [] => []
  | p :: ps => if p - 1 = 0xffffffff ∧ ps ≠ [] then (p - 1) :: decLoop ps else (p - 1) :: ps

/-- The assignments of `operator<<=`, each a limb and what is or-ed into it. -/
def leftWrites (pn : List UInt32) (shift : UInt32) : List (ℕ × UInt32) :=
  let k := (shift / 32).toNat
  let shift := shift % 32
  (List.range pn.length).flatMap fun i =>
    (if i + k + 1 < pn.length ∧ shift ≠ 0 then [(i + k + 1, pn.getD i 0 >>> (32 - shift))] else []) ++
      if i + k < pn.length then [(i + k, pn.getD i 0 <<< shift)] else []

/-- The assignments of `operator>>=`. -/
def rightWrites (pn : List UInt32) (shift : UInt32) : List (ℕ × UInt32) :=
  let k := (shift / 32).toNat
  let shift := shift % 32
  (List.range pn.length).flatMap fun i =>
    (if k + 1 ≤ i ∧ shift ≠ 0 then [(i - k - 1, pn.getD i 0 <<< (32 - shift))] else []) ++
      if k ≤ i then [(i - k, pn.getD i 0 >>> shift)] else []

/-- Or-s values into limbs, one after the other. -/
def orAll (pn : List UInt32) (writes : List (ℕ × UInt32)) : List UInt32 :=
  writes.foldl (fun pn write => pn.modify write.1 (· ||| write.2)) pn

/-- A comparison of limbs, the highest first: the first ones that differ decide. -/
def compareLoop (before : UInt32 → UInt32 → Bool) (same : Bool) : List UInt32 → List UInt32 → Bool
  | a :: as, b :: bs =>
    if before a b then true else if before b a then false else compareLoop before same as bs
  | _, _ => same

theorem length_addLoop (carry : UInt64) (as bs : List UInt32) (h : as.length = bs.length) :
    (addLoop carry as bs).length = as.length := by
  induction as generalizing carry bs with
  | nil => cases bs <;> rfl
  | cons a as ih =>
    cases bs with
    | nil => exact absurd h (Nat.succ_ne_zero _)
    | cons b bs => exact congrArg Nat.succ (ih _ bs (Nat.succ.inj h))

theorem length_incLoop (pn : List UInt32) : (incLoop pn).length = pn.length := by
  induction pn with
  | nil => rfl
  | cons p ps ih =>
    unfold incLoop
    split
    · exact congrArg Nat.succ ih
    · rfl

theorem length_decLoop (pn : List UInt32) : (decLoop pn).length = pn.length := by
  induction pn with
  | nil => rfl
  | cons p ps ih =>
    unfold decLoop
    split
    · exact congrArg Nat.succ ih
    · rfl

theorem length_orAll (pn : List UInt32) (writes : List (ℕ × UInt32)) :
    (orAll pn writes).length = pn.length := by
  induction writes generalizing pn with
  | nil => rfl
  | cons write writes ih => exact (ih _).trans (List.length_modify _ _ _)

/-! ## The operators -/

variable {WIDTH : ℕ}

section

variable (a b : base_uint WIDTH)

def compl : base_uint WIDTH :=
  ⟨a.pn.map (~~~ ·), (List.length_map _).trans a.length_pn, a.wide⟩

def inc : base_uint WIDTH := ⟨incLoop a.pn, (length_incLoop _).trans a.length_pn, a.wide⟩

def dec : base_uint WIDTH := ⟨decLoop a.pn, (length_decLoop _).trans a.length_pn, a.wide⟩

def neg : base_uint WIDTH := a.compl.inc

def add : base_uint WIDTH :=
  ⟨addLoop 0 a.pn b.pn, (length_addLoop 0 _ _ (a.length_pn.trans b.length_pn.symm)).trans a.length_pn,
    a.wide⟩

def sub : base_uint WIDTH := a.add b.neg

def shiftLeft (shift : UInt32) : base_uint WIDTH :=
  ⟨orAll (List.replicate WIDTH 0) (leftWrites a.pn shift),
    (length_orAll _ _).trans List.length_replicate, a.wide⟩

def shiftRight (shift : UInt32) : base_uint WIDTH :=
  ⟨orAll (List.replicate WIDTH 0) (rightWrites a.pn shift),
    (length_orAll _ _).trans List.length_replicate, a.wide⟩

/-- `operator=(uint64_t)`. -/
def ofUInt64 (WIDTH : ℕ) (wide : 2 ≤ WIDTH) (b : UInt64) : base_uint WIDTH :=
  ⟨b.toUInt32 :: (b >>> 32).toUInt32 :: List.replicate (WIDTH - 2) 0,
    by rw [List.length_cons, List.length_cons, List.length_replicate]; omega, wide⟩

def lt : Bool := compareLoop (fun x y => x < y) false a.pn.reverse b.pn.reverse

def le : Bool := compareLoop (fun x y => x < y) true a.pn.reverse b.pn.reverse

def gt : Bool := compareLoop (fun x y => x > y) false a.pn.reverse b.pn.reverse

def ge : Bool := compareLoop (fun x y => x > y) true a.pn.reverse b.pn.reverse

def eq : Bool := a.pn == b.pn

/-- `operator==` with a `uint64_t`. -/
def eqUInt64 (n : UInt64) : Bool :=
  a.pn.getD 0 0 == n.toUInt32 && a.pn.getD 1 0 == (n >>> 32).toUInt32 && (a.pn.drop 2).all (· == 0)

end

/-! ## Hexadecimal digits -/

/-- A digit of `sprintf("%02x")`. -/
def hexChar (d : ℕ) : Char := "0123456789abcdef".toList.getD d '0'

/-- The digit of a character in the table. -/
def HexDigit (c : Char) : Option ℕ :=
  if '0' ≤ c ∧ c ≤ '9' then some (c.toNat - '0'.toNat)
  else if 'a' ≤ c ∧ c ≤ 'f' then some (c.toNat - 'a'.toNat + 10)
  else if 'A' ≤ c ∧ c ≤ 'F' then some (c.toNat - 'A'.toNat + 10)
  else none

/-- The limbs as they are in memory. -/
def memory (pn : List UInt32) : List UInt8 := pn.flatMap fun p => littleEndian 4 p.toNat

/-- The limbs of bytes in memory. -/
def limbsOf : ℕ → List UInt8 → List UInt32
  | 0, _ => []
  | w + 1, bytes => UInt32.ofNat (ofLittleEndian (bytes.take 4)) :: limbsOf w (bytes.drop 4)

def GetHex {WIDTH : ℕ} (a : base_uint WIDTH) : List Char :=
  (memory a.pn).reverse.flatMap fun b => [hexChar (b.toNat / 16), hexChar (b.toNat % 16)]

/-- The bytes of digits, the last digit first; what they do not reach is zero. -/
def fillBytes : ℕ → List ℕ → List UInt8
  | 0, _ => []
  | n + 1, [] => 0 :: fillBytes n []
  | n + 1, [d] => UInt8.ofNat d :: fillBytes n []
  | n + 1, d :: e :: ds => (UInt8.ofNat d ||| UInt8.ofNat e <<< 4) :: fillBytes n ds

def skipPrefix : List Char → List Char
  | '0' :: c :: psz => if c.toLower = 'x' then psz else '0' :: c :: psz
  | psz => psz

/-- The limbs that `SetHex` leaves. -/
def setHexLimbs (WIDTH : ℕ) (psz : List Char) : List UInt32 :=
  let digits := ((skipPrefix (psz.dropWhile isspace)).map HexDigit).takeWhile Option.isSome
  limbsOf WIDTH (fillBytes (4 * WIDTH) digits.reduceOption.reverse)

theorem length_limbsOf (w : ℕ) (bytes : List UInt8) : (limbsOf w bytes).length = w := by
  induction w generalizing bytes with
  | zero => rfl
  | succ w ih => exact congrArg Nat.succ (ih _)

def SetHex (WIDTH : ℕ) (wide : 2 ≤ WIDTH) (psz : List Char) : base_uint WIDTH :=
  ⟨setHexLimbs WIDTH psz, length_limbsOf _ _, wide⟩

/-! ## The number of the limbs -/

/-- The number that limbs stand for. -/
def value : List UInt32 → ℕ
  | [] => 0
  | p :: ps => p.toNat + 2 ^ 32 * value ps

def toBitVec {WIDTH : ℕ} (a : base_uint WIDTH) : BitVec (32 * WIDTH) := BitVec.ofNat _ (value a.pn)

theorem base_succ (n : ℕ) : 2 ^ (32 * (n + 1)) = 2 ^ 32 * 2 ^ (32 * n) := by
  rw [Nat.mul_succ, Nat.pow_add, Nat.mul_comm]

variable (pn : List UInt32)

theorem value_lt : value pn < 2 ^ (32 * pn.length) := by
  induction pn with
  | nil => exact Nat.one_pos
  | cons p ps ih =>
    have hp : p.toNat < 2 ^ 32 := p.toNat_lt
    rw [value, List.length_cons, base_succ]
    omega

theorem value_injective {as bs : List UInt32} (hlen : as.length = bs.length)
    (h : value as = value bs) : as = bs := by
  induction as generalizing bs with
  | nil => exact (List.length_eq_zero_iff.mp hlen.symm).symm
  | cons a as ih =>
    cases bs with
    | nil => exact absurd hlen (Nat.succ_ne_zero _)
    | cons b bs =>
      have ha : a.toNat < 2 ^ 32 := a.toNat_lt
      have hb : b.toNat < 2 ^ 32 := b.toNat_lt
      rw [value, value] at h
      have hlow : a.toNat = b.toNat := by omega
      rw [UInt32.toNat_inj.mp hlow, ih (Nat.succ.inj hlen) (by omega)]

/-- The sum of the limbs, with what is carried out of them. -/
theorem value_addLoop (carry : UInt64) (as bs : List UInt32) (hlen : as.length = bs.length)
    (hcarry : carry.toNat ≤ 1) :
    ∃ out, value (addLoop carry as bs) + 2 ^ (32 * as.length) * out
      = value as + value bs + carry.toNat := by
  induction as generalizing carry bs with
  | nil =>
    obtain rfl := List.length_eq_zero_iff.mp hlen.symm
    exact ⟨carry.toNat, by simp [addLoop, value]⟩
  | cons a as ih =>
    cases bs with
    | nil => exact absurd hlen (Nat.succ_ne_zero _)
    | cons b bs =>
      have ha : a.toNat < 2 ^ 32 := a.toNat_lt
      have hb : b.toNat < 2 ^ 32 := b.toNat_lt
      set n := carry + a.toUInt64 + b.toUInt64 with hn
      have hsum : n.toNat = carry.toNat + a.toNat + b.toNat := by
        rw [hn, UInt64.toNat_add, UInt64.toNat_add, UInt32.toNat_toUInt64, UInt32.toNat_toUInt64]
        omega
      have hhigh : (n >>> 32).toNat = n.toNat / 2 ^ 32 := by
        rw [UInt64.toNat_shiftRight, Nat.shiftRight_eq_div_pow]
        rfl
      have hlow : (n &&& 0xffffffff).toUInt32.toNat = n.toNat % 2 ^ 32 := by
        have hmask : (0xffffffff : UInt64).toNat = 2 ^ 32 - 1 := rfl
        rw [UInt64.toNat_toUInt32, UInt64.toNat_and, hmask, Nat.and_two_pow_sub_one_eq_mod, Nat.mod_mod]
      obtain ⟨out, hout⟩ := ih (n >>> 32) bs (Nat.succ.inj hlen) (by omega)
      refine ⟨out, ?_⟩
      change (n &&& 0xffffffff).toUInt32.toNat + 2 ^ 32 * value (addLoop (n >>> 32) as bs)
        + 2 ^ (32 * (as.length + 1)) * out
          = a.toNat + 2 ^ 32 * value as + (b.toNat + 2 ^ 32 * value bs) + carry.toNat
      rw [base_succ, hlow, Nat.mul_assoc]
      omega

theorem value_compl : value (pn.map (~~~ ·)) + value pn + 1 = 2 ^ (32 * pn.length) := by
  induction pn with
  | nil => rfl
  | cons p ps ih =>
    have hp : p.toNat < 2 ^ 32 := p.toNat_lt
    have hnot : (~~~p).toNat = 2 ^ 32 - 1 - p.toNat := UInt32.toNat_not p
    rw [List.map_cons, value, value, List.length_cons, base_succ, hnot]
    omega

theorem value_incLoop : value (incLoop pn) = (value pn + 1) % 2 ^ (32 * pn.length) := by
  induction pn with
  | nil => rfl
  | cons p ps ih =>
    have hp : p.toNat < 2 ^ 32 := p.toNat_lt
    have hlt := value_lt ps
    have hinc : (p + 1).toNat = (p.toNat + 1) % 2 ^ 32 := UInt32.toNat_add p 1
    have hzero : p + 1 = 0 ↔ p.toNat + 1 = 2 ^ 32 := by
      rw [← UInt32.toNat_inj, hinc]
      change (p.toNat + 1) % 2 ^ 32 = 0 ↔ _
      omega
    unfold incLoop
    rw [List.length_cons, base_succ]
    split
    · rename_i hwraps
      have hfull := hzero.mp hwraps.1
      have hsum : value (p :: ps) + 1 = 2 ^ 32 * (value ps + 1) := by
        rw [value]
        omega
      rw [value, hinc, ih, hsum, Nat.mul_mod_mul_left, hfull, Nat.mod_self, Nat.zero_add]
    · rename_i hstops
      by_cases hnil : ps = []
      · subst hnil
        simp [value]
      · have hfits : p.toNat + 1 < 2 ^ 32 := by
          have hne : p.toNat + 1 ≠ 2 ^ 32 := fun hfull => hstops ⟨hzero.mpr hfull, hnil⟩
          omega
        rw [value, value, hinc, Nat.mod_eq_of_lt hfits, Nat.mod_eq_of_lt (by omega)]
        omega

/-- Going down and up again is no change. -/
theorem incLoop_decLoop : incLoop (decLoop pn) = pn := by
  induction pn with
  | nil => rfl
  | cons p ps ih =>
    have hback : p - 1 + 1 = p := UInt32.sub_add_cancel p 1
    have hones : p - 1 = 0xffffffff ↔ p = 0 := by
      constructor
      · intro h
        rw [← hback, h]
        rfl
      · rintro rfl
        rfl
    unfold decLoop
    split
    · rename_i hborrows
      have hnil : decLoop ps ≠ [] := by
        intro hnil
        have hlen := length_decLoop ps
        rw [hnil] at hlen
        exact hborrows.2 (List.length_eq_zero_iff.mp hlen.symm)
      rw [incLoop, hback, if_pos ⟨hones.mp hborrows.1, hnil⟩, ih]
    · rename_i hstops
      rw [incLoop, hback, if_neg fun hand => hstops ⟨hones.mpr hand.1, hand.2⟩]

section

variable (a b : base_uint WIDTH)

theorem value_lt_two_pow : value a.pn < 2 ^ (32 * WIDTH) := by
  have hlt := value_lt a.pn
  rwa [a.length_pn] at hlt

theorem toNat_toBitVec : a.toBitVec.toNat = value a.pn := by
  rw [toBitVec, BitVec.toNat_ofNat, Nat.mod_eq_of_lt a.value_lt_two_pow]

theorem toBitVec_add : (a.add b).toBitVec = a.toBitVec + b.toBitVec := by
  obtain ⟨out, hsum⟩ := value_addLoop 0 a.pn b.pn (a.length_pn.trans b.length_pn.symm) (Nat.zero_le 1)
  rw [a.length_pn] at hsum
  change value (a.add b).pn + 2 ^ (32 * WIDTH) * out = value a.pn + value b.pn at hsum
  apply BitVec.eq_of_toNat_eq
  rw [BitVec.toNat_add, toNat_toBitVec, toNat_toBitVec, toNat_toBitVec, ← hsum, Nat.add_mul_mod_self_left,
    Nat.mod_eq_of_lt (a.add b).value_lt_two_pow]

theorem toNat_one : (1 : BitVec (32 * WIDTH)).toNat = 1 % 2 ^ (32 * WIDTH) := BitVec.toNat_ofNat ..

theorem toBitVec_inc : a.inc.toBitVec = a.toBitVec + 1 := by
  have hinc := value_incLoop a.pn
  rw [a.length_pn] at hinc
  apply BitVec.eq_of_toNat_eq
  rw [toNat_toBitVec, BitVec.toNat_add, toNat_toBitVec, toNat_one, Nat.add_mod_mod]
  exact hinc

theorem toBitVec_dec : a.dec.toBitVec = a.toBitVec - 1 := by
  have hback : a.dec.inc.toBitVec = a.toBitVec :=
    congrArg (fun pn => BitVec.ofNat (32 * WIDTH) (value pn)) (incLoop_decLoop a.pn)
  rw [← hback, toBitVec_inc, add_sub_cancel_right]

theorem toBitVec_neg : a.neg.toBitVec = -a.toBitVec := by
  have hones := value_compl a.pn
  rw [a.length_pn] at hones
  change value a.compl.pn + value a.pn + 1 = 2 ^ (32 * WIDTH) at hones
  have hsum : a.compl.inc.toBitVec + a.toBitVec = 0 := by
    apply BitVec.eq_of_toNat_eq
    rw [toBitVec_inc, BitVec.toNat_add, BitVec.toNat_add, toNat_toBitVec, toNat_toBitVec,
      toNat_one, Nat.add_mod_mod, Nat.mod_add_mod,
      show value a.compl.pn + 1 + value a.pn = 2 ^ (32 * WIDTH) by omega, Nat.mod_self]
    rfl
  exact eq_neg_of_add_eq_zero_left hsum

theorem toBitVec_sub : (a.sub b).toBitVec = a.toBitVec - b.toBitVec := by
  rw [sub, toBitVec_add, toBitVec_neg, sub_eq_add_neg]

theorem toBitVec_ofUInt64 (wide : 2 ≤ WIDTH) (n : UInt64) :
    (ofUInt64 WIDTH wide n).toBitVec = BitVec.ofNat _ n.toNat := by
  have hzeros : ∀ k, value (List.replicate k 0) = 0 := by
    intro k
    induction k with
    | zero => rfl
    | succ k ih => rw [List.replicate_succ, value, ih]; rfl
  have hlt : n.toNat < 2 ^ 64 := n.toNat_lt
  have hlow : n.toUInt32.toNat = n.toNat % 2 ^ 32 := UInt64.toNat_toUInt32 n
  have hhigh : (n >>> 32).toUInt32.toNat = n.toNat / 2 ^ 32 := by
    rw [UInt64.toNat_toUInt32, UInt64.toNat_shiftRight, Nat.shiftRight_eq_div_pow]
    change n.toNat / 2 ^ 32 % 2 ^ 32 = _
    omega
  rw [toBitVec, ofUInt64, value, value, hzeros, hlow, hhigh]
  congr 1
  omega

end

/-! ## Comparisons -/

/-- The lowest limbs decide when the others are the same. -/
theorem compareLoop_concat (before : UInt32 → UInt32 → Bool) (same : Bool) (a b : UInt32)
    (as bs : List UInt32) (h : as.length = bs.length) :
    compareLoop before same (as ++ [a]) (bs ++ [b])
      = compareLoop before (if before a b then true else if before b a then false else same) as bs := by
  induction as generalizing bs with
  | nil =>
    obtain rfl := List.length_eq_zero_iff.mp h.symm
    rfl
  | cons x as ih =>
    cases bs with
    | nil => exact absurd h (Nat.succ_ne_zero _)
    | cons y bs =>
      rw [List.cons_append, List.cons_append, compareLoop, compareLoop, ih bs (Nat.succ.inj h)]

theorem compareLoop_lt (same : Bool) (as bs : List UInt32) (h : as.length = bs.length) :
    compareLoop (fun x y => x < y) same as.reverse bs.reverse = true
      ↔ value as < value bs ∨ same = true ∧ value as = value bs := by
  induction as generalizing same bs with
  | nil =>
    obtain rfl := List.length_eq_zero_iff.mp h.symm
    simp [compareLoop, value]
  | cons a as ih =>
    cases bs with
    | nil => exact absurd h (Nat.succ_ne_zero _)
    | cons b bs =>
      have ha : a.toNat < 2 ^ 32 := a.toNat_lt
      have hb : b.toNat < 2 ^ 32 := b.toNat_lt
      have hlen := Nat.succ.inj h
      rw [List.reverse_cons, List.reverse_cons,
        compareLoop_concat _ _ _ _ _ _ (by rw [List.length_reverse, List.length_reverse, hlen]),
        ih _ bs hlen, value, value]
      simp only [decide_eq_true_eq, UInt32.lt_iff_toNat_lt]
      rcases Nat.lt_trichotomy a.toNat b.toNat with hlt | heq | hgt
      · rw [if_pos hlt]
        simp only [true_and]
        omega
      · rw [if_neg (by omega), if_neg (by omega)]
        constructor <;> rintro (hlt | ⟨hsame, hval⟩)
        · omega
        · exact .inr ⟨hsame, by omega⟩
        · omega
        · exact .inr ⟨hsame, by omega⟩
      · rw [if_neg (by omega), if_pos hgt]
        simp only [Bool.false_eq_true, false_and, or_false]
        constructor
        · omega
        · rintro (hlt | ⟨-, hval⟩) <;> omega

/-- The loops that look for a greater limb are those that look for a smaller one, the other way round. -/
theorem compareLoop_gt (same : Bool) (as bs : List UInt32) :
    compareLoop (fun x y => x > y) same as bs = compareLoop (fun x y => x < y) same bs as := by
  induction as generalizing bs with
  | nil => cases bs <;> rfl
  | cons a as ih =>
    cases bs with
    | nil => rfl
    | cons b bs => rw [compareLoop, compareLoop, ih]

section

variable (a b : base_uint WIDTH)

theorem lt_iff : a.lt b = true ↔ a.toBitVec < b.toBitVec := by
  rw [lt, compareLoop_lt _ _ _ (a.length_pn.trans b.length_pn.symm), BitVec.lt_def, toNat_toBitVec,
    toNat_toBitVec]
  simp

theorem le_iff : a.le b = true ↔ a.toBitVec ≤ b.toBitVec := by
  rw [le, compareLoop_lt _ _ _ (a.length_pn.trans b.length_pn.symm), BitVec.le_def, toNat_toBitVec,
    toNat_toBitVec, Nat.le_iff_lt_or_eq]
  simp

theorem gt_iff : a.gt b = true ↔ b.toBitVec < a.toBitVec := by
  rw [gt, compareLoop_gt]
  exact lt_iff b a

theorem ge_iff : a.ge b = true ↔ b.toBitVec ≤ a.toBitVec := by
  rw [ge, compareLoop_gt]
  exact le_iff b a

theorem eq_iff : a.eq b = true ↔ a.toBitVec = b.toBitVec := by
  rw [eq, beq_iff_eq]
  constructor
  · intro h
    rw [toBitVec, toBitVec, h]
  · intro h
    apply value_injective (a.length_pn.trans b.length_pn.symm)
    rw [← toNat_toBitVec, ← toNat_toBitVec, h]

theorem eqUInt64_iff (n : UInt64) : a.eqUInt64 n = true ↔ a.toBitVec = BitVec.ofNat _ n.toNat := by
  rw [← toBitVec_ofUInt64 a.wide, ← eq_iff, eq, beq_iff_eq]
  obtain ⟨pn, length_pn, wide⟩ := a
  match pn with
  | [] | [_] => simp at length_pn; omega
  | p :: q :: ps =>
    have hzeros : ps = List.replicate (WIDTH - 2) 0 ↔ ∀ p ∈ ps, p = 0 := by
      rw [List.eq_replicate_iff, ← length_pn]
      exact and_iff_right rfl
    simp [eqUInt64, ofUInt64, hzeros, and_assoc]

end

/-! ## Shifts -/

theorem testBit_value (pn : List UInt32) (m : ℕ) :
    (value pn).testBit m = (pn.getD (m / 32) 0).toNat.testBit (m % 32) := by
  induction pn generalizing m with
  | nil => simp [value]
  | cons p ps ih =>
    rw [value, Nat.add_comm, Nat.testBit_two_pow_mul_add _ p.toNat_lt]
    split
    · rename_i hlow
      rw [Nat.div_eq_of_lt hlow, Nat.mod_eq_of_lt hlow]
      rfl
    · rename_i hhigh
      obtain ⟨m, rfl⟩ : ∃ n, m = n + 32 := ⟨m - 32, by omega⟩
      rw [Nat.add_sub_cancel, ih, Nat.add_div_right _ (by decide), Nat.add_mod_right]
      rfl

/-- A bit is set after some assignments when it was, or when one of them sets it. -/
theorem testBit_orAll (pn : List UInt32) (writes : List (ℕ × UInt32)) {i : ℕ} (hi : i < pn.length)
    (b : ℕ) : ((orAll pn writes).getD i 0).toNat.testBit b = true
      ↔ (pn.getD i 0).toNat.testBit b = true ∨ ∃ x, (i, x) ∈ writes ∧ x.toNat.testBit b = true := by
  induction writes generalizing pn with
  | nil => simp [orAll]
  | cons write writes ih =>
    obtain ⟨j, y⟩ := write
    have hi' : i < (pn.modify j (· ||| y)).length := by rwa [List.length_modify]
    have hget : ((pn.modify j (· ||| y)).getD i 0).toNat.testBit b = true
        ↔ (pn.getD i 0).toNat.testBit b = true ∨ j = i ∧ y.toNat.testBit b = true := by
      rw [List.getD_eq_getElem?_getD, List.getD_eq_getElem?_getD, List.getElem?_modify,
        List.getElem?_eq_getElem hi]
      by_cases hji : j = i
      · simp [hji, UInt32.toNat_or, Nat.testBit_or]
      · simp [hji]
    change ((orAll (pn.modify j (· ||| y)) writes).getD i 0).toNat.testBit b = true ↔ _
    rw [ih _ hi', hget, or_assoc]
    refine or_congr_right ?_
    constructor
    · rintro (⟨rfl, hy⟩ | ⟨x, hx, hbit⟩)
      · exact ⟨y, List.mem_cons_self, hy⟩
      · exact ⟨x, List.mem_cons_of_mem _ hx, hbit⟩
    · rintro ⟨x, hx, hbit⟩
      rcases List.mem_cons.mp hx with heq | hx
      · cases heq
        exact .inl ⟨rfl, hbit⟩
      · exact .inr ⟨x, hx, hbit⟩

/-- The bits that assignments to cleared limbs set. -/
theorem getLsbD_orAll (writes : List (ℕ × UInt32)) {m : ℕ} (hm : m < 32 * WIDTH) :
    (value (orAll (List.replicate WIDTH 0) writes)).testBit m = true
      ↔ ∃ x, (m / 32, x) ∈ writes ∧ x.toNat.testBit (m % 32) = true := by
  have hi : m / 32 < (List.replicate WIDTH (0 : UInt32)).length := by
    rw [List.length_replicate]
    omega
  rw [testBit_value, testBit_orAll _ _ hi]
  have hzero : ((List.replicate WIDTH (0 : UInt32)).getD (m / 32) 0).toNat.testBit (m % 32) = false := by
    rw [List.getD_replicate 0 (by omega)]
    simp
  rw [hzero]
  simp

theorem testBit_shiftLeft_limb (p shift : UInt32) {b : ℕ} (hb : b < 32) :
    (p <<< (shift % 32)).toNat.testBit b = true
      ↔ shift.toNat % 32 ≤ b ∧ p.toNat.testBit (b - shift.toNat % 32) = true := by
  have hshift : (shift % 32).toNat % 32 = shift.toNat % 32 := by
    rw [UInt32.toNat_mod]
    exact Nat.mod_mod _ _
  rw [UInt32.toNat_shiftLeft, hshift, Nat.testBit_mod_two_pow, Nat.testBit_shiftLeft]
  simp [hb]

theorem testBit_shiftRight_limb (p shift : UInt32) (b : ℕ) :
    (p >>> (shift % 32)).toNat.testBit b = p.toNat.testBit (shift.toNat % 32 + b) := by
  have hshift : (shift % 32).toNat % 32 = shift.toNat % 32 := by
    exact Nat.mod_mod _ _
  rw [UInt32.toNat_shiftRight, hshift, Nat.testBit_shiftRight]

/-- The complement of a shift within a limb, which is not a whole limb. -/
theorem toNat_compl_shift {shift : UInt32} (h : shift % 32 ≠ 0) :
    (32 - shift % 32).toNat % 32 = 32 - shift.toNat % 32 ∧ 0 < shift.toNat % 32 := by
  have hmod : (shift % 32).toNat = shift.toNat % 32 := UInt32.toNat_mod shift 32
  have hpos : 0 < shift.toNat % 32 := by
    rw [← hmod, Nat.pos_iff_ne_zero]
    exact fun hzero => h (UInt32.toNat_inj.mp hzero)
  have hsub : (32 - shift % 32).toNat = 32 - shift.toNat % 32 := by
    change (2 ^ 32 - shift.toNat % 32 + 32) % 2 ^ 32 = _
    omega
  exact ⟨by omega, hpos⟩

theorem shift_eq_zero_iff (shift : UInt32) : shift % 32 = 0 ↔ shift.toNat % 32 = 0 := by
  rw [← UInt32.toNat_inj, UInt32.toNat_mod]
  rfl

theorem testBit_limb_of_le (p : UInt32) {b : ℕ} (h : 32 ≤ b) : p.toNat.testBit b = false :=
  Nat.testBit_lt_two_pow (p.toNat_lt.trans_le (Nat.pow_le_pow_right (by decide) h))

section

variable (a : base_uint WIDTH) (shift : UInt32)

theorem getLsbD_toBitVec (m : ℕ) : a.toBitVec.getLsbD m = (value a.pn).testBit m := by
  rw [← toNat_toBitVec]
  rfl

theorem toBitVec_shiftLeft : (a.shiftLeft shift).toBitVec = a.toBitVec <<< shift.toNat := by
  apply BitVec.eq_of_getLsbD_eq
  intro m hm
  have hdiv : (shift / 32).toNat = shift.toNat / 32 := UInt32.toNat_div shift 32
  rw [getLsbD_toBitVec, BitVec.getLsbD_shiftLeft, getLsbD_toBitVec, Bool.eq_iff_iff, shiftLeft,
    getLsbD_orAll _ hm, testBit_value]
  simp only [leftWrites, List.mem_flatMap, List.mem_range, List.mem_append, List.mem_ite_nil_right,
    List.mem_singleton, Prod.mk.injEq, hdiv, a.length_pn, hm, decide_true, Bool.true_and,
    Bool.and_eq_true, Bool.not_eq_true', decide_eq_false_iff_not]
  set n := shift.toNat with hn
  constructor
  · rintro ⟨x, ⟨i, hi, ⟨⟨-, hne⟩, hidx, rfl⟩ | ⟨-, hidx, rfl⟩⟩, hbit⟩
    · obtain ⟨hcompl, hpos⟩ := toNat_compl_shift hne
      rw [UInt32.toNat_shiftRight, hcompl, Nat.testBit_shiftRight] at hbit
      have hlow : m % 32 < n % 32 := by
        by_contra hge
        rw [testBit_limb_of_le _ (by omega)] at hbit
        cases hbit
      rw [show (m - n) / 32 = i by omega, show (m - n) % 32 = 32 - n % 32 + m % 32 by omega]
      exact ⟨by omega, hbit⟩
    · obtain ⟨hge, hbit⟩ := (testBit_shiftLeft_limb _ _ (Nat.mod_lt _ (by decide))).mp hbit
      rw [show (m - n) / 32 = i by omega, show (m - n) % 32 = m % 32 - n % 32 by omega]
      exact ⟨by omega, hbit⟩
  · rintro ⟨hge, hbit⟩
    -- The bit comes from the limb before when the shift goes across the limbs.
    by_cases hlow : m % 32 < n % 32
    · have hne : shift % 32 ≠ 0 := (shift_eq_zero_iff shift).not.mpr (by omega)
      refine ⟨_, ⟨(m - n) / 32, by omega, .inl ⟨⟨by omega, hne⟩, by omega, rfl⟩⟩, ?_⟩
      rw [UInt32.toNat_shiftRight, (toNat_compl_shift hne).1, Nat.testBit_shiftRight,
        show 32 - n % 32 + m % 32 = (m - n) % 32 by omega]
      exact hbit
    · refine ⟨_, ⟨(m - n) / 32, by omega, .inr ⟨by omega, by omega, rfl⟩⟩, ?_⟩
      rw [testBit_shiftLeft_limb _ _ (Nat.mod_lt _ (by decide)), ← hn,
        show m % 32 - n % 32 = (m - n) % 32 by omega]
      exact ⟨by omega, hbit⟩

theorem toBitVec_shiftRight : (a.shiftRight shift).toBitVec = a.toBitVec >>> shift.toNat := by
  apply BitVec.eq_of_getLsbD_eq
  intro m hm
  have hdiv : (shift / 32).toNat = shift.toNat / 32 := UInt32.toNat_div shift 32
  rw [getLsbD_toBitVec, BitVec.getLsbD_ushiftRight, getLsbD_toBitVec, Bool.eq_iff_iff, shiftRight,
    getLsbD_orAll _ hm, testBit_value]
  simp only [rightWrites, List.mem_flatMap, List.mem_range, List.mem_append, List.mem_ite_nil_right,
    List.mem_singleton, Prod.mk.injEq, hdiv, a.length_pn]
  set n := shift.toNat with hn
  constructor
  · rintro ⟨x, ⟨i, hi, ⟨⟨hle, hne⟩, hidx, rfl⟩ | ⟨hle, hidx, rfl⟩⟩, hbit⟩
    · obtain ⟨hcompl, hpos⟩ := toNat_compl_shift hne
      rw [UInt32.toNat_shiftLeft, hcompl, Nat.testBit_mod_two_pow, Nat.testBit_shiftLeft] at hbit
      simp only [Bool.and_eq_true, decide_eq_true_eq] at hbit
      rw [show (n + m) / 32 = i by omega, show (n + m) % 32 = m % 32 - (32 - n % 32) by omega]
      exact hbit.2.2
    · rw [testBit_shiftRight_limb, ← hn] at hbit
      have hlow : n % 32 + m % 32 < 32 := by
        by_contra hge
        rw [testBit_limb_of_le _ (by omega)] at hbit
        cases hbit
      rw [show (n + m) / 32 = i by omega, show (n + m) % 32 = n % 32 + m % 32 by omega]
      exact hbit
  · intro hbit
    have hi : (n + m) / 32 < WIDTH := by
      by_contra hge
      rw [List.getD_eq_default _ _ (by rw [a.length_pn]; omega)] at hbit
      simp at hbit
    -- The bit comes from the limb after when the shift goes across the limbs.
    by_cases hhigh : 32 ≤ n % 32 + m % 32
    · have hne : shift % 32 ≠ 0 := (shift_eq_zero_iff shift).not.mpr (by omega)
      refine ⟨_, ⟨(n + m) / 32, hi, .inl ⟨⟨by omega, hne⟩, by omega, rfl⟩⟩, ?_⟩
      rw [UInt32.toNat_shiftLeft, (toNat_compl_shift hne).1, Nat.testBit_mod_two_pow,
        Nat.testBit_shiftLeft, show m % 32 - (32 - n % 32) = (n + m) % 32 by omega, hbit]
      simp only [Bool.and_true, Bool.and_eq_true, decide_eq_true_eq]
      omega
    · refine ⟨_, ⟨(n + m) / 32, hi, .inr ⟨by omega, by omega, rfl⟩⟩, ?_⟩
      rw [testBit_shiftRight_limb, ← hn, show n % 32 + m % 32 = (n + m) % 32 by omega]
      exact hbit

end

/-! ## Reading what was written -/

theorem hexDigit_hexChar {d : ℕ} (h : d < 16) :
    HexDigit (hexChar d) = some d ∧ isspace (hexChar d) = false ∧ (hexChar d).toLower ≠ 'x' := by
  have hall : ∀ d : Fin 16, HexDigit (hexChar d) = some d.val ∧ isspace (hexChar d) = false ∧
      (hexChar d).toLower ≠ 'x' := by decide
  exact hall ⟨d, h⟩

/-- The digits of bytes, the highest one first. -/
def byteDigits (bytes : List UInt8) : List ℕ := bytes.flatMap fun b => [b.toNat / 16, b.toNat % 16]

theorem byteDigits_lt (bytes : List UInt8) : ∀ d ∈ byteDigits bytes, d < 16 := by
  intro d hd
  obtain ⟨b, -, hb⟩ := List.mem_flatMap.mp hd
  have hlt : b.toNat < 256 := b.toNat_lt
  simp only [List.mem_cons, List.not_mem_nil, or_false] at hb
  omega

theorem fillBytes_byteDigits (bytes : List UInt8) :
    fillBytes bytes.length (byteDigits bytes.reverse).reverse = bytes := by
  have hreverse : (byteDigits bytes.reverse).reverse
      = bytes.flatMap fun b => [b.toNat % 16, b.toNat / 16] := by
    rw [byteDigits, List.flatMap_reverse, List.reverse_reverse]
    rfl
  rw [hreverse]
  clear hreverse
  induction bytes with
  | nil => rfl
  | cons b bytes ih =>
    have hbyte : UInt8.ofNat (b.toNat % 16) ||| UInt8.ofNat (b.toNat / 16) <<< 4 = b := by
      have hall : ∀ n : Fin 256, UInt8.ofNat (n % 16) ||| UInt8.ofNat (n / 16) <<< 4 = UInt8.ofNat n := by
        decide +kernel
      exact (hall ⟨b.toNat, b.toNat_lt⟩).trans (UInt8.ofNat_toNat)
    rw [List.flatMap_cons, List.length_cons]
    change (UInt8.ofNat (b.toNat % 16) ||| UInt8.ofNat (b.toNat / 16) <<< 4)
      :: fillBytes bytes.length (bytes.flatMap _) = _
    rw [hbyte, ih]

theorem length_memory (pn : List UInt32) : (memory pn).length = 4 * pn.length := by
  rw [memory, List.length_flatMap]
  simp [Nat.mul_comm]

theorem limbsOf_memory (pn : List UInt32) : limbsOf pn.length (memory pn) = pn := by
  induction pn with
  | nil => rfl
  | cons p ps ih =>
    have hlen := length_littleEndian 4 p.toNat
    have hp : p.toNat < 256 ^ 4 := p.toNat_lt
    rw [memory, List.flatMap_cons, List.length_cons, limbsOf, List.take_left' hlen,
      List.drop_left' hlen, ofLittleEndian_of_lt hp]
    change UInt32.ofNat p.toNat :: limbsOf ps.length (memory ps) = _
    rw [ih, UInt32.ofNat_toNat]

/-- What is written begins with no blank and no prefix, and all of it is digits. -/
theorem setHexLimbs_getHex (a : base_uint WIDTH) : setHexLimbs WIDTH a.GetHex = a.pn := by
  set digits := byteDigits (memory a.pn).reverse with hdigs
  have htext : a.GetHex = digits.map hexChar := by
    rw [hdigs, byteDigits, List.map_flatMap]
    rfl
  have hlt : ∀ d ∈ digits, d < 16 := byteDigits_lt _
  have hspace : (digits.map hexChar).dropWhile isspace = digits.map hexChar := by
    cases hd : digits with
    | nil => rfl
    | cons d ds =>
      have hblank := (hexDigit_hexChar (hlt d (hd ▸ List.mem_cons_self))).2.1
      rw [List.map_cons, List.dropWhile_cons_of_neg (by rw [hblank]; exact Bool.false_ne_true)]
  have hprefix : skipPrefix (digits.map hexChar) = digits.map hexChar := by
    unfold skipPrefix
    split
    · rename_i c psz heq
      have hc : c ∈ digits.map hexChar := heq ▸ List.mem_cons_of_mem _ List.mem_cons_self
      obtain ⟨d, hd, rfl⟩ := List.mem_map.mp hc
      rw [if_neg (hexDigit_hexChar (hlt d hd)).2.2]
      exact heq.symm
    · rfl
  have hmap : (digits.map hexChar).map HexDigit = digits.map some := by
    rw [List.map_map]
    exact List.map_congr_left fun d hd => (hexDigit_hexChar (hlt d hd)).1
  have htake : (digits.map some).takeWhile Option.isSome = digits.map some :=
    List.takeWhile_eq_self_iff.mpr fun d hd => by
      obtain ⟨d, -, rfl⟩ := List.mem_map.mp hd
      rfl
  unfold setHexLimbs
  rw [htext, hspace, hprefix, hmap]
  dsimp only
  have hreduce : (digits.map some).reduceOption = digits := by
    change (digits.map some).filterMap id = digits
    rw [List.filterMap_map]
    exact List.filterMap_some
  rw [htake, hreduce]
  have hbytes := fillBytes_byteDigits (memory a.pn)
  rw [length_memory, a.length_pn] at hbytes
  rw [hdigs, hbytes]
  have hlimbs := limbsOf_memory a.pn
  rwa [a.length_pn] at hlimbs

/-- The loops over limbs compute with the numbers modulo `2 ^ BITS`, and the digits of a number give it
back. -/
theorem limbs_compute {WIDTH : ℕ} (a b : base_uint WIDTH) (n : UInt64) (shift : UInt32) :
    ((a.add b).toBitVec = a.toBitVec + b.toBitVec ∧ (a.sub b).toBitVec = a.toBitVec - b.toBitVec ∧
      a.neg.toBitVec = -a.toBitVec ∧ a.inc.toBitVec = a.toBitVec + 1 ∧
      a.dec.toBitVec = a.toBitVec - 1) ∧
    ((a.shiftLeft shift).toBitVec = a.toBitVec <<< shift.toNat ∧
      (a.shiftRight shift).toBitVec = a.toBitVec >>> shift.toNat) ∧
    ((a.lt b = true ↔ a.toBitVec < b.toBitVec) ∧ (a.le b = true ↔ a.toBitVec ≤ b.toBitVec) ∧
      (a.gt b = true ↔ b.toBitVec < a.toBitVec) ∧ (a.ge b = true ↔ b.toBitVec ≤ a.toBitVec) ∧
      (a.eq b = true ↔ a.toBitVec = b.toBitVec) ∧
      (a.eqUInt64 n = true ↔ a.toBitVec = BitVec.ofNat _ n.toNat)) ∧
    (ofUInt64 WIDTH a.wide n).toBitVec = BitVec.ofNat _ n.toNat ∧
    SetHex WIDTH a.wide a.GetHex = a := by
  refine ⟨⟨toBitVec_add a b, toBitVec_sub a b, toBitVec_neg a, toBitVec_inc a, toBitVec_dec a⟩,
    ⟨toBitVec_shiftLeft a shift, toBitVec_shiftRight a shift⟩,
    ⟨lt_iff a b, le_iff a b, gt_iff a b, ge_iff a b, eq_iff a b, eqUInt64_iff a n⟩,
    toBitVec_ofUInt64 a.wide n, ?_⟩
  have hlimbs := setHexLimbs_getHex a
  obtain ⟨pn, length_pn, wide⟩ := a
  unfold SetHex
  congr

end base_uint

end ZalemCoin.Chain
