import Mathlib.Data.Nat.Bitwise
import ZalemCoin.Script.Numbers

/-!
# The numbers of scripts in 64 bits

`CScriptNum` keeps its value in an `int64_t`, and reads and writes it by shifts. On the values that have
an opposite, and on the bytes that fit into a word, that is what the numbers without a width do. The bytes
that are written are those that are minimal.
-/

namespace ZalemCoin.Script.CScriptNum

open Chain Lib
open List (length_append length_singleton)

/-! ## The bytes that are written -/

variable {fuel : ℕ} {last b : UInt8} {bytes : valtype} {n : ℤ}

theorem getLast?_leBytes {n : ℕ} (hn : n ≤ fuel) (h : (leBytes fuel n).getLast? = some last) :
    last ≠ 0 := by
  induction fuel generalizing n with
  | zero => cases h
  | succ fuel ih =>
    rw [leBytes] at h
    split at h
    · cases h
    · rename_i hpos
      rcases Nat.eq_zero_or_pos (n / 256) with hzero | hmore
      · have hnil : leBytes fuel (n / 256) = [] := by
          rw [hzero]
          cases fuel <;> rfl
        rw [hnil, List.getLast?_singleton] at h
        rw [← Option.some.inj h]
        intro hbyte
        have htoNat := congrArg UInt8.toNat hbyte
        rw [UInt8.toNat_ofNat_of_lt' (show n % 256 < 256 by omega), UInt8.toNat_zero] at htoNat
        omega
      · obtain ⟨fuel, rfl⟩ : ∃ k, fuel = k + 1 := ⟨fuel - 1, by omega⟩
        have hne : leBytes (fuel + 1) (n / 256) ≠ [] := by
          rw [leBytes, if_neg (by omega)]
          exact List.cons_ne_nil _ _
        rw [List.getLast?_cons_of_ne_nil hne] at h
        exact ih (by omega) h

theorem leBytes_ofLittleEndian (hlast : ∀ last, bytes.getLast? = some last → last ≠ 0)
    (hfuel : ofLittleEndian bytes ≤ fuel) : leBytes fuel (ofLittleEndian bytes) = bytes := by
  induction bytes generalizing fuel with
  | nil => cases fuel <;> rfl
  | cons b bytes ih =>
    have hb := b.toNat_lt
    have hrest : ∀ last, bytes.getLast? = some last → last ≠ 0 := by
      intro last h
      cases bytes with
      | nil => cases h
      | cons c bytes => exact hlast last (by rwa [List.getLast?_cons_cons])
    have hpos : ofLittleEndian (b :: bytes) ≠ 0 := by
      intro hzero
      rw [ofLittleEndian] at hzero
      cases bytes with
      | nil => exact hlast b rfl (UInt8.toNat_inj.mp (by rw [UInt8.toNat_zero]; omega))
      | cons c bytes =>
        have hnil : leBytes 0 (ofLittleEndian (c :: bytes)) = c :: bytes := ih hrest (by omega)
        cases hnil
    rw [ofLittleEndian] at hfuel hpos ⊢
    obtain ⟨fuel, rfl⟩ : ∃ k, fuel = k + 1 := ⟨fuel - 1, by omega⟩
    rw [leBytes, if_neg hpos, show (b.toNat + 256 * ofLittleEndian bytes) % 256 = b.toNat by omega,
      show (b.toNat + 256 * ofLittleEndian bytes) / 256 = ofLittleEndian bytes by omega,
      UInt8.ofNat_toNat, ih hrest (by omega)]

theorem length_serialize {k : ℕ} (hn : 2 * n.natAbs < 256 ^ k) : (serialize n).length ≤ k := by
  have hbytes : ofLittleEndian (leBytes n.natAbs n.natAbs) = n.natAbs := ofLittleEndian_leBytes le_rfl
  have hlen : (leBytes n.natAbs n.natAbs).length ≤ k := length_leBytes (by omega)
  unfold serialize
  dsimp only
  rcases List.eq_nil_or_concat (leBytes n.natAbs n.natAbs) with hnil | ⟨bytes, last, hlast⟩
  · rw [hnil]
    exact Nat.zero_le k
  · rw [List.concat_eq_append] at hlast
    rw [hlast] at hbytes hlen ⊢
    rw [List.getLast?_concat]
    dsimp only
    rw [length_append, length_singleton] at hlen
    rw [ofLittleEndian_append, byte_eq_sign last] at hbytes
    -- The byte of the sign has room, since the number is below half.
    have hroom (htop : last &&& 0x80 ≠ 0) (sign : UInt8) : (bytes ++ [last] ++ [sign]).length ≤ k := by
      rw [if_pos htop, Nat.mul_add] at hbytes
      have hlt : bytes.length + 1 < k := by
        apply (Nat.pow_lt_pow_iff_right (show 1 < 256 by decide)).mp
        rw [pow_succ]
        omega
      rw [length_append, length_append, length_singleton, length_singleton]
      omega
    split_ifs with htop hneg
    · exact hroom htop _
    · exact hroom htop _
    · rw [List.dropLast_concat, length_append, length_singleton]
      exact hlen
    · rw [length_append, length_singleton]
      exact hlen

theorem byte_eq_low (h : b &&& 0x80 = 0) : b &&& 0x7f = b := by
  have heq := byte_eq_sign b
  rw [if_neg (not_not.mpr h), Nat.add_zero] at heq
  exact UInt8.toNat_inj.mp heq.symm

theorem byte_eq_or (h : b &&& 0x80 ≠ 0) :
    b = (b &&& 0x7f) ||| 0x80 ∧ (b &&& 0x7f) &&& 0x80 = 0 := by
  have hclear : (b &&& 0x7f) &&& 0x80 = 0 := by
    rw [UInt8.and_assoc]
    exact UInt8.and_zero
  have heq := byte_eq_sign b
  rw [if_pos h] at heq
  constructor
  · apply UInt8.toNat_inj.mp
    rw [(byte_or_sign _ hclear).1, heq]
  · exact hclear

theorem or_and_low (h : b &&& 0x80 = 0) : (b ||| 0x80) &&& 0x7f = b := by
  obtain ⟨hsum, hset⟩ := byte_or_sign b h
  have heq := byte_eq_sign (b ||| 0x80)
  rw [if_pos hset, hsum] at heq
  exact UInt8.toNat_inj.mp (by omega)

theorem isMinimal_concat (bytes : valtype) (last : UInt8) : isMinimal (bytes ++ [last]) = true ↔
    last &&& 0x7f ≠ 0 ∨ ∃ b, bytes.getLast? = some b ∧ b &&& 0x80 ≠ 0 := by
  unfold isMinimal
  rw [List.reverse_append, List.reverse_singleton, List.singleton_append]
  dsimp only
  rw [List.head?_reverse, Bool.or_eq_true, bne_iff_ne, Option.any_eq_true]
  simp only [bne_iff_ne]

theorem isMinimal_serialize (n : ℤ) : isMinimal (serialize n) = true := by
  unfold serialize
  dsimp only
  rcases List.eq_nil_or_concat (leBytes n.natAbs n.natAbs) with hnil | ⟨bytes, last, hlast⟩
  · rw [hnil]
    rfl
  · rw [List.concat_eq_append] at hlast
    have hne : last ≠ 0 := getLast?_leBytes le_rfl (by rw [hlast, List.getLast?_concat])
    rw [hlast, List.getLast?_concat]
    dsimp only
    split_ifs with htop hneg hneg
    · exact (isMinimal_concat _ _).mpr (.inr ⟨last, List.getLast?_concat, htop⟩)
    · exact (isMinimal_concat _ _).mpr (.inr ⟨last, List.getLast?_concat, htop⟩)
    · have hclear : last &&& 0x80 = 0 := not_not.mp htop
      refine (isMinimal_concat _ _).mpr (.inl ?_)
      rwa [or_and_low hclear]
    · have hclear : last &&& 0x80 = 0 := not_not.mp htop
      refine (isMinimal_concat _ _).mpr (.inl ?_)
      rwa [byte_eq_low hclear]

theorem serialize_of_low (hclear : last &&& 0x80 = 0) (hlast : last ≠ 0)
    (hn : n.natAbs = ofLittleEndian (bytes ++ [last])) :
    serialize n = bytes ++ [if n < 0 then last ||| 0x80 else last] := by
  have hbytes : leBytes n.natAbs n.natAbs = bytes ++ [last] := by
    rw [hn]
    apply leBytes_ofLittleEndian _ le_rfl
    intro b hb
    rw [List.getLast?_concat] at hb
    rwa [← Option.some.inj hb]
  unfold serialize
  dsimp only
  rw [hbytes, List.getLast?_concat]
  dsimp only
  rw [if_neg (not_not.mpr hclear), List.dropLast_concat]
  split_ifs <;> rfl

theorem serialize_of_top (hlast : bytes.getLast? = some last) (htop : last &&& 0x80 ≠ 0)
    (hn : n.natAbs = ofLittleEndian bytes) :
    serialize n = bytes ++ [if n < 0 then 0x80 else 0] := by
  have hbytes : leBytes n.natAbs n.natAbs = bytes := by
    rw [hn]
    apply leBytes_ofLittleEndian _ le_rfl
    intro b hb
    rw [← Option.mem_unique hlast hb]
    rintro rfl
    exact htop (by decide)
  unfold serialize
  dsimp only
  rw [hbytes, hlast]
  dsimp only
  rw [if_pos htop]

theorem natAbs_set_vch_concat (bytes : valtype) (last : UInt8) :
    (set_vch (bytes ++ [last])).natAbs = ofLittleEndian (bytes ++ [last &&& 0x7f]) := by
  have hval := ofLittleEndian_append bytes last
  have hlow := ofLittleEndian_append bytes (last &&& 0x7f)
  rw [byte_eq_sign last] at hval
  rw [set_vch_concat]
  split_ifs at hval ⊢ with hsign
  · rw [Nat.mul_add] at hval
    omega
  · rw [Nat.add_zero] at hval
    omega

theorem serialize_set_vch {vch : valtype} (h : isMinimal vch = true) : serialize (set_vch vch) = vch := by
  rcases List.eq_nil_or_concat vch with rfl | ⟨bytes, last, rfl⟩
  · decide
  · rw [List.concat_eq_append] at h ⊢
    have habs := natAbs_set_vch_concat bytes last
    have hneg : set_vch (bytes ++ [last]) < 0 → last &&& 0x80 ≠ 0 := by
      intro hlt hclear
      rw [set_vch_concat, if_neg (not_not.mpr hclear)] at hlt
      omega
    have hnn : last &&& 0x80 ≠ 0 → ¬set_vch (bytes ++ [last]) < 0 →
        ofLittleEndian (bytes ++ [last &&& 0x7f]) = 0 := by
      intro hset hge
      rw [set_vch_concat, if_pos hset] at hge habs
      omega
    by_cases hlow : last &&& 0x7f = 0
    · -- The byte before holds the top bit of the number, so that it is not zero.
      obtain ⟨b, hb, htop⟩ := ((isMinimal_concat bytes last).mp h).resolve_left (not_not.mpr hlow)
      rw [hlow, ofLittleEndian_append, UInt8.toNat_zero, Nat.mul_zero, Nat.add_zero] at habs hnn
      have hpos : ofLittleEndian bytes ≠ 0 := by
        intro hzero
        have hne : ∀ c, bytes.getLast? = some c → c ≠ 0 := by
          rintro c hc rfl
          rw [Option.mem_unique hb hc] at htop
          exact htop (by decide)
        have hnil : leBytes 0 (ofLittleEndian bytes) = bytes := leBytes_ofLittleEndian hne (by omega)
        rw [← hnil] at hb
        cases hb
      rw [serialize_of_top hb htop habs]
      by_cases hset : last &&& 0x80 = 0
      · rw [if_neg (fun hlt => hneg hlt hset), ← byte_eq_low hset, hlow]
      · have hlt : set_vch (bytes ++ [last]) < 0 := by
          by_contra hge
          exact hpos (hnn hset hge)
        rw [if_pos hlt, (byte_eq_or hset).1, hlow]
        rfl
    · by_cases hset : last &&& 0x80 = 0
      · have heq := byte_eq_low hset
        rw [heq] at habs hlow
        rw [serialize_of_low hset hlow habs, if_neg fun hlt => hneg hlt hset]
      · obtain ⟨heq, hclear⟩ := byte_eq_or hset
        have hlt : set_vch (bytes ++ [last]) < 0 := by
          by_contra hge
          have hzero := hnn hset hge
          rw [ofLittleEndian_append] at hzero
          have hpow : 0 < 256 ^ bytes.length := Nat.pow_pos (by decide)
          have hmul : 256 ^ bytes.length * (last &&& 0x7f).toNat = 0 := by omega
          rcases Nat.mul_eq_zero.mp hmul with h0 | h0
          · omega
          · exact hlow (UInt8.toNat_inj.mp h0)
        rw [serialize_of_low hclear hlow habs, if_pos hlt, ← heq]

/-! ## The loops on words -/

/-- `getvch` is the only writer of numbers whose bytes are minimal and are read back by `setvch`. -/
theorem getvch_unique {f : ℤ → valtype} (hmin : ∀ n, isMinimal (f n) = true)
    (hread : ∀ n, CBigNum.setvch (f n) = n) : f = CBigNum.getvch := by
  funext n
  rw [getvch_eq_serialize, ← serialize_set_vch (hmin n), ← setvch_eq_set_vch, hread]

namespace Word

def absvalue (value : Int64) : UInt64 := if value < 0 then (-value).toUInt64 else value.toUInt64

/-- The bytes of a word, the lowest one first. A word has eight. -/
def pushBytes : ℕ → UInt64 → valtype
  | 0, _ => []
  | rounds + 1, absvalue =>
    if absvalue = 0 then [] else (absvalue &&& 0xff).toUInt8 :: pushBytes rounds (absvalue >>> 8)

def serialize (value : Int64) : valtype :=
  if value = 0 then []
  else
    let result := pushBytes 8 (absvalue value)
    match result.getLast? with
    | none => []
    | some back =>
      if back &&& 0x80 ≠ 0 then result ++ [if value < 0 then 0x80 else 0]
      else if value < 0 then result.dropLast ++ [back ||| 0x80]
      else result

/-- The word of some bytes, from a place on. -/
def joinBytes (i : ℕ) (result : UInt64) : valtype → UInt64
  | [] => result
  | b :: rest => joinBytes (i + 1) (result ||| (b.toUInt64 <<< UInt64.ofNat (8 * i))) rest

/-- Reads a value. -/
def set_vch (vch : valtype) : Int64 :=
  match vch.getLast? with
  | none => 0
  | some back =>
    let result := joinBytes 0 0 vch
    if back &&& 0x80 ≠ 0 then
      -(result &&& ~~~((0x80 : UInt64) <<< UInt64.ofNat (8 * (vch.length - 1)))).toInt64
    else result.toInt64

/-- The value of an element of the stack. -/
def ofVch (vch : valtype) (fRequireMinimal : Bool) : Option Int64 :=
  if nMaxNumSize < vch.length then none
  else if fRequireMinimal && !isMinimal vch then none
  else some (set_vch vch)

/-! ## Words and numbers -/

variable {i : ℕ} {x : UInt64} {vch : valtype}

theorem toNat_shift (b : UInt8) (hi : i < 8) :
    (b.toUInt64 <<< UInt64.ofNat (8 * i)).toNat = b.toNat * 256 ^ i := by
  have hb := b.toNat_lt
  have hpow : 256 ^ i = 2 ^ (8 * i) := by rw [Nat.pow_mul]
  have hle : 2 ^ (8 * i) ≤ 2 ^ 56 := Nat.pow_le_pow_right (by decide) (by omega)
  rw [UInt64.toNat_shiftLeft, UInt8.toNat_toUInt64, UInt64.toNat_ofNat_of_lt' (show 8 * i < 2 ^ 64 by omega),
    Nat.mod_eq_of_lt (show 8 * i < 64 by omega), Nat.shiftLeft_eq, hpow]
  apply Nat.mod_eq_of_lt
  calc b.toNat * 2 ^ (8 * i) ≤ 255 * 2 ^ 56 := Nat.mul_le_mul (by omega) hle
    _ < 2 ^ 64 := by decide

theorem toNat_joinBytes (bytes : valtype) {result : UInt64} (hres : result.toNat < 256 ^ i)
    (hlen : i + bytes.length ≤ 8) :
    (joinBytes i result bytes).toNat = result.toNat + 256 ^ i * ofLittleEndian bytes := by
  induction bytes generalizing i result with
  | nil => rfl
  | cons b bytes ih =>
    rw [List.length_cons] at hlen
    have hb := b.toNat_lt
    have hpow : 256 ^ i = 2 ^ (8 * i) := by rw [Nat.pow_mul]
    have hor : (result ||| (b.toUInt64 <<< UInt64.ofNat (8 * i))).toNat
        = result.toNat + 256 ^ i * b.toNat := by
      rw [UInt64.toNat_or, toNat_shift b (by omega), Nat.or_comm, Nat.mul_comm, hpow, Nat.add_comm]
      exact (Nat.two_pow_add_eq_or_of_lt (by rwa [← hpow]) b.toNat).symm
    rw [joinBytes, ih ?_ (by omega), hor, ofLittleEndian, pow_succ]
    · ring
    · have hmul : 256 ^ i * b.toNat ≤ 256 ^ i * 255 := Nat.mul_le_mul_left _ (by omega)
      omega

theorem toNat_clear (x : BitVec 64) {k : ℕ} (hk : k < 64) (hx : x.getLsbD k = true) :
    (x &&& ~~~BitVec.twoPow 64 k).toNat + 2 ^ k = x.toNat := by
  have hor : (x &&& ~~~BitVec.twoPow 64 k) ||| BitVec.twoPow 64 k = x := by
    ext i hi
    by_cases hik : i = k
    · subst hik
      simpa [BitVec.getLsbD_eq_getElem hi] using hx.symm
    · simp [hik]
  have hand : (x &&& ~~~BitVec.twoPow 64 k) &&& BitVec.twoPow 64 k = 0#64 := by
    ext i hi
    simp
  have hadd := BitVec.toNat_add_of_and_eq_zero hand
  rw [BitVec.add_eq_or_of_and_eq_zero _ _ hand, hor, BitVec.toNat_twoPow_of_lt hk] at hadd
  exact hadd.symm

theorem toInt_toInt64 (hx : x.toNat < 2 ^ 63) : x.toInt64.toInt = x.toNat := by
  change x.toBitVec.toInt = (x.toBitVec.toNat : ℤ)
  rw [BitVec.toInt_eq_toNat_cond, if_pos]
  change 2 * x.toNat < 2 ^ 64
  omega

theorem toInt_neg_toInt64 (hx : x.toNat < 2 ^ 63) : (-x.toInt64).toInt = -(x.toNat : ℤ) := by
  rw [Int64.toInt_neg, toInt_toInt64 hx]
  apply Int.bmod_eq_of_le <;> omega

/-- Up to eight bytes, the word is the number that the bytes stand for. -/
theorem toInt_set_vch (hlen : vch.length ≤ 8) :
    (set_vch vch).toInt = CScriptNum.set_vch vch := by
  rcases List.eq_nil_or_concat vch with rfl | ⟨bytes, back, rfl⟩
  · rfl
  · rw [List.concat_eq_append] at hlen ⊢
    rw [set_vch_concat]
    unfold set_vch
    rw [List.getLast?_concat, length_append, length_singleton, Nat.add_sub_cancel]
    dsimp only
    rw [length_append, length_singleton] at hlen
    have hjoin : (joinBytes 0 0 (bytes ++ [back])).toNat = ofLittleEndian (bytes ++ [back]) := by
      rw [toNat_joinBytes _ (by decide) (by rw [length_append, length_singleton]; omega),
        UInt64.toNat_zero, pow_zero, Nat.one_mul, Nat.zero_add]
    have hbytes := ofLittleEndian_lt bytes
    have hlow : (back &&& 0x7f).toNat ≤ 127 := by
      rw [UInt8.toNat_and]
      exact Nat.and_le_right
    have hmul : 256 ^ bytes.length * (back &&& 0x7f).toNat ≤ 256 ^ bytes.length * 127 :=
      Nat.mul_le_mul_left _ hlow
    have hpow : 256 ^ bytes.length = 2 ^ (8 * bytes.length) := by rw [Nat.pow_mul]
    have hhalf : 256 ^ bytes.length * 128 ≤ 2 ^ 63 := by
      calc 256 ^ bytes.length * 128 ≤ 256 ^ 7 * 128 :=
            Nat.mul_le_mul_right _ (Nat.pow_le_pow_right (by decide) (by omega))
        _ = 2 ^ 63 := by norm_num
    have hval := ofLittleEndian_append bytes back
    rw [byte_eq_sign back] at hval
    split_ifs at hval ⊢ with hsign
    · -- The sign bit is set in the word, and is cleared there.
      have hbit : (joinBytes 0 0 (bytes ++ [back])).toBitVec.getLsbD (8 * bytes.length + 7) = true := by
        change (joinBytes 0 0 (bytes ++ [back])).toNat.testBit (8 * bytes.length + 7) = true
        rw [hjoin, Nat.testBit_eq_decide_div_mod_eq, decide_eq_true_iff, pow_add, ← hpow,
          Nat.div_eq_of_lt_le (k := 1)]
        · rw [hval, Nat.mul_add]
          omega
        · rw [hval, Nat.mul_add]
          omega
      have hclear := toNat_clear _ (by omega) hbit
      have hmask : ((0x80 : UInt64) <<< UInt64.ofNat (8 * bytes.length)).toBitVec
          = BitVec.twoPow 64 (8 * bytes.length + 7) := by
        have hshift := toNat_shift 0x80 (show bytes.length < 8 by omega)
        rw [show (0x80 : UInt8).toUInt64 = 0x80 from rfl, show (0x80 : UInt8).toNat = 2 ^ 7 from rfl,
          hpow, ← pow_add, Nat.add_comm 7] at hshift
        apply BitVec.eq_of_toNat_eq
        rw [BitVec.toNat_twoPow_of_lt (by omega)]
        exact hshift
      rw [← hmask, pow_add, ← hpow] at hclear
      have hword : (joinBytes 0 0 (bytes ++ [back])
          &&& ~~~((0x80 : UInt64) <<< UInt64.ofNat (8 * bytes.length))).toNat + 256 ^ bytes.length * 2 ^ 7
          = ofLittleEndian (bytes ++ [back]) := by
        rw [← hjoin]
        exact hclear
      rw [Nat.mul_add] at hval
      rw [toInt_neg_toInt64 (by omega)]
      omega
    · rw [Nat.add_zero] at hval
      rw [toInt_toInt64 (by omega), hjoin]

theorem toNat_absvalue (value : Int64) : (absvalue value).toNat = value.toInt.natAbs := by
  have hlow := value.le_toInt
  have hhigh := value.toInt_lt
  have hcond := BitVec.toInt_eq_toNat_cond value.toBitVec
  have hlt := value.toBitVec.isLt
  change value.toInt = _ at hcond
  unfold absvalue
  split_ifs with hneg
  · rw [Int64.lt_iff_toInt_lt] at hneg
    change value.toInt < 0 at hneg
    change (-value.toBitVec).toNat = _
    rw [BitVec.toNat_neg]
    split_ifs at hcond
    · omega
    · omega
  · rw [Int64.lt_iff_toInt_lt] at hneg
    change ¬value.toInt < 0 at hneg
    change value.toBitVec.toNat = _
    split_ifs at hcond
    · omega
    · omega

theorem pushBytes_eq {rounds : ℕ} {n : UInt64} (hrnds : n.toNat < 256 ^ rounds)
    (hfuel : n.toNat ≤ fuel) : pushBytes rounds n = leBytes fuel n.toNat := by
  induction rounds generalizing n fuel with
  | zero =>
    have hzero : n.toNat = 0 := by simpa using hrnds
    rw [hzero]
    cases fuel with
    | zero => rfl
    | succ fuel => rw [leBytes, if_pos rfl, pushBytes]
  | succ rounds ih =>
    have hshift : (n >>> 8).toNat = n.toNat / 256 := by
      exact Nat.shiftRight_eq_div_pow _ _
    by_cases hzero : n = 0
    · rw [hzero, UInt64.toNat_zero]
      cases fuel with
      | zero => rfl
      | succ fuel => rw [leBytes, if_pos rfl, pushBytes, if_pos rfl]
    · have hne : n.toNat ≠ 0 := fun h => hzero (UInt64.toNat_inj.mp h)
      have hbyte : (n &&& 0xff).toUInt8 = UInt8.ofNat (n.toNat % 256) := by
        apply UInt8.toNat_inj.mp
        rw [UInt64.toNat_toUInt8, UInt64.toNat_and, UInt8.toNat_ofNat']
        congr 1
        exact Nat.and_two_pow_sub_one_eq_mod n.toNat 8
      obtain ⟨fuel, rfl⟩ : ∃ k, fuel = k + 1 := ⟨fuel - 1, by omega⟩
      have hrest : pushBytes rounds (n >>> 8) = leBytes fuel (n >>> 8).toNat := by
        apply ih
        · rw [hshift]
          omega
        · rw [hshift]
          omega
      rw [pushBytes, if_neg hzero, leBytes, if_neg hne, hbyte, hrest, hshift]

theorem serialize_eq (value : Int64) : serialize value = CScriptNum.serialize value.toInt := by
  have hbound : (absvalue value).toNat < 256 ^ 8 := lt_of_lt_of_le (absvalue value).toNat_lt (by norm_num)
  have hbytes : pushBytes 8 (absvalue value) = leBytes value.toInt.natAbs value.toInt.natAbs := by
    rw [pushBytes_eq hbound le_rfl, toNat_absvalue]
  have hneg : value < 0 ↔ value.toInt < 0 := Int64.lt_iff_toInt_lt
  unfold serialize CScriptNum.serialize
  dsimp only
  rw [hbytes]
  by_cases hzero : value = 0
  · rw [if_pos hzero, hzero]
    rfl
  · rw [if_neg hzero]
    cases (leBytes value.toInt.natAbs value.toInt.natAbs).getLast? with
    | none => rfl
    | some back =>
      by_cases hsign : value.toInt < 0
      · simp only [hneg.mpr hsign, hsign, if_true]
      · simp only [mt hneg.mp hsign, hsign, if_false]

theorem set_vch_serialize {value : Int64} (hval : value ≠ Int64.minValue) :
    set_vch (serialize value) = value := by
  have hlow := value.le_toInt
  have hhigh := value.toInt_lt
  have hmin : value.toInt ≠ -2 ^ 63 := fun h => hval (Int64.toInt_inj.mp (h.trans Int64.toInt_minValue.symm))
  have hlen : (serialize value).length ≤ 8 := by
    rw [serialize_eq]
    apply length_serialize
    norm_num
    omega
  apply Int64.toInt_inj.mp
  rw [toInt_set_vch hlen, serialize_eq, CScriptNum.set_vch_serialize]

theorem ofVch_isSome_iff (hlen : vch.length ≤ nMaxNumSize) :
    (ofVch vch true).isSome ↔ ∃ value, vch = serialize value := by
  have hword : vch.length ≤ 8 := le_trans hlen (by decide)
  unfold ofVch
  rw [if_neg (not_lt.mpr hlen)]
  constructor
  · intro h
    have hminimal : isMinimal vch = true := by
      by_contra hnot
      rw [if_pos (by simp [hnot])] at h
      cases h
    use set_vch vch
    rw [serialize_eq, toInt_set_vch hword, serialize_set_vch hminimal]
  · rintro ⟨value, rfl⟩
    rw [serialize_eq, isMinimal_serialize, if_neg (by decide)]
    rfl

end Word

/-- A value that has an opposite is read back; the constructor that requires minimal bytes takes exactly
those that are written; and both types read the same number from the bytes of an operand, and write it in
the same way. -/
theorem scriptNum_codec :
    (∀ value, value ≠ Int64.minValue → Word.set_vch (Word.serialize value) = value) ∧
    (∀ vch, vch.length ≤ nMaxNumSize →
      ((Word.ofVch vch true).isSome ↔ ∃ value, vch = Word.serialize value)) ∧
    ∀ vch, vch.length ≤ 4 →
      (Word.set_vch vch).toInt = CBigNum.setvch vch ∧
      Word.serialize (Word.set_vch vch) = CBigNum.getvch (CBigNum.setvch vch) := by
  refine ⟨fun value hvalue => Word.set_vch_serialize hvalue, fun vch hlength =>
    Word.ofVch_isSome_iff hlength, fun vch hlength => ?_⟩
  have hread : (Word.set_vch vch).toInt = CBigNum.setvch vch := by
    rw [Word.toInt_set_vch (by omega), setvch_eq_set_vch]
  exact ⟨hread, by rw [Word.serialize_eq, hread, getvch_eq_serialize]⟩

end ZalemCoin.Script.CScriptNum
