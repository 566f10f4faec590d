import Mathlib.Data.List.TakeWhile
import ZalemCoin.Lib.Radix
import ZalemCoin.Script.NumberWords

/-!
# Base 58

Keys and addresses are written in base 58, with a `1` for each zero byte at the front. Writing converts
the bytes in place in an array of digits; reading computes a big number and takes its bytes. Reading
skips the `1`s at the front and does not put zero bytes back for them, so that what has been written is
read back exactly when it does not begin with a zero byte.
-/

namespace ZalemCoin.Wallet

open Chain Lib Script
open Option (some.inj bind_some)

/-! ## Writing -/

/-- All letters and digits except for `0`, `I`, `O` and `l`. -/
def pszBase58 : List Char := "123456789ABCDEFGHJKLMNPQRSTUVWXYZabcdefghijkmnopqrstuvwxyz".toList

/-- Applies `b58 = b58 * 256 + ch`. The program ends when the array is too small. -/
def applyByte (b58 : List ℕ) (ch : UInt8) : Option (List ℕ) :=
  let (carry, b58) := Lib.Radix.mulAdd 58 256 ch.toNat b58
  if carry = 0 then some b58 else none

def EncodeBase58 (vch : List UInt8) : Option (List Char) := do
  let zeroes := (vch.takeWhile (· == 0)).length
  let bytes := vch.dropWhile (· == 0)
  -- log(256) / log(58), rounded up
  let b58 ← bytes.foldlM applyByte (List.replicate (bytes.length * 138 / 100 + 1) 0)
  return List.replicate zeroes '1'
    ++ (b58.dropWhile fun d => d == 0).map fun d => pszBase58.getD d ' '

/-- The first four bytes of the hash of bytes. -/
def checksum (Hash_bmw512 : List UInt8 → UInt256) (vch : List UInt8) : List UInt8 :=
  littleEndian 4 (Hash_bmw512 vch).toNat

def EncodeBase58Check (Hash_bmw512 : List UInt8 → UInt256) (vchIn : List UInt8) :
    Option (List Char) :=
  EncodeBase58 (vchIn ++ checksum Hash_bmw512 vchIn)

/-! ## Reading -/

/-- Converts the characters to a big number; only white space may follow them. -/
def readDigits (bn : ℕ) : List Char → Option ℕ
  | [] => some bn
  | c :: p =>
    match pszBase58.idxOf? c with
    | none => if (c :: p).dropWhile isspace = [] then some bn else none
    | some bnChar => readDigits (bn * 58 + bnChar) p

/-- Takes the byte of the sign off, if there is one. -/
def trimSign (vchTmp : List UInt8) : List UInt8 :=
  match vchTmp.reverse with
  | last :: before :: _ => if last = 0 ∧ before ≥ 0x80 then vchTmp.dropLast else vchTmp
  | _ => vchTmp

/-- Reads bytes in base 58 from a string that ends in a zero character. -/
def decodeCString (psz : List Char) : Option (List UInt8) := do
  -- leading spaces and leading `1`s are skipped
  let psz := (psz.dropWhile isspace).dropWhile (· == '1')
  let bn ← readDigits 0 psz
  let vchTmp := trimSign (CBigNum.getvch bn)
  let nLeadingZeros := (psz.takeWhile (· == '1')).length
  return List.replicate nLeadingZeros 0 ++ vchTmp.reverse

def DecodeBase58 (str : List Char) : Option (List UInt8) :=
  decodeCString (str.takeWhile (· != '\x00'))

def DecodeBase58Check (Hash_bmw512 : List UInt8 → UInt256) (str : List Char) :
    Option (List UInt8) := do
  let vchRet ← DecodeBase58 str
  if vchRet.length < 4 then none
  let vch := vchRet.take (vchRet.length - 4)
  if checksum Hash_bmw512 vch ≠ vchRet.drop (vchRet.length - 4) then none
  return vch

/-! ## Digits and characters -/

def digitChar (d : ℕ) : Char := pszBase58.getD d ' '

theorem digitChar_spec : ∀ d : Fin 58, pszBase58.idxOf? (digitChar d) = some d.val ∧
    isspace (digitChar d) = false ∧ digitChar d ≠ '\x00' ∧ (digitChar d = '1' ↔ d.val = 0) := by
  decide

theorem digitChar_of_idxOf? {c : Char} {d : ℕ} (h : pszBase58.idxOf? c = some d) :
    d < 58 ∧ digitChar d = c := by
  obtain ⟨hlt, hc, -⟩ := List.idxOf?_eq_some_iff.mp h
  refine ⟨hlt, ?_⟩
  unfold digitChar
  rw [List.getD_eq_getElem _ _ hlt, hc]

variable {ds : List ℕ} {vch : List UInt8}

theorem readDigits_map (hds : ∀ d ∈ ds, d < 58) (bn : ℕ) :
    readDigits bn (ds.map digitChar) = some (ds.foldl (fun n d => 58 * n + d) bn) := by
  induction ds generalizing bn with
  | nil => rfl
  | cons d ds ih =>
    obtain ⟨hd, hrest⟩ := List.forall_mem_cons.mp hds
    rw [List.map_cons, readDigits, (digitChar_spec ⟨d, hd⟩).1]
    dsimp only
    rw [ih hrest, List.foldl_cons, Nat.mul_comm bn]

theorem readDigits_eq_some {bn n : ℕ} {psz : List Char} (h : readDigits bn psz = some n)
    (hend : ∀ c, psz.getLast? = some c → isspace c = false) :
    ∃ ds : List ℕ, (∀ d ∈ ds, d < 58) ∧ psz = ds.map digitChar ∧
      n = ds.foldl (fun n d => 58 * n + d) bn := by
  induction psz generalizing bn with
  | nil => exact ⟨[], nofun, rfl, (some.inj h).symm⟩
  | cons c p ih =>
    rw [readDigits] at h
    split at h
    · -- Only white space follows, and so there is some at the end.
      split at h
      · rename_i hspace
        have hlast := List.getLast_mem (List.cons_ne_nil c p)
        have hnot := hend _ (List.getLast?_eq_some_getLast (List.cons_ne_nil c p))
        rw [List.dropWhile_eq_nil_iff] at hspace
        exact absurd (hspace _ hlast) (by rw [hnot]; exact Bool.false_ne_true)
      · cases h
    · rename_i bnChar hchar
      obtain ⟨hd, hc⟩ := digitChar_of_idxOf? hchar
      have hrest : ∀ c', p.getLast? = some c' → isspace c' = false := by
        intro c' hc'
        apply hend
        rw [List.getLast?_cons, hc']
        rfl
      obtain ⟨ds, hds, rfl, rfl⟩ := ih h hrest
      refine ⟨bnChar :: ds, List.forall_mem_cons.mpr ⟨hd, hds⟩, ?_, ?_⟩
      · rw [List.map_cons, hc]
      · rw [List.foldl_cons, Nat.mul_comm bn]

/-! ## The bytes of a number -/

def byteNumber (vch : List UInt8) : ℕ := Lib.Radix.number 256 (vch.map UInt8.toNat)

theorem ofLittleEndian_reverse (vch : List UInt8) :
    ofLittleEndian vch.reverse = byteNumber vch := by
  unfold byteNumber
  induction vch using List.reverseRecOn with
  | nil => rfl
  | append_singleton vch b ih =>
    rw [List.reverse_append, List.reverse_singleton, List.singleton_append, ofLittleEndian, ih,
      List.map_append, List.map_singleton, Lib.Radix.number_concat, Nat.add_comm]

theorem byteNumber_dropWhile (vch : List UInt8) :
    byteNumber (vch.dropWhile (· == 0)) = byteNumber vch := by
  have hmap : (vch.dropWhile (· == 0)).map UInt8.toNat
      = (vch.map UInt8.toNat).dropWhile fun d => d == 0 := by
    rw [List.dropWhile_map]
    congr 2
    funext b
    exact Bool.eq_iff_iff.mpr (by simp [← UInt8.toNat_inj])
  unfold byteNumber
  rw [hmap, Lib.Radix.number_dropWhile]

theorem trimSign_getvch (hhead : vch.head? ≠ some 0) :
    (trimSign (CBigNum.getvch (byteNumber vch))).reverse = vch := by
  have hbytes : leBytes (byteNumber vch) (byteNumber vch) = vch.reverse := by
    rw [← ofLittleEndian_reverse]
    refine CScriptNum.leBytes_ofLittleEndian ?_ le_rfl
    intro last hlast hzero
    rw [List.getLast?_reverse, hzero] at hlast
    exact hhead hlast
  rw [getvch_eq_serialize]
  unfold CScriptNum.serialize
  rw [Int.natAbs_natCast, hbytes]
  dsimp only
  cases vch with
  | nil => rfl
  | cons top rest =>
    have htop : top ≠ 0 := fun hzero => hhead (congrArg some hzero)
    rw [List.getLast?_reverse, List.head?_cons]
    dsimp only
    have hpos : ¬(byteNumber (top :: rest) : ℤ) < 0 := not_lt.mpr (Int.natCast_nonneg _)
    split_ifs with hsign
    · -- A byte has been added for the sign, which is taken off.
      have hbig : top ≥ 0x80 := by
        have htoNat := byte_eq_sign top
        rw [if_pos hsign] at htoNat
        exact UInt8.le_iff_toNat_le.mpr (htoNat ▸ Nat.le_add_left _ _)
      unfold trimSign
      rw [List.reverse_append, List.reverse_singleton, List.reverse_reverse, List.singleton_append]
      dsimp only
      rw [if_pos ⟨rfl, hbig⟩, List.dropLast_concat, List.reverse_reverse]
    · unfold trimSign
      rw [List.reverse_reverse]
      cases rest with
      | nil => rfl
      | cons next rest =>
        dsimp only
        rw [if_neg fun h => htop h.1, List.reverse_reverse]

theorem exists_byteNumber (n : ℕ) : ∃ vch : List UInt8, vch.head? ≠ some 0 ∧ byteNumber vch = n := by
  refine ⟨(leBytes n n).reverse, ?_, ?_⟩
  · rw [List.head?_reverse]
    intro h
    exact CScriptNum.getLast?_leBytes le_rfl h rfl
  · rw [← ofLittleEndian_reverse, List.reverse_reverse]
    exact ofLittleEndian_leBytes le_rfl

/-! ## What is written -/

theorem room_for_bytes (n : ℕ) : 256 ^ n ≤ 58 ^ (n * 138 / 100 + 1) := by
  apply (Nat.pow_le_pow_iff_left (show 100 ≠ 0 by decide)).mp
  calc (256 ^ n) ^ 100 = (256 ^ 100) ^ n := pow_right_comm 256 n 100
    _ ≤ (58 ^ 138) ^ n := Nat.pow_le_pow_left (by norm_num) n
    _ = 58 ^ (138 * n) := (pow_mul 58 138 n).symm
    _ ≤ 58 ^ ((n * 138 / 100 + 1) * 100) := Nat.pow_le_pow_right (by norm_num) (by omega)
    _ = (58 ^ (n * 138 / 100 + 1)) ^ 100 := pow_mul 58 _ 100

theorem applyByte_eq {b58 : List ℕ} (ch : UInt8)
    (hroom : (Lib.Radix.number 58 b58 + 1) * 256 ≤ 58 ^ b58.length) :
    ∃ b58', applyByte b58 ch = some b58' ∧ b58'.length = b58.length ∧ (∀ d ∈ b58', d < 58) ∧
      Lib.Radix.number 58 b58' = 256 * Lib.Radix.number 58 b58 + ch.toNat := by
  have hch := ch.toNat_lt
  obtain ⟨hlen, hlt, hnum⟩ := Lib.Radix.mulAdd_spec (show 0 < 58 by decide) 256 ch.toNat b58
  have hcarry : (Lib.Radix.mulAdd 58 256 ch.toNat b58).1 = 0 := by
    by_contra hne
    have hmul := Nat.le_mul_of_pos_right (58 ^ b58.length) (Nat.pos_of_ne_zero hne)
    omega
  rw [hcarry, Nat.mul_zero, Nat.add_zero] at hnum
  exact ⟨_, if_pos hcarry, hlen, hlt, hnum⟩

theorem foldlM_applyByte {bytes : List UInt8} {b58 : List ℕ} (hlt : ∀ d ∈ b58, d < 58)
    (hroom : (Lib.Radix.number 58 b58 + 1) * 256 ^ bytes.length ≤ 58 ^ b58.length) :
    ∃ b58', bytes.foldlM applyByte b58 = some b58' ∧ (∀ d ∈ b58', d < 58) ∧
      Lib.Radix.number 58 b58'
        = 256 ^ bytes.length * Lib.Radix.number 58 b58 + byteNumber bytes := by
  induction bytes generalizing b58 with
  | nil => exact ⟨b58, rfl, hlt, by rw [List.length_nil, pow_zero, Nat.one_mul]; rfl⟩
  | cons ch bytes ih =>
    have hch := ch.toNat_lt
    have hpos : 0 < 256 ^ bytes.length := Nat.pow_pos (by decide)
    rw [List.length_cons, pow_succ'] at hroom
    rw [← Nat.mul_assoc] at hroom
    obtain ⟨b58', happly, hlen, hlt', hnum⟩ :=
      applyByte_eq ch ((Nat.le_mul_of_pos_right _ hpos).trans hroom)
    have hroom' : (Lib.Radix.number 58 b58' + 1) * 256 ^ bytes.length ≤ 58 ^ b58'.length := by
      rw [hlen, hnum]
      refine le_trans (Nat.mul_le_mul_right _ ?_) hroom
      omega
    obtain ⟨b58'', hfold, hlt'', hnum'⟩ := ih hlt' hroom'
    refine ⟨b58'', ?_, hlt'', ?_⟩
    · rw [List.foldlM_cons, happly]
      exact hfold
    · rw [hnum', hnum, List.length_cons, byteNumber, byteNumber, List.map_cons,
        Lib.Radix.number_cons, List.length_map]
      ring

theorem encodeBase58_eq (vch : List UInt8) : ∃ ds : List ℕ, (∀ d ∈ ds, d < 58) ∧
    ds.head? ≠ some 0 ∧ Lib.Radix.number 58 ds = byteNumber vch ∧
    EncodeBase58 vch
      = some (List.replicate (vch.takeWhile (· == 0)).length '1' ++ ds.map digitChar) := by
  set bytes := vch.dropWhile (· == 0) with hbytes
  set room := List.replicate (bytes.length * 138 / 100 + 1) 0 with hzeros
  have hlt : ∀ d ∈ room, d < 58 := fun d hd => by
    rw [List.eq_of_mem_replicate hd]
    decide
  have hroom : (Lib.Radix.number 58 room + 1) * 256 ^ bytes.length ≤ 58 ^ room.length := by
    rw [hzeros, Lib.Radix.number_replicate_zero, Nat.zero_add, Nat.one_mul, List.length_replicate]
    exact room_for_bytes bytes.length
  obtain ⟨b58, hfold, hlt', hnum⟩ := foldlM_applyByte hlt hroom
  refine ⟨b58.dropWhile fun d => d == 0, ?_, ?_, ?_, ?_⟩
  · exact fun d hd => hlt' d (List.dropWhile_sublist _ |>.mem hd)
  · intro hhead
    have hnot := List.head?_dropWhile_not (fun d => d == 0) b58
    rw [hhead] at hnot
    exact absurd hnot (by decide)
  · rw [Lib.Radix.number_dropWhile, hnum, hzeros, Lib.Radix.number_replicate_zero, Nat.mul_zero,
      Nat.zero_add, hbytes, byteNumber_dropWhile]
  · unfold EncodeBase58
    dsimp only
    rw [← hbytes, ← hzeros, hfold]
    rfl

/-! ## What is read -/

variable {str : List Char}

section

variable {psz : List Char}

theorem decodeCString_eq (psz : List Char) : decodeCString psz
    = (readDigits 0 ((psz.dropWhile isspace).dropWhile (· == '1'))).map
      fun bn : ℕ => (trimSign (CBigNum.getvch bn)).reverse := by
  unfold decodeCString
  dsimp only
  generalize hrest : (psz.dropWhile isspace).dropWhile (· == '1') = rest
  have hnone : (rest.takeWhile (· == '1')) = [] := by
    have hnot := List.head?_dropWhile_not (· == '1') (psz.dropWhile isspace)
    rw [hrest] at hnot
    cases rest with
    | nil => rfl
    | cons c rest =>
      rw [List.head?_cons] at hnot
      exact List.takeWhile_cons_of_neg (by rw [hnot]; exact Bool.false_ne_true)
  rw [hnone]
  cases readDigits 0 rest <;> rfl

theorem zero_notMem_written (hds : ∀ d ∈ ds, d < 58) (k : ℕ) :
    '\x00' ∉ List.replicate k '1' ++ ds.map digitChar := by
  rw [List.mem_append, List.mem_replicate, List.mem_map]
  rintro (⟨-, h⟩ | ⟨d, hd, h⟩)
  · exact absurd h (by decide)
  · exact (digitChar_spec ⟨d, hds d hd⟩).2.2.1 h

theorem decodeBase58_of_notMem (h : '\x00' ∉ str) : DecodeBase58 str = decodeCString str := by
  unfold DecodeBase58
  rw [List.takeWhile_eq_self_iff.mpr]
  intro c hc
  exact bne_iff_ne.mpr fun heq => h (heq ▸ hc)

variable (hds : ∀ d ∈ ds, d < 58) (hhead : ds.head? ≠ some 0)
include hds hhead

theorem head?_map_digitChar {c : Char}
    (hc : (ds.map digitChar).head? = some c) : c ≠ '1' ∧ isspace c = false := by
  rw [List.head?_map] at hc
  obtain ⟨d, hd, rfl⟩ := Option.map_eq_some_iff.mp hc
  have hlt := hds d (List.mem_of_mem_head? hd)
  obtain ⟨-, hspace, -, hone⟩ := digitChar_spec ⟨d, hlt⟩
  refine ⟨fun h => hhead ?_, hspace⟩
  rw [hd]
  exact congrArg some (hone.mp h)

theorem dropWhile_map_digitChar {skipped : Char → Bool}
    (hskipped : ∀ c, skipped c = true → c = '1' ∨ isspace c = true) :
    (ds.map digitChar).dropWhile skipped = ds.map digitChar := by
  cases hrest : ds.map digitChar with
  | nil => rfl
  | cons c rest =>
    obtain ⟨hone, hspace⟩ := head?_map_digitChar hds hhead (by rw [hrest]; rfl)
    refine List.dropWhile_cons_of_neg fun hc => ?_
    rcases hskipped c hc with h | h
    · exact hone h
    · exact absurd h (by rw [hspace]; exact Bool.false_ne_true)

theorem decodeBase58_digits (k : ℕ) (hnot : vch.head? ≠ some 0)
    (hnum : Lib.Radix.number 58 ds = byteNumber vch) :
    DecodeBase58 (List.replicate k '1' ++ ds.map digitChar) = some vch := by
  have hspace : (List.replicate k '1' ++ ds.map digitChar).dropWhile isspace
      = List.replicate k '1' ++ ds.map digitChar := by
    cases k with
    | zero => exact dropWhile_map_digitChar hds hhead fun c hc => .inr hc
    | succ k => rfl
  have hones : (List.replicate k '1' ++ ds.map digitChar).dropWhile (· == '1')
      = ds.map digitChar := by
    rw [List.dropWhile_append_of_pos fun c hc => beq_iff_eq.mpr (List.eq_of_mem_replicate hc)]
    exact dropWhile_map_digitChar hds hhead fun c hc => .inl (beq_iff_eq.mp hc)
  rw [decodeBase58_of_notMem (zero_notMem_written hds k), decodeCString_eq, hspace, hones,
    readDigits_map hds, Option.map_some, ← Lib.Radix.number, hnum, trimSign_getvch hnot]

theorem encodeBase58_digits (hnot : vch.head? ≠ some 0)
    (hnum : Lib.Radix.number 58 ds = byteNumber vch) :
    EncodeBase58 vch = some (ds.map digitChar) := by
  obtain ⟨ds', hds', hhead', hnum', hwr⟩ := encodeBase58_eq vch
  have hnone : vch.takeWhile (· == 0) = [] := by
    cases vch with
    | nil => rfl
    | cons b vch =>
      exact List.takeWhile_cons_of_neg fun hb => hnot (congrArg some (beq_iff_eq.mp hb))
  rw [hwr, hnone, Lib.Radix.number_injective (by decide) hds' hds hhead' hhead
    (hnum'.trans hnum.symm)]
  rfl

omit hds hhead

theorem head?_dropWhile_zero (vch : List UInt8) : (vch.dropWhile (· == 0)).head? ≠ some 0 := by
  intro h
  have hnot := List.head?_dropWhile_not (· == 0) vch
  rw [h] at hnot
  exact absurd hnot (by decide)

theorem decode_encode (vch : List UInt8) :
    (EncodeBase58 vch).bind DecodeBase58 = some (vch.dropWhile (· == 0)) := by
  obtain ⟨ds, hds, hhead, hnum, hwr⟩ := encodeBase58_eq vch
  rw [hwr, bind_some]
  apply decodeBase58_digits hds hhead _ (head?_dropWhile_zero vch)
  rw [hnum, byteNumber_dropWhile]

/-- A string that does not begin or end with white space. -/
structure Bare (str : List Char) : Prop where
  first : ∀ c, str.head? = some c → isspace c = false
  last : ∀ c, str.getLast? = some c → isspace c = false

theorem decodeBase58_eq_some (hbare : Bare str) (hzero : '\x00' ∉ str)
    (h : DecodeBase58 str = some vch) :
    ∃ k : ℕ, ∃ ds : List ℕ, (∀ d ∈ ds, d < 58) ∧ str = List.replicate k '1' ++ ds.map digitChar ∧
      Lib.Radix.number 58 ds = byteNumber vch ∧ ds.head? ≠ some 0 ∧ vch.head? ≠ some 0 := by
  have hspace : str.dropWhile isspace = str := by
    cases str with
    | nil => rfl
    | cons c str =>
      exact List.dropWhile_cons_of_neg (by rw [hbare.first c rfl]; exact Bool.false_ne_true)
  rw [decodeBase58_of_notMem hzero, decodeCString_eq, hspace] at h
  obtain ⟨bn, hread, rfl⟩ := Option.map_eq_some_iff.mp h
  have hsplit := List.takeWhile_append_dropWhile (p := (· == '1')) (l := str)
  have hones : str.takeWhile (· == '1')
      = List.replicate (str.takeWhile (· == '1')).length '1' := by
    refine List.eq_replicate_iff.mpr ⟨rfl, fun c hc => ?_⟩
    have hone : (c == '1') = true := @List.mem_takeWhile_imp Char (· == '1') str c hc
    exact beq_iff_eq.mp hone
  have hend : ∀ c, (str.dropWhile (· == '1')).getLast? = some c → isspace c = false := by
    intro c hc
    apply hbare.last
    rw [← hsplit, List.getLast?_append, hc]
    rfl
  obtain ⟨ds, hds, hrest, hnum⟩ := readDigits_eq_some hread hend
  obtain ⟨vch, hnot, hvch⟩ := exists_byteNumber bn
  refine ⟨_, ds, hds, by rw [← hrest, ← hones, hsplit], ?_, ?_, ?_⟩
  · rw [← hvch, trimSign_getvch hnot, hvch, hnum]
    rfl
  · intro hhead
    obtain ⟨ds, rfl⟩ : ∃ rest, ds = 0 :: rest := List.head?_eq_some_iff.mp hhead
    have hfst := List.head?_dropWhile_not (· == '1') str
    rw [hrest] at hfst
    have hone : (digitChar 0 == '1') = false := hfst
    exact absurd hone (by decide)
  · rw [← hvch, trimSign_getvch hnot]
    exact hnot

end

/-! ## The round trips -/

variable (Hash_bmw512 : List UInt8 → UInt256)

theorem decodeBase58Check_of_decode
    (h : DecodeBase58 str = some (vch ++ checksum Hash_bmw512 vch)) :
    DecodeBase58Check Hash_bmw512 str = some vch := by
  have hlen : (vch ++ checksum Hash_bmw512 vch).length = vch.length + 4 := by
    rw [List.length_append]
    rfl
  unfold DecodeBase58Check
  rw [h]
  dsimp only [Option.bind_eq_bind, bind_some]
  rw [if_neg (by omega), hlen, Nat.add_sub_cancel, List.take_left, List.drop_left,
    if_neg (not_not.mpr rfl)]
  rfl

theorem length_of_decodeBase58Check {vchRet : List UInt8} (h : DecodeBase58 str = some vchRet)
    (hchk : DecodeBase58Check Hash_bmw512 str = some vch) :
    vch.length + 4 = vchRet.length := by
  unfold DecodeBase58Check at hchk
  rw [h] at hchk
  dsimp only [Option.bind_eq_bind, bind_some] at hchk
  split at hchk
  · cases hchk
  · rename_i hlong
    split at hchk
    · cases hchk
    · rw [← some.inj hchk, List.length_take]
      omega

theorem dropWhile_zero_eq_iff (vch : List UInt8) :
    vch.dropWhile (· == 0) = vch ↔ vch.head? ≠ some 0 := by
  constructor
  · intro h
    rw [← h]
    exact head?_dropWhile_zero vch
  · intro h
    cases vch with
    | nil => rfl
    | cons b vch =>
      exact List.dropWhile_cons_of_neg fun hb => h (congrArg some (beq_iff_eq.mp hb))

theorem decodeCheck_encodeCheck_iff (vch : List UInt8) :
    (EncodeBase58Check Hash_bmw512 vch).bind (DecodeBase58Check Hash_bmw512) = some vch
      ↔ (vch ++ checksum Hash_bmw512 vch).head? ≠ some 0 := by
  unfold EncodeBase58Check
  rw [← dropWhile_zero_eq_iff]
  have hread := decode_encode (vch ++ checksum Hash_bmw512 vch)
  obtain ⟨str, hstr, hread⟩ := Option.bind_eq_some_iff.mp hread
  rw [hstr, bind_some]
  constructor
  · intro hchk
    have hlen := length_of_decodeBase58Check Hash_bmw512 hread hchk
    -- Nothing has been dropped, since as many bytes are left.
    refine (List.dropWhile_sublist _).eq_of_length ?_
    rw [← hlen, List.length_append]
    rfl
  · intro hsame
    rw [hsame] at hread
    exact decodeBase58Check_of_decode Hash_bmw512 hread

/-- What has been read is written as the same string exactly when the string does not begin with a `1`,
and no zero character hides its end. -/
theorem encode_decode_iff (hbare : Bare str) (h : DecodeBase58 str = some vch) :
    EncodeBase58 vch = some str ↔ str.head? ≠ some '1' ∧ '\x00' ∉ str := by
  obtain ⟨ds, hds, hhead, hnum, hwr⟩ := encodeBase58_eq vch
  by_cases hzero : '\x00' ∈ str
  · refine ⟨fun heq => ?_, fun hstr => absurd hzero hstr.2⟩
    rw [hwr] at heq
    rw [← some.inj heq] at hzero
    exact absurd hzero (zero_notMem_written hds _)
  · obtain ⟨k, ds', hds', rfl, hnum', hhead', hnot⟩ := decodeBase58_eq_some hbare hzero h
    rw [encodeBase58_digits hds' hhead' hnot hnum', Option.some_inj]
    constructor
    · intro heq
      refine ⟨fun hone => ?_, hzero⟩
      rw [← heq] at hone
      exact (head?_map_digitChar hds' hhead' hone).1 rfl
    · rintro ⟨hone, -⟩
      cases k with
      | zero => rfl
      | succ k => exact absurd rfl hone

/-- Bytes are read back exactly when they do not begin with a zero byte, also with their checksum, and a
string without white space around it is written again exactly when it does not begin with a `1`, and no
zero character hides its end. -/
theorem base58_round_trip_iff :
    (∀ vch, (EncodeBase58 vch).bind DecodeBase58 = some vch ↔ vch.head? ≠ some 0) ∧
    (∀ vch, (EncodeBase58Check Hash_bmw512 vch).bind (DecodeBase58Check Hash_bmw512) = some vch
      ↔ (vch ++ checksum Hash_bmw512 vch).head? ≠ some 0) ∧
    ∀ str vch, Bare str → DecodeBase58 str = some vch →
      (EncodeBase58 vch = some str ↔ str.head? ≠ some '1' ∧ '\x00' ∉ str) := by
  refine ⟨fun vch => ?_, decodeCheck_encodeCheck_iff Hash_bmw512, fun str vch hbare hread =>
    encode_decode_iff hbare hread⟩
  rw [decode_encode, Option.some_inj, dropWhile_zero_eq_iff]

/-- A zero byte at the front is lost: it is written as a `1`, which is read as no byte. -/
theorem zero_byte_lost : EncodeBase58 [0, 97] = some ['1', '2', 'g'] ∧
    DecodeBase58 ['1', '2', 'g'] = some [97] ∧ EncodeBase58 [97] = some ['2', 'g'] ∧
    EncodeBase58Check (fun _ => 0) [] = some ['1', '1', '1', '1'] ∧
    DecodeBase58Check (fun _ => 0) ['1', '1', '1', '1'] = none := by
  decide

/-- A string that is read and written again. -/
theorem bare_round_trip :
    (EncodeBase58 [98, 98, 98]).bind DecodeBase58 = some [98, 98, 98] ∧
    (EncodeBase58Check (fun _ => 0) [98]).bind (DecodeBase58Check fun _ => 0) = some [98] ∧
    EncodeBase58 [98, 98, 98] = some ['a', '3', 'g', 'V'] := by
  obtain ⟨hbytes, hcheck, hstring⟩ := base58_round_trip_iff fun _ => 0
  have hbare : Bare ['a', '3', 'g', 'V'] := by
    constructor
    · rintro c ⟨⟩
      rfl
    · rintro c ⟨⟩
      rfl
  have hread : DecodeBase58 ['a', '3', 'g', 'V'] = some [98, 98, 98] := by decide
  exact ⟨(hbytes _).mpr (by decide), (hcheck _).mpr (by decide),
    (hstring _ _ hbare hread).mpr (by decide)⟩

end ZalemCoin.Wallet
