import ZalemCoin.Script.Interpreter

/-!
# What a strict signature encoding is

`IsDERSignature` finds its way through a signature by two lengths that the signature itself gives.
`readDERSignature` is the same test with every read of a byte written out, where `none` stands for a
read past the end. It never reads past the end, and it accepts exactly the encodings of two positive
numbers.
-/

namespace ZalemCoin.Script

open Option (bind_some some.inj getD_some)

/-- The checks of one of the two numbers, each byte read when the code reads it. -/
def readDERInteger (vchSig : valtype) (start nLen : ℕ) : Option Bool := do
  let type ← vchSig[start - 2]?
  if type ≠ 0x02 then some false
  else if nLen = 0 then some false
  else
    let first ← vchSig[start]?
    if first &&& 0x80 ≠ 0 then some false
    else if 1 < nLen ∧ first = 0x00 then
      let second ← vchSig[start + 1]?
      some (second &&& 0x80 ≠ 0)
    else some true

def readDERSignature (vchSig : valtype) (haveHashType : Bool) : Option Bool :=
  if vchSig.length < 9 then some false
  else if vchSig.length > 73 then some false
  else do
    let type ← vchSig[0]?
    if type ≠ 0x30 then some false
    else
      let size ← vchSig[1]?
      if size.toNat ≠ vchSig.length - (if haveHashType then 3 else 2) then some false
      else
        let nLenR ← vchSig[3]?
        if 5 + nLenR.toNat ≥ vchSig.length then some false
        else
          let nLenS ← vchSig[5 + nLenR.toNat]?
          if nLenR.toNat + nLenS.toNat + (if haveHashType then 7 else 6) ≠ vchSig.length then
            some false
          else
            let fR ← readDERInteger vchSig 4 nLenR.toNat
            if fR = false then some false else readDERInteger vchSig (6 + nLenR.toNat) nLenS.toNat

/-- The bytes of a number that is not negative, without superfluous zeros in front. -/
structure DERInteger (bytes : valtype) : Prop where
  nonempty : bytes ≠ []
  nonneg : ∀ first ∈ bytes.head?, first < 0x80
  minimal : ∀ second rest, bytes = 0x00 :: second :: rest → 0x80 ≤ second

/-- An encoding of two numbers with the bytes `trailer` behind it. -/
structure DERSignature (vchSig trailer : valtype) : Prop where
  least : 9 ≤ vchSig.length
  most : vchSig.length ≤ 73
  form : ∃ (size nLenR nLenS : UInt8) (R S : valtype), DERInteger R ∧ DERInteger S
    ∧ vchSig = 0x30 :: size :: 0x02 :: nLenR :: (R ++ 0x02 :: nLenS :: (S ++ trailer))
    ∧ nLenR.toNat = R.length ∧ nLenS.toNat = S.length
    ∧ size.toNat = R.length + S.length + 4

theorem and_0x80_eq_zero (b : UInt8) : b &&& 0x80 = 0 ↔ b < 0x80 := by
  obtain ⟨⟨b⟩⟩ := b
  revert b
  decide +kernel

/-- The reader of an integer looks at its own bytes only. -/
theorem readDERInteger_eq (before after R : valtype) (type nLen : UInt8) :
    ∃ f, readDERInteger (before ++ type :: nLen :: (R ++ after)) (before.length + 2) R.length
        = some f ∧ (f = true ↔ type = 0x02 ∧ DERInteger R) := by
  have hat : ∀ i, (before ++ type :: nLen :: (R ++ after))[before.length + i]?
      = (type :: nLen :: (R ++ after))[i]? := by
    intro i
    rw [List.getElem?_append_right (by omega), Nat.add_sub_cancel_left]
  unfold readDERInteger
  rw [show before.length + 2 - 2 = before.length + 0 by omega, hat, hat, Nat.add_assoc, hat]
  dsimp only [Option.bind_eq_bind, List.getElem?_cons_zero, List.getElem?_cons_succ, bind_some]
  split
  · rename_i htype
    exact ⟨false, rfl, by simp [htype]⟩
  · rename_i htype
    rw [not_not] at htype
    cases R with
    | nil => exact ⟨false, rfl, by simpa using fun _ h => absurd rfl h.nonempty⟩
    | cons first rest =>
      rw [if_neg (by simp)]
      dsimp only [List.cons_append, List.getElem?_cons_zero, bind_some]
      split
      · rename_i hneg
        rw [ne_eq, and_0x80_eq_zero] at hneg
        exact ⟨false, rfl, by simpa using fun _ h => absurd (h.nonneg first rfl) hneg⟩
      · rename_i hpos
        rw [not_not, and_0x80_eq_zero] at hpos
        have hnn : ∀ b ∈ (first :: rest).head?, b < 0x80 := by
          rintro b ⟨⟩
          exact hpos
        split
        · rename_i hzero
          obtain ⟨hlong, rfl⟩ := hzero
          cases rest with
          | nil => simp at hlong
          | cons second rest =>
            refine ⟨decide (second &&& 0x80 ≠ 0), rfl, ?_⟩
            rw [decide_eq_true_eq, ne_eq, and_0x80_eq_zero, UInt8.not_lt]
            constructor
            · rintro hsnd
              refine ⟨htype, List.cons_ne_nil _ _, hnn, ?_⟩
              rintro b rest' heq
              rw [List.cons.injEq, List.cons.injEq] at heq
              rw [← heq.2.1]
              exact hsnd
            · rintro ⟨-, h⟩
              exact h.minimal second rest rfl
        · rename_i hzero
          refine ⟨true, rfl, fun _ => ⟨htype, List.cons_ne_nil _ _, hnn, ?_⟩, fun _ => rfl⟩
          rintro b rest' heq
          rw [heq] at hzero
          simp at hzero
          exact absurd (List.cons.inj heq).1 hzero

theorem exists_parts {vchSig : valtype} {nLenR nLenS : UInt8} {nTrailer : ℕ}
    (hR : vchSig[3]? = some nLenR) (hS : vchSig[5 + nLenR.toNat]? = some nLenS)
    (hsum : nLenR.toNat + nLenS.toNat + (6 + nTrailer) = vchSig.length) :
    ∃ type size typeR typeS R S trailer, vchSig
        = type :: size :: typeR :: nLenR :: (R ++ typeS :: nLenS :: (S ++ trailer))
      ∧ R.length = nLenR.toNat ∧ S.length = nLenS.toNat ∧ trailer.length = nTrailer := by
  obtain ⟨type, size, typeR, lenR, rest, rfl⟩ : ∃ type size typeR lenR rest,
      vchSig = type :: size :: typeR :: lenR :: rest := by
    match vchSig, hR with
    | type :: size :: typeR :: lenR :: rest, _ => exact ⟨_, _, _, _, _, rfl⟩
  obtain rfl : lenR = nLenR := some.inj hR
  simp only [List.length_cons] at hsum
  have hrest : rest[lenR.toNat + 1]? = some nLenS := by
    rw [show 5 + lenR.toNat = lenR.toNat + 1 + 1 + 1 + 1 + 1 by omega] at hS
    exact hS
  obtain ⟨typeS, lenS, rest', hdrop⟩ : ∃ typeS lenS rest',
      rest.drop lenR.toNat = typeS :: lenS :: rest' := by
    have hlen : (rest.drop lenR.toNat).length = nLenS.toNat + nTrailer + 2 := by
      rw [List.length_drop]
      omega
    match rest.drop lenR.toNat, hlen with
    | typeS :: lenS :: rest', _ => exact ⟨_, _, _, rfl⟩
  have hlen := congrArg List.length hdrop
  simp only [List.length_drop, List.length_cons] at hlen
  obtain rfl : lenS = nLenS := by
    have hget : (rest.drop lenR.toNat)[1]? = some nLenS := by
      rw [List.getElem?_drop]
      exact hrest
    rw [hdrop] at hget
    exact some.inj hget
  refine ⟨type, size, typeR, typeS, rest.take lenR.toNat, rest'.take lenS.toNat,
    rest'.drop lenS.toNat, ?_, ?_, ?_, ?_⟩
  · rw [List.take_append_drop, ← hdrop, List.take_append_drop]
  · rw [List.length_take]
    omega
  · rw [List.length_take]
    omega
  · rw [List.length_drop]
    omega

theorem DERSignature.reads {vchSig trailer : valtype} (h : DERSignature vchSig trailer) :
    ∃ size nLenR nLenS : UInt8, vchSig[0]? = some 0x30 ∧ vchSig[1]? = some size
      ∧ vchSig[3]? = some nLenR ∧ vchSig[5 + nLenR.toNat]? = some nLenS
      ∧ nLenR.toNat + nLenS.toNat + (6 + trailer.length) = vchSig.length
      ∧ size.toNat = nLenR.toNat + nLenS.toNat + 4 := by
  obtain ⟨-, -, size, nLenR, nLenS, R, S, -, -, rfl, hR, hS, hsize⟩ := h
  refine ⟨size, nLenR, nLenS, rfl, rfl, rfl, ?_, ?_, by omega⟩
  · rw [show 5 + nLenR.toNat = R.length + 1 + 1 + 1 + 1 + 1 by omega]
    simp only [List.getElem?_cons_succ]
    rw [List.getElem?_append_right (by omega), Nat.add_sub_cancel_left]
    rfl
  · simp only [List.length_cons, List.length_append]
    omega

theorem derSignature_parts {type size typeR nLenR typeS nLenS : UInt8} {R S trailer : valtype}
    (hR : R.length = nLenR.toNat) (hS : S.length = nLenS.toNat) (htype : type = 0x30)
    (hleast : 9 ≤ (type :: size :: typeR :: nLenR :: (R ++ typeS :: nLenS :: (S ++ trailer))).length)
    (hmost : (type :: size :: typeR :: nLenR :: (R ++ typeS :: nLenS :: (S ++ trailer))).length ≤ 73)
    (hsize : size.toNat = R.length + S.length + 4) :
    (∃ t : valtype, t.length = trailer.length ∧ DERSignature
        (type :: size :: typeR :: nLenR :: (R ++ typeS :: nLenS :: (S ++ trailer))) t)
      ↔ (typeR = 0x02 ∧ DERInteger R) ∧ typeS = 0x02 ∧ DERInteger S := by
  constructor
  · rintro ⟨t, ht, -, -, size', lenR, lenS, R', S', hintR, hintS, heq, hR', hS', -⟩
    simp only [List.cons.injEq] at heq
    obtain ⟨-, -, rfl, rfl, heq⟩ := heq
    obtain ⟨rfl, hrest⟩ := List.append_inj heq (by omega)
    simp only [List.cons.injEq] at hrest
    obtain ⟨rfl, rfl, hrest⟩ := hrest
    obtain ⟨rfl, -⟩ := List.append_inj hrest (by omega)
    exact ⟨⟨rfl, hintR⟩, rfl, hintS⟩
  · rintro ⟨⟨rfl, hintR⟩, rfl, hintS⟩
    rw [htype] at hleast hmost ⊢
    exact ⟨trailer, rfl, hleast, hmost, size, nLenR, nLenS, R, S, hintR, hintS, rfl, hR.symm,
      hS.symm, hsize⟩

theorem readDERSignature_exact (vchSig : valtype) (haveHashType : Bool) :
    ∃ f, readDERSignature vchSig haveHashType = some f
      ∧ (f = true ↔ ∃ trailer : valtype, trailer.length = haveHashType.toNat
        ∧ DERSignature vchSig trailer) := by
  have htrailer : (if haveHashType then 3 else 2) = 2 + haveHashType.toNat
      ∧ (if haveHashType then 7 else 6) = 6 + haveHashType.toNat := by
    cases haveHashType <;> exact ⟨rfl, rfl⟩
  -- A test that fails contradicts what the code reads of an encoding.
  have refused : (∀ trailer : valtype, trailer.length = haveHashType.toNat →
      DERSignature vchSig trailer → False) → ∃ f, some false = some f ∧ (f = true ↔
      ∃ trailer : valtype, trailer.length = haveHashType.toNat ∧ DERSignature vchSig trailer) :=
    fun hnot => ⟨false, rfl, nofun, fun ⟨t, ht, h⟩ => absurd h (hnot t ht)⟩
  unfold readDERSignature
  rw [htrailer.1, htrailer.2]
  split
  · exact refused fun t _ h => by have := h.least; omega
  split
  · exact refused fun t _ h => by have := h.most; omega
  rename_i hleast hmost
  obtain ⟨type, htype⟩ : ∃ b, vchSig[0]? = some b := ⟨_, List.getElem?_eq_getElem (by omega)⟩
  obtain ⟨size, hsize⟩ : ∃ b, vchSig[1]? = some b := ⟨_, List.getElem?_eq_getElem (by omega)⟩
  obtain ⟨nLenR, hlenR⟩ : ∃ b, vchSig[3]? = some b := ⟨_, List.getElem?_eq_getElem (by omega)⟩
  rw [htype, hsize, hlenR]
  dsimp only [Option.bind_eq_bind, bind_some]
  have hreads := fun t (ht : t.length = haveHashType.toNat) (h : DERSignature vchSig t) => h.reads
  rw [htype, hsize, hlenR] at hreads
  split
  · rename_i hne
    refine refused fun t ht h => ?_
    obtain ⟨_, _, _, heq, -⟩ := hreads t ht h
    exact hne (some.inj heq)
  split
  · rename_i hne
    refine refused fun t ht h => ?_
    obtain ⟨_, _, _, -, heq, -, -, hsum, hval⟩ := hreads t ht h
    rw [some.inj heq] at hne
    omega
  split
  · rename_i hge
    refine refused fun t ht h => ?_
    obtain ⟨_, _, _, -, -, heq, -, hsum, -⟩ := hreads t ht h
    rw [some.inj heq] at hge
    omega
  rename_i htype' hsize' hfits
  rw [not_not] at htype' hsize'
  obtain ⟨nLenS, hlenS⟩ : ∃ b, vchSig[5 + nLenR.toNat]? = some b :=
    ⟨_, List.getElem?_eq_getElem (by omega)⟩
  rw [hlenS, bind_some]
  split
  · rename_i hne
    refine refused fun t ht h => ?_
    obtain ⟨_, _, _, -, -, heq, heqS, hsum, -⟩ := hreads t ht h
    rw [← some.inj heq, hlenS] at heqS
    rw [← some.inj heq, ← some.inj heqS] at hsum
    omega
  · rename_i hsum
    rw [not_not] at hsum
    obtain ⟨type', size', typeR, typeS, R, S, trailer, rfl, hR, hS, ht⟩ :=
      exists_parts hlenR hlenS hsum
    obtain rfl : type' = type := some.inj htype
    obtain rfl : size' = size := some.inj hsize
    have hparts := @derSignature_parts _ size' typeR nLenR typeS nLenS R S trailer hR hS htype'
      (by omega) (by omega) (by omega)
    rw [← ht, hparts]
    have hstart : (type' :: size' :: typeR :: nLenR :: R).length + 2 = 6 + nLenR.toNat := by
      simp only [List.length_cons]
      omega
    obtain ⟨fR, hfR, hiffR⟩ :=
      readDERInteger_eq [type', size'] (typeS :: nLenS :: (S ++ trailer)) R typeR nLenR
    obtain ⟨fS, hfS, hiffS⟩ :=
      readDERInteger_eq (type' :: size' :: typeR :: nLenR :: R) trailer S typeS nLenS
    rw [show [type', size'].length + 2 = 4 from rfl, hR] at hfR
    rw [hstart, hS] at hfS
    simp only [List.cons_append, List.nil_append] at hfR hfS
    rw [hfR, bind_some, ← hiffR, ← hiffS]
    cases fR with
    | false => exact ⟨false, rfl, by simp⟩
    | true => exact ⟨fS, by rw [if_neg Bool.true_eq_false.mp]; exact hfS, by simp⟩

theorem isDERInteger_of_read {vchSig : valtype} {start nLen : ℕ} {f : Bool}
    (h : readDERInteger vchSig start nLen = some f) : isDERInteger vchSig start nLen = f := by
  unfold readDERInteger at h
  unfold isDERInteger
  obtain ⟨type, htype, h⟩ := Option.bind_eq_some_iff.mp h
  rw [htype]
  split at h
  · rename_i hne
    rw [← some.inj h, beq_eq_false_iff_ne.mpr fun heq => hne (some.inj heq)]
    rfl
  split at h
  · rename_i hzero
    rw [← some.inj h, hzero]
    simp
  rename_i htype' hlen
  obtain ⟨first, hfst, h⟩ := Option.bind_eq_some_iff.mp h
  rw [not_not] at htype'
  rw [hfst, htype', bne_iff_ne.mpr hlen, getD_some]
  split at h
  · rename_i hneg
    rw [← some.inj h, beq_eq_false_iff_ne.mpr hneg]
    simp
  rename_i hpos
  rw [not_not] at hpos
  rw [beq_iff_eq.mpr hpos]
  split at h
  · rename_i hpad
    obtain ⟨second, hsnd, h⟩ := Option.bind_eq_some_iff.mp h
    rw [← some.inj h, hsnd, decide_eq_true hpad.1, beq_iff_eq.mpr hpad.2]
    simp
    rfl
  · rename_i hpad
    rw [← some.inj h]
    simp
    exact .inl (not_and_or.mp hpad |>.imp_left not_lt.mp)

/-- The test reads what it says: its rounds are those of the reader, which stops at the first check
that fails. -/
theorem isDERSignature_of_read {vchSig : valtype} {haveHashType f : Bool}
    (h : readDERSignature vchSig haveHashType = some f) : IsDERSignature vchSig haveHashType = f := by
  unfold readDERSignature at h
  unfold IsDERSignature
  dsimp only
  generalize (if haveHashType then 3 else 2) = nMark, (if haveHashType then 7 else 6) = nRest at h ⊢
  -- A check that fails ends both; behind one that succeeds the next byte has been read.
  split at h
  · rw [← some.inj h, decide_eq_false (by omega)]
    rfl
  split at h
  · rw [← some.inj h, decide_eq_false (show ¬vchSig.length ≤ 73 by omega)]
    simp
  rename_i hleast hmost
  obtain ⟨type, htype, h⟩ := Option.bind_eq_some_iff.mp h
  rw [htype, decide_eq_true (show 9 ≤ vchSig.length by omega),
    decide_eq_true (show vchSig.length ≤ 73 by omega)]
  split at h
  · rename_i hne
    rw [← some.inj h, beq_eq_false_iff_ne.mpr fun heq => hne (some.inj heq)]
    simp
  rename_i htype'
  obtain ⟨size, hsize, h⟩ := Option.bind_eq_some_iff.mp h
  rw [not_not] at htype'
  rw [htype', hsize, getD_some]
  split at h
  · rename_i hne
    rw [← some.inj h, beq_eq_false_iff_ne.mpr hne]
    simp
  rename_i hsize'
  obtain ⟨nLenR, hlenR, h⟩ := Option.bind_eq_some_iff.mp h
  rw [not_not] at hsize'
  rw [beq_iff_eq.mpr hsize', hlenR, getD_some]
  split at h
  · rename_i hge
    rw [← some.inj h, decide_eq_false (not_lt.mpr hge)]
    simp
  rename_i hfits
  obtain ⟨nLenS, hlenS, h⟩ := Option.bind_eq_some_iff.mp h
  rw [hlenS, getD_some, decide_eq_true (not_le.mp hfits)]
  split at h
  · rename_i hne
    rw [← some.inj h, beq_eq_false_iff_ne.mpr hne]
    simp
  rename_i hsum
  obtain ⟨fR, hfR, h⟩ := Option.bind_eq_some_iff.mp h
  rw [not_not] at hsum
  rw [beq_iff_eq.mpr hsum, isDERInteger_of_read hfR]
  cases fR with
  | false =>
    rw [← some.inj h]
    rfl
  | true =>
    rw [if_neg Bool.true_eq_false.mp] at h
    rw [isDERInteger_of_read h]
    rfl

/-- The test of a signature with its hash type reads nothing outside the signature and accepts
exactly the strict encodings of two numbers and one byte behind them. -/
theorem isDERSignature_exact (vchSig : valtype) :
    readDERSignature vchSig true = some (IsDERSignature vchSig)
      ∧ (IsDERSignature vchSig = true ↔ ∃ nHashType, DERSignature vchSig [nHashType])
      ∧ ∀ haveHashType, (readDERSignature vchSig haveHashType).isSome := by
  obtain ⟨f, hread, hiff⟩ := readDERSignature_exact vchSig true
  rw [isDERSignature_of_read hread]
  refine ⟨hread, ?_, fun haveHashType => ?_⟩
  · rw [hiff]
    constructor
    · rintro ⟨trailer, hlength, h⟩
      obtain ⟨nHashType, rfl⟩ := List.length_eq_one_iff.mp hlength
      exact ⟨nHashType, h⟩
    · rintro ⟨nHashType, h⟩
      exact ⟨[nHashType], rfl, h⟩
  · obtain ⟨f', hread', -⟩ := readDERSignature_exact vchSig haveHashType
    rw [hread']
    rfl

end ZalemCoin.Script
