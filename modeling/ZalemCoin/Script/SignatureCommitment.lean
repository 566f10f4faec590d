import ZalemCoin.Script.Spendable
import ZalemCoin.Storage.PrefixCodes

/-!
# What a signature commits to

`SignatureHash` edits a copy of the transaction and hashes what is left of it. The copy can be told from
its bytes, and from the copy follows what the hash type commits to; nothing else goes into it.
-/

namespace ZalemCoin.Script

open Chain
open Storage (writeTransaction writeUInt32 InMemory)
open Option (map_some map_map)

variable {Key : Type} {lib : SignatureLibrary Key}

/-! ## The parts of a transaction -/

def AnyoneCanPay (nHashType : UInt32) : Prop := nHashType &&& SIGHASH_ANYONECANPAY.toUInt32 ≠ 0

def HasType (nHashType : UInt32) (type : UInt8) : Prop := nHashType &&& 0x1f = type.toUInt32

instance (nHashType : UInt32) : Decidable (AnyoneCanPay nHashType) :=
  inferInstanceAs (Decidable (nHashType &&& SIGHASH_ANYONECANPAY.toUInt32 ≠ 0))
instance (nHashType : UInt32) (type : UInt8) : Decidable (HasType nHashType type) :=
  inferInstanceAs (Decidable (nHashType &&& 0x1f = type.toUInt32))

/-- Whether a hash type lets the other inputs change their sequence numbers. -/
def FreesOthers (nHashType : UInt32) : Prop :=
  HasType nHashType SIGHASH_NONE ∨ HasType nHashType SIGHASH_SINGLE

instance (nHashType : UInt32) : Decidable (FreesOthers nHashType) :=
  inferInstanceAs (Decidable (_ ∨ _))

/-- What a hash type commits to. -/
structure Committed where
  nHashType : UInt32
  nVersion : ℤ
  nTime : UInt32
  nLockTime : UInt32
  /-- The script without its separators. -/
  scriptCode : CScript
  prevouts : List COutPoint
  nSequences : List UInt32
  /-- The number of outputs, and those of them that count. -/
  nOutputs : ℕ
  vout : List CTxOut
deriving DecidableEq

def committed (scriptCode : CScript) (txTo : CTransaction) (nIn : ℕ) (nHashType : UInt32) :
    Committed where
  nHashType := nHashType
  nVersion := txTo.nVersion
  nTime := txTo.nTime
  nLockTime := txTo.nLockTime
  scriptCode := CScript.FindAndDelete scriptCode [OP_CODESEPARATOR]
  prevouts := (if AnyoneCanPay nHashType then txTo.vin[nIn]?.toList else txTo.vin).map CTxIn.prevout
  nSequences := (if AnyoneCanPay nHashType ∨ FreesOthers nHashType then txTo.vin[nIn]?.toList
    else txTo.vin).map CTxIn.nSequence
  nOutputs := if HasType nHashType SIGHASH_NONE then 0
    else if HasType nHashType SIGHASH_SINGLE then nIn + 1 else txTo.vout.length
  vout := if HasType nHashType SIGHASH_NONE then []
    else if HasType nHashType SIGHASH_SINGLE then txTo.vout[nIn]?.toList else txTo.vout

def InRange (txTo : CTransaction) (nIn : ℕ) (nHashType : UInt32) : Prop :=
  nIn < txTo.vin.length ∧ (HasType nHashType SIGHASH_SINGLE → nIn < txTo.vout.length)

/-! ## The copy -/

def copiedInputs (fFree : Prop) [Decidable fFree] (scriptCode : CScript) (nIn : ℕ) (vin : List CTxIn) :
    List CTxIn :=
  vin.mapIdx fun i txin => ⟨txin.prevout, if i = nIn then scriptCode else [],
    if fFree ∧ i ≠ nIn then 0 else txin.nSequence⟩

def signedCopy (scriptCode : CScript) (txTo : CTransaction) (nIn : ℕ) (nHashType : UInt32) :
    CTransaction :=
  let vin := copiedInputs (FreesOthers nHashType) (CScript.FindAndDelete scriptCode [OP_CODESEPARATOR])
    nIn txTo.vin
  { txTo with
    vin := if AnyoneCanPay nHashType then vin[nIn]?.toList else vin
    vout := if HasType nHashType SIGHASH_NONE then []
      else if HasType nHashType SIGHASH_SINGLE then
        List.replicate nIn CTxOut.null ++ (txTo.vout.drop nIn).take 1
      else txTo.vout }

theorem signatureHash_eq {scriptCode : CScript} {txTo : CTransaction} {nIn : ℕ} {nHashType : UInt32}
    (h : InRange txTo nIn nHashType) : SignatureHash lib scriptCode txTo nIn nHashType
      = lib.HashWriter (signedCopy scriptCode txTo nIn nHashType) nHashType := by
  have hblank : blankScripts (CScript.FindAndDelete scriptCode [OP_CODESEPARATOR]) nIn txTo.vin
      = copiedInputs False (CScript.FindAndDelete scriptCode [OP_CODESEPARATOR]) nIn txTo.vin := by
    unfold blankScripts copiedInputs
    simp
  have hfree : freeSequences nIn (blankScripts (CScript.FindAndDelete scriptCode [OP_CODESEPARATOR]) nIn
      txTo.vin) = copiedInputs True (CScript.FindAndDelete scriptCode [OP_CODESEPARATOR]) nIn
        txTo.vin := by
    unfold freeSequences blankScripts copiedInputs
    rw [List.mapIdx_mapIdx]
    congr 1
    funext i txin
    by_cases hi : i = nIn <;> simp [hi]
  have hsingle : ¬(nHashType &&& 0x1f = SIGHASH_SINGLE.toUInt32 ∧ txTo.vout.length ≤ nIn) :=
    fun hand => absurd (h.2 hand.1) (Nat.not_lt.mpr hand.2)
  unfold SignatureHash signedCopy
  rw [if_neg (Nat.not_le.mpr h.1)]
  rw [if_neg hsingle, hfree, hblank]
  by_cases hnone : nHashType &&& 0x1f = SIGHASH_NONE.toUInt32
  · simp only [AnyoneCanPay, HasType, FreesOthers, hnone, if_true, true_or]
    split <;> rfl
  · by_cases hone : nHashType &&& 0x1f = SIGHASH_SINGLE.toUInt32
    · have hdiff : SIGHASH_SINGLE.toUInt32 ≠ SIGHASH_NONE.toUInt32 := by decide
      simp only [AnyoneCanPay, HasType, FreesOthers, hone, hdiff, if_false, if_true, or_true]
      split <;> rfl
    · simp only [AnyoneCanPay, HasType, FreesOthers, hnone, hone, if_false, or_false]
      split <;> rfl

/-! ## From the copy to what it commits to -/

variable {fFree : Prop} [Decidable fFree] {code code' : CScript} {nIn nIn' : ℕ} {vin vin' : List CTxIn}

theorem copiedInputs_getElem? (i : ℕ) : (copiedInputs fFree code nIn vin)[i]?
    = vin[i]?.map fun txin => ⟨txin.prevout, if i = nIn then code else [],
      if fFree ∧ i ≠ nIn then 0 else txin.nSequence⟩ :=
  List.getElem?_mapIdx

/-- The copied inputs determine what is signed of the inputs. -/
theorem copiedInputs_inj {txin txin' : CTxIn} (hget : vin[nIn]? = some txin)
    (hget' : vin'[nIn']? = some txin')
    (h : copiedInputs fFree code nIn vin = copiedInputs fFree code' nIn' vin') :
    code = code' ∧ vin.map CTxIn.prevout = vin'.map CTxIn.prevout ∧
      (fFree → txin.nSequence = txin'.nSequence) ∧
      (¬fFree → vin.map CTxIn.nSequence = vin'.map CTxIn.nSequence) := by
  have hat : ∀ i, (vin[i]?.map fun txin : CTxIn => (⟨txin.prevout, if i = nIn then code else [],
        if fFree ∧ i ≠ nIn then 0 else txin.nSequence⟩ : CTxIn))
      = vin'[i]?.map fun txin => ⟨txin.prevout, if i = nIn' then code' else [],
        if fFree ∧ i ≠ nIn' then 0 else txin.nSequence⟩ := by
    intro i
    rw [← copiedInputs_getElem?, ← copiedInputs_getElem?, h]
  have hsig : code = code' ∧ (fFree → txin.nSequence = txin'.nSequence) := by
    have hmap := hat nIn
    have hmap' := hat nIn'
    rcases eq_or_ne nIn nIn' with rfl | hne
    · rw [hget, hget', map_some, map_some, Option.some.injEq, CTxIn.mk.injEq, if_pos rfl,
        if_pos rfl, if_neg fun hand => hand.2 rfl, if_neg fun hand => hand.2 rfl] at hmap
      exact ⟨hmap.2.1, fun _ => hmap.2.2⟩
    · -- each of the two inputs is another one in the other transaction
      rw [hget, map_some] at hmap
      rw [hget', map_some] at hmap'
      obtain ⟨b, -, hfields⟩ := Option.map_eq_some_iff.mp hmap.symm
      obtain ⟨a, -, hfields'⟩ := Option.map_eq_some_iff.mp hmap'
      simp only [CTxIn.mk.injEq, hne, hne.symm, if_true, if_false, ne_eq, not_true_eq_false,
        not_false_eq_true, and_true, and_false] at hfields hfields'
      refine ⟨hfields.2.1.symm.trans hfields'.2.1, fun hfree => ?_⟩
      rw [← hfields.2.2, ← hfields'.2.2, if_pos hfree, if_pos hfree]
  refine ⟨hsig.1, ?_, hsig.2, ?_⟩
  · apply List.ext_getElem?
    intro i
    rw [List.getElem?_map, List.getElem?_map]
    have hmap := congrArg (Option.map CTxIn.prevout) (hat i)
    rwa [map_map, map_map] at hmap
  · intro hfree
    apply List.ext_getElem?
    intro i
    have hmap := congrArg (Option.map CTxIn.nSequence) (hat i)
    rw [map_map, map_map] at hmap
    simp only [hfree, false_and, if_false] at hmap
    rwa [List.getElem?_map, List.getElem?_map]

variable {scriptCode scriptCode' : CScript} {txTo txTo' : CTransaction} {nHashType nHashType' : UInt32}

/-- Two copies that are the same commit to the same data. -/
theorem signedCopy_inj (hrng : InRange txTo nIn nHashType) (hrng' : InRange txTo' nIn' nHashType)
    (h : signedCopy scriptCode txTo nIn nHashType = signedCopy scriptCode' txTo' nIn' nHashType) :
    committed scriptCode txTo nIn nHashType = committed scriptCode' txTo' nIn' nHashType := by
  simp only [signedCopy, CTransaction.mk.injEq] at h
  obtain ⟨hver, htime, hin, hout, hlock⟩ := h
  simp only [committed, Committed.mk.injEq, hver, htime, hlock, true_and]
  obtain ⟨txin, hget⟩ : ∃ txin, txTo.vin[nIn]? = some txin := ⟨_, List.getElem?_eq_getElem hrng.1⟩
  obtain ⟨txin', hget'⟩ : ∃ txin, txTo'.vin[nIn']? = some txin :=
    ⟨_, List.getElem?_eq_getElem hrng'.1⟩
  have hins : CScript.FindAndDelete scriptCode [OP_CODESEPARATOR]
        = CScript.FindAndDelete scriptCode' [OP_CODESEPARATOR] ∧
      (if AnyoneCanPay nHashType then txTo.vin[nIn]?.toList else txTo.vin).map CTxIn.prevout
        = (if AnyoneCanPay nHashType then txTo'.vin[nIn']?.toList else txTo'.vin).map CTxIn.prevout ∧
      (if AnyoneCanPay nHashType ∨ FreesOthers nHashType then txTo.vin[nIn]?.toList
          else txTo.vin).map CTxIn.nSequence
        = (if AnyoneCanPay nHashType ∨ FreesOthers nHashType then txTo'.vin[nIn']?.toList
          else txTo'.vin).map CTxIn.nSequence := by
    rw [hget, hget']
    by_cases hany : AnyoneCanPay nHashType
    · rw [if_pos hany, if_pos hany, copiedInputs_getElem?, copiedInputs_getElem?, hget, hget'] at hin
      simp only [map_some, Option.toList_some, List.cons.injEq, and_true, CTxIn.mk.injEq,
        if_true, ne_eq, not_true_eq_false, and_false, if_false] at hin
      obtain ⟨hprev, hcode, hsequence⟩ := hin
      simp [hany, hprev, hcode, hsequence]
    · rw [if_neg hany, if_neg hany] at hin
      obtain ⟨hcode, hprevs, hkept, hall⟩ := copiedInputs_inj hget hget' hin
      by_cases hfree : FreesOthers nHashType
      · simp [hany, hfree, hcode, hprevs, hkept hfree]
      · simp [hany, hfree, hcode, hprevs, hall hfree]
  refine ⟨hins.1, hins.2.1, hins.2.2, ?_⟩
  by_cases hnone : HasType nHashType SIGHASH_NONE
  · simp [hnone]
  by_cases hone : HasType nHashType SIGHASH_SINGLE
  · -- the null outputs before the one that counts say where it stands
    have hlt := hrng.2 hone
    have hlt' := hrng'.2 hone
    rw [if_neg hnone, if_neg hnone, if_pos hone, if_pos hone, List.drop_eq_getElem_cons hlt,
      List.drop_eq_getElem_cons hlt', List.take_succ_cons, List.take_succ_cons, List.take_zero,
      List.take_zero] at hout
    obtain ⟨hnulls, hlast⟩ := List.append_inj' hout rfl
    have hcnt := congrArg List.length hnulls
    rw [List.length_replicate, List.length_replicate] at hcnt
    rw [if_neg hnone, if_neg hnone, if_pos hone, if_pos hone, if_neg hnone, if_neg hnone, if_pos hone,
      if_pos hone, List.getElem?_eq_getElem hlt, List.getElem?_eq_getElem hlt']
    exact ⟨congrArg Nat.succ hcnt, hlast⟩
  · rw [if_neg hnone, if_neg hnone, if_neg hone, if_neg hone] at hout
    simp [hnone, hone, hout]

theorem copiedInputs_congr (hprevs : vin.map CTxIn.prevout = vin'.map CTxIn.prevout)
    (hkept : vin[nIn]?.map CTxIn.nSequence = vin'[nIn]?.map CTxIn.nSequence)
    (hall : ¬fFree → vin.map CTxIn.nSequence = vin'.map CTxIn.nSequence) :
    copiedInputs fFree code nIn vin = copiedInputs fFree code nIn vin' := by
  apply List.ext_getElem?
  intro i
  rw [copiedInputs_getElem?, copiedInputs_getElem?]
  have hprev := congrArg (fun l : List COutPoint => l[i]?) hprevs
  rw [List.getElem?_map, List.getElem?_map] at hprev
  have hsequence : ¬(fFree ∧ i ≠ nIn) →
      vin[i]?.map CTxIn.nSequence = vin'[i]?.map CTxIn.nSequence := by
    intro hnot
    by_cases hi : i = nIn
    · rw [hi, hkept]
    · have hlist := congrArg (fun l : List UInt32 => l[i]?) (hall fun hfree => hnot ⟨hfree, hi⟩)
      rwa [List.getElem?_map, List.getElem?_map] at hlist
  rcases ha : vin[i]? with _ | a
  · rw [ha] at hprev
    rw [Option.map_eq_none_iff.mp hprev.symm]
  · rw [ha] at hprev hsequence
    obtain ⟨b, hb, hpoint⟩ := Option.map_eq_some_iff.mp hprev.symm
    rw [hb] at hsequence ⊢
    rw [map_some, map_some, hpoint]
    by_cases hfreed : fFree ∧ i ≠ nIn
    · rw [if_pos hfreed, if_pos hfreed]
    · rw [if_neg hfreed, if_neg hfreed, Option.some.inj (hsequence hfreed)]

theorem map_eq_of_toList {β : Type} {f : CTxIn → β} {o o' : Option CTxIn}
    (h : o.toList.map f = o'.toList.map f) : o.map f = o'.map f := by
  cases o <;> cases o' <;> simp_all

theorem signedCopy_congr (h : committed scriptCode txTo nIn nHashType
    = committed scriptCode' txTo' nIn nHashType) :
    signedCopy scriptCode txTo nIn nHashType = signedCopy scriptCode' txTo' nIn nHashType := by
  simp only [committed, Committed.mk.injEq, true_and] at h
  obtain ⟨hver, htime, hlock, hcode, hprevs, hseqs, -, hout⟩ := h
  simp only [signedCopy, CTransaction.mk.injEq, hver, htime, hlock, hcode, true_and, and_true]
  constructor
  · by_cases hany : AnyoneCanPay nHashType
    · rw [if_pos hany, if_pos hany] at hprevs
      rw [if_pos (.inl hany), if_pos (.inl hany)] at hseqs
      rw [if_pos hany, if_pos hany, copiedInputs_getElem?, copiedInputs_getElem?]
      generalize txTo.vin[nIn]? = o at hprevs hseqs ⊢
      generalize txTo'.vin[nIn]? = o' at hprevs hseqs ⊢
      cases o <;> cases o' <;> simp_all
    · rw [if_neg hany, if_neg hany] at hprevs
      rw [if_neg hany, if_neg hany]
      by_cases hfree : FreesOthers nHashType
      · rw [if_pos (.inr hfree), if_pos (.inr hfree)] at hseqs
        exact copiedInputs_congr hprevs (map_eq_of_toList hseqs) fun hnot => absurd hfree hnot
      · rw [if_neg fun hor => hor.elim hany hfree, if_neg fun hor => hor.elim hany hfree] at hseqs
        refine copiedInputs_congr hprevs ?_ fun _ => hseqs
        rw [← List.getElem?_map, hseqs, List.getElem?_map]
  · by_cases hnone : HasType nHashType SIGHASH_NONE
    · rw [if_pos hnone, if_pos hnone]
    · by_cases hone : HasType nHashType SIGHASH_SINGLE
      · rw [if_neg hnone, if_neg hnone, if_pos hone, if_pos hone] at hout
        rw [if_neg hnone, if_neg hnone, if_pos hone, if_pos hone, List.take_one, List.head?_drop,
          List.take_one, List.head?_drop, hout]
      · rw [if_neg hnone, if_neg hnone, if_neg hone, if_neg hone] at hout
        rw [if_neg hnone, if_neg hnone, if_neg hone, if_neg hone, hout]

/-! ## The hash -/

def preimage (scriptCode : CScript) (txTo : CTransaction) (nIn : ℕ) (nHashType : UInt32) : List UInt8 :=
  writeTransaction (signedCopy scriptCode txTo nIn nHashType) ++ writeUInt32 nHashType

theorem length_findAndDelete_le (script b : CScript) :
    (CScript.FindAndDelete script b).length ≤ script.length := by
  have herase : ∀ (fuel : ℕ) (script : CScript), (erasePrefix b fuel script).length ≤ script.length := by
    intro fuel
    induction fuel with
    | zero => exact fun script => le_rfl
    | succ fuel ih =>
      intro script
      unfold erasePrefix
      split
      · have hdrop := ih (script.drop b.length)
        rw [List.length_drop] at hdrop
        omega
      · exact le_rfl
  have hloop : ∀ (fuel : ℕ) (script : CScript),
      (findAndDeleteLoop b fuel script).length ≤ script.length := by
    intro fuel
    induction fuel with
    | zero => exact fun script => le_rfl
    | succ fuel ih =>
      intro script
      have hleft := herase script.length script
      unfold findAndDeleteLoop
      dsimp only
      split
      · exact hleft
      · rename_i op hread
        have hrest := ih op.rest
        have hshorter := length_readInstruction hread
        rw [List.length_append, List.length_take]
        omega
  unfold CScript.FindAndDelete
  split
  · exact le_rfl
  · exact hloop _ _

structure Signable (scriptCode : CScript) (txTo : CTransaction) (nIn : ℕ) (nHashType : UInt32) :
    Prop where
  tx : InMemory txTo
  code : scriptCode.length < 256 ^ 8
  range : InRange txTo nIn nHashType

theorem Signable.inMemory (h : Signable scriptCode txTo nIn nHashType) :
    InMemory (signedCopy scriptCode txTo nIn nHashType) := by
  have hscripts : ∀ txin ∈ copiedInputs (FreesOthers nHashType)
      (CScript.FindAndDelete scriptCode [OP_CODESEPARATOR]) nIn txTo.vin,
        txin.scriptSig.length < 256 ^ 8 := by
    intro txin hmem
    obtain ⟨i, hi, rfl⟩ := List.mem_mapIdx.mp hmem
    dsimp only
    split
    · exact (length_findAndDelete_le _ _).trans_lt h.code
    · exact Nat.pow_pos (by decide)
  refine ⟨h.tx.nVersion, ?_, ?_⟩
  · unfold signedCopy
    split
    · refine ⟨?_, fun txin hmem => hscripts txin (List.mem_of_getElem? (Option.mem_toList.mp hmem))⟩
      exact lt_of_le_of_lt (Option.length_toList_le) (by decide)
    · refine ⟨?_, hscripts⟩
      rw [copiedInputs, List.length_mapIdx]
      exact h.tx.vin.1
  · unfold signedCopy
    dsimp only
    split
    · exact ⟨Nat.pow_pos (by decide), by simp⟩
    · split
      · rename_i hone
        have hlt := h.range.2 hone
        have hsize := h.tx.vout.1
        constructor
        · rw [List.length_append, List.length_replicate, List.length_take]
          omega
        · intro txout hmem
          rcases List.mem_append.mp hmem with hmem | hmem
          · rw [List.eq_of_mem_replicate hmem]
            exact ⟨⟨by decide, by decide⟩, Nat.pow_pos (by decide)⟩
          · exact h.tx.vout.2 txout (List.mem_of_mem_drop (List.mem_of_mem_take hmem))
      · exact h.tx.vout

/-- With a hash that does not collide on what is signed, equal hashes commit to equal parts; and what the
hash type does not commit to, as the scripts of the inputs, does not change the hash. -/
theorem signatureHash_commits {H : List UInt8 → UInt256}
    (hwriter : ∀ tx nHashType,
      lib.HashWriter tx nHashType = H (writeTransaction tx ++ writeUInt32 nHashType))
    (h : Signable scriptCode txTo nIn nHashType) (h' : Signable scriptCode' txTo' nIn' nHashType')
    (hinj : Set.InjOn H {preimage scriptCode txTo nIn nHashType,
      preimage scriptCode' txTo' nIn' nHashType'}) :
    (SignatureHash lib scriptCode txTo nIn nHashType = SignatureHash lib scriptCode' txTo' nIn' nHashType' →
      committed scriptCode txTo nIn nHashType = committed scriptCode' txTo' nIn' nHashType') ∧
    (nIn = nIn' → committed scriptCode txTo nIn nHashType = committed scriptCode' txTo' nIn' nHashType' →
      SignatureHash lib scriptCode txTo nIn nHashType
        = SignatureHash lib scriptCode' txTo' nIn' nHashType') := by
  rw [signatureHash_eq h.range, signatureHash_eq h'.range]
  constructor
  · intro hhash
    rw [hwriter, hwriter] at hhash
    have hbytes := hinj (Or.inl rfl) (Or.inr rfl) hhash
    obtain ⟨hcopy, htype⟩ :=
      Storage.separates_transaction _ _ _ _ h.inMemory h'.inMemory hbytes
    have hsame : nHashType = nHashType' := by
      rw [← List.append_nil (writeUInt32 nHashType), ← List.append_nil (writeUInt32 nHashType')] at htype
      exact (Storage.separates_uint32 _ _ _ _ trivial trivial htype).1
    subst hsame
    exact signedCopy_inj h.range h'.range hcopy
  · rintro rfl hcommitted
    obtain rfl : nHashType = nHashType' := congrArg Committed.nHashType hcommitted
    rw [signedCopy_congr hcommitted]

/-! ## Two transactions -/

def hashedBy (H : List UInt8 → UInt256) : SignatureLibrary Unit :=
  { plainScheme with
    HashWriter := fun tx nHashType => H (writeTransaction tx ++ writeUInt32 nHashType) }

def pairTo (scriptSig : CScript) (nSequence : UInt32) : CTransaction :=
  ⟨1, 0, [⟨⟨1, 0⟩, scriptSig, 0xffffffff⟩, ⟨⟨2, 0⟩, [], nSequence⟩], [], 0⟩

theorem pairTo_signable {scriptSig : CScript} (h : scriptSig.length < 256 ^ 8) (nSequence : UInt32)
    (hone : ¬HasType nHashType SIGHASH_SINGLE) :
    Signable [] (pairTo scriptSig nSequence) 0 nHashType := by
  have hins : ∀ txin ∈ (pairTo scriptSig nSequence).vin, txin.scriptSig.length < 256 ^ 8 := by
    intro txin hmem
    simp only [pairTo, List.mem_cons, List.not_mem_nil, or_false] at hmem
    rcases hmem with rfl | rfl
    · exact h
    · exact Nat.pow_pos (by decide)
  refine ⟨⟨?_, ⟨?_, hins⟩, ?_, by simp [pairTo]⟩, Nat.pow_pos (by decide), Nat.succ_pos _,
    fun hsingle => absurd hsingle hone⟩
  · exact ⟨(by decide : -256 ^ 4 ≤ 2 * (1 : ℤ)), (by decide : 2 * (1 : ℤ) < 256 ^ 4)⟩
  · exact (by decide : 2 < 256 ^ 8)
  · exact (by decide : 0 < 256 ^ 8)

/-- The script of an input does not change the hash. -/
theorem pairTo_script_free : SignatureHash (hashedBy fun bytes => BitVec.ofNat 256 bytes.length) []
    (pairTo [5] 7) 0 1 = SignatureHash (hashedBy fun bytes => BitVec.ofNat 256 bytes.length) []
      (pairTo [] 7) 0 1 := by
  have hcommitted : committed [] (pairTo [5] 7) 0 1 = committed [] (pairTo [] 7) 0 1 := by decide
  have hsame : preimage [] (pairTo [5] 7) 0 1 = preimage [] (pairTo [] 7) 0 1 := by
    unfold preimage
    rw [signedCopy_congr hcommitted]
  refine (signatureHash_commits (H := fun bytes => BitVec.ofNat 256 bytes.length) (fun _ _ => rfl)
    (pairTo_signable (by decide) 7 (by decide)) (pairTo_signable (by decide) 7 (by decide)) ?_).2
    rfl hcommitted
  rw [hsame]
  simp

/-- With `SIGHASH_ANYONECANPAY`, the other sequence numbers are free for `SIGHASH_ALL` as well. -/
theorem pairTo_sequence_free : ¬ ∀ (H : List UInt8 → UInt256) (lib : SignatureLibrary Unit),
    (∀ tx nHashType, lib.HashWriter tx nHashType = H (writeTransaction tx ++ writeUInt32 nHashType)) →
    ∀ scriptCode txTo txTo' nIn nHashType, Signable scriptCode txTo nIn nHashType →
      Signable scriptCode txTo' nIn nHashType →
      Set.InjOn H {preimage scriptCode txTo nIn nHashType, preimage scriptCode txTo' nIn nHashType} →
      SignatureHash lib scriptCode txTo nIn nHashType = SignatureHash lib scriptCode txTo' nIn nHashType →
      HasType nHashType SIGHASH_ALL →
      txTo.vin.map CTxIn.nSequence = txTo'.vin.map CTxIn.nSequence := by
  intro h
  have hcopy : signedCopy [] (pairTo [] 7) 0 0x81 = signedCopy [] (pairTo [] 8) 0 0x81 :=
    signedCopy_congr (by decide)
  have hseven : Signable [] (pairTo [] 7) 0 0x81 := pairTo_signable (by decide) 7 (by decide)
  have height : Signable [] (pairTo [] 8) 0 0x81 := pairTo_signable (by decide) 8 (by decide)
  have hsame : preimage [] (pairTo [] 7) 0 0x81 = preimage [] (pairTo [] 8) 0 0x81 := by
    unfold preimage
    rw [hcopy]
  have hsequences := h (fun bytes => BitVec.ofNat 256 bytes.length)
    (hashedBy fun bytes => BitVec.ofNat 256 bytes.length) (fun _ _ => rfl) [] _ _ 0 0x81 hseven height
    (by rw [hsame]; simp)
    (by rw [signatureHash_eq hseven.range, signatureHash_eq height.range, hcopy]) (by decide)
  exact absurd hsequences (by decide)

end ZalemCoin.Script
