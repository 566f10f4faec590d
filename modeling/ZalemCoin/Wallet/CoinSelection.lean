import ZalemCoin.Chain.BlockSums
import ZalemCoin.Lib.Marked
import ZalemCoin.Lib.Yields

/-!
# Coin selection

`SelectCoinsMinConf` picks outputs of the wallet that are worth enough. An output that is worth exactly
the target ends the search. Outputs that are worth less than the target and a cent are candidates for a
subset, which a randomised search improves upon; of the larger ones the smallest is kept, and is taken
when the candidates are not worth enough or when it comes closer to the target.
-/

namespace ZalemCoin.Wallet

open Chain Lib
open List (length_set map_singleton map_map)

/-! ## The search for a subset -/

/-- A subset of the candidates under construction, and the best one so far. -/
structure SubsetSearch where
  vfIncluded : List Bool
  nTotal : ℤ
  fReachedTarget : Bool
  vfBest : List Bool
  nBest : ℤ

namespace SubsetSearch

/-- Includes a candidate, and takes it out again when the target is reached with it. -/
def tryCoin (nTargetValue : ℤ) (i : ℕ) (n : ℤ) (st : SubsetSearch) : SubsetSearch :=
  let nTotal := wrap64 (st.nTotal + n)
  let vfIncluded := st.vfIncluded.set i true
  if nTargetValue ≤ nTotal then
    { vfIncluded := vfIncluded.set i false
      nTotal := wrap64 (nTotal - n)
      fReachedTarget := true
      vfBest := if nTotal < st.nBest then vfIncluded else st.vfBest
      nBest := if nTotal < st.nBest then nTotal else st.nBest }
  else { st with vfIncluded := vfIncluded, nTotal := nTotal }

/-- One pass over the candidates from a position on, of which some are tried. -/
def pass (nTargetValue : ℤ) (wanted : ℕ → SubsetSearch → Bool) :
    ℕ → List ℤ → SubsetSearch → SubsetSearch
  | _, [], st => st
  | i, n :: vValue, st =>
    pass nTargetValue wanted (i + 1) vValue
      (if wanted i st then st.tryCoin nTargetValue i n else st)

/-- One repetition: a pass over candidates that are drawn, and one over those that are not included,
unless the target has been reached. -/
def repetition (vValue : List ℤ) (nTargetValue : ℤ) (bits : ℕ → Bool) (st : SubsetSearch) :
    SubsetSearch :=
  let st := { st with
    vfIncluded := List.replicate vValue.length false, nTotal := 0, fReachedTarget := false }
  let st := st.pass nTargetValue (fun i _ => bits i) 0 vValue
  if st.fReachedTarget then st
  else st.pass nTargetValue (fun i st => !st.vfIncluded[i]?.getD false) 0 vValue

end SubsetSearch

/-- Looks for a subset that is worth little more than the target. Each repetition draws a bit for each
candidate. -/
def ApproximateBestSubset (vValue : List ℤ) (nTotalLower nTargetValue : ℤ) (bits : ℕ → ℕ → Bool)
    (iterations : ℕ) : SubsetSearch :=
  (List.range iterations).foldl
    (fun st nRep =>
      if st.nBest ≠ nTargetValue then st.repetition vValue nTargetValue (bits nRep) else st)
    { vfIncluded := []
      nTotal := 0
      fReachedTarget := false
      vfBest := List.replicate vValue.length true
      nBest := nTotalLower }

/-! ## The selection -/

structure COutput (Tx : Type) where
  tx : Tx
  i : ℕ
  nDepth : ℤ
  fSpendable : Bool
deriving DecidableEq

/-- What the selection reads of the transactions that pointers lead to. Whether a transaction is from the
wallet depends on what its inputs are worth, which may be out of range. -/
structure TxReader (Tx : Type) where
  nTime : Tx → UInt32
  /-- The amount of an output. -/
  nValue : Tx → ℕ → ℤ
  IsFromMe : Tx → Except Failure Bool

/-- What a selection has besides its arguments: how `random_shuffle` leaves the outputs, how `sort` leaves
the candidates, since it does not say what becomes of equal amounts, and the bits of both searches. -/
structure Chance (Tx : Type) where
  shuffle : List (COutput Tx) → List (COutput Tx)
  shuffle_perm : ∀ l, (shuffle l).Perm l
  sort : List (ℤ × Tx × ℕ) → List (ℤ × Tx × ℕ)
  sort_perm : ∀ l, (sort l).Perm l
  sort_descending : ∀ l, (sort l).Pairwise fun a b => b.1 ≤ a.1
  bits : ℕ → ℕ → Bool
  bitsAgain : ℕ → ℕ → Bool

structure Selection (Tx : Type) where
  fSelected : Bool
  setCoinsRet : List (Tx × ℕ)
  nValueRet : ℤ
deriving DecidableEq

/-- The candidates: an output that is worth exactly the target, or else those that are worth less than
the target and a cent, what they are worth, and the smallest of the larger ones. -/
inductive Candidates (Tx : Type) where
  | exact (coin : ℤ × Tx × ℕ)
  | lower (vValue : List (ℤ × Tx × ℕ)) (nTotalLower : ℤ) (coinLowestLarger : Option (ℤ × Tx × ℕ))

section

variable {Tx : Type} (txs : TxReader Tx)

/-- Whether an output is smaller than the smallest of the larger ones. -/
def isLowest (n : ℤ) (coinLowestLarger : Option (ℤ × Tx × ℕ)) : Bool :=
  decide (n < (coinLowestLarger.map Prod.fst).getD (2 ^ 63 - 1))

def findCandidates (nTargetValue : ℤ) (nSpendTime : UInt32) (nConfMine nConfTheirs : ℤ) :
    List (COutput Tx) → List (ℤ × Tx × ℕ) → ℤ → Option (ℤ × Tx × ℕ) →
      Except Failure (Candidates Tx)
  | [], vValue, nTotalLower, coinLowestLarger => .ok (.lower vValue nTotalLower coinLowestLarger)
  | output :: vCoins, vValue, nTotalLower, coinLowestLarger =>
    let next := findCandidates nTargetValue nSpendTime nConfMine nConfTheirs vCoins
    if output.fSpendable = false then next vValue nTotalLower coinLowestLarger
    else do
      let fFromMe ← txs.IsFromMe output.tx
      if output.nDepth < (if fFromMe then nConfMine else nConfTheirs) then
        next vValue nTotalLower coinLowestLarger
      else if txs.nTime output.tx > nSpendTime then next vValue nTotalLower coinLowestLarger
      else
        let n := txs.nValue output.tx output.i
        let coin := (n, output.tx, output.i)
        if n = nTargetValue then .ok (.exact coin)
        else if n < wrap64 (nTargetValue + CENT) then
          next (vValue ++ [coin]) (wrap64 (nTotalLower + n)) coinLowestLarger
        else if isLowest n coinLowestLarger then next vValue nTotalLower (some coin)
        else next vValue nTotalLower coinLowestLarger

variable [DecidableEq Tx]

def takeCoins (coins : List (ℤ × Tx × ℕ)) : Selection Tx where
  fSelected := true
  setCoinsRet := coins.foldl (fun setCoinsRet coin => setCoinsRet.insert coin.2) []
  nValueRet := coins.foldl (fun nValueRet coin => wrap64 (nValueRet + coin.1)) 0

/-- The searches among sorted candidates: for the target, and when it is not met and they are worth
enough, for the target and a cent. -/
def searchSubset (chance : Chance Tx) (vValue : List (ℤ × Tx × ℕ)) (nTotalLower nTargetValue : ℤ) :
    SubsetSearch :=
  let found := ApproximateBestSubset (vValue.map Prod.fst) nTotalLower nTargetValue chance.bits 1000
  if found.nBest ≠ nTargetValue ∧ nTotalLower ≥ wrap64 (nTargetValue + CENT) then
    ApproximateBestSubset (vValue.map Prod.fst) nTotalLower (wrap64 (nTargetValue + CENT))
      chance.bitsAgain 1000
  else found

def prefersLarger (nTargetValue nBest : ℤ) (coin : ℤ × Tx × ℕ) : Bool :=
  decide ((nBest ≠ nTargetValue ∧ nBest < wrap64 (nTargetValue + CENT)) ∨ coin.1 ≤ nBest)

def takeSubset (chance : Chance Tx) (nTargetValue : ℤ) (vValue : List (ℤ × Tx × ℕ)) (nTotalLower : ℤ)
    (coinLowestLarger : Option (ℤ × Tx × ℕ)) : Selection Tx :=
  let vValue := chance.sort vValue
  let found := searchSubset chance vValue nTotalLower nTargetValue
  match coinLowestLarger.filter (prefersLarger nTargetValue found.nBest) with
  | some coin => takeCoins [coin]
  | none => takeCoins (marked vValue found.vfBest)

def select (chance : Chance Tx) (nTargetValue : ℤ) : Candidates Tx → Selection Tx
  | .exact coin => takeCoins [coin]
  | .lower vValue nTotalLower coinLowestLarger =>
    if nTotalLower = nTargetValue then takeCoins vValue
    else if nTotalLower < nTargetValue then
      match coinLowestLarger with
      | none => ⟨false, [], 0⟩
      | some coin => takeCoins [coin]
    else takeSubset chance nTargetValue vValue nTotalLower coinLowestLarger

def SelectCoinsMinConf (chance : Chance Tx) (nTargetValue : ℤ) (nSpendTime : UInt32)
    (nConfMine nConfTheirs : ℤ) (vCoins : List (COutput Tx)) : Except Failure (Selection Tx) := do
  let candidates ← findCandidates txs nTargetValue nSpendTime nConfMine nConfTheirs
    (chance.shuffle vCoins) [] 0 none
  pure (select chance nTargetValue candidates)

end

/-! ## What the search finds -/

namespace SubsetSearch

/-- The included candidates have been added up, and the best subset is worth the target. -/
structure Sound (vValue : List ℤ) (nTargetValue : ℤ) (st : SubsetSearch) : Prop where
  length : st.vfIncluded.length = vValue.length
  total : st.nTotal = (marked vValue st.vfIncluded).sum
  best : st.nBest = (marked vValue st.vfBest).sum
  enough : nTargetValue ≤ st.nBest

variable {vValue : List ℤ} {nTargetValue n : ℤ} {i : ℕ} {st : SubsetSearch}

theorem Sound.tryCoin (h : st.Sound vValue nTargetValue) (hval : ∀ n ∈ vValue, 0 ≤ n)
    (hrng : MoneyRange vValue.sum) (hn : vValue[i]? = some n)
    (hfree : st.vfIncluded[i]? = some false) :
    (st.tryCoin nTargetValue i n).Sound vValue nTargetValue := by
  have hadd : (marked vValue (st.vfIncluded.set i true)).sum = st.nTotal + n := by
    rw [sum_marked_set hn hfree, h.total]
  have hmoney : MoneyRange (st.nTotal + n) := by
    obtain ⟨hpos, hle⟩ := sum_marked_le hval (st.vfIncluded.set i true)
    rw [hadd] at hpos hle
    exact ⟨hpos, hle.trans hrng.2⟩
  have hmoney' : MoneyRange st.nTotal := by
    obtain ⟨hpos, hle⟩ := sum_marked_le hval st.vfIncluded
    rw [← h.total] at hpos hle
    exact ⟨hpos, hle.trans hrng.2⟩
  have hback : (st.vfIncluded.set i true).set i false = st.vfIncluded := by
    obtain ⟨hlt, hmark⟩ := List.getElem?_eq_some_iff.mp hfree
    rw [List.set_set, ← hmark, List.set_getElem_self]
  unfold SubsetSearch.tryCoin
  rw [wrap64_of_moneyRange hmoney]
  dsimp only
  split_ifs with hreached hbetter
  · -- The subset is the best one now, and the candidate is taken out.
    refine ⟨?_, ?_, hadd.symm, hreached⟩
    · rw [length_set, length_set, h.length]
    · rw [hback, add_sub_cancel_right, wrap64_of_moneyRange hmoney', h.total]
  · refine ⟨?_, ?_, h.best, h.enough⟩
    · rw [length_set, length_set, h.length]
    · rw [hback, add_sub_cancel_right, wrap64_of_moneyRange hmoney', h.total]
  · exact ⟨(length_set).trans h.length, hadd.symm, h.best, h.enough⟩

theorem getElem?_tryCoin {k : ℕ} (hk : k ≠ i) :
    (st.tryCoin nTargetValue i n).vfIncluded[k]? = st.vfIncluded[k]? := by
  unfold SubsetSearch.tryCoin
  extract_lets nTotal vfIncluded
  have hmarks : vfIncluded[k]? = st.vfIncluded[k]? := List.getElem?_set_ne hk.symm
  split_ifs
  · exact (List.getElem?_set_ne hk.symm).trans hmarks
  · exact (List.getElem?_set_ne hk.symm).trans hmarks
  · exact hmarks

theorem Sound.pass {wanted : ℕ → SubsetSearch → Bool} {rest : List ℤ}
    (h : st.Sound vValue nTargetValue) (hval : ∀ n ∈ vValue, 0 ≤ n)
    (hrng : MoneyRange vValue.sum) (hrest : rest = vValue.drop i)
    (hwanted : ∀ k st', i ≤ k → k < vValue.length → st'.vfIncluded[k]? = st.vfIncluded[k]? →
      wanted k st' = true → st'.vfIncluded[k]? = some false) :
    (st.pass nTargetValue wanted i rest).Sound vValue nTargetValue := by
  induction rest generalizing i st with
  | nil => exact h
  | cons n rest ih =>
    have hlt : i < vValue.length := by
      by_contra hge
      rw [List.drop_eq_nil_of_le (not_lt.mp hge)] at hrest
      cases hrest
    obtain ⟨hn, hrest⟩ : n = vValue[i] ∧ rest = vValue.drop (i + 1) := by
      rw [List.drop_eq_getElem_cons hlt] at hrest
      exact List.cons.inj hrest
    have hget : vValue[i]? = some n := by rw [List.getElem?_eq_getElem hlt, hn]
    unfold SubsetSearch.pass
    split_ifs with hw
    · have hfree := hwanted i st le_rfl hlt rfl hw
      refine ih (h.tryCoin hval hrng hget hfree) hrest fun k st' hk hklt hsame hkw => ?_
      rw [getElem?_tryCoin (by omega)] at hsame
      exact hwanted k st' (Nat.le_of_succ_le hk) hklt hsame hkw
    · exact ih h hrest fun k st' hk => hwanted k st' (Nat.le_of_succ_le hk)

theorem Sound.repetition {bits : ℕ → Bool} (hbest : st.nBest = (marked vValue st.vfBest).sum)
    (henough : nTargetValue ≤ st.nBest) (hval : ∀ n ∈ vValue, 0 ≤ n)
    (hrng : MoneyRange vValue.sum) :
    (st.repetition vValue nTargetValue bits).Sound vValue nTargetValue := by
  unfold SubsetSearch.repetition
  extract_lets st₀ st₁
  have h₀ : st₀.Sound vValue nTargetValue := by
    refine ⟨List.length_replicate, ?_, hbest, henough⟩
    rw [marked_replicate_false, List.sum_nil]
  have h₁ : st₁.Sound vValue nTargetValue := by
    refine h₀.pass hval hrng List.drop_zero.symm fun k st' _ hk hsame _ => ?_
    rw [hsame]
    exact List.getElem?_replicate_of_lt hk
  split_ifs
  · exact h₁
  · refine h₁.pass hval hrng List.drop_zero.symm fun k st' _ hk hsame hw => ?_
    rw [← h₁.length] at hk
    rw [hsame, List.getElem?_eq_getElem hk]
    rw [hsame, List.getElem?_eq_getElem hk, Option.getD_some, Bool.not_eq_true'] at hw
    exact congrArg some hw

end SubsetSearch

theorem approximateBestSubset_spec {vValue : List ℤ} {nTotalLower nTargetValue : ℤ}
    (hval : ∀ n ∈ vValue, 0 ≤ n) (hrng : MoneyRange vValue.sum) (htotal : nTotalLower = vValue.sum)
    (henough : nTargetValue ≤ nTotalLower) (bits : ℕ → ℕ → Bool) (iterations : ℕ) :
    let found := ApproximateBestSubset vValue nTotalLower nTargetValue bits iterations
    found.nBest = (marked vValue found.vfBest).sum ∧ nTargetValue ≤ found.nBest := by
  unfold ApproximateBestSubset
  induction iterations with
  | zero =>
    refine ⟨?_, henough⟩
    dsimp only [List.range_zero, List.foldl_nil]
    rw [marked_replicate_true, htotal]
  | succ iterations ih =>
    rw [List.range_succ, List.foldl_append]
    dsimp only [List.foldl_cons, List.foldl_nil] at ih ⊢
    split_ifs
    · have hsound := @SubsetSearch.Sound.repetition _ _ _ (bits iterations) ih.1 ih.2 hval hrng
      exact ⟨hsound.best, hsound.enough⟩
    · exact ih

/-! ## What is selected -/

def TxReader.coin {Tx : Type} (txs : TxReader Tx) (output : COutput Tx) : ℤ × Tx × ℕ :=
  (txs.nValue output.tx output.i, output.tx, output.i)

/-- Whether an output may be selected: the wallet can spend it, it is deep enough, and it is not later
than the time of the payment. -/
def TxReader.Eligible {Tx : Type} (txs : TxReader Tx) (nSpendTime : UInt32) (nConfMine nConfTheirs : ℤ)
    (output : COutput Tx) : Bool :=
  output.fSpendable && decide (txs.nTime output.tx ≤ nSpendTime) &&
    match txs.IsFromMe output.tx with
    | .ok fFromMe => decide ((if fFromMe then nConfMine else nConfTheirs) ≤ output.nDepth)
    | .error _ => false

theorem TxReader.eligible_eq {Tx : Type} {txs : TxReader Tx} {nSpendTime : UInt32}
    {nConfMine nConfTheirs : ℤ} {output : COutput Tx} {fFromMe : Bool}
    (hmine : txs.IsFromMe output.tx = .ok fFromMe) :
    txs.Eligible nSpendTime nConfMine nConfTheirs output = true ↔
      output.fSpendable = true ∧ txs.nTime output.tx ≤ nSpendTime ∧
        (if fFromMe then nConfMine else nConfTheirs) ≤ output.nDepth := by
  unfold Eligible
  rw [hmine, Bool.and_eq_true, Bool.and_eq_true, decide_eq_true_eq, decide_eq_true_eq, and_assoc]

structure TxReader.Distinct {Tx : Type} (txs : TxReader Tx) (vCoins : List (COutput Tx)) : Prop where
  nodup : (vCoins.map fun output => (output.tx, output.i)).Nodup
  nonneg : ∀ output ∈ vCoins, 0 ≤ txs.nValue output.tx output.i
  range : MoneyRange (vCoins.map fun output => txs.nValue output.tx output.i).sum

/-- Distinct outputs among some that are worth enough. -/
structure IsSelection {Tx : Type} (txs : TxReader Tx) (eligible : List (COutput Tx)) (nTargetValue : ℤ)
    (r : Selection Tx) : Prop where
  nodup : r.setCoinsRet.Nodup
  subset : ∀ p ∈ r.setCoinsRet, ∃ output ∈ eligible, p = (output.tx, output.i)
  value : r.nValueRet = (r.setCoinsRet.map fun p => txs.nValue p.1 p.2).sum
  enough : nTargetValue ≤ r.nValueRet

def Candidates.Of {Tx : Type} (txs : TxReader Tx) (eligible : List (COutput Tx)) (nTargetValue : ℤ) :
    Candidates Tx → Prop
  | .exact coin => ∃ output ∈ eligible, coin = txs.coin output ∧ coin.1 = nTargetValue
  | .lower vValue nTotalLower coinLowestLarger =>
    vValue = (eligible.filter fun output =>
        decide (txs.nValue output.tx output.i < nTargetValue + CENT)).map txs.coin ∧
      nTotalLower = wrap64 (vValue.map Prod.fst).sum ∧
      match coinLowestLarger with
      | none => ∀ output ∈ eligible, txs.nValue output.tx output.i < nTargetValue + CENT
      | some coin => ∃ output ∈ eligible, coin = txs.coin output ∧ nTargetValue + CENT ≤ coin.1

section

variable {Tx : Type} {txs : TxReader Tx} {nTargetValue : ℤ} {nSpendTime : UInt32}
  {nConfMine nConfTheirs : ℤ}

variable {vCoins eligible : List (COutput Tx)} {nTotalLower : ℤ} {r : Selection Tx}

theorem TxReader.Distinct.subperm {vCoins' : List (COutput Tx)} (h : txs.Distinct vCoins)
    (hsub : vCoins'.Subperm vCoins) : txs.Distinct vCoins' := by
  obtain ⟨l, hperm, hsublist⟩ := hsub
  have hmem : ∀ output ∈ vCoins', output ∈ vCoins := fun output h' =>
    hsublist.mem (hperm.mem_iff.mpr h')
  have hnn : ∀ n ∈ vCoins.map fun output => txs.nValue output.tx output.i, 0 ≤ n := by
    intro n hn
    obtain ⟨output, hout, rfl⟩ := List.mem_map.mp hn
    exact h.nonneg output hout
  refine ⟨?_, fun output h' => h.nonneg output (hmem output h'), ?_, ?_⟩
  · exact (hperm.map _).nodup_iff.mp (h.nodup.sublist (hsublist.map _))
  · refine List.sum_nonneg fun n hn => ?_
    obtain ⟨output, hout, rfl⟩ := List.mem_map.mp hn
    exact h.nonneg output (hmem output hout)
  · rw [← (hperm.map fun output => txs.nValue output.tx output.i).sum_eq]
    exact ((hsublist.map _).sum_le_sum hnn).trans h.range.2

variable {output : COutput Tx} {coinLowestLarger : Option (ℤ × Tx × ℕ)} {candidates : Candidates Tx}
  {vValue : List (ℤ × Tx × ℕ)}

theorem TxReader.Distinct.moneyRange (h : txs.Distinct vCoins) (hout : output ∈ vCoins) :
    MoneyRange (txs.nValue output.tx output.i) := by
  have hone := h.subperm (List.singleton_subperm_iff.mpr hout)
  simpa using hone.range

theorem Candidates.Of.next
    (h : (Candidates.lower vValue nTotalLower coinLowestLarger).Of txs eligible nTargetValue)
    (hrng : MoneyRange (txs.nValue output.tx output.i)) : let n := txs.nValue output.tx output.i
    (n < nTargetValue + CENT →
      (Candidates.lower (vValue ++ [txs.coin output]) (wrap64 (nTotalLower + n)) coinLowestLarger).Of
        txs (eligible ++ [output]) nTargetValue) ∧
    (¬n < nTargetValue + CENT →
      (Candidates.lower vValue nTotalLower
        (if isLowest n coinLowestLarger then some (txs.coin output) else coinLowestLarger)).Of
        txs (eligible ++ [output]) nTargetValue) := by
  obtain ⟨hvValue, htotal, hlarger⟩ := h
  intro n
  constructor
  · intro hlt
    refine ⟨?_, ?_, ?_⟩
    · rw [List.filter_append, List.filter_singleton, decide_eq_true hlt, List.map_append, hvValue]
      rfl
    · rw [htotal, wrap64_add_wrap64_left, List.map_append, List.sum_append]
      simp only [map_singleton, List.sum_singleton]
      rfl
    · cases coinLowestLarger with
      | none =>
        intro output' hout'
        rcases List.mem_append.mp hout' with hmem | hmem
        · exact hlarger output' hmem
        · rw [List.mem_singleton.mp hmem]
          exact hlt
      | some coin =>
        obtain ⟨output', hmem, hcoin⟩ := hlarger
        exact ⟨output', List.mem_append_left _ hmem, hcoin⟩
  · intro hge
    refine ⟨?_, htotal, ?_⟩
    · rw [List.filter_append, List.filter_singleton, decide_eq_false hge, hvValue]
      exact congrArg (List.map _) (List.append_nil _).symm
    · split_ifs with hlowest
      · exact ⟨output, List.mem_append_right _ (List.mem_singleton_self _), rfl, not_lt.mp hge⟩
      · cases coinLowestLarger with
        | none =>
          -- Every valid amount is less than the largest number.
          refine absurd (decide_eq_true ?_) hlowest
          change n < 2 ^ 63 - 1
          have hle := hrng.2
          rw [max_single_tx_eq] at hle
          omega
        | some coin =>
          obtain ⟨output', hmem, hcoin⟩ := hlarger
          exact ⟨output', List.mem_append_left _ hmem, hcoin⟩

/-- The first pass sorts the eligible outputs, and fails only where `IsFromMe` does. -/
theorem findCandidates_yields (hcent : Fits64 (nTargetValue + CENT)) {rest : List (COutput Tx)}
    (hrest : ∀ output ∈ rest, MoneyRange (txs.nValue output.tx output.i))
    {eligible : List (COutput Tx)} {nTotalLower : ℤ} {coinLowestLarger : Option (ℤ × Tx × ℕ)}
    (h : (Candidates.lower vValue nTotalLower coinLowestLarger).Of txs eligible nTargetValue) :
    Yields (fun e => ∃ output ∈ rest, txs.IsFromMe output.tx = .error e)
      (findCandidates txs nTargetValue nSpendTime nConfMine nConfTheirs rest vValue nTotalLower
        coinLowestLarger)
      (Candidates.Of txs
        (eligible ++ rest.filter (txs.Eligible nSpendTime nConfMine nConfTheirs)) nTargetValue) := by
  induction rest generalizing eligible vValue nTotalLower coinLowestLarger with
  | nil =>
    rw [List.filter_nil, List.append_nil]
    exact h
  | cons output rest ih =>
    obtain ⟨hrng, hrest⟩ := List.forall_mem_cons.mp hrest
    have herrors : ∀ e, (∃ output ∈ rest, txs.IsFromMe output.tx = .error e) →
        ∃ output' ∈ output :: rest, txs.IsFromMe output'.tx = .error e :=
      fun e ⟨output', hmem, he⟩ => ⟨output', List.mem_cons_of_mem _ hmem, he⟩
    have hskip (hnot : txs.Eligible nSpendTime nConfMine nConfTheirs output = false) :
        Yields (fun e => ∃ output' ∈ output :: rest, txs.IsFromMe output'.tx = .error e)
          (findCandidates txs nTargetValue nSpendTime nConfMine nConfTheirs rest vValue nTotalLower
            coinLowestLarger)
          (Candidates.Of txs (eligible
            ++ (output :: rest).filter (txs.Eligible nSpendTime nConfMine nConfTheirs))
            nTargetValue) := by
      rw [List.filter_cons_of_neg (by rw [hnot]; exact Bool.false_ne_true)]
      exact (ih hrest h).mono herrors fun _ => id
    unfold findCandidates
    dsimp only
    by_cases hspendable : output.fSpendable = false
    · rw [if_pos hspendable]
      exact hskip (by simp [TxReader.Eligible, hspendable])
    rw [if_neg hspendable]
    cases hmine : txs.IsFromMe output.tx with
    | error e => exact ⟨output, List.mem_cons_self, hmine⟩
    | ok fFromMe =>
      have heligible := @TxReader.eligible_eq _ txs nSpendTime nConfMine nConfTheirs _ _ hmine
      change Yields _ (if output.nDepth < (if fFromMe then nConfMine else nConfTheirs) then _ else _) _
      generalize (if fFromMe then nConfMine else nConfTheirs) = nConf at heligible ⊢
      split_ifs with hdepth htime htgt hlower hlowest
      · exact hskip (Bool.eq_false_iff.mpr fun h => not_le.mpr hdepth (heligible.mp h).2.2)
      · exact hskip (Bool.eq_false_iff.mpr fun h =>
          UInt32.not_le.mpr htime (heligible.mp h).2.1)
      all_goals
        have helig := heligible.mpr
          ⟨Bool.eq_true_of_not_eq_false hspendable, UInt32.not_lt.mp htime, not_lt.mp hdepth⟩
        rw [List.filter_cons_of_pos helig]
      · exact ⟨output, List.mem_append_right _ List.mem_cons_self, rfl, htgt⟩
      all_goals
        rw [wrap64_eq_self_iff.mpr hcent] at hlower
        rw [List.append_cons eligible output]
      · exact (ih hrest ((h.next hrng).1 hlower)).mono herrors fun _ => id
      · have hnext := (h.next hrng).2 hlower
        rw [if_pos hlowest] at hnext
        exact (ih hrest hnext).mono herrors fun _ => id
      · have hnext := (h.next hrng).2 hlower
        rw [if_neg hlowest] at hnext
        exact (ih hrest hnext).mono herrors fun _ => id

theorem foldl_insert_perm {α : Type} [BEq α] [LawfulBEq α] {l s : List α} (h : (s ++ l).Nodup) :
    (l.foldl (fun s a => s.insert a) s).Perm (s ++ l) := by
  induction l generalizing s with
  | nil => rw [List.append_nil]; exact List.Perm.refl s
  | cons a l ih =>
    have hnew : a ∉ s := fun ha => List.disjoint_of_nodup_append h ha List.mem_cons_self
    have hmiddle : (s ++ a :: l).Perm (a :: s ++ l) := List.perm_middle
    rw [List.foldl_cons, List.insert_of_not_mem hnew]
    exact (ih (hmiddle.nodup_iff.mp h)).trans hmiddle.symm

theorem isSelection_takeCoins [DecidableEq Tx] (h : txs.Distinct eligible)
    (hsub : vCoins.Subperm eligible)
    (henough : nTargetValue ≤ ((vCoins.map txs.coin).map Prod.fst).sum) :
    IsSelection txs eligible nTargetValue (takeCoins (vCoins.map txs.coin)) ∧
      (takeCoins (vCoins.map txs.coin)).nValueRet = ((vCoins.map txs.coin).map Prod.fst).sum := by
  have hdist := h.subperm hsub
  have hkeys : (vCoins.map txs.coin).map Prod.snd = vCoins.map fun output => (output.tx, output.i) :=
    map_map
  have hset : (takeCoins (vCoins.map txs.coin)).setCoinsRet.Perm
      (vCoins.map fun output => (output.tx, output.i)) := by
    have hinsert := foldl_insert_perm (l := (vCoins.map txs.coin).map Prod.snd) (s := [])
      (hkeys ▸ hdist.nodup)
    rw [List.foldl_map] at hinsert
    exact hkeys ▸ hinsert
  have hval : (takeCoins (vCoins.map txs.coin)).nValueRet
      = ((vCoins.map txs.coin).map Prod.fst).sum := by
    unfold takeCoins
    rw [foldl_wrap64, wrap64_of_moneyRange]
    rw [map_map]
    exact hdist.range
  refine ⟨⟨?_, ?_, ?_, hval ▸ henough⟩, hval⟩
  · exact hset.nodup_iff.mpr hdist.nodup
  · intro p hp
    obtain ⟨output, hout, rfl⟩ := List.mem_map.mp (hset.mem_iff.mp hp)
    exact ⟨output, hsub.subset hout, rfl⟩
  · rw [hval, (hset.map fun p => txs.nValue p.1 p.2).sum_eq, map_map, map_map]
    rfl

theorem exists_coins {coins : List (ℤ × Tx × ℕ)} (h : coins.Subperm (eligible.map txs.coin)) :
    ∃ vCoins : List (COutput Tx), vCoins.Subperm eligible ∧ coins = vCoins.map txs.coin := by
  obtain ⟨l, hperm, hsublist⟩ := h
  obtain ⟨vCoins', hsublist', rfl⟩ := List.sublist_map_iff.mp hsublist
  have hcoins : Relation.Comp (fun l l' => l = List.map txs.coin l') List.Perm coins vCoins' := by
    rw [List.eq_map_comp_perm]
    exact hperm.symm
  obtain ⟨vCoins, hvCoins, hperm'⟩ := hcoins
  exact ⟨vCoins, hperm'.subperm.trans hsublist'.subperm, hvCoins⟩

theorem searchSubset_spec (chance : Chance Tx) (hcent : Fits64 (nTargetValue + CENT))
    (hnn : ∀ n ∈ vValue.map Prod.fst, 0 ≤ n) (hrng : MoneyRange (vValue.map Prod.fst).sum)
    (htotal : nTotalLower = (vValue.map Prod.fst).sum) (hmore : nTargetValue < nTotalLower) :
    let found := searchSubset chance vValue nTotalLower nTargetValue
    found.nBest = ((marked vValue found.vfBest).map Prod.fst).sum ∧ nTargetValue ≤ found.nBest := by
  dsimp only
  rw [← marked_map]
  unfold searchSubset
  extract_lets found
  split_ifs with hagain
  · rw [wrap64_eq_self_iff.mpr hcent] at hagain ⊢
    obtain ⟨hbest, henough⟩ := approximateBestSubset_spec hnn hrng htotal hagain.2
      chance.bitsAgain 1000
    have hcentpos : (0 : ℤ) < CENT := by decide
    exact ⟨hbest, by omega⟩
  · exact approximateBestSubset_spec hnn hrng htotal hmore.le chance.bits 1000

theorem takeSubset_spec [DecidableEq Tx] (chance : Chance Tx) (h : txs.Distinct eligible)
    (hcent : Fits64 (nTargetValue + CENT))
    (hcands : (Candidates.lower vValue nTotalLower coinLowestLarger).Of txs eligible nTargetValue)
    (hmore : nTargetValue < nTotalLower) :
    let r := takeSubset chance nTargetValue vValue nTotalLower coinLowestLarger
    IsSelection txs eligible nTargetValue r ∧
      ((searchSubset chance (chance.sort vValue) nTotalLower nTargetValue).nBest = nTargetValue →
        r.nValueRet = nTargetValue) := by
  obtain ⟨hvValue, htotal, hlarger⟩ := hcands
  set lower := eligible.filter fun output =>
    decide (txs.nValue output.tx output.i < nTargetValue + CENT) with hlower
  have hsublist : lower.Sublist eligible := List.filter_sublist
  have hdist : txs.Distinct lower := h.subperm hsublist.subperm
  -- What the candidates are worth does not depend on their order.
  have hsort : (chance.sort vValue).Perm (lower.map txs.coin) := hvValue ▸ chance.sort_perm vValue
  have hrng : MoneyRange ((chance.sort vValue).map Prod.fst).sum := by
    rw [(hsort.map Prod.fst).sum_eq, map_map]
    exact hdist.range
  have htotal' : nTotalLower = ((chance.sort vValue).map Prod.fst).sum := by
    rw [htotal, ← wrap64_of_moneyRange hrng, (hsort.map Prod.fst).sum_eq, hvValue]
  have hnn : ∀ n ∈ (chance.sort vValue).map Prod.fst, 0 ≤ n := by
    intro n hn
    obtain ⟨coin, hcoin, rfl⟩ := List.mem_map.mp hn
    obtain ⟨output, hout, rfl⟩ := List.mem_map.mp (hsort.mem_iff.mp hcoin)
    exact hdist.nonneg output hout
  obtain ⟨hbest, henough⟩ := searchSubset_spec chance hcent hnn hrng htotal' hmore
  have hcentpos : (0 : ℤ) < CENT := by decide
  unfold takeSubset
  dsimp only
  generalize hsorted : chance.sort vValue = sorted at hbest henough hsort ⊢
  generalize hfound : searchSubset chance sorted nTotalLower nTargetValue = found at hbest henough ⊢
  cases hprefer : coinLowestLarger.filter (prefersLarger nTargetValue found.nBest) with
  | some coin =>
    obtain ⟨rfl, hpreferred⟩ := Option.filter_eq_some_iff.mp hprefer
    obtain ⟨output, hout, rfl, hge⟩ := hlarger
    obtain ⟨hsel, -⟩ := isSelection_takeCoins h (List.singleton_subperm_iff.mpr hout)
      (show nTargetValue ≤ (([output].map txs.coin).map Prod.fst).sum by
        rw [map_singleton, map_singleton, List.sum_singleton]
        omega)
    refine ⟨hsel, fun hexact => ?_⟩
    -- A larger coin is not taken when the target has been found.
    unfold prefersLarger at hpreferred
    rw [hexact, decide_eq_true_eq] at hpreferred
    rcases hpreferred with ⟨hne, -⟩ | hle
    · exact absurd rfl hne
    · omega
  | none =>
    have hsubset : (marked sorted found.vfBest).Subperm (eligible.map txs.coin) := by
      have hmap : (lower.map txs.coin).Subperm (eligible.map txs.coin) := (hsublist.map _).subperm
      exact ((marked_sublist _ _).subperm.trans hsort.subperm).trans hmap
    obtain ⟨vCoins, hsub, hcoins⟩ := exists_coins hsubset
    rw [hcoins] at hbest ⊢
    obtain ⟨hsel, hval⟩ := isSelection_takeCoins h hsub (hbest ▸ henough)
    exact ⟨hsel, fun hexact => hval.trans (hbest.symm.trans hexact)⟩

variable (h : IsSelection txs eligible nTargetValue r)
include h

theorem IsSelection.perm {eligible' : List (COutput Tx)} (hperm : eligible.Perm eligible') :
    IsSelection txs eligible' nTargetValue r := by
  refine ⟨h.nodup, fun p hp => ?_, h.value, h.enough⟩
  obtain ⟨output, hout, hp⟩ := h.subset p hp
  exact ⟨output, hperm.mem_iff.mp hout, hp⟩

theorem IsSelection.le_sum (hdist : txs.Distinct eligible) :
    r.nValueRet ≤ (eligible.map fun output => txs.nValue output.tx output.i).sum := by
  have hsubset : r.setCoinsRet ⊆ eligible.map fun output => (output.tx, output.i) := by
    intro p hp
    obtain ⟨output, hout, rfl⟩ := h.subset p hp
    exact List.mem_map_of_mem hout
  obtain ⟨l, hperm, hsublist⟩ := List.subperm_of_subset h.nodup hsubset
  have hnn : ∀ n ∈ (eligible.map fun output => (output.tx, output.i)).map
      fun p => txs.nValue p.1 p.2, 0 ≤ n := by
    intro n hn
    rw [map_map] at hn
    obtain ⟨output, hout, rfl⟩ := List.mem_map.mp hn
    exact hdist.nonneg output hout
  have hle := (hsublist.map fun p : Tx × ℕ => txs.nValue p.1 p.2).sum_le_sum hnn
  rw [(hperm.map _).sum_eq, map_map] at hle
  rw [h.value]
  exact hle

structure Selects (txs : TxReader Tx) (eligible : List (COutput Tx)) (nTargetValue : ℤ)
    (r : Selection Tx) : Prop where
  iff : r.fSelected = true ↔
    nTargetValue ≤ (eligible.map fun output => txs.nValue output.tx output.i).sum
  selection : r.fSelected = true → IsSelection txs eligible nTargetValue r

theorem IsSelection.selects (hdist : txs.Distinct eligible) (hsel : r.fSelected = true) :
    Selects txs eligible nTargetValue r :=
  ⟨iff_of_true hsel (h.enough.trans (h.le_sum hdist)), fun _ => h⟩

omit h

variable [DecidableEq Tx]

theorem select_spec (chance : Chance Tx) (h : txs.Distinct eligible)
    (hcent : Fits64 (nTargetValue + CENT)) (hcands : candidates.Of txs eligible nTargetValue) :
    Selects txs eligible nTargetValue (select chance nTargetValue candidates) := by
  have hcentpos : (0 : ℤ) < CENT := by decide
  have hsingle (output : COutput Tx) (hout : output ∈ eligible)
      (hge : nTargetValue ≤ txs.nValue output.tx output.i) :
      Selects txs eligible nTargetValue (takeCoins [txs.coin output]) := by
    refine (isSelection_takeCoins h (List.singleton_subperm_iff.mpr hout) ?_).1.selects h rfl
    rw [map_singleton, map_singleton, List.sum_singleton]
    exact hge
  cases candidates with
  | exact coin =>
    obtain ⟨output, hout, rfl, hexact⟩ := hcands
    exact hsingle output hout hexact.ge
  | lower vValue nTotalLower coinLowestLarger =>
    have hof := hcands
    obtain ⟨hvValue, htotal, hlarger⟩ := hcands
    set lower := eligible.filter fun output =>
      decide (txs.nValue output.tx output.i < nTargetValue + CENT) with hlower
    have hsub : lower.Subperm eligible := List.filter_sublist.subperm
    have hsum : (vValue.map Prod.fst).sum
        = (lower.map fun output => txs.nValue output.tx output.i).sum := by
      rw [hvValue, map_map]
      rfl
    have htotal' : nTotalLower = (vValue.map Prod.fst).sum := by
      rw [htotal, hsum, wrap64_of_moneyRange (h.subperm hsub).range]
    unfold select
    dsimp only
    split_ifs with hexact hless
    · rw [hvValue] at htotal' ⊢
      exact (isSelection_takeCoins h hsub (hexact.symm.trans htotal').le).1.selects h rfl
    · cases coinLowestLarger with
      | none =>
        -- No output is larger, and so all of them are not worth enough.
        have hall : lower = eligible :=
          List.filter_eq_self.mpr fun output hout => decide_eq_true (hlarger output hout)
        rw [hall] at hsum
        refine ⟨iff_of_false Bool.false_ne_true ?_, nofun⟩
        omega
      | some coin =>
        obtain ⟨output, hout, rfl, hge⟩ := hlarger
        exact hsingle output hout (le_trans (by omega) hge)
    · have hmore : nTargetValue < nTotalLower := by omega
      refine (takeSubset_spec chance h hcent hof hmore).1.selects h ?_
      unfold takeSubset
      dsimp only
      split <;> rfl

def Candidates.Finds {Tx : Type} (chance : Chance Tx) (nTargetValue : ℤ) : Candidates Tx → Prop
  | .exact _ => False
  | .lower vValue nTotalLower _ =>
    nTargetValue < nTotalLower ∧
      ((ApproximateBestSubset ((chance.sort vValue).map Prod.fst) nTotalLower nTargetValue chance.bits
          1000).nBest = nTargetValue ∨
        (searchSubset chance (chance.sort vValue) nTotalLower nTargetValue).nBest = nTargetValue)

theorem select_exact (chance : Chance Tx) (h : txs.Distinct eligible)
    (hcent : Fits64 (nTargetValue + CENT)) (hcands : candidates.Of txs eligible nTargetValue)
    (hfinds : candidates.Finds chance nTargetValue) :
    (select chance nTargetValue candidates).nValueRet = nTargetValue := by
  cases candidates with
  | exact coin => exact hfinds.elim
  | lower vValue nTotalLower coinLowestLarger =>
    obtain ⟨hmore, hfinds⟩ := hfinds
    have hbest : (searchSubset chance (chance.sort vValue) nTotalLower nTargetValue).nBest
        = nTargetValue := by
      rcases hfinds with hfst | hlast
      · unfold searchSubset
        rw [if_neg fun hagain => hagain.1 hfst]
        exact hfst
      · exact hlast
    unfold select
    dsimp only
    rw [if_neg hmore.ne', if_neg (not_lt.mpr hmore.le)]
    exact (takeSubset_spec chance h hcent hcands hmore).2 hbest

theorem selectCoinsMinConf_yields (chance : Chance Tx) (h : txs.Distinct vCoins)
    (hcent : Fits64 (nTargetValue + CENT)) :
    Yields (fun e => ∃ output ∈ vCoins, txs.IsFromMe output.tx = .error e)
      (SelectCoinsMinConf txs chance nTargetValue nSpendTime nConfMine nConfTheirs vCoins) fun r =>
      Selects txs (vCoins.filter (txs.Eligible nSpendTime nConfMine nConfTheirs)) nTargetValue r ∧
        ∀ candidates, findCandidates txs nTargetValue nSpendTime nConfMine nConfTheirs
            (chance.shuffle vCoins) [] 0 none = .ok candidates →
          candidates.Finds chance nTargetValue → r.nValueRet = nTargetValue := by
  have hshuffle := chance.shuffle_perm vCoins
  have hshuffled := h.subperm hshuffle.subperm
  have hstart : (Candidates.lower [] 0 none).Of txs [] nTargetValue := ⟨rfl, rfl, nofun⟩
  have hfound := @findCandidates_yields _ txs _ nSpendTime nConfMine nConfTheirs _ hcent _
    (fun output hout => hshuffled.moneyRange hout) _ _ _ hstart
  unfold SelectCoinsMinConf
  cases hrun : findCandidates txs nTargetValue nSpendTime nConfMine nConfTheirs
    (chance.shuffle vCoins) [] 0 none with
  | error e =>
    rw [hrun] at hfound
    obtain ⟨output, hout, he⟩ := hfound
    exact ⟨output, hshuffle.mem_iff.mp hout, he⟩
  | ok candidates =>
    rw [hrun] at hfound
    have hfilter := hshuffle.filter (txs.Eligible nSpendTime nConfMine nConfTheirs)
    have hdist := hshuffled.subperm (List.filter_sublist
      (p := txs.Eligible nSpendTime nConfMine nConfTheirs)).subperm
    have hselects := select_spec chance hdist hcent hfound
    refine Yields.pure ⟨⟨?_, fun hr => (hselects.selection hr).perm hfilter⟩, ?_⟩
    · rw [hselects.iff, (hfilter.map _).sum_eq]
    · intro candidates' heq hfinds
      cases heq
      exact select_exact chance hdist hcent hfound hfinds

/-- For a valid target and distinct outputs that are worth a valid amount together: coins are selected
exactly when the eligible outputs are worth enough. The selected ones are distinct and eligible, and they
are worth what is returned, which is the target at least, and is the target when a search finds it. The
selection fails only where it cannot be said of an output whether its transaction is from the wallet. -/
theorem selectCoinsMinConf_postcondition (chance : Chance Tx) (nSpendTime : UInt32)
    (nConfMine nConfTheirs : ℤ) {vCoins : List (COutput Tx)} (h : txs.Distinct vCoins)
    (htarget : MoneyRange nTargetValue) :
    Yields (fun e => ∃ output ∈ vCoins, txs.IsFromMe output.tx = .error e)
      (SelectCoinsMinConf txs chance nTargetValue nSpendTime nConfMine nConfTheirs vCoins) fun r =>
      Selects txs (vCoins.filter (txs.Eligible nSpendTime nConfMine nConfTheirs)) nTargetValue r ∧
        ∀ candidates, findCandidates txs nTargetValue nSpendTime nConfMine nConfTheirs
            (chance.shuffle vCoins) [] 0 none = .ok candidates →
          candidates.Finds chance nTargetValue → r.nValueRet = nTargetValue := by
  apply selectCoinsMinConf_yields chance h
  have hcent : CENT = 1000000 := rfl
  obtain ⟨hnonneg, hle⟩ := htarget
  rw [max_single_tx_eq] at hle
  unfold Fits64
  omega

end

/-! ## Some coins -/

def plainChance (Tx : Type) : Chance Tx where
  shuffle := id
  shuffle_perm := List.Perm.refl
  sort l := l.mergeSort fun a b => decide (b.1 ≤ a.1)
  sort_perm l := l.mergeSort_perm _
  sort_descending l := by
    have hsorted := @List.pairwise_mergeSort (ℤ × Tx × ℕ) (fun a b => decide (b.1 ≤ a.1))
      (fun a b c hab hbc => decide_eq_true ((of_decide_eq_true hbc).trans (of_decide_eq_true hab)))
      (fun a b => by rw [Bool.or_eq_true, decide_eq_true_eq, decide_eq_true_eq]; exact le_total _ _) l
    exact hsorted.imp fun h => of_decide_eq_true h
  bits _ _ := false
  bitsAgain _ _ := false

def centReader : TxReader ℕ := ⟨fun _ => 0, fun tx _ => tx * CENT, fun _ => .ok false⟩

def centCoins : List (COutput ℕ) := [6, 7, 8, 20, 30].map fun tx => ⟨tx, 0, 6, true⟩

/-- Sixteen cents are found among these outputs, and 72 are not. -/
theorem centCoins_selected :
    (∃ r, SelectCoinsMinConf centReader (plainChance ℕ) (16 * CENT) 0 1 6 centCoins = .ok r ∧
      r.fSelected = true ∧ 16 * CENT ≤ r.nValueRet) ∧
    ∃ r, SelectCoinsMinConf centReader (plainChance ℕ) (72 * CENT) 0 1 6 centCoins = .ok r ∧
      r.fSelected = false := by
  have hdistinct : centReader.Distinct centCoins := ⟨by decide, by decide, by decide⟩
  have hnone : ∀ e : Failure, (∃ output ∈ centCoins, centReader.IsFromMe output.tx = .error e) →
      False := fun e ⟨_, _, he⟩ => nomatch he
  have hfound := (selectCoinsMinConf_postcondition (plainChance ℕ) 0 1 6 hdistinct
    (show MoneyRange (16 * CENT) by decide)).mono hnone fun _ => id
  have hmissed := (selectCoinsMinConf_postcondition (plainChance ℕ) 0 1 6 hdistinct
    (show MoneyRange (72 * CENT) by decide)).mono hnone fun _ => id
  obtain ⟨r, hr, hselects, -⟩ := hfound.exists_ok
  obtain ⟨r', hr', hselects', -⟩ := hmissed.exists_ok
  have henough : r.fSelected = true := hselects.iff.mpr (by decide)
  refine ⟨⟨r, hr, henough, (hselects.selection henough).enough⟩, r', hr', ?_⟩
  exact Bool.eq_false_iff.mpr fun hselected => absurd (hselects'.iff.mp hselected) (by decide)

end ZalemCoin.Wallet
