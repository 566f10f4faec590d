import ZalemCoin.Chain.BlockSums
import ZalemCoin.Chain.ConnectSpec
import ZalemCoin.Chain.PlainContext

/-!
# Which values of `ConnectBlock` fit in 64 bits

`ConnectInputs` and `GetValueOut` check each sum that they make for a transaction against the range
of money. `ConnectBlock` adds these sums up for a whole block, and adds the result to the supply,
without any check. Here the numbers that its additions and subtractions give are listed as they are
before they are stored, and it is shown when all of them fit.
-/

namespace ZalemCoin.Chain

open Lib

/-- The results of adding amounts up one after the other, each before it is stored. -/
def runningSums : ℤ → List ℤ → List ℤ
  | _, [] => []
  | n, v :: vs => (n + v) :: runningSums (wrap64 (n + v)) vs

def claimedValues (inputs : MapPrevTx) (tx : CTransaction) : List ℤ :=
  tx.vin.map fun txin =>
    match GetOutputFor inputs txin with
    | .ok prevout => prevout.nValue
    | .error _ => 0

/-- The results of the additions and subtractions that `ConnectBlock`, `GetValueIn` and
`GetValueOut` make for a transaction that passes. -/
def transactionArithmetic (ctx : Context) (s : NodeState) (acc : ConnectAcc) (tx : CTransaction) :
    List ℤ :=
  if tx.IsCoinBase then
    runningSums 0 (tx.vout.map CTxOut.nValue) ++
      match tx.GetValueOut with
      | .ok nTxValueOut => [acc.nValueOut + nTxValueOut]
      | .error _ => []
  else
    match FetchInputs ctx s acc.mapQueuedChanges .block tx with
    | .error _ => []
    | .ok mapInputs =>
      runningSums 0 (claimedValues mapInputs tx) ++
      runningSums 0 (tx.vout.map CTxOut.nValue) ++
        match GetValueIn mapInputs tx, tx.GetValueOut with
        | .ok nTxValueIn, .ok nTxValueOut =>
          [acc.nValueIn + nTxValueIn, acc.nValueOut + nTxValueOut] ++
            if tx.IsCoinStake then [nTxValueOut - nTxValueIn]
            else [nTxValueIn - nTxValueOut, acc.nFees + wrap64 (nTxValueIn - nTxValueOut)]
        | _, _ => []

/-- The results for transactions, as far as they pass. -/
def loopArithmetic (ctx : Context) (env : Env) (s : NodeState) (pindex : CBlockIndex)
    (fJustCheck : Bool) : ConnectAcc → List CTransaction → List ℤ
  | _, [] => []
  | acc, tx :: rest =>
    match connectTransaction ctx env s pindex fJustCheck acc tx with
    | .error _ => []
    | .ok acc' =>
      transactionArithmetic ctx s acc tx ++ loopArithmetic ctx env s pindex fJustCheck acc' rest

/-- The results of the additions and subtractions that give the mint and the supply. -/
def supplyArithmetic (prevSupply : ℤ) (acc : ConnectAcc) : List ℤ :=
  [acc.nValueOut - acc.nValueIn, wrap64 (acc.nValueOut - acc.nValueIn) + acc.nFees,
    prevSupply + acc.nValueOut, wrap64 (prevSupply + acc.nValueOut) - acc.nValueIn]

/-- What transactions spend, create and leave as fees when they are connected to a ledger one after
the other. The positions are those that `ConnectBlock` counts. -/
def blockWorth (ctx : Context) (s : NodeState) (pindex : CBlockIndex) (fJustCheck : Bool) :
    Ledger UInt256 CDiskTxPos → UInt32 → List CTransaction → BlockSums
  | _, _, [] => ⟨0, 0, 0⟩
  | L, nTxPos, tx :: rest =>
    (txWorth ctx s L tx).add (blockWorth ctx s pindex fJustCheck
      (Ledger.connect CDiskTxPos.null L
        (tx.spend ctx (CDiskTxPos.of pindex.nFile pindex.nBlockPos nTxPos)))
      (if fJustCheck then nTxPos else nTxPos + UInt32.ofNat tx.GetSerializeSize) rest)

/-! ## The sums of one transaction -/

variable {v : ℤ} {a b : BlockSums}

theorem runningSums_moneyRange {α : Type} {l : List α} {f : ℤ → α → Except Failure ℤ} {val : α → ℤ}
    {n : ℤ} (hn : MoneyRange n)
    (hstep : ∀ a ∈ l, ∀ n n', f n a = .ok n' → n' = wrap64 (n + val a) ∧ MoneyRange (val a) ∧ MoneyRange n')
    (h : l.foldlM f n = .ok v) : ∀ x ∈ runningSums n (l.map val), MoneyRange x := by
  induction l generalizing n with
  | nil => simp [runningSums]
  | cons a l ih =>
    obtain ⟨n', hfst, h⟩ := bind_ok h
    obtain ⟨hsum, hval, hrng⟩ := hstep a List.mem_cons_self n n' hfst
    rw [List.map_cons, runningSums, ← hsum]
    have hexact : n + val a = n' := by rw [hsum, wrap64_add_of_moneyRange hn hval]
    intro x hx
    rcases List.mem_cons.mp hx with rfl | hx
    · rw [hexact]
      exact hrng
    · exact ih hrng (fun b hb => hstep b (List.mem_cons_of_mem _ hb)) h x hx

theorem fits64_of_moneyRange {a : ℤ} (ha : MoneyRange a) : Fits64 a :=
  wrap64_eq_self_iff.mp (wrap64_of_moneyRange ha)

theorem getValueOut_fits {tx : CTransaction} (h : tx.GetValueOut = .ok v) :
    ∀ x ∈ runningSums 0 (tx.vout.map CTxOut.nValue), Fits64 x := by
  intro x hx
  refine fits64_of_moneyRange (runningSums_moneyRange (by decide) (fun txout _ n n' hstep => ?_)
    h x hx)
  obtain ⟨hrng, hstep⟩ := ensure_ok hstep
  cases hstep
  exact ⟨rfl, hrng⟩

variable {ctx : Context} {env : Env} {s : NodeState} {pindex : CBlockIndex} {fJustCheck : Bool}
  {acc acc' : ConnectAcc} {tx : CTransaction}

theorem claimedValues_fit {inputs : MapPrevTx} {queue : TestPool} {pos : CDiskTxPos}
    {pindexBlock : Option CBlockIndex} {mode : CheckMode} {flags : UInt32}
    {r : TestPool × List SigCheck} (hcb : tx.IsCoinBase = false)
    (h : ConnectInputs ctx env s tx inputs queue pos pindexBlock mode flags = .ok r) :
    ∀ x ∈ runningSums 0 (claimedValues inputs tx), Fits64 x := by
  unfold ConnectInputs at h
  rw [hcb, if_neg Bool.false_ne_true] at h
  obtain ⟨nValueIn, hval, -⟩ := bind_ok h
  intro x hx
  refine fits64_of_moneyRange (runningSums_moneyRange (by decide) (fun txin _ n n' hstep => ?_)
    hval x hx)
  obtain ⟨prevout, hout, hadd, hrng, hrng'⟩ := checkInput_eq_ok hstep
  rw [hout]
  exact ⟨hadd, hrng, hrng'⟩

theorem transactionArithmetic_coinBase (hcb : tx.IsCoinBase = true)
    (h : connectTransaction ctx env s pindex fJustCheck acc tx = .ok acc') :
    (∀ x ∈ transactionArithmetic ctx s acc tx, Fits64 x) ↔ Fits64 (acc.nValueOut + tx.valueOut) := by
  obtain ⟨_, _, -, ⟨-, hsum⟩ | ⟨hspends, -⟩, -⟩ := connectTransaction_cases h
  swap
  · cases hcb.symm.trans hspends
  obtain ⟨nTxValueOut, hout, -⟩ := bind_ok hsum
  obtain rfl := (getValueOut_exact hout).1
  have hfits := getValueOut_fits hout
  unfold transactionArithmetic
  rw [if_pos hcb, hout]
  simp only [List.mem_append, List.mem_singleton]
  exact ⟨fun hall => hall _ (.inr rfl), fun hlast x hx => hx.elim (hfits x) fun heq => heq ▸ hlast⟩

theorem transactionArithmetic_spending (hcb : tx.IsCoinBase = false)
    (h : connectTransaction ctx env s pindex fJustCheck acc tx = .ok acc') :
    (∀ x ∈ transactionArithmetic ctx s acc tx, Fits64 x) ↔
      Fits64 (acc.nValueIn + tx.spentWorth ctx s (pending s acc.mapQueuedChanges)) ∧
      Fits64 (acc.nValueOut + tx.valueOut) ∧
      (tx.IsCoinStake = false →
        Fits64 (acc.nFees
          + (tx.spentWorth ctx s (pending s acc.mapQueuedChanges) - tx.valueOut))) := by
  have hadded := connectTransaction_added h
  obtain ⟨_, _, rfl, ⟨hbase, -⟩ | ⟨-, hsum⟩, -⟩ := connectTransaction_cases h
  · cases hbase.symm.trans hcb
  obtain ⟨mapInputs, _, nTxValueIn, nTxValueOut, spent, hfetch, -, hin, hout, hspent, -⟩ :=
    connectSpending_eq_ok hsum
  -- What is added up within the transaction is a valid amount, so that nothing is lost there.
  have hclaimed := claimedValues_fit hcb hspent
  have hpaid := getValueOut_fits hout
  have hval := getValueIn_spentWorth
    (fetchInputs_ofBlock CheckMode.block_ofBlock hcb hfetch) hcb hin
  rw [wrap64_of_moneyRange hadded.moneyIn] at hval
  obtain rfl := hval
  obtain rfl := (getValueOut_exact hout).1
  have hdiff := wrap64_sub_of_moneyRange hadded.moneyIn hadded.moneyOut
  have hdiff' := wrap64_sub_of_moneyRange hadded.moneyOut hadded.moneyIn
  have hfit := wrap64_eq_self_iff.mp hdiff
  have hfit' := wrap64_eq_self_iff.mp hdiff'
  unfold transactionArithmetic
  rw [if_neg (by simp [hcb])]
  rw [hfetch]
  dsimp only
  rw [hin, hout]
  dsimp only
  rw [hdiff]
  have hsums : ∀ {l : List ℤ}, (∀ x ∈ runningSums 0 (claimedValues mapInputs tx)
        ++ runningSums 0 (tx.vout.map CTxOut.nValue) ++ l, Fits64 x) ↔ ∀ x ∈ l, Fits64 x := by
    intro l
    simp only [List.forall_mem_append]
    exact ⟨fun hall => hall.2, fun hl => ⟨⟨hclaimed, hpaid⟩, hl⟩⟩
  rw [hsums]
  rcases hcs : tx.IsCoinStake with _ | _ <;> simp [hfit, hfit']

/-! ## The sums of a block -/

/-- Sums that are not negative, the fees being a part of what is spent. -/
structure BlockSums.Covered (sums : BlockSums) : Prop where
  fees_nonneg : 0 ≤ sums.fees
  fees_le : sums.fees ≤ sums.valueIn
  valueOut_nonneg : 0 ≤ sums.valueOut

/-- The sums of values spent and of values paid fit. -/
structure BlockSums.Fit (sums : BlockSums) : Prop where
  valueIn_lt : sums.valueIn < 2 ^ 63
  valueOut_lt : sums.valueOut < 2 ^ 63

theorem BlockSums.covered_zero : BlockSums.Covered ⟨0, 0, 0⟩ := by
  constructor <;> decide

theorem BlockSums.Covered.add (ha : a.Covered) (hb : b.Covered) : (a.add b).Covered :=
  ⟨add_nonneg ha.fees_nonneg hb.fees_nonneg, add_le_add ha.fees_le hb.fees_le,
    add_nonneg ha.valueOut_nonneg hb.valueOut_nonneg⟩

theorem BlockSums.Fit.of_add (hb : b.Covered) (h : (a.add b).Fit) : a.Fit := by
  obtain ⟨h₁, h₂, h₃⟩ := hb
  obtain ⟨hin, hout⟩ := h
  unfold BlockSums.add at hin hout
  dsimp only at hin hout
  exact ⟨by omega, by omega⟩

theorem BlockSums.add_regroup (a b c : BlockSums) : (a.add b).add c = a.add (b.add c) := by
  unfold BlockSums.add
  simp only [Int.add_assoc]

@[simp]
theorem BlockSums.add_zero (a : BlockSums) : a.add ⟨0, 0, 0⟩ = a := by
  simp [BlockSums.add]

section

variable {sums : BlockSums}

theorem SumsAre.exact (h : SumsAre acc sums) (hcov : sums.Covered) (hfit : sums.Fit) :
    acc.nValueIn = sums.valueIn ∧ acc.nValueOut = sums.valueOut ∧ acc.nFees = sums.fees := by
  obtain ⟨h₁, h₂, h₃⟩ := hcov
  obtain ⟨h₄, h₅⟩ := hfit
  have hfits {x : ℤ} (hx : 0 ≤ x) (hx' : x < 2 ^ 63) : wrap64 x = x :=
    wrap64_eq_self_iff.mpr ⟨by omega, hx'⟩
  exact ⟨h.valueIn.trans (hfits (by omega) h₄), h.valueOut.trans (hfits h₃ h₅),
    h.fees.trans (hfits h₁ (by omega))⟩

theorem TxAdded.worth_covered {L : Ledger UInt256 CDiskTxPos}
    (h : TxAdded ctx s acc acc' L tx) : (txWorth ctx s L tx).Covered := by
  have hin : 0 ≤ tx.spentWorth ctx s L := h.moneyIn.1
  have hout : 0 ≤ tx.valueOut := h.moneyOut.1
  refine ⟨h.covered, ?_, hout⟩
  unfold txWorth
  dsimp only
  split <;> omega

theorem transactionArithmetic_fits_iff (hsums : SumsAre acc sums) (hcov : sums.Covered)
    (hfit : sums.Fit)
    (h : connectTransaction ctx env s pindex fJustCheck acc tx = .ok acc') :
    (∀ x ∈ transactionArithmetic ctx s acc tx, Fits64 x) ↔
      (sums.add (txWorth ctx s (pending s acc.mapQueuedChanges) tx)).Fit := by
  obtain ⟨hin, hout, hfees⟩ := hsums.exact hcov hfit
  obtain ⟨hfees₀, hfees₁, hout₀⟩ := (connectTransaction_added h).worth_covered
  obtain ⟨h₁, h₂, h₃⟩ := hcov
  obtain ⟨h₄, h₅⟩ := hfit
  have hiff : (sums.add (txWorth ctx s (pending s acc.mapQueuedChanges) tx)).Fit ↔
      sums.valueIn + tx.spentWorth ctx s (pending s acc.mapQueuedChanges) < 2 ^ 63 ∧
        sums.valueOut + tx.valueOut < 2 ^ 63 :=
    ⟨fun h => ⟨h.1, h.2⟩, fun h => ⟨h.1, h.2⟩⟩
  rw [hiff]
  unfold txWorth at hfees₀ hfees₁ hout₀
  dsimp only at hfees₀ hfees₁ hout₀
  rcases hcb : tx.IsCoinBase with _ | _
  · rw [transactionArithmetic_spending hcb h, hin, hout, hfees]
    unfold Fits64
    -- The fees of an ordinary transaction are at most what it spends.
    constructor
    · rintro ⟨hspent, hpaid, -⟩
      exact ⟨hspent.2, hpaid.2⟩
    · rintro ⟨hspent, hpaid⟩
      refine ⟨⟨by omega, hspent⟩, ⟨by omega, hpaid⟩, fun hcs => ?_⟩
      have hord : tx.IsOrdinary = true := by simp [CTransaction.IsOrdinary, hcb, hcs]
      rw [if_pos hord] at hfees₀ hfees₁
      exact ⟨by omega, by omega⟩
  · obtain ⟨hnone, -, -⟩ := @coinBase_worth (pending s acc.mapQueuedChanges) tx s
      ctx hcb
    rw [transactionArithmetic_coinBase hcb h, hout]
    unfold Fits64
    constructor
    · rintro ⟨-, hpaid⟩
      exact ⟨by omega, hpaid⟩
    · rintro ⟨-, hpaid⟩
      exact ⟨by omega, hpaid⟩

variable {vtx : List CTransaction}

theorem connectLoop_worth (hsums : SumsAre acc sums)
    (h : vtx.foldlM (connectTransaction ctx env s pindex fJustCheck) acc = .ok acc') :
    SumsAre acc' (sums.add (blockWorth ctx s pindex fJustCheck (pending s acc.mapQueuedChanges)
      acc.nTxPos vtx)) := by
  induction vtx generalizing acc sums with
  | nil =>
    cases h
    simpa [blockWorth] using hsums
  | cons tx vtx ih =>
    obtain ⟨acc₁, hstep, h⟩ := bind_ok h
    obtain ⟨hled, -, hnext⟩ := connectTransaction_block hstep
    have hrest := ih ((connectTransaction_added hstep).sums sums hsums) h
    rw [hled, hnext, BlockSums.add_regroup] at hrest
    exact hrest

theorem blockWorth_covered
    (h : vtx.foldlM (connectTransaction ctx env s pindex fJustCheck) acc = .ok acc') :
    (blockWorth ctx s pindex fJustCheck (pending s acc.mapQueuedChanges) acc.nTxPos
      vtx).Covered := by
  induction vtx generalizing acc with
  | nil => exact BlockSums.covered_zero
  | cons tx vtx ih =>
    obtain ⟨acc₁, hstep, h⟩ := bind_ok h
    obtain ⟨hled, -, hnext⟩ := connectTransaction_block hstep
    have hrest := ih h
    rw [hled, hnext] at hrest
    exact (connectTransaction_added hstep).worth_covered.add hrest

theorem loopArithmetic_fits_iff (hsums : SumsAre acc sums) (hcov : sums.Covered)
    (hfit : sums.Fit)
    (h : vtx.foldlM (connectTransaction ctx env s pindex fJustCheck) acc = .ok acc') :
    (∀ x ∈ loopArithmetic ctx env s pindex fJustCheck acc vtx, Fits64 x) ↔
      (sums.add (blockWorth ctx s pindex fJustCheck (pending s acc.mapQueuedChanges) acc.nTxPos
        vtx)).Fit := by
  induction vtx generalizing acc sums with
  | nil => simpa [loopArithmetic, blockWorth] using hfit
  | cons tx vtx ih =>
    obtain ⟨acc₁, hstep, h⟩ := bind_ok h
    obtain ⟨hled, -, hnext⟩ := connectTransaction_block hstep
    have hadded := connectTransaction_added hstep
    have hfst := transactionArithmetic_fits_iff hsums hcov hfit hstep
    have haft := hcov.add hadded.worth_covered
    rw [loopArithmetic, hstep]
    rw [List.forall_mem_append, hfst, blockWorth, ← BlockSums.add_regroup, ← hled, ← hnext]
    constructor
    · rintro ⟨hsooner, hrest⟩
      exact (ih (hadded.sums sums hsums) haft hsooner h).mp hrest
    · -- The rest only adds to the sums.
      intro hlater
      have hsooner := hlater.of_add (blockWorth_covered h)
      exact ⟨hsooner, (ih (hadded.sums sums hsums) haft hsooner h).mpr hlater⟩

theorem nValueOut_nonneg_of_fits (hsums : SumsAre acc ⟨0, 0, 0⟩)
    (h : vtx.foldlM (connectTransaction ctx env s pindex fJustCheck) acc = .ok acc')
    (hall : ∀ x ∈ loopArithmetic ctx env s pindex fJustCheck acc vtx, Fits64 x) :
    0 ≤ acc'.nValueOut := by
  have hcov := BlockSums.covered_zero.add (blockWorth_covered h)
  have hfit := (loopArithmetic_fits_iff hsums BlockSums.covered_zero (by constructor <;> decide)
    h).mp hall
  calc 0 ≤ _ := hcov.valueOut_nonneg
    _ = acc'.nValueOut := ((connectLoop_worth hsums h).exact hcov hfit).2.1.symm

end

def SupplyFits (prevSupply : ℤ) (sums : BlockSums) : Prop :=
  Fits64 (prevSupply + sums.valueOut) ∧ Fits64 (prevSupply + sums.valueOut - sums.valueIn)

def worthOf (ctx : Context) (s : NodeState) (block : CBlock) (pindex : CBlockIndex)
    (fJustCheck : Bool) (done : List CTransaction) : BlockSums :=
  blockWorth ctx s pindex fJustCheck s.txdb.txIndex
    (ConnectAcc.start block pindex fJustCheck).nTxPos done

theorem supplyArithmetic_fits_iff {sums : BlockSums} (prevSupply : ℤ) (hsums : SumsAre acc sums)
    (hcov : sums.Covered) (hfit : sums.Fit) :
    (∀ x ∈ supplyArithmetic prevSupply acc, Fits64 x) ↔ SupplyFits prevSupply sums := by
  obtain ⟨hin, hout, hfees⟩ := hsums.exact hcov hfit
  obtain ⟨h₁, h₂, h₃⟩ := hcov
  obtain ⟨h₄, h₅⟩ := hfit
  have hcre : Fits64 (sums.valueOut - sums.valueIn) := ⟨by omega, by omega⟩
  have hmint : Fits64 (sums.valueOut - sums.valueIn + sums.fees) := ⟨by omega, by omega⟩
  unfold supplyArithmetic SupplyFits
  rw [hin, hout, hfees]
  simp only [List.forall_mem_cons, List.not_mem_nil, false_imp_iff, implies_true, and_true,
    wrap64_eq_self_iff.mpr hcre, hcre, hmint, true_and]
  constructor
  · rintro ⟨hpaid, hsup⟩
    rw [wrap64_eq_self_iff.mpr hpaid] at hsup
    exact ⟨hpaid, hsup⟩
  · rintro ⟨hpaid, hsup⟩
    rw [wrap64_eq_self_iff.mpr hpaid]
    exact ⟨hpaid, hsup⟩

/-- For the transactions of a block that pass, everything that `ConnectBlock` computes in its loop
fits exactly when the sum of what they spend and the sum of what they pay do; and with it the mint
and the supply of the block fit exactly when the supply of the block before does together with these
sums. -/
theorem connectBlock_values_fit_iff (ctx : Context) (env : Env) (s : NodeState) (block : CBlock)
    (pindex : CBlockIndex) (fJustCheck : Bool) (done : List CTransaction) (acc : ConnectAcc)
    (h : done.foldlM (connectTransaction ctx env s pindex fJustCheck)
      (ConnectAcc.start block pindex fJustCheck) = .ok acc) :
    ((∀ x ∈ loopArithmetic ctx env s pindex fJustCheck (ConnectAcc.start block pindex fJustCheck)
        done, Fits64 x) ↔ (worthOf ctx s block pindex fJustCheck done).Fit) ∧
      ∀ prevSupply,
        (∀ x ∈ loopArithmetic ctx env s pindex fJustCheck
            (ConnectAcc.start block pindex fJustCheck) done ++ supplyArithmetic prevSupply acc,
          Fits64 x) ↔
        (worthOf ctx s block pindex fJustCheck done).Fit ∧
          SupplyFits prevSupply (worthOf ctx s block pindex fJustCheck done) := by
  have hstart : SumsAre (ConnectAcc.start block pindex fJustCheck) ⟨0, 0, 0⟩ := ⟨rfl, rfl, rfl⟩
  have hledger : pending s (ConnectAcc.start block pindex fJustCheck).mapQueuedChanges
      = s.txdb.txIndex := overlay_empty _
  have hzero (sums : BlockSums) : BlockSums.add ⟨0, 0, 0⟩ sums = sums := by
    simp [BlockSums.add]
  have hloop := loopArithmetic_fits_iff hstart BlockSums.covered_zero (by constructor <;> decide) h
  have hworth := connectLoop_worth hstart h
  have hcovered := blockWorth_covered h
  rw [hledger, hzero] at hloop hworth
  rw [hledger] at hcovered
  refine ⟨hloop, fun prevSupply => ?_⟩
  rw [List.forall_mem_append, hloop]
  exact and_congr_right fun hfit => supplyArithmetic_fits_iff prevSupply hworth hcovered hfit

/-! ## A block that moves the largest amount again and again -/

def transferTx (k : ℕ) : CTransaction :=
  plainTx (UInt32.ofNat (100 + k)) [inputOf (UInt32.ofNat (99 + k)) 0] [payTo MAX_SINGLE_TX]

def grantBlock : CBlock := plainBlock 1 0 0 [plainTx 99 [inputOf 5 0] [payTo MAX_SINGLE_TX]]

def transferBlock (n : ℕ) : CBlock :=
  plainBlock 2 1 156545 (plainTx 20 [coinbaseInput] [payTo 0] :: (List.range n).map transferTx)

theorem transferBlock_position {n k : ℕ} (hn : 252 ≤ n) (hn' : n ≤ 1000) (hk : k < n) :
    (txPosition 8 (transferBlock n).vtx (k + 1)).toNat = 158 + 65 * k := by
  have hcnt : GetSizeOfCompactSize (transferBlock n).vtx.length = 3 := by
    have hlen : (transferBlock n).vtx.length = n + 1 := by simp [transferBlock, plainBlock]
    unfold GetSizeOfCompactSize
    rw [hlen, if_neg (by omega), if_pos (by omega)]
  have hsum : (((transferBlock n).vtx.take (k + 1)).map CTransaction.GetSerializeSize).sum
      = 67 + 65 * k := by
    have hsize : CTransaction.GetSerializeSize ∘ transferTx = fun _ => 65 := rfl
    have htake : (transferBlock n).vtx.take (k + 1)
        = plainTx 20 [coinbaseInput] [payTo 0] :: ((List.range n).take k).map transferTx := by
      simp only [transferBlock, plainBlock, List.take_succ_cons, List.map_take]
    rw [htake, List.map_cons, List.sum_cons, List.map_map, hsize, List.map_const',
      List.length_take, List.length_range, List.sum_replicate_nat]
    change 67 + _ = _
    omega
  unfold txPosition
  rw [hcnt, hsum, UInt32.toNat_add, UInt32.toNat_ofNat', show (8 : UInt32).toNat = 8 from rfl]
  omega

def transferFiles (n : ℕ) (hn : 252 ≤ n) (hn' : n ≤ 1000) : BlockFiles where
  block nFile nPos :=
    if nPos = 8 then
      if nFile = 1 then some grantBlock else if nFile = 2 then some (transferBlock n) else none
    else none
  tx nFile nPos :=
    if nFile = 1 then grantBlock.vtx.head?
    else if nFile = 2 then
      if nPos.toNat < 158 then (transferBlock n).vtx.head?
      else some (transferTx ((nPos.toNat - 158) / 65))
    else none
  closed nPos := by simp
  room nFile nBlockPos block h := by
    split at h
    · rename_i hpos
      rw [hpos]
      decide
    · simp at h
  tx_eq nFile nBlockPos block h i tx hi := by
    split at h
    · rename_i hpos
      subst hpos
      split at h
      · rename_i hfile
        cases h
        rw [if_pos hfile]
        rcases i with _ | i
        · exact hi
        · simp [grantBlock, plainBlock] at hi
      · split at h
        · rename_i hfile' hfile
          cases h
          rw [if_neg hfile', if_pos hfile]
          rcases i with _ | k
          · have hstart : (txPosition 8 (transferBlock n).vtx 0).toNat < 158 := by
              unfold txPosition GetSizeOfCompactSize
              rw [List.take_zero, List.map_nil, List.sum_nil, UInt32.toNat_add,
                UInt32.toNat_ofNat', show (8 : UInt32).toNat = 8 from rfl]
              split_ifs <;> omega
            rw [if_pos hstart]
            exact hi
          · have hlength := (List.getElem?_eq_some_iff.mp hi).1
            have hk : k < n := by simpa [transferBlock, plainBlock] using hlength
            rw [transferBlock_position hn hn' hk, if_neg (by omega),
              show (158 + 65 * k - 158) / 65 = k by omega]
            simpa [transferBlock, plainBlock, hk] using hi
        · simp at h
    · simp at h

def transferContext : Context :=
  plainContext (transferFiles 308 (by decide) (by decide)) 1 true

def transferNode : NodeState :=
  { emptyNode with
    mapBlockIndex := Function.update (Function.update (fun _ => none)
      1 (some (plainIndex 1 0 none grantBlock)))
      2 (some (plainIndex 2 1 (some 1) (transferBlock 308)))
    pindexGenesisBlock := some 1
    pindexBest := some 1
    hashBestChain := 1
    nBestHeight := 0
    txdb := ⟨Function.update (fun _ => none) (.tx 99)
      (some (CTxIndex.new (CDiskTxPos.of 1 8 (txPosition 8 grantBlock.vtx 0)) 1)), some []⟩ }

theorem transferBlock_checked : BlockChecked transferContext (plainEnv 1000) transferNode
    (transferBlock 308) true true false where
  form := by decide +kernel
  devops := by decide
  signature := by decide
  locks := by decide
  payment := by decide
  transactions := by
    -- the identifiers rise, so that no two of them need to be compared
    have hids : ((transferBlock 308).vtx.map transferContext.hashTx).Nodup :=
      .of_map BitVec.toNat
        ((List.isChain_iff_pairwise.mp (by decide +kernel)).imp fun hlt => Nat.ne_of_lt hlt)
    unfold checkTransactions
    rw [(ensure_eq_ok (u := ())).mpr hids]
    decide +kernel

def transferResult : Except Failure (CBlockIndex × ConnectAcc) :=
  evaluateBlock transferContext (plainEnv 1000) (transferBlock 308) 2 false transferNode

/-- The block passes all checks, although the sum of what it pays does not fit. -/
theorem transferBlock_overflows :
    (∃ s, CheckBlock transferContext (plainEnv 1000) (transferBlock 308) true true false
        transferNode = (.ok (), s)) ∧
      transferResult.toOption.map (fun r => r.2.nValueOut)
        = some (308 * MAX_SINGLE_TX - 2 ^ 64) ∧
      ¬∀ x ∈ loopArithmetic transferContext (plainEnv 1000) transferNode
          (plainIndex 2 1 (some 1) (transferBlock 308)) false
          (ConnectAcc.start (transferBlock 308) (plainIndex 2 1 (some 1) (transferBlock 308)) false)
          (transferBlock 308).vtx, Fits64 x := by
  have hpaid : transferResult.toOption.map (fun r => r.2.nValueOut)
      = some (308 * MAX_SINGLE_TX - 2 ^ 64) := by decide +kernel
  refine ⟨checkBlock_of_checked transferBlock_checked, hpaid, fun hall => ?_⟩
  obtain ⟨r, hr, hout⟩ := Option.map_eq_some_iff.mp hpaid
  have hrun : transferResult = .ok r := by
    rcases hresult : transferResult with e | r'
    · rw [hresult] at hr
      cases hr
    · rw [hresult] at hr
      rw [Option.some.inj hr]
  obtain ⟨i, -, hentry, hacc, -⟩ := evaluateBlock_eq_ok transferContext hrun
  obtain rfl : plainIndex 2 1 (some 1) (transferBlock 308) = i := Option.some.inj hentry
  -- The sum would not be negative if everything fitted.
  have hnonneg := nValueOut_nonneg_of_fits ⟨rfl, rfl, rfl⟩ hacc hall
  rw [hout] at hnonneg
  exact absurd hnonneg (by decide)

/-- In the context with two small blocks all sums fit. -/
theorem chainedBlock_values_fit : ∃ acc,
    connectTransactions (chainedContext true) (plainEnv 2000) chainedNode chainedBlock
        (plainIndex 2 1 (some 1) chainedBlock) false = .ok acc ∧
      ∀ x ∈ loopArithmetic (chainedContext true) (plainEnv 2000) chainedNode
          (plainIndex 2 1 (some 1) chainedBlock) false
          (ConnectAcc.start chainedBlock (plainIndex 2 1 (some 1) chainedBlock) false)
          chainedBlock.vtx ++ supplyArithmetic 0 acc, Fits64 x := by
  have hpasses : (connectTransactions (chainedContext true) (plainEnv 2000) chainedNode chainedBlock
      (plainIndex 2 1 (some 1) chainedBlock) false).toOption.isSome = true := by decide
  rcases hacc : connectTransactions (chainedContext true) (plainEnv 2000) chainedNode chainedBlock
      (plainIndex 2 1 (some 1) chainedBlock) false with e | acc
  · rw [hacc] at hpasses
    simp [Except.toOption] at hpasses
  · refine ⟨acc, rfl, ((connectBlock_values_fit_iff _ _ _ _ _ _ _ acc hacc).2 0).mpr ?_⟩
    exact ⟨by constructor <;> decide, by constructor <;> constructor <;> decide⟩

end ZalemCoin.Chain
