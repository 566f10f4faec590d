import Mathlib.Algebra.Order.Group.Int
import Mathlib.Data.Int.ConditionallyCompleteOrder
import Mathlib.Order.ConditionallyCompleteLattice.Basic
import ZalemCoin.Chain.LedgerRefinement

/-!
# What the transactions of a block add up to

The value of an output is read from the transaction that its index entry refers to. With it the sums
that `ConnectBlock` carries are, up to the overflow of their type, the sums over the transactions of
the block on the ledger that they are connected to, whether or not identifiers come again.
-/

namespace ZalemCoin.Chain

open Lib

abbrev Placed := List (CDiskTxPos × CTransaction)

def CTransaction.valueOut (tx : CTransaction) : ℤ := (tx.vout.map CTxOut.nValue).sum

/-- What transactions spend, create and leave as fees. -/
structure BlockSums where
  valueIn : ℤ
  valueOut : ℤ
  fees : ℤ

/-- The sums of two parts together. -/
def BlockSums.add (a b : BlockSums) : BlockSums :=
  ⟨a.valueIn + b.valueIn, a.valueOut + b.valueOut, a.fees + b.fees⟩

/-! ## Where transactions are placed -/

variable (ctx : Context)

/-- Transactions that are on the disk at their positions, none of which is reserved. -/
def WellPlaced (placed : Placed) : Prop :=
  ∀ p ∈ placed, readTxAt ctx p.1 = some p.2 ∧ p.1 ≠ CDiskTxPos.null ∧
    p.1 ≠ CDiskTxPos.memoryPool

theorem wellPlaced_append {ctx : Context} {placed placed' : Placed} :
    WellPlaced ctx (placed ++ placed') ↔ WellPlaced ctx placed ∧ WellPlaced ctx placed' :=
  List.forall_mem_append

theorem wellPlaced_placedTransactions {ctx : Context} {nFile nBlockPos : UInt32} {block : CBlock}
    (h : ctx.files.block nFile nBlockPos = some block) :
    WellPlaced ctx (placedTransactions nFile nBlockPos block.vtx) := by
  have hfile : nFile ≠ 0xffffffff := by
    rintro rfl
    rw [(ctx.files.closed nBlockPos).2.1] at h
    simp at h
  have hroom := ctx.files.room _ _ _ h
  intro p hp
  unfold placedTransactions placedAt at hp
  obtain ⟨k, hk, rfl⟩ := List.getElem_of_mem hp
  rw [List.length_mapIdx] at hk
  rw [List.getElem_mapIdx]
  obtain ⟨hf, hb, ht⟩ := @CDiskTxPos.of_eq nFile nBlockPos (txPosition nBlockPos block.vtx k) hfile
  refine ⟨?_, CDiskTxPos.of_ne_null hfile, fun heq => ?_⟩
  · unfold readTxAt
    rw [hf, ht]
    exact ctx.files.tx_eq _ _ _ h k _ (List.getElem?_eq_getElem hk)
  · -- The position that stands for the memory pool lies before the first block of its file.
    have hsmall : nBlockPos = 1 := hb.symm.trans (congrArg CDiskTxPos.nBlockPos heq)
    rw [hsmall] at hroom
    exact absurd hroom (by decide)

theorem WellPlaced.pos_ne_null {ctx : Context} {placed : Placed} (h : WellPlaced ctx placed) :
    ∀ t ∈ spendsOf ctx placed, t.pos ≠ CDiskTxPos.null := by
  intro t ht
  obtain ⟨p, hp, rfl⟩ := List.mem_map.mp ht
  exact (h p hp).2.1

/-! ## Sums that overflow -/

@[simp]
theorem wrap64_add_wrap64_left (a b : ℤ) : wrap64 (wrap64 a + b) = wrap64 (a + b) :=
  Int.bmod_add_bmod

@[simp]
theorem wrap64_add_wrap64_right (a b : ℤ) : wrap64 (a + wrap64 b) = wrap64 (a + b) :=
  Int.add_bmod_bmod

@[simp]
theorem wrap64_sub_wrap64_left (a b : ℤ) : wrap64 (wrap64 a - b) = wrap64 (a - b) :=
  Int.bmod_sub_bmod

@[simp]
theorem wrap64_sub_wrap64_right (a b : ℤ) : wrap64 (a - wrap64 b) = wrap64 (a - b) :=
  Int.sub_bmod_bmod

@[simp]
theorem wrap64_wrap64 (a : ℤ) : wrap64 (wrap64 a) = wrap64 a := Int.bmod_bmod

theorem wrap64_mint (a b c : ℤ) : wrap64 (wrap64 a - wrap64 b + wrap64 c) = wrap64 (a - b + c) :=
  calc wrap64 (wrap64 a - wrap64 b + wrap64 c)
      = wrap64 (wrap64 (wrap64 a - wrap64 b) + c) := by
        rw [wrap64_add_wrap64_left, wrap64_add_wrap64_right]
    _ = wrap64 (wrap64 (a - b) + c) := by rw [wrap64_sub_wrap64_left, wrap64_sub_wrap64_right]
    _ = wrap64 (a - b + c) := wrap64_add_wrap64_left _ _

theorem wrap64_supply (a b c : ℤ) : wrap64 (a + wrap64 b - wrap64 c) = wrap64 (a + b - c) :=
  calc wrap64 (a + wrap64 b - wrap64 c)
      = wrap64 (wrap64 (a + wrap64 b) - c) := by
        rw [wrap64_sub_wrap64_left, wrap64_sub_wrap64_right]
    _ = wrap64 (a + b - c) := by rw [wrap64_add_wrap64_right, wrap64_sub_wrap64_left]

variable {α : Type} {v a b : ℤ} {pos : CDiskTxPos} {L : Ledger UInt256 CDiskTxPos}
  {tx : CTransaction} {s : NodeState}

theorem foldlM_wrap64_eq {l : List α} {f : ℤ → α → Except Failure ℤ} {val : α → ℤ}
    (hstep : ∀ a ∈ l, ∀ n n', f n a = .ok n' → n' = wrap64 (n + val a)) (h : l.foldlM f 0 = .ok v) :
    v = wrap64 (l.map val).sum := by
  refine foldlM_ok_induction (fun done v => v = wrap64 (done.map val).sum) rfl ?_ h
  intro done a rest n n' hl hn hstep'
  rw [hstep a (by simp [hl]) n n' hstep', hn, List.map_append, List.sum_append]
  simp

theorem foldl_wrap64 (f : α → ℤ) (l : List α) :
    l.foldl (fun n a => wrap64 (n + f a)) 0 = wrap64 (l.map f).sum := by
  induction l using List.reverseRecOn with
  | nil => rfl
  | append_singleton l a ih =>
    rw [List.foldl_concat, ih, wrap64_add_wrap64_left, List.map_append, List.sum_append,
      List.map_singleton, List.sum_singleton]

/-! ## The sums of a block on a ledger -/

def valueAt (pos : CDiskTxPos) (n : ℕ) : ℤ :=
  (((readTxAt ctx pos).bind fun tx => tx.vout[n]?).map CTxOut.nValue).getD 0

def CTransaction.spentValue (L : Ledger UInt256 CDiskTxPos)
    (tx : CTransaction) : ℤ :=
  (tx.spentSlots.map (Ledger.slotValue (valueAt ctx) L)).sum

/-- Whether a transaction is neither a coinbase nor a coinstake. -/
def CTransaction.IsOrdinary (tx : CTransaction) : Bool := !(tx.IsCoinBase || tx.IsCoinStake)

def txLedgerSums (L : Ledger UInt256 CDiskTxPos) (tx : CTransaction) :
    BlockSums where
  valueIn := tx.spentValue ctx L
  valueOut := tx.valueOut
  fees := if tx.IsOrdinary then tx.spentValue ctx L - tx.valueOut else 0

def ledgerSums (ctx : Context) : Ledger UInt256 CDiskTxPos → Placed → BlockSums
  | _, [] => ⟨0, 0, 0⟩
  | L, p :: rest =>
    (txLedgerSums ctx L p.2).add
      (ledgerSums ctx (Ledger.connect CDiskTxPos.null L (p.2.spend ctx p.1)) rest)

def ledgerAfter (L : Ledger UInt256 CDiskTxPos) (placed : Placed) :
    Ledger UInt256 CDiskTxPos :=
  (spendsOf ctx placed).foldl (Ledger.connect CDiskTxPos.null) L

theorem ledgerSums_concat (ctx : Context) (L : Ledger UInt256 CDiskTxPos) (done : Placed)
    (p : CDiskTxPos × CTransaction) :
    ledgerSums ctx L (done ++ [p])
      = (ledgerSums ctx L done).add (txLedgerSums ctx (ledgerAfter ctx L done) p.2) := by
  induction done generalizing L with
  | nil => simp [ledgerSums, ledgerAfter, spendsOf, BlockSums.add]
  | cons q done ih =>
    rw [List.cons_append, ledgerSums, ledgerSums, ih]
    simp only [BlockSums.add, add_assoc]
    rfl

/-- What a block creates, its fees included. -/
def BlockSums.mint (sums : BlockSums) : ℤ := sums.valueOut - sums.valueIn + sums.fees

theorem BlockSums.mint_add (a b : BlockSums) : (a.add b).mint = a.mint + b.mint := by
  unfold BlockSums.mint BlockSums.add
  dsimp only
  omega

theorem txLedgerSums_mint_of_ordinary {ctx : Context} (h : tx.IsOrdinary = true) :
    (txLedgerSums ctx L tx).mint = 0 := by
  unfold BlockSums.mint txLedgerSums
  rw [if_pos h]
  dsimp only
  omega

theorem txLedgerSums_mint {ctx : Context} (h : tx.IsOrdinary = false) :
    (txLedgerSums ctx L tx).mint = tx.valueOut - tx.spentValue ctx L := by
  unfold BlockSums.mint txLedgerSums
  rw [h, if_neg Bool.false_ne_true]
  exact add_zero _

theorem ledgerSums_mint_of_ordinary {ctx : Context} {placed : Placed}
    (h : ∀ p ∈ placed, p.2.IsOrdinary = true) :
    (ledgerSums ctx L placed).mint = 0 := by
  induction placed generalizing L with
  | nil => rfl
  | cons p placed ih =>
    rw [ledgerSums, BlockSums.mint_add, txLedgerSums_mint_of_ordinary (h p List.mem_cons_self),
      ih fun q hq => h q (List.mem_cons_of_mem _ hq)]
    rfl

/-! ## The sums of a block by the transactions that are fetched -/

/-- The transaction that an index entry refers to, if it is there. -/
def prevTxAt (s : NodeState) (hash : UInt256) (pos : CDiskTxPos) :
    Option CTransaction :=
  if pos = CDiskTxPos.memoryPool then s.mempool.mapTx.lookup hash else readTxAt ctx pos

theorem PrevTx.prevTxAt {ctx : Context} {hash : UInt256} {txPrev : CTransaction}
    (h : PrevTx ctx s hash pos txPrev) : prevTxAt ctx s hash pos = some txPrev := by
  unfold PrevTx at h
  unfold Chain.prevTxAt
  split
  · rename_i hpool
    rwa [if_pos hpool] at h
  · rename_i hpool
    rwa [if_neg hpool] at h

/-- The value of an output, by the transaction that its entry refers to. -/
def slotWorth (s : NodeState) (L : Ledger UInt256 CDiskTxPos)
    (k : UInt256 × ℕ) : ℤ :=
  ((((L k.1).bind fun e => prevTxAt ctx s k.1 e.pos).bind fun tx => tx.vout[k.2]?).map
    CTxOut.nValue).getD 0

/-- What the outputs that a transaction spends are worth, by the transactions that their entries
refer to. -/
def CTransaction.spentWorth (s : NodeState) (L : Ledger UInt256 CDiskTxPos)
    (tx : CTransaction) : ℤ :=
  (tx.spentSlots.map (slotWorth ctx s L)).sum

def txWorth (s : NodeState) (L : Ledger UInt256 CDiskTxPos) (tx : CTransaction) :
    BlockSums where
  valueIn := tx.spentWorth ctx s L
  valueOut := tx.valueOut
  fees := if tx.IsOrdinary then tx.spentWorth ctx s L - tx.valueOut else 0

def OnDisk (L : Ledger UInt256 CDiskTxPos) : Prop :=
  ∀ h e, L h = some e → e.pos ≠ CDiskTxPos.memoryPool

theorem slotWorth_eq_slotValue {ctx : Context} (hdisk : OnDisk L) (k : UInt256 × ℕ) :
    slotWorth ctx s L k = Ledger.slotValue (valueAt ctx) L k := by
  unfold slotWorth Ledger.slotValue
  rcases he : L k.1 with _ | e
  · rfl
  · unfold prevTxAt valueAt
    simp [hdisk _ _ he]

theorem txWorth_eq_txLedgerSums {ctx : Context} (hdisk : OnDisk L) (tx : CTransaction) :
    txWorth ctx s L tx = txLedgerSums ctx L tx := by
  have hspent : tx.spentWorth ctx s L = tx.spentValue ctx L := by
    unfold CTransaction.spentWorth CTransaction.spentValue
    rw [funext (slotWorth_eq_slotValue hdisk)]
  unfold txWorth txLedgerSums
  rw [hspent]

/-! ## Sums that stay in range -/

/-- A number that an `int64_t` can hold. -/
def Fits64 (x : ℤ) : Prop := -2 ^ 63 ≤ x ∧ x < 2 ^ 63

theorem wrap64_eq_self_iff {x : ℤ} : wrap64 x = x ↔ Fits64 x := by
  unfold wrap64 Fits64
  rw [Int.bmod_eq_iff (by decide)]
  omega

theorem max_single_tx_eq : MAX_SINGLE_TX = 30000000000000000 := by decide

theorem wrap64_of_moneyRange (ha : MoneyRange a) : wrap64 a = a := by
  have hmax := max_single_tx_eq
  rw [wrap64_eq_self_iff]
  unfold MoneyRange at ha
  unfold Fits64
  omega

theorem wrap64_add_of_moneyRange (ha : MoneyRange a) (hb : MoneyRange b) :
    wrap64 (a + b) = a + b := by
  have hmax := max_single_tx_eq
  rw [wrap64_eq_self_iff]
  unfold MoneyRange at ha hb
  unfold Fits64
  omega

theorem wrap64_sub_of_moneyRange (ha : MoneyRange a) (hb : MoneyRange b) :
    wrap64 (a - b) = a - b := by
  have hmax := max_single_tx_eq
  rw [wrap64_eq_self_iff]
  unfold MoneyRange at ha hb
  unfold Fits64
  omega

theorem foldlM_moneyRange_eq {l : List α} {f : ℤ → α → Except Failure ℤ} {val : α → ℤ}
    (hstep : ∀ a ∈ l, ∀ n n', f n a = .ok n' → n' = wrap64 (n + val a) ∧ MoneyRange (val a) ∧ MoneyRange n')
    (h : l.foldlM f 0 = .ok v) : v = (l.map val).sum ∧ MoneyRange v := by
  refine foldlM_ok_induction (fun done v => v = (done.map val).sum ∧ MoneyRange v)
    ⟨rfl, (by decide : MoneyRange 0)⟩ ?_ h
  intro done a rest n n' hl hn hstep'
  obtain ⟨hsum, hval, hrng⟩ := hstep a (by simp [hl]) n n' hstep'
  refine ⟨?_, hrng⟩
  rw [hsum, wrap64_add_of_moneyRange hn.2 hval, hn.1, List.map_append, List.sum_append]
  simp

theorem getValueOut_exact (h : tx.GetValueOut = .ok v) :
    v = tx.valueOut ∧ MoneyRange v := by
  refine foldlM_moneyRange_eq (fun txout _ n n' hstep => ?_) h
  obtain ⟨hrng, hstep⟩ := ensure_ok hstep
  cases hstep
  exact ⟨rfl, hrng⟩

theorem checkInput_eq_ok {inputs : MapPrevTx} {pindexBlock : Option CBlockIndex} {n n' : ℤ}
    {txin : CTxIn} (h : checkInput s tx inputs pindexBlock n txin = .ok n') :
    ∃ prevout, GetOutputFor inputs txin = .ok prevout ∧ n' = wrap64 (n + prevout.nValue) ∧
      MoneyRange prevout.nValue ∧ MoneyRange n' := by
  obtain ⟨⟨⟩, -, h⟩ := bind_ok h
  split at h
  · simp at h
  · obtain ⟨⟨⟩, -, h⟩ := bind_ok h
    obtain ⟨⟨⟩, -, h⟩ := bind_ok h
    obtain ⟨prevout, hout, h⟩ := bind_ok h
    obtain ⟨⟨⟩, -, h⟩ := bind_ok h
    obtain ⟨hrng, h⟩ := ensure_ok h
    cases h
    exact ⟨prevout, hout, rfl, hrng.1, hrng.2⟩

theorem checkFees_eq_ok {nValueIn : ℤ} (hcs : tx.IsCoinStake = false)
    (h : checkFees tx nValueIn = .ok ()) : tx.valueOut ≤ nValueIn := by
  unfold checkFees at h
  rw [hcs, if_neg Bool.false_ne_true] at h
  obtain ⟨nValueOut, hout, h⟩ := bind_ok h
  obtain ⟨hle, -⟩ := ensure_ok h
  rw [← (getValueOut_exact hout).1]
  exact hle

/-! ## One transaction -/

variable {env : Env} {acc : ConnectAcc}

section

variable {ctx : Context} {inputs : MapPrevTx}

theorem getOutputFor_slotWorth {txin : CTxIn} {prevout : CTxOut}
    (hfetch : Fetched ctx s L inputs tx.vin) (htxin : txin ∈ tx.vin)
    (h : GetOutputFor inputs txin = .ok prevout) :
    slotWorth ctx s L txin.slot = prevout.nValue := by
  obtain ⟨p, hlook, -⟩ := hfetch.inRange txin htxin
  obtain ⟨hent, hprev⟩ := hfetch.entry _ _ hlook
  have htx := hprev.prevTxAt
  unfold GetOutputFor at h
  rw [hlook, Option.bind_some] at h
  unfold slotWorth CTxIn.slot
  rw [hent]
  simp only [Option.bind_some, htx]
  rcases hget : p.2.vout[txin.prevout.n.toNat]? with _ | txout
  · rw [hget] at h
    simp at h
  · rw [hget] at h
    rw [← Except.ok.inj h]
    rfl

theorem spentWorth_eq (hcb : tx.IsCoinBase = false) :
    tx.spentWorth ctx s L = (tx.vin.map fun txin => slotWorth ctx s L txin.slot).sum := by
  unfold CTransaction.spentWorth CTransaction.spentSlots
  rw [hcb, if_neg Bool.false_ne_true, List.map_map]
  rfl

theorem getValueIn_spentWorth (hfetch : Fetched ctx s L inputs tx.vin) (hcb : tx.IsCoinBase = false)
    (h : GetValueIn inputs tx = .ok v) :
    v = wrap64 (tx.spentWorth ctx s L) := by
  unfold GetValueIn at h
  rw [hcb, if_neg Bool.false_ne_true] at h
  rw [spentWorth_eq hcb]
  refine foldlM_wrap64_eq (fun txin htxin n n' hstep => ?_) h
  obtain ⟨prevout, hout, hstep⟩ := bind_ok hstep
  cases hstep
  rw [getOutputFor_slotWorth hfetch htxin hout]

variable {acc' : ConnectAcc}

theorem connectInputs_amounts {mode : CheckMode} {queue : TestPool} {pindex : Option CBlockIndex}
    {flags : UInt32} {r : TestPool × List SigCheck} (hfetch : Fetched ctx s L inputs tx.vin)
    (hcb : tx.IsCoinBase = false)
    (h : ConnectInputs ctx env s tx inputs queue pos pindex mode flags = .ok r) :
    MoneyRange (tx.spentWorth ctx s L) ∧
      (tx.IsCoinStake = false → tx.valueOut ≤ tx.spentWorth ctx s L) := by
  unfold ConnectInputs at h
  rw [hcb, if_neg Bool.false_ne_true] at h
  obtain ⟨nValueIn, hval, h⟩ := bind_ok h
  obtain ⟨acc, -, h⟩ := bind_ok h
  obtain ⟨⟨⟩, hfees, -⟩ := bind_ok h
  have hsum : nValueIn = tx.spentWorth ctx s L ∧ MoneyRange nValueIn := by
    rw [spentWorth_eq hcb]
    refine foldlM_moneyRange_eq (fun txin htxin n n' hstep => ?_) hval
    obtain ⟨prevout, hout, hadd, hrng, hrng'⟩ := checkInput_eq_ok hstep
    rw [getOutputFor_slotWorth hfetch htxin hout]
    exact ⟨hadd, hrng, hrng'⟩
  rw [← hsum.1]
  exact ⟨hsum.2, fun hcs => checkFees_eq_ok hcs hfees⟩

/-- The loop over the transactions carries these sums. -/
structure SumsAre (acc : ConnectAcc) (sums : BlockSums) : Prop where
  valueIn : acc.nValueIn = wrap64 sums.valueIn
  valueOut : acc.nValueOut = wrap64 sums.valueOut
  fees : acc.nFees = wrap64 sums.fees

/-- What connecting a transaction has added to the sums, and what it has checked about them. -/
structure TxSummed (ctx : Context) (acc acc' : ConnectAcc) (L : Ledger UInt256 CDiskTxPos)
    (tx : CTransaction) : Prop where
  sums : ∀ sums, SumsAre acc sums → SumsAre acc' (sums.add (txLedgerSums ctx L tx))
  covered : 0 ≤ (txLedgerSums ctx L tx).fees
  reward : acc'.nStakeReward
    = if tx.IsCoinStake then tx.valueOut - tx.spentValue ctx L else acc.nStakeReward

/-- The same by the transactions that are fetched, wherever they are. -/
structure TxAdded (ctx : Context) (s : NodeState) (acc acc' : ConnectAcc)
    (L : Ledger UInt256 CDiskTxPos) (tx : CTransaction) : Prop where
  sums : ∀ sums, SumsAre acc sums → SumsAre acc' (sums.add (txWorth ctx s L tx))
  moneyIn : MoneyRange (tx.spentWorth ctx s L)
  moneyOut : MoneyRange tx.valueOut
  covered : 0 ≤ (txWorth ctx s L tx).fees
  reward : acc'.nStakeReward
    = if tx.IsCoinStake then tx.valueOut - tx.spentWorth ctx s L else acc.nStakeReward

theorem TxAdded.summed (h : TxAdded ctx s acc acc' L tx) (hdisk : OnDisk L) :
    TxSummed ctx acc acc' L tx := by
  have hworth : txWorth ctx s L tx = txLedgerSums ctx L tx := txWorth_eq_txLedgerSums hdisk tx
  refine ⟨fun sums hsums => ?_, ?_, ?_⟩
  · rw [← hworth]
    exact h.sums sums hsums
  · rw [← hworth]
    exact h.covered
  · rw [h.reward, show tx.spentWorth ctx s L = tx.spentValue ctx L from
      congrArg BlockSums.valueIn hworth]

theorem coinBase_worth (hcb : tx.IsCoinBase = true) :
    tx.spentWorth ctx s L = 0 ∧ tx.IsCoinStake = false ∧ tx.IsOrdinary = false := by
  refine ⟨?_, ?_, ?_⟩
  · unfold CTransaction.spentWorth CTransaction.spentSlots
    rw [hcb]
    rfl
  · by_contra hstake
    rw [Bool.not_eq_false] at hstake
    rw [CTransaction.not_isCoinBase_of_isCoinStake hstake] at hcb
    exact absurd hcb (by simp)
  · unfold CTransaction.IsOrdinary
    rw [hcb]
    rfl

theorem connectCoinBase_added (hcb : tx.IsCoinBase = true) (h : connectCoinBase acc tx = .ok acc') :
    TxAdded ctx s acc acc' L tx := by
  obtain ⟨nTxValueOut, hout, h⟩ := bind_ok h
  cases h
  obtain ⟨rfl, hrng⟩ := getValueOut_exact hout
  obtain ⟨hnone, hstake, hord⟩ := @coinBase_worth L tx s ctx hcb
  refine ⟨fun sums hsums => ⟨?_, ?_, ?_⟩, ?_, hrng, ?_, ?_⟩
  · simp only [BlockSums.add, txWorth, hnone, add_zero]
    exact hsums.valueIn
  · simp [BlockSums.add, txWorth, hsums.valueOut]
  · simp [BlockSums.add, txWorth, hord, hsums.fees]
  · rw [hnone]
    decide
  · simp [txWorth, hord]
  · simp [hstake]

theorem connectSpending_added {pindex : CBlockIndex} (hcb : tx.IsCoinBase = false)
    (h : connectSpending ctx env s pindex pos acc tx = .ok acc') :
    TxAdded ctx s acc acc' (pending s acc.mapQueuedChanges) tx := by
  obtain ⟨mapInputs, _, nTxValueIn, nTxValueOut, spent, hfetch, -, hin, hout, hspent, rfl⟩ :=
    connectSpending_eq_ok h
  have hfetched := fetchInputs_ofBlock CheckMode.block_ofBlock hcb hfetch
  obtain ⟨hrng, hcov⟩ := connectInputs_amounts hfetched hcb hspent
  obtain ⟨rfl, hrng'⟩ := getValueOut_exact hout
  have hval := getValueIn_spentWorth hfetched hcb hin
  rw [wrap64_of_moneyRange hrng] at hval
  subst hval
  have hord : tx.IsOrdinary = !tx.IsCoinStake := by
    unfold CTransaction.IsOrdinary
    rw [hcb, Bool.false_or]
  refine ⟨fun sums hsums => ⟨?_, ?_, ?_⟩, hrng, hrng', ?_, ?_⟩
  · simp [BlockSums.add, txWorth, hsums.valueIn]
  · simp [BlockSums.add, txWorth, hsums.valueOut]
  · rcases hcs : tx.IsCoinStake with _ | _ <;>
      simp [BlockSums.add, txWorth, hord, hcs, hsums.fees]
  · rcases hcs : tx.IsCoinStake with _ | _
    · simpa [txWorth, hord, hcs] using hcov hcs
    · simp [txWorth, hord, hcs]
  · rw [wrap64_sub_of_moneyRange hrng' hrng]

theorem connectTransaction_added {pindex : CBlockIndex} {fJustCheck : Bool}
    (h : connectTransaction ctx env s pindex fJustCheck acc tx = .ok acc') :
    TxAdded ctx s acc acc' (pending s acc.mapQueuedChanges) tx := by
  obtain ⟨counted, summed, hcnt, hsum, rfl⟩ := connectTransaction_cases h
  have hcounted : TxAdded ctx s counted summed (pending s acc.mapQueuedChanges) tx := by
    rcases hsum with ⟨hcb, hsum⟩ | ⟨hcb, hsum⟩
    · exact connectCoinBase_added hcb hsum
    · rw [show acc.mapQueuedChanges = counted.mapQueuedChanges from hcnt ▸ rfl]
      exact connectSpending_added hcb hsum
  subst hcnt
  refine ⟨fun sums h => ?_, hcounted.moneyIn, hcounted.moneyOut, hcounted.covered, hcounted.reward⟩
  obtain ⟨hin, hout, hfees⟩ := hcounted.sums sums ⟨h.valueIn, h.valueOut, h.fees⟩
  exact ⟨hin, hout, hfees⟩

end

/-! ## The loop over the transactions -/

theorem valueAt_eq {ctx : Context} (h : readTxAt ctx pos = some tx) (n : ℕ) :
    valueAt ctx pos n = ((tx.vout[n]?).map CTxOut.nValue).getD 0 := by
  unfold valueAt
  rw [h, Option.bind_some]

theorem sum_valueAt {ctx : Context} (h : readTxAt ctx pos = some tx) :
    ((List.range tx.vout.length).map (valueAt ctx pos)).sum = tx.valueOut := by
  refine congrArg List.sum (List.ext_getElem (by simp) fun n h₁ h₂ => ?_)
  rw [List.length_map] at h₂
  rw [List.getElem_map, List.getElem_range, List.getElem_map, valueAt_eq h,
    List.getElem?_eq_getElem h₂]
  rfl

theorem valueAt_nonneg {ctx : Context} (h : readTxAt ctx pos = some tx)
    (hvalues : ∀ txout ∈ tx.vout, 0 ≤ txout.nValue) (n : ℕ) : 0 ≤ valueAt ctx pos n := by
  rw [valueAt_eq h]
  rcases hout : tx.vout[n]? with _ | txout
  · simp
  · simpa using hvalues txout (List.mem_of_getElem? hout)

/-- What is known about the sums when the loop over the transactions has come this far. -/
structure SummedSo (ctx : Context) (s : NodeState) (pindex : CBlockIndex)
    (vtx done : List CTransaction) (acc : ConnectAcc) : Prop
    extends Progress ctx s pindex vtx done acc where
  disk : OnDisk (pending s acc.mapQueuedChanges)
  sums : SumsAre acc
    (ledgerSums ctx s.txdb.txIndex (placedAt pindex.nFile pindex.nBlockPos vtx done))
  covered : 0 ≤
    (ledgerSums ctx s.txdb.txIndex (placedAt pindex.nFile pindex.nBlockPos vtx done)).fees
  /-- What backs the ledger has changed by what is created less what is spent. -/
  backed : ∀ total, Ledger.BackedBy CDiskTxPos.null (valueAt ctx) s.txdb.txIndex total →
    Ledger.BackedBy CDiskTxPos.null (valueAt ctx) (pending s acc.mapQueuedChanges) (total
      - (ledgerSums ctx s.txdb.txIndex
          (placedAt pindex.nFile pindex.nBlockPos vtx done)).valueIn
      + (ledgerSums ctx s.txdb.txIndex
          (placedAt pindex.nFile pindex.nBlockPos vtx done)).valueOut)
  reward : ∀ before k after, done = before ++ k :: after → k.IsCoinStake = true →
    (∀ tx ∈ after, tx.IsCoinStake = false) →
    acc.nStakeReward = k.valueOut - k.spentValue ctx (ledgerAfter ctx s.txdb.txIndex
      (placedAt pindex.nFile pindex.nBlockPos vtx before))

variable {ctx : Context} {block : CBlock} {pindex : CBlockIndex}

theorem summedSo_start (hdisk : OnDisk s.txdb.txIndex) :
    SummedSo ctx s pindex block.vtx [] (ConnectAcc.start block pindex false) := by
  have hled : pending s (ConnectAcc.start block pindex false).mapQueuedChanges
      = s.txdb.txIndex := overlay_empty _
  refine ⟨progress_start, ?_, ⟨rfl, rfl, rfl⟩, le_rfl, fun total h => ?_, ?_⟩
  · rw [hled]
    exact hdisk
  · rw [hled]
    simpa [placedAt, ledgerSums] using h
  · intro before k after hdone
    simp at hdone

theorem Progress.placed {done rest : List CTransaction}
    (h : Progress ctx s pindex block.vtx done acc) (hvtx : block.vtx = done ++ tx :: rest)
    (hstor : ctx.files.block pindex.nFile pindex.nBlockPos = some block) :
    readTxAt ctx (CDiskTxPos.of pindex.nFile pindex.nBlockPos acc.nTxPos) = some tx ∧
      CDiskTxPos.of pindex.nFile pindex.nBlockPos acc.nTxPos ≠ CDiskTxPos.null ∧
      CDiskTxPos.of pindex.nFile pindex.nBlockPos acc.nTxPos ≠ CDiskTxPos.memoryPool := by
  refine wellPlaced_placedTransactions hstor
    (CDiskTxPos.of pindex.nFile pindex.nBlockPos acc.nTxPos, tx) ?_
  rw [h.position]
  unfold placedTransactions placedAt
  conv => arg 1; rw [hvtx]
  rw [List.mapIdx_append]
  simp [hvtx]

/-- The sums after one more transaction of the block. -/
theorem SummedSo.step {done rest : List CTransaction} {tx : CTransaction} {acc acc' : ConnectAcc}
    (h : SummedSo ctx s pindex block.vtx done acc) (hvtx : block.vtx = done ++ tx :: rest)
    (hstor : ctx.files.block pindex.nFile pindex.nBlockPos = some block)
    (hprevs : (tx.vin.map CTxIn.prevout).Nodup)
    (hvalues : ∀ txout ∈ tx.vout, 0 ≤ txout.nValue)
    (hstep : connectTransaction ctx env s pindex false acc tx = .ok acc') :
    SummedSo ctx s pindex block.vtx (done ++ [tx]) acc' := by
  have hsum := (connectTransaction_added hstep).summed h.disk
  obtain ⟨hled, hfree, -⟩ := connectTransaction_block hstep
  have haft : pending s acc.mapQueuedChanges = ledgerAfter ctx s.txdb.txIndex
      (placedAt pindex.nFile pindex.nBlockPos block.vtx done) := h.ledger
  have hplaced := h.toProgress.placed hvtx hstor
  have hsums := ledgerSums_concat ctx s.txdb.txIndex
    (placedAt pindex.nFile pindex.nBlockPos block.vtx done)
    (CDiskTxPos.of pindex.nFile pindex.nBlockPos acc.nTxPos, tx)
  rw [h.position, ← placedAt_concat, ← haft] at hsums
  refine ⟨h.toProgress.step hvtx hstep, ?_, ?_, ?_, ?_, ?_⟩
  · intro hash e he
    rw [hled] at he
    have hpos := Ledger.map_pos_connect CDiskTxPos.null (pending s acc.mapQueuedChanges)
      (tx.spend ctx (CDiskTxPos.of pindex.nFile pindex.nBlockPos acc.nTxPos)) hash
    rw [he, Option.map_some] at hpos
    split at hpos
    · rw [Option.some.inj hpos]
      exact hplaced.2.2
    · obtain ⟨e', he', heq⟩ := Option.map_eq_some_iff.mp hpos.symm
      rw [← heq]
      exact h.disk hash e' he'
  · rw [hsums]
    exact hsum.sums _ h.sums
  · rw [hsums]
    exact add_nonneg h.covered hsum.covered
  · intro total htotal
    have hconn := (h.backed total htotal).connect
      (t := tx.spend ctx (CDiskTxPos.of pindex.nFile pindex.nBlockPos acc.nTxPos))
      hplaced.2.1 hfree (nodup_spentSlots hprevs) (valueAt_nonneg hplaced.1 hvalues)
    have hin : ((tx.spend ctx (CDiskTxPos.of pindex.nFile pindex.nBlockPos acc.nTxPos)).inputs.map
        (Ledger.slotValue (valueAt ctx) (pending s acc.mapQueuedChanges))).sum
          = (txLedgerSums ctx (pending s acc.mapQueuedChanges) tx).valueIn := rfl
    have hout : ((List.range (tx.spend ctx (CDiskTxPos.of pindex.nFile pindex.nBlockPos
        acc.nTxPos)).width).map (valueAt ctx (CDiskTxPos.of pindex.nFile pindex.nBlockPos
          acc.nTxPos))).sum = (txLedgerSums ctx (pending s acc.mapQueuedChanges) tx).valueOut :=
      sum_valueAt hplaced.1
    rw [hled, hsums]
    convert hconn using 1
    rw [hin, show (tx.spend ctx (CDiskTxPos.of pindex.nFile pindex.nBlockPos acc.nTxPos)).pos
      = CDiskTxPos.of pindex.nFile pindex.nBlockPos acc.nTxPos from rfl, hout]
    simp only [BlockSums.add]
    omega
  · intro before k after hdone hk hafterwards
    rcases List.eq_nil_or_concat after with rfl | ⟨after, last, rfl⟩
    · obtain ⟨rfl, htx⟩ := List.append_inj' hdone rfl
      obtain rfl := List.singleton_inj.mp htx
      rw [hsum.reward, if_pos hk, haft]
    · rw [List.concat_eq_append, ← List.cons_append, ← List.append_assoc] at hdone
      obtain ⟨rfl, htx⟩ := List.append_inj' hdone rfl
      obtain rfl := List.singleton_inj.mp htx
      rw [hsum.reward, if_neg (by rw [hafterwards tx (by simp)]; simp)]
      exact h.reward before k after rfl hk fun t ht => hafterwards t (by simp [ht])

theorem connectTransactions_summed (h : connectTransactions ctx env s block pindex false = .ok acc)
    (hchks : ∀ tx ∈ block.vtx, (tx.vin.map CTxIn.prevout).Nodup ∧ ∀ txout ∈ tx.vout, 0 ≤ txout.nValue)
    (hstor : ctx.files.block pindex.nFile pindex.nBlockPos = some block)
    (hdisk : OnDisk s.txdb.txIndex) : SummedSo ctx s pindex block.vtx block.vtx acc := by
  refine foldlM_ok_induction (fun done acc => SummedSo ctx s pindex block.vtx done acc)
    (summedSo_start hdisk) ?_ h
  intro done tx rest c c' hvtx hc hstep
  obtain ⟨hprevs, hvalues⟩ := hchks tx (by simp [hvtx])
  exact hc.step hvtx hstor hprevs hvalues hstep

end ZalemCoin.Chain
