import ZalemCoin.Chain.ChainState
import ZalemCoin.Chain.ConnectSpec
import ZalemCoin.Chain.PlainContext

/-!
# The cap on the supply

A block creates at most the largest subsidy beyond its fees, unless it is proof-of-work and has a
coinstake, whose reward nothing checks. The cap on the supply is attached to the first height only,
so that it is never enforced once it matters: along a chain that is connected from its genesis block
the supply stays within one subsidy of the cap exactly as long as no block is built on a supply
that exceeds it.
-/

namespace ZalemCoin.Chain

open Lib

/-! ## What a block may create -/

variable {ctx : Context} {env : Env} {s : NodeState} {block : CBlock}

section

variable {pindex : CBlockIndex}

theorem wrap64_le {x : ℤ} (h : -2 ^ 63 ≤ x) : wrap64 x ≤ x := by
  unfold wrap64
  rw [Int.bmod_def]
  split <;> omega

theorem neg_le_wrap64 (x : ℤ) : -2 ^ 63 ≤ wrap64 x := by
  unfold wrap64
  rw [Int.bmod_def]
  split <;> omega

theorem blockReward_le {nHeight : ℕ} {nFees r : ℤ} (hfees : -2 ^ 63 ≤ nFees)
    (h : blockReward ctx s nHeight nFees = .ok r) : r ≤ nBlockRewardReserve + nFees := by
  obtain ⟨rand1, -, h⟩ := bind_ok h
  obtain ⟨best, -, h⟩ := bind_ok h
  dsimp only at h
  have hres : nBlockRewardReserve = 99000000000000 := by decide
  have hsubsidy : 0 ≤ (if rand1 ≤ 50000 then nBlockSuperReward else nBlockStandardReward) ∧
      (if rand1 ≤ 50000 then nBlockSuperReward else nBlockStandardReward)
        ≤ nBlockRewardReserve := by
    split <;> decide
  split at h
  · split at h <;> rw [← Except.ok.inj h]
    · exact wrap64_le (by omega)
    · exact le_trans (wrap64_le (by omega)) (by omega)
  · split at h <;> rw [← Except.ok.inj h]
    · omega
    · exact le_trans (wrap64_le (by omega)) (by omega)

variable {acc : ConnectAcc} {tx : CTransaction}

theorem checkReward_work (hwork : block.IsProofOfStake = false) (hfees : -2 ^ 63 ≤ acc.nFees)
    (h : checkReward ctx s block pindex acc = .ok ()) :
    ∃ coinbase rest, block.vtx = coinbase :: rest ∧
      coinbase.valueOut ≤ nBlockRewardReserve + acc.nFees := by
  unfold checkReward at h
  rw [hwork] at h
  rcases hvtx : block.vtx with _ | ⟨coinbase, rest⟩ <;> rw [hvtx] at h
  · simp at h
  · obtain ⟨nReward, hrew, h⟩ := bind_ok h
    obtain ⟨nValueOut, hout, h⟩ := bind_ok h
    rw [ensure_eq_ok, (getValueOut_exact hout).1] at h
    exact ⟨coinbase, rest, rfl, h.trans (blockReward_le hfees hrew)⟩

theorem checkReward_stake (hstake : block.IsProofOfStake = true) (hfees : -2 ^ 63 ≤ acc.nFees)
    (h : checkReward ctx s block pindex acc = .ok ()) :
    ∃ coinbase coinstake rest, block.vtx = coinbase :: coinstake :: rest ∧
      acc.nStakeReward ≤ nBlockRewardReserve + acc.nFees := by
  unfold checkReward at h
  rw [hstake] at h
  rcases hvtx : block.vtx with _ | ⟨coinbase, _ | ⟨coinstake, rest⟩⟩ <;> rw [hvtx] at h
  · simp at h
  · simp at h
  · obtain ⟨nCoinAge, -, h⟩ := bind_ok h
    rcases nCoinAge with _ | nCoinAge
    · simp at h
    · obtain ⟨pindexPrev, -, h⟩ := bind_ok h
      obtain ⟨nCalculated, hrew, h⟩ := bind_ok h
      rw [ensure_eq_ok] at h
      exact ⟨coinbase, coinstake, rest, rfl, h.trans (blockReward_le hfees hrew)⟩

theorem isOrdinary_eq_true (hcb : tx.IsCoinBase = false) (hcs : tx.IsCoinStake = false) :
    tx.IsOrdinary = true := by
  unfold CTransaction.IsOrdinary
  rw [hcb, hcs]
  rfl

theorem isOrdinary_of_isCoinBase (hcb : tx.IsCoinBase = true) : tx.IsOrdinary = false := by
  unfold CTransaction.IsOrdinary
  rw [hcb]
  rfl

variable {L : Ledger UInt256 CDiskTxPos} {coinbase : CTransaction} {rest : List CTransaction}
  {prevSupply : ℤ}

theorem spentValue_of_isCoinBase (hcb : tx.IsCoinBase = true) : tx.spentValue ctx L = 0 := by
  unfold CTransaction.spentValue CTransaction.spentSlots
  rw [hcb]
  rfl

theorem valueOut_of_empty (h : ∀ txout ∈ tx.vout, txout.IsEmpty = true) : tx.valueOut = 0 := by
  refine List.sum_eq_zero fun v hv => ?_
  obtain ⟨txout, htxout, rfl⟩ := List.mem_map.mp hv
  have hemp := h txout htxout
  unfold CTxOut.IsEmpty at hemp
  rw [Bool.and_eq_true, beq_iff_eq] at hemp
  exact hemp.1

theorem mint_work (hvtx : block.vtx = coinbase :: rest) (hshape : BlockShape block)
    (hnone : ∀ tx ∈ block.vtx, tx.IsCoinStake = false) :
    (ledgerSums ctx L (placedTransactions pindex.nFile pindex.nBlockPos block.vtx)).mint
      = coinbase.valueOut := by
  have hcb := hshape.coinbase coinbase (by simp [hvtx])
  have hsnd := map_snd_placedTransactions pindex.nFile pindex.nBlockPos block.vtx
  rcases hplaced : placedTransactions pindex.nFile pindex.nBlockPos block.vtx with _ | ⟨p, ps⟩ <;>
    rw [hplaced, hvtx] at hsnd
  · simp at hsnd
  · obtain ⟨rfl, rfl⟩ := List.cons.inj hsnd
    have hord : ∀ q ∈ ps, q.2.IsOrdinary = true := by
      intro q hq
      have hmem : q.2 ∈ block.vtx.tail := by
        rw [hvtx]
        exact List.mem_map_of_mem hq
      exact isOrdinary_eq_true (hshape.others _ hmem) (hnone _ (List.mem_of_mem_tail hmem))
    rw [ledgerSums, BlockSums.mint_add, ledgerSums_mint_of_ordinary hord,
      txLedgerSums_mint (isOrdinary_of_isCoinBase hcb), spentValue_of_isCoinBase hcb]
    omega

/-- A proof-of-stake block mints the reward of its stake. -/
theorem mint_stake {coinstake : CTransaction} (hvtx : block.vtx = coinbase :: coinstake :: rest)
    (hshape : BlockShape block) (hstake : block.IsProofOfStake = true)
    (hsum : SummedSo ctx s pindex block.vtx block.vtx acc) :
    (ledgerSums ctx s.txdb.txIndex
        (placedTransactions pindex.nFile pindex.nBlockPos block.vtx)).mint = acc.nStakeReward := by
  have hcb := hshape.coinbase coinbase (by simp [hvtx])
  have hcs : coinstake.IsCoinStake = true := by
    unfold CBlock.IsProofOfStake at hstake
    rwa [hvtx] at hstake
  have hlater : ∀ tx ∈ rest, tx.IsCoinStake = false := fun tx htx =>
    hshape.coinstake hstake tx (by simp [hvtx, htx])
  have hord : ∀ tx ∈ rest, tx.IsOrdinary = true := fun tx htx =>
    isOrdinary_eq_true (hshape.others tx (by simp [hvtx, htx])) (hlater tx htx)
  have hnothing : coinbase.valueOut = 0 :=
    valueOut_of_empty (hshape.empty hstake coinbase (by simp [hvtx])).2
  rw [hsum.reward [coinbase] coinstake rest hvtx hcs hlater]
  have hplaced : ∃ pos ps, placedTransactions pindex.nFile pindex.nBlockPos block.vtx
      = placedAt pindex.nFile pindex.nBlockPos block.vtx [coinbase] ++ (pos, coinstake) :: ps ∧
        ps.map Prod.snd = rest := by
    unfold placedTransactions placedAt
    rw [hvtx, List.mapIdx_cons, List.mapIdx_cons]
    refine ⟨_, _, rfl, ?_⟩
    refine List.ext_getElem (by simp) fun n h₁ h₂ => ?_
    simp
  obtain ⟨pos, ps, hplaced, hps⟩ := hplaced
  have hrest : ∀ q ∈ ps, q.2.IsOrdinary = true := fun q hq =>
    hord q.2 (by rw [← hps]; exact List.mem_map_of_mem hq)
  have hspender : coinstake.IsOrdinary = false := by
    unfold CTransaction.IsOrdinary
    rw [hcs, Bool.or_true]
    rfl
  rw [hplaced]
  change (ledgerSums ctx s.txdb.txIndex ((_, coinbase) :: (pos, coinstake) :: ps)).mint = _
  rw [ledgerSums, ledgerSums, BlockSums.mint_add, BlockSums.mint_add,
    ledgerSums_mint_of_ordinary hrest, txLedgerSums_mint (isOrdinary_of_isCoinBase hcb),
    txLedgerSums_mint hspender, spentValue_of_isCoinBase hcb, hnothing]
  rw [sub_zero, zero_add, add_zero]
  rfl

theorem BlockConnected.summed {p : UInt256} {s' s₁ : NodeState}
    (h : BlockConnected ctx env block p s s' s₁ pindex prevSupply acc)
    (hstor : ctx.files.block pindex.nFile pindex.nBlockPos = some block)
    (hdisk : OnDisk s.txdb.txIndex) : SummedSo ctx s₁ pindex block.vtx block.vtx acc := by
  obtain ⟨hchks, -⟩ := checkTransactions_eq_ok h.checked.transactions
  refine connectTransactions_summed h.transactions
    (fun tx htx => (checkTransaction_eq_ok (hchks tx htx)).2) hstor ?_
  rw [txdb_of_core h.core]
  exact hdisk

theorem BlockConnected.mint_le {p : UInt256} {s' s₁ : NodeState}
    (h : BlockConnected ctx env block p s s' s₁ pindex prevSupply acc)
    (hsum : SummedSo ctx s₁ pindex block.vtx block.vtx acc)
    (hnone : block.IsProofOfStake = false → ∀ tx ∈ block.vtx, tx.IsCoinStake = false) :
    (ledgerSums ctx s₁.txdb.txIndex
        (placedTransactions pindex.nFile pindex.nBlockPos block.vtx)).mint
      ≤ nBlockRewardReserve + (ledgerSums ctx s₁.txdb.txIndex
        (placedTransactions pindex.nFile pindex.nBlockPos block.vtx)).fees := by
  have hshape := checkForm_eq_ok h.checked.form
  have hacc := hsum.sums.fees
  have hcov := hsum.covered
  have hlow : -2 ^ 63 ≤ acc.nFees := by
    rw [hacc]
    exact neg_le_wrap64 _
  have hfees : acc.nFees ≤ (ledgerSums ctx s₁.txdb.txIndex
      (placedTransactions pindex.nFile pindex.nBlockPos block.vtx)).fees := by
    rw [hacc]
    exact wrap64_le (by omega)
  rcases hstake : block.IsProofOfStake with _ | _
  · obtain ⟨coinbase, rest, hvtx, hpays⟩ := checkReward_work hstake hlow h.reward
    rw [mint_work hvtx hshape (hnone hstake)]
    omega
  · obtain ⟨coinbase, coinstake, rest, hvtx, hpays⟩ := checkReward_stake hstake hlow h.reward
    rw [mint_stake hvtx hshape hstake hsum]
    omega

end

/-! ## Chains of connected blocks -/

/-- What connecting a block has recorded, with the supply before it and the fees that it
collected. -/
structure ConnectedBlock where
  supplyBefore : ℤ
  fees : ℤ
  nMint : ℤ
  nMoneySupply : ℤ

def collectedFees (ctx : Context) (s : NodeState) (pindex : CBlockIndex) (block : CBlock) : ℤ :=
  (ledgerSums ctx s.txdb.txIndex
    (placedTransactions pindex.nFile pindex.nBlockPos block.vtx)).fees

/-- A chain of blocks that has been connected from its genesis block: its state, its last block and
what connecting its blocks has recorded. Between two blocks the node may do anything else that
leaves the entry of the last block, up to its link, and the transaction index as they are. -/
inductive AcceptedChain (ctx : Context) (allowed : CBlockIndex → CBlock → Prop) :
    NodeState → UInt256 → List ConnectedBlock → Prop
  | genesis {s : NodeState} {g : UInt256} {i : CBlockIndex} (hentry : s.mapBlockIndex g = some i)
      (hroot : i.pprev = none) (hsupply : i.nMoneySupply = 0)
      (hempty : s.txdb.txIndex = fun _ => none) : AcceptedChain ctx allowed s g []
  | connect {env : Env} {block : CBlock} {log : List SigCheck} {s s' : NodeState}
      {tip p : UInt256} {done : List ConnectedBlock} {i j i' : CBlockIndex}
      (hchain : AcceptedChain ctx allowed s tip done) (hentry : s.mapBlockIndex p = some i)
      (hparent : i.pprev = some tip) (hprev : s.mapBlockIndex tip = some j)
      (hheight : i.nHeight = j.nHeight + 1)
      (hstored : ctx.files.block i.nFile i.nBlockPos = some block) (hallowed : allowed j block)
      (hconnect : ConnectBlock ctx env block p false s = (.ok log, s'))
      (hrecorded : s'.mapBlockIndex p = some i') :
      AcceptedChain ctx allowed s' p
        (done ++ [⟨j.nMoneySupply, collectedFees ctx s i block, i'.nMint, i'.nMoneySupply⟩])
  | elsewhere {s s' : NodeState} {tip : UInt256} {done : List ConnectedBlock}
      (hchain : AcceptedChain ctx allowed s tip done) (hsame : SameEntry s s' tip)
      (hledger : s'.txdb.txIndex = s.txdb.txIndex) : AcceptedChain ctx allowed s' tip done

/-- A block that respects the cap: it creates nothing beyond its fees when the supply before it
exceeds the cap, and the supply stays within one subsidy of the cap. -/
structure CapKept (b : ConnectedBlock) : Prop where
  mint : b.supplyBefore > MAX_SINGLE_TX → b.nMint ≤ b.fees
  supply : b.nMoneySupply ≤ MAX_SINGLE_TX + nBlockRewardReserve

def WithinCap (pindexPrev : CBlockIndex) (block : CBlock) : Prop :=
  pindexPrev.nMoneySupply ≤ MAX_SINGLE_TX ∧
    (block.IsProofOfStake = false → ∀ tx ∈ block.vtx, tx.IsCoinStake = false)

/-- The limits on what the next block may pay itself enforce the cap: when the supply exceeds it,
nothing but the fees may be paid. -/
def EnforcesCap (ctx : Context) (s : NodeState) (tip : CBlockIndex) : Prop :=
  tip.nMoneySupply > MAX_SINGLE_TX → ∀ nFees, MoneyRange nFees →
    (∀ r, GetProofOfWorkReward ctx s (tip.nHeight + 1) nFees = .ok r → r ≤ nFees) ∧
      ∀ nCoinAge r, GetProofOfStakeReward ctx s tip nCoinAge nFees = .ok r → r ≤ nFees

/-- What is known about the last block of a chain: its supply is backed by the unspent outputs and
within one subsidy of the cap. -/
structure Capped (s : NodeState) (ctx : Context) (i : CBlockIndex) : Prop where
  disk : OnDisk s.txdb.txIndex
  backed : Ledger.BackedBy CDiskTxPos.null (valueAt ctx) s.txdb.txIndex i.nMoneySupply
  supply : i.nMoneySupply ≤ MAX_SINGLE_TX + nBlockRewardReserve
  height : i.nMoneySupply > MAX_SINGLE_TX → 1 ≤ i.nHeight

section

variable {s' : NodeState} {log : List SigCheck} {tip p : UInt256} {i j i' : CBlockIndex}

theorem Capped.connect (h : Capped s ctx j) (hent : s.mapBlockIndex p = some i)
    (hpar : i.pprev = some tip) (hprev : s.mapBlockIndex tip = some j)
    (hheight : i.nHeight = j.nHeight + 1)
    (hstor : ctx.files.block i.nFile i.nBlockPos = some block) (hallow : WithinCap j block)
    (hconnect : ConnectBlock ctx env block p false s = (.ok log, s'))
    (hrec : s'.mapBlockIndex p = some i') :
    Capped s' ctx i' ∧
      CapKept ⟨j.nMoneySupply, collectedFees ctx s i block, i'.nMint, i'.nMoneySupply⟩ := by
  obtain ⟨s₁, k, prevSupply, acc, hconn, -⟩ := connectBlock_eq_ok hconnect
  obtain rfl := Option.mem_unique hent hconn.entry
  have htxdb := txdb_of_core hconn.core
  have hsum := hconn.summed hstor h.disk
  have hmint := hconn.mint_le hsum hallow.2
  have hled : s'.txdb.txIndex = pending s₁ acc.mapQueuedChanges := by
    rw [hconn.ledger, pending, pending, htxdb]
  have hbacked := hsum.backed j.nMoneySupply (by rw [htxdb]; exact h.backed)
  have hcov := hsum.covered
  have hsums := hsum.sums
  change _ ≤ _ + (ledgerSums ctx s₁.txdb.txIndex (placedAt _ _ block.vtx block.vtx)).fees at hmint
  change (ledgerSums ctx s₁.txdb.txIndex (placedAt _ _ block.vtx block.vtx)).mint ≤ _ at hmint
  generalize ledgerSums ctx s₁.txdb.txIndex
    (placedAt i.nFile i.nBlockPos block.vtx block.vtx) = sums at hmint hbacked hcov hsums
  have hsup : prevSupply = j.nMoneySupply := by
    have hread := hconn.supply
    unfold prevMoneySupply at hread
    rw [hpar] at hread
    obtain ⟨j', hj', hread⟩ := bind_ok hread
    rw [index_eq_ok, mapBlockIndex_of_core hconn.core] at hj'
    obtain rfl := Option.mem_unique hprev hj'
    exact (Except.ok.inj hread).symm
  -- The supply does not overflow: it is backed, and grows by one subsidy at most.
  have hres : nBlockRewardReserve = 99000000000000 := by decide
  have hmax := max_single_tx_eq
  have hnn := hbacked.nonneg
  have hwithin := hallow.1
  unfold BlockSums.mint at hmint
  have hnew : i'.nMoneySupply = j.nMoneySupply - sums.valueIn + sums.valueOut := by
    rw [hconn.recorded, Function.update_self] at hrec
    rw [← Option.some.inj hrec]
    change wrap64 (prevSupply + acc.nValueOut - acc.nValueIn) = _
    rw [hsup, hsums.valueOut, hsums.valueIn, wrap64_supply, add_sub_right_comm,
      wrap64_eq_self_iff]
    unfold Fits64
    omega
  have hheight' : i'.nHeight = i.nHeight := by
    rw [hconn.recorded, Function.update_self] at hrec
    rw [← Option.some.inj hrec]
    rfl
  refine ⟨⟨?_, ?_, ?_, ?_⟩, ⟨?_, ?_⟩⟩
  · rw [hled]
    exact hsum.disk
  · rw [hled, hnew]
    exact hbacked
  · omega
  · omega
  · intro hover
    exact absurd hwithin (by dsimp only at hover; omega)
  · dsimp only
    omega

/-- A chain of blocks within the cap keeps it throughout. -/
theorem AcceptedChain.capped {done : List ConnectedBlock}
    (h : AcceptedChain ctx WithinCap s tip done) :
    (∃ i, s.mapBlockIndex tip = some i ∧ Capped s ctx i) ∧ ∀ b ∈ done, CapKept b := by
  induction h with
  | @genesis s g i hent hroot hsup hemp =>
    refine ⟨⟨i, hent, ?_, ?_, ?_, ?_⟩, by simp⟩
    · intro h e he
      rw [hemp] at he
      simp at he
    · rw [hemp, hsup]
      exact Ledger.backedBy_empty
    · rw [hsup]
      decide
    · rw [hsup]
      intro hover
      exact absurd hover (by decide)
  | connect hchain hent hpar hprev hheight hstor hallow hconn hrec ih =>
    obtain ⟨⟨j', hj', hcapped⟩, hdone⟩ := ih
    obtain rfl := Option.mem_unique hprev hj'
    obtain ⟨hnext, hkept⟩ := hcapped.connect hent hpar hprev hheight hstor hallow
      hconn hrec
    refine ⟨⟨_, hrec, hnext⟩, fun b hb => ?_⟩
    rcases List.mem_append.mp hb with hb | hb
    · exact hdone b hb
    · rw [List.mem_singleton.mp hb]
      exact hkept
  | elsewhere hchain hsame hled ih =>
    obtain ⟨⟨i, hi, hcapped⟩, hdone⟩ := ih
    obtain ⟨i', hi', hlink⟩ := hsame.exists_eq hi
    have hsup : i'.nMoneySupply = i.nMoneySupply := (congrArg CBlockIndex.nMoneySupply hlink :)
    have hheight : i'.nHeight = i.nHeight := (congrArg CBlockIndex.nHeight hlink :)
    refine ⟨⟨i', hi', ?_, ?_, ?_, ?_⟩, hdone⟩
    · rw [hled]
      exact hcapped.disk
    · rw [hled, hsup]
      exact hcapped.backed
    · rw [hsup]
      exact hcapped.supply
    · rw [hsup, hheight]
      exact hcapped.height

theorem lt_blockReward {best : CBlockIndex} {nHeight : ℕ} (hbest : s.index s.pindexBest = .ok best)
    (hheight : 1 < nHeight) : ∃ r, blockReward ctx s nHeight 0 = .ok r ∧ 0 < r := by
  unfold blockReward randreward
  rw [hbest]
  change ∃ r, (if nHeight > nReservePhaseStart then _ else _ : Except Failure ℤ) = .ok r ∧ 0 < r
  rw [if_pos (show nHeight > nReservePhaseStart from hheight)]
  by_cases hres : best.nMoneySupply < nBlockRewardReserve * 100
  · rw [if_pos hres]
    exact ⟨_, rfl, by decide⟩
  · rw [if_neg hres]
    refine ⟨_, rfl, ?_⟩
    split <;> decide

/-- Along a chain whose blocks are all built within the cap the cap is kept. On top of its last
block the limits enforce the cap exactly as long as the supply does not exceed it. -/
theorem acceptedChain_capKept {done : List ConnectedBlock}
    (h : AcceptedChain ctx WithinCap s tip done) :
    (∀ b ∈ done, CapKept b) ∧ ∀ i, s.mapBlockIndex tip = some i → s.pindexBest = some tip →
      (EnforcesCap ctx s i ↔ i.nMoneySupply ≤ MAX_SINGLE_TX) := by
  obtain ⟨⟨i', hi', hcapped⟩, hdone⟩ := h.capped
  refine ⟨hdone, fun i hi hbest => ?_⟩
  obtain rfl := Option.some.inj (hi.symm.trans hi')
  constructor
  · intro henforces
    by_contra hover
    have hover' : i.nMoneySupply > MAX_SINGLE_TX := by omega
    have hheight := hcapped.height hover'
    have hindex : s.index s.pindexBest = .ok i := by
      rw [hbest]
      exact index_eq_ok.mpr hi
    obtain ⟨r, hr, hpos⟩ := @lt_blockReward ctx s i (i.nHeight + 1) hindex (by omega)
    have hle := (henforces hover' 0 (by decide)).1 r hr
    omega
  · intro hwithin hover
    exact absurd hwithin (by omega)

end

/-! ## A chain that breaks the cap -/

/-- Blocks on top of one another: each pays itself one coin, and the block number 25 has a
coinstake behind a transaction that spends the coinbase of the second block. -/
def mintingBlock (id : UInt32) : CBlock :=
  if id = 25 then
    plainBlock 25 24 1005 [plainTx 250 [coinbaseInput] [payTo COIN],
      plainTx 251 [inputOf 20 0] [payTo COIN],
      plainTx 252 [inputOf 251 0] [⟨0, []⟩, payTo MAX_SINGLE_TX]]
  else if id = 26 then coinbaseBlock 26 (99 * COIN)
  else coinbaseBlock id COIN

theorem getSerializeSize_coinbaseBlock (id : UInt32) (nValue : ℤ) :
    (coinbaseBlock id nValue).GetSerializeSize = 149 := rfl

theorem getSerializeSize_mintingBlock (id : UInt32) :
    (mintingBlock id).GetSerializeSize < 2 ^ 31 := by
  unfold mintingBlock
  split
  · decide
  · split <;> rw [getSerializeSize_coinbaseBlock] <;> decide

def mintingContext : Context :=
  plainContext (BlockFiles.ofBlocks
    (fun nFile => if 1 ≤ nFile ∧ nFile ≤ 26 then some (mintingBlock nFile) else none)
    (by
      intro nFile block h
      split at h
      · cases h
        exact getSerializeSize_mintingBlock nFile
      · simp at h)) 1 true

def mintingNode : ℕ → NodeState
  | 0 =>
    { emptyNode with
      mapBlockIndex := fun h =>
        if 1 ≤ h ∧ h ≤ 26 then
          some (plainIndex (UInt32.ofNat h.toNat) (h.toNat - 1) (if h = 1 then none else some (h - 1))
            (mintingBlock (UInt32.ofNat h.toNat)))
        else none
      pindexGenesisBlock := some 1
      pindexBest := some 1
      hashBestChain := 1
      nBestHeight := 0
      txdb := ⟨fun _ => none, some []⟩ }
  | n + 1 =>
    { (ConnectBlock mintingContext (plainEnv 1000) (mintingBlock (UInt32.ofNat (n + 2)))
        (BitVec.ofNat 256 (n + 2)) false (mintingNode n)).2 with
      pindexBest := some (BitVec.ofNat 256 (n + 2)) }

abbrev mintingTip (n : ℕ) : UInt256 := BitVec.ofNat 256 (n + 1)

theorem mintingNode_connects : ∀ n < 25,
    (ConnectBlock mintingContext (plainEnv 1000) (mintingBlock (UInt32.ofNat (n + 2)))
        (mintingTip (n + 1)) false (mintingNode n)).1.isOk = true ∧
      ((mintingNode n).mapBlockIndex (mintingTip (n + 1))).bind CBlockIndex.pprev
        = some (mintingTip n) ∧
      ((mintingNode n).mapBlockIndex (mintingTip (n + 1))).map CBlockIndex.nHeight
        = ((mintingNode n).mapBlockIndex (mintingTip n)).map (CBlockIndex.nHeight · + 1) ∧
      ((mintingNode n).mapBlockIndex (mintingTip (n + 1))).map
          (fun i => mintingContext.files.block i.nFile i.nBlockPos)
        = some (some (mintingBlock (UInt32.ofNat (n + 2)))) := by
  decide +kernel

variable {n : ℕ}

theorem mintingNode_step {allowed : CBlockIndex → CBlock → Prop} {done : List ConnectedBlock}
    (hn : n < 25)
    (hchain : AcceptedChain mintingContext allowed (mintingNode n) (mintingTip n) done)
    (hallow : ∀ j, (mintingNode n).mapBlockIndex (mintingTip n) = some j →
      allowed j (mintingBlock (UInt32.ofNat (n + 2)))) :
    ∃ i j i', (mintingNode n).mapBlockIndex (mintingTip (n + 1)) = some i ∧
      (mintingNode n).mapBlockIndex (mintingTip n) = some j ∧
      (mintingNode (n + 1)).mapBlockIndex (mintingTip (n + 1)) = some i' ∧
      AcceptedChain mintingContext allowed (mintingNode (n + 1)) (mintingTip (n + 1))
        (done ++ [⟨j.nMoneySupply, collectedFees mintingContext (mintingNode n) i
          (mintingBlock (UInt32.ofNat (n + 2))), i'.nMint, i'.nMoneySupply⟩]) := by
  obtain ⟨hok, hpar, hheight, hstor⟩ := mintingNode_connects n hn
  obtain ⟨i, hi, hpar⟩ := Option.bind_eq_some_iff.mp hpar
  rw [hi, Option.map_some] at hheight
  obtain ⟨j, hj, hheight⟩ := Option.map_eq_some_iff.mp hheight.symm
  rw [hi, Option.map_some] at hstor
  rcases hrun : ConnectBlock mintingContext (plainEnv 1000) (mintingBlock (UInt32.ofNat (n + 2)))
    (mintingTip (n + 1)) false (mintingNode n) with ⟨e | log, s'⟩
  · rw [hrun] at hok
    simp [Except.isOk, Except.toBool] at hok
  · have hnext : (mintingNode (n + 1)).mapBlockIndex = s'.mapBlockIndex :=
      (congrArg (fun r => r.2.mapBlockIndex) hrun :)
    have hled : (mintingNode (n + 1)).txdb = s'.txdb := (congrArg (fun r => r.2.txdb) hrun :)
    obtain ⟨s₁, k, prevSupply, acc, hconn, -⟩ := connectBlock_eq_ok hrun
    have hrec : s'.mapBlockIndex (mintingTip (n + 1))
        = some (withSupply k prevSupply acc) := by
      rw [hconn.recorded, Function.update_self]
    refine ⟨i, j, _, hi, hj, by rw [hnext]; exact hrec, ?_⟩
    refine AcceptedChain.elsewhere (AcceptedChain.connect hchain hi hpar hj hheight.symm
      (Option.some.inj hstor) (hallow j hj) hrun hrec) ?_ ?_
    · unfold SameEntry
      rw [hnext]
    · rw [hled]

theorem mintingNode_genesis (allowed : CBlockIndex → CBlock → Prop) :
    AcceptedChain mintingContext allowed (mintingNode 0) (mintingTip 0) [] := by
  refine AcceptedChain.genesis (i := plainIndex 1 0 none (mintingBlock 1)) ?_ rfl rfl ?_
  · rfl
  · funext h
    rfl

theorem mintingNode_accepted (allowed : CBlockIndex → CBlock → Prop) (hn : n ≤ 25)
    (hallow : ∀ m < n, ∀ j, (mintingNode m).mapBlockIndex (mintingTip m) = some j →
      allowed j (mintingBlock (UInt32.ofNat (m + 2)))) : ∃ done, done.length = n ∧
    AcceptedChain mintingContext allowed (mintingNode n) (mintingTip n) done := by
  induction n with
  | zero => exact ⟨[], rfl, mintingNode_genesis _⟩
  | succ n ih =>
    obtain ⟨done, hlen, hchain⟩ := ih (by omega) fun m hm => hallow m (by omega)
    obtain ⟨i, j, i', -, -, -, hnext⟩ := mintingNode_step (by omega) hchain (hallow n (by omega))
    exact ⟨_, by simp [hlen], hnext⟩

/-- The cap is kept by the first 23 blocks of the chain, before the one with the coinstake. -/
theorem mintingNode_capKept : ∃ done, done.length = 23 ∧
    AcceptedChain mintingContext WithinCap (mintingNode 23) (mintingTip 23) done ∧
      ∀ b ∈ done, CapKept b := by
  have hwithin : ∀ m < 23, ∀ j ∈ (mintingNode m).mapBlockIndex (mintingTip m),
      j.nMoneySupply ≤ MAX_SINGLE_TX ∧
        ∀ tx ∈ (mintingBlock (UInt32.ofNat (m + 2))).vtx, tx.IsCoinStake = false := by
    decide +kernel
  obtain ⟨done, hlen, hchain⟩ := mintingNode_accepted WithinCap (n := 23) (by decide)
    fun m hm j hj => (hwithin m hm j hj).imp_right fun hnone _ => hnone
  exact ⟨done, hlen, hchain, (acceptedChain_capKept hchain).1⟩

/-- The last block of the chain is built on a supply beyond the cap, and creates 99 coins without
collecting any fees. -/
theorem mintingNode_breaks_cap : ∃ done b,
    AcceptedChain mintingContext (fun _ _ => True) (mintingNode 25) (mintingTip 25) done ∧
      b ∈ done ∧ b.supplyBefore = 300000023 * COIN ∧ b.nMint = 99 * COIN ∧ b.fees = 0 ∧
      ¬CapKept b := by
  obtain ⟨done, -, hchain⟩ := mintingNode_accepted (fun _ _ => True) (n := 24) (by decide)
    fun _ _ _ _ => trivial
  obtain ⟨i, j, i', hi, hj, hi', hnext⟩ :=
    mintingNode_step (by decide) hchain fun _ _ => trivial
  have hsupply : j.nMoneySupply = 300000023 * COIN := by
    have hmap : ((mintingNode 24).mapBlockIndex (mintingTip 24)).map CBlockIndex.nMoneySupply
        = some (300000023 * COIN) := by decide +kernel
    rw [hj] at hmap
    exact Option.some.inj hmap
  have hmint : i'.nMint = 99 * COIN := by
    have hmap : ((mintingNode (24 + 1)).mapBlockIndex (mintingTip (24 + 1))).map CBlockIndex.nMint
        = some (99 * COIN) := by decide +kernel
    rw [hi'] at hmap
    exact Option.some.inj hmap
  have hfees : collectedFees mintingContext (mintingNode 24) i
      (mintingBlock (UInt32.ofNat (24 + 2))) = 0 := by
    have hmap : ((mintingNode 24).mapBlockIndex (mintingTip (24 + 1))).map
        (fun i => collectedFees mintingContext (mintingNode 24) i
          (mintingBlock (UInt32.ofNat (24 + 2)))) = some 0 := by decide +kernel
    rw [hi] at hmap
    exact Option.some.inj hmap
  refine ⟨_, _, hnext, List.mem_append_right _ List.mem_cons_self, hsupply, hmint, hfees, ?_⟩
  intro hkept
  have hle := hkept.mint (by dsimp only; rw [hsupply]; decide)
  dsimp only at hle
  rw [hmint, hfees] at hle
  exact absurd hle (by decide)

end ZalemCoin.Chain
