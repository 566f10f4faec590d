import ZalemCoin.Chain.MissingInputs
import ZalemCoin.Chain.PoolLedger
import ZalemCoin.Mining.SignBlock
import ZalemCoin.Mining.WaitingCandidates

/-!
# The assembly of templates

A template has each transaction once and after those of the pool that it spends from, none of its
transactions spends what another one does, and its fees are theirs. All of this comes from the test
pool: a selected transaction is in it, and what it spends is marked there.
-/

namespace ZalemCoin.Mining

open Lib Chain Script

variable (ctx : Context)

/-- What the node keeps: the pool has its transactions under their identifiers, and the index has none
of them. -/
structure PoolConsistent (s : NodeState) : Prop where
  keyed : PoolKeyed ctx s
  apart : ∀ hash tx, s.mempool.mapTx.lookup hash = some tx → s.txdb.txIndex hash = none

/-- A transaction by its identifier: the one in the pool, or else the one on the disk. -/
def sourceTx (s : NodeState) (hash : UInt256) : Option CTransaction :=
  match s.mempool.mapTx.lookup hash with
  | some tx => some tx
  | none => (s.txdb.txIndex hash).bind fun txindex => readTxAt ctx txindex.pos

/-- The value of the inputs of a transaction minus that of its outputs. -/
def txFee (s : NodeState) (tx : CTransaction) : ℤ :=
  (tx.vin.map fun txin =>
    outputWorth (sourceTx ctx s txin.prevout.hash) txin.prevout.n.toNat).sum - tx.valueOut

/-- The fees of the transactions that the next block may have fit into 64 bits. -/
def FeesFit (env : Env) (s : NodeState) : Prop :=
  ∀ pindexPrev, s.index s.pindexBest = .ok pindexPrev →
    ((eligibleTxs env s (pindexPrev.nHeight + 1)).map fun tx => max 0 (txFee ctx s tx)).sum < 2 ^ 63

structure Assembled (env : Env) (s : NodeState) (sel : List CTransaction)
    (nFees : ℤ) : Prop where
  once : (sel.map ctx.hashTx).Nodup
  /-- It is listed after the selected transactions and those of the pool that it spends from. -/
  order : ∀ before tx after, sel = before ++ tx :: after → ∀ txin ∈ tx.vin, ∀ txPrev,
    txPrev ∈ sel ∨ txPrev ∈ poolTxs s → ctx.hashTx txPrev = txin.prevout.hash → txPrev ∈ before
  /-- No two of them spend the same outpoint. -/
  outpoints : sel.Pairwise fun tx u => ∀ o ∈ tx.prevouts, o ∉ u.prevouts
  /-- The fees are theirs, in the arithmetic of 64 bits, -/
  fees : nFees = wrap64 (sel.map (txFee ctx s)).sum
  /-- and without it when those of all candidates fit. -/
  fees_exact : FeesFit ctx env s → nFees = (sel.map (txFee ctx s)).sum

variable {env : Env} {s : NodeState} {tx : CTransaction} {sel : List CTransaction}

section

variable {ctx : Context}

theorem PoolKeyed.nodup (h : PoolKeyed ctx s) : ((poolTxs s).map ctx.hashTx).Nodup := by
  have hkeys : (poolTxs s).map ctx.hashTx
      = (s.mempool.mapTx.entries.insertionSort fun a b => a.1 ≤ b.1).map Sigma.fst := by
    unfold poolTxs
    rw [List.map_map]
    refine List.map_congr_left fun entry hent => ?_
    have hmem := (List.perm_insertionSort _ _).mem_iff.mp hent
    exact h entry.1 entry.2 (AList.mem_lookup_iff.mpr hmem)
  rw [hkeys, ((List.perm_insertionSort _ _).map Sigma.fst).nodup_iff]
  exact s.mempool.mapTx.nodupKeys

theorem eligibleTxs_subperm {nHeight : ℕ} : (eligibleTxs env s nHeight).Subperm (poolTxs s) :=
  List.filter_sublist.subperm

theorem PoolKeyed.nodup_map (h : PoolKeyed ctx s) (hsel : sel.Subperm (poolTxs s)) :
    (sel.map ctx.hashTx).Nodup := by
  obtain ⟨l, hperm, hsub⟩ := hsel
  rw [← (hperm.map _).nodup_iff]
  exact h.nodup.sublist (hsub.map _)

/-! ## Order and fees -/

theorem Covered.mem_before (h : Covered ctx s sel tx) (hpool : PoolConsistent ctx s)
    (hsel : sel.Subperm (poolTxs s)) {txin : CTxIn} (htxin : txin ∈ tx.vin) {txPrev : CTransaction}
    (hlook : s.mempool.mapTx.lookup txin.prevout.hash = some txPrev) : txPrev ∈ sel := by
  obtain ⟨p, hp, -⟩ := h.spends txin htxin
  unfold templatePrev at hp
  split_ifs at hp with hmem
  · obtain ⟨u, hu, hash⟩ := List.mem_map.mp hmem
    have hfound := hpool.keyed.lookup (hsel.subset hu)
    rw [hash, hlook] at hfound
    rwa [Option.some.inj hfound]
  · -- A transaction of the pool is not on the disk.
    rw [hpool.apart _ _ hlook] at hp
    simp at hp

theorem Covered.feeAfter_eq (h : Covered ctx s sel tx) (hpool : PoolConsistent ctx s) :
    feeAfter ctx s sel tx = txFee ctx s tx := by
  unfold feeAfter txFee
  congr 2
  refine List.map_congr_left fun txin htxin => ?_
  obtain ⟨p, hp, -⟩ := h.spends txin htxin
  have hsource : sourceTx ctx s txin.prevout.hash = some p := by
    unfold sourceTx
    unfold templatePrev at hp
    split_ifs at hp with hmem
    · rw [hp]
    · rcases hlook : s.mempool.mapTx.lookup txin.prevout.hash with _ | u
      · exact hp
      · rw [hpool.apart _ _ hlook] at hp
        simp at hp
  rw [hp, hsource]

theorem feesOf_eq_sum {before : List CTransaction}
    (h : ∀ done tx rest, sel = done ++ tx :: rest →
      feeAfter ctx s (before ++ done) tx = txFee ctx s tx) :
    feesOf ctx s (fun _ => true) before sel = (sel.map (txFee ctx s)).sum := by
  induction sel generalizing before with
  | nil => rfl
  | cons tx sel ih =>
    have hfst := h [] tx sel rfl
    rw [List.append_nil] at hfst
    have hrest := @ih (before ++ [tx]) fun done u rest heq => by
      rw [List.append_assoc]
      exact h (tx :: done) u rest (by rw [heq]; rfl)
    rw [feesOf, if_pos rfl, hfst, hrest, List.map_cons, List.sum_cons]

theorem wrap64_fees {l : List CTransaction} (hsel : sel.Subperm l)
    (hnn : ∀ tx ∈ sel, 0 ≤ txFee ctx s tx)
    (hfit : (l.map fun tx => max 0 (txFee ctx s tx)).sum < 2 ^ 63) :
    wrap64 (sel.map (txFee ctx s)).sum = (sel.map (txFee ctx s)).sum := by
  have hle : (sel.map (txFee ctx s)).sum ≤ (l.map fun tx => max 0 (txFee ctx s tx)).sum := by
    obtain ⟨k, hperm, hsub⟩ := hsel
    calc (sel.map (txFee ctx s)).sum
        ≤ (sel.map fun tx => max 0 (txFee ctx s tx)).sum :=
          List.sum_le_sum fun tx _ => le_max_right _ _
      _ = (k.map fun tx => max 0 (txFee ctx s tx)).sum := (hperm.map _).sum_eq.symm
      _ ≤ (l.map fun tx => max 0 (txFee ctx s tx)).sum := by
          refine (hsub.map _).sum_le_sum fun x hx => ?_
          obtain ⟨tx, -, rfl⟩ := List.mem_map.mp hx
          exact le_max_left _ _
  have hsum : 0 ≤ (sel.map (txFee ctx s)).sum := by
    refine List.sum_nonneg fun x hx => ?_
    obtain ⟨tx, htx, rfl⟩ := List.mem_map.mp hx
    exact hnn tx htx
  exact wrap64_eq_self_iff.mpr ⟨by omega, by omega⟩

end

/-! ## Outpoints -/

/-- What the selected transactions spend is not unspent any more, and no two of them spend the same. -/
structure SpentOnce (s : NodeState) (a : Assembly) (sel : List CTransaction) : Prop where
  marked : ∀ tx ∈ sel, ∀ k ∈ tx.spentSlots,
    Ledger.slot (pending s a.mapTestPool) k ≠ some CDiskTxPos.null
  disjoint : sel.Pairwise fun tx u => ∀ k ∈ tx.spentSlots, k ∉ u.spentSlots

section

variable {ctx : Context} {args : MinerArgs} {a a' : Assembly}

theorem exists_of_mem_spentSlots {k : UInt256 × ℕ} (hk : k ∈ tx.spentSlots) :
    ∃ txin ∈ tx.vin, txin.prevout.hash = k.1 := by
  unfold CTransaction.spentSlots at hk
  split_ifs at hk
  · simp at hk
  · obtain ⟨txin, htxin, rfl⟩ := List.mem_map.mp hk
    exact ⟨txin, htxin, rfl⟩

theorem FeesSo.ne_last {coinbase : CTransaction} (h : FeesSo ctx s coinbase a (sel ++ [tx]))
    (hpool : PoolConsistent ctx s) (hsel : (sel ++ [tx]).Subperm (poolTxs s)) {u : CTransaction}
    (hu : u ∈ sel ++ [tx]) {k : UInt256 × ℕ} (hk : k ∈ u.spentSlots) : k.1 ≠ ctx.hashTx tx := by
  intro heq
  obtain ⟨before, after, hsplit⟩ := List.append_of_mem hu
  obtain ⟨txin, htxin, hash⟩ := exists_of_mem_spentSlots hk
  have hlast := hpool.keyed.lookup (hsel.subset List.mem_concat_self)
  rw [← heq, ← hash] at hlast
  have hbef : before.Subperm (poolTxs s) := by
    rw [hsplit] at hsel
    exact (List.sublist_append_left _ _).subperm.trans hsel
  have hmem := (h.covered before u after hsplit).mem_before hpool hbef htxin hlast
  -- The last transaction would be one of those before it.
  have hdrop : before ++ (u :: after).dropLast = sel := by
    have hdrop := congrArg List.dropLast hsplit
    rw [List.dropLast_concat, List.dropLast_append_of_ne_nil (List.cons_ne_nil _ _)] at hdrop
    exact hdrop.symm
  have hnd : (sel ++ [tx]).Nodup := List.Nodup.of_map _ (hpool.keyed.nodup_map hsel)
  have hsub : tx ∈ sel := by
    rw [← hdrop]
    exact List.mem_append_left _ hmem
  exact (List.nodup_append.mp hnd).2.2 tx hsub tx (List.mem_singleton_self tx) rfl

/-- Considering a candidate spends no output twice. -/
theorem SpentOnce.considerTx {coinbase : CTransaction} {pindexPrev : CBlockIndex}
    {fProofOfStake : Bool} {nTimeCoinbase : UInt32} {mapDependers : UInt256 → List ℕ}
    {candidate : TxPriority} {rest : List TxPriority} (h : SpentOnce s a sel)
    (hfees : FeesSo ctx s coinbase a sel) (hdisk : OnDisk s.txdb.txIndex)
    (hpool : PoolConsistent ctx s) (hsel : (sel ++ [candidate.tx]).Subperm (poolTxs s))
    (hcb : candidate.tx.IsCoinBase = false) (hcs : candidate.tx.IsCoinStake = false)
    (hstep : considerTx ctx env args s pindexPrev fProofOfStake nTimeCoinbase mapDependers
      { a with vecPriority := rest } candidate = .ok a') :
    ∃ sel', FeesSo ctx s coinbase a' sel' ∧ SpentOnce s a' sel' := by
  obtain ⟨sel', hfees'⟩ := hfees.considerTx hdisk hcb hcs hstep
  rcases considerTx_eq_ok hstep with
    ⟨hvtx, hsame, -⟩ | ⟨b, nTxSigOps, nTxFees, hb, hadded, hvtx, -⟩
  · obtain rfl : sel' = sel := by
      have hlist := hfees'.vtx.symm.trans (hvtx.trans hfees.vtx)
      exact (List.cons.inj hlist).2
    refine ⟨sel', hfees', ?_, h.disjoint⟩
    rw [hsame]
    exact h.marked
  obtain rfl : sel' = sel ++ [candidate.tx] := by
    have hlist := hfees'.vtx.symm.trans hvtx
    rw [hfees.vtx, List.cons_append] at hlist
    exact (List.cons.inj hlist).2
  have hbef := hfees.ledger
  rw [← hb] at hbef
  obtain ⟨-, -, -, hfree, hslot⟩ := connectCandidate_eq_ok hbef hdisk hcb hcs hadded
  rw [hb] at hfree hslot
  refine ⟨_, hfees', ?_, ?_⟩
  · intro u hu k hk
    rw [hslot k (hfees'.ne_last hpool hsel hu hk)]
    split_ifs with hspent
    · -- The slot was unspent, and now the pool has its spender.
      rw [hfree k hspent, Option.map_some]
      decide
    · rcases List.mem_append.mp hu with hu | hu
      · exact h.marked u hu k hk
      · rw [List.mem_singleton.mp hu] at hk
        exact absurd hk hspent
  · refine List.pairwise_append.mpr ⟨h.disjoint, List.pairwise_singleton _ _, ?_⟩
    intro u hu v hv k hk hkv
    rw [List.mem_singleton.mp hv] at hkv
    exact h.marked u hu k hk (hfree k hkv)

end

/-! ## Templates -/

theorem rewardedVtx_eq_ok {ctx : Context} {nHeight : ℕ} {fProofOfStake : Bool} {filled : Assembly}
    {coinbase : CTransaction} {vtx : List CTransaction} (hfilled : filled.vtx = coinbase :: sel)
    (h : rewardedVtx ctx s nHeight fProofOfStake filled = .ok vtx) :
    ∃ coinbase', vtx = coinbase' :: sel := by
  unfold rewardedVtx at h
  rw [hfilled] at h
  split_ifs at h with hstake
  · exact ⟨coinbase, (Except.ok.inj h).symm⟩
  · obtain ⟨nReward, -, h⟩ := bind_ok h
    exact ⟨payReward nReward coinbase, (Except.ok.inj h).symm⟩

theorem createNewBlock_assembled {ctx : Context} {args : MinerArgs} {reservekey : Option CKeyID}
    {fProofOfStake : Bool} {block : CBlock} {nFees : ℤ} (hdisk : OnDisk s.txdb.txIndex)
    (hpool : PoolConsistent ctx s)
    (h : CreateNewBlock ctx env args reservekey fProofOfStake s = .ok (some (block, nFees))) :
    ∃ coinbase sel, block.vtx = coinbase :: sel ∧ Assembled ctx env s sel nFees := by
  obtain ⟨pindexPrev, nBits, candidates, filled, vtx, hfilled, rfl, rfl⟩ := createNewBlock_filled h
  obtain ⟨⟨sel, hfees, hspent⟩, sel', hfills⟩ := hfilled.fills
    (P := fun a => ∃ sel, FeesSo ctx s (baseOf env fProofOfStake reservekey pindexPrev) a sel ∧
      SpentOnce s a sel)
    ⟨[], FeesSo.start, by simp, List.Pairwise.nil⟩
    fun a candidate rest a' sel' ⟨sel, hfees, hspent⟩ hvtx hsub hstep => by
      obtain ⟨hcb, hcs⟩ := ordinary_of_eligible (hsub.subset List.mem_concat_self)
      obtain rfl : sel = sel' := (List.cons.inj (hfees.vtx.symm.trans hvtx)).2
      exact hspent.considerTx hfees hdisk hpool (hsub.trans eligibleTxs_subperm) hcb hcs hstep
  obtain rfl : sel = sel' := (List.cons.inj (hfees.vtx.symm.trans hfills.vtx)).2
  obtain ⟨coinbase, hvtx⟩ := rewardedVtx_eq_ok hfees.vtx hfilled.vtx_eq
  have helig : sel.Subperm (eligibleTxs env s (pindexPrev.nHeight + 1)) :=
    Multiset.coe_le.mp ((Multiset.le_add_right _ _).trans hfills.held)
  have hsel := helig.trans eligibleTxs_subperm
  have hsum : feesOf ctx s (fun _ => true) [] sel = (sel.map (txFee ctx s)).sum :=
    feesOf_eq_sum fun done tx rest heq => (hfees.covered done tx rest heq).feeAfter_eq hpool
  have hwrapped : filled.nFees = wrap64 (sel.map (txFee ctx s)).sum := by
    rw [hfees.fees, hsum]
  refine ⟨coinbase, sel, hvtx, hpool.keyed.nodup_map hsel, ?_, ?_, hwrapped, fun hfit => ?_⟩
  · intro before tx after heq txin htxin txPrev hmem hash
    have hlook : s.mempool.mapTx.lookup txin.prevout.hash = some txPrev := by
      rw [← hash]
      exact hpool.keyed.lookup (hmem.elim (fun h => hsel.subset h) id)
    have hbef : before.Subperm (poolTxs s) := by
      rw [heq] at hsel
      exact (List.sublist_append_left _ _).subperm.trans hsel
    exact (hfees.covered before tx after heq).mem_before hpool hbef htxin hlook
  · refine hspent.disjoint.imp_of_mem fun {tx u} htx hu hslots o ho hou => ?_
    -- Neither of the two is a coinbase, so they mark what they spend.
    have hspends {v : CTransaction} (hv : v ∈ sel) (hov : o ∈ v.prevouts) :
        o.slot ∈ v.spentSlots :=
      CTransaction.slot_mem_spentSlots.mpr ⟨(ordinary_of_eligible (helig.subset hv)).1, hov⟩
    exact hslots o.slot (hspends htx ho) (hspends hu hou)
  · rw [hwrapped]
    refine wrap64_fees helig (fun tx htx => ?_) (hfit pindexPrev hfilled.best)
    obtain ⟨before, after, heq⟩ := List.append_of_mem htx
    have hcov := hfees.covered before tx after heq
    rw [← hcov.feeAfter_eq hpool]
    exact hcov.fee

/-- What `CreateNewBlock` returns is assembled as it has to be, for every pool. The numbers that it
keeps of the transactions that wait refer to elements that are still in the list exactly when none of
these transactions is abandoned, and then it follows them to such elements only. -/
theorem templateAssembly (ctx : Context) (env : Env) (args : MinerArgs) (reservekey : Option CKeyID)
    (fProofOfStake : Bool) (s : NodeState) (hdisk : OnDisk s.txdb.txIndex)
    (hpool : PoolConsistent ctx s) :
    (∀ block nFees,
      CreateNewBlock ctx env args reservekey fProofOfStake s = .ok (some (block, nFees)) →
        ∃ coinbase sel, block.vtx = coinbase :: sel ∧ Assembled ctx env s sel nFees) ∧
    (NoneAbandoned ctx env args s →
      CreateNewBlock ctx env args reservekey fProofOfStake s ≠ .error orphanRemoved) ∧
    ∀ pindexPrev candidates, s.index s.pindexBest = .ok pindexPrev →
      collect ctx env args s (pindexPrev.nHeight + 1) = .ok candidates →
        (NoneAbandoned ctx env args s ↔
          ∀ tx ∈ eligibleTxs env s (pindexPrev.nHeight + 1),
            ∀ p ∈ candidates.mapDependers (ctx.hashTx tx), Present candidates.vOrphan p) := by
  refine ⟨fun block nFees h => createNewBlock_assembled hdisk hpool h, createNewBlock_followsNone,
    fun pindexPrev candidates hbest hcollect => ?_⟩
  simp only [collect_present_iff hcollect]
  constructor
  · exact fun h => h pindexPrev hbest
  · intro h i hi
    rw [hbest] at hi
    cases hi
    exact h

/-! ## A transaction that waits, and one that is abandoned -/

def waitingNode (vin : List CTxIn) : NodeState :=
  { minerNode with
    mempool := (minerNode.mempool.addUnchecked 21 (minerTx [OP_1])).addUnchecked 22
      (plainTx 22 vin [payTo (48 * COIN)]) }

theorem waitingNode_onDisk (vin : List CTxIn) : OnDisk (waitingNode vin).txdb.txIndex := by
  intro hash e h
  by_cases hhash : hash = 11
  · subst hhash
    cases h
    decide
  · have hne : DbKey.tx hash ≠ DbKey.tx 11 := fun heq => hhash (DbKey.tx.inj heq)
    unfold CTxDB.txIndex Store.view waitingNode minerNode chainedNode at h
    dsimp only at h
    rw [Function.update_of_ne hne] at h
    simp at h

theorem waitingNode_consistent (vin : List CTxIn) :
    PoolConsistent (chainedContext true) (waitingNode vin) := by
  have hpool {hash : UInt256} {tx : CTransaction}
      (h : (waitingNode vin).mempool.mapTx.lookup hash = some tx) :
      hash = 22 ∧ tx = plainTx 22 vin [payTo (48 * COIN)] ∨ hash = 21 ∧ tx = minerTx [OP_1] := by
    unfold waitingNode at h
    rw [CTxMemPool.lookup_addUnchecked, CTxMemPool.lookup_addUnchecked] at h
    split_ifs at h with hlast hfst
    · exact .inl ⟨hlast, (Option.some.inj h).symm⟩
    · exact .inr ⟨hfst, (Option.some.inj h).symm⟩
    · simp [minerNode, chainedNode, emptyNode] at h
  constructor
  · intro hash tx h
    rcases hpool h with ⟨rfl, rfl⟩ | ⟨rfl, rfl⟩ <;> rfl
  · intro hash tx h
    rcases hpool h with ⟨rfl, -⟩ | ⟨rfl, -⟩ <;> rfl

/-- When the second transaction spends from the first one, the template has both. -/
theorem templateAssembly_waiting : ∃ block nFees coinbase sel,
    CreateNewBlock (chainedContext true) (plainEnv 2000) plainArgs none true
      (waitingNode [inputOf 21 0]) = .ok (some (block, nFees)) ∧
    block.vtx = coinbase :: sel ∧ sel.length = 2 ∧
    Assembled (chainedContext true) (plainEnv 2000) (waitingNode [inputOf 21 0]) sel nFees := by
  obtain ⟨block, nFees, hcreated, hlength⟩ :=
    @template_of_eval (waitingNode [inputOf 21 0]) (fun block => block.vtx.length == 3) (by decide +kernel)
  obtain ⟨coinbase, sel, hvtx, hassembled⟩ := (templateAssembly _ _ _ _ _ _
    (waitingNode_onDisk _) (waitingNode_consistent _)).1 block nFees hcreated
  refine ⟨block, nFees, coinbase, sel, hcreated, hvtx, ?_, hassembled⟩
  rw [hvtx] at hlength
  simpa using hlength

/-- When it also spends from a transaction that is nowhere, its number is followed to an empty place. -/
theorem templateAssembly_abandoned :
    OnDisk (waitingNode [inputOf 21 0, inputOf 99 0]).txdb.txIndex ∧
    PoolConsistent (chainedContext true) (waitingNode [inputOf 21 0, inputOf 99 0]) ∧
    CreateNewBlock (chainedContext true) (plainEnv 2000) plainArgs none true
      (waitingNode [inputOf 21 0, inputOf 99 0]) = .error orphanRemoved := by
  refine ⟨waitingNode_onDisk _, waitingNode_consistent _, ?_⟩
  have hfails : (match CreateNewBlock (chainedContext true) (plainEnv 2000) plainArgs none true
      (waitingNode [inputOf 21 0, inputOf 99 0]) with
    | .error e => decide (e = orphanRemoved)
    | .ok _ => false) = true := by decide +kernel
  split at hfails
  · rename_i e hcreated
    rw [hcreated, of_decide_eq_true hfails]
  · simp at hfails

end ZalemCoin.Mining
