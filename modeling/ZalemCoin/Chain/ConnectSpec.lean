import ZalemCoin.Chain.LedgerRefinement

/-!
# What successful runs of the block functions have done

One lemma for each function says what a successful run has checked and what it has written. Proofs
about the chain use these and do not unfold the functions.
-/

namespace ZalemCoin.Chain

open Lib

section

variable (ctx : Context) (env : Env) (s : NodeState)

/-- A call of `IsInitialBlockDownload` does not change what a later call at the same time
answers. -/
@[simp]
theorem isInitialBlockDownload_afterDownloadCheck :
    IsInitialBlockDownload ctx env (s.afterDownloadCheck ctx env)
      = IsInitialBlockDownload ctx env s := by
  unfold NodeState.afterDownloadCheck
  split
  · rfl
  · rename_i h
    push Not at h
    unfold IsInitialBlockDownload
    simp [h.2.2]

theorem checks_afterDownloadCheck (block : CBlock) (fCheckMerkleRoot : Bool) :
    checkDevops ctx env (s.afterDownloadCheck ctx env) block = checkDevops ctx env s block ∧
      checkLocks ctx env (s.afterDownloadCheck ctx env) block = checkLocks ctx env s block ∧
      checkFloatingcityPayment ctx env (s.afterDownloadCheck ctx env) block
        = checkFloatingcityPayment ctx env s block ∧
      checkTransactions ctx (s.afterDownloadCheck ctx env) block fCheckMerkleRoot
        = checkTransactions ctx s block fCheckMerkleRoot := by
  have hibd := isInitialBlockDownload_afterDownloadCheck ctx env s
  unfold checkDevops checkFloatingcityPayment
  rw [hibd]
  have hstatics : s.afterDownloadCheck ctx env = s ∨ s.afterDownloadCheck ctx env
      = { s with pindexLastBest := s.pindexBest, nLastUpdate := env.time } := by
    unfold NodeState.afterDownloadCheck
    split
    · exact .inl rfl
    · exact .inr rfl
  rcases hstatics with h | h <;> rw [h] <;> exact ⟨rfl, rfl, rfl, rfl⟩

end

structure BlockChecked (ctx : Context) (env : Env) (s : NodeState) (block : CBlock)
    (fCheckPOW fCheckMerkleRoot fCheckSig : Bool) : Prop where
  form : checkForm ctx env s block fCheckPOW = .ok ()
  devops : checkDevops ctx env s block = .ok ()
  signature : ¬(fCheckSig ∧ ¬ctx.checkBlockSignature block)
  locks : checkLocks ctx env s block = .ok ()
  payment : checkFloatingcityPayment ctx env s block = .ok ()
  transactions : checkTransactions ctx s block fCheckMerkleRoot = .ok ()

variable {block : CBlock} {fCheckPOW fCheckMerkleRoot : Bool} {ctx : Context} {env : Env}
  {s s' : NodeState}

theorem checkBlock_eq_ok {fCheckSig : Bool}
    (h : CheckBlock ctx env block fCheckPOW fCheckMerkleRoot fCheckSig s = (.ok (), s')) :
    BlockChecked ctx env s block fCheckPOW fCheckMerkleRoot fCheckSig ∧
      IsInitialBlockDownload ctx env s' = IsInitialBlockDownload ctx env s := by
  obtain ⟨⟨⟩, t₁, h₁, h⟩ := Action.bind_eq_ok.mp h
  obtain ⟨⟨⟩, t₂, h₂, h⟩ := Action.bind_eq_ok.mp h
  obtain ⟨⟨⟩, t₃, h₃, h⟩ := Action.bind_eq_ok.mp h
  obtain ⟨⟨⟩, t₄, h₄, h⟩ := Action.bind_eq_ok.mp h
  obtain ⟨hform, rfl⟩ := Prod.mk.inj h₁
  cases h₂
  obtain ⟨hmiddle, rfl⟩ := Prod.mk.inj h₃
  cases h₄
  obtain ⟨hlast, rfl⟩ := Prod.mk.inj h
  obtain ⟨⟨⟩, hdevops, hmiddle⟩ := bind_ok hmiddle
  obtain ⟨hsig, hlocks⟩ := ensure_ok hmiddle
  obtain ⟨⟨⟩, hpayment, htxs⟩ := bind_ok hlast
  beta_reduce at hdevops hlocks hpayment htxs ⊢
  have hlater := checks_afterDownloadCheck ctx env s block fCheckMerkleRoot
  -- The middle checks run after one call of `IsInitialBlockDownload` when the block is
  -- proof-of-stake, and before any call otherwise.
  by_cases hpos : block.IsProofOfStake = true
  · rw [if_pos hpos] at hdevops hlocks hpayment htxs ⊢
    have hlast := checks_afterDownloadCheck ctx env (s.afterDownloadCheck ctx env) block
      fCheckMerkleRoot
    rw [hlater.1] at hdevops
    rw [hlater.2.1] at hlocks
    rw [hlast.2.2.1, hlater.2.2.1] at hpayment
    rw [hlast.2.2.2, hlater.2.2.2] at htxs
    exact ⟨⟨hform, hdevops, hsig, hlocks, hpayment, htxs⟩, by simp⟩
  · rw [if_neg hpos] at hdevops hlocks hpayment htxs ⊢
    rw [hlater.2.2.1] at hpayment
    rw [hlater.2.2.2] at htxs
    exact ⟨⟨hform, hdevops, hsig, hlocks, hpayment, htxs⟩, by simp⟩

theorem checkBlock_of_checked {fCheckSig : Bool}
    (h : BlockChecked ctx env s block fCheckPOW fCheckMerkleRoot fCheckSig) :
    ∃ s', CheckBlock ctx env block fCheckPOW fCheckMerkleRoot fCheckSig s = (.ok (), s') := by
  have hlater := checks_afterDownloadCheck ctx env s block fCheckMerkleRoot
  have hlast := checks_afterDownloadCheck ctx env (s.afterDownloadCheck ctx env) block
    fCheckMerkleRoot
  have hsig : ensure (¬(fCheckSig ∧ ¬ctx.checkBlockSignature block))
      (Failure.reject 100 "CheckBlock() : bad proof-of-stake block signature") = .ok () :=
    ensure_eq_ok.mpr h.signature
  have hform : Action.reading (fun s => checkForm ctx env s block fCheckPOW) s = (.ok (), s) :=
    Prod.ext h.form rfl
  unfold CheckBlock
  rw [Action.bind_of_ok hform]
  change ∃ s', (Action.reading _ >>= fun _ => Action.modify _ >>= fun _ => Action.reading _)
    (if block.IsProofOfStake then s.afterDownloadCheck ctx env else s) = (.ok (), s')
  by_cases hpos : block.IsProofOfStake = true
  · rw [if_pos hpos, @Action.bind_of_ok _ _ _ _ _ _ _ (s.afterDownloadCheck ctx env) ()]
    · refine ⟨_, Prod.ext ?_ rfl⟩
      change (checkFloatingcityPayment ctx env _ block >>= fun _ =>
        checkTransactions ctx _ block fCheckMerkleRoot) = .ok ()
      rw [hlast.2.2.1, hlast.2.2.2, hlater.2.2.1, hlater.2.2.2, h.payment]
      exact h.transactions
    · refine Prod.ext ?_ rfl
      change (checkDevops ctx env _ block >>= fun _ => ensure _ _ >>= fun _ =>
        checkLocks ctx env _ block) = .ok ()
      rw [hlater.1, hlater.2.1, h.devops, hsig]
      exact h.locks
  · rw [if_neg hpos, @Action.bind_of_ok _ _ _ _ _ _ _ s ()]
    · refine ⟨_, Prod.ext ?_ rfl⟩
      change (checkFloatingcityPayment ctx env _ block >>= fun _ =>
        checkTransactions ctx _ block fCheckMerkleRoot) = .ok ()
      rw [hlater.2.2.1, hlater.2.2.2, h.payment]
      exact h.transactions
    · refine Prod.ext ?_ rfl
      change (checkDevops ctx env _ block >>= fun _ => ensure _ _ >>= fun _ =>
        checkLocks ctx env _ block) = .ok ()
      rw [h.devops, hsig]
      exact h.locks

structure BlockShape (block : CBlock) : Prop where
  coinbase : ∀ tx ∈ block.vtx.head?, tx.IsCoinBase = true
  others : ∀ tx ∈ block.vtx.tail, tx.IsCoinBase = false
  empty : block.IsProofOfStake = true → ∀ tx ∈ block.vtx.head?, tx.vout.length = 1 ∧
    ∀ txout ∈ tx.vout, txout.IsEmpty = true
  coinstake : block.IsProofOfStake = true → ∀ tx ∈ block.vtx.drop 2, tx.IsCoinStake = false

theorem checkForm_eq_ok (h : checkForm ctx env s block fCheckPOW = .ok ()) :
    BlockShape block := by
  obtain ⟨⟨⟩, -, h⟩ := bind_ok h
  obtain ⟨⟨⟩, -, h⟩ := bind_ok h
  obtain ⟨⟨⟩, -, h⟩ := bind_ok h
  obtain ⟨hcb, h⟩ := ensure_ok h
  obtain ⟨hothers, h⟩ := ensure_ok h
  have hstake (hpos : block.IsProofOfStake = true) :
      (∀ tx ∈ block.vtx.head?, tx.vout.length = 1 ∧ ∀ txout ∈ tx.vout, txout.IsEmpty = true) ∧
        ∀ tx ∈ block.vtx.drop 2, tx.IsCoinStake = false := by
    rw [if_pos hpos] at h
    obtain ⟨hemp, hone⟩ := ensure_ok h
    exact ⟨hemp, ensure_eq_ok.mp hone⟩
  exact ⟨hcb, hothers, fun hpos => (hstake hpos).1, fun hpos => (hstake hpos).2⟩

theorem checkOutput_eq_ok {tx : CTransaction} {nValueOut r : ℤ} {txout : CTxOut}
    (h : checkOutput tx nValueOut txout = .ok r) : 0 ≤ txout.nValue := by
  obtain ⟨⟨⟩, -, h⟩ := bind_ok h
  obtain ⟨hnn, -⟩ := ensure_ok h
  exact hnn

theorem checkTransaction_eq_ok {MAX_BLOCK_SIZE : ℕ} {tx : CTransaction}
    (h : CheckTransaction MAX_BLOCK_SIZE tx = .ok ()) :
    tx.vin ≠ [] ∧ (tx.vin.map CTxIn.prevout).Nodup ∧ ∀ txout ∈ tx.vout, 0 ≤ txout.nValue := by
  obtain ⟨hvin, h⟩ := ensure_ok h
  obtain ⟨⟨⟩, -, h⟩ := bind_ok h
  obtain ⟨⟨⟩, -, h⟩ := bind_ok h
  obtain ⟨nValueOut, houtputs, h⟩ := bind_ok h
  obtain ⟨hprevs, -⟩ := ensure_ok h
  refine ⟨hvin, hprevs, ?_⟩
  refine foldlM_ok_induction (fun done _ => ∀ txout ∈ done, 0 ≤ txout.nValue) (by simp) ?_ houtputs
  intro done txout rest c c' _ hdone hchk txout' hmem
  rcases List.mem_append.mp hmem with hmem | hmem
  · exact hdone txout' hmem
  · rw [List.mem_singleton.mp hmem]
    exact checkOutput_eq_ok hchk

theorem checkTransactions_eq_ok (h : checkTransactions ctx s block fCheckMerkleRoot = .ok ()) :
    (∀ tx ∈ block.vtx, CheckTransaction s.MAX_BLOCK_SIZE tx = .ok ()) ∧
      (block.vtx.map ctx.hashTx).Nodup := by
  obtain ⟨⟨⟩, htxs, h⟩ := bind_ok h
  obtain ⟨hids, -⟩ := ensure_ok h
  refine ⟨fun tx htx => ?_, hids⟩
  have hchk := except_forM_eq_ok.mp htxs tx htx
  obtain ⟨⟨⟩, hchk, -⟩ := bind_ok hchk
  rcases hr : CheckTransaction s.MAX_BLOCK_SIZE tx with e | ⟨⟩
  · rw [hr] at hchk
    simp [Except.mapError] at hchk
  · rfl

theorem txIndex_writeQueue (txdb : CTxDB) (queue : TestPool) :
    (writeQueue txdb queue).txIndex = overlay queue txdb.txIndex := by
  obtain ⟨entries, hnd⟩ := queue
  suffices H : ∀ (l : List (Sigma fun _ : UInt256 => CTxIndex)) (txdb : CTxDB), l.NodupKeys →
      (l.foldl (fun txdb entry => txdb.UpdateTxIndex entry.1 entry.2) txdb).txIndex
        = fun h => (l.dlookup h).or (txdb.txIndex h) from H entries txdb hnd
  intro l
  induction l with
  | nil => intro txdb _; rfl
  | cons entry l ih =>
    intro txdb hkeys
    obtain ⟨hnotin, hkeys⟩ := List.nodupKeys_cons.mp hkeys
    rw [List.foldl_cons, ih _ hkeys, txIndex_updateTxIndex]
    funext h
    by_cases heq : h = entry.1
    · subst heq
      rw [List.dlookup_eq_none.mpr hnotin, Function.update_self, List.dlookup_cons_eq]
      rfl
    · rw [Function.update_of_ne heq, List.dlookup_cons_ne _ _ heq]

theorem keepsIndex_writePrevLink (ctx : Context) (pprev : Option UInt256) (hashNext : UInt256) :
    KeepsPart (fun s => s.txdb.txIndex) (writePrevLink ctx pprev hashNext) := by
  cases pprev with
  | none => exact KeepsPart.pure _
  | some p =>
    refine KeepsPart.bind (KeepsPart.reading _) fun prev => KeepsPart.modify fun s => ?_
    exact txIndex_writeBlockIndex ctx s.txdb _

theorem writePrevLink_some (ctx : Context) {p : UInt256} {prev : CBlockIndex}
    (h : s.mapBlockIndex p = some prev) (hashNext : UInt256) :
    writePrevLink ctx (some p) hashNext s = (.ok (), { s with
      txdb := s.txdb.WriteBlockIndex ctx { CDiskBlockIndex.of prev with hashNext := hashNext } }) := by
  change (Action.reading (fun s => s.index (some p)) >>= _) s = _
  rw [Action.bind_of_ok (by rw [Action.reading_apply, index_eq_ok.mpr h])]
  rfl

theorem keepsIndex_indexBlockAddresses (ctx : Context) (block : CBlock) :
    KeepsPart (fun s => s.txdb.txIndex) (indexBlockAddresses ctx block) :=
  KeepsPart.indexBlockAddresses block fun _ _ _ => txIndex_writeAddrIds ..

/-- What a successful connection of a block has checked, computed and written. The first state is
the one after the checks and the size limit, and the others are the block's entry, the supply
before it, and the sums and changes of its transactions. -/
structure BlockConnected (ctx : Context) (env : Env) (block : CBlock) (pindex : UInt256)
    (s s' s₁ : NodeState) (i : CBlockIndex) (prevSupply : ℤ) (acc : ConnectAcc) : Prop where
  /-- The checks and the size limit have changed static variables only. -/
  core : s₁.core = s.core
  /-- They have not changed what `IsInitialBlockDownload` answers. -/
  download : IsInitialBlockDownload ctx env s₁ = IsInitialBlockDownload ctx env s
  checked : BlockChecked ctx env s block true true false
  entry : s.mapBlockIndex pindex = some i
  transactions : connectTransactions ctx env s₁ block i false = .ok acc
  /-- It does not pay itself too much. -/
  reward : checkReward ctx s₁ block i acc = .ok ()
  supply : prevMoneySupply s₁ i = .ok prevSupply
  /-- Its entry has its mint and its supply. -/
  recorded : s'.mapBlockIndex
    = Function.update s.mapBlockIndex pindex (some (withSupply i prevSupply acc))
  ledger : s'.txdb.txIndex = pending s acc.mapQueuedChanges

theorem connectBlock_eq_ok {pindex : UInt256} {log : List SigCheck}
    (h : ConnectBlock ctx env block pindex false s = (.ok log, s')) :
    ∃ s₁ i prevSupply acc,
      BlockConnected ctx env block pindex s s' s₁ i prevSupply acc ∧ log = acc.sigLog := by
  obtain ⟨t₁, size, t₂, s₁, r, hchk, hsize, hs₁, hcore, heval, hwrite, hlog⟩ := connectBlock_parts h
  obtain ⟨hchecked, hdownload⟩ := checkBlock_eq_ok hchk
  obtain ⟨i, prevSupply, hi, htxs, hrew, hsup, hr⟩ := evaluateBlock_eq_ok ctx heval
  -- The state that the transactions are connected in differs from the first one in static
  -- variables only, and the size calculator does not touch those of the initial download.
  have hparts := (keepsPart_computeBlockSize pindex).of_eq hsize
  have hibd : IsInitialBlockDownload ctx env s₁ = IsInitialBlockDownload ctx env s := by
    rw [← hs₁, ← hdownload]
    change IsInitialBlockDownload ctx env t₂.outsideSizes
      = IsInitialBlockDownload ctx env t₁.outsideSizes
    rw [hparts]
  have hframe : ConnectFrame (fun _ => False) _ s' :=
    (keepsFrame_writeBlock ctx _ _ _ _).of_eq hwrite
  have hled : s'.txdb.txIndex = pending s r.2.mapQueuedChanges := by
    obtain ⟨⟨⟩, u₁, hqueue, hwrite⟩ := Action.bind_eq_ok.mp hwrite
    obtain ⟨⟨⟩, u₂, haddr, hprev⟩ := Action.bind_eq_ok.mp hwrite
    obtain ⟨-, hu₁⟩ := Prod.mk.inj hqueue
    have h₂ := (keepsIndex_indexBlockAddresses ctx block).of_eq haddr
    have h₃ := (keepsIndex_writePrevLink ctx r.1.pprev pindex).of_eq hprev
    rw [h₃, h₂, ← hu₁]
    rw [txIndex_writeQueue, txIndex_writeBlockIndex, txdb_of_core hcore]
  refine ⟨s₁, i, prevSupply, r.2, ⟨hcore, hibd, hchecked, ?_, htxs, hrew, hsup, ?_, hled⟩, hlog⟩
  · rw [← mapBlockIndex_of_core hcore]
    exact hi
  · funext h
    rw [hframe.index h id, ← hr, ← mapBlockIndex_of_core hcore]
    rfl

theorem BlockConnected.connects {pindex : UInt256} {s₁ : NodeState} {i : CBlockIndex}
    {prevSupply : ℤ} {acc : ConnectAcc}
    (h : BlockConnected ctx env block pindex s s' s₁ i prevSupply acc)
    (hfresh : ∀ tx ∈ block.vtx, s.txdb.txIndex (ctx.hashTx tx) = none) :
    s'.txdb.txIndex = (blockSpends ctx i.nFile i.nBlockPos block.vtx).foldl
        (Ledger.connect CDiskTxPos.null) s.txdb.txIndex ∧
      Ledger.Connects CDiskTxPos.null s.txdb.txIndex
        (blockSpends ctx i.nFile i.nBlockPos block.vtx) := by
  obtain ⟨htxs, hids⟩ := checkTransactions_eq_ok h.checked.transactions
  have htxdb := txdb_of_core h.core
  have hled := connectTransactions_ledger h.transactions
    (fun tx htx => (checkTransaction_eq_ok (htxs tx htx)).2.1) hids
    (by rw [htxdb]; exact hfresh)
  have hpend := hled.ledger
  have hconn := hled.connects
  rw [pending, htxdb] at hpend
  rw [htxdb] at hconn
  rw [h.ledger]
  exact ⟨hpend, hconn⟩

end ZalemCoin.Chain
