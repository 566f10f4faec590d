import ZalemCoin.Chain.Frame

/-!
# The transaction index is a ledger of slots

What `ConnectBlock` does to the transaction index, through the pending changes of each transaction
and the queue that is written at the end, is to connect the transactions of the block to a ledger
one after the other; what `DisconnectBlock` does is to disconnect them in reverse order.
-/

namespace ZalemCoin.Chain

open Lib
open Function (update_of_ne update_self)

def CTxDB.txIndex (txdb : CTxDB) : Ledger UInt256 CDiskTxPos := fun hash => txdb.view (.tx hash)

@[simp]
theorem readTxIndex_eq (txdb : CTxDB) (hash : UInt256) :
    txdb.ReadTxIndex hash = txdb.txIndex hash := Store.read_eq_view txdb _

variable {hash : UInt256} {L : Ledger UInt256 CDiskTxPos} {inputs : MapPrevTx} {pos : CDiskTxPos}
  {flags : UInt32}

theorem txIndex_of_view {txdb txdb' : CTxDB} {v : Option CTxIndex}
    (h : txdb'.view = Function.update txdb.view (.tx hash) v) :
    txdb'.txIndex = Function.update txdb.txIndex hash v := by
  funext h'
  unfold CTxDB.txIndex
  rw [h]
  by_cases heq : h' = hash
  · subst heq
    rw [update_self, update_self]
  · rw [update_of_ne heq, update_of_ne (by simpa using heq)]

@[simp]
theorem txIndex_updateTxIndex (txdb : CTxDB) (hash : UInt256) (txindex : CTxIndex) :
    (txdb.UpdateTxIndex hash txindex).txIndex
      = Function.update txdb.txIndex hash (some txindex) :=
  txIndex_of_view (Store.view_write ..)

@[simp]
theorem txIndex_eraseTxIndex (txdb : CTxDB) (hash : UInt256) :
    (txdb.EraseTxIndex hash).txIndex = Function.update txdb.txIndex hash none :=
  txIndex_of_view (Store.view_erase ..)

@[simp]
theorem txIndex_writeBlockIndex (ctx : Context) (txdb : CTxDB) (blockindex : CDiskBlockIndex) :
    (txdb.WriteBlockIndex ctx blockindex).txIndex = txdb.txIndex := by
  funext h
  unfold CTxDB.txIndex CTxDB.WriteBlockIndex
  rw [Store.view_write, update_of_ne (by simp)]

theorem view_writeAddrIds (ctx : Context) (txdb : CTxDB) (hashTx : UInt256) (vout : List CTxOut)
    {key : DbKey} (hkey : ∀ addrid, key ≠ .adr addrid) :
    (writeAddrIds ctx txdb hashTx vout).view key = txdb.view key := by
  unfold writeAddrIds
  induction vout.flatMap fun txout => BuildAddrIndex ctx txout.scriptPubKey generalizing txdb with
  | nil => rfl
  | cons addrid addrids ih =>
    rw [List.foldl_cons, ih]
    unfold CTxDB.WriteAddrIndex
    dsimp only
    split
    · rfl
    · rw [Store.view_write, update_of_ne (hkey addrid)]

theorem txIndex_writeAddrIds (ctx : Context) (txdb : CTxDB) (hashTx : UInt256)
    (vout : List CTxOut) : (writeAddrIds ctx txdb hashTx vout).txIndex = txdb.txIndex := by
  funext h
  exact view_writeAddrIds ctx txdb hashTx vout (by simp)

def CTransaction.spentSlots (tx : CTransaction) : List (UInt256 × ℕ) :=
  if tx.IsCoinBase then [] else tx.vin.map fun txin => (txin.prevout.hash, txin.prevout.n.toNat)

variable (ctx : Context)

def CTransaction.spend (pos : CDiskTxPos) (tx : CTransaction) :
    Spend UInt256 CDiskTxPos where
  id := ctx.hashTx tx
  pos := pos
  width := tx.vout.length
  inputs := tx.spentSlots

def placedAt (nFile nBlockPos : UInt32) (vtx done : List CTransaction) :
    List (CDiskTxPos × CTransaction) :=
  done.mapIdx fun k tx => (CDiskTxPos.of nFile nBlockPos (txPosition nBlockPos vtx k), tx)

def placedTransactions (nFile nBlockPos : UInt32) (vtx : List CTransaction) :
    List (CDiskTxPos × CTransaction) :=
  placedAt nFile nBlockPos vtx vtx

def spendsOf (placed : List (CDiskTxPos × CTransaction)) :
    List (Spend UInt256 CDiskTxPos) :=
  placed.map fun p => p.2.spend ctx p.1

theorem spendsOf_append (ctx : Context) (placed placed' : List (CDiskTxPos × CTransaction)) :
    spendsOf ctx (placed ++ placed') = spendsOf ctx placed ++ spendsOf ctx placed' :=
  List.map_append

def blockSpends (nFile nBlockPos : UInt32) (vtx : List CTransaction) :
    List (Spend UInt256 CDiskTxPos) :=
  spendsOf ctx (placedTransactions nFile nBlockPos vtx)

theorem map_snd_placedTransactions (nFile nBlockPos : UInt32) (vtx : List CTransaction) :
    (placedTransactions nFile nBlockPos vtx).map Prod.snd = vtx := by
  unfold placedTransactions placedAt
  refine List.ext_getElem (by simp) fun n h₁ h₂ => ?_
  simp

theorem placedAt_concat (nFile nBlockPos : UInt32) (vtx done : List CTransaction)
    (tx : CTransaction) :
    placedAt nFile nBlockPos vtx (done ++ [tx]) = placedAt nFile nBlockPos vtx done
      ++ [(CDiskTxPos.of nFile nBlockPos (txPosition nBlockPos vtx done.length), tx)] := by
  unfold placedAt
  rw [List.mapIdx_concat]

theorem mem_of_mem_placedAt {nFile nBlockPos : UInt32} {vtx done : List CTransaction}
    {p : CDiskTxPos × CTransaction} (h : p ∈ placedAt nFile nBlockPos vtx done) : p.2 ∈ done := by
  unfold placedAt at h
  obtain ⟨n, hn, rfl⟩ := List.getElem_of_mem h
  rw [List.getElem_mapIdx]
  exact List.getElem_mem _

abbrev pending (s : NodeState) (queue : TestPool) : Ledger UInt256 CDiskTxPos :=
  overlay queue s.txdb.txIndex

theorem mark_eq_update {h : UInt256} {e : CTxIndex} (he : L h = some e) (n : ℕ) (p : CDiskTxPos) :
    Ledger.mark p L (h, n) = Function.update L h (some { e with slots := e.slots.set n p }) := by
  unfold Ledger.mark
  rw [he]
  rfl

/-- A caller that connects or assembles a block, and so passes pending changes. -/
abbrev CheckMode.OfBlock (mode : CheckMode) : Prop := (mode.fBlock || mode.fMiner) = true

theorem CheckMode.block_ofBlock : CheckMode.block.OfBlock := rfl

variable {mode : CheckMode} {queue : TestPool} {tx : CTransaction} {s : NodeState}

/-- When a block is connected or assembled, the entry of a previous transaction comes from the ledger
with the pending changes laid over it. -/
theorem prevIndex_ofBlock (hmode : mode.OfBlock) (s : NodeState) (queue : TestPool) (hash : UInt256) :
    prevIndex s queue mode hash = pending s queue hash := by
  unfold prevIndex
  rw [if_pos hmode]
  simp only [readTxIndex_eq, pending, overlay]
  cases queue.lookup hash <;> rfl

/-- The transaction that an index entry refers to: the one at its position, or the one in the
memory pool when the position says so. -/
def PrevTx (s : NodeState) (hash : UInt256) (pos : CDiskTxPos)
    (txPrev : CTransaction) : Prop :=
  if pos = CDiskTxPos.memoryPool then s.mempool.mapTx.lookup hash = some txPrev
  else readTxAt ctx pos = some txPrev

theorem fetchPrev_ofBlock (hmode : mode.OfBlock) {ctx : Context} {p : CTxIndex × CTransaction}
    (h : fetchPrev ctx s queue mode hash = .ok p) :
    pending s queue hash = some p.1 ∧ PrevTx ctx s hash p.1.pos p.2 := by
  unfold fetchPrev at h
  rw [prevIndex_ofBlock hmode] at h
  unfold PrevTx
  rcases hL : pending s queue hash with _ | e
  · rw [hL] at h
    rw [if_pos hmode] at h
    simp at h
  · rw [hL] at h
    dsimp only at h
    by_cases hpos : e.pos = CDiskTxPos.memoryPool
    · rw [if_pos hpos] at h
      rcases hm : s.mempool.mapTx.lookup hash with _ | tx <;> rw [hm] at h
      · simp at h
      · cases h
        exact ⟨rfl, by rw [if_pos hpos]⟩
    · rw [if_neg hpos] at h
      rcases hm : readTxAt ctx e.pos with _ | tx <;> rw [hm] at h
      · simp at h
      · cases h
        exact ⟨rfl, by rw [if_neg hpos]; exact hm⟩

structure Fetched (s : NodeState) (L : Ledger UInt256 CDiskTxPos)
    (inputs : MapPrevTx) (vin : List CTxIn) : Prop where
  /-- Every fetched entry is the ledger's, and comes with its transaction. -/
  entry : ∀ h p, inputs.lookup h = some p → L h = some p.1 ∧ PrevTx ctx s h p.1.pos p.2
  /-- Every input has been fetched, and refers to an output. -/
  inRange : ∀ txin ∈ vin, ∃ p, inputs.lookup txin.prevout.hash = some p ∧
    txin.prevout.n.toNat < p.2.vout.length ∧ txin.prevout.n.toNat < p.1.slots.length

theorem fetchInputs_ofBlock (hmode : mode.OfBlock) {ctx : Context} (hcb : tx.IsCoinBase = false)
    (h : FetchInputs ctx s queue mode tx = .ok inputs) :
    Fetched ctx s (pending s queue) inputs tx.vin := by
  unfold FetchInputs at h
  rw [hcb] at h
  obtain ⟨fetched, hfetch, h⟩ := bind_ok h
  obtain ⟨⟨⟩, hrng, h⟩ := bind_ok h
  cases h
  refine ⟨?_, fun txin htxin => ?_⟩
  · refine foldlM_ok_induction
      (fun _ inputs => ∀ h p, inputs.lookup h = some p →
        pending s queue h = some p.1 ∧ PrevTx ctx s h p.1.pos p.2)
      (fun h p hp => by simp at hp) ?_ hfetch
    intro done txin rest c c' _ hc hstep h p hp
    unfold fetchInput at hstep
    split at hstep
    · cases hstep
      exact hc h p hp
    · obtain ⟨prev, hprev, hstep⟩ := bind_ok hstep
      cases hstep
      by_cases heq : h = txin.prevout.hash
      · subst heq
        rw [AList.lookup_insert] at hp
        cases hp
        exact fetchPrev_ofBlock hmode hprev
      · rw [AList.lookup_insert_ne heq] at hp
        exact hc h p hp
  · have hchk := except_forM_eq_ok.mp hrng txin htxin
    unfold checkPrevout at hchk
    split at hchk
    · simp at hchk
    · rename_i txindex txPrev hlook
      exact ⟨(txindex, txPrev), hlook, ensure_eq_ok.mp hchk⟩

def CTxIn.slot (txin : CTxIn) : UInt256 × ℕ := (txin.prevout.hash, txin.prevout.n.toNat)

theorem nodup_spentSlots (h : (tx.vin.map CTxIn.prevout).Nodup) : tx.spentSlots.Nodup := by
  unfold CTransaction.spentSlots
  split
  · exact List.nodup_nil
  · have hinj : Function.Injective fun o : COutPoint => (o.hash, o.n.toNat) := by
      rintro ⟨ah, an⟩ ⟨bh, bn⟩ hab
      obtain ⟨hhash, hn⟩ := Prod.mk.inj hab
      rw [COutPoint.mk.injEq]
      exact ⟨hhash, UInt32.toNat_inj.mp hn⟩
    have hmap := h.map hinj
    rwa [List.map_map] at hmap

/-- What the second loop of `ConnectInputs` has done when some inputs are spent. -/
structure SpentSo (s : NodeState) (L : Ledger UInt256 CDiskTxPos) (pos : CDiskTxPos)
    (done : List CTxIn) (acc : SpendState) : Prop where
  marked : pending s acc.mapTestPool = (done.map CTxIn.slot).foldl (Ledger.mark pos) L
  /-- The loop's own entries agree with the pending changes. -/
  entries : ∀ h p, acc.inputs.lookup h = some p → pending s acc.mapTestPool h = some p.1
  free : ∀ k ∈ done.map CTxIn.slot, Ledger.slot L k = some CDiskTxPos.null

/-- One more input marks one more slot. -/
theorem SpentSo.spendInput (hmode : mode.OfBlock) {ctx : Context} {done : List CTxIn}
    {acc acc' : SpendState} {fInitialDownload : Bool} {input : CTxIn × ℕ}
    (h : SpentSo s L pos done acc)
    (hstep : spendInput ctx tx pos mode fInitialDownload flags acc input = .ok acc') :
    SpentSo s L pos (done ++ [input.1]) acc' := by
  unfold Chain.spendInput at hstep
  dsimp only at hstep
  split at hstep
  · simp at hstep
  · rename_i txindex txPrev hlook
    obtain ⟨hnull, hstep⟩ := ensure_ok hstep
    obtain ⟨checks, -, hstep⟩ := bind_ok hstep
    cases hstep
    have hent : pending s acc.mapTestPool input.1.prevout.hash = some txindex := h.entries _ _ hlook
    have hslot : Ledger.slot (pending s acc.mapTestPool) input.1.slot = some CDiskTxPos.null := by
      unfold Ledger.slot CTxIn.slot
      rw [hent]
      exact hnull
    have hpool : pending s (acc.mapTestPool.insert input.1.prevout.hash
          { txindex with slots := txindex.slots.set input.1.prevout.n.toNat pos })
        = Ledger.mark pos (pending s acc.mapTestPool) input.1.slot := by
      unfold CTxIn.slot
      rw [mark_eq_update hent]
      exact overlay_insert _ _ _ _
    refine ⟨?_, fun h' p hp => ?_, ?_⟩
    · simp only [hmode, if_true, List.map_append, List.map_cons, List.map_nil, List.foldl_append,
        List.foldl_cons, List.foldl_nil, ← h.marked]
      exact hpool
    · simp only [hmode, if_true] at hp ⊢
      rw [pending, overlay_insert]
      by_cases heq : h' = input.1.prevout.hash
      · subst heq
        rw [AList.lookup_insert] at hp
        rw [update_self, ← Option.some.inj hp]
      · rw [AList.lookup_insert_ne heq] at hp
        rw [update_of_ne heq]
        exact h.entries h' p hp
    · intro k hk
      rw [List.map_append, List.mem_append, List.map_cons, List.map_nil, List.mem_singleton] at hk
      rcases hk with hk | rfl
      · exact h.free k hk
      · -- A slot that was marked before was free before that; the others are as they were.
        rw [h.marked, Ledger.slot_foldl_mark] at hslot
        by_cases hdone : input.1.slot ∈ done.map CTxIn.slot
        · exact h.free _ hdone
        · rwa [if_neg hdone] at hslot

theorem connectInputs_ofBlock (hmode : mode.OfBlock) {ctx : Context} {env : Env}
    {pindex : Option CBlockIndex} {r : TestPool × List SigCheck} (hcb : tx.IsCoinBase = false)
    (hfetch : Fetched ctx s (pending s queue) inputs tx.vin)
    (h : ConnectInputs ctx env s tx inputs queue pos pindex mode flags = .ok r) :
    pending s r.1 = tx.spentSlots.foldl (Ledger.mark pos) (pending s queue) ∧
      ∀ k ∈ tx.spentSlots, Ledger.slot (pending s queue) k = some CDiskTxPos.null := by
  unfold ConnectInputs at h
  rw [hcb] at h
  obtain ⟨nValueIn, -, h⟩ := bind_ok h
  obtain ⟨acc, hacc, h⟩ := bind_ok h
  obtain ⟨⟨⟩, -, h⟩ := bind_ok h
  cases h
  have hslots : tx.spentSlots = (tx.vin.zipIdx.map Prod.fst).map CTxIn.slot := by
    unfold CTransaction.spentSlots
    rw [hcb, List.zipIdx_map_fst]
    rfl
  have hspent : SpentSo s (pending s queue) pos (tx.vin.zipIdx.map Prod.fst) acc := by
    refine foldlM_ok_induction
      (fun done acc => SpentSo s (pending s queue) pos (done.map Prod.fst) acc)
      ⟨rfl, fun h p hp => (hfetch.entry h p hp).1, by simp⟩ ?_ hacc
    intro done input rest c c' _ hc hstep
    rw [List.map_append]
    exact hc.spendInput hmode hstep
  rw [hslots]
  exact ⟨hspent.marked, hspent.free⟩

variable {env : Env} {pindex : CBlockIndex} {acc : ConnectAcc}

section

variable {ctx : Context} {acc' : ConnectAcc}

theorem connectSpending_eq_ok (h : connectSpending ctx env s pindex pos acc tx = .ok acc') :
    ∃ mapInputs nP2SH nTxValueIn nTxValueOut spent,
      FetchInputs ctx s acc.mapQueuedChanges .block tx = .ok mapInputs ∧
      GetP2SHSigOpCount mapInputs tx = .ok nP2SH ∧
      GetValueIn mapInputs tx = .ok nTxValueIn ∧
      tx.GetValueOut = .ok nTxValueOut ∧
      ConnectInputs ctx env s tx mapInputs acc.mapQueuedChanges pos (some pindex) .block
        SCRIPT_VERIFY_NOCACHE = .ok spent ∧
      acc' = { acc with
        mapQueuedChanges := spent.1
        nValueIn := wrap64 (acc.nValueIn + nTxValueIn)
        nValueOut := wrap64 (acc.nValueOut + nTxValueOut)
        nFees := if tx.IsCoinStake then acc.nFees
          else wrap64 (acc.nFees + wrap64 (nTxValueIn - nTxValueOut))
        nStakeReward :=
          if tx.IsCoinStake then wrap64 (nTxValueOut - nTxValueIn) else acc.nStakeReward
        nSigOps := acc.nSigOps + nP2SH
        sigLog := acc.sigLog ++ spent.2 } := by
  obtain ⟨mapInputs, hfetch, h⟩ := bind_ok h
  obtain ⟨nP2SH, hcnt, h⟩ := bind_ok h
  obtain ⟨⟨⟩, -, h⟩ := bind_ok h
  obtain ⟨nTxValueIn, hin, h⟩ := bind_ok h
  obtain ⟨nTxValueOut, hout, h⟩ := bind_ok h
  obtain ⟨spent, hspent, h⟩ := bind_ok h
  exact ⟨mapInputs, nP2SH, nTxValueIn, nTxValueOut, spent, hfetch, hcnt, hin, hout, hspent,
    (Except.ok.inj h).symm⟩

/-- One step of the loop over the transactions: a coinbase or a spending transaction, and its entry
in the pending changes. -/
theorem connectTransaction_cases {fJustCheck : Bool}
    (h : connectTransaction ctx env s pindex fJustCheck acc tx = .ok acc') :
    ∃ counted summed, counted = { acc with
        nSigOps := acc.nSigOps + GetLegacySigOpCount tx
        nTxPos := if fJustCheck then acc.nTxPos
          else acc.nTxPos + UInt32.ofNat tx.GetSerializeSize } ∧
      (tx.IsCoinBase = true ∧ connectCoinBase counted tx = .ok summed ∨
        tx.IsCoinBase = false ∧ connectSpending ctx env s pindex
          (CDiskTxPos.of pindex.nFile pindex.nBlockPos acc.nTxPos) counted tx = .ok summed) ∧
      acc' = { summed with
        mapQueuedChanges := summed.mapQueuedChanges.insert (ctx.hashTx tx)
          (CTxIndex.new (CDiskTxPos.of pindex.nFile pindex.nBlockPos acc.nTxPos) tx.vout.length) } := by
  obtain ⟨⟨⟩, -, h⟩ := bind_ok h
  obtain ⟨summed, hsum, h⟩ := bind_ok h
  refine ⟨_, summed, rfl, ?_, (Except.ok.inj h).symm⟩
  rcases hcb : tx.IsCoinBase with _ | _
  · rw [hcb, cond_false] at hsum
    exact .inr ⟨rfl, hsum⟩
  · rw [hcb, cond_true] at hsum
    exact .inl ⟨rfl, hsum⟩

end

/-- The pending changes after one step of the loop over the transactions: the transaction is
connected to the ledger, its slots were free, and its position comes from the one reached so
far. -/
theorem connectTransaction_block {ctx : Context} {fJustCheck : Bool} {acc' : ConnectAcc}
    (h : connectTransaction ctx env s pindex fJustCheck acc tx = .ok acc') :
    pending s acc'.mapQueuedChanges
        = Ledger.connect CDiskTxPos.null (pending s acc.mapQueuedChanges)
            (tx.spend ctx (CDiskTxPos.of pindex.nFile pindex.nBlockPos acc.nTxPos)) ∧
      (∀ k ∈ tx.spentSlots, Ledger.slot (pending s acc.mapQueuedChanges) k = some CDiskTxPos.null) ∧
      acc'.nTxPos = if fJustCheck then acc.nTxPos
        else acc.nTxPos + UInt32.ofNat tx.GetSerializeSize := by
  obtain ⟨_, summed, rfl, ⟨hcb, hsum⟩ | ⟨hcb, hsum⟩, rfl⟩ := connectTransaction_cases h
  · unfold connectCoinBase at hsum
    obtain ⟨nTxValueOut, -, hsum⟩ := bind_ok hsum
    cases hsum
    have hnone : tx.spentSlots = [] := by
      unfold CTransaction.spentSlots
      rw [hcb, if_pos rfl]
    refine ⟨?_, by simp [hnone], rfl⟩
    rw [pending, overlay_insert]
    unfold Ledger.connect CTransaction.spend
    rw [hnone]
    rfl
  · obtain ⟨mapInputs, _, _, _, spent, hfetch, -, -, -, hspent, rfl⟩ :=
      connectSpending_eq_ok hsum
    obtain ⟨hmark, hfree⟩ := connectInputs_ofBlock CheckMode.block_ofBlock hcb
      (fetchInputs_ofBlock CheckMode.block_ofBlock hcb hfetch) hspent
    refine ⟨?_, hfree, rfl⟩
    rw [pending, overlay_insert, ← pending, hmark]
    rfl

theorem txPosition_succ (nBlockPos : UInt32) (done : List CTransaction) (tx : CTransaction)
    (rest : List CTransaction) :
    txPosition nBlockPos (done ++ tx :: rest) done.length + UInt32.ofNat tx.GetSerializeSize
      = txPosition nBlockPos (done ++ tx :: rest) (done ++ [tx]).length := by
  unfold txPosition
  have htake : (done ++ tx :: rest).take (done ++ [tx]).length = done ++ [tx] := by
    rw [show done ++ tx :: rest = (done ++ [tx]) ++ rest by simp, List.take_left']
    rfl
  rw [htake, List.take_left', List.map_append, List.sum_append, UInt32.add_assoc,
    ← UInt32.ofNat_add]
  · simp [Nat.add_assoc]
  · rfl

/-- How far the loop over the transactions of a block has come: the position of the next one, and
the ledger that the pending changes make. -/
structure Progress (s : NodeState) (pindex : CBlockIndex)
    (vtx done : List CTransaction) (acc : ConnectAcc) : Prop where
  position : acc.nTxPos = txPosition pindex.nBlockPos vtx done.length
  ledger : pending s acc.mapQueuedChanges
    = (spendsOf ctx (placedAt pindex.nFile pindex.nBlockPos vtx done)).foldl
        (Ledger.connect CDiskTxPos.null) s.txdb.txIndex

structure Connecting (s : NodeState) (pindex : CBlockIndex)
    (vtx done : List CTransaction) (acc : ConnectAcc) : Prop
    extends Progress ctx s pindex vtx done acc where
  connects : Ledger.Connects CDiskTxPos.null s.txdb.txIndex
    (spendsOf ctx (placedAt pindex.nFile pindex.nBlockPos vtx done))

variable {ctx : Context} {block : CBlock}

theorem progress_start :
    Progress ctx s pindex block.vtx [] (ConnectAcc.start block pindex false) :=
  ⟨rfl, overlay_empty _⟩

variable {done : List CTransaction}

theorem Progress.spendsOf_concat {vtx : List CTransaction} (h : Progress ctx s pindex vtx done acc)
    (tx : CTransaction) :
    spendsOf ctx (placedAt pindex.nFile pindex.nBlockPos vtx (done ++ [tx]))
      = spendsOf ctx (placedAt pindex.nFile pindex.nBlockPos vtx done)
        ++ [tx.spend ctx (CDiskTxPos.of pindex.nFile pindex.nBlockPos acc.nTxPos)] := by
  rw [placedAt_concat, spendsOf_append, ← h.position]
  rfl

theorem Progress.step {rest : List CTransaction} {tx : CTransaction} {acc acc' : ConnectAcc}
    (h : Progress ctx s pindex block.vtx done acc) (hvtx : block.vtx = done ++ tx :: rest)
    (hstep : connectTransaction ctx env s pindex false acc tx = .ok acc') :
    Progress ctx s pindex block.vtx (done ++ [tx]) acc' := by
  obtain ⟨hled, -, hnext⟩ := connectTransaction_block hstep
  constructor
  · rw [hnext, if_neg Bool.false_ne_true, h.position, hvtx]
    exact txPosition_succ ..
  · rw [hled, h.spendsOf_concat tx, List.foldl_append, h.ledger]
    rfl

theorem Connecting.step {rest : List CTransaction} {tx : CTransaction} {acc acc' : ConnectAcc}
    (h : Connecting ctx s pindex block.vtx done acc) (hvtx : block.vtx = done ++ tx :: rest)
    (hprevs : (tx.vin.map CTxIn.prevout).Nodup) (hids : (block.vtx.map ctx.hashTx).Nodup)
    (hfresh : s.txdb.txIndex (ctx.hashTx tx) = none)
    (hstep : connectTransaction ctx env s pindex false acc tx = .ok acc') :
    Connecting ctx s pindex block.vtx (done ++ [tx]) acc' := by
  refine ⟨h.toProgress.step hvtx hstep, ?_⟩
  rw [h.spendsOf_concat tx, Ledger.connects_append]
  refine ⟨h.connects, ⟨?_, ?_, nodup_spentSlots hprevs⟩, trivial⟩
  · rw [Ledger.foldl_connect_eq_none]
    refine ⟨hfresh, fun t ht => ?_⟩
    obtain ⟨p, hp, rfl⟩ := List.mem_map.mp ht
    intro heq
    rw [hvtx, List.map_append, List.nodup_append] at hids
    exact hids.2.2 _ (List.mem_map_of_mem (mem_of_mem_placedAt hp)) _
      (List.mem_map_of_mem List.mem_cons_self) heq
  · rw [← h.ledger]
    exact (connectTransaction_block hstep).2.1

theorem connectTransactions_ledger (h : connectTransactions ctx env s block pindex false = .ok acc)
    (hprevs : ∀ tx ∈ block.vtx, (tx.vin.map CTxIn.prevout).Nodup)
    (hids : (block.vtx.map ctx.hashTx).Nodup)
    (hfresh : ∀ tx ∈ block.vtx, s.txdb.txIndex (ctx.hashTx tx) = none) :
    Connecting ctx s pindex block.vtx block.vtx acc := by
  refine foldlM_ok_induction (fun done acc => Connecting ctx s pindex block.vtx done acc)
    ⟨progress_start, trivial⟩ ?_ h
  intro done tx rest c c' hvtx hc hstep
  have htx : tx ∈ block.vtx := by simp [hvtx]
  exact hc.step hvtx (hprevs tx htx) hids (hfresh tx htx) hstep

end ZalemCoin.Chain
