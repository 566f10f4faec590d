import ZalemCoin.Chain.ConnectSpec
import ZalemCoin.Chain.PlainContext

/-!
# Disconnecting a block undoes connecting it

`DisconnectBlock` frees the outputs that each transaction spends and removes its entry, in reverse
order. On the ledger this is what undoes a connection, also when later transactions of the block
spend outputs of earlier ones.
-/

namespace ZalemCoin.Chain

open Lib

variable {s s' : NodeState} {ctx : Context}

variable {txin : CTxIn} {vin : List CTxIn} {tx : CTransaction}
  {placed : List (CDiskTxPos × CTransaction)}

theorem disconnectInput_eq_ok (h : disconnectInput txin s = (.ok (), s')) :
    s'.txdb.txIndex = Ledger.mark CDiskTxPos.null s.txdb.txIndex txin.slot := by
  obtain ⟨txindex, hread, hwrite⟩ := Action.reading_bind_eq_ok.mp h
  cases hwrite
  rw [readTxIndex_eq] at hread
  rcases hL : s.txdb.txIndex txin.prevout.hash with _ | e
  · rw [hL] at hread
    simp at hread
  · rw [hL] at hread
    obtain ⟨⟨⟩, -, hread⟩ := bind_ok hread
    cases hread
    rw [txIndex_updateTxIndex]
    exact (mark_eq_update hL _ _).symm

theorem exists_disconnectInput (h : Ledger.slot s.txdb.txIndex txin.slot ≠ none) :
    ∃ s', disconnectInput txin s = (.ok (), s') := by
  unfold Ledger.slot CTxIn.slot at h
  rcases hL : s.txdb.txIndex txin.prevout.hash with _ | e
  · rw [hL] at h
    exact absurd rfl h
  · rw [hL] at h
    have hlen : txin.prevout.n.toNat < e.slots.length := by
      by_contra hn
      exact h (List.getElem?_eq_none (Nat.le_of_not_lt hn))
    unfold disconnectInput
    rw [Action.bind_apply, Action.reading_apply, readTxIndex_eq, hL]
    simp only [ensure, hlen, if_true]
    exact ⟨_, rfl⟩

theorem forM_disconnectInput_eq_ok (h : vin.forM disconnectInput s = (.ok (), s')) :
    s'.txdb.txIndex
      = (vin.map CTxIn.slot).foldl (Ledger.mark CDiskTxPos.null) s.txdb.txIndex := by
  induction vin generalizing s with
  | nil =>
    cases h
    rfl
  | cons txin vin ih =>
    obtain ⟨t, ht, h⟩ := Action.forM_cons_eq_ok.mp h
    rw [ih h, disconnectInput_eq_ok ht]
    rfl

theorem exists_forM_disconnectInput (h : ∀ txin ∈ vin, Ledger.slot s.txdb.txIndex txin.slot ≠ none) :
    ∃ s', vin.forM disconnectInput s = (.ok (), s') := by
  induction vin generalizing s with
  | nil => exact ⟨s, rfl⟩
  | cons txin vin ih =>
    obtain ⟨t, ht⟩ := exists_disconnectInput (h txin List.mem_cons_self)
    have hkeep : ∀ txin' ∈ vin, Ledger.slot t.txdb.txIndex txin'.slot ≠ none := by
      intro txin' htxin'
      rw [disconnectInput_eq_ok ht, Ledger.slot_mark]
      have hslot := h txin' (List.mem_cons_of_mem _ htxin')
      split
      · simpa using hslot
      · exact hslot
    obtain ⟨s', hs'⟩ := ih hkeep
    exact ⟨s', Action.forM_cons_eq_ok.mpr ⟨t, ht, hs'⟩⟩

theorem disconnectInputs_eq_ok (pos : CDiskTxPos) (h : DisconnectInputs ctx tx s = (.ok (), s')) :
    s'.txdb.txIndex
      = Ledger.disconnect CDiskTxPos.null s.txdb.txIndex (tx.spend ctx pos) := by
  obtain ⟨⟨⟩, t, hrelease, herase⟩ := Action.bind_eq_ok.mp h
  cases herase
  rw [txIndex_eraseTxIndex]
  unfold Ledger.disconnect
  have ht : t.txdb.txIndex
      = tx.spentSlots.foldl (Ledger.mark CDiskTxPos.null) s.txdb.txIndex := by
    unfold releaseInputs at hrelease
    unfold CTransaction.spentSlots
    split at hrelease
    · rename_i hcb
      cases hrelease
      rw [if_pos hcb]
      rfl
    · rename_i hcb
      rw [if_neg hcb]
      exact forM_disconnectInput_eq_ok hrelease
  rw [ht]
  rfl

theorem exists_disconnectInputs (h : ∀ k ∈ tx.spentSlots, Ledger.slot s.txdb.txIndex k ≠ none) :
    ∃ s', DisconnectInputs ctx tx s = (.ok (), s') := by
  have hrelease : ∃ t, releaseInputs tx s = (.ok (), t) := by
    unfold CTransaction.spentSlots at h
    unfold releaseInputs
    split
    · exact ⟨s, rfl⟩
    · rename_i hcb
      rw [if_neg hcb] at h
      exact exists_forM_disconnectInput fun txin htxin =>
        h txin.slot (List.mem_map_of_mem htxin)
  obtain ⟨t, ht⟩ := hrelease
  unfold DisconnectInputs
  rw [Action.bind_of_ok ht]
  exact ⟨_, rfl⟩

theorem forM_disconnectInputs_eq_ok
    (h : (placed.map Prod.snd).forM (DisconnectInputs ctx) s = (.ok (), s')) :
    s'.txdb.txIndex = (spendsOf ctx placed).foldl
      (Ledger.disconnect CDiskTxPos.null) s.txdb.txIndex := by
  induction placed generalizing s with
  | nil =>
    cases h
    rfl
  | cons p placed ih =>
    obtain ⟨t, ht, h⟩ := Action.forM_cons_eq_ok.mp h
    rw [ih h, disconnectInputs_eq_ok p.1 ht]
    rfl

theorem exists_forM_disconnectInputs {L : Ledger UInt256 CDiskTxPos}
    (hconn : Ledger.Connects CDiskTxPos.null L (spendsOf ctx placed))
    (hs : s.txdb.txIndex = (spendsOf ctx placed).foldl (Ledger.connect CDiskTxPos.null) L) :
    ∃ s', (placed.map Prod.snd).reverse.forM (DisconnectInputs ctx) s = (.ok (), s') := by
  induction placed using List.reverseRecOn generalizing s with
  | nil => exact ⟨s, rfl⟩
  | append_singleton placed p ih =>
    rw [spendsOf_append, Ledger.connects_append] at hconn
    obtain ⟨hconn, henabled, -⟩ := hconn
    rw [spendsOf_append, List.foldl_append] at hs
    -- The last transaction's inputs are in the ledger that it was connected to.
    have hslots : ∀ k ∈ p.2.spentSlots, Ledger.slot s.txdb.txIndex k ≠ none := by
      intro k hk
      rw [hs]
      change Ledger.slot (Ledger.connect CDiskTxPos.null _ (p.2.spend ctx p.1)) k ≠ none
      have hin : k ∈ (p.2.spend ctx p.1).inputs := hk
      rw [Ledger.slot_connect, if_neg (henabled.ne_id hk), if_pos hin, henabled.unspent k hk]
      simp
    obtain ⟨t, ht⟩ := exists_disconnectInputs hslots
    have hundo : t.txdb.txIndex = (spendsOf ctx placed).foldl
        (Ledger.connect CDiskTxPos.null) L := by
      rw [disconnectInputs_eq_ok p.1 ht, hs]
      exact Ledger.disconnect_connect henabled
    obtain ⟨s', hs'⟩ := ih hconn hundo
    refine ⟨s', ?_⟩
    rw [List.map_append, List.reverse_append]
    exact Action.forM_cons_eq_ok.mpr ⟨t, ht, hs'⟩

theorem disconnectBlock_eq_ok {block : CBlock} {pindex : UInt256} (nFile nBlockPos : UInt32)
    (h : DisconnectBlock ctx block pindex s = (.ok (), s')) :
    s'.txdb.txIndex = (blockSpends ctx nFile nBlockPos block.vtx).reverse.foldl
      (Ledger.disconnect CDiskTxPos.null) s.txdb.txIndex := by
  obtain ⟨⟨⟩, t, hdisc, h⟩ := Action.bind_eq_ok.mp h
  obtain ⟨i, -, hlink⟩ := Action.reading_bind_eq_ok.mp h
  have hled := (keepsIndex_writePrevLink ctx i.pprev 0).of_eq hlink
  rw [hled, blockSpends, spendsOf, ← List.map_reverse]
  refine forM_disconnectInputs_eq_ok ?_
  rw [List.map_reverse, map_snd_placedTransactions]
  exact hdisc

theorem view_writeBlockIndex_self (ctx : Context) (txdb : CTxDB) (blockindex : CDiskBlockIndex) :
    (txdb.WriteBlockIndex ctx blockindex).view (.blockindex (ctx.hashHeader blockindex.header))
      = some blockindex := by
  unfold CTxDB.WriteBlockIndex
  rw [Store.view_write, Function.update_self]

/-- Disconnecting a block that has just been connected succeeds and gives back the transaction
index, with every entry and every slot; and it writes the previous block's entry to the database
with no link to a next block. -/
theorem disconnectBlock_connectBlock {ctx : Context} {env : Env} {block : CBlock}
    {pindex : UInt256} {s s' : NodeState} {log : List SigCheck}
    (hconnect : ConnectBlock ctx env block pindex false s = (.ok log, s'))
    (hfresh : ∀ tx ∈ block.vtx, s.txdb.txIndex (ctx.hashTx tx) = none) :
    ∃ s'', DisconnectBlock ctx block pindex s' = (.ok (), s'') ∧
      s''.txdb.txIndex = s.txdb.txIndex ∧
      ∀ i, s'.mapBlockIndex pindex = some i → ∀ p, i.pprev = some p →
        ∃ prev, s'.mapBlockIndex p = some prev ∧
          let blockindexPrev := { CDiskBlockIndex.of prev with hashNext := 0 }
          s''.txdb.view (.blockindex (ctx.hashHeader blockindexPrev.header))
            = some blockindexPrev := by
  obtain ⟨s₁, i, prevSupply, acc, hconnected, -⟩ := connectBlock_eq_ok hconnect
  obtain ⟨hledger, hconn⟩ := hconnected.connects hfresh
  obtain ⟨t, ht⟩ := exists_forM_disconnectInputs hconn hledger
  rw [map_snd_placedTransactions] at ht
  -- The disconnection of the transactions leaves the block index alone.
  have hindex : t.mapBlockIndex = s'.mapBlockIndex := by
    have hkeep : KeepsPart NodeState.mapBlockIndex (block.vtx.reverse.forM (DisconnectInputs ctx)) :=
      KeepsPart.forM fun tx _ => KeepsPart.bind
        (KeepsPart.ite (KeepsPart.pure _) (KeepsPart.forM fun txin _ =>
          KeepsPart.bind (KeepsPart.reading _) fun _ => KeepsPart.modify fun _ => rfl))
        fun _ => KeepsPart.modify fun _ => rfl
    exact hkeep.of_eq ht
  set j := withSupply i prevSupply acc with hj
  have hentry : s'.mapBlockIndex pindex = some j := by
    rw [hconnected.recorded, Function.update_self]
  have hrest : DisconnectBlock ctx block pindex s' = writePrevLink ctx j.pprev 0 t := by
    unfold DisconnectBlock
    rw [Action.bind_of_ok ht]
    have hread : t.index (some pindex) = .ok j := index_eq_ok.mpr (by rw [hindex, hentry])
    rw [Action.bind_of_ok (by rw [Action.reading_apply, hread])]
  have hpprev : j.pprev = i.pprev := rfl
  rcases hprev : i.pprev with _ | p
  · have hstop : DisconnectBlock ctx block pindex s' = (.ok (), t) := by
      rw [hrest, hpprev, hprev]
      rfl
    refine ⟨t, hstop, ?_, fun i' hi' p hp => ?_⟩
    · rw [disconnectBlock_eq_ok i.nFile i.nBlockPos hstop, blockSpends, hledger]
      exact Ledger.foldl_disconnect_foldl_connect hconn
    · rw [hentry] at hi'
      cases hi'
      rw [hpprev, hprev] at hp
      simp at hp
  · -- The previous block has an entry, since its supply has been read.
    have hmap : ∃ prev, s'.mapBlockIndex p = some prev := by
      have hsupply := hconnected.supply
      unfold prevMoneySupply at hsupply
      rw [hprev] at hsupply
      obtain ⟨prev, hread, -⟩ := bind_ok hsupply
      rw [index_eq_ok, mapBlockIndex_of_core hconnected.core] at hread
      rw [hconnected.recorded]
      by_cases heq : p = pindex
      · subst heq
        exact ⟨_, Function.update_self ..⟩
      · exact ⟨prev, by rw [Function.update_of_ne heq, hread]⟩
    obtain ⟨prev, hmap⟩ := hmap
    have hlink := writePrevLink_some ctx (hindex ▸ hmap : t.mapBlockIndex p = some prev) 0
    rw [← hprev, ← hpprev, ← hrest] at hlink
    refine ⟨_, hlink, ?_, fun i' hi' p' hp' => ?_⟩
    · rw [disconnectBlock_eq_ok i.nFile i.nBlockPos hlink, blockSpends, hledger]
      exact Ledger.foldl_disconnect_foldl_connect hconn
    · rw [hentry] at hi'
      cases hi'
      rw [hpprev, hprev] at hp'
      cases hp'
      exact ⟨prev, hmap, view_writeBlockIndex_self ctx t.txdb _⟩

/-- The chained block connects there, and disconnecting it gives back the transaction index. -/
theorem chainedBlock_undone :
    ∃ s'', DisconnectBlock (chainedContext true) chainedBlock 2
        (ConnectBlock (chainedContext true) (plainEnv 1000) chainedBlock 2 false chainedNode).2
        = (.ok (), s'') ∧ s''.txdb.txIndex = chainedNode.txdb.txIndex := by
  have hconnect : ConnectBlock (chainedContext true) (plainEnv 1000) chainedBlock 2 false
      chainedNode = (.ok [], (ConnectBlock (chainedContext true) (plainEnv 1000) chainedBlock 2
        false chainedNode).2) := Prod.ext (by decide) rfl
  obtain ⟨s'', hs'', hindex, -⟩ := disconnectBlock_connectBlock hconnect (by decide)
  exact ⟨s'', hs'', hindex⟩

end ZalemCoin.Chain
