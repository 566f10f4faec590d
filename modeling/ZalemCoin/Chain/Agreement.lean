import ZalemCoin.Chain.Conservation
import ZalemCoin.Chain.ReorganizeDepth
import ZalemCoin.Floatingcity.BlockHashes

/-!
# Two nodes with the same best block

A block keeps its past for good: what a node does later adds blocks to its index, and moves none
(`reaches_ancestors`). Every node stores the blocks where it has room for them, and gets them in an order of
its own. The positions that a transaction index records are those of one node. Which outputs are unspent is
not: it follows from the best block (`reaches_unspent_agree`), whatever reorganisations have led to it.
-/

namespace ZalemCoin.Chain

open Lib

/-! ## The past of a block -/

variable {ctx : Context} {s s' : NodeState} {genesis p : UInt256}

section

variable {allowed : NodeState → Call → Prop}

/-- In a reached state the blocks are a tree over the genesis block. -/
theorem Reaches.rooted (h : Reaches ctx allowed s) :
    BlockTree s ctx.hashGenesisBlock ∧ s.mapBlockIndex ctx.hashGenesisBlock ≠ none := by
  induction h with
  | start h => exact h.rooted
  | step _ hvalid hallow hrun hret ih =>
    exact Floatingcity.callStep_blockTree ⟨_, _, hvalid, hallow, hrun, hret⟩ ih.1 ih.2

theorem CallStep.isAncestor_iff (h : CallStep ctx allowed s s') (htree : BlockTree s genesis)
    (hp : s.mapBlockIndex p ≠ none) (q : UInt256) :
    IsAncestor s'.parent q p ↔ IsAncestor s.parent q p := by
  rcases Floatingcity.callStep_places h with hsame | ⟨s₁, _, _, block, i, hindexed, hplace, -⟩
  · rw [hsame.parent_eq]
  · rw [hplace.parent_eq]
    exact hindexed.isAncestor_iff htree.known hp

/-- In every state that is reached, whatever the steps come to, the genesis block is an ancestor of every
block of the index, and every block has one ancestor at each height up to its own. In all later states the
block is in the index, at the same height and with the same ancestors. -/
theorem reaches_ancestors (h : Reaches ctx allowed s) (hp : s.mapBlockIndex p ≠ none) :
    IsAncestor s.parent ctx.hashGenesisBlock p ∧
      (∀ n ≤ s.height p, ∃! a, IsAncestor s.parent a p ∧ s.height a = n) ∧
      ∀ s', Relation.ReflTransGen (CallStep ctx allowed) s s' → s'.mapBlockIndex p ≠ none ∧
        s'.height p = s.height p ∧ ∀ q, IsAncestor s'.parent q p ↔ IsAncestor s.parent q p := by
  obtain ⟨htree, hgenesis⟩ := h.rooted
  refine ⟨htree.genesis_isAncestor hp, fun n hn => ?_, fun s' hrun => ?_⟩
  · obtain ⟨a, ha, hheight⟩ := htree.exists_ancestor hp hn
    refine ⟨a, ⟨ha, hheight⟩, fun b hb => ?_⟩
    exact hb.1.eq_of_height_eq htree.heights ha (hb.2.trans hheight.symm)
  · suffices H : (BlockTree s' ctx.hashGenesisBlock ∧ s'.mapBlockIndex ctx.hashGenesisBlock ≠ none) ∧
        s'.mapBlockIndex p ≠ none ∧ s'.height p = s.height p ∧
          ∀ q, IsAncestor s'.parent q p ↔ IsAncestor s.parent q p from H.2
    induction hrun with
    | refl => exact ⟨⟨htree, hgenesis⟩, hp, rfl, fun _ => Iff.rfl⟩
    | tail _ hstep ih =>
      obtain ⟨⟨htree', hgenesis'⟩, hp', hheight, hiff⟩ := ih
      obtain ⟨hknown, hsame⟩ := Floatingcity.callStep_height hstep hp'
      exact ⟨Floatingcity.callStep_blockTree hstep htree' hgenesis', hknown, hsame.trans hheight,
        fun q => (hstep.isAncestor_iff htree' hp' q).trans (hiff q)⟩

/-- The step after which the globals of a node name a block that its database does not name leaves the
past of the third block as it was. -/
theorem overpaidNode_ancestors :
    (overpaidNode 4).height 3 = (overpaidNode 3).height 3 ∧
      ∀ q, IsAncestor (overpaidNode 4).parent q 3 ↔ IsAncestor (overpaidNode 3).parent q 3 :=
  ((reaches_ancestors overpaidNode_reaches_any (by decide +kernel)).2.2 _
    (Relation.ReflTransGen.single ⟨overpaidCall 3, .ok (), overpaidCall_valid 3 (by decide), trivial,
      Action.eq_of_fst (by decide +kernel), by simp [Returns]⟩)).2

end

/-! ## Unspent outputs -/

/-- Two nodes of one network: they compute the same hashes and start from the same genesis block, and
among the blocks that they store there are no two with one hash. -/
structure SameBlocks (ctx ctx' : Context) : Prop where
  hashTx : ctx.hashTx = ctx'.hashTx
  genesis : ctx.hashGenesisBlock = ctx'.hashGenesisBlock
  blocks : ∀ {nFile nBlockPos nFile' nBlockPos' block block'},
    ctx.files.block nFile nBlockPos = some block → ctx'.files.block nFile' nBlockPos' = some block' →
      ctx.GetHash block = ctx'.GetHash block' → block = block'

variable {ctx' : Context} {path path' : List UInt256}

theorem BlockTree.not_recorded (h : BlockTree s genesis) {q : UInt256} {i j : CBlockIndex} :
    ¬BlockRecorded ctx s genesis q path i j := by
  intro hrec
  have hheight := h.heights _ _ ((parent_eq hrec.entry).trans hrec.parent)
  rw [h.low] at hheight
  omega

/-- Connected blocks with the same last block have the same transactions, block by block down to the
genesis block. -/
theorem Chained.sameTxs (hsame : SameBlocks ctx ctx') (htree : BlockTree s genesis)
    (htree' : BlockTree s' genesis) (hidx : IndexOk ctx s) (hidx' : IndexOk ctx' s')
    (h : Chained ctx s (p :: path)) (h' : Chained ctx' s' (p :: path')) :
    (connectedTxs ctx s (p :: path)).map Prod.snd
      = (connectedTxs ctx' s' (p :: path')).map Prod.snd := by
  induction path generalizing p path' with
  | nil =>
    cases h with
    | genesis hent hroot _ =>
      obtain rfl := htree.root p (by simp [hent]) ((parent_eq hent).trans hroot)
      cases h' with
      | genesis _ _ _ => rfl
      | block hrec _ => exact absurd hrec htree'.not_recorded
  | cons q path ih =>
    cases h with
    | block hrec hrest =>
      cases h' with
      | genesis hent hroot _ =>
        obtain rfl := htree'.root p (by simp [hent]) ((parent_eq hent).trans hroot)
        exact absurd hrec htree.not_recorded
      | block hrec' hrest' =>
        -- the hash names one block for both nodes, and the block names the one before it
        obtain ⟨block, hstor, hhash, hprev⟩ := hidx.stored p _ hrec.entry
        obtain ⟨block', hstor', hhash', hprev'⟩ := hidx'.stored p _ hrec'.entry
        obtain rfl := hsame.blocks hstor hstor' (hhash.trans hhash'.symm)
        obtain rfl := (hprev _ hrec.parent).trans (hprev' _ hrec'.parent).symm
        rw [connectedTxs, connectedTxs, List.map_append, List.map_append, ih hrest hrest',
          txsOf_eq hrec.entry hstor, txsOf_eq hrec'.entry hstor',
          map_snd_placedTransactions, map_snd_placedTransactions]

/-- An output is unspent when a connected transaction creates it and none spends it. -/
theorem Connected.unspent_iff (h : Connected ctx s p path) (k : UInt256 × ℕ) :
    Ledger.slot s.txdb.txIndex k = some CDiskTxPos.null ↔
      (∃ tx ∈ (connectedTxs ctx s (p :: path)).map Prod.snd,
        k.1 = ctx.hashTx tx ∧ k.2 < tx.vout.length) ∧
      ∀ tx ∈ (connectedTxs ctx s (p :: path)).map Prod.snd, k ∉ tx.spentSlots := by
  rw [h.ledger, h.chained.recorded.slot_eq_free_iff h.chained.wellPlaced.pos_ne_null]
  have hout : ∀ t : CDiskTxPos × CTransaction, k ∈ (t.2.spend ctx t.1).outputs ↔
      k.1 = ctx.hashTx t.2 ∧ k.2 < t.2.vout.length := by
    simp [Spend.outputs, CTransaction.spend, Prod.ext_iff, and_comm, eq_comm]
  simp only [spendsOf, List.mem_map, exists_exists_and_eq_and, forall_exists_index, and_imp,
    forall_apply_eq_imp_iff₂, hout]
  rfl

/-- In all states that two nodes reach by steps that complete, the same best block comes with the same
unspent outputs. -/
theorem reaches_unspent_agree (hsame : SameBlocks ctx ctx')
    (h : Reaches ctx (fun s call => call.Completes ctx s) s)
    (h' : Reaches ctx' (fun s call => call.Completes ctx' s) s')
    (hbest : s.hashBestChain = s'.hashBestChain) (k : UInt256 × ℕ) :
    Ledger.slot s.txdb.txIndex k = some CDiskTxPos.null ↔
      Ledger.slot s'.txdb.txIndex k = some CDiskTxPos.null := by
  obtain ⟨tip, above, hchain, htip⟩ := h.chainAt
  obtain ⟨tip', above', hchain', htip'⟩ := h'.chainAt
  obtain rfl := htip.hashBestChain.symm.trans (hbest.trans htip'.hashBestChain)
  have htree' := h'.rooted.1
  rw [← hsame.genesis] at htree'
  rw [hchain.unspent_iff, hchain'.unspent_iff, ← hsame.hashTx, hchain.chained.sameTxs hsame h.rooted.1
    htree' hchain.index hchain'.index hchain'.chained]

theorem switchedContext_stored {mirrored : Bool} {nFile nBlockPos : UInt32} {block : CBlock}
    (h : (switchedContext mirrored).files.block nFile nBlockPos = some block) :
    block ∈ [switchedBlock 1, switchedBlock 2, switchedBlock 3, switchedBlock 4] := by
  change (if nFile = 0 ∨ _ then none else if _ then _ else none) = _ at h
  split_ifs at h with hclosed hfile
  cases h
  rcases hfile with rfl | rfl | rfl | rfl <;> cases mirrored <;> decide

/-- Two nodes that store the blocks in opposite orders and get them in different ones, and of which only
the first has connected the second block, hold the same outputs for unspent, each at its own position. -/
theorem switchedNodes_agree :
    (Ledger.slot (switchedNode true [2, 4, 3]).txdb.txIndex (40, 0) = some CDiskTxPos.null ∧
      Ledger.slot (switchedNode true [2, 4, 3]).txdb.txIndex (20, 0) ≠ some CDiskTxPos.null) ∧
      (switchedNode true [2, 4, 3]).txdb.txIndex 40 ≠ (switchedNode false [4, 3, 2]).txdb.txIndex 40 := by
  have hsame : SameBlocks (switchedContext false) (switchedContext true) := by
    refine ⟨rfl, rfl, fun {_ _ _ _ block block'} h h' heq => ?_⟩
    have hids : ∀ block ∈ [switchedBlock 1, switchedBlock 2, switchedBlock 3, switchedBlock 4], ∀ block' ∈
        [switchedBlock 1, switchedBlock 2, switchedBlock 3, switchedBlock 4],
        (switchedContext false).GetHash block = (switchedContext false).GetHash block' → block = block' := by
      decide +kernel
    exact hids block (switchedContext_stored h) block' (switchedContext_stored h') heq
  have hagree := reaches_unspent_agree hsame switchedNode_reaches.1 switchedNode_reaches.2
    (by decide +kernel)
  exact ⟨⟨(hagree (40, 0)).mp (by decide +kernel),
    fun hfree => absurd ((hagree (20, 0)).mpr hfree) (by decide +kernel)⟩, by decide +kernel⟩

end ZalemCoin.Chain
