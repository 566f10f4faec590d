import ZalemCoin.Chain.ChainCalls

/-!
# Runs of the best chain

A node starts with the genesis block, and from then on adds blocks to its index and moves to better
chains. The globals, the database and the links agree in every state that it reaches, as long as
the blocks that a switch postpones connect: when one of them does not, `SetBestChain` still sets the
globals to the block that it was asked for.
-/

namespace ZalemCoin.Chain

open Lib

structure Fresh (s : NodeState) : Prop where
  index : s.mapBlockIndex = fun _ => none
  genesis : s.pindexGenesisBlock = none
  closed : s.txdb.activeBatch = none
  empty : ∀ hash, s.txdb.disk (.tx hash) = none

variable (ctx : Context)

structure Initialised (s : NodeState) : Prop where
  initialised : ∃ s₀ env nFile nBlockPos hashProof genesis, Fresh s₀ ∧
    ctx.GetHash genesis = ctx.hashGenesisBlock ∧
    ctx.files.block nFile nBlockPos = some genesis ∧
    AddToBlockIndex ctx env nFile nBlockPos hashProof genesis s₀ = (.ok (), s)
  started : s.pindexGenesisBlock ≠ none

/-- A step of a run: a call of one of the two functions, or anything that does not touch the
chain. -/
inductive Call where
  | addToBlockIndex (env : Env) (nFile nBlockPos : UInt32) (hashProof : UInt256) (block : CBlock)
  | setBestChain (env : Env) (block : CBlock) (pindexNew : UInt256)
  | elsewhere (s' : NodeState)

/-- What a step does. -/
def Call.run : Call → NodeM Unit
  | addToBlockIndex env nFile nBlockPos hashProof block =>
    AddToBlockIndex ctx env nFile nBlockPos hashProof block
  | setBestChain env block pindexNew => SetBestChain ctx env block pindexNew
  | elsewhere s' => Action.modify fun _ => s'

/-- What the callers of the two functions see to: a block is on the disk when it is added, and the
node has the block before it; the best chain is set to a block of the index. The genesis block names
zero as the block before it, and is not built on the best block. -/
def Call.Valid (s : NodeState) : Call → Prop
  | addToBlockIndex _ nFile nBlockPos _ block =>
    ctx.files.block nFile nBlockPos = some block ∧ s.mapBlockIndex block.hashPrevBlock ≠ none
  | setBestChain _ block pindexNew =>
    ∃ i, s.mapBlockIndex pindexNew = some i ∧
      ctx.files.block i.nFile i.nBlockPos = some block ∧ ctx.GetHash block = pindexNew ∧
      (i.pprev = none → block.hashPrevBlock ≠ s.hashBestChain)
  | elsewhere s' => s'.chainPart = s.chainPart

def NoRepeatedIds (s : NodeState) (nFile nBlockPos : UInt32) (block : CBlock) :
    Prop :=
  ∀ path, Branch s.parent block.hashPrevBlock path →
    DistinctIds ctx (connectedTxs ctx s path ++ placedTransactions nFile nBlockPos block.vtx)

/-- A step in which the chain of a new block repeats no identifier, and in which all blocks that a
switch postpones connect. -/
def Call.Completes (s : NodeState) : Call → Prop
  | addToBlockIndex env nFile nBlockPos hashProof block =>
    NoRepeatedIds ctx s nFile nBlockPos block ∧
      ∀ i s₁, indexBlock ctx nFile nBlockPos hashProof block s = (.ok i, s₁) →
        s₁.nBestChainTrust < i.nChainTrust → MoveCompletes ctx env block (ctx.GetHash block) s₁
  | setBestChain env block pindexNew => MoveCompletes ctx env block pindexNew s
  | elsewhere _ => True

inductive Reaches (ctx : Context) (allowed : NodeState → Call → Prop) : NodeState → Prop
  | start {s : NodeState} (h : Initialised ctx s) : Reaches ctx allowed s
  | step {s s' : NodeState} {call : Call} {r : Except Failure Unit} (h : Reaches ctx allowed s)
      (hvalid : call.Valid ctx s) (hallowed : allowed s call) (hrun : call.run ctx s = (r, s'))
      (hret : Returns r) : Reaches ctx allowed s'

/-- The globals, the database and the links agree on a best block and its branch. -/
structure ConsistentAt (s : NodeState) (tip : UInt256) (path : List UInt256) :
    Prop where
  branch : Branch s.parent tip path
  pindexBest : s.pindexBest = some tip
  hashBestChain : s.hashBestChain = tip
  stored : s.txdb.disk .hashBestChain = some tip
  nBestHeight : ∃ i, s.mapBlockIndex tip = some i ∧ s.nBestHeight = i.nHeight
  /-- The transaction index is the result of connecting the blocks after the genesis block. -/
  txIndex : s.txdb.txIndex
    = Ledger.ledgerOf CDiskTxPos.null (spendsOf ctx (connectedTxs ctx s path))
  mainChain : ∀ p, s.IsInMainChain p = true ↔ IsAncestor s.parent p tip

/-- The globals, the database and the links agree. -/
def Consistent (s : NodeState) : Prop := ∃ tip path, ConsistentAt ctx s tip path

section

variable {ctx : Context} {s s' : NodeState} {tip : UInt256} {above : List UInt256}

theorem ChainAt.consistent (hchain : ChainAt ctx s tip above) (hbest : BestIs s tip) :
    ConsistentAt ctx s tip (tip :: above) := by
  have hbr := hchain.chained.branch
  obtain ⟨i, hi⟩ := hchain.chained.exists_entry hbr.self_mem
  refine ⟨hbr, hbest.pindexBest, hbest.hashBestChain, ?_, ⟨i, hi, ?_⟩, hchain.ledger, ?_⟩
  · have hstor := hchain.best
    rwa [Store.view_of_closed hchain.closed] at hstor
  · rw [hbest.nBestHeight, height_eq hi]
  · intro p
    rw [← hbr.mem_iff, List.mem_cons]
    unfold NodeState.IsInMainChain
    rcases hp : s.mapBlockIndex p with _ | j
    · -- A block without an entry is on no branch.
      refine iff_of_false (by simp) fun hmem => ?_
      obtain ⟨j, hj⟩ := hchain.chained.exists_entry (List.mem_cons.mpr hmem)
      exact absurd (hp.symm.trans hj) (by simp)
    · have hlink := hchain.links p j hp
      rw [hbest.pindexBest]
      simp only [Bool.or_eq_true, hlink, beq_iff_eq, Option.some.injEq]
      constructor
      · rintro (hmem | rfl)
        · exact .inr hmem
        · exact .inl rfl
      · rintro (rfl | hmem)
        · exact .inr rfl
        · exact .inl hmem

variable {nFile nBlockPos : UInt32} {block : CBlock} {r : Except Failure Unit}

theorem Indexed.indexOk_genesis {i : CBlockIndex} (h : Indexed ctx s s' nFile nBlockPos block i)
    (hemp : s.mapBlockIndex = fun _ => none)
    (hstor : ctx.files.block nFile nBlockPos = some block) :
    IndexOk ctx s' ∧ i.pprev = none ∧ Linked s' (· ∈ ([] : List UInt256)) := by
  have hroot : i.pprev = none := by rw [h.parent, hemp]; rfl
  have hent : ∀ p j, s'.mapBlockIndex p = some j → p = ctx.GetHash block ∧ j = i := by
    intro p j hj
    by_cases hp : p = ctx.GetHash block
    · rw [hp, h.entry_self] at hj
      exact ⟨hp, (Option.some.inj hj).symm⟩
    · rw [h.entry_of_ne hp, hemp] at hj
      simp at hj
  have hpar : ∀ p, s'.parent p = none := by
    intro p
    rcases hp : s'.mapBlockIndex p with _ | j
    · unfold NodeState.parent
      rw [hp]
      rfl
    · rw [parent_eq hp, (hent p j hp).2, hroot]
  refine ⟨⟨fun p q hpq => ?_, fun p j hj => ?_, fun p q hpq => ?_, fun p path hb => ?_⟩, hroot, ?_⟩
  · simp [hpar] at hpq
  · obtain ⟨rfl, rfl⟩ := hent p j hj
    refine ⟨block, ?_, rfl, fun q hq => ?_⟩
    · rw [h.place.1, h.place.2]
      exact hstor
    · simp [hroot] at hq
  · simp [hpar] at hpq
  · cases hb with
    | root _ => exact List.Pairwise.nil
    | step hpq _ => simp [hpar] at hpq
  · intro p j hj
    obtain ⟨-, rfl⟩ := hent p j hj
    simp [h.blank.1]

theorem Initialised.chainAt (h : Initialised ctx s) : ∃ g, ChainAt ctx s g [] ∧ BestIs s g := by
  obtain ⟨s₀, env, nFile, nBlockPos, hashProof, genesis, hfresh, hgen, hstor, hadd⟩ :=
    h.initialised
  obtain ⟨i, s₁, hindexed, hadd⟩ := Action.bind_eq_ok.mp hadd
  obtain ⟨hindexed, hclosed⟩ := indexBlock_eq_ok hindexed
  obtain ⟨nBestChainTrust, -, hadd⟩ := Action.reading_bind_eq_ok.mp hadd
  obtain ⟨hidx, hroot, hlinks⟩ := hindexed.indexOk_genesis hfresh.index hstor
  have hbest := hindexed.best
  have hnone : s₁.pindexGenesisBlock = none := (congrArg Prod.fst hbest :).trans hfresh.genesis
  split at hadd
  · obtain ⟨t, hmove, hadd⟩ := setBestChain_parts hadd
    have hstart : startChain (ctx.GetHash genesis) (ctx.GetHash genesis) s₁.opened = (.ok (), t) := by
      unfold moveChain at hmove
      rwa [if_pos ⟨hnone, hgen⟩] at hmove
    have hemp : ∀ hash, s₁.txdb.txIndex hash = none := by
      intro hash
      refine (hindexed.read (.tx hash) (by simp)).trans ?_
      rw [Store.view_of_closed hclosed]
      exact hfresh.empty hash
    have hchained : Chained ctx s₁ [ctx.GetHash genesis] :=
      Chained.genesis hindexed.entry_self hroot hindexed.blank.2
    obtain ⟨hchain, hstarted⟩ := startChain_eq_ok hchained hidx hlinks hindexed.closed hemp hstart
    obtain ⟨hbest, hidx, htxdb⟩ := finishMove_eq_ok hstarted rfl hadd
    exact ⟨_, hchain.of_eq hidx htxdb, hbest⟩
  · cases hadd
    exact absurd hnone h.started

theorem addToBlockIndex_chainAt {env : Env} {hashProof : UInt256} (hchain : ChainAt ctx s tip above)
    (hbest : BestIs s tip) (hstor : ctx.files.block nFile nBlockPos = some block)
    (hknown : s.mapBlockIndex block.hashPrevBlock ≠ none)
    (hids : NoRepeatedIds ctx s nFile nBlockPos block)
    (hcompletes : ∀ i s₁, indexBlock ctx nFile nBlockPos hashProof block s = (.ok i, s₁) →
      s₁.nBestChainTrust < i.nChainTrust → MoveCompletes ctx env block (ctx.GetHash block) s₁)
    (h : AddToBlockIndex ctx env nFile nBlockPos hashProof block s = (r, s')) (hret : Returns r) :
    ∃ tip above, ChainAt ctx s' tip above ∧ BestIs s' tip := by
  have htip : s.mapBlockIndex tip ≠ none := by
    obtain ⟨j, hj⟩ := hchain.chained.exists_entry hchain.chained.branch.self_mem
    simp [hj]
  rcases addToBlockIndex_cases h hret with ⟨e, -, hpart⟩ | ⟨i, s₁, hrun, hmove⟩
  · exact ⟨tip, above, hchain.congr hpart, hbest.congr (Unmoved.of_chainPart hpart)⟩
  · obtain ⟨hindexed, -⟩ := indexBlock_eq_ok hrun
    have hidx := hindexed.indexOk hchain.index hknown hstor hids
    have hchain₁ := hindexed.chainAt hchain hidx
    have hbest₁ := hindexed.bestIs hbest htip
    have hreq := hindexed.requested hknown hstor
    rcases hmove with ⟨htrust, h⟩ | ⟨-, rfl⟩
    · rcases r with e | ⟨⟩
      · obtain ⟨hsame, hunm⟩ := setBestChain_eq_error hchain₁ hbest₁ hreq h hret
        exact ⟨tip, above, hsame, hbest₁.congr hunm⟩
      · obtain ⟨b, above', hb, hnew, -, hiff⟩ := setBestChain_eq_ok hchain₁ hbest₁ hreq h
        obtain rfl := hiff.mpr (hcompletes i s₁ hrun htrust)
        exact ⟨_, above', hb, hnew⟩
    · exact ⟨tip, above, hchain₁, hbest₁⟩

theorem Call.chainAt {call : Call} (hchain : ChainAt ctx s tip above) (hbest : BestIs s tip)
    (hvalid : call.Valid ctx s) (hcompletes : call.Completes ctx s)
    (hrun : call.run ctx s = (r, s')) (hret : Returns r) :
    ∃ tip above, ChainAt ctx s' tip above ∧ BestIs s' tip := by
  cases call with
  | addToBlockIndex env nFile nBlockPos hashProof block =>
    exact addToBlockIndex_chainAt hchain hbest hvalid.1 hvalid.2 hcompletes.1 hcompletes.2 hrun hret
  | setBestChain env block pindexNew =>
    obtain ⟨i, hent, hstor, hhash, hroot⟩ := hvalid
    have hreq : Requested ctx s block pindexNew i := ⟨hent, hstor, hhash, hroot⟩
    rcases r with e | ⟨⟩
    · obtain ⟨hsame, hunm⟩ := setBestChain_eq_error hchain hbest hreq hrun hret
      exact ⟨tip, above, hsame, hbest.congr hunm⟩
    · obtain ⟨b, above', hb, hnew, -, hiff⟩ := setBestChain_eq_ok hchain hbest hreq hrun
      obtain rfl := hiff.mpr hcompletes
      exact ⟨_, above', hb, hnew⟩
  | elsewhere s₁ =>
    cases hrun
    exact ⟨tip, above, hchain.congr hvalid, hbest.congr (Unmoved.of_chainPart hvalid)⟩

theorem Reaches.chainAt (h : Reaches ctx (fun s call => call.Completes ctx s) s) :
    ∃ tip above, ChainAt ctx s tip above ∧ BestIs s tip := by
  induction h with
  | start h =>
    obtain ⟨g, hchain, hbest⟩ := h.chainAt
    exact ⟨g, [], hchain, hbest⟩
  | step _ hvalid hallow hrun hret ih =>
    obtain ⟨tip, above, hchain, hbest⟩ := ih
    exact Call.chainAt hchain hbest hvalid hallow hrun hret

/-- In every state that is reached by steps that complete, the globals, the database and the links
agree. -/
theorem reaches_consistent (h : Reaches ctx (fun s call => call.Completes ctx s) s) :
    Consistent ctx s := by
  obtain ⟨tip, above, hchain, hbest⟩ := h.chainAt
  exact ⟨tip, tip :: above, hchain.consistent hbest⟩

theorem completes_of_direct {env : Env} {hashProof : UInt256} {path : List UInt256}
    (hbr : Branch s.parent block.hashPrevBlock path)
    (hids : DistinctIds ctx (connectedTxs ctx s path ++ placedTransactions nFile nBlockPos block.vtx))
    (hdirect : findPostponed (indexBlock ctx nFile nBlockPos hashProof block s).2.opened
      (ctx.GetHash block) = .ok (ctx.GetHash block, [])) :
    (Call.addToBlockIndex env nFile nBlockPos hashProof block).Completes ctx s := by
  refine ⟨fun path' hbr' => hbr.unique hbr' ▸ hids, ?_⟩
  intro i s₁ hindexed _ _ target s₂ htgt _
  rw [hindexed] at hdirect
  obtain rfl := Except.ok.inj (hdirect.symm.trans htgt)
  trivial

end

/-! ## A fork that is connected and disconnected -/

def switchedCall (mirrored : Bool) (id : UInt32) : Call :=
  .addToBlockIndex (plainEnv 1000) (switchedFile mirrored id) 8 0 (switchedBlock id)

/-- A node that has added some blocks, the last one in front, to the genesis block. -/
def switchedNode (mirrored : Bool) : List UInt32 → NodeState
  | [] => (AddToBlockIndex (switchedContext mirrored) (plainEnv 1000) (switchedFile mirrored 1) 8 0
      (switchedBlock 1) emptyNode).2
  | id :: ids => ((switchedCall mirrored id).run (switchedContext mirrored) (switchedNode mirrored ids)).2

abbrev SwitchReached (mirrored : Bool) (ids : List UInt32) : Prop :=
  Reaches (switchedContext mirrored) (fun s call => call.Completes (switchedContext mirrored) s)
    (switchedNode mirrored ids)

theorem switchedNode_step {mirrored : Bool} {ids : List UInt32} {id : UInt32} {path : List UInt256}
    (h : SwitchReached mirrored ids)
    (hbr : Branch (switchedNode mirrored ids).parent (switchedBlock id).hashPrevBlock path)
    (hstep : (switchedContext mirrored).files.block (switchedFile mirrored id) 8 = some (switchedBlock id) ∧
      (switchedNode mirrored ids).mapBlockIndex (switchedBlock id).hashPrevBlock ≠ none ∧
      ((switchedCall mirrored id).run (switchedContext mirrored) (switchedNode mirrored ids)).1 = .ok () ∧
      ((connectedTxs (switchedContext mirrored) (switchedNode mirrored ids) path ++ placedTransactions
        (switchedFile mirrored id) 8 (switchedBlock id).vtx).Pairwise fun p q =>
          (switchedContext mirrored).hashTx p.2 ≠ (switchedContext mirrored).hashTx q.2) ∧
      findPostponed (indexBlock (switchedContext mirrored) (switchedFile mirrored id) 8 0 (switchedBlock id)
        (switchedNode mirrored ids)).2.opened ((switchedContext mirrored).GetHash (switchedBlock id))
          = .ok ((switchedContext mirrored).GetHash (switchedBlock id), [])) :
    SwitchReached mirrored (id :: ids) :=
  .step h (show (switchedCall mirrored id).Valid _ _ from ⟨hstep.1, hstep.2.1⟩)
    (completes_of_direct hbr hstep.2.2.2.1 hstep.2.2.2.2)
    (Action.eq_of_fst hstep.2.2.1) (by simp [Returns])

theorem switchedNode_start (mirrored : Bool) : SwitchReached mirrored [] := by
  refine .start ⟨⟨emptyNode, plainEnv 1000, switchedFile mirrored 1, 8, 0, switchedBlock 1,
    ⟨rfl, rfl, rfl, fun _ => rfl⟩, ?_, ?_, Action.eq_of_fst ?_⟩, ?_⟩ <;> cases mirrored <;> decide

/-- The first node connects the second block, and disconnects it again for the third and the fourth. The
second node gets them in another order, and never connects the second one. -/
theorem switchedNode_reaches : SwitchReached false [4, 3, 2] ∧ SwitchReached true [2, 4, 3] :=
  ⟨@switchedNode_step _ _ _ [3, 1] (switchedNode_step (switchedNode_step (switchedNode_start false)
      (.root (by decide)) (by decide +kernel)) (.root (by decide +kernel)) (by decide +kernel))
      (.step (by decide +kernel) (.root (by decide +kernel))) (by decide +kernel),
    switchedNode_step (@switchedNode_step _ _ _ [3, 1] (switchedNode_step (switchedNode_start true)
      (.root (by decide)) (by decide +kernel))
      (.step (by decide +kernel) (.root (by decide +kernel))) (by decide +kernel))
      (.root (by decide +kernel)) (by decide +kernel)⟩

/-- The globals, the database and the links agree after the switch to the fourth block. -/
theorem switchedNode_consistent : Consistent (switchedContext false) (switchedNode false [4, 3, 2]) :=
  reaches_consistent switchedNode_reaches.1

/-! ## A run that goes wrong -/

/-- The calls of the run, after the genesis block: the next two blocks are added, of which the
second is invalid; then the best chain is set back to the genesis block; and the last block, which
is on top of the invalid one, is added. -/
def overpaidCall : ℕ → Call
  | 0 => .addToBlockIndex (plainEnv 1000) 2 8 0 (overpaidBlock 2)
  | 1 => .addToBlockIndex (plainEnv 1000) 3 8 0 (overpaidBlock 3)
  | 2 => .setBestChain (plainEnv 1000) (overpaidBlock 1) 1
  | _ => .addToBlockIndex (plainEnv 1000) 4 8 0 (overpaidBlock 4)

def overpaidNode : ℕ → NodeState
  | 0 => (AddToBlockIndex overpaidContext (plainEnv 1000) 1 8 0 (overpaidBlock 1) emptyNode).2
  | n + 1 => ((overpaidCall n).run overpaidContext (overpaidNode n)).2

theorem overpaidNode_initialised : Initialised overpaidContext (overpaidNode 0) := by
  refine ⟨⟨emptyNode, plainEnv 1000, 1, 8, 0, overpaidBlock 1, ⟨rfl, rfl, rfl, fun _ => rfl⟩,
    by decide, rfl, Action.eq_of_fst (by decide)⟩, by decide⟩

theorem overpaidNode_step {allowed : NodeState → Call → Prop} {n : ℕ} (r : Except Failure Unit)
    (h : Reaches overpaidContext allowed (overpaidNode n))
    (hvalid : (overpaidCall n).Valid overpaidContext (overpaidNode n))
    (hallow : allowed (overpaidNode n) (overpaidCall n))
    (hrun : ((overpaidCall n).run overpaidContext (overpaidNode n)).1 = r) (hret : Returns r) :
    Reaches overpaidContext allowed (overpaidNode (n + 1)) :=
  Reaches.step h hvalid hallow (Action.eq_of_fst hrun) hret

theorem overpaidCall_valid (n : ℕ) (hn : n < 4) :
    (overpaidCall n).Valid overpaidContext (overpaidNode n) := by
  have hgen : (overpaidNode 2).mapBlockIndex 1
      = some ((overpaidNode 2).mapBlockIndex 1 |>.get (by decide)) := by simp
  match n, hn with
  | 0, _ => exact ⟨rfl, by decide⟩
  | 1, _ => exact ⟨rfl, by decide⟩
  | 2, _ => exact ⟨_, hgen, by decide, by decide, by decide⟩
  | 3, _ => exact ⟨rfl, by decide +kernel⟩

theorem overpaidNode_reaches_any :
    Reaches overpaidContext (fun _ _ => True) (overpaidNode 3) := by
  have hreaches₁ : Reaches overpaidContext (fun _ _ => True) (overpaidNode 1) :=
    overpaidNode_step (.ok ()) (Reaches.start overpaidNode_initialised)
      (overpaidCall_valid 0 (by decide)) trivial (by decide) (by simp [Returns])
  have hreaches₂ : Reaches overpaidContext (fun _ _ => True) (overpaidNode 2) :=
    overpaidNode_step (.error (.error "SetBestChain() : SetBestChainInner failed")) hreaches₁
      (overpaidCall_valid 1 (by decide)) trivial (by decide) (by simp [Returns])
  exact overpaidNode_step (.ok ()) hreaches₂ (overpaidCall_valid 2 (by decide)) trivial
    (by decide +kernel) (by simp [Returns])

/-- In the last state, which `SetBestChain` has reached with success, the globals name the last
block, and the database names the second one: the third, which had been postponed, did not
connect. -/
theorem overpaidNode_inconsistent :
    Reaches overpaidContext (fun _ _ => True) (overpaidNode 3) ∧
      (overpaidCall 3).Valid overpaidContext (overpaidNode 3) ∧
      (overpaidCall 3).run overpaidContext (overpaidNode 3) = (.ok (), overpaidNode 4) ∧
      (overpaidNode 4).hashBestChain = 4 ∧
      (overpaidNode 4).txdb.disk .hashBestChain = some (2 : UInt256) ∧
      ¬Consistent overpaidContext (overpaidNode 4) := by
  have hhash : (overpaidNode 4).hashBestChain = 4 := by decide +kernel
  have hstored : (overpaidNode 4).txdb.disk .hashBestChain = some (2 : UInt256) := by
    decide +kernel
  refine ⟨overpaidNode_reaches_any, overpaidCall_valid 3 (by decide),
    Action.eq_of_fst (by decide +kernel), hhash, hstored, ?_⟩
  rintro ⟨tip, path, hconsistent⟩
  have htip : some tip = some (2 : UInt256) := hconsistent.stored.symm.trans hstored
  have hwrong : (4 : UInt256) = 2 :=
    hhash.symm.trans (hconsistent.hashBestChain.trans (Option.some.inj htip))
  exact absurd hwrong (by decide)

end ZalemCoin.Chain
