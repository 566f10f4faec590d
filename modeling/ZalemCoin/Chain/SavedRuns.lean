import ZalemCoin.Chain.SavedMoves

/-!
# Stopping a node and starting it again

A node that is stopped between two calls and started again loads the block index that it had, with the
links, mints and supplies, and the same best block. This is so as long as every move to another chain
either completes or gives no block another mint or supply before it fails: `ConnectBlock` sets these in
memory at once, and `TxnAbort` takes them back in the database only.
-/

namespace ZalemCoin.Chain

open Lib

/-! ## Runs -/

/-- A node that has just been initialised with the genesis block on an empty disk. -/
structure Installed (ctx : Context) (s : NodeState) : Prop where
  installed : ∃ s₀ env nFile nBlockPos hashProof genesis, Fresh s₀ ∧
    (∀ key, s₀.txdb.disk (.blockindex key) = none) ∧
    ctx.GetHash genesis = ctx.hashGenesisBlock ∧ ctx.hashGenesisBlock ≠ 0 ∧
    genesis.hashPrevBlock = 0 ∧ ctx.files.block nFile nBlockPos = some genesis ∧
    AddToBlockIndex ctx env nFile nBlockPos hashProof genesis s₀ = (.ok (), s)
  started : s.pindexGenesisBlock ≠ none

/-- A step in which a move that succeeds completes, and one that fails gives no block another mint or
supply before. No block has the hash zero, which stands for no block. -/
def Call.Saves (ctx : Context) (s : NodeState) : Call → Prop
  | addToBlockIndex env nFile nBlockPos hashProof block =>
    ctx.GetHash block ≠ 0 ∧
      ∀ i s₁, indexBlock ctx nFile nBlockPos hashProof block s = (.ok i, s₁) →
        s₁.nBestChainTrust < i.nChainTrust →
          MoveCompletes ctx env block (ctx.GetHash block) s₁ ∧
            RecordsKept ctx env block (ctx.GetHash block) s₁
  | setBestChain env block pindexNew =>
    MoveCompletes ctx env block pindexNew s ∧ RecordsKept ctx env block pindexNew s
  | elsewhere _ => True

def CallStep (ctx : Context) (allowed : NodeState → Call → Prop) (s s' : NodeState) : Prop :=
  ∃ call r, Call.Valid ctx s call ∧ allowed s call ∧ call.run ctx s = (r, s') ∧ Returns r

variable {ctx : Context} {s : NodeState} {tip : UInt256}

section

variable {s' : NodeState}

theorem Fresh.indexTree (h : Fresh s) : IndexTree ctx s := by
  have hpar : ∀ p, s.parent p = none := by
    intro p
    unfold NodeState.parent
    rw [h.index]
    rfl
  refine ⟨fun p q hpq => ?_, fun p q hpq => ?_, fun p i hi => ?_, ?_, fun p i hi => ?_,
    fun p i hi => ?_, ?_⟩
  · simp [hpar] at hpq
  · simp [hpar] at hpq
  · simp [h.index] at hi
  · simp [h.index]
  · simp [h.index] at hi
  · simp [h.index] at hi
  · simp [h.index]

theorem Installed.saved (h : Installed ctx s) : ∃ g, Saved ctx s g ∧ BestIs s g := by
  obtain ⟨s₀, env, nFile, nBlockPos, hashProof, genesis, hfresh, hemp, hgen, hzero, hprev,
    hstor, hadd⟩ := h.installed
  obtain ⟨i, s₁, hrun, hadd⟩ := Action.bind_eq_ok.mp hadd
  obtain ⟨hindexed, hclosed⟩ := indexBlock_eq_ok hrun
  have htree : IndexTree ctx s₁ := by
    refine hfresh.indexTree.index (.inr hprev) hstor ?_ hrun
    rw [hgen]
    exact hzero
  have hrecording₀ : Recording s₀ s₀.next := by
    intro p
    rw [Store.view_of_closed hfresh.closed, hemp p, hfresh.index]
    rfl
  have hrecording := hrecording₀.index htree hrun
  have hnext : ∀ p, s₁.next p = none := by
    intro p
    rw [hindexed.next_eq]
    unfold NodeState.next
    rw [hfresh.index]
    rfl
  obtain ⟨nBestChainTrust, -, hadd⟩ := Action.reading_bind_eq_ok.mp hadd
  have hnone : s₁.pindexGenesisBlock = none :=
    (congrArg Prod.fst hindexed.best :).trans hfresh.genesis
  split at hadd
  · obtain ⟨t, hmove, hadd⟩ := setBestChain_parts hadd
    have hstart : startChain (ctx.GetHash genesis) (ctx.GetHash genesis) s₁.opened = (.ok (), t) := by
      unfold moveChain at hmove
      rwa [if_pos ⟨hnone, hgen⟩] at hmove
    replace hstart := Action.modify_bind_eq_ok.mp hstart
    obtain ⟨⟨⟩, t₂, hcom, hstart⟩ := Action.bind_eq_ok.mp hstart
    cases hstart
    obtain rfl := txnCommit_eq_ok hcom
    -- The genesis block is named as the best one, and nothing else is written.
    have hview : ∀ key, (s₁.opened.txdb.write .hashBestChain (ctx.GetHash genesis)).view key
        = Function.update s₁.txdb.view .hashBestChain (some (ctx.GetHash genesis)) key := by
      intro key
      rw [Store.view_write, view_opened hindexed.closed]
    have hsaved : Saved ctx { s₁.opened with
        txdb := ⟨(s₁.opened.txdb.write .hashBestChain (ctx.GetHash genesis)).view, none⟩
        pindexGenesisBlock := some (ctx.GetHash genesis) } (ctx.GetHash genesis) := by
      refine ⟨htree.congr (SamePlace.of_eq rfl), rfl, fun p => ?_, ?_, ?_, fun p q hpq => ?_⟩
      · refine (hview (.blockindex p)).trans ?_
        rw [Function.update_of_ne (by simp)]
        exact hrecording p
      · refine (hview .hashBestChain).trans ?_
        rw [Function.update_self]
      · show s₁.mapBlockIndex (ctx.GetHash genesis) ≠ none
        simp [hindexed.entry_self]
      · exact absurd ((hnext p).symm.trans hpq) (by simp)
    exact ⟨_, hsaved.finishMove (by simp) rfl hadd⟩
  · cases hadd
    exact absurd hnone h.started

variable {env : Env} {nFile nBlockPos : UInt32} {hashProof : UInt256} {block : CBlock}

theorem Saved.addToBlockIndex {r : Except Failure Unit} (h : Saved ctx s tip) (hbest : BestIs s tip)
    (hstor : ctx.files.block nFile nBlockPos = some block)
    (hknown : s.mapBlockIndex block.hashPrevBlock ≠ none)
    (hsaves : (Call.addToBlockIndex env nFile nBlockPos hashProof block).Saves ctx s)
    (hrun : AddToBlockIndex ctx env nFile nBlockPos hashProof block s = (r, s')) (hret : Returns r) :
    ∃ tip', Saved ctx s' tip' ∧ BestIs s' tip' := by
  obtain ⟨hzero, hmove⟩ := hsaves
  rcases addToBlockIndex_cases hrun hret with ⟨e, -, hpart⟩ | ⟨i, s₁, hidx, hrun⟩
  · exact ⟨tip, h.congr hpart, hbest.congr (Unmoved.of_chainPart hpart)⟩
  · obtain ⟨hindexed, -⟩ := indexBlock_eq_ok hidx
    have h₁ := h.index hknown hstor hzero hidx
    have hbest₁ := hindexed.bestIs hbest h.tipKnown
    rcases hrun with ⟨htrust, hrun⟩ | ⟨-, rfl⟩
    · obtain ⟨hcompletes, hkept⟩ := hmove i s₁ hidx htrust
      exact h₁.setBestChain hbest₁ (hindexed.requested hknown hstor) hcompletes hkept hrun hret
    · exact ⟨tip, h₁, hbest₁⟩

theorem CallStep.saved (hstep : CallStep ctx (fun s call => call.Saves ctx s) s s')
    (h : Saved ctx s tip) (hbest : BestIs s tip) : ∃ tip', Saved ctx s' tip' ∧ BestIs s' tip' := by
  obtain ⟨call, r, hvalid, hsaves, hrun, hret⟩ := hstep
  cases call with
  | addToBlockIndex env nFile nBlockPos hashProof block =>
    exact h.addToBlockIndex hbest hvalid.1 hvalid.2 hsaves hrun hret
  | setBestChain env block pindexNew =>
    obtain ⟨i, hent, hstor, hhash, hroot⟩ := hvalid
    exact h.setBestChain hbest ⟨hent, hstor, hhash, hroot⟩ hsaves.1 hsaves.2 hrun hret
  | elsewhere s₁ =>
    cases hrun
    exact ⟨tip, h.congr hvalid, hbest.congr (Unmoved.of_chainPart hvalid)⟩

theorem saved_of_run {s₀ : NodeState} (hstart : Installed ctx s₀)
    (hrun : Relation.ReflTransGen (CallStep ctx fun s call => call.Saves ctx s) s₀ s) :
    ∃ tip, Saved ctx s tip ∧ BestIs s tip := by
  induction hrun with
  | refl => exact hstart.saved
  | tail _ hstep ih =>
    obtain ⟨tip, h, hbest⟩ := ih
    exact hstep.saved h hbest

theorem addToBlockIndex_known {r : Except Failure Unit}
    (h : AddToBlockIndex ctx env nFile nBlockPos hashProof block s = (r, s')) (hret : Returns r)
    {p : UInt256} (hp : s'.mapBlockIndex p ≠ none) :
    p = ctx.GetHash block ∨ s.mapBlockIndex p ≠ none := by
  rcases addToBlockIndex_places h hret with hplace | ⟨i, s₁, hidx, hplace⟩
  · exact .inr ((hplace.ne_none_iff p).mp hp)
  · obtain ⟨hindexed, -⟩ := indexBlock_eq_ok hidx
    have hp := (hplace.ne_none_iff p).mp hp
    by_cases hself : p = ctx.GetHash block
    · exact .inl hself
    · rw [hindexed.entry_of_ne hself] at hp
      exact .inr hp

theorem Saved.addToBlockIndex_eq_error {e : Failure} (h : Saved ctx s tip) (hbest : BestIs s tip)
    (hstor : ctx.files.block nFile nBlockPos = some block)
    (hknown : s.mapBlockIndex block.hashPrevBlock ≠ none) (hzero : ctx.GetHash block ≠ 0)
    (hrun : AddToBlockIndex ctx env nFile nBlockPos hashProof block s = (.error e, s'))
    (hret : Returns (.error e : Except Failure Unit)) :
    s'.chainPart = s.chainPart ∨
      ∃ i s₁, indexBlock ctx nFile nBlockPos hashProof block s = (.ok i, s₁) ∧ Saved ctx s₁ tip ∧
        Undone s₁ s' := by
  rcases addToBlockIndex_cases hrun hret with ⟨-, -, hpart⟩ | ⟨i, s₁, hidx, hmove⟩
  · exact .inl hpart
  · obtain ⟨hindexed, -⟩ := indexBlock_eq_ok hidx
    have h₁ := h.index hknown hstor hzero hidx
    have hbest₁ := hindexed.bestIs hbest h.tipKnown
    rcases hmove with ⟨-, hmove⟩ | ⟨hok, -⟩
    · exact .inr ⟨i, s₁, hidx, h₁, (h₁.setBestChain_eq_error hbest₁ hmove hret).1⟩
    · simp at hok

end

/-! ## Loading -/

/-- A process that has been started on the disk of a node. -/
structure Restarted (s u : NodeState) : Prop where
  disk : u.txdb.disk = s.txdb.disk
  closed : u.txdb.activeBatch = none

def FindsNoneBad (ctx : Context) (env : Env) (args : CheckArgs) (records : List CDiskBlockIndex)
    (u : NodeState) : Prop :=
  ∀ t, loadIndex ctx records u = (.ok true, t) → ∃ t', verifyBest ctx env args t = (.ok none, t')

/-- The block index and the best block are those of another state, but for the numbers that order the
blocks by their arrival. -/
structure Rebuilt (s s' : NodeState) : Prop where
  index : ∀ p, s'.mapBlockIndex p = (s.mapBlockIndex p).map CBlockIndex.restored
  pindexBest : s'.pindexBest = s.pindexBest
  hashBestChain : s'.hashBestChain = s.hashBestChain

section

variable {u : NodeState}

theorem keepsCore_verifyBest (ctx : Context) (env : Env) (args : CheckArgs) :
    KeepsPart NodeState.core (verifyBest ctx env args) := by
  have hattempt : ∀ x : NodeM Unit, KeepsPart NodeState.core x →
      KeepsPart NodeState.core (attempt x) := by
    intro x hx
    refine (hx.bind fun _ => KeepsPart.pure _).handle fun e => ?_
    cases e with
    | crash m => exact KeepsPart.fail _
    | reject n m => exact KeepsPart.pure _
  have hloop : ∀ nLevel nLowest fuel p mapBlockPos pindexFork,
      KeepsPart NodeState.core
        (verifyBlocks ctx env nLevel nLowest fuel p mapBlockPos pindexFork) := by
    intro nLevel nLowest fuel
    induction fuel with
    | zero => exact fun p mapBlockPos pindexFork => KeepsPart.fail _
    | succ fuel ih =>
      intro p mapBlockPos pindexFork
      refine KeepsPart.bind (KeepsPart.reading _) fun i => ?_
      rcases i.pprev with _ | q
      · exact KeepsPart.pure _
      refine KeepsPart.ite (KeepsPart.pure _) ?_
      refine KeepsPart.bind ((KeepsPart.reading _).handle fun _ => KeepsPart.fail _) fun block => ?_
      refine KeepsPart.ite ((hattempt _ (keepsCore_checkBlock ctx env block _ _ _)).bind fun valid => ?_)
        (KeepsPart.bind (KeepsPart.pure _) fun valid => ?_)
      · exact KeepsPart.bind (KeepsPart.reading _) fun indexed => ih _ _ _
      · exact KeepsPart.bind (KeepsPart.reading _) fun indexed => ih _ _ _
  exact KeepsPart.bind (KeepsPart.reading _) fun best =>
    KeepsPart.bind (KeepsPart.reading _) fun pindexBest => hloop _ _ _ _ _ _

theorem Saved.rebuilds (h : Saved ctx s tip) (hbest : BestIs s tip) {env : Env} {args : CheckArgs}
    {records : List CDiskBlockIndex} (hscans : Scans s.txdb.disk records) (hrestart : Restarted s u)
    (hgood : FindsNoneBad ctx env args records u) :
    ∃ s', LoadBlockIndex ctx env args records u = (.ok (), s') ∧ Rebuilt s s' := by
  have hread : s.txdb.disk .hashBestChain = some tip := by
    rw [← Store.view_of_closed h.closed]
    exact h.best
  obtain ⟨t, hload, hidx, hpindex, hhash, -⟩ := @loadIndex_eq_ok records ctx s.mapBlockIndex u tip
    h.marshallable (fun p => by rw [hrestart.disk]; exact h.disk_eq p)
    (by rw [hrestart.disk]; exact hread) h.tipKnown hrestart.closed
    (by rw [hrestart.disk]; exact hscans)
  obtain ⟨s', hver⟩ := hgood t hload
  have hcore := (keepsCore_verifyBest ctx env args).of_eq hver
  refine ⟨s', ?_, fun p => ?_, ?_, ?_⟩
  · unfold LoadBlockIndex
    rw [Action.bind_of_ok hload, if_pos rfl, Action.bind_of_ok hver]
    rfl
  · rw [mapBlockIndex_of_core hcore, hidx]
  · rw [show s'.pindexBest = t.pindexBest from (congrArg NodeState.pindexBest hcore :), hpindex,
      hbest.pindexBest]
  · rw [show s'.hashBestChain = t.hashBestChain from (congrArg NodeState.hashBestChain hcore :),
      hhash, hbest.hashBestChain]

/-- A node that is stopped after any run of such steps, and started again, has the block index and the
best block that it had, whatever order the database yields the records in. -/
theorem reload_rebuilds {s₀ : NodeState} (hstart : Installed ctx s₀)
    (hrun : Relation.ReflTransGen (CallStep ctx fun s call => call.Saves ctx s) s₀ s) :
    (∃ records, Scans s.txdb.disk records) ∧
      ∀ env args records u, Scans s.txdb.disk records → Restarted s u →
        FindsNoneBad ctx env args records u →
          ∃ s', LoadBlockIndex ctx env args records u = (.ok (), s') ∧ Rebuilt s s' := by
  obtain ⟨tip, h, hbest⟩ := saved_of_run hstart hrun
  exact ⟨h.exists_scans, fun env args records u hscans hrestart hgood =>
    h.rebuilds hbest hscans hrestart hgood⟩

end

/-! ## A switch that fails -/

/-- Two branches on top of the genesis block: one block, and a block with another one on top of it,
which pays itself more than any block may. -/
def rivalBlock (id : UInt32) : CBlock :=
  plainBlock id (if id = 3 then 1 else id - 1) (BitVec.ofNat 256 (10 * id.toNat))
    [plainTx (10 * id) [coinbaseInput] [payTo (if id = 4 then 990001 * COIN else COIN)]]

def rivalContext : Context :=
  plainContext (BlockFiles.ofBlocks
    (fun nFile => if nFile = 1 ∨ nFile = 2 ∨ nFile = 3 ∨ nFile = 4 then some (rivalBlock nFile)
      else none)
    (by
      intro nFile block h
      split at h
      · rename_i hfile
        cases h
        rcases hfile with rfl | rfl | rfl | rfl <;> decide
      · simp at h)) 1 true

def rivalCall (n : ℕ) : Call :=
  .addToBlockIndex (plainEnv 1000) (UInt32.ofNat (n + 2)) 8 0 (rivalBlock (UInt32.ofNat (n + 2)))

def rivalNode : ℕ → NodeState
  | 0 => (AddToBlockIndex rivalContext (plainEnv 1000) 1 8 0 (rivalBlock 1) emptyNode).2
  | n + 1 => ((rivalCall n).run rivalContext (rivalNode n)).2

def storedRecords (keys : List UInt256) (s : NodeState) : List CDiskBlockIndex :=
  keys.filterMap fun key => s.txdb.disk (.blockindex key)

def restart (s : NodeState) : NodeState := { emptyNode with txdb := ⟨s.txdb.disk, none⟩ }

def reload (keys : List UInt256) (s : NodeState) : Except Failure Unit × NodeState :=
  LoadBlockIndex rivalContext (plainEnv 1000) .default (storedRecords keys s) (restart s)

theorem rivalNode_installed : Installed rivalContext (rivalNode 0) := by
  have hadd : AddToBlockIndex rivalContext (plainEnv 1000) 1 8 0 (rivalBlock 1) emptyNode
      = (.ok (), rivalNode 0) := by
    exact Action.eq_of_fst (by decide)
  exact ⟨⟨emptyNode, plainEnv 1000, 1, 8, 0, rivalBlock 1, ⟨rfl, rfl, rfl, fun _ => rfl⟩,
    fun _ => rfl, by decide, by decide, by decide, rfl, hadd⟩, by decide⟩

variable {n : ℕ}

theorem rivalNode_run {r : Except Failure Unit}
    (h : ((rivalCall n).run rivalContext (rivalNode n)).1 = r) :
    (rivalCall n).run rivalContext (rivalNode n) = (r, rivalNode (n + 1)) := by
  exact Action.eq_of_fst h

-- From here on, the states are computed by the kernel only.
attribute [irreducible] rivalNode

theorem rivalNode_step {allowed : NodeState → Call → Prop} (r : Except Failure Unit)
    (hvalid : (rivalCall n).Valid rivalContext (rivalNode n))
    (hallow : allowed (rivalNode n) (rivalCall n))
    (hrun : ((rivalCall n).run rivalContext (rivalNode n)).1 = r) (hret : Returns r) :
    CallStep rivalContext allowed (rivalNode n) (rivalNode (n + 1)) :=
  ⟨rivalCall n, r, hvalid, hallow, rivalNode_run hrun, hret⟩

/-- What the states of the run are found to be. -/
structure RivalRun : Prop where
  first : ((rivalCall 0).run rivalContext (rivalNode 0)).1 = .ok ()
  second : ((rivalCall 1).run rivalContext (rivalNode 1)).1 = .ok ()
  third : ((rivalCall 2).run rivalContext (rivalNode 2)).1
    = .error (.error "SetBestChain() : Reorganize failed")
  previous : ∀ n < 3,
    (rivalNode n).mapBlockIndex (rivalBlock (UInt32.ofNat (n + 2))).hashPrevBlock ≠ none
  best : (rivalBlock 2).hashPrevBlock
    = (indexBlock rivalContext 2 8 0 (rivalBlock 2) (rivalNode 0)).2.hashBestChain
  connects : (connectTip rivalContext (plainEnv 1000) (rivalBlock 2) 2
    (indexBlock rivalContext 2 8 0 (rivalBlock 2) (rivalNode 0)).2.opened).1 = .ok ()
  trusts : (indexBlock rivalContext 3 8 0 (rivalBlock 3) (rivalNode 1)).1.map CBlockIndex.nChainTrust
      = .ok 4 ∧
    (indexBlock rivalContext 3 8 0 (rivalBlock 3) (rivalNode 1)).2.nBestChainTrust = 4
  indexed : ∀ p ∈ ([1, 2, 3] : List UInt256), (rivalNode 2).mapBlockIndex p ≠ none
  verified : (verifyBest rivalContext (plainEnv 1000) .default (loadIndex rivalContext
    (storedRecords [1, 2, 3] (rivalNode 2)) (restart (rivalNode 2))).2).1 = .ok none
  added : (rivalNode 3).mapBlockIndex 4 ≠ (rivalNode 2).mapBlockIndex 4
  reloads : (reload [1, 2, 3, 4] (rivalNode 3)).1 = .ok ()
  mint : ((reload [1, 2, 3, 4] (rivalNode 3)).2.mapBlockIndex 3).map CBlockIndex.nMint
    ≠ (((rivalNode 3).mapBlockIndex 3).map CBlockIndex.restored).map CBlockIndex.nMint

theorem rivalRun : RivalRun where
  first := by decide +kernel
  second := by decide +kernel
  third := by decide +kernel
  previous := fun n hn => match n, hn with
    | 0, _ => by decide +kernel
    | 1, _ => by decide +kernel
    | 2, _ => by decide +kernel
  best := by decide +kernel
  connects := by decide +kernel
  trusts := by decide +kernel
  indexed := by
    intro p hp
    simp only [List.mem_cons, List.not_mem_nil, or_false] at hp
    rcases hp with rfl | rfl | rfl <;> decide +kernel
  verified := by decide +kernel
  added := by decide +kernel
  reloads := by decide +kernel
  mint := by decide +kernel

theorem rivalCall_valid (n : ℕ) (hn : n < 3) :
    (rivalCall n).Valid rivalContext (rivalNode n) := by
  match n, hn with
  | 0, hn => exact ⟨by decide, rivalRun.previous 0 hn⟩
  | 1, hn => exact ⟨by decide, rivalRun.previous 1 hn⟩
  | 2, hn => exact ⟨by decide, rivalRun.previous 2 hn⟩

/-- The first two calls keep the index saved: the first block is built on the best block, and connects;
and the second one has no more trust. -/
theorem rivalNode_saved :
    Relation.ReflTransGen (CallStep rivalContext fun s call => call.Saves rivalContext s)
      (rivalNode 0) (rivalNode 2) := by
  have hfst : (rivalCall 0).Saves rivalContext (rivalNode 0) := by
    refine ⟨by decide, fun i s₁ hidx _ => ?_⟩
    obtain ⟨-, rfl⟩ := Prod.mk.inj (hidx.symm.trans
      (Prod.eta (indexBlock rivalContext 2 8 0 (rivalBlock 2) (rivalNode 0))).symm)
    refine ⟨fun hne => absurd ?_ hne, fun _ e t hfail => ?_, fun hne => absurd ?_ hne⟩
    · exact rivalRun.best
    · exact absurd (rivalRun.connects.symm.trans (congrArg Prod.fst hfail)) (by simp)
    · exact rivalRun.best
  have hsnd : (rivalCall 1).Saves rivalContext (rivalNode 1) := by
    refine ⟨by decide, fun i s₁ hidx htrust => absurd htrust ?_⟩
    have htrusts := rivalRun.trusts
    have hidx : indexBlock rivalContext 3 8 0 (rivalBlock 3) (rivalNode 1) = (.ok i, s₁) := hidx
    rw [hidx] at htrusts
    rw [htrusts.2, Except.ok.inj htrusts.1]
    decide
  have hstep₁ := rivalNode_step (.ok ()) (rivalCall_valid 0 (by decide)) hfst
    rivalRun.first (by simp [Returns])
  have hstep₂ := rivalNode_step (.ok ()) (rivalCall_valid 1 (by decide)) hsnd
    rivalRun.second (by simp [Returns])
  exact (Relation.ReflTransGen.single hstep₁).tail hstep₂

theorem rivalCall_returns (hn : n < 3) :
    Returns ((rivalCall n).run rivalContext (rivalNode n)).1 := by
  intro m
  match n, hn with
  | 0, _ =>
    rw [rivalRun.first]
    simp
  | 1, _ =>
    rw [rivalRun.second]
    simp
  | 2, _ =>
    rw [rivalRun.third]
    simp

theorem rivalNode_known (hn : n ≤ 3) {p : UInt256} (hp : (rivalNode n).mapBlockIndex p ≠ none) :
    p ∈ (List.range (n + 1)).map fun k => BitVec.ofNat 256 (k + 1) := by
  have hhash : ∀ n < 3, rivalContext.GetHash (rivalBlock (UInt32.ofNat (n + 2)))
      = BitVec.ofNat 256 (n + 2) := by decide
  induction n with
  | zero =>
    obtain ⟨s₀, env, nFile, nBlockPos, hashProof, genesis, hfresh, -, hgen, -, -, -, hadd⟩ :=
      rivalNode_installed.installed
    rcases addToBlockIndex_known hadd (fun m => by simp) hp with rfl | hnone
    · rw [hgen]
      decide
    · simp [hfresh.index] at hnone
  | succ n ih =>
    rw [List.range_succ, List.map_append]
    rcases addToBlockIndex_known (rivalNode_run rfl) (rivalCall_returns hn) hp with rfl | hp
    · rw [hhash n (by omega)]
      exact List.mem_append_right _ List.mem_cons_self
    · exact List.mem_append_left _ (ih (by omega) hp)

theorem rivalNode_scans : Scans (rivalNode 2).txdb.disk (storedRecords [1, 2, 3] (rivalNode 2)) := by
  obtain ⟨tip, h, -⟩ := saved_of_run rivalNode_installed rivalNode_saved
  exact h.scans (by decide) fun p => ⟨rivalRun.indexed p, rivalNode_known (show 2 ≤ 3 by decide)⟩

/-- After the first two calls, the process that is started on the disk has the block index and the best
block of the node. -/
theorem rivalNode_reloaded :
    ∃ s', LoadBlockIndex rivalContext (plainEnv 1000) .default
        (storedRecords [1, 2, 3] (rivalNode 2)) (restart (rivalNode 2)) = (.ok (), s') ∧
      Rebuilt (rivalNode 2) s' := by
  refine (reload_rebuilds rivalNode_installed rivalNode_saved).2 (plainEnv 1000) .default _ _
    rivalNode_scans ⟨rfl, rfl⟩ fun t ht => ?_
  have hgood := rivalRun.verified
  rw [ht] at hgood
  exact ⟨_, Action.eq_of_fst hgood⟩

theorem rivalNode_scans_undone :
    Scans (rivalNode 3).txdb.disk (storedRecords [1, 2, 3, 4] (rivalNode 3)) := by
  obtain ⟨tip, h, hbest⟩ := saved_of_run rivalNode_installed rivalNode_saved
  obtain ⟨hstor, hknown⟩ := rivalCall_valid 2 (by decide)
  have hrun := rivalNode_run rivalRun.third
  rcases h.addToBlockIndex_eq_error hbest hstor hknown (by decide) hrun (by simp [Returns])
    with hsame | ⟨i, s₁, hidx, h₁, hundone⟩
  · have hfour : (rivalNode 3).mapBlockIndex 4 = (rivalNode 2).mapBlockIndex 4 :=
      congrFun (congrArg Prod.fst hsame) 4
    exact absurd hfour rivalRun.added
  · have hdisk : ∀ key, s₁.txdb.disk (.blockindex key) = (rivalNode 3).txdb.disk (.blockindex key) := by
      intro key
      rw [← Store.view_of_closed h₁.closed, ← Store.view_of_closed hundone.closed]
      exact (hundone.view _ (by simp)).symm
    obtain ⟨hindexed, -⟩ := indexBlock_eq_ok hidx
    have hkeys : ∀ p, p ∈ ([1, 2, 3, 4] : List UInt256) ↔ s₁.mapBlockIndex p ≠ none := by
      intro p
      have hfour : rivalContext.GetHash (rivalBlock (UInt32.ofNat (2 + 2))) = 4 := by decide
      rw [hindexed.added, hfour, Function.update_apply]
      split
      · rename_i hp
        simp [hp]
      · rename_i hp
        refine ⟨fun hmem => ?_, fun hmem => ?_⟩
        · simp only [List.mem_cons, List.not_mem_nil, or_false, hp] at hmem
          exact rivalRun.indexed p (by simpa using hmem)
        · exact List.mem_append_left [4] (rivalNode_known (show 2 ≤ 3 by decide) hmem)
    have hscans := (h₁.scans (by decide) hkeys).congr hdisk
    simp only [hdisk] at hscans
    exact hscans

/-- The third call fails, and is undone on the disk: what the process loads there has no mint for the
first block of the other branch, which the node keeps in memory. -/
theorem rivalNode_not_rebuilt :
    Installed rivalContext (rivalNode 0) ∧
      Relation.ReflTransGen (CallStep rivalContext fun _ _ => True) (rivalNode 0) (rivalNode 3) ∧
      Scans (rivalNode 3).txdb.disk (storedRecords [1, 2, 3, 4] (rivalNode 3)) ∧
      Restarted (rivalNode 3) (restart (rivalNode 3)) ∧
      (reload [1, 2, 3, 4] (rivalNode 3)).1 = .ok () ∧
      ¬Rebuilt (rivalNode 3) (reload [1, 2, 3, 4] (rivalNode 3)).2 := by
  refine ⟨rivalNode_installed, ?_, rivalNode_scans_undone, ⟨rfl, rfl⟩, rivalRun.reloads,
    fun hrebuilt => ?_⟩
  · have hrun : Relation.ReflTransGen (CallStep rivalContext fun _ _ => True) (rivalNode 0)
        (rivalNode 2) := by
      refine Relation.ReflTransGen.mono (fun s s' hstep => ?_) _ _ rivalNode_saved
      obtain ⟨call, r, hvalid, -, hstep⟩ := hstep
      exact ⟨call, r, hvalid, trivial, hstep⟩
    exact hrun.tail (rivalNode_step _ (rivalCall_valid 2 (by decide)) trivial rivalRun.third
      (by simp [Returns]))
  · exact rivalRun.mint (congrArg _ (hrebuilt.index 3))

end ZalemCoin.Chain
