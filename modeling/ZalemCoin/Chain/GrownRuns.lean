import ZalemCoin.Chain.GrownBlocks

/-!
# Growing the branches

In an anchored state, connecting and disconnecting the blocks of the two branches succeeds, and so
does accepting the next block of a branch that is spaced as it should be. Starting with the genesis
block, a node can be brought to any two heights of the branches.
-/

namespace ZalemCoin.Chain

open Lib
open Lib.Action (bind_of_ok)

def NodeState.limits (s : NodeState) : Option UInt256 × ℕ × ℕ :=
  (s.pblockindexFBBHLast, s.MAX_BLOCK_SIZE, s.MAX_BLOCK_SIGOPS)

/-- The static variables and the limits are such that a block can be connected. -/
structure Workable (parent : UInt256 → Option UInt256) (tip : UInt256) (s : NodeState) : Prop where
  last : ∀ l, s.pblockindexFBBHLast = some l → IsAncestor parent l tip
  roomy : Roomy s

theorem Workable.congr {parent : UInt256 → Option UInt256} {tip : UInt256} {s s' : NodeState}
    (h : Workable parent tip s) (heq : s'.limits = s.limits) : Workable parent tip s' := by
  obtain ⟨hlast, hlims⟩ := Prod.mk.inj heq
  obtain ⟨hsize, hsigops⟩ := Prod.mk.inj hlims
  refine ⟨?_, ⟨?_, ?_⟩⟩
  · rw [hlast]
    exact h.last
  · rw [hsize]
    exact h.roomy.size
  · rw [hsigops]
    exact h.roomy.sigops

theorem Anchored.of_frame {touched : UInt256 → Prop} {s s' : NodeState} {genesis tip : UInt256}
    (h : Anchored s genesis tip) (hframe : ConnectFrame touched s s') :
    Anchored s' genesis tip where
  tree := h.tree.congr hframe.samePlace
  links := h.links.congr hframe.next_eq hframe.samePlace.parent_eq
  started := (pindexGenesisBlock_of_globals hframe.globals).trans h.started
  best := (pindexBest_of_globals hframe.globals).trans h.best
  known := (hframe.samePlace.ne_none_iff tip).mpr h.known
  onDisk p i' hi' := by
    obtain ⟨i, hi, hsame⟩ := hframe.samePlace.exists_eq hi'
    rw [show i'.nFile = i.nFile from (congrArg CBlockIndex.nFile hsame :)]
    exact h.onDisk p i hi

/-! ## Connecting and disconnecting -/

variable {time : ℕ → ℕ} {side : Bool} {h : ℕ} {s t : NodeState} {genesis tip p : UInt256}
  {i : CBlockIndex}

theorem keepsLimits_writeBlock (ctx : Context) (block : CBlock) (pindex : UInt256)
    (pprev : Option UInt256) (queue : TestPool) :
    KeepsPart NodeState.limits (writeBlock ctx block pindex pprev queue) :=
  KeepsPart.writeBlock block pindex pprev queue fun _ _ => rfl

theorem blockReward_isOk {ctx : Context} {best : CBlockIndex}
    (hbest : s.index s.pindexBest = .ok best) (nHeight : ℕ) :
    ∃ nReward, blockReward ctx s nHeight 0 = .ok nReward ∧ 0 ≤ nReward := by
  unfold blockReward randreward
  rw [hbest]
  simp only [bind, Except.bind, pure, Except.pure]
  split
  · split
    · exact ⟨_, rfl, by decide⟩
    · split <;> exact ⟨_, rfl, by decide⟩
  · split
    · exact ⟨_, rfl, le_rfl⟩
    · split <;> exact ⟨_, rfl, by decide⟩

theorem grownBlock_transactions (hroomy : Roomy s) (hh : h ≤ grownHeight) (i : CBlockIndex) :
    ∃ acc, connectTransactions (grownContext time) grownEnv s (grownBlock time side h) i false
      = .ok acc ∧ acc.nFees = 0 := by
  have hsigops := grownCoinbase_sigOps time side hh
  have hroom := hroomy.sigops
  have hval : (grownCoinbase time side h).GetValueOut = .ok 0 := rfl
  have hcb : (grownCoinbase time side h).IsCoinBase = true := rfl
  have hensure : ensure (0 + GetLegacySigOpCount (grownCoinbase time side h) ≤ s.MAX_BLOCK_SIGOPS)
      (Failure.reject 100 "ConnectBlock() : too many sigops") = .ok () :=
    ensure_eq_ok.mpr (by omega)
  have hone : ∃ acc, connectTransaction (grownContext time) grownEnv s i false
      (ConnectAcc.start (grownBlock time side h) i false) (grownCoinbase time side h) = .ok acc ∧
        acc.nFees = 0 := by
    unfold connectTransaction connectCoinBase
    rw [hcb, hval]
    simp only [bind, Except.bind, pure, Except.pure, cond_true]
    rw [show (ConnectAcc.start (grownBlock time side h) i false).nSigOps = 0 from rfl, hensure]
    exact ⟨_, rfl, rfl⟩
  obtain ⟨acc, hacc, hfees⟩ := hone
  refine ⟨acc, ?_, hfees⟩
  show [grownCoinbase time side h].foldlM _ _ = _
  rw [List.foldlM_cons, hacc]
  rfl

theorem grownBlock_evaluates (hroomy : Roomy s) (hh : h ≤ grownHeight)
    (hi : s.mapBlockIndex p = some i) {best : CBlockIndex}
    (hbest : s.index s.pindexBest = .ok best)
    (hprev : ∀ q, i.pprev = some q → s.mapBlockIndex q ≠ none) :
    ∃ r, evaluateBlock (grownContext time) grownEnv (grownBlock time side h) p false s = .ok r ∧
      r.1.pprev = i.pprev := by
  obtain ⟨acc, hacc, hfees⟩ := @grownBlock_transactions time side h s hroomy hh i
  obtain ⟨nReward, hrew, hpos⟩ := @blockReward_isOk s (grownContext time) best hbest i.nHeight
  have hchk : checkReward (grownContext time) s (grownBlock time side h) i acc = .ok () := by
    show (blockReward _ s i.nHeight acc.nFees >>= _) = _
    rw [hfees, hrew]
    exact ensure_eq_ok.mpr hpos
  obtain ⟨supply, hsup⟩ : ∃ supply, prevMoneySupply s i = .ok supply := by
    unfold prevMoneySupply
    rcases hq : i.pprev with _ | q
    · exact ⟨0, rfl⟩
    · obtain ⟨j, hidx, -⟩ := exists_index (hprev q hq)
      simp only [bind, Except.bind, hidx]
      exact ⟨_, rfl⟩
  refine ⟨(withSupply i supply acc, acc), ?_, rfl⟩
  unfold evaluateBlock
  rw [index_eq_ok.mpr hi]
  simp only [bind, Except.bind, hacc, hchk, hsup]
  rfl

theorem writeBlock_isOk {block : CBlock} {pprev : Option UInt256} {queue : TestPool}
    (hprev : ∀ q, pprev = some q → s.mapBlockIndex q ≠ none) :
    ∃ s', writeBlock (grownContext time) block p pprev queue s = (.ok (), s') := by
  rcases pprev with _ | q
  · exact ⟨_, rfl⟩
  · obtain ⟨j, hidx, -⟩ := exists_index (hprev q rfl)
    have hread : (Action.reading fun s => s.index (some q))
        { s with txdb := writeQueue s.txdb queue }
          = (.ok j, { s with txdb := writeQueue s.txdb queue }) := Prod.ext hidx rfl
    exact ⟨_, bind_of_ok hread⟩

theorem Anchored.succeeds_connectBlock (side : Bool) (hanchored : Anchored t genesis tip)
    (hi : t.mapBlockIndex p = some i)
    (hheight : t.height p ≤ t.height tip + NUM_BLOCKS_FOR_MEDIAN_BLOCK) (hh : h ≤ grownHeight)
    (htime : time h < 2 ^ 32) :
    Action.Succeeds (fun s => s.core = t.core ∧ Workable t.parent tip s)
      (ConnectBlock (grownContext time) grownEnv (grownBlock time side h) p false)
      fun _ s => ConnectFrame (· = p) t s ∧ Workable t.parent tip s := by
  rintro s ⟨hcore, hwork⟩
  have hp : t.mapBlockIndex p ≠ none := by simp [hi]
  -- The checks succeed, and change neither the core nor the limits.
  obtain ⟨s₁, hchk⟩ := checkBlock_of_checked (grownBlock_checked hwork.roomy hh htime)
  have hcore₁ := (keepsCore_checkBlock _ _ _ _ _ _).of_eq hchk
  have hlims₁ : s₁.limits = s.limits := by
    refine (keepsPart_checkBlock _ _ (fun s => ?_) _ _ _ _).of_eq hchk
    unfold NodeState.afterDownloadCheck
    split <;> rfl
  have hsized : Sized t tip s₁ := ⟨hcore₁.trans hcore, (hwork.congr hlims₁).last⟩
  obtain ⟨size, s₂, hcompute, hsized₂, hmin⟩ :=
    hanchored.succeeds_computeBlockSize hp hheight s₁ hsized
  have hcore₃ : (s₂.withLimits size).core = t.core := hsized₂.core
  have hroomy₃ : Roomy (s₂.withLimits size) := ⟨hmin, Nat.div_le_div_right hmin⟩
  have hanchored₃ := hanchored.congr hcore₃
  have hidx₃ := mapBlockIndex_of_core hcore₃
  obtain ⟨best, hbest, -⟩ := exists_index hanchored₃.known
  rw [← hanchored₃.best] at hbest
  have hprev : ∀ q, i.pprev = some q → (s₂.withLimits size).mapBlockIndex q ≠ none := by
    intro q hq
    rw [hidx₃]
    exact hanchored.tree.known p q ((parent_eq hi).trans hq)
  obtain ⟨r, hevaluate, hpprev⟩ := @grownBlock_evaluates time side h (s₂.withLimits size) p i
    hroomy₃ hh ((congrFun hidx₃ p).trans hi) best hbest hprev
  -- What is written after that is written next to known entries.
  obtain ⟨s₅, hwrite⟩ : ∃ s', writeBlock (grownContext time) (grownBlock time side h) p r.1.pprev
      r.2.mapQueuedChanges
      { (s₂.withLimits size).setIndex p r.1 with
        txdb := (s₂.withLimits size).txdb.WriteBlockIndex (grownContext time)
          (CDiskBlockIndex.of r.1) } = (.ok (), s') := by
    apply writeBlock_isOk
    intro q hq
    rw [hpprev] at hq
    show Function.update (s₂.withLimits size).mapBlockIndex p (some r.1) q ≠ none
    by_cases heq : q = p
    · rw [heq, Function.update_self]
      simp
    · rw [Function.update_of_ne heq]
      exact hprev q hq
  have hread : Action.reading (evaluateBlock (grownContext time) grownEnv (grownBlock time side h) p
      false) (s₂.withLimits size) = (.ok r, s₂.withLimits size) := Prod.ext hevaluate rfl
  have hrun : ConnectBlock (grownContext time) grownEnv (grownBlock time side h) p false s
      = (.ok r.2.sigLog, s₅) :=
    (bind_of_ok hchk).trans <| (bind_of_ok hcompute).trans <|
      (bind_of_ok hread).trans (bind_of_ok hwrite)
  refine ⟨r.2.sigLog, s₅, hrun, ?_, ?_⟩
  · have hframe : ConnectFrame (· = p) t s := ConnectFrame.of_core hcore
    exact hframe.trans ((keepsFrame_connectBlock _ _ _ _ _).of_eq hrun)
  · have hlims := (keepsLimits_writeBlock _ _ _ _ _).of_eq hwrite
    have hwork₃ : Workable t.parent tip (s₂.withLimits size) := ⟨hsized₂.last, hroomy₃⟩
    exact hwork₃.congr hlims

/-! ## Adding a block to the best chain -/

variable {q : UInt256} {j : CBlockIndex}

theorem txnBegin_of_closed (hclosed : s.txdb.activeBatch = none) :
    TxnBegin s = (.ok (), s.opened) := by
  unfold TxnBegin Store.txnBegin
  rw [hclosed]
  rfl

theorem txnCommit_of_open (hopen : s.txdb.activeBatch.isSome) :
    TxnCommit s = (.ok (), { s with txdb := ⟨s.txdb.view, none⟩ }) := by
  unfold TxnCommit
  rw [Store.txnCommit_eq_some.mpr ⟨hopen, rfl⟩]

theorem setNext_of_known (hq : s.mapBlockIndex q = some j) (pnext : Option UInt256) :
    setNext (some q) pnext s = (.ok (), s.setIndex q { j with pnext := pnext }) := by
  have hread : (Action.reading fun s => s.index (some q)) s = (.ok j, s) :=
    Prod.ext (index_eq_ok.mpr hq) rfl
  exact bind_of_ok hread

/-- Completing the addition of a block with a known parent succeeds, and sets the link of the
parent. -/
theorem finishTip_isOk {ctx : Context} {block : CBlock} (hopen : s.txdb.activeBatch.isSome)
    (hi : s.mapBlockIndex p = some i) (hprev : i.pprev = some q) (hq : s.mapBlockIndex q = some j) :
    ∃ s', finishTip ctx block p s = (.ok (), s') ∧
      s'.mapBlockIndex = Function.update s.mapBlockIndex q (some { j with pnext := some p }) ∧
      s'.txdb.activeBatch = none ∧ s'.pindexGenesisBlock = s.pindexGenesisBlock ∧
      s'.limits = s.limits := by
  have hread : (Action.reading fun s => s.index (some p)) { s with txdb := ⟨s.txdb.view, none⟩ }
      = (.ok i, { s with txdb := ⟨s.txdb.view, none⟩ }) := Prod.ext (index_eq_ok.mpr hi) rfl
  have hset : setNext i.pprev (some p) { s with txdb := ⟨s.txdb.view, none⟩ }
      = (.ok (), { s.setIndex q { j with pnext := some p } with
          txdb := ⟨s.txdb.view, none⟩ }) := by
    rw [hprev]
    exact @setNext_of_known { s with txdb := ⟨s.txdb.view, none⟩ } q j hq (some p)
  exact ⟨_, (bind_of_ok (txnCommit_of_open hopen)).trans <|
    (bind_of_ok hread).trans (bind_of_ok hset), rfl, rfl, rfl, rfl⟩

theorem setBestBlock_isOk (hash : UInt256) (hi : s.mapBlockIndex p = some i)
    (hprev : i.nHeight ≠ 0 → ∃ j, s.index i.pprev = .ok j) :
    ∃ s', setBestBlock hash p s = (.ok (), s') ∧ s'.mapBlockIndex = s.mapBlockIndex ∧
      s'.txdb = s.txdb ∧ s'.pindexGenesisBlock = s.pindexGenesisBlock ∧
      s'.hashBestChain = hash ∧ s'.pindexBest = some p ∧ s'.nBestChainTrust = i.nChainTrust ∧
      s'.limits = (none, s.limits.2) := by
  obtain ⟨s', hs'⟩ : ∃ s', s' = { s with
      hashBestChain := hash
      pindexBest := some p
      pblockindexFBBHLast := none
      nBestHeight := i.nHeight
      nBestChainTrust := i.nChainTrust } := ⟨_, rfl⟩
  refine ⟨s', ?_, by rw [hs'], by rw [hs'], by rw [hs'], by rw [hs'], by rw [hs'], by rw [hs'],
    by rw [hs']; rfl⟩
  have hread : (Action.reading fun s => s.index (some p)) s = (.ok i, s) :=
    Prod.ext (index_eq_ok.mpr hi) rfl
  have hlog : (if i.nHeight ≠ 0 then readBlockTrust i else pure () : NodeM Unit) s'
      = (.ok (), s') := by
    split
    · rename_i hne
      obtain ⟨j, hj⟩ := hprev hne
      have hread' : (Action.reading fun s => s.index i.pprev) s' = (.ok j, s') := by
        rw [hs']
        exact Prod.ext hj rfl
      exact bind_of_ok hread'
    · rfl
  rw [hs'] at hlog ⊢
  exact (bind_of_ok hread).trans hlog

theorem afterDownloadCheck_eq (ctx : Context) (env : Env) (s : NodeState) :
    ∃ pindexLastBest nLastUpdate, s.afterDownloadCheck ctx env
      = { s with pindexLastBest := pindexLastBest, nLastUpdate := nLastUpdate } := by
  unfold NodeState.afterDownloadCheck
  split
  · exact ⟨s.pindexLastBest, s.nLastUpdate, rfl⟩
  · exact ⟨s.pindexBest, env.time, rfl⟩

/-- The state of a node whose best chain ends at a block, ready for the next block. -/
structure AtTip (s : NodeState) (genesis tip : UInt256) : Prop where
  anchored : Anchored s genesis tip
  work : Workable s.parent tip s
  closed : s.txdb.activeBatch = none
  hashBestChain : s.hashBestChain = tip
  trust : ∃ i, s.mapBlockIndex tip = some i ∧ s.nBestChainTrust = i.nChainTrust

theorem LinksTo.step (hlinks : LinksTo s tip) (htree : BlockTree s genesis)
    (hpar : s.parent p = some tip) (hplace : t.parent = s.parent)
    (hnext : ∀ x, t.next x = if x = tip then some p else s.next x) : LinksTo t p := by
  intro a b hb hab
  rw [hplace] at hb hab
  rw [hnext]
  by_cases hbp : b = p
  · rw [hbp, hpar] at hab
    rw [if_pos (Option.some.inj hab).symm, hbp]
  · have hbtip : IsAncestor s.parent b tip := hb.of_ne hpar hbp
    have hstep := htree.heights b a hab
    have hle := htree.height_le hbtip
    have hne : a ≠ tip := by
      rintro rfl
      omega
    rw [if_neg hne]
    exact hlinks a b hbtip hab

/-- What attaching a block to the best chain has done: it is committed, and the last block has a link
to it. -/
structure Attached (s s' : NodeState) (tip p : UInt256) : Prop where
  place : SamePlace s s'
  next : ∀ x, s'.next x = if x = tip then some p else s.next x
  closed : s'.txdb.activeBatch = none
  genesis : s'.pindexGenesisBlock = s.pindexGenesisBlock
  roomy : Roomy s'

theorem AtTip.setBestChainInner_isOk (hs : AtTip s genesis tip) (hh : h ≤ grownHeight)
    (htime : time h < 2 ^ 32) (hi : s.mapBlockIndex (grownHash side h) = some i)
    (hprev : i.pprev = some tip) :
    ∃ s', SetBestChainInner (grownContext time) grownEnv (grownBlock time side h)
      (grownHash side h) s.opened = (.ok (), s') ∧ Attached s s' tip (grownHash side h) := by
  obtain ⟨hanchored, hwork, -, -, -⟩ := hs
  have hheight := hanchored.tree.heights _ _ ((parent_eq hi).trans hprev)
  have hopened : Anchored s.opened genesis tip :=
    ⟨hanchored.tree.congr fun _ => rfl, hanchored.links, hanchored.started, hanchored.best,
      hanchored.known, hanchored.onDisk⟩
  have hnear : s.opened.height (grownHash side h)
      ≤ s.opened.height tip + NUM_BLOCKS_FOR_MEDIAN_BLOCK := by
    show s.height _ ≤ s.height tip + 25
    omega
  -- Connecting the block.
  have hwork₀ : Workable s.opened.parent tip s.opened := hwork.congr rfl
  obtain ⟨log, s₁, hconn, hframe₁, hwork₁⟩ :=
    hopened.succeeds_connectBlock side hi hnear hh htime s.opened ⟨rfl, hwork₀⟩
  obtain ⟨s₂, htip, hframe₂, hlims₂⟩ : ∃ s₂, connectTip (grownContext time) grownEnv
      (grownBlock time side h) (grownHash side h) s.opened = (.ok (), s₂) ∧
        ConnectFrame (· = grownHash side h) s₁ s₂ ∧ s₂.limits = s₁.limits :=
    ⟨_, bind_of_ok hconn, ConnectFrame.of_txdb s₁ _ fun hopen => Store.perform_of_open hopen _, rfl⟩
  have hframe := hframe₁.trans hframe₂
  have hplace₂ : SamePlace s s₂ := hframe.samePlace
  obtain ⟨i₂, hi₂, hsame₂⟩ := hplace₂.symm.exists_eq hi
  have hprev₂ : i₂.pprev = some tip := (congrArg CBlockIndex.pprev hsame₂ :).symm.trans hprev
  obtain ⟨j₂, -, hj₂⟩ := exists_index ((hplace₂.ne_none_iff tip).mpr hanchored.known)
  -- Completing the addition.
  obtain ⟨s', hfin, hidx, hclosed, hgen, hlims⟩ :=
    @finishTip_isOk s₂ _ i₂ tip j₂ (grownContext time) (grownBlock time side h)
      (hframe.disk rfl).2 hi₂ hprev₂ hj₂
  have hrun : SetBestChainInner (grownContext time) grownEnv (grownBlock time side h)
      (grownHash side h) s.opened = (.ok (), s') :=
    (bind_of_ok (Action.handle_eq_ok.mpr (.inl htip))).trans hfin
  refine ⟨s', hrun, ?_, fun x => ?_, hclosed, ?_, ?_⟩
  · have hkeeps := (keepsPlaces_setBestChainInner _ _ _ _).of_eq hrun
    exact hkeeps
  · have hnext : s₂.next x = s.next x := congrFun hframe.next_eq x
    unfold NodeState.next at hnext ⊢
    rw [hidx]
    by_cases hx : x = tip
    · rw [hx, Function.update_self, if_pos rfl]
      rfl
    · rw [Function.update_of_ne hx, if_neg hx]
      exact hnext
  · rw [hgen]
    exact pindexGenesisBlock_of_globals hframe.globals
  · exact ((hwork₁.congr hlims₂).congr hlims).roomy

theorem AtTip.setBestChain_isOk (hs : AtTip s genesis tip) (hh : h ≤ grownHeight)
    (htime : time h < 2 ^ 32) (hi : s.mapBlockIndex (grownHash side h) = some i)
    (hprev : i.pprev = some tip) (hblock : (grownBlock time side h).hashPrevBlock = tip) :
    ∃ s', SetBestChain (grownContext time) grownEnv (grownBlock time side h) (grownHash side h) s
        = (.ok (), s') ∧ AtTip s' genesis (grownHash side h) := by
  obtain ⟨s₃, hinner, hattached⟩ := hs.setBestChainInner_isOk hh htime hi hprev
  obtain ⟨hanchored, -, hclosed, hhash, -⟩ := hs
  have hpar : s.parent (grownHash side h) = some tip := (parent_eq hi).trans hprev
  have hgethash : (grownContext time).GetHash (grownBlock time side h) = grownHash side h :=
    getHash_grownBlock hh
  have hmove : moveChain (grownContext time) grownEnv (grownBlock time side h) (grownHash side h)
      s.opened = (.ok (), s₃) := by
    unfold moveChain
    rw [if_neg (fun hnone => absurd (hanchored.started.symm.trans hnone.1) (by simp)),
      if_pos (show _ = s.opened.hashBestChain from hblock.trans hhash.symm)]
    exact reportAs_eq_ok.mpr hinner
  -- Setting the globals.
  obtain ⟨pindexLastBest, nLastUpdate, hstatics⟩ :=
    afterDownloadCheck_eq (grownContext time) grownEnv s₃
  obtain ⟨s₄, hs₄⟩ : ∃ s₄, s₄ = s₃.afterDownloadCheck (grownContext time) grownEnv := ⟨_, rfl⟩
  rw [hstatics] at hs₄
  have hplace₄ : SamePlace s s₄ := by
    rw [hs₄]
    exact hattached.place
  obtain ⟨i₄, hi₄, hsame₄⟩ := hplace₄.symm.exists_eq hi
  have hpprev₄ : i₄.pprev = some tip := (congrArg CBlockIndex.pprev hsame₄ :).symm.trans hprev
  have hprev₄ : ∃ j, s₄.index i₄.pprev = .ok j := by
    rw [hpprev₄]
    obtain ⟨j, hidx, -⟩ := exists_index ((hplace₄.ne_none_iff tip).mpr hanchored.known)
    exact ⟨j, hidx⟩
  obtain ⟨s', hset, hidx, htxdb, hgen, hbestHash, hbest, htrust, hlims⟩ :=
    setBestBlock_isOk ((grownContext time).GetHash (grownBlock time side h)) hi₄ fun _ => hprev₄
  have hrun : SetBestChain (grownContext time) grownEnv (grownBlock time side h)
      (grownHash side h) s = (.ok (), s') := by
    refine (bind_of_ok (txnBegin_of_closed hclosed)).trans ?_
    refine (bind_of_ok hmove).trans ?_
    have hmodify : (Action.modify fun s => s.afterDownloadCheck (grownContext time) grownEnv :
        NodeM Unit) s₃ = (.ok (), s₄) := by rw [Action.modify_apply, hstatics, hs₄]
    exact (bind_of_ok hmodify).trans hset
  have hplace : SamePlace s s' := (keepsPlaces_setBestChain _ _ _ _).of_eq hrun
  refine ⟨s', hrun, ⟨hanchored.tree.congr hplace, ?_, ?_, hbest, ?_, ?_⟩, ⟨?_, ?_⟩, ?_, ?_,
    ⟨i₄, ?_, htrust⟩⟩
  · refine hanchored.links.step hanchored.tree hpar hplace.parent_eq fun x => ?_
    rw [← hattached.next]
    unfold NodeState.next
    rw [hidx, hs₄]
  · rw [hgen, hs₄]
    exact hattached.genesis.trans hanchored.started
  · rw [hplace.ne_none_iff]
    simp [hi]
  · intro x i' hi'
    obtain ⟨k, hk, hsame⟩ := hplace.exists_eq hi'
    rw [show i'.nFile = k.nFile from (congrArg CBlockIndex.nFile hsame :)]
    exact hanchored.onDisk x k hk
  · intro l hl
    rw [show s'.pblockindexFBBHLast = none from (congrArg Prod.fst hlims :)] at hl
    simp at hl
  · obtain ⟨hsize, hsigops⟩ := Prod.mk.inj (congrArg Prod.snd hlims :)
    refine ⟨?_, ?_⟩
    · rw [hsize, hs₄]
      exact hattached.roomy.size
    · rw [hsigops, hs₄]
      exact hattached.roomy.sigops
  · rw [htxdb, hs₄]
    exact hattached.closed
  · rw [hbestHash, hgethash]
  · rw [hidx]
    exact hi₄

end ZalemCoin.Chain
