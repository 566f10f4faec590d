import ZalemCoin.Chain.ChainSteps

/-!
# Moving to the chain of a block, and making its entry

`SetBestChain` sets the globals to the block that it was asked for. The database and the links are
then those of that block when every postponed block connects, and otherwise those of the last one
that did. Making the entry of a block changes neither.
-/

namespace ZalemCoin.Chain

open Lib

/-! ## Moving to the chain of a block -/

variable {ctx : Context} {s s' : NodeState} {tip p : UInt256} {above : List UInt256}
  {block : CBlock} {i : CBlockIndex}

section

variable {env : Env} {e : Failure}

/-- The condition under which moving to the chain of a block reaches that block: when it is not
built on the best block, every block that the switch postpones connects. -/
def MoveCompletes (ctx : Context) (env : Env) (block : CBlock) (pindexNew : UInt256)
    (s : NodeState) : Prop :=
  block.hashPrevBlock ≠ s.hashBestChain → PostponedConnect ctx env pindexNew s

/-- A block of the index that the chain may be moved to. -/
structure Requested (ctx : Context) (s : NodeState) (block : CBlock) (p : UInt256)
    (i : CBlockIndex) : Prop where
  entry : s.mapBlockIndex p = some i
  stored : ctx.files.block i.nFile i.nBlockPos = some block
  hash : ctx.GetHash block = p
  root : i.pprev = none → block.hashPrevBlock ≠ s.hashBestChain

theorem Requested.parent_eq_tip (hreq : Requested ctx s block p i) (hbest : BestIs s tip)
    (hlink : ∀ q, i.pprev = some q → block.hashPrevBlock = q)
    (hprev : block.hashPrevBlock = s.hashBestChain) : i.pprev = some tip := by
  rcases hpar : i.pprev with _ | q
  · exact absurd hprev (hreq.root hpar)
  · rw [← hlink q hpar, hprev, hbest.hashBestChain]

theorem Requested.parent_of_hashPrevBlock (hreq : Requested ctx s block p i)
    (hchain : ChainAt ctx s tip above) (hbest : BestIs s tip)
    (hprev : block.hashPrevBlock = s.hashBestChain) : i.pprev = some tip := by
  obtain ⟨block', hstor', -, hlink⟩ := hchain.index.stored p i hreq.entry
  obtain rfl := Option.mem_unique hreq.stored hstor'
  exact hreq.parent_eq_tip hbest (fun q hq => (hlink q hq).symm) hprev

theorem moveChain_opened (hstarted : s.pindexGenesisBlock ≠ none) :
    moveChain ctx env block p s.opened
      = (if block.hashPrevBlock = s.hashBestChain then
          reportAs "SetBestChain() : SetBestChainInner failed" (SetBestChainInner ctx env block p)
        else switchBranch ctx env p) s.opened :=
  congrFun (if_neg fun hn => hstarted hn.1) s.opened

theorem reportAs_eq_error {α : Type} {msg : String} {x : NodeM α}
    (h : reportAs msg x s = (.error e, s')) (hret : Returns (.error e : Except Failure α)) :
    ∃ e', x s = (.error e', s') ∧ Returns (.error e' : Except Failure α) := by
  unfold reportAs Action.handle at h
  rcases hx : x s with ⟨e' | a, t⟩ <;> rw [hx] at h
  · obtain ⟨he, rfl⟩ := Prod.mk.inj h
    refine ⟨e', rfl, fun m hm => ?_⟩
    cases hm
    exact hret m he.symm
  · simp at h

theorem setBestBlock_eq_ok {hash : UInt256} (hstarted : s.pindexGenesisBlock ≠ none)
    (hhash : hash = p) (h : setBestBlock hash p s = (.ok (), s')) :
    BestIs s' p ∧ s'.mapBlockIndex = s.mapBlockIndex ∧ s'.txdb = s.txdb := by
  obtain ⟨i, hi, h⟩ := Action.reading_bind_eq_ok.mp h
  have hlog := Action.modify_bind_eq_ok.mp h
  have hkeeps : KeepsPart (fun s => s)
      (if i.nHeight ≠ 0 then readBlockTrust i else pure () : NodeM Unit) :=
    KeepsPart.ite (KeepsPart.bind (KeepsPart.reading _) fun _ => KeepsPart.pure _)
      (KeepsPart.pure _)
  obtain rfl := hkeeps.of_eq hlog
  have hi := index_eq_ok.mp hi
  exact ⟨⟨hstarted, rfl, hhash, by rw [← height_eq hi]; rfl⟩, rfl, rfl⟩

theorem NeverRejects.setBestBlock (hash p : UInt256) : NeverRejects (setBestBlock hash p) := by
  refine bind (index fun _ => some p) fun i => bind (modify _) fun _ => ite ?_ (pure _)
  exact bind (index fun _ => i.pprev) fun _ => pure _

/-- The end of `SetBestChain` names the requested block as the best one, and leaves the database and
the links alone. -/
theorem finishMove_eq_ok (hstarted : s.pindexGenesisBlock ≠ none) (hhash : ctx.GetHash block = p)
    (h : (Action.modify (fun s => s.afterDownloadCheck ctx env) >>= fun _ =>
      setBestBlock (ctx.GetHash block) p) s = (.ok (), s')) :
    BestIs s' p ∧ s'.mapBlockIndex = s.mapBlockIndex ∧ s'.txdb = s.txdb := by
  have hset := Action.modify_bind_eq_ok.mp h
  have hpart := chainPart_afterDownloadCheck ctx env s
  have hgen : (s.afterDownloadCheck ctx env).pindexGenesisBlock = s.pindexGenesisBlock :=
    (congrArg (fun part => part.2.2.1) hpart :)
  obtain ⟨hnew, hidx, htxdb⟩ := setBestBlock_eq_ok (hgen ▸ hstarted) hhash hset
  exact ⟨hnew, hidx.trans (congrArg Prod.fst hpart :),
    htxdb.trans (congrArg (fun part => part.2.1) hpart :)⟩

theorem startChain_eq_ok (hchained : Chained ctx s [p]) (hidx : IndexOk ctx s)
    (hlinks : Linked s (· ∈ ([] : List UInt256))) (hclosed : s.txdb.activeBatch = none)
    (hemp : ∀ hash, s.txdb.txIndex hash = none)
    (h : startChain p p s.opened = (.ok (), s')) :
    ChainAt ctx s' p [] ∧ s'.pindexGenesisBlock ≠ none := by
  replace h := Action.modify_bind_eq_ok.mp h
  obtain ⟨⟨⟩, t, hcom, h⟩ := Action.bind_eq_ok.mp h
  cases h
  have hled : s.opened.txdb.txIndex = chainLedger ctx s.opened [p] := by
    funext hash
    refine (congrFun (view_opened hclosed) (DbKey.tx hash)).trans ?_
    exact hemp hash
  have hchained' : Chained ctx s.opened [p] := hchained.congr fun _ _ => rfl
  have hconn := Connected.of_write hchained' hled
  have hlinks' : Linked t (· ∈ ([] : List UInt256)) := by
    rw [txnCommit_eq_ok hcom]
    exact hlinks
  obtain ⟨hchain, -⟩ := hconn.commit (hidx.congr fun _ => rfl) hcom (LinkFrame.refl t) hlinks'
  exact ⟨hchain.of_eq rfl rfl, by simp⟩

theorem setBestChain_of_error (h : SetBestChain ctx env block p s = (.error e, s'))
    (hret : Returns (.error e : Except Failure Unit)) :
    moveChain ctx env block p s.opened = (.error e, s') := by
  rcases Action.bind_eq_error.mp h with hbegin | ⟨⟨⟩, t, hbegin, h⟩
  · exact absurd (txnBegin_of_returns hbegin hret) (by simp)
  obtain ⟨-, rfl⟩ := txnBegin_eq_ok hbegin
  rcases Action.bind_eq_error.mp h with hmove | ⟨⟨⟩, t₁, -, h⟩
  · exact hmove
  obtain ⟨m, rfl⟩ := (NeverRejects.bind (NeverRejects.modify _) fun _ =>
    NeverRejects.setBestBlock _ _) _ _ _ h
  exact absurd rfl (hret m)

theorem setBestChain_parts (h : SetBestChain ctx env block p s = (.ok (), s')) :
    ∃ t, moveChain ctx env block p s.opened = (.ok (), t) ∧
      (Action.modify (fun s => s.afterDownloadCheck ctx env) >>= fun _ =>
        setBestBlock (ctx.GetHash block) p) t = (.ok (), s') := by
  obtain ⟨⟨⟩, t, hbegin, h⟩ := Action.bind_eq_ok.mp h
  obtain ⟨-, rfl⟩ := txnBegin_eq_ok hbegin
  obtain ⟨⟨⟩, t, hmove⟩ := Action.bind_eq_ok.mp h
  exact ⟨t, hmove⟩

variable (hchain : ChainAt ctx s tip above) (hbest : BestIs s tip)
  (hreq : Requested ctx s block p i)
include hchain hbest hreq

theorem moveChain_eq_ok (h : moveChain ctx env block p s.opened = (.ok (), s')) :
    ∃ b above', ChainAt ctx s' b above' ∧ Unmoved s s' ∧
      (b = p ↔ MoveCompletes ctx env block p s) := by
  rw [moveChain_opened hbest.started] at h
  split at h
  · rename_i hprev
    have hpar := hreq.parent_of_hashPrevBlock hchain hbest hprev
    obtain ⟨hnew, hunm⟩ := setBestChainInner_eq_ok hchain hreq.entry hpar hreq.stored
      hreq.hash (reportAs_eq_ok.mp h)
    exact ⟨p, tip :: above, hnew, hunm, iff_of_true rfl fun hne => absurd hprev hne⟩
  · rename_i hprev
    obtain ⟨b, above', hb, hunm, hiff⟩ := switchBranch_eq_ok hchain hbest.pindexBest h
    refine ⟨b, above', hb, hunm, hiff.trans ⟨fun hpost _ => hpost, fun hmove => hmove hprev⟩⟩

theorem moveChain_eq_error (h : moveChain ctx env block p s.opened = (.error e, s'))
    (hret : Returns (.error e : Except Failure Unit)) :
    ChainAt ctx s' tip above ∧ Unmoved s s' := by
  rw [moveChain_opened hbest.started] at h
  split at h
  · rename_i hprev
    have hpar := hreq.parent_of_hashPrevBlock hchain hbest hprev
    obtain ⟨e', hinner, hret'⟩ := reportAs_eq_error h hret
    exact setBestChainInner_eq_error hchain (hchain.not_mem ((parent_eq hreq.entry).trans hpar))
      hinner hret'
  · exact switchBranch_eq_error hchain hbest.pindexBest h hret

theorem setBestChain_eq_ok (h : SetBestChain ctx env block p s = (.ok (), s')) :
    ∃ b above', ChainAt ctx s' b above' ∧ BestIs s' p ∧ SamePlace s s' ∧
      (b = p ↔ MoveCompletes ctx env block p s) := by
  obtain ⟨t, hmove, h⟩ := setBestChain_parts h
  obtain ⟨b, above', hb, hunm, hiff⟩ := moveChain_eq_ok hchain hbest hreq hmove
  obtain ⟨hnew, hidx, htxdb⟩ := finishMove_eq_ok (hbest.congr hunm).started hreq.hash h
  exact ⟨b, above', hb.of_eq hidx htxdb, hnew, fun q => by rw [hidx]; exact hunm.place q, hiff⟩

theorem setBestChain_eq_error (h : SetBestChain ctx env block p s = (.error e, s'))
    (hret : Returns (.error e : Except Failure Unit)) :
    ChainAt ctx s' tip above ∧ Unmoved s s' :=
  moveChain_eq_error hchain hbest hreq (setBestChain_of_error h hret) hret

end

/-! ## Making an entry -/

variable {nFile nBlockPos : UInt32} {hashProof : UInt256}

/-- What making the entry of a block has done: the entry is new, and nothing else has changed but
the entry's copy in the database. -/
structure Indexed (ctx : Context) (s s' : NodeState) (nFile nBlockPos : UInt32) (block : CBlock)
    (i : CBlockIndex) : Prop where
  fresh : s.mapBlockIndex (ctx.GetHash block) = none
  added : s'.mapBlockIndex = Function.update s.mapBlockIndex (ctx.GetHash block) (some i)
  place : i.nFile = nFile ∧ i.nBlockPos = nBlockPos
  parent : i.pprev = (s.mapBlockIndex block.hashPrevBlock).map fun _ => block.hashPrevBlock
  height : i.nHeight = ((s.mapBlockIndex block.hashPrevBlock).map fun j => j.nHeight + 1).getD 0
  blank : i.pnext = none ∧ i.nMoneySupply = 0
  best : s'.best = s.best
  closed : s'.txdb.activeBatch = none
  /-- Nothing but an entry of the block index is written. -/
  read : ∀ key, (∀ hash, key ≠ .blockindex hash) → s'.txdb.view key = s.txdb.view key

theorem newBlockIndex_eq_ok {mapBlockIndex : UInt256 → Option CBlockIndex} {nSequenceId : UInt32}
    (h : newBlockIndex ctx mapBlockIndex nFile nBlockPos hashProof nSequenceId block = .ok i) :
    (i.nFile = nFile ∧ i.nBlockPos = nBlockPos) ∧
      i.pprev = (mapBlockIndex block.hashPrevBlock).map (fun _ => block.hashPrevBlock) ∧
      i.nHeight = ((mapBlockIndex block.hashPrevBlock).map fun j => j.nHeight + 1).getD 0 ∧
      i.pnext = none ∧ i.nMoneySupply = 0 := by
  unfold newBlockIndex at h
  dsimp only at h
  split at h
  · simp at h
  · cases h
    exact ⟨⟨rfl, rfl⟩, rfl, rfl, rfl, rfl⟩

theorem indexBlock_eq_ok
    (h : indexBlock ctx nFile nBlockPos hashProof block s = (.ok i, s')) :
    Indexed ctx s s' nFile nBlockPos block i ∧ s.txdb.activeBatch = none := by
  obtain ⟨hfresh, hclosed, nSequenceId, hnew, rfl⟩ := indexBlock_parts h
  obtain ⟨hplace, hpar, hheight, hblank⟩ := newBlockIndex_eq_ok hnew
  refine ⟨⟨hfresh, rfl, hplace, hpar, hheight, hblank, rfl, rfl, ?_⟩, hclosed⟩
  intro key hkey
  have hview : ∀ txdb : CTxDB, (txdb.WriteBlockIndex ctx (CDiskBlockIndex.of i)).view key
      = txdb.view key := by
    intro txdb
    unfold CTxDB.WriteBlockIndex
    rw [Store.view_write, Function.update_of_ne (hkey _)]
  exact (hview _).trans (congrFun (view_opened hclosed) key)

theorem indexBlock_eq_error {e : Failure}
    (h : indexBlock ctx nFile nBlockPos hashProof block s = (.error e, s'))
    (hret : Returns (.error e : Except Failure CBlockIndex)) : s'.chainPart = s.chainPart := by
  rcases Action.bind_eq_error.mp h with hread | ⟨nSequenceId, t, hread, h⟩
  · obtain ⟨-, rfl⟩ := Prod.mk.inj hread
    rfl
  obtain ⟨-, rfl⟩ := Prod.mk.inj hread
  rcases Action.bind_eq_error.mp h with hmodify | ⟨⟨⟩, t, hmodify, h⟩
  · simp at hmodify
  obtain ⟨-, rfl⟩ := Prod.mk.inj hmodify
  rcases Action.bind_eq_error.mp h with hread | ⟨i, t, hread, h⟩
  · obtain ⟨-, rfl⟩ := Prod.mk.inj hread
    rfl
  -- From here on, only an assertion can stop the call.
  obtain ⟨m, rfl⟩ : ∃ m, e = .crash m := by
    refine (NeverRejects.bind (NeverRejects.modify _) fun _ =>
      NeverRejects.bind NeverRejects.txnBegin fun _ =>
        NeverRejects.bind (NeverRejects.modify _) fun _ =>
          NeverRejects.bind NeverRejects.txnCommit fun _ => NeverRejects.pure _) _ _ _ h
  exact absurd rfl (hret m)

/-- Either no entry is made, with the chain as it was, or the chain is moved to the new block when that
has more trust than the best one. -/
theorem addToBlockIndex_cases {env : Env} {r : Except Failure Unit}
    (h : AddToBlockIndex ctx env nFile nBlockPos hashProof block s = (r, s')) (hret : Returns r) :
    (∃ e, r = .error e ∧ s'.chainPart = s.chainPart) ∨
      ∃ i s₁, indexBlock ctx nFile nBlockPos hashProof block s = (.ok i, s₁) ∧
        (s₁.nBestChainTrust < i.nChainTrust ∧
            SetBestChain ctx env block (ctx.GetHash block) s₁ = (r, s') ∨
          r = .ok () ∧ s' = s₁) := by
  unfold AddToBlockIndex at h
  rw [Action.bind_apply] at h
  rcases hrun : indexBlock ctx nFile nBlockPos hashProof block s with ⟨e | i, s₁⟩ <;> rw [hrun] at h
  · cases h
    exact .inl ⟨e, rfl, indexBlock_eq_error hrun fun m hm => hret m (by rw [Except.error.inj hm])⟩
  · refine .inr ⟨i, s₁, rfl, ?_⟩
    change (if s₁.nBestChainTrust < i.nChainTrust then SetBestChain ctx env block (ctx.GetHash block)
      else pure ()) s₁ = (r, s') at h
    split at h
    · rename_i htrust
      exact .inl ⟨htrust, h⟩
    · cases h
      exact .inr ⟨rfl, rfl⟩

namespace Indexed

variable (h : Indexed ctx s s' nFile nBlockPos block i)
include h

theorem entry_of_ne (hp : p ≠ ctx.GetHash block) :
    s'.mapBlockIndex p = s.mapBlockIndex p := by
  rw [h.added, Function.update_of_ne hp]

theorem parent_of_ne (hp : p ≠ ctx.GetHash block) : s'.parent p = s.parent p := by
  unfold NodeState.parent
  rw [h.entry_of_ne hp]

theorem entry_self : s'.mapBlockIndex (ctx.GetHash block) = some i := by
  rw [h.added, Function.update_self]

theorem prev_ne (hknown : s.mapBlockIndex block.hashPrevBlock ≠ none) :
    block.hashPrevBlock ≠ ctx.GetHash block := by
  intro heq
  rw [heq] at hknown
  exact hknown h.fresh

theorem parent_ne (hparents : ∀ p q, s.parent p = some q → s.mapBlockIndex q ≠ none) {q : UInt256}
    (hknown : s.mapBlockIndex block.hashPrevBlock ≠ none) (hpq : s'.parent p = some q) :
    q ≠ ctx.GetHash block := by
  rintro rfl
  by_cases hp : p = ctx.GetHash block
  · rw [hp, parent_eq h.entry_self, h.parent] at hpq
    obtain ⟨_, _, hq⟩ := Option.map_eq_some_iff.mp hpq
    exact h.prev_ne hknown hq
  · rw [h.parent_of_ne hp] at hpq
    exact hparents p _ hpq h.fresh

theorem parent_self (hknown : s.mapBlockIndex block.hashPrevBlock ≠ none) :
    s'.parent (ctx.GetHash block) = some block.hashPrevBlock := by
  obtain ⟨j, hj⟩ := Option.ne_none_iff_exists'.mp hknown
  rw [parent_eq h.entry_self, h.parent, hj]
  rfl

theorem requested (hknown : s.mapBlockIndex block.hashPrevBlock ≠ none)
    (hstor : ctx.files.block nFile nBlockPos = some block) :
    Requested ctx s' block (ctx.GetHash block) i where
  entry := h.entry_self
  stored := by rw [h.place.1, h.place.2, hstor]
  hash := rfl
  root hnone := by
    rw [← parent_eq h.entry_self, h.parent_self hknown] at hnone
    simp at hnone

theorem height_of_ne (hp : p ≠ ctx.GetHash block) : s'.height p = s.height p := by
  unfold NodeState.height
  rw [h.entry_of_ne hp]

theorem height_self (hknown : s.mapBlockIndex block.hashPrevBlock ≠ none) :
    s'.height (ctx.GetHash block) = s.height block.hashPrevBlock + 1 := by
  obtain ⟨j, hj⟩ := Option.ne_none_iff_exists'.mp hknown
  rw [height_eq h.entry_self, height_eq hj, h.height, hj]
  rfl

theorem heightsOk (hheights : HeightsOk s)
    (hparents : ∀ p q, s.parent p = some q → s.mapBlockIndex q ≠ none)
    (hknown : s.mapBlockIndex block.hashPrevBlock ≠ none) : HeightsOk s' := by
  intro p q hpq
  rw [h.height_of_ne (h.parent_ne hparents hknown hpq)]
  by_cases hp : p = ctx.GetHash block
  · rw [hp] at hpq ⊢
    obtain rfl := Option.some.inj ((h.parent_self hknown).symm.trans hpq)
    exact h.height_self hknown
  · rw [h.parent_of_ne hp] at hpq
    rw [h.height_of_ne hp]
    exact hheights p q hpq

theorem known_parents (hparents : ∀ p q, s.parent p = some q → s.mapBlockIndex q ≠ none)
    (hknown : s.mapBlockIndex block.hashPrevBlock ≠ none) {q : UInt256}
    (hpq : s'.parent p = some q) : s'.mapBlockIndex q ≠ none := by
  rw [h.entry_of_ne (h.parent_ne hparents hknown hpq)]
  by_cases hp : p = ctx.GetHash block
  · rw [hp] at hpq
    obtain rfl := Option.some.inj ((h.parent_self hknown).symm.trans hpq)
    exact hknown
  · rw [h.parent_of_ne hp] at hpq
    exact hparents p q hpq

theorem branch_of_not_mem {path : List UInt256} (hb : Branch s'.parent p path)
    (hpath : ctx.GetHash block ∉ path) : Branch s.parent p path := by
  refine hb.congr fun x hx => (h.parent_of_ne ?_).symm
  rintro rfl
  exact hpath hx

theorem connectedTxs_of_not_mem {path : List UInt256} (hpath : ctx.GetHash block ∉ path) :
    connectedTxs ctx s' path = connectedTxs ctx s path := by
  refine connectedTxs_congr ctx fun p hp => ?_
  rw [h.entry_of_ne fun heq => hpath (heq ▸ hp)]

/-- Indexing a stored block whose transactions are new keeps the index good. -/
theorem indexOk (hidx : IndexOk ctx s)
    (hknown : s.mapBlockIndex block.hashPrevBlock ≠ none)
    (hstor : ctx.files.block nFile nBlockPos = some block)
    (hids : ∀ path, Branch s.parent block.hashPrevBlock path →
      DistinctIds ctx
        (connectedTxs ctx s path ++ placedTransactions nFile nBlockPos block.vtx)) :
    IndexOk ctx s' := by
  have hself := h.parent_self hknown
  refine ⟨h.heightsOk hidx.heights hidx.known hknown, fun p i' hi' => ?_,
    fun p q hpq => h.known_parents hidx.known hknown hpq, fun p path hb => ?_⟩
  · by_cases hp : p = ctx.GetHash block
    · rw [hp, h.entry_self] at hi'
      cases hi'
      refine ⟨block, ?_, hp.symm, fun q hq => ?_⟩
      · rw [h.place.1, h.place.2]
        exact hstor
      · rw [parent_eq h.entry_self] at hself
        exact Option.mem_unique hq hself
    · rw [h.entry_of_ne hp] at hi'
      exact hidx.stored p i' hi'
  · -- The new block can only be the first one of a branch, since it is nobody's parent.
    cases hb with
    | root hroot => exact List.Pairwise.nil
    | @step _ q path hpq hq =>
      have hnot : ctx.GetHash block ∉ path := by
        intro hmem
        rcases Relation.ReflTransGen.cases_tail (hq.mem_iff.mp hmem) with heq | ⟨y, -, hy⟩
        · exact h.parent_ne hidx.known hknown hpq heq.symm
        · exact h.parent_ne hidx.known hknown hy rfl
      have hq' := h.branch_of_not_mem hq hnot
      obtain ⟨rest, rfl⟩ := hq.eq_cons
      by_cases hp : p = ctx.GetHash block
      · rw [hp] at hpq ⊢
        obtain rfl := Option.mem_unique hself hpq
        rw [connectedTxs, h.connectedTxs_of_not_mem hnot, txsOf_eq h.entry_self
          (by rw [h.place.1, h.place.2]; exact hstor), h.place.1, h.place.2]
        exact hids _ hq'
      · have hnot' : ctx.GetHash block ∉ p :: q :: rest := by
          rw [List.mem_cons]
          rintro (heq | hmem)
          · exact hp heq.symm
          · exact hnot hmem
        rw [h.connectedTxs_of_not_mem hnot']
        exact hidx.distinct p _
          (h.branch_of_not_mem (Branch.step hpq hq) hnot')

theorem chainAt (hchain : ChainAt ctx s tip above) (hidx : IndexOk ctx s') :
    ChainAt ctx s' tip above := by
  have hne : ∀ p ∈ tip :: above, p ≠ ctx.GetHash block := by
    rintro p hp rfl
    obtain ⟨j, hj⟩ := hchain.chained.exists_entry hp
    exact absurd (hj.symm.trans h.fresh) (by simp)
  refine ⟨hchain.toConnected.congr (fun p hp => ?_) ?_ (h.read _ (by simp)), hidx, h.closed, ?_⟩
  · unfold SameEntry
    rw [h.entry_of_ne (hne p hp)]
  · funext hash
    exact h.read _ (by simp)
  · intro p j hj
    by_cases hp : p = ctx.GetHash block
    · rw [hp, h.entry_self] at hj
      cases hj
      rw [h.blank.1]
      refine iff_of_false (by simp) fun hmem => ?_
      exact hne p (List.mem_cons_of_mem _ hmem) hp
    · rw [h.entry_of_ne hp] at hj
      exact hchain.links p j hj

theorem bestIs (hbest : BestIs s p) (hp : s.mapBlockIndex p ≠ none) :
    BestIs s' p := by
  have hsame := h.best
  unfold NodeState.best at hsame
  obtain ⟨hgen, hidx, hhash, hheight⟩ : _ ∧ _ ∧ _ ∧ _ := by simpa using hsame
  refine ⟨hgen ▸ hbest.started, hidx.trans hbest.pindexBest, hhash.trans hbest.hashBestChain, ?_⟩
  have hne : p ≠ ctx.GetHash block := fun heq => hp (heq ▸ h.fresh)
  rw [hheight, hbest.nBestHeight]
  unfold NodeState.height
  rw [h.entry_of_ne hne]

end Indexed

end ZalemCoin.Chain
