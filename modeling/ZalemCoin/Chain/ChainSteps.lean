import ZalemCoin.Chain.ChainInvariant

/-!
# The three ways to move the best chain

Adding a block to the best chain and switching to another branch take the invariant of the old
branch to that of the new one, or restore it. The blocks that a switch has postponed are added one
after the other, up to the first one that does not connect, so that the branch that is reached is
the requested one exactly when all of them connect.
-/

namespace ZalemCoin.Chain

open Lib
open Except (error.inj ok.inj)
open Prod (mk.inj)

/-! ## Actions that do not fail -/

theorem index_eq_error {s : NodeState} {p : Option UInt256} {e : Failure}
    (h : s.index p = .error e) : ∃ m, e = .crash m := by
  unfold NodeState.index at h
  split at h
  · simp at h
  · exact ⟨_, (error.inj h).symm⟩

/-- An action that fails only by stopping the process. -/
def NeverRejects {α : Type} (x : NodeM α) : Prop :=
  ∀ s e t, x s = (.error e, t) → ∃ m, e = .crash m

namespace NeverRejects

variable {α β : Type}

theorem pure (a : α) : NeverRejects (Pure.pure a : NodeM α) := fun _ _ _ h => by simp at h

theorem modify (f : NodeState → NodeState) : NeverRejects (Action.modify f : NodeM Unit) :=
  fun _ _ _ h => by simp at h

variable {x : NodeM α}

theorem bind {f : α → NodeM β} (hx : NeverRejects x) (hf : ∀ a, NeverRejects (f a)) :
    NeverRejects (x >>= f) := by
  intro s e t h
  rcases Action.bind_eq_error.mp h with h | ⟨a, t', -, h⟩
  · exact hx s e t h
  · exact hf a t' e t h

theorem ite {c : Prop} [Decidable c] {y : NodeM α} (hx : NeverRejects x) (hy : NeverRejects y) :
    NeverRejects (if c then x else y) := by
  split
  · exact hx
  · exact hy

theorem forM {γ : Type} {f : γ → NodeM Unit} (h : ∀ a, NeverRejects (f a)) (l : List γ) :
    NeverRejects (l.forM f) := by
  induction l with
  | nil => exact pure _
  | cons a l ih => exact bind (h a) fun _ => ih

theorem index (p : NodeState → Option UInt256) :
    NeverRejects (Action.reading fun s => s.index (p s) : NodeM CBlockIndex) :=
  fun _ _ _ h => index_eq_error (congrArg Prod.fst h :)

theorem attempt (x : NodeM Unit) : NeverRejects (attempt x) := by
  intro s e t h
  unfold Chain.attempt Action.handle at h
  rcases hx : (x >>= fun _ => Pure.pure true) s with ⟨e' | b, t'⟩ <;> rw [hx] at h
  · cases e' with
    | crash m => exact ⟨m, (error.inj (mk.inj h).1).symm⟩
    | reject n m => simp at h
  · simp at h

theorem txnBegin : NeverRejects TxnBegin := by
  intro s e t h
  unfold TxnBegin at h
  split at h
  · simp at h
  · exact ⟨_, (error.inj (mk.inj h).1).symm⟩

theorem txnCommit : NeverRejects TxnCommit := by
  intro s e t h
  unfold TxnCommit at h
  split at h
  · simp at h
  · exact ⟨_, (error.inj (mk.inj h).1).symm⟩

theorem setNext (pindex pnext : Option UInt256) : NeverRejects (setNext pindex pnext) :=
  bind (index fun _ => pindex) fun _ => modify _

theorem linkPrev (pnext : UInt256 → Option UInt256) (p : UInt256) :
    NeverRejects (linkPrev pnext p) := by
  refine bind (index fun _ => some p) fun i => ?_
  rcases i.pprev with _ | q
  · exact pure _
  · exact setNext _ _

theorem updateMempool (ctx : Context) (env : Env) (vResurrect vDelete : List CTransaction) :
    NeverRejects (updateMempool ctx env vResurrect vDelete) :=
  bind (forM (fun _ => bind (attempt _) fun _ => pure _) _) fun _ => modify _

theorem finishSwitch (ctx : Context) (env : Env) (switched : Switched) :
    NeverRejects (finishSwitch ctx env switched) :=
  bind txnCommit fun _ => bind (forM (linkPrev _) _) fun _ => bind (forM (linkPrev _) _) fun _ =>
    updateMempool ctx env _ _

theorem finishTip (ctx : Context) (block : CBlock) (p : UInt256) :
    NeverRejects (finishTip ctx block p) :=
  bind txnCommit fun _ => bind (index fun _ => some p) fun _ => bind (setNext _ _) fun _ => modify _

theorem connectPostponed (ctx : Context) (env : Env) (l : List UInt256) :
    NeverRejects (connectPostponed ctx env l) := by
  induction l with
  | nil => exact pure _
  | cons p l ih => exact bind (attempt _) fun connected => ite ih (pure _)

end NeverRejects

/-! ## What does not touch the chain -/

theorem keepsChain_updateMempool (ctx : Context) (env : Env)
    (vResurrect vDelete : List CTransaction) :
    KeepsPart NodeState.chainPart (updateMempool ctx env vResurrect vDelete) := by
  refine KeepsPart.bind (KeepsPart.forM fun tx _ => ?_) fun _ => KeepsPart.modify fun _ => rfl
  refine KeepsPart.bind (KeepsPart.handle (KeepsPart.bind ?_ fun _ => KeepsPart.pure _) ?_)
    fun _ => KeepsPart.pure _
  · refine KeepsPart.bind (KeepsPart.reading _) fun _ => ?_
    exact KeepsPart.bind (KeepsPart.reading _) fun _ => KeepsPart.modify fun _ => rfl
  · intro e
    cases e with
    | crash m => exact KeepsPart.fail _
    | reject n m => exact KeepsPart.pure _

theorem chainPart_afterDownloadCheck (ctx : Context) (env : Env) (s : NodeState) :
    (s.afterDownloadCheck ctx env).chainPart = s.chainPart := by
  unfold NodeState.afterDownloadCheck
  split <;> rfl

/-! ## Adding a block -/

variable {ctx : Context} {env : Env} {s t s' : NodeState} {tip : UInt256} {above : List UInt256}

section

variable {p : UInt256} {block : CBlock}

theorem Connected.commit {t₁ t₂ : NodeState} (h : Connected ctx t p above)
    (hidx : IndexOk ctx t) (hcom : TxnCommit t = (.ok (), t₁)) (hframe : LinkFrame t₁ t₂)
    (hlinks : Linked t₂ (· ∈ above)) : ChainAt ctx t₂ p above ∧ Unmoved t t₂ := by
  obtain rfl := txnCommit_eq_ok hcom
  have hview : t₂.txdb.view = t.txdb.view := by
    rw [hframe.txdb]
    rfl
  have hunm : Unmoved t t₂ := ⟨hframe.unmoved.best, hframe.samePlace⟩
  refine ⟨⟨h.congr (fun q _ => hframe.entries q) ?_ (by rw [hview]), hidx.congr hunm.place,
    by rw [hframe.txdb], hlinks⟩, hunm⟩
  unfold CTxDB.txIndex
  rw [hview]

theorem Connected.of_write (hchained : Chained ctx t (p :: above))
    (hled : t.txdb.txIndex = chainLedger ctx t (p :: above)) :
    Connected ctx { t with txdb := t.txdb.write .hashBestChain p } p above := by
  have hview : (t.txdb.write .hashBestChain p).view
      = Function.update t.txdb.view .hashBestChain (some p) := Store.view_write _ _ _
  refine ⟨hchained.congr fun _ _ => rfl, ?_, ?_⟩
  · have htx : CTxDB.txIndex (t.txdb.write .hashBestChain p) = t.txdb.txIndex := by
      funext hash
      unfold CTxDB.txIndex
      rw [hview, Function.update_of_ne (by simp)]
    have hplace : SamePlace t { t with txdb := t.txdb.write .hashBestChain p } := fun _ => rfl
    rw [hplace.chainLedger_eq]
    exact htx.trans hled
  · dsimp only
    rw [hview, Function.update_self]

variable {i : CBlockIndex}

theorem connectTip_eq_ok (hchain : ChainAt ctx s tip above) (hent : s.mapBlockIndex p = some i)
    (hpar : i.pprev = some tip) (hstor : ctx.files.block i.nFile i.nBlockPos = some block)
    (hhash : ctx.GetHash block = p) (h : connectTip ctx env block p s.opened = (.ok (), t)) :
    Connected ctx t p (tip :: above) := by
  obtain ⟨log, t₁, hconn, hwrite⟩ := Action.bind_eq_ok.mp h
  cases hwrite
  have hopened := hchain.toConnected.opened hchain.closed
  have hbr : Branch s.parent p (p :: tip :: above) :=
    Branch.step ((parent_eq hent).trans hpar) hchain.chained.branch
  have hent' : s.opened.mapBlockIndex p = some i := hent
  have hplace : SamePlace s s.opened := fun _ => rfl
  have hids : DistinctIds ctx (connectedTxs ctx s.opened (p :: tip :: above)) := by
    rw [hplace.connectedTxs_eq]
    exact hchain.index.distinct p _ hbr
  obtain ⟨hchained, hled⟩ := connectBlock_chained hopened.chained hopened.ledger hent'
    hpar hstor hids hconn
  rw [hhash]
  exact Connected.of_write hchained hled

theorem keepsFrame_connectTip : KeepsFrame (· = p) (connectTip ctx env block p) :=
  KeepsFrame.bind (keepsFrame_connectBlock ctx env block p false) fun _ => KeepsFrame.perform _

theorem finishTip_eq_ok (hconn : Connected ctx t p (tip :: above)) (hidx : IndexOk ctx t)
    (hlinks : Linked t (· ∈ above)) (h : finishTip ctx block p t = (.ok (), s')) :
    ChainAt ctx s' p (tip :: above) ∧ Unmoved t s' := by
  obtain ⟨⟨⟩, t₁, hcom, h⟩ := Action.bind_eq_ok.mp h
  obtain ⟨i, hi, h⟩ := Action.reading_bind_eq_ok.mp h
  obtain ⟨⟨⟩, t₂, hset, hpool⟩ := Action.bind_eq_ok.mp h
  cases hpool
  have heq := txnCommit_eq_ok hcom
  have hi : t.mapBlockIndex p = some i := by
    have hi := index_eq_ok.mp hi
    rwa [heq] at hi
  have hpar : i.pprev = some tip :=
    ((parent_eq hi).symm.trans (hconn.chained.branch.of_cons_cons).1 :)
  have hlinks₁ : Linked t₁ (· ∈ above) := by
    rw [heq]
    exact hlinks
  rw [hpar] at hset
  obtain ⟨hframe, hlinked⟩ := setNext_eq_ok hlinks₁ hset
  have hlinked : Linked t₂ (· ∈ tip :: above) := by
    refine hlinked.congr fun x => ?_
    by_cases hx : x = tip <;> simp [hx]
  obtain ⟨hchain, hunm⟩ := hconn.commit hidx hcom hframe hlinked
  exact ⟨hchain.congr rfl, hunm.trans (Unmoved.of_chainPart rfl)⟩

theorem setBestChainInner_eq_ok (hchain : ChainAt ctx s tip above)
    (hent : s.mapBlockIndex p = some i) (hpar : i.pprev = some tip)
    (hstor : ctx.files.block i.nFile i.nBlockPos = some block) (hhash : ctx.GetHash block = p)
    (h : SetBestChainInner ctx env block p s.opened = (.ok (), s')) :
    ChainAt ctx s' p (tip :: above) ∧ Unmoved s s' := by
  obtain ⟨⟨⟩, t, htip, hfin⟩ := Action.bind_eq_ok.mp h
  have htip := handle_abandon_eq_ok htip
  have hframe := keepsFrame_connectTip.of_eq htip
  have hconn := connectTip_eq_ok hchain hent hpar hstor hhash htip
  have hlinks : Linked s.opened (· ∈ above) := hchain.links
  obtain ⟨hnew, hunm⟩ := finishTip_eq_ok hconn (hchain.index.congr hframe.samePlace)
    (hlinks.of_frame hframe) hfin
  have hopened : Unmoved s t := ⟨hframe.unmoved.best, hframe.unmoved.place⟩
  exact ⟨hnew, hopened.trans hunm⟩

theorem setBestChainInner_eq_error {e : Failure} (hchain : ChainAt ctx s tip above)
    (hnew : p ∉ tip :: above)
    (h : SetBestChainInner ctx env block p s.opened = (.error e, s'))
    (hret : Returns (.error e : Except Failure Unit)) :
    ChainAt ctx s' tip above ∧ Unmoved s s' := by
  rcases Action.bind_eq_error.mp h with htip | ⟨⟨⟩, t, -, hfin⟩
  · refine handle_abandon_eq_error hchain (fun e t ht _ => keepsFrame_connectTip.of_eq ht) ?_ htip
      hret
    rintro q hq rfl
    exact hnew hq
  · obtain ⟨m, rfl⟩ := NeverRejects.finishTip ctx block p _ _ _ hfin
    exact absurd rfl (hret m)

end

/-! ## Switching to another branch -/

variable {new : UInt256}

theorem frame_switchBlocks {r : Except Failure Switched} (hheights : HeightsOk s)
    (hbest : s.pindexBest = some tip) (h : switchBlocks ctx env new s.opened = (r, t)) :
    ConnectFrame (fun x => ¬IsAncestor s.parent x tip) s.opened t := by
  rw [show t = (switchBlocks ctx env new s.opened).2 from (congrArg Prod.snd h).symm]
  unfold switchBlocks
  rw [Action.bind_apply, Action.reading_apply]
  rcases hsw : findSwitch s.opened new with e | switch
  · exact ConnectFrame.refl _ s.opened
  · have hheights : HeightsOk s.opened := hheights
    obtain ⟨f, -, -, hdisjoint⟩ := findSwitch_eq_ok hheights hbest hsw
    have hkeeps : KeepsFrame (fun x => ¬IsAncestor s.parent x tip)
        (disconnectBranch ctx switch.vDisconnect [] >>= fun vResurrect =>
          connectBranch ctx env switch.vConnect.reverse [] >>= fun vDelete =>
            WriteHashBestChain new >>= fun _ =>
              (pure ⟨switch, vResurrect, vDelete⟩ : NodeM Switched)) := by
      refine KeepsFrame.bind (keepsFrame_disconnectBranch _ _) fun vResurrect => ?_
      refine KeepsFrame.bind (fun u => ?_) fun vDelete => ?_
      · refine (keepsFrame_connectBranch _ _ u).mono fun x hx => ?_
        exact hdisjoint x (List.mem_reverse.mp hx)
      · exact KeepsFrame.bind (KeepsFrame.perform _) fun _ => KeepsFrame.pure _
    exact hkeeps s.opened

/-- What a switch has done before it is committed: the blocks of the new branch are connected, and
the blocks that were disconnected and connected lead from the two tips to a common block. -/
structure SwitchedTo (ctx : Context) (s t : NodeState) (tip new : UInt256)
    (above above' : List UInt256) (switch : Switch) : Prop where
  connected : Connected ctx t new above'
  frame : ConnectFrame (fun x => ¬IsAncestor s.parent x tip) s.opened t
  branches : ∃ f low, Segment s.parent tip switch.vDisconnect f ∧
    Segment s.parent new switch.vConnect f ∧ Branch s.parent f (f :: low) ∧
    tip :: above = switch.vDisconnect ++ f :: low ∧
    new :: above' = switch.vConnect ++ f :: low

variable {switched : Switched} {e : Failure} {l : List UInt256} {target : UInt256 × List UInt256}

theorem switchBlocks_parts (h : switchBlocks ctx env new s = (.ok switched, t)) :
    ∃ t₁ t₂, findSwitch s new = .ok switched.toSwitch ∧
      disconnectBranch ctx switched.vDisconnect [] s = (.ok switched.vResurrect, t₁) ∧
      connectBranch ctx env switched.vConnect.reverse [] t₁ = (.ok switched.vDelete, t₂) ∧
      t = { t₂ with txdb := t₂.txdb.write .hashBestChain new } := by
  obtain ⟨switch, hsw, h⟩ := Action.reading_bind_eq_ok.mp h
  obtain ⟨vResurrect, t₁, hdisc, h⟩ := Action.bind_eq_ok.mp h
  obtain ⟨vDelete, t₂, hconn, h⟩ := Action.bind_eq_ok.mp h
  obtain ⟨⟨⟩, t₃, hwrite, h⟩ := Action.bind_eq_ok.mp h
  obtain ⟨hswitched, rfl⟩ := mk.inj h
  cases hswitched
  cases hwrite
  exact ⟨t₁, t₂, hsw, hdisc, hconn, rfl⟩

variable (hchain : ChainAt ctx s tip above)
include hchain

theorem switchBlocks_eq_ok (hbest : s.pindexBest = some tip)
    (h : switchBlocks ctx env new s.opened = (.ok switched, t)) :
    ∃ above', SwitchedTo ctx s t tip new above above' switched.toSwitch := by
  have hframe := frame_switchBlocks hchain.index.heights hbest h
  obtain ⟨t₁, t₂, hsw, hdisc, hconnect, rfl⟩ := switchBlocks_parts h
  have hheights : HeightsOk s.opened := hchain.index.heights
  obtain ⟨f, hdis, hcon, -⟩ := findSwitch_eq_ok hheights hbest hsw
  -- The fork is on the old branch, so the rest of that branch is the branch of the fork.
  have hbr := hchain.chained.branch
  obtain ⟨below, rest, -, hrest⟩ := hbr.exists_suffix (hbr.mem_iff.mpr hdis.isAncestor)
  obtain ⟨low, rfl⟩ := hrest.eq_cons
  have hold : tip :: above = switched.vDisconnect ++ f :: low := hbr.unique (hdis.branch hrest)
  have hnewBranch := hcon.branch hrest
  obtain ⟨above', hnew⟩ := hnewBranch.eq_cons
  have hopened := hchain.toConnected.opened hchain.closed
  obtain ⟨hchained₁, hled₁⟩ : Chained ctx t₁ (f :: low) ∧
      t₁.txdb.txIndex = chainLedger ctx t₁ (f :: low) := by
    refine disconnectBranch_chained ?_ ?_ hdisc
    · rw [← hold]
      exact hopened.chained
    · rw [← hold]
      exact hopened.ledger
  have hframe₁ : ConnectFrame (fun _ => False) s.opened t₁ :=
    (keepsFrame_disconnectBranch _ _).of_eq hdisc
  have hplace₁ := hframe₁.samePlace
  have hids : DistinctIds ctx (connectedTxs ctx t₁ (switched.vConnect ++ f :: low)) := by
    have hplace : SamePlace s t₁ := hplace₁
    rw [hplace.connectedTxs_eq]
    exact hchain.index.distinct new _ hnewBranch
  have hconn := connectBranch_chained hcon hplace₁.parent_eq hchained₁ hled₁ hids hconnect
  rw [hnew] at hconn
  exact ⟨above', ⟨Connected.of_write hconn.1 hconn.2, hframe,
    ⟨f, low, hdis, hcon, hrest, hold, hnew.symm⟩⟩⟩

theorem finishSwitch_eq_ok {above' : List UInt256}
    (hswitched : SwitchedTo ctx s t tip new above above' switched.toSwitch)
    (h : finishSwitch ctx env switched t = (.ok (), s')) :
    ChainAt ctx s' new above' ∧ Unmoved t s' := by
  obtain ⟨⟨⟩, t₁, hcom, h⟩ := Action.bind_eq_ok.mp h
  obtain ⟨⟨⟩, t₂, hunlink, h⟩ := Action.bind_eq_ok.mp h
  obtain ⟨⟨⟩, t₃, hlink, hpool⟩ := Action.bind_eq_ok.mp h
  obtain ⟨f, low, hdis, hcon, hlow, hold, hnew⟩ := hswitched.branches
  have heq := txnCommit_eq_ok hcom
  have hplace₁ : SamePlace s t₁ := by
    rw [heq]
    exact hswitched.frame.samePlace
  have hlinks₁ : Linked t₁ (· ∈ above) := by
    have hopened : Linked s.opened (· ∈ above) := hchain.links
    rw [heq]
    exact (hopened.of_frame hswitched.frame :)
  have hnone : ∀ p : UInt256, ((fun _ => none : UInt256 → Option UInt256) p).isSome = true ↔ False :=
    fun _ => by simp
  have hsome : ∀ p : UInt256, (some p).isSome = true ↔ True := fun _ => by simp
  obtain ⟨hframe₂, hlinks₂⟩ := forM_linkPrev_eq_ok hnone hlinks₁ hunlink
  obtain ⟨hframe₃, hlinks₃⟩ := forM_linkPrev_eq_ok hsome hlinks₂ hlink
  have hlinks : Linked t₃ (· ∈ above') := by
    refine hlinks₃.congr fun p => ?_
    have hsw := switch_links hdis hcon hlow p
    rw [← hold, ← hnew, List.tail_cons, List.tail_cons] at hsw
    rw [← hsw, hframe₂.samePlace.parent_eq, hplace₁.parent_eq]
    simp only [false_and, or_false, true_and, List.mem_reverse]
    by_cases hex : ∃ x ∈ switched.vConnect, s.parent x = some p <;> simp [hex]
  have hidx : IndexOk ctx t := hchain.index.congr hswitched.frame.samePlace
  obtain ⟨hnewChain, hunm⟩ :=
    hswitched.connected.commit hidx hcom (hframe₂.trans hframe₃) hlinks
  have hpart := (keepsChain_updateMempool ctx env _ _).of_eq hpool
  exact ⟨hnewChain.congr hpart, hunm.trans (Unmoved.of_chainPart hpart)⟩

theorem reorganize_eq_ok (hbest : s.pindexBest = some tip)
    (h : Reorganize ctx env new s.opened = (.ok (), s')) :
    ∃ above', ChainAt ctx s' new above' ∧ Unmoved s s' := by
  obtain ⟨switched, t, hsw, hfin⟩ := Action.bind_eq_ok.mp h
  obtain ⟨above', hswitched⟩ := switchBlocks_eq_ok hchain hbest hsw
  obtain ⟨hnew, hunm⟩ := finishSwitch_eq_ok hchain hswitched hfin
  have hopened : Unmoved s t := ⟨hswitched.frame.unmoved.best, hswitched.frame.unmoved.place⟩
  exact ⟨above', hnew, hopened.trans hunm⟩

theorem reorganize_eq_error (hbest : s.pindexBest = some tip)
    (h : Reorganize ctx env new s.opened = (.error e, t))
    (hret : Returns (.error e : Except Failure Unit)) :
    ConnectFrame (fun x => ¬IsAncestor s.parent x tip) s.opened t := by
  rcases Action.bind_eq_error.mp h with hsw | ⟨switched, t', -, hfin⟩
  · exact frame_switchBlocks hchain.index.heights hbest hsw
  · obtain ⟨m, rfl⟩ := NeverRejects.finishSwitch ctx env switched _ _ _ hfin
    exact absurd rfl (hret m)

omit hchain

/-! ## The postponed blocks -/

theorem findIntermediate_eq_ok {nBestTrust : UInt256} {fuel : ℕ} {p : UInt256}
    (hascent : Ascent s.parent p l new) (h : findIntermediate s nBestTrust fuel p l = .ok target) :
    Ascent s.parent target.1 target.2 new := by
  induction fuel generalizing p l with
  | zero => simp [findIntermediate] at h
  | succ fuel ih =>
    obtain ⟨i, hi, h⟩ := bind_ok h
    have hpar := parent_eq (index_eq_ok.mp hi)
    rcases hprev : i.pprev with _ | q
    · rw [hprev] at h
      cases h
      exact hascent
    · rw [hprev] at h hpar
      obtain ⟨prev, -, h⟩ := bind_ok h
      split at h
      · exact ih (Ascent.step hpar hascent) h
      · cases h
        exact hascent

theorem findPostponed_eq_ok (h : findPostponed s new = .ok target) :
    Ascent s.parent target.1 target.2 new := by
  obtain ⟨best, -, h⟩ := bind_ok h
  obtain ⟨i, -, h⟩ := bind_ok h
  exact findIntermediate_eq_ok (Ascent.refl new) h

theorem neverRejects_findPostponed (new : UInt256) :
    NeverRejects (Action.reading fun s => findPostponed s new) := by
  have hloop : ∀ (s : NodeState) (nBestTrust : UInt256) (fuel : ℕ) (p : UInt256)
      (l : List UInt256) (e : Failure),
      findIntermediate s nBestTrust fuel p l = .error e → ∃ m, e = .crash m := by
    intro s nBestTrust fuel
    induction fuel with
    | zero =>
      intro p l e h
      exact ⟨_, (error.inj h).symm⟩
    | succ fuel ih =>
      intro p l e h
      unfold findIntermediate at h
      rcases except_bind_eq_error.mp h with h | ⟨i, -, h⟩
      · exact index_eq_error h
      split at h
      · simp [pure, Except.pure] at h
      rcases except_bind_eq_error.mp h with h | ⟨prev, -, h⟩
      · exact index_eq_error h
      split at h
      · exact ih _ _ _ h
      · simp [pure, Except.pure] at h
  intro s e t h
  have h : findPostponed s new = .error e := (congrArg Prod.fst h :)
  rcases except_bind_eq_error.mp h with h | ⟨best, -, h⟩
  · exact index_eq_error h
  rcases except_bind_eq_error.mp h with h | ⟨i, -, h⟩
  · exact index_eq_error h
  · exact hloop _ _ _ _ _ _ h

/-- Whether each of the postponed blocks connects, one after the other. -/
def RunsThrough (ctx : Context) (env : Env) : List UInt256 → NodeState → Prop
  | [], _ => True
  | p :: rest, s =>
    match connectSecondary ctx env p s with
    | (.ok _, s') => RunsThrough ctx env rest s'
    | (.error _, _) => False

/-- Whether every block that a switch to a branch postpones connects in its turn. -/
def PostponedConnect (ctx : Context) (env : Env) (pindexNew : UInt256) (s : NodeState) : Prop :=
  ∀ target s₁, findPostponed s.opened pindexNew = .ok target →
    Reorganize ctx env target.1 s.opened = (.ok (), s₁) → RunsThrough ctx env target.2 s₁

variable (hchain : ChainAt ctx s tip above)
include hchain

theorem connectSecondary_eq_ok {p : UInt256} (hpar : s.parent p = some tip)
    (h : connectSecondary ctx env p s = (.ok (), s')) :
    ChainAt ctx s' p (tip :: above) ∧ Unmoved s s' := by
  obtain ⟨i, hi, h⟩ := Action.reading_bind_eq_ok.mp h
  obtain ⟨block, hblock, h⟩ := Action.reading_bind_eq_ok.mp h
  obtain ⟨⟨⟩, t₃, hbegin, h⟩ := Action.bind_eq_ok.mp h
  obtain ⟨-, rfl⟩ := txnBegin_eq_ok hbegin
  have hi := index_eq_ok.mp hi
  obtain ⟨hstor, hhash⟩ := readFromDisk_eq_ok hblock
  exact setBestChainInner_eq_ok hchain hi ((parent_eq hi).symm.trans hpar) hstor hhash h

theorem ChainAt.not_mem {p : UInt256} (hpar : s.parent p = some tip) : p ∉ tip :: above :=
  (List.nodup_cons.mp (Branch.step hpar hchain.chained.branch).nodup).1

theorem connectSecondary_eq_error {p : UInt256} (hpar : s.parent p = some tip)
    (h : connectSecondary ctx env p s = (.error e, s'))
    (hret : Returns (.error e : Except Failure Unit)) :
    ChainAt ctx s' tip above ∧ Unmoved s s' := by
  rcases Action.bind_eq_error.mp h with hread | ⟨i, t₁, hread, h⟩
  · obtain ⟨-, rfl⟩ := mk.inj hread
    exact ⟨hchain, Unmoved.refl s⟩
  obtain ⟨-, rfl⟩ := mk.inj hread
  rcases Action.bind_eq_error.mp h with hdisk | ⟨block, t₂, hdisk, h⟩
  · obtain ⟨-, rfl⟩ := mk.inj hdisk
    exact ⟨hchain, Unmoved.refl s⟩
  obtain ⟨-, rfl⟩ := mk.inj hdisk
  rcases Action.bind_eq_error.mp h with hbegin | ⟨⟨⟩, t₃, hbegin, h⟩
  · exact absurd (txnBegin_of_returns hbegin hret) (by simp)
  · obtain ⟨-, rfl⟩ := txnBegin_eq_ok hbegin
    exact setBestChainInner_eq_error hchain (hchain.not_mem hpar) h hret

omit hchain

theorem attempt_eq_ok {x : NodeM Unit} {b : Bool} (h : attempt x s = (.ok b, s')) :
    (b = true ∧ x s = (.ok (), s')) ∨
      (b = false ∧ ∃ e, x s = (.error e, s') ∧ Returns (.error e : Except Failure Unit)) := by
  rcases Action.handle_eq_ok.mp h with h | ⟨e, t, hfail, h⟩
  · obtain ⟨⟨⟩, t, hx, h⟩ := Action.bind_eq_ok.mp h
    obtain ⟨hb, rfl⟩ := mk.inj h
    exact .inl ⟨(ok.inj hb).symm, hx⟩
  · cases e with
    | crash m => simp at h
    | reject n m =>
      obtain ⟨hb, rfl⟩ := mk.inj h
      refine .inr ⟨(ok.inj hb).symm, .reject n m, ?_, fun m' => by simp⟩
      rcases Action.bind_eq_error.mp hfail with hx | ⟨⟨⟩, t', -, hpure⟩
      · exact hx
      · simp at hpure

/-- The postponed blocks, connected in turn, take the invariant to some block on the way, and to
the requested one exactly when all of them connect. -/
theorem connectPostponed_eq_ok {parent : UInt256 → Option UInt256}
    (hascent : Ascent parent tip l new) (hpar : s.parent = parent)
    (hchain : ChainAt ctx s tip above) (h : connectPostponed ctx env l s = (.ok (), s')) :
    ∃ b above', ChainAt ctx s' b above' ∧ Unmoved s s' ∧ (b = new ↔ RunsThrough ctx env l s) := by
  induction hascent generalizing s above with
  | refl a =>
    obtain ⟨-, rfl⟩ := mk.inj h
    exact ⟨a, above, hchain, Unmoved.refl s, by simp [RunsThrough]⟩
  | @step a p c l hpa hrest ih =>
    obtain ⟨connected, t, hattempt, h⟩ := Action.bind_eq_ok.mp h
    have hpa' : s.parent p = some a := hpar ▸ hpa
    unfold RunsThrough
    rcases attempt_eq_ok hattempt with ⟨rfl, hx⟩ | ⟨rfl, e, hx, hret⟩
    · obtain ⟨hnext, hunm⟩ := connectSecondary_eq_ok hchain hpa' hx
      obtain ⟨b, above', hb, hunm', hiff⟩ := ih (hunm.place.parent_eq.trans hpar) hnext h
      rw [hx]
      exact ⟨b, above', hb, hunm.trans hunm', hiff⟩
    · -- The loop ends here, below the requested block.
      obtain ⟨hsame, hunm⟩ := connectSecondary_eq_error hchain hpa' hx hret
      obtain ⟨-, rfl⟩ := mk.inj h
      refine ⟨a, above, hsame, hunm, ?_⟩
      rw [hx]
      refine iff_of_false ?_ id
      rintro rfl
      have hheights := hchain.index.heights
      have hstep := hheights p a hpa'
      rw [← hpar] at hrest
      rcases hrest.isAncestor.eq_or_lt hheights with rfl | hlt <;> omega

theorem switchBranch_eq_ok (hchain : ChainAt ctx s tip above) (hbest : s.pindexBest = some tip)
    (h : switchBranch ctx env new s.opened = (.ok (), s')) :
    ∃ b above', ChainAt ctx s' b above' ∧ Unmoved s s' ∧
      (b = new ↔ PostponedConnect ctx env new s) := by
  obtain ⟨target, htgt, h⟩ := Action.reading_bind_eq_ok.mp h
  obtain ⟨⟨⟩, s₁, hsw, hpost⟩ := Action.bind_eq_ok.mp h
  have hsw := handle_abandon_eq_ok hsw
  obtain ⟨above₁, hchain₁, hunm₁⟩ := reorganize_eq_ok hchain hbest hsw
  have hascent := findPostponed_eq_ok htgt
  obtain ⟨b, above', hb, hunm, hiff⟩ :=
    connectPostponed_eq_ok hascent hunm₁.place.parent_eq hchain₁ hpost
  refine ⟨b, above', hb, hunm₁.trans hunm, hiff.trans ⟨fun hruns => ?_, fun hruns => ?_⟩⟩
  · intro target' s₁' htgt' hsw'
    obtain rfl := ok.inj (htgt.symm.trans htgt')
    obtain rfl := (mk.inj (hsw.symm.trans hsw')).2
    exact hruns
  · exact hruns target s₁ htgt hsw

theorem switchBranch_eq_error (hchain : ChainAt ctx s tip above) (hbest : s.pindexBest = some tip)
    (h : switchBranch ctx env new s.opened = (.error e, s'))
    (hret : Returns (.error e : Except Failure Unit)) :
    ChainAt ctx s' tip above ∧ Unmoved s s' := by
  rcases Action.bind_eq_error.mp h with hread | ⟨target, t, hread, h⟩
  · obtain ⟨m, rfl⟩ := neverRejects_findPostponed new _ _ _ hread
    exact absurd rfl (hret m)
  obtain ⟨-, rfl⟩ := mk.inj hread
  rcases Action.bind_eq_error.mp h with hsw | ⟨⟨⟩, s₁, -, hpost⟩
  · refine handle_abandon_eq_error hchain
      (fun e t ht hret => reorganize_eq_error hchain hbest ht hret) ?_ hsw hret
    exact fun q hq hn => hn (hchain.chained.branch.mem_iff.mp hq)
  · obtain ⟨m, rfl⟩ := NeverRejects.connectPostponed ctx env _ _ _ _ hpost
    exact absurd rfl (hret m)

end ZalemCoin.Chain
