import ZalemCoin.Chain.SavedIndex

/-!
# Moving the best chain on the disk

A move to another chain records the entries and the links of its blocks in a transaction of the
database, and sets the links in memory after the commit. When it succeeds, both have the same links
again. When it fails, the database is as it was before, and so are the entries in memory, unless the
move had given a block another mint or supply by then.
-/

namespace ZalemCoin.Chain

open Lib

/-- An action in a transaction that, when it fails, leaves the entries in memory as they were. -/
def FailsClean (x : NodeM Unit) (s : NodeState) : Prop :=
  ∀ e t, x s.opened = (.error e, t) → t.mapBlockIndex = s.mapBlockIndex

/-- Moving to the chain of a block gives no block another mint or supply before it fails. -/
def RecordsKept (ctx : Context) (env : Env) (block : CBlock) (pindexNew : UInt256)
    (s : NodeState) : Prop :=
  (block.hashPrevBlock = s.hashBestChain → FailsClean (connectTip ctx env block pindexNew) s) ∧
    (block.hashPrevBlock ≠ s.hashBestChain → ∀ target,
      findPostponed s.opened pindexNew = .ok target → FailsClean (Reorganize ctx env target.1) s)

variable {ctx : Context} {env : Env} {s s' : NodeState} {tip p : UInt256} {block : CBlock}
  {i : CBlockIndex} {e : Failure}

section

variable {t : NodeState} {new : UInt256} {next : UInt256 → Option UInt256}

theorem Saved.recording_opened (h : Saved ctx s tip) : Recording s.opened s.next := by
  refine h.recording.congr (Prod.ext rfl (funext fun q => ?_))
  exact congrFun (view_opened h.closed) (DbKey.blockindex q)

theorem Recording.writeHashBestChain (h : Recording t next) (hash : UInt256) :
    Recording { t with txdb := t.txdb.write .hashBestChain hash } next := by
  refine h.congr (Prod.ext rfl (funext fun q => ?_))
  show (t.txdb.write .hashBestChain hash).view (.blockindex q) = t.txdb.view (.blockindex q)
  rw [Store.view_write, Function.update_of_ne (by simp)]

variable (h : Saved ctx s tip)
include h

theorem Saved.of_commit {t₁ t₂ : NodeState} (hplace : SamePlace s t) (hrecording : Recording t next)
    (hbest : t.txdb.view .hashBestChain = some new) (hnew : s.mapBlockIndex new ≠ none)
    (hlinks : ∀ p q, next p = some q → s.parent q = some p ∧ IsAncestor s.parent q new)
    (hcom : TxnCommit t = (.ok (), t₁)) (hframe : LinkFrame t₁ t₂) (hnext : t₂.next = next) :
    Saved ctx t₂ new := by
  obtain rfl := txnCommit_eq_ok hcom
  have hview : t₂.txdb.view = t.txdb.view := by
    rw [hframe.txdb]
    rfl
  have hplace₁ : SamePlace s { t with txdb := ⟨t.txdb.view, none⟩ } := hplace
  have hplace₂ := hplace₁.trans hframe.samePlace
  refine ⟨h.tree.congr hplace₂, by rw [hframe.txdb], ?_, by rw [hview, hbest],
    (hplace₂.ne_none_iff new).mpr hnew, fun p q hpq => ?_⟩
  · rw [hnext]
    exact hrecording.of_sameEntry hframe.entries fun q => by rw [hview]
  · rw [hplace₂.parent_eq]
    rw [hnext] at hpq
    exact hlinks p q hpq

/-! ## Adding a block -/

theorem Saved.setBestChainInner_eq_ok (hent : s.mapBlockIndex p = some i)
    (hpar : i.pprev = some tip) (hhash : ctx.GetHash block = p)
    (hrun : SetBestChainInner ctx env block p s.opened = (.ok (), s')) :
    Saved ctx s' p ∧ Unmoved s s' := by
  obtain ⟨⟨⟩, t, htip, hfin⟩ := Action.bind_eq_ok.mp hrun
  have htip := handle_abandon_eq_ok htip
  have hframe := keepsFrame_connectTip.of_eq htip
  have hplace : SamePlace s t := hframe.samePlace
  have hpar' : s.parent p = some tip := (parent_eq hent).trans hpar
  -- The entry is recorded, and the link to it, and the block is named as the best one.
  obtain ⟨log, t₀, hconn, hwrite⟩ := Action.bind_eq_ok.mp htip
  have hstep : Recording t₀ (relink s.parent (some p) s.next p) :=
    h.recording_opened.connectBlock h.tree.hashesOk rfl hconn
  cases hwrite
  have hrecording := hstep.writeHashBestChain (ctx.GetHash block)
  have hbest : (t₀.txdb.write .hashBestChain (ctx.GetHash block)).view .hashBestChain = some p := by
    rw [Store.view_write, Function.update_self, hhash]
  -- After the commit, the link is set in memory.
  obtain ⟨⟨⟩, t₁, hcom, hfin⟩ := Action.bind_eq_ok.mp hfin
  obtain ⟨i', hi', hfin⟩ := Action.reading_bind_eq_ok.mp hfin
  obtain ⟨⟨⟩, t₂, hset, hpool⟩ := Action.bind_eq_ok.mp hfin
  cases hpool
  have heq := txnCommit_eq_ok hcom
  have hplace₁ : SamePlace s t₁ := by
    rw [heq]
    exact hplace
  have hprev : i'.pprev = some tip := by
    rw [← parent_eq (index_eq_ok.mp hi'), hplace₁.parent_eq, hpar']
  have hnext₁ : t₁.next = s.next := by
    rw [heq]
    exact hframe.next_eq
  rw [hprev] at hset
  obtain ⟨hlinkFrame, -⟩ := setNext_eq_ok (linked_next t₁) hset
  have hnext₂ : t₂.next = relink s.parent (some p) s.next p := by
    funext q
    rw [(setNext_next hset).2 q, relink_apply, hpar', hnext₁]
    by_cases hq : q = tip
    · rw [if_pos hq, if_pos (by rw [hq])]
    · rw [if_neg hq, if_neg fun heq => hq (Option.some.inj heq).symm]
  have hlinks : ∀ x q, relink s.parent (some p) s.next p x = some q →
      s.parent q = some x ∧ IsAncestor s.parent q p := by
    intro x q hxq
    rw [relink_apply] at hxq
    split at hxq
    · rename_i hx
      cases hxq
      exact ⟨hx, IsAncestor.refl _ _⟩
    · obtain ⟨hq, hanc⟩ := h.links x q hxq
      exact ⟨hq, Relation.ReflTransGen.head hpar' hanc⟩
  have hsaved := h.of_commit hplace hrecording hbest (by simp [hent]) hlinks hcom hlinkFrame
    hnext₂
  refine ⟨hsaved.congr rfl, ?_⟩
  have hunm : Unmoved s t₁ := by
    rw [heq]
    exact ⟨hframe.unmoved.best, hplace⟩
  exact (hunm.trans hlinkFrame.unmoved).trans (Unmoved.of_chainPart rfl)

/-! ## Abandoning a move -/

/-- The database of a state, but for the number of the invalid chain, and the globals are those of
another one. -/
structure Undone (s s' : NodeState) : Prop where
  closed : s'.txdb.activeBatch = none
  view : ∀ key, key ≠ .bnBestInvalidTrust → s'.txdb.view key = s.txdb.view key
  best : s'.best = s.best

variable {parent : UInt256 → Option UInt256}

/-- A move that is abandoned leaves the database and the globals as they were. The entries in memory
are those that it had come to have. -/
theorem Saved.abandoned {x : NodeM Unit} {msg : String}
    (hkeeps : ∀ e t, x s.opened = (.error e, t) → Returns (.error e : Except Failure Unit) →
      t.txdb.disk = s.txdb.disk ∧ t.best = s.best)
    (hrun : Action.handle x (abandon p msg) s.opened = (.error e, s'))
    (hret : Returns (.error e : Except Failure Unit)) :
    Undone s s' ∧ ∃ e' t, x s.opened = (.error e', t) ∧ s'.mapBlockIndex = t.mapBlockIndex := by
  refine @handle_abandon_of_error s.opened s'
    (fun u => Undone s u ∧ ∃ e' t, x s.opened = (.error e', t) ∧ u.mapBlockIndex = t.mapBlockIndex)
    x p msg e (fun u trust hu => ?_) (fun e t hx hret => ?_) hrun hret
  · obtain ⟨hundone, hidx⟩ := hu
    obtain ⟨hclosed, hview⟩ := write_bnBestInvalidTrust hundone.closed trust
    exact ⟨⟨hclosed, fun key hkey => (hview key hkey).trans (hundone.view key hkey), hundone.best⟩,
      hidx⟩
  · obtain ⟨hdisk, hbest⟩ := hkeeps e t hx hret
    have hview : t.txdb.txnAbort.view = s.txdb.view := by
      rw [Store.view_txnAbort, hdisk, Store.view_of_closed h.closed]
    exact ⟨⟨rfl, fun key _ => congrFun hview key, hbest⟩, e, t, hx, rfl⟩

theorem Saved.of_undone (hundone : Undone s s') (hidx : s'.mapBlockIndex = s.mapBlockIndex) :
    Saved ctx s' tip ∧ Unmoved s s' :=
  ⟨h.of_eq hidx hundone.closed (fun _ => hundone.view _ (by simp)) (hundone.view _ (by simp)),
    ⟨hundone.best, SamePlace.of_eq hidx⟩⟩

theorem Saved.setBestChainInner_eq_error
    (hrun : SetBestChainInner ctx env block p s.opened = (.error e, s'))
    (hret : Returns (.error e : Except Failure Unit)) :
    Undone s s' ∧ (FailsClean (connectTip ctx env block p) s →
      s'.mapBlockIndex = s.mapBlockIndex) := by
  rcases Action.bind_eq_error.mp hrun with htip | ⟨⟨⟩, t, -, hfin⟩
  · obtain ⟨hundone, e', t, hx, hidx⟩ := h.abandoned (fun e t hx _ => by
      have hframe := keepsFrame_connectTip.of_eq hx
      exact ⟨(hframe.disk rfl).1, hframe.unmoved.best⟩) htip hret
    exact ⟨hundone, fun hclean => hidx.trans (hclean e' t hx)⟩
  · obtain ⟨m, rfl⟩ := NeverRejects.finishTip ctx block p _ _ _ hfin
    exact absurd rfl (hret m)

omit h

/-! ## Switching to another branch -/

theorem links_switch {f : UInt256} {dis con : List UInt256}
    (hlinks : ∀ p q, next p = some q → parent q = some p ∧ IsAncestor parent q tip)
    (hdis : Segment parent tip dis f) (hcon : Segment parent new con f) {q : UInt256}
    (h : relinkAll parent some (relinkAll parent (fun _ => none) next dis) con.reverse p = some q) :
    parent q = some p ∧ IsAncestor parent q new := by
  rcases @relinkAll_cases (relinkAll parent (fun _ => none) next dis) con.reverse p parent some
    with ⟨x, hx, hpar, hset⟩ | ⟨-, hkept⟩
  · obtain rfl := Option.mem_unique hset h
    exact ⟨hpar, hcon.isAncestor_of_mem (List.mem_reverse.mp hx)⟩
  · rw [hkept] at h
    rcases @relinkAll_cases next dis p parent (fun _ => none) with ⟨x, -, -, hset⟩ | ⟨hnone, hkept⟩
    · simp [hset] at h
    · -- The block is below the fork, since it has not been disconnected.
      rw [hkept] at h
      obtain ⟨hpar, hanc⟩ := hlinks p q h
      have hbelow := hdis.isAncestor_of_not_mem hanc fun hq => hnone q hq hpar
      exact ⟨hpar, hcon.isAncestor.trans hbelow⟩

theorem Saved.reorganize_eq_ok (h : Saved ctx s tip) (hbest : s.pindexBest = some tip)
    (hrun : Reorganize ctx env new s.opened = (.ok (), s')) : Saved ctx s' new ∧ Unmoved s s' := by
  obtain ⟨switched, t, hblocks, hfin⟩ := Action.bind_eq_ok.mp hrun
  have hframe := frame_switchBlocks h.tree.heights hbest hblocks
  have hplace : SamePlace s t := hframe.samePlace
  obtain ⟨t₁, t₂, hsw, hdisc, hconn, rfl⟩ := switchBlocks_parts hblocks
  have hheights : HeightsOk s.opened := h.tree.heights
  obtain ⟨f, hdis, hcon, hdisjoint⟩ := findSwitch_eq_ok hheights hbest hsw
  have hnew : s.mapBlockIndex new ≠ none := by
    obtain ⟨best, -, hfind⟩ := bind_ok hsw
    obtain ⟨i, hi, -⟩ := bind_ok hfind
    have hi : s.mapBlockIndex new = some i := index_eq_ok.mp hi
    simp [hi]
  -- What the database has been told, link by link.
  have hdisFrame : ConnectFrame (fun _ => False) s.opened t₁ :=
    (keepsFrame_disconnectBranch _ _).of_eq hdisc
  have hplace₁ : SamePlace s t₁ := hdisFrame.samePlace
  have hnext₁ : t₁.next = s.next := hdisFrame.next_eq
  have hrecording₁ : Recording t₁ (relinkAll s.parent (fun _ => none) s.next switched.vDisconnect) :=
    h.recording_opened.disconnectBranch h.tree.hashesOk hdisc
  have hunlinked : ∀ x ∈ switched.vConnect, s.next x = none := by
    intro x hx
    rcases hnext : s.next x with _ | q
    · rfl
    · obtain ⟨hpar, hanc⟩ := h.links x q hnext
      exact absurd (hanc.tail hpar) (hdisjoint x hx)
  have hrecording₂ := hrecording₁.connectBranch (h.tree.hashesOk.congr hplace₁) (fun x hx => ?_) ?_
    hconn
  · rw [hplace₁.parent_eq] at hrecording₂
    have hrecording := hrecording₂.writeHashBestChain new
    have hbestView : (t₂.txdb.write .hashBestChain new).view .hashBestChain = some new := by
      rw [Store.view_write, Function.update_self]
    -- The links in memory are changed in the same way after the commit.
    obtain ⟨⟨⟩, u₁, hcom, hfin⟩ := Action.bind_eq_ok.mp hfin
    obtain ⟨⟨⟩, u₂, hunlink, hfin⟩ := Action.bind_eq_ok.mp hfin
    obtain ⟨⟨⟩, u₃, hlink, hpool⟩ := Action.bind_eq_ok.mp hfin
    obtain ⟨hnext₂, hframe₂⟩ := forM_linkPrev_relinkAll hunlink
    obtain ⟨hnext₃, hframe₃⟩ := forM_linkPrev_relinkAll hlink
    have heq := txnCommit_eq_ok hcom
    have hplaceU : SamePlace s u₁ := by
      rw [heq]
      exact hplace
    have hnextU : u₁.next = s.next := by
      rw [heq]
      exact hframe.next_eq
    rw [hframe₂.samePlace.parent_eq, hnext₂, hplaceU.parent_eq, hnextU] at hnext₃
    have hsaved := h.of_commit hplace hrecording hbestView hnew
      (fun p q hpq => links_switch h.links hdis hcon hpq) hcom (hframe₂.trans hframe₃) hnext₃
    have hpart := (keepsChain_updateMempool ctx env _ _).of_eq hpool
    have hunm : Unmoved s u₁ := by
      rw [heq]
      exact ⟨hframe.unmoved.best, hplace⟩
    exact ⟨hsaved.congr hpart, (hunm.trans (hframe₂.trans hframe₃).unmoved).trans
      (Unmoved.of_chainPart hpart)⟩
  · -- A block of the new branch has no link yet.
    have hx := hunlinked x (List.mem_reverse.mp hx)
    refine ⟨?_, by rw [hnext₁, hx]⟩
    rcases @relinkAll_cases s.next switched.vDisconnect x s.parent (fun _ => none)
      with ⟨y, -, -, hset⟩ | ⟨-, hkept⟩
    · exact hset
    · rw [hkept, hx]
  · -- The blocks are connected from the lowest to the highest one.
    rw [hplace₁.parent_eq, List.pairwise_reverse]
    refine (hcon.pairwise_lt h.tree.heights).imp ?_
    intro x c hlt hpar
    have hheight := h.tree.heights c x hpar
    omega

theorem Saved.reorganize_eq_error (h : Saved ctx s tip) (hbest : s.pindexBest = some tip)
    (hrun : Reorganize ctx env new s.opened = (.error e, t))
    (hret : Returns (.error e : Except Failure Unit)) :
    t.txdb.disk = s.txdb.disk ∧ t.best = s.best := by
  rcases Action.bind_eq_error.mp hrun with hblocks | ⟨switched, t', -, hfin⟩
  · have hframe := frame_switchBlocks h.tree.heights hbest hblocks
    exact ⟨(hframe.disk rfl).1, hframe.unmoved.best⟩
  · obtain ⟨m, rfl⟩ := NeverRejects.finishSwitch ctx env switched _ _ _ hfin
    exact absurd rfl (hret m)

theorem Saved.connectPostponed_eq_ok {l : List UInt256} (hascent : Ascent parent tip l new)
    (hpar : s.parent = parent) (h : Saved ctx s tip) (hruns : RunsThrough ctx env l s)
    (hrun : connectPostponed ctx env l s = (.ok (), s')) : Saved ctx s' new ∧ Unmoved s s' := by
  induction hascent generalizing s with
  | refl a =>
    obtain ⟨-, rfl⟩ := Prod.mk.inj hrun
    exact ⟨h, Unmoved.refl s⟩
  | @step a p c l hpa hrest ih =>
    obtain ⟨connected, t, hattempt, hrun⟩ := Action.bind_eq_ok.mp hrun
    unfold RunsThrough at hruns
    rcases attempt_eq_ok hattempt with ⟨rfl, hx⟩ | ⟨-, e, hx, -⟩
    · rw [hx] at hruns
      obtain ⟨i, hi, hx⟩ := Action.reading_bind_eq_ok.mp hx
      obtain ⟨block, hblock, hx⟩ := Action.reading_bind_eq_ok.mp hx
      obtain ⟨⟨⟩, t₃, hbegin, hx⟩ := Action.bind_eq_ok.mp hx
      obtain ⟨-, rfl⟩ := txnBegin_eq_ok hbegin
      have hi := index_eq_ok.mp hi
      have hprev : i.pprev = some a := by
        rw [← parent_eq hi, hpar, hpa]
      obtain ⟨hnext, hunm⟩ :=
        h.setBestChainInner_eq_ok hi hprev (readFromDisk_eq_ok hblock).2 hx
      obtain ⟨hfinal, hunm'⟩ := ih (hunm.place.parent_eq.trans hpar) hnext hruns hrun
      exact ⟨hfinal, hunm.trans hunm'⟩
    · rw [hx] at hruns
      exact absurd hruns id

end

/-! ## Moving to the chain of a block -/

theorem Saved.finishMove (h : Saved ctx s p) (hstarted : s.pindexGenesisBlock ≠ none)
    (hhash : ctx.GetHash block = p)
    (hrun : (Action.modify (fun s => s.afterDownloadCheck ctx env) >>= fun _ =>
      setBestBlock (ctx.GetHash block) p) s = (.ok (), s')) :
    Saved ctx s' p ∧ BestIs s' p := by
  obtain ⟨hnew, hidx, htxdb⟩ := finishMove_eq_ok hstarted hhash hrun
  exact ⟨h.of_eq hidx (by rw [htxdb]; exact h.closed) (fun _ => by rw [htxdb]) (by rw [htxdb]),
    hnew⟩

variable (h : Saved ctx s tip) (hbest : BestIs s tip)
include h hbest

theorem Saved.moveChain_eq_ok (hreq : Requested ctx s block p i)
    (hcompletes : MoveCompletes ctx env block p s)
    (hrun : moveChain ctx env block p s.opened = (.ok (), s')) :
    Saved ctx s' p ∧ Unmoved s s' := by
  rw [moveChain_opened hbest.started] at hrun
  split at hrun
  · rename_i hprev
    have hpar := hreq.parent_eq_tip hbest
      (fun _ => h.tree.hashPrevBlock_eq hreq.entry hreq.stored) hprev
    exact h.setBestChainInner_eq_ok hreq.entry hpar hreq.hash (reportAs_eq_ok.mp hrun)
  · rename_i hprev
    obtain ⟨target, htgt, hrun⟩ := Action.reading_bind_eq_ok.mp hrun
    obtain ⟨⟨⟩, s₁, hsw, hpost⟩ := Action.bind_eq_ok.mp hrun
    have hsw := handle_abandon_eq_ok hsw
    obtain ⟨hsaved, hunm⟩ := h.reorganize_eq_ok hbest.pindexBest hsw
    have hruns := hcompletes hprev target s₁ htgt hsw
    obtain ⟨hfinal, hunm'⟩ := hsaved.connectPostponed_eq_ok (findPostponed_eq_ok htgt)
      hunm.place.parent_eq hruns hpost
    exact ⟨hfinal, hunm.trans hunm'⟩

theorem Saved.moveChain_eq_error (hrun : moveChain ctx env block p s.opened = (.error e, s'))
    (hret : Returns (.error e : Except Failure Unit)) :
    Undone s s' ∧ (RecordsKept ctx env block p s → s'.mapBlockIndex = s.mapBlockIndex) := by
  rw [moveChain_opened hbest.started] at hrun
  split at hrun
  · rename_i hprev
    obtain ⟨e', hinner, hret'⟩ := reportAs_eq_error hrun hret
    obtain ⟨hundone, hclean⟩ := h.setBestChainInner_eq_error hinner hret'
    exact ⟨hundone, fun hkept => hclean (hkept.1 hprev)⟩
  · rename_i hprev
    rcases Action.bind_eq_error.mp hrun with hread | ⟨target, t, hread, hrun⟩
    · obtain ⟨m, rfl⟩ := neverRejects_findPostponed p _ _ _ hread
      exact absurd rfl (hret m)
    obtain ⟨htgt, rfl⟩ := Prod.mk.inj hread
    rcases Action.bind_eq_error.mp hrun with hsw | ⟨⟨⟩, s₁, -, hpost⟩
    · obtain ⟨hundone, e', t, hx, hidx⟩ := h.abandoned
        (fun e t hx hret => h.reorganize_eq_error hbest.pindexBest hx hret) hsw hret
      exact ⟨hundone, fun hkept => hidx.trans (hkept.2 hprev target htgt e' t hx)⟩
    · obtain ⟨m, rfl⟩ := NeverRejects.connectPostponed ctx env _ _ _ _ hpost
      exact absurd rfl (hret m)

theorem Saved.setBestChain_eq_error (hrun : SetBestChain ctx env block p s = (.error e, s'))
    (hret : Returns (.error e : Except Failure Unit)) :
    Undone s s' ∧ (RecordsKept ctx env block p s → s'.mapBlockIndex = s.mapBlockIndex) :=
  h.moveChain_eq_error hbest (setBestChain_of_error hrun hret) hret

theorem Saved.setBestChain {r : Except Failure Unit} (hreq : Requested ctx s block p i)
    (hcompletes : MoveCompletes ctx env block p s) (hkept : RecordsKept ctx env block p s)
    (hrun : SetBestChain ctx env block p s = (r, s')) (hret : Returns r) :
    ∃ tip', Saved ctx s' tip' ∧ BestIs s' tip' := by
  rcases r with e | ⟨⟩
  · obtain ⟨hundone, hclean⟩ := h.setBestChain_eq_error hbest hrun hret
    obtain ⟨hsaved, hunm⟩ := h.of_undone hundone (hclean hkept)
    exact ⟨tip, hsaved, hbest.congr hunm⟩
  · obtain ⟨t, hmove, hrun⟩ := setBestChain_parts hrun
    obtain ⟨hsaved, hunm⟩ := h.moveChain_eq_ok hbest hreq hcompletes hmove
    exact ⟨p, hsaved.finishMove (hbest.congr hunm).started hreq.hash hrun⟩

end ZalemCoin.Chain
