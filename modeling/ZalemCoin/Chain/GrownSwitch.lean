import ZalemCoin.Chain.RetargetRuns

/-!
# Switching between the branches

On a node that has blocks of the two branches only, a switch from one to the other succeeds: each
block is on the disk, disconnecting a block with nothing but a coinbase cannot fail, and connecting
one only needs the size calculator to find its way, which it does as long as the best block does not
change.
-/

namespace ZalemCoin.Chain

open Lib
open Lib.Action (bind_of_ok)

variable {time : ℕ → ℕ} {side : Bool} {h : ℕ} {s t : NodeState} {genesis tip p : UInt256}
  {i : CBlockIndex} {top : Bool → ℕ} {l : List UInt256}

theorem GrownEntry.readFromDisk (hi : GrownEntry time side h i) (hh : h ≤ grownHeight) :
    ReadFromDisk (grownContext time) (grownHash side h) i = .ok (grownBlock time side h) := by
  have hgethash : (grownContext time).GetHash (grownBlock time side h) = grownHash side h :=
    getHash_grownBlock hh
  unfold ReadFromDisk
  rw [hi.file, hi.pos, grownBlock_stored hh]
  dsimp only
  rw [hgethash, except_bind_eq_ok]
  refine ⟨(), ensure_eq_ok.mpr ?_, ?_⟩
  · rintro ⟨-, hwork⟩
    exact hwork (grownBlock_proofOfWork hh)
  · rw [except_bind_eq_ok]
    exact ⟨(), ensure_eq_ok.mpr rfl, rfl⟩

theorem grownBlock_disconnects (hi : s.mapBlockIndex p = some i)
    (hprev : ∀ q, i.pprev = some q → s.mapBlockIndex q ≠ none) :
    ∃ s', DisconnectBlock (grownContext time) (grownBlock time side h) p s = (.ok (), s') ∧
      s'.limits = s.limits := by
  obtain ⟨s₁, hins, hidx, hlims⟩ : ∃ s₁, (grownBlock time side h).vtx.reverse.forM
      (DisconnectInputs (grownContext time)) s = (.ok (), s₁) ∧
        s₁.mapBlockIndex = s.mapBlockIndex ∧ s₁.limits = s.limits := ⟨_, rfl, rfl, rfl⟩
  have hread : Action.reading (fun s => s.index (some p)) s₁ = (.ok i, s₁) :=
    Prod.ext (index_eq_ok.mpr ((congrFun hidx p).trans hi)) rfl
  obtain ⟨s₂, hwrite, hlims₂⟩ : ∃ s₂, writePrevLink (grownContext time) i.pprev 0 s₁
      = (.ok (), s₂) ∧ s₂.limits = s₁.limits := by
    rcases hq : i.pprev with _ | q
    · exact ⟨s₁, rfl, rfl⟩
    · have hknown : s₁.mapBlockIndex q ≠ none := by
        rw [hidx]
        exact hprev q hq
      obtain ⟨j, hj, -⟩ := exists_index hknown
      have hread' : Action.reading (fun s => s.index (some q)) s₁ = (.ok j, s₁) := Prod.ext hj rfl
      exact ⟨_, bind_of_ok hread', rfl⟩
  exact ⟨s₂, (bind_of_ok hins).trans ((bind_of_ok hread).trans hwrite), hlims₂.trans hlims⟩

theorem Holds.disconnectBranch_isOk (hs : Holds time top s) (htree : BlockTree s genesis)
    (hl : ∀ p ∈ l, s.mapBlockIndex p ≠ none) :
    ∃ s', disconnectBranch (grownContext time) l [] s = (.ok [], s') ∧ s'.limits = s.limits := by
  induction l generalizing s with
  | nil => exact ⟨s, rfl, rfl⟩
  | cons p l ih =>
    obtain ⟨side, h, hh, rfl⟩ := hs.only p (hl p List.mem_cons_self)
    obtain ⟨i, hi, hent⟩ := hs.entry side h hh
    have hread : Action.reading (fun s => s.index (some (grownHash side h))) s = (.ok i, s) :=
      Prod.ext (index_eq_ok.mpr hi) rfl
    have hdisk : reportAs "Reorganize() : ReadFromDisk for disconnect failed"
        (Action.reading fun _ => ReadFromDisk (grownContext time) (grownHash side h) i) s
          = (.ok (grownBlock time side h), s) :=
      reportAs_eq_ok.mpr (Prod.ext (hent.readFromDisk (hh.trans (hs.low side))) rfl)
    obtain ⟨s₁, hblock, hlims⟩ := @grownBlock_disconnects time side h s (grownHash side h) i hi
      fun q hq => htree.known _ q ((parent_eq hi).trans hq)
    have hframe : ConnectFrame (fun _ => False) s s₁ :=
      (keepsFrame_disconnectBlock (grownContext time) _ _).of_eq hblock
    have hplace : SamePlace s s₁ := hframe.samePlace
    -- The coinbase, which is all that the block has, does not go back to the memory pool.
    obtain ⟨s', hrest, hlims'⟩ := ih (hs.congr hplace) (htree.congr hplace)
      fun q hq => (hplace.ne_none_iff q).mpr (hl q (List.mem_cons_of_mem _ hq))
    exact ⟨s', (bind_of_ok hread).trans <| (bind_of_ok hdisk).trans <|
      (bind_of_ok (reportAs_eq_ok.mpr hblock)).trans hrest, hlims'.trans hlims⟩

theorem Holds.connectBranch_isOk (hs : Holds time top s)
    (htime : ∀ h ≤ grownHeight, time h < 2 ^ 32) (hanchored : Anchored s genesis tip)
    (hwork : Workable s.parent tip s) (hl : ∀ p ∈ l, s.mapBlockIndex p ≠ none ∧
      s.height p ≤ s.height tip + NUM_BLOCKS_FOR_MEDIAN_BLOCK) (vDelete : List CTransaction) :
    ∃ vDelete' s', connectBranch (grownContext time) grownEnv l vDelete s
      = (.ok vDelete', s') := by
  induction l generalizing s vDelete with
  | nil => exact ⟨vDelete, s, rfl⟩
  | cons p l ih =>
    obtain ⟨hknown, hheight⟩ := hl p List.mem_cons_self
    obtain ⟨side, h, hh, rfl⟩ := hs.only p hknown
    obtain ⟨i, hi, hent⟩ := hs.entry side h hh
    have hlow := hh.trans (hs.low side)
    have hread : Action.reading (fun s => s.index (some (grownHash side h))) s = (.ok i, s) :=
      Prod.ext (index_eq_ok.mpr hi) rfl
    have hdisk : reportAs "Reorganize() : ReadFromDisk for connect failed"
        (Action.reading fun _ => ReadFromDisk (grownContext time) (grownHash side h) i) s
          = (.ok (grownBlock time side h), s) :=
      reportAs_eq_ok.mpr (Prod.ext (hent.readFromDisk hlow) rfl)
    obtain ⟨log, s₁, hblock, hframe, hwork₁⟩ := hanchored.succeeds_connectBlock side hi hheight
      hlow (htime h hlow) s ⟨rfl, hwork⟩
    have hplace : SamePlace s s₁ := hframe.samePlace
    obtain ⟨vDelete', s', hrest⟩ := ih (hs.congr hplace) (hanchored.of_frame hframe)
      (by rw [hplace.parent_eq]; exact hwork₁) (fun q hq => by
        obtain ⟨hq', hheight'⟩ := hl q (List.mem_cons_of_mem _ hq)
        rw [hplace.height_eq, hplace.height_eq]
        exact ⟨(hplace.ne_none_iff q).mpr hq', hheight'⟩)
      (vDelete ++ (grownBlock time side h).vtx)
    exact ⟨vDelete', s', (bind_of_ok hread).trans <| (bind_of_ok hdisk).trans <|
      (bind_of_ok (reportAs_eq_ok.mpr hblock)).trans hrest⟩

theorem forM_linkPrev_isOk {pnext : UInt256 → Option UInt256} (htree : BlockTree s genesis)
    (hl : ∀ p ∈ l, s.mapBlockIndex p ≠ none) :
    ∃ s', l.forM (linkPrev pnext) s = (.ok (), s') := by
  induction l generalizing s with
  | nil => exact ⟨s, rfl⟩
  | cons p l ih =>
    obtain ⟨i, hidx, hi⟩ := exists_index (hl p List.mem_cons_self)
    have hread : Action.reading (fun s => s.index (some p)) s = (.ok i, s) := Prod.ext hidx rfl
    obtain ⟨s₁, hone⟩ : ∃ s₁, linkPrev pnext p s = (.ok (), s₁) := by
      rcases hprev : i.pprev with _ | q
      · refine ⟨s, (bind_of_ok hread).trans ?_⟩
        rw [hprev]
        rfl
      · obtain ⟨j, -, hj⟩ := exists_index (htree.known p q ((parent_eq hi).trans hprev))
        refine ⟨s.setIndex q { j with pnext := pnext p }, (bind_of_ok hread).trans ?_⟩
        rw [hprev]
        exact setNext_of_known hj (pnext p)
    have hplace : SamePlace s s₁ := (keepsPlaces_linkPrev pnext p).of_eq hone
    obtain ⟨s', hrest⟩ := ih (htree.congr hplace)
      fun q hq => (hplace.ne_none_iff q).mpr (hl q (List.mem_cons_of_mem _ hq))
    exact ⟨s', Action.forM_cons_eq_ok.mpr ⟨s₁, hone, hrest⟩⟩

theorem finishSwitch_isOk {ctx : Context} {env : Env} {switched : Switched}
    (htree : BlockTree s genesis) (hopen : s.txdb.activeBatch.isSome)
    (hdis : ∀ p ∈ switched.vDisconnect, s.mapBlockIndex p ≠ none)
    (hcon : ∀ p ∈ switched.vConnect, s.mapBlockIndex p ≠ none)
    (hnone : switched.vResurrect = []) :
    ∃ s', finishSwitch ctx env switched s = (.ok (), s') := by
  have hplace : SamePlace s { s with txdb := ⟨s.txdb.view, none⟩ } := SamePlace.of_eq rfl
  obtain ⟨s₁, hunlink⟩ : ∃ s₁, switched.vDisconnect.forM (linkPrev fun _ => none)
      { s with txdb := ⟨s.txdb.view, none⟩ } = (.ok (), s₁) :=
    forM_linkPrev_isOk (htree.congr hplace) hdis
  have hplace₁ : SamePlace s s₁ := by
    have hkeeps := (KeepsPlaces.forM fun p => keepsPlaces_linkPrev (fun _ => none) p).of_eq hunlink
    exact hkeeps
  obtain ⟨s₂, hlink⟩ : ∃ s₂, switched.vConnect.reverse.forM (linkPrev some) s₁ = (.ok (), s₂) :=
    forM_linkPrev_isOk (htree.congr hplace₁) fun p hp =>
      (hplace₁.ne_none_iff p).mpr (hcon p (List.mem_reverse.mp hp))
  have hpool : ∃ s', updateMempool ctx env switched.vResurrect switched.vDelete s₂
      = (.ok (), s') := by
    rw [hnone]
    exact ⟨_, rfl⟩
  obtain ⟨s', hupdate⟩ := hpool
  exact ⟨s', (bind_of_ok (txnCommit_of_open hopen)).trans <|
    (bind_of_ok hunlink).trans <| (bind_of_ok hlink).trans hupdate⟩

theorem BlockTree.segment_known {f : UInt256} (htree : BlockTree s genesis)
    (hseg : Segment s.parent p l f) (hp : s.mapBlockIndex p ≠ none) {q : UInt256} (hq : q ∈ l) :
    s.mapBlockIndex q ≠ none ∧ s.height q ≤ s.height p := by
  have hancestor := hseg.isAncestor_of_mem hq
  exact ⟨htree.known_of_isAncestor hp hancestor, htree.height_le hancestor⟩

theorem Holds.reorganize_isOk {new : UInt256} (hs : Holds time top s)
    (htime : ∀ h ≤ grownHeight, time h < 2 ^ 32) (hanchored : Anchored s genesis tip)
    (hwork : Workable s.parent tip s) (hopen : s.txdb.activeBatch.isSome)
    (hnew : s.mapBlockIndex new ≠ none)
    (hheight : s.height new ≤ s.height tip + NUM_BLOCKS_FOR_MEDIAN_BLOCK) :
    ∃ s', Reorganize (grownContext time) grownEnv new s = (.ok (), s') := by
  obtain ⟨f, switch, hsw, -, hdis, hcon⟩ :=
    hanchored.tree.findSwitch_isOk hanchored.known hnew hanchored.best
  -- Disconnecting the old branch.
  obtain ⟨s₁, hdisc, hlims₁⟩ := hs.disconnectBranch_isOk hanchored.tree
    fun p hp => (hanchored.tree.segment_known hdis hanchored.known hp).1
  have hframe₁ : ConnectFrame (fun _ => False) s s₁ := (keepsFrame_disconnectBranch _ _).of_eq hdisc
  have hplace₁ : SamePlace s s₁ := hframe₁.samePlace
  -- Connecting the new one.
  have hwork₁ : Workable s₁.parent tip s₁ := by
    rw [hplace₁.parent_eq]
    exact hwork.congr hlims₁
  obtain ⟨vDelete, s₂, hconn⟩ : ∃ vDelete s₂, connectBranch (grownContext time) grownEnv
      switch.vConnect.reverse [] s₁ = (.ok vDelete, s₂) := by
    refine (hs.congr hplace₁).connectBranch_isOk htime (hanchored.of_frame hframe₁) hwork₁
      (fun p hp => ?_) []
    obtain ⟨hknown, hlow⟩ := hanchored.tree.segment_known hcon hnew (List.mem_reverse.mp hp)
    rw [hplace₁.height_eq, hplace₁.height_eq]
    exact ⟨(hplace₁.ne_none_iff p).mpr hknown, hlow.trans hheight⟩
  have hframe₂ := (keepsFrame_connectBranch _ _).of_eq hconn
  have hplace₂ : SamePlace s s₂ := hplace₁.trans hframe₂.samePlace
  have hopen₂ := (hframe₂.disk (hframe₁.disk hopen).2).2
  -- Committing the switch.
  obtain ⟨s₃, hwrite, hidx₃, hopen₃⟩ : ∃ s₃, WriteHashBestChain new s₂ = (.ok (), s₃) ∧
      s₃.mapBlockIndex = s₂.mapBlockIndex ∧ s₃.txdb.activeBatch.isSome :=
    ⟨_, rfl, rfl, (Store.perform_of_open hopen₂ _).2⟩
  have hplace₃ : SamePlace s s₃ := hplace₂.trans (SamePlace.of_eq hidx₃)
  obtain ⟨s', hfin⟩ := @finishSwitch_isOk s₃ genesis (grownContext time) grownEnv
    ⟨switch, [], vDelete⟩ (hanchored.tree.congr hplace₃) hopen₃
    (fun p hp => (hplace₃.ne_none_iff p).mpr
      (hanchored.tree.segment_known hdis hanchored.known hp).1)
    (fun p hp => (hplace₃.ne_none_iff p).mpr (hanchored.tree.segment_known hcon hnew hp).1) rfl
  refine ⟨s', (reorganize_eq hsw).trans ?_⟩
  exact (bind_of_ok hdisc).trans <| (bind_of_ok hconn).trans <|
    (bind_of_ok hwrite).trans hfin

end ZalemCoin.Chain
