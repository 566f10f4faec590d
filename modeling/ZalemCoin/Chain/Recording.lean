import ZalemCoin.Chain.LoadBlockIndex
import ZalemCoin.Chain.Places

/-!
# What a transaction of the database says about the block index

While blocks are connected and disconnected, the database has the entries of the block index as they
are in memory, but for the links to next blocks: those it has as they will be after the commit. The
links are changed block by block, in memory in the same order as in the database.
-/

namespace ZalemCoin.Chain

open Lib
open Function (update_of_ne update_self)

/-! ## Changing links block by block -/

/-- The links after that of the block before another one has been set. -/
def relink (parent : UInt256 → Option UInt256) (pnext : Option UInt256)
    (next : UInt256 → Option UInt256) (p : UInt256) : UInt256 → Option UInt256 :=
  match parent p with
  | none => next
  | some q => Function.update next q pnext

/-- The links after those of the blocks before some others have been set. -/
def relinkAll (parent pnext next : UInt256 → Option UInt256) (l : List UInt256) :
    UInt256 → Option UInt256 :=
  l.foldl (fun next p => relink parent (pnext p) next p) next

variable {next : UInt256 → Option UInt256} {l : List UInt256} {p : UInt256}

section

variable {parent pnext : UInt256 → Option UInt256}

theorem relink_apply (x : UInt256) (v : Option UInt256) :
    relink parent v next x p = if parent x = some p then v else next p := by
  unfold relink
  rcases hx : parent x with _ | q
  · simp
  · dsimp only
    rw [Function.update_apply]
    by_cases hp : p = q
    · rw [if_pos hp, hp, if_pos rfl]
    · rw [if_neg hp, if_neg fun h => hp (Option.some.inj h).symm]

theorem relinkAll_cases :
    (∃ x ∈ l, parent x = some p ∧ relinkAll parent pnext next l p = pnext x) ∨
      ((∀ x ∈ l, parent x ≠ some p) ∧ relinkAll parent pnext next l p = next p) := by
  induction l generalizing next with
  | nil => exact .inr ⟨by simp, rfl⟩
  | cons x l ih =>
    rcases @ih (relink parent (pnext x) next x) with ⟨y, hy, hpar, hset⟩ | ⟨hnone, hkept⟩
    · exact .inl ⟨y, List.mem_cons_of_mem _ hy, hpar, hset⟩
    · change relinkAll parent pnext next (x :: l) p = _ at hkept
      rw [relink_apply] at hkept
      by_cases hx : parent x = some p
      · rw [if_pos hx] at hkept
        exact .inl ⟨x, List.mem_cons_self, hx, hkept⟩
      · rw [if_neg hx] at hkept
        refine .inr ⟨fun y hy => ?_, hkept⟩
        rcases List.mem_cons.mp hy with rfl | hy
        · exact hx
        · exact hnone y hy

end

theorem linked_next (s : NodeState) : Linked s fun p => (s.next p).isSome = true := by
  intro p i hi
  show i.pnext.isSome = true ↔ ((s.mapBlockIndex p).bind CBlockIndex.pnext).isSome = true
  rw [hi]
  exact Iff.rfl

theorem forM_linkPrev_relinkAll {s s' : NodeState} {pnext : UInt256 → Option UInt256}
    (h : l.forM (linkPrev pnext) s = (.ok (), s')) :
    s'.next = relinkAll s.parent pnext s.next l ∧ LinkFrame s s' := by
  induction l generalizing s with
  | nil =>
    obtain ⟨-, rfl⟩ := Prod.mk.inj h
    exact ⟨rfl, LinkFrame.refl s⟩
  | cons x l ih =>
    obtain ⟨t, hone, hrest⟩ := Action.forM_cons_eq_ok.mp h
    obtain ⟨hnext, hframe⟩ := ih hrest
    have hfst : t.next = relink s.parent (pnext x) s.next x ∧ LinkFrame s t := by
      obtain ⟨i, hi, hone⟩ := Action.reading_bind_eq_ok.mp hone
      have hpar := parent_eq (index_eq_ok.mp hi)
      unfold relink
      rcases hprev : i.pprev with _ | q
      · rw [hprev] at hone hpar
        obtain ⟨-, rfl⟩ := Prod.mk.inj hone
        rw [hpar]
        exact ⟨rfl, LinkFrame.refl s⟩
      · rw [hprev] at hone hpar
        rw [hpar]
        refine ⟨funext fun p => ?_, (setNext_eq_ok (linked_next s) hone).1⟩
        rw [(setNext_next hone).2 p]
        exact (Function.update_apply _ _ _ _).symm
    rw [hfst.1, hfst.2.samePlace.parent_eq] at hnext
    exact ⟨hnext, hfst.2.trans hframe⟩

/-! ## The entries in the database -/

/-- The database has the entries of the block index, with some links to next blocks. -/
def Recording (s : NodeState) (next : UInt256 → Option UInt256) : Prop :=
  ∀ p, s.txdb.view (.blockindex p)
    = (s.mapBlockIndex p).map fun i => CDiskBlockIndex.of { i with pnext := next p }

/-- Every entry computes the hash that it is stored under. -/
def HashesOk (ctx : Context) (s : NodeState) : Prop :=
  ∀ p i, s.mapBlockIndex p = some i → (CDiskBlockIndex.of i).GetBlockHash ctx = p

def NodeState.indexPart (s : NodeState) :
    (UInt256 → Option CBlockIndex) × (UInt256 → Option CDiskBlockIndex) :=
  (s.mapBlockIndex, fun p => s.txdb.view (.blockindex p))

variable {ctx : Context} {env : Env} {s s' : NodeState}

section

variable {block : CBlock} {i : CBlockIndex}

theorem Recording.congr (h : Recording s next) (hpart : s'.indexPart = s.indexPart) :
    Recording s' next := by
  obtain ⟨hidx, hview⟩ := Prod.mk.inj hpart
  intro p
  rw [hidx]
  exact (congrFun hview p).trans (h p)

theorem HashesOk.congr (h : HashesOk ctx s) (hplace : SamePlace s s') : HashesOk ctx s' := by
  intro p i' hi'
  obtain ⟨i, hi, hsame⟩ := hplace.exists_eq hi'
  rw [← h p i hi]
  exact (congrArg (fun j : CBlockIndex => (CDiskBlockIndex.of j).GetBlockHash ctx) hsame :)

theorem view_writeQueue (txdb : CTxDB) (queue : TestPool) (p : UInt256) :
    (writeQueue txdb queue).view (.blockindex p) = txdb.view (.blockindex p) := by
  unfold writeQueue
  induction queue.entries generalizing txdb with
  | nil => rfl
  | cons entry entries ih =>
    rw [List.foldl_cons, ih]
    unfold CTxDB.UpdateTxIndex
    rw [Store.view_write, update_of_ne (by simp)]

theorem indexPart_of_core (h : s'.core = s.core) : s'.indexPart = s.indexPart := by
  unfold NodeState.indexPart
  rw [mapBlockIndex_of_core h, txdb_of_core h]

theorem keepsIndexPart_indexBlockAddresses (ctx : Context) (block : CBlock) :
    KeepsPart NodeState.indexPart (indexBlockAddresses ctx block) :=
  KeepsPart.indexBlockAddresses block fun _ _ _ =>
    Prod.ext rfl (funext fun _ => view_writeAddrIds _ _ _ _ (by simp))

theorem keepsIndexPart_disconnectInputs (ctx : Context) (tx : CTransaction) :
    KeepsPart NodeState.indexPart (DisconnectInputs ctx tx) := by
  have htx : ∀ (txdb : CTxDB) (hash p : UInt256) (v : Option CTxIndex),
      (txdb.perform ⟨.tx hash, v⟩).view (.blockindex p) = txdb.view (.blockindex p) := by
    intro txdb hash p v
    rw [Store.view_perform, update_of_ne (by simp)]
  refine KeepsPart.bind (KeepsPart.ite (KeepsPart.pure _) (KeepsPart.forM fun txin _ => ?_))
    fun _ => KeepsPart.modify fun s => Prod.ext rfl (funext fun p => htx _ _ _ _)
  exact KeepsPart.bind (KeepsPart.reading _) fun _ =>
    KeepsPart.modify fun s => Prod.ext rfl (funext fun p => htx _ _ _ _)

variable (hs : Recording s next)
include hs

theorem Recording.writePrevLink (hhashes : HashesOk ctx s) {parent : UInt256 → Option UInt256}
    {pprev pnext : Option UInt256} (hpar : parent p = pprev)
    (h : writePrevLink ctx pprev (pnext.getD 0) s = (.ok (), s')) :
    s'.mapBlockIndex = s.mapBlockIndex ∧ Recording s' (relink parent pnext next p) := by
  unfold relink
  rw [hpar]
  rcases pprev with _ | q
  · cases h
    exact ⟨rfl, hs⟩
  · obtain ⟨prev, hprev, h⟩ := Action.reading_bind_eq_ok.mp h
    cases h
    have hprev := index_eq_ok.mp hprev
    refine ⟨rfl, fun p => ?_⟩
    show (s.txdb.WriteBlockIndex ctx (CDiskBlockIndex.of { prev with pnext := pnext })).view
      (.blockindex p) = (s.mapBlockIndex p).map _
    unfold CTxDB.WriteBlockIndex
    have hkey : ctx.hashHeader (CDiskBlockIndex.of { prev with pnext := pnext }).header = q :=
      hhashes q prev hprev
    rw [hkey, Store.view_write]
    dsimp only
    by_cases hp : p = q
    · rw [hp, update_self, hprev, update_self]
      rfl
    · rw [update_of_ne (by simpa using hp), update_of_ne hp]
      exact hs p

theorem Recording.connectBlock (hhashes : HashesOk ctx s) {log : List SigCheck}
    (hnext : next p = s.next p) (h : ConnectBlock ctx env block p false s = (.ok log, s')) :
    Recording s' (relink s.parent (some p) next p) := by
  obtain ⟨t₁, size, t₂, s₁, r, -, -, -, hcore, heval, hwrite, -⟩ := connectBlock_parts h
  generalize ht₄ : { s₁.setIndex p r.1 with
    txdb := s₁.txdb.WriteBlockIndex ctx (CDiskBlockIndex.of r.1) } = t₄ at hwrite
  have hs := hs.congr (indexPart_of_core hcore)
  obtain ⟨i, prevSupply, hi, -, -, -, hr⟩ := evaluateBlock_eq_ok ctx heval
  have hplace : SamePlace s t₄ := by
    subst ht₄
    exact (SamePlace.of_eq (mapBlockIndex_of_core hcore)).trans (frame_record ctx env heval).samePlace
  have hi' : s.mapBlockIndex p = some i := by rw [← mapBlockIndex_of_core hcore, hi]
  have hlink : next p = r.1.pnext := by
    rw [hnext, hr]
    unfold NodeState.next
    rw [hi']
    rfl
  have hkey : ctx.hashHeader (CDiskBlockIndex.of r.1).header = p := by
    rw [hr]
    exact hhashes p i hi'
  -- The entry is recorded with the link that it has in memory, which is the one it will have.
  have hs₄ : Recording t₄ next := by
    subst ht₄
    intro q
    show (s₁.txdb.WriteBlockIndex ctx (CDiskBlockIndex.of r.1)).view (.blockindex q)
      = (Function.update s₁.mapBlockIndex p (some r.1) q).map _
    unfold CTxDB.WriteBlockIndex
    rw [hkey, Store.view_write]
    by_cases hq : q = p
    · rw [hq, update_self, update_self, hlink]
      rfl
    · rw [update_of_ne (by simpa using hq), update_of_ne hq]
      exact hs q
  obtain ⟨⟨⟩, u₁, hqueue, hwrite⟩ := Action.bind_eq_ok.mp hwrite
  obtain ⟨⟨⟩, u₂, haddr, hprev⟩ := Action.bind_eq_ok.mp hwrite
  cases hqueue
  have hkeep := (keepsIndexPart_indexBlockAddresses ctx block).of_eq haddr
  have hs₂ : Recording u₂ next := by
    refine Recording.congr (Recording.congr hs₄ ?_) hkeep
    exact Prod.ext rfl (funext fun q => view_writeQueue _ _ q)
  have hplace₂ : SamePlace s u₂ := by
    refine hplace.trans (SamePlace.of_eq ?_)
    exact (congrArg Prod.fst hkeep :)
  have hpar : s.parent p = r.1.pprev := by
    rw [parent_eq hi', hr]
    rfl
  exact (@Recording.writePrevLink next p ctx u₂ s' hs₂ (hhashes.congr hplace₂) s.parent r.1.pprev
    (some p) hpar hprev).2

theorem Recording.disconnectBlock (hhashes : HashesOk ctx s)
    (h : DisconnectBlock ctx block p s = (.ok (), s')) :
    Recording s' (relink s.parent none next p) := by
  obtain ⟨⟨⟩, t, hins, h⟩ := Action.bind_eq_ok.mp h
  obtain ⟨i, hi, hprev⟩ := Action.reading_bind_eq_ok.mp h
  have hkeep : t.indexPart = s.indexPart :=
    (KeepsPart.forM fun tx _ => keepsIndexPart_disconnectInputs ctx tx).of_eq hins
  have hplace : SamePlace s t := SamePlace.of_eq (congrArg Prod.fst hkeep :)
  have hpar : s.parent p = i.pprev := by
    rw [← hplace.parent_eq]
    exact parent_eq (index_eq_ok.mp hi)
  exact (@Recording.writePrevLink next p ctx t s' (hs.congr hkeep) (hhashes.congr hplace) s.parent
    i.pprev none hpar hprev).2

theorem Recording.of_sameEntry (hents : ∀ p, SameEntry s s' p)
    (hview : ∀ p, s'.txdb.view (.blockindex p) = s.txdb.view (.blockindex p)) :
    Recording s' next := by
  intro p
  rw [hview, hs p]
  exact ((hents p).map_eq (fun i => CDiskBlockIndex.of { i with pnext := next p })
    fun _ => rfl).symm

end

/-! ## Branches -/

theorem Recording.disconnectBranch {vResurrect r : List CTransaction} (hs : Recording s next)
    (hhashes : HashesOk ctx s) (h : disconnectBranch ctx l vResurrect s = (.ok r, s')) :
    Recording s' (relinkAll s.parent (fun _ => none) next l) := by
  induction l generalizing s next vResurrect with
  | nil =>
    cases h
    exact hs
  | cons p l ih =>
    obtain ⟨i, -, h⟩ := Action.reading_bind_eq_ok.mp h
    obtain ⟨block, t₂, hdisk, h⟩ := Action.bind_eq_ok.mp h
    obtain ⟨-, rfl⟩ := Prod.mk.inj (reportAs_eq_ok.mp hdisk)
    obtain ⟨⟨⟩, t, hdisc, h⟩ := Action.bind_eq_ok.mp h
    have hdisc := reportAs_eq_ok.mp hdisc
    have hframe : ConnectFrame (fun _ => False) s t :=
      (keepsFrame_disconnectBlock ctx block p).of_eq hdisc
    have hrest := ih (hs.disconnectBlock hhashes hdisc) (hhashes.congr hframe.samePlace) h
    rw [hframe.samePlace.parent_eq] at hrest
    exact hrest

theorem Recording.connectBranch {vDelete r : List CTransaction} (hs : Recording s next)
    (hhashes : HashesOk ctx s) (hlinks : ∀ x ∈ l, next x = none ∧ s.next x = none)
    (horder : l.Pairwise fun c x => s.parent c ≠ some x)
    (h : connectBranch ctx env l vDelete s = (.ok r, s')) :
    Recording s' (relinkAll s.parent some next l) := by
  induction l generalizing s next vDelete with
  | nil =>
    cases h
    exact hs
  | cons p l ih =>
    obtain ⟨i, -, h⟩ := Action.reading_bind_eq_ok.mp h
    obtain ⟨block, t₂, hdisk, h⟩ := Action.bind_eq_ok.mp h
    obtain ⟨-, rfl⟩ := Prod.mk.inj (reportAs_eq_ok.mp hdisk)
    obtain ⟨log, t, hconn, h⟩ := Action.bind_eq_ok.mp h
    have hconn := reportAs_eq_ok.mp hconn
    have hframe := (keepsFrame_connectBlock ctx env block p false).of_eq hconn
    have hpar := hframe.samePlace.parent_eq
    obtain ⟨hfst, horder⟩ := List.pairwise_cons.mp horder
    obtain ⟨hnext, hown⟩ := hlinks p List.mem_cons_self
    have hstep := hs.connectBlock hhashes (hnext.trans hown.symm) hconn
    have hlater : ∀ x ∈ l, relink s.parent (some p) next p x = none ∧ t.next x = none := by
      intro x hx
      obtain ⟨hnext, hown⟩ := hlinks x (List.mem_cons_of_mem _ hx)
      rw [relink_apply, if_neg (hfst x hx), hframe.next_eq]
      exact ⟨hnext, hown⟩
    have hrest := ih hstep (hhashes.congr hframe.samePlace) hlater (hpar ▸ horder) h
    rw [hpar] at hrest
    exact hrest

end ZalemCoin.Chain
