import ZalemCoin.Chain.ReorganizePaths
import ZalemCoin.Chain.Runs

/-!
# The tree of blocks in any run

Whatever the calls on the chain come to, whether they succeed, fail or stop the process, the entries
of the block index stay where they are: only links to next blocks, mints and supplies change. The
tree grows by making an entry, and in no other way. So it is a tree in every state, also in those
in which the globals, the database and the links do not agree.
-/

namespace ZalemCoin.Chain

open Lib

theorem SamePlace.refl (s : NodeState) : SamePlace s s := fun _ => rfl

variable {s s' : NodeState}

theorem SamePlace.of_eq (h : s'.mapBlockIndex = s.mapBlockIndex) :
    SamePlace s s' := fun p => by rw [h]

theorem SamePlace.symm (h : SamePlace s s') : SamePlace s' s := fun p => (h p).symm

theorem SamePlace.ne_none_iff (h : SamePlace s s') (p : UInt256) :
    s'.mapBlockIndex p ≠ none ↔ s.mapBlockIndex p ≠ none := by
  have hmap := h p
  rw [ne_eq, ne_eq, ← Option.map_eq_none_iff (f := CBlockIndex.place), hmap, Option.map_eq_none_iff]

/-- An action that leaves every block at its place, however it ends. -/
def KeepsPlaces {α : Type} (x : NodeM α) : Prop := Action.Keeps SamePlace x

namespace KeepsPlaces

variable {α β : Type} {x : NodeM α}

theorem of_eq (h : KeepsPlaces x) {s s' : NodeState} {r : Except Failure α} (hr : x s = (r, s')) :
    SamePlace s s' := Action.Keeps.of_eq h hr

theorem of_frame {touched : UInt256 → Prop} (h : KeepsFrame touched x) :
    KeepsPlaces x := fun s => (h s).samePlace

theorem pure (a : α) : KeepsPlaces (Pure.pure a : NodeM α) := fun s => SamePlace.refl s

theorem fail (e : Failure) : KeepsPlaces (Action.fail e : NodeM α) := fun s => SamePlace.refl s

theorem reading (f : NodeState → Except Failure α) : KeepsPlaces (Action.reading f) :=
  fun s => SamePlace.refl s

theorem modify {f : NodeState → NodeState} (h : ∀ s, (f s).mapBlockIndex = s.mapBlockIndex) :
    KeepsPlaces (Action.modify f : NodeM Unit) := fun s => SamePlace.of_eq (h s)

theorem bind {f : α → NodeM β} (hx : KeepsPlaces x) (hf : ∀ a, KeepsPlaces (f a)) :
    KeepsPlaces (x >>= f) := Action.Keeps.bind (fun h h' => h.trans h') hx hf

theorem ite {c : Prop} [Decidable c] {y : NodeM α} (hx : KeepsPlaces x) (hy : KeepsPlaces y) :
    KeepsPlaces (if c then x else y) := by
  split
  · exact hx
  · exact hy

theorem handle {handler : Failure → NodeM α} (hx : KeepsPlaces x)
    (hh : ∀ e, KeepsPlaces (handler e)) : KeepsPlaces (Action.handle x handler) :=
  Action.Keeps.handle (fun h h' => h.trans h') hx hh

theorem forM {γ : Type} {l : List γ} {f : γ → NodeM Unit} (h : ∀ a, KeepsPlaces (f a)) :
    KeepsPlaces (l.forM f) := by
  induction l with
  | nil => exact pure _
  | cons a l ih => exact bind (h a) fun _ => ih

end KeepsPlaces

/-! ## The calls on the chain -/

section

variable (ctx : Context) (env : Env)

theorem keepsPlaces_txnBegin : KeepsPlaces TxnBegin := by
  intro s
  unfold TxnBegin
  split <;> exact SamePlace.refl s

theorem keepsPlaces_txnCommit : KeepsPlaces TxnCommit := by
  intro s
  unfold TxnCommit
  split <;> exact SamePlace.refl s

theorem KeepsPlaces.reportAs {α : Type} (msg : String) {x : NodeM α} (h : KeepsPlaces x) :
    KeepsPlaces (reportAs msg x) := h.handle fun _ => KeepsPlaces.fail _

theorem KeepsPlaces.attempt {x : NodeM Unit} (h : KeepsPlaces x) : KeepsPlaces (attempt x) := by
  refine (h.bind fun _ => KeepsPlaces.pure _).handle fun e => ?_
  cases e with
  | crash m => exact KeepsPlaces.fail _
  | reject n m => exact KeepsPlaces.pure _

theorem keepsPlaces_setNext (pindex pnext : Option UInt256) :
    KeepsPlaces (setNext pindex pnext) := by
  intro s
  unfold setNext
  rw [Action.bind_apply, Action.reading_apply]
  rcases hi : s.index pindex with e | i
  · exact SamePlace.refl s
  · rcases pindex with _ | p
    · exact SamePlace.refl s
    · -- The entry that is replaced is the one that has been read.
      have hent := index_eq_ok.mp hi
      intro q
      show (Function.update s.mapBlockIndex p _ q).map _ = _
      by_cases hq : q = p
      · rw [hq, Function.update_self, hent]
        rfl
      · rw [Function.update_of_ne hq]

theorem keepsPlaces_linkPrev (pnext : UInt256 → Option UInt256) (p : UInt256) :
    KeepsPlaces (linkPrev pnext p) := by
  refine (KeepsPlaces.reading _).bind fun i => ?_
  rcases i.pprev with _ | q
  · exact KeepsPlaces.pure _
  · exact keepsPlaces_setNext _ _

theorem keepsPlaces_updateMempool (vResurrect vDelete : List CTransaction) :
    KeepsPlaces (updateMempool ctx env vResurrect vDelete) := fun s =>
  SamePlace.of_eq (congrArg Prod.fst (keepsChain_updateMempool ctx env vResurrect vDelete s) :)

theorem keepsPlaces_abandon (p : UInt256) (msg : String) (e : Failure) :
    KeepsPlaces (abandon p msg e) := by
  have hread : ∀ i, KeepsPlaces (readBlockTrust i) := fun i =>
    (KeepsPlaces.reading _).bind fun _ => KeepsPlaces.pure _
  have hinvalid : KeepsPlaces (InvalidChainFound p) := by
    refine (KeepsPlaces.reading _).bind fun i => ?_
    refine KeepsPlaces.bind (KeepsPlaces.modify fun s => ?_) fun _ => (hread i).bind fun _ => ?_
    · split <;> rfl
    · exact (KeepsPlaces.reading _).bind fun best => (hread best).ite (KeepsPlaces.pure _)
  cases e with
  | crash m => exact KeepsPlaces.fail _
  | reject n m =>
    have habort : KeepsPlaces TxnAbort := KeepsPlaces.modify fun _ => by rfl
    exact habort.bind fun _ => hinvalid.bind fun _ => KeepsPlaces.fail _

theorem keepsPlaces_setBestChainInner (block : CBlock) (p : UInt256) :
    KeepsPlaces (SetBestChainInner ctx env block p) := by
  refine ((KeepsPlaces.of_frame keepsFrame_connectTip).handle
    (keepsPlaces_abandon p _)).bind fun _ => ?_
  refine keepsPlaces_txnCommit.bind fun _ => (KeepsPlaces.reading _).bind fun i => ?_
  exact (keepsPlaces_setNext _ _).bind fun _ => KeepsPlaces.modify fun _ => by rfl

theorem keepsPlaces_reorganize (p : UInt256) : KeepsPlaces (Reorganize ctx env p) := by
  have hblocks : KeepsPlaces (switchBlocks ctx env p) := by
    refine (KeepsPlaces.reading _).bind fun switch => ?_
    have hdisc : KeepsFrame (fun _ => False) (disconnectBranch ctx switch.vDisconnect []) :=
      keepsFrame_disconnectBranch _ _
    have hconn : ∀ l vDelete, KeepsPlaces (connectBranch ctx env l vDelete) := fun l vDelete =>
      KeepsPlaces.of_frame (keepsFrame_connectBranch l vDelete)
    refine (KeepsPlaces.of_frame hdisc).bind fun vResurrect => ?_
    exact (hconn _ _).bind fun vDelete => KeepsPlaces.bind (KeepsPlaces.modify fun _ => by rfl)
      fun _ => KeepsPlaces.pure _
  refine hblocks.bind fun switched => keepsPlaces_txnCommit.bind fun _ => ?_
  refine (KeepsPlaces.forM (keepsPlaces_linkPrev _)).bind fun _ => ?_
  exact (KeepsPlaces.forM (keepsPlaces_linkPrev _)).bind fun _ =>
    keepsPlaces_updateMempool ctx env _ _

theorem keepsPlaces_connectPostponed (l : List UInt256) :
    KeepsPlaces (connectPostponed ctx env l) := by
  induction l with
  | nil => exact KeepsPlaces.pure _
  | cons p l ih =>
    refine KeepsPlaces.bind (KeepsPlaces.attempt ?_) fun connected => ih.ite (KeepsPlaces.pure _)
    refine (KeepsPlaces.reading _).bind fun i => (KeepsPlaces.reading _).bind fun block => ?_
    exact keepsPlaces_txnBegin.bind fun _ => keepsPlaces_setBestChainInner ctx env block p

theorem keepsPlaces_setBestChain (block : CBlock) (p : UInt256) :
    KeepsPlaces (SetBestChain ctx env block p) := by
  have hmove : KeepsPlaces (moveChain ctx env block p) := by
    intro s
    unfold moveChain
    split
    · have hstart : KeepsPlaces (startChain (ctx.GetHash block) p) :=
        KeepsPlaces.bind (KeepsPlaces.modify fun _ => by rfl) fun _ =>
          keepsPlaces_txnCommit.bind fun _ => KeepsPlaces.modify fun _ => by rfl
      exact hstart s
    split
    · exact (keepsPlaces_setBestChainInner ctx env block p).reportAs _ s
    · refine ((KeepsPlaces.reading _).bind fun target => ?_) s
      exact ((keepsPlaces_reorganize ctx env target.1).handle (keepsPlaces_abandon p _)).bind
        fun _ => keepsPlaces_connectPostponed ctx env _
  refine keepsPlaces_txnBegin.bind fun _ => hmove.bind fun _ => ?_
  refine KeepsPlaces.bind (KeepsPlaces.modify fun s => ?_) fun _ => ?_
  · exact (congrArg Prod.fst (chainPart_afterDownloadCheck ctx env s) :)
  · refine (KeepsPlaces.reading _).bind fun i => (KeepsPlaces.modify fun _ => by rfl).bind fun _ => ?_
    exact ((KeepsPlaces.reading _).bind fun _ => KeepsPlaces.pure _).ite (KeepsPlaces.pure _)

end

/-! ## How the tree grows -/

variable {ctx : Context} {env : Env} {genesis : UInt256} {nFile nBlockPos : UInt32}
  {hashProof : UInt256} {block : CBlock} {i : CBlockIndex}

theorem BlockTree.congr (h : BlockTree s genesis) (hplace : SamePlace s s') :
    BlockTree s' genesis where
  heights p q hpq := by
    rw [hplace.height_eq, hplace.height_eq]
    rw [hplace.parent_eq] at hpq
    exact h.heights p q hpq
  low := (hplace.height_eq genesis).trans h.low
  known p q hpq := by
    rw [hplace.parent_eq] at hpq
    exact (hplace.ne_none_iff q).mpr (h.known p q hpq)
  root p hp hroot := by
    rw [hplace.parent_eq] at hroot
    exact h.root p ((hplace.ne_none_iff p).mp hp) hroot

variable (h : Indexed ctx s s' nFile nBlockPos block i)
include h

theorem Indexed.blockTree (htree : BlockTree s genesis) (hgen : s.mapBlockIndex genesis ≠ none)
    (hknown : s.mapBlockIndex block.hashPrevBlock ≠ none) : BlockTree s' genesis where
  heights := h.heightsOk htree.heights htree.known hknown
  low := by
    have hne : genesis ≠ ctx.GetHash block := fun heq => hgen (heq ▸ h.fresh)
    rw [h.height_of_ne hne]
    exact htree.low
  known p q hpq := h.known_parents htree.known hknown hpq
  root p hp hroot := by
    by_cases hself : p = ctx.GetHash block
    · rw [hself, h.parent_self hknown] at hroot
      simp at hroot
    · rw [h.entry_of_ne hself] at hp
      rw [h.parent_of_ne hself] at hroot
      exact htree.root p hp hroot

theorem Indexed.isAncestor_iff
    (hknown : ∀ p q, s.parent p = some q → s.mapBlockIndex q ≠ none) {p q : UInt256}
    (hp : s.mapBlockIndex p ≠ none) : IsAncestor s'.parent q p ↔ IsAncestor s.parent q p := by
  have hpar : ∀ x, s.mapBlockIndex x ≠ none → s'.parent x = s.parent x := by
    intro x hx
    apply h.parent_of_ne
    rintro rfl
    exact hx h.fresh
  constructor
  · intro hq
    refine IsAncestor.congr hq (fun x y hx hxy => ?_) (fun x hx => (hpar x hx).symm) hp
    rw [hpar x hx] at hxy
    exact hknown x y hxy
  · intro hq
    exact IsAncestor.congr hq (fun x y _ hxy => hknown x y hxy) hpar hp

theorem Indexed.parent_genesis
    (hemp : s.mapBlockIndex = fun _ => none) (p : UInt256) : s'.parent p = none := by
  have hroot : i.pprev = none := by rw [h.parent, hemp]; rfl
  by_cases hp : p = ctx.GetHash block
  · rw [hp, parent_eq h.entry_self, hroot]
  · rw [h.parent_of_ne hp]
    unfold NodeState.parent
    rw [hemp]
    rfl

theorem Indexed.blockTree_genesis
    (hemp : s.mapBlockIndex = fun _ => none) : BlockTree s' (ctx.GetHash block) := by
  have hpar := h.parent_genesis hemp
  refine ⟨fun p q hpq => ?_, ?_, fun p q hpq => ?_, fun p hp _ => ?_⟩
  · simp [hpar] at hpq
  · rw [height_eq h.entry_self, h.height, hemp]
    rfl
  · simp [hpar] at hpq
  · by_contra hne
    rw [h.entry_of_ne hne, hemp] at hp
    exact hp rfl

omit h

theorem addToBlockIndex_places {r : Except Failure Unit}
    (h : AddToBlockIndex ctx env nFile nBlockPos hashProof block s = (r, s')) (hret : Returns r) :
    SamePlace s s' ∨
      ∃ i s₁, indexBlock ctx nFile nBlockPos hashProof block s = (.ok i, s₁) ∧ SamePlace s₁ s' := by
  rcases addToBlockIndex_cases h hret with ⟨-, -, hpart⟩ | ⟨i, s₁, hrun, ⟨-, hmove⟩ | ⟨-, rfl⟩⟩
  · exact .inl (SamePlace.of_eq (congrArg Prod.fst hpart :))
  · exact .inr ⟨i, s₁, hrun, (keepsPlaces_setBestChain ctx env block _).of_eq hmove⟩
  · exact .inr ⟨i, _, hrun, fun _ => rfl⟩

theorem Initialised.indexed (h : Initialised ctx s) :
    ∃ s₀ s₁ nFile nBlockPos genesis i, Indexed ctx s₀ s₁ nFile nBlockPos genesis i ∧
      s₀.mapBlockIndex = (fun _ => none) ∧ SamePlace s₁ s ∧
      ctx.GetHash genesis = ctx.hashGenesisBlock := by
  obtain ⟨s₀, env, nFile, nBlockPos, hashProof, genesis, hfresh, hgen, -, hadd⟩ := h.initialised
  obtain ⟨i, s₁, hrun, hadd⟩ := Action.bind_eq_ok.mp hadd
  obtain ⟨hindexed, -⟩ := indexBlock_eq_ok hrun
  have hkeeps : KeepsPlaces (Action.reading (fun s => .ok s.nBestChainTrust) >>= fun trust =>
      if trust < i.nChainTrust then SetBestChain ctx env genesis (ctx.GetHash genesis)
      else pure () : NodeM Unit) :=
    (KeepsPlaces.reading _).bind fun _ =>
      (keepsPlaces_setBestChain ctx env genesis _).ite (KeepsPlaces.pure _)
  exact ⟨s₀, s₁, nFile, nBlockPos, genesis, i, hindexed, hfresh.index, hkeeps.of_eq hadd, hgen⟩

theorem Initialised.rooted (h : Initialised ctx s) :
    BlockTree s ctx.hashGenesisBlock ∧ s.mapBlockIndex ctx.hashGenesisBlock ≠ none := by
  obtain ⟨s₀, s₁, nFile, nBlockPos, genesis, i, hindexed, hemp, hplace, hgen⟩ := h.indexed
  rw [← hgen]
  refine ⟨(hindexed.blockTree_genesis hemp).congr hplace, ?_⟩
  exact (hplace.ne_none_iff _).mpr (by simp [hindexed.entry_self])

theorem Initialised.blockTree (h : Initialised ctx s) :
    ∃ g, BlockTree s g ∧ s.mapBlockIndex g ≠ none := ⟨_, h.rooted⟩

theorem Initialised.parent_eq_none (h : Initialised ctx s) (p : UInt256) : s.parent p = none := by
  obtain ⟨s₀, s₁, nFile, nBlockPos, genesis, i, hindexed, hemp, hplace, -⟩ := h.indexed
  rw [hplace.parent_eq]
  exact hindexed.parent_genesis hemp p

end ZalemCoin.Chain
