import ZalemCoin.Chain.ConnectBlock

/-!
# What connecting and disconnecting a block leaves alone

Most of the state of a node is out of reach of the functions that connect and disconnect blocks.
The lemmas here say so for every run of them, successful or not, so that the invariants of the
chain are only ever threatened by what the functions are for.
-/

namespace ZalemCoin.Chain

open Lib

def NodeState.outsideSizes (s : NodeState) : NodeState :=
  { s with
    pblockindexFBBHLast := none
    blocksizes := []
    sorted := false
    blocksDir := fun _ => none }

/-- The part of the state that no static variable and no limit belongs to. -/
def NodeState.core (s : NodeState) : NodeState :=
  { s.outsideSizes with
    MAX_BLOCK_SIZE := 0
    MAX_BLOCK_SIGOPS := 0
    MAX_TX_SIGOPS := 0
    nLastUpdate := 0
    pindexLastBest := none }

/-- The part of the state that belongs neither to the block index nor to the database. -/
def NodeState.globals (s : NodeState) : NodeState :=
  { s.core with mapBlockIndex := fun _ => none, txdb := ⟨fun _ => none, none⟩ }

variable {s s' : NodeState}

theorem mapBlockIndex_of_core (h : s'.core = s.core) :
    s'.mapBlockIndex = s.mapBlockIndex := (congrArg NodeState.mapBlockIndex h :)

theorem txdb_of_core (h : s'.core = s.core) : s'.txdb = s.txdb := (congrArg NodeState.txdb h :)

theorem globals_of_core (h : s'.core = s.core) : s'.globals = s.globals := by
  unfold NodeState.globals
  rw [h]

section

variable (h : s'.globals = s.globals)
include h

theorem pindexBest_of_globals : s'.pindexBest = s.pindexBest := (congrArg NodeState.pindexBest h :)

theorem pindexGenesisBlock_of_globals : s'.pindexGenesisBlock = s.pindexGenesisBlock :=
  (congrArg NodeState.pindexGenesisBlock h :)

end

def KeepsPart {α : Type} {γ : Sort*} (part : NodeState → γ) (x : NodeM α) : Prop :=
  Action.Keeps (fun s s' => part s' = part s) x

variable {α β : Type} {x : NodeM α}

namespace KeepsPart

variable {γ : Sort*} {part : NodeState → γ}

theorem of_eq {x : NodeM α} (h : KeepsPart part x) {s s' : NodeState} {r : Except Failure α}
    (hr : x s = (r, s')) : part s' = part s := Action.Keeps.of_eq h hr

theorem pure (a : α) : KeepsPart part (Pure.pure a : NodeM α) := fun _ => rfl

theorem get : KeepsPart part (Action.get : NodeM NodeState) := fun _ => rfl

theorem fail (e : Failure) : KeepsPart part (Action.fail e : NodeM α) := fun _ => rfl

theorem reading (f : NodeState → Except Failure α) : KeepsPart part (Action.reading f) :=
  fun _ => rfl

theorem check (c : Prop) [Decidable c] (e : Failure) :
    KeepsPart part (Action.check c e : NodeM Unit) := fun _ => rfl

theorem modify {f : NodeState → NodeState} (h : ∀ s, part (f s) = part s) :
    KeepsPart part (Action.modify f : NodeM Unit) := h

theorem bind {f : α → NodeM β} (hx : KeepsPart part x) (hf : ∀ a, KeepsPart part (f a)) :
    KeepsPart part (x >>= f) :=
  Action.Keeps.bind (fun hab hbc => hbc.trans hab) hx hf

theorem handle {handler : Failure → NodeM α} (hx : KeepsPart part x)
    (hh : ∀ e, KeepsPart part (handler e)) : KeepsPart part (Action.handle x handler) :=
  Action.Keeps.handle (fun hab hbc => hbc.trans hab) hx hh

theorem ite {c : Prop} [Decidable c] {y : NodeM α} (hx : KeepsPart part x) (hy : KeepsPart part y) :
    KeepsPart part (if c then x else y) := by
  split
  · exact hx
  · exact hy

theorem forM {δ : Type} {l : List δ} {f : δ → NodeM Unit} (h : ∀ a ∈ l, KeepsPart part (f a)) :
    KeepsPart part (l.forM f) := by
  induction l with
  | nil => exact pure _
  | cons a l ih =>
    exact bind (h a List.mem_cons_self) fun _ => ih fun b hb => h b (List.mem_cons_of_mem _ hb)

end KeepsPart

@[simp]
theorem core_afterDownloadCheck (ctx : Context) (env : Env) (s : NodeState) :
    (s.afterDownloadCheck ctx env).core = s.core := by
  unfold NodeState.afterDownloadCheck
  split <;> rfl

@[simp]
theorem core_withLimits (s : NodeState) (size : ℕ) : (s.withLimits size).core = s.core := rfl

theorem keepsPart_checkBlock {γ : Sort*} {part : NodeState → γ} (ctx : Context) (env : Env)
    (hpart : ∀ s, part (s.afterDownloadCheck ctx env) = part s) (block : CBlock)
    (fCheckPOW fCheckMerkleRoot fCheckSig : Bool) :
    KeepsPart part (CheckBlock ctx env block fCheckPOW fCheckMerkleRoot fCheckSig) := by
  refine KeepsPart.bind (KeepsPart.reading _) fun _ => ?_
  refine KeepsPart.bind (KeepsPart.modify fun s => ?_) fun _ => ?_
  · split
    · exact hpart s
    · rfl
  refine KeepsPart.bind (KeepsPart.reading _) fun _ => ?_
  exact KeepsPart.bind (KeepsPart.modify hpart) fun _ => KeepsPart.reading _

theorem keepsCore_checkBlock (ctx : Context) (env : Env) (block : CBlock)
    (fCheckPOW fCheckMerkleRoot fCheckSig : Bool) :
    KeepsPart NodeState.core (CheckBlock ctx env block fCheckPOW fCheckMerkleRoot fCheckSig) :=
  keepsPart_checkBlock ctx env (core_afterDownloadCheck ctx env) block _ _ _

theorem keepsPart_getBlockSize (p : Option UInt256) : KeepsPart NodeState.outsideSizes (GetBlockSize p) := by
  cases p with
  | none => exact KeepsPart.pure _
  | some p =>
    refine KeepsPart.bind (KeepsPart.reading _) fun i => ?_
    refine KeepsPart.bind (KeepsPart.check _ _) fun _ => ?_
    refine KeepsPart.bind KeepsPart.get fun s => ?_
    exact KeepsPart.bind (KeepsPart.modify fun _ => rfl) fun _ => KeepsPart.pure _

theorem keepsPart_findBlockByHeight (nHeight : ℕ) :
    KeepsPart NodeState.outsideSizes (FindBlockByHeight nHeight) := by
  refine KeepsPart.bind (KeepsPart.reading _) fun p => ?_
  exact KeepsPart.bind (KeepsPart.modify fun _ => rfl) fun _ => KeepsPart.pure _

theorem keepsPart_collectSizes (firstBlock fuel : ℕ) (p : Option UInt256) :
    KeepsPart NodeState.outsideSizes (collectSizes firstBlock fuel p) := by
  induction fuel generalizing p with
  | zero =>
    cases p
    · exact KeepsPart.pure _
    · exact KeepsPart.fail _
  | succ fuel ih =>
    cases p with
    | none => exact KeepsPart.pure _
    | some p =>
      refine KeepsPart.bind (KeepsPart.reading _) fun i => ?_
      refine KeepsPart.ite ?_ (KeepsPart.pure _)
      refine KeepsPart.bind (keepsPart_getBlockSize _) fun size => ?_
      refine KeepsPart.bind (KeepsPart.modify fun s => ?_) fun _ => ih _
      split <;> rfl

variable (pblockindex : UInt256)

theorem keepsPart_moveWindow (firstBlock : ℕ) :
    KeepsPart NodeState.outsideSizes (moveWindow pblockindex firstBlock) := by
  refine KeepsPart.bind (keepsPart_getBlockSize _) fun latest => ?_
  refine KeepsPart.ite ?_ (KeepsPart.pure _)
  refine KeepsPart.bind (keepsPart_findBlockByHeight _) fun first => ?_
  refine KeepsPart.bind (keepsPart_getBlockSize _) fun oldest => ?_
  refine KeepsPart.ite (KeepsPart.modify fun s => ?_) (KeepsPart.pure _)
  split <;> rfl

theorem keepsPart_computeBlockSize :
    KeepsPart NodeState.outsideSizes (ComputeBlockSize pblockindex) := by
  refine KeepsPart.bind ?_ fun size => KeepsPart.ite (KeepsPart.pure _) (KeepsPart.pure _)
  refine KeepsPart.bind ?_ fun _ => ?_
  · refine KeepsPart.bind (KeepsPart.reading _) fun i => KeepsPart.ite (KeepsPart.pure _) ?_
    refine KeepsPart.bind KeepsPart.get fun s => ?_
    exact KeepsPart.ite (keepsPart_moveWindow _ _) (keepsPart_collectSizes _ _ _)
  · refine KeepsPart.bind (KeepsPart.modify fun s => ?_) fun _ => ?_
    · split <;> rfl
    · exact KeepsPart.bind KeepsPart.get fun s => KeepsPart.pure _

theorem keepsCore_computeBlockSize : KeepsPart NodeState.core (ComputeBlockSize pblockindex) := by
  intro s
  have h := keepsPart_computeBlockSize pblockindex s
  unfold NodeState.core
  rw [h]

/-- How a state may differ from an earlier one when blocks have been connected and disconnected
inside a transaction of the database. The predicate says which blocks' mint and supply may have
been written. -/
structure ConnectFrame (touched : UInt256 → Prop) (s s' : NodeState) : Prop where
  globals : s'.globals = s.globals
  index : ∀ h, ¬touched h → s'.mapBlockIndex h = s.mapBlockIndex h
  index_touched : ∀ h, (s'.mapBlockIndex h).map (fun i => { i with nMint := 0, nMoneySupply := 0 })
    = (s.mapBlockIndex h).map fun i => { i with nMint := 0, nMoneySupply := 0 }
  /-- An open transaction keeps the disk and stays open. -/
  disk : s.txdb.activeBatch.isSome → s'.txdb.disk = s.txdb.disk ∧ s'.txdb.activeBatch.isSome

variable {touched : UInt256 → Prop}

namespace ConnectFrame

variable {touched' : UInt256 → Prop} {s'' : NodeState}

theorem refl (touched : UInt256 → Prop) (s : NodeState) : ConnectFrame touched s s :=
  ⟨rfl, fun _ _ => rfl, fun _ => rfl, fun h => ⟨rfl, h⟩⟩

theorem trans (h : ConnectFrame touched s s') (h' : ConnectFrame touched s' s'') :
    ConnectFrame touched s s'' where
  globals := h'.globals.trans h.globals
  index i hi := (h'.index i hi).trans (h.index i hi)
  index_touched i := (h'.index_touched i).trans (h.index_touched i)
  disk hopen := ⟨(h'.disk (h.disk hopen).2).1.trans (h.disk hopen).1, (h'.disk (h.disk hopen).2).2⟩

theorem mono (h : ConnectFrame touched s s') (hsub : ∀ i, touched i → touched' i) :
    ConnectFrame touched' s s' where
  globals := h.globals
  index i hi := h.index i fun ht => hi (hsub i ht)
  index_touched := h.index_touched
  disk := h.disk

theorem of_core (h : s'.core = s.core) : ConnectFrame touched s s' where
  globals := globals_of_core h
  index i _ := by rw [mapBlockIndex_of_core h]
  index_touched i := by rw [mapBlockIndex_of_core h]
  disk hopen := by rw [txdb_of_core h]; exact ⟨rfl, hopen⟩

theorem of_txdb (s : NodeState) (txdb : CTxDB)
    (hdisk : s.txdb.activeBatch.isSome → txdb.disk = s.txdb.disk ∧ txdb.activeBatch.isSome) :
    ConnectFrame touched s { s with txdb := txdb } where
  globals := rfl
  index _ _ := rfl
  index_touched _ := rfl
  disk := hdisk

end ConnectFrame

/-- An action that stays within the frame. -/
def KeepsFrame {α : Type} (touched : UInt256 → Prop) (x : NodeM α) : Prop :=
  Action.Keeps (ConnectFrame touched) x

namespace KeepsFrame

theorem of_eq {x : NodeM α} (h : KeepsFrame touched x) {s s' : NodeState} {r : Except Failure α}
    (hr : x s = (r, s')) : ConnectFrame touched s s' := Action.Keeps.of_eq h hr

theorem of_core (h : KeepsPart NodeState.core x) : KeepsFrame touched x :=
  fun s => ConnectFrame.of_core (h s)

theorem bind {f : α → NodeM β} (hx : KeepsFrame touched x) (hf : ∀ a, KeepsFrame touched (f a)) :
    KeepsFrame touched (x >>= f) :=
  Action.Keeps.bind (fun hab hbc => hab.trans hbc) hx hf

theorem handle {handler : Failure → NodeM α} (hx : KeepsFrame touched x)
    (hh : ∀ e, KeepsFrame touched (handler e)) : KeepsFrame touched (Action.handle x handler) :=
  Action.Keeps.handle (fun hab hbc => hab.trans hbc) hx hh

theorem pure (a : α) : KeepsFrame touched (Pure.pure a : NodeM α) := of_core (KeepsPart.pure a)

theorem reading (f : NodeState → Except Failure α) : KeepsFrame touched (Action.reading f) :=
  of_core (KeepsPart.reading f)

theorem ite {c : Prop} [Decidable c] {y : NodeM α} (hx : KeepsFrame touched x)
    (hy : KeepsFrame touched y) : KeepsFrame touched (if c then x else y) := by
  split
  · exact hx
  · exact hy

theorem perform (op : NodeState → BatchOp DbKey.Val) :
    KeepsFrame touched
      (Action.modify fun s => { s with txdb := s.txdb.perform (op s) } : NodeM Unit) :=
  fun s => ConnectFrame.of_txdb s _ fun h => Store.perform_of_open h _

theorem forM {l : List α} {f : α → NodeM Unit} (h : ∀ a ∈ l, KeepsFrame touched (f a)) :
    KeepsFrame touched (l.forM f) := by
  induction l with
  | nil => exact pure _
  | cons a l ih =>
    exact bind (h a (List.mem_cons_self ..)) fun _ => ih fun b hb => h b (List.mem_cons_of_mem _ hb)

end KeepsFrame

variable {txdb : CTxDB}

theorem writeQueue_of_open (h : txdb.activeBatch.isSome) (queue : TestPool) :
    (writeQueue txdb queue).disk = txdb.disk ∧ (writeQueue txdb queue).activeBatch.isSome := by
  unfold writeQueue
  induction queue.entries generalizing txdb with
  | nil => exact ⟨rfl, h⟩
  | cons entry entries ih =>
    have hw : (txdb.UpdateTxIndex entry.1 entry.2).disk = txdb.disk ∧
        (txdb.UpdateTxIndex entry.1 entry.2).activeBatch.isSome := Store.perform_of_open h _
    rw [List.foldl_cons]
    exact ⟨(ih hw.2).1.trans hw.1, (ih hw.2).2⟩

theorem writeAddrIds_of_open (ctx : Context) (h : txdb.activeBatch.isSome) (hashTx : UInt256)
    (vout : List CTxOut) :
    (writeAddrIds ctx txdb hashTx vout).disk = txdb.disk ∧
      (writeAddrIds ctx txdb hashTx vout).activeBatch.isSome := by
  unfold writeAddrIds
  induction vout.flatMap fun txout => BuildAddrIndex ctx txout.scriptPubKey generalizing txdb with
  | nil => exact ⟨rfl, h⟩
  | cons addrid addrids ih =>
    have hw : (txdb.WriteAddrIndex addrid hashTx).disk = txdb.disk ∧
        (txdb.WriteAddrIndex addrid hashTx).activeBatch.isSome := by
      unfold CTxDB.WriteAddrIndex
      dsimp only
      split
      · exact ⟨rfl, h⟩
      · exact Store.perform_of_open h _
    rw [List.foldl_cons]
    exact ⟨(ih hw.2).1.trans hw.1, (ih hw.2).2⟩

theorem index_eq_ok {p : UInt256} {i : CBlockIndex} :
    s.index (some p) = .ok i ↔ s.mapBlockIndex p = some i := by
  unfold NodeState.index
  rw [Option.bind_some]
  rcases s.mapBlockIndex p with _ | j <;> simp

section

variable (ctx : Context)

theorem KeepsPart.indexBlockAddresses {γ : Sort*} {part : NodeState → γ} {ctx : Context}
    (block : CBlock) (h : ∀ (s : NodeState) (hashTx : UInt256) (vout : List CTxOut),
      part { s with txdb := writeAddrIds ctx s.txdb hashTx vout } = part s) :
    KeepsPart part (indexBlockAddresses ctx block) := by
  refine KeepsPart.ite (KeepsPart.forM fun tx _ => ?_) (KeepsPart.pure _)
  exact KeepsPart.bind (KeepsPart.reading _) fun mapInputs => KeepsPart.modify fun s =>
    (h { s with txdb := writeAddrIds ctx s.txdb _ _ } _ _).trans (h s _ _)

theorem KeepsPart.writeBlock {γ : Sort*} {part : NodeState → γ} {ctx : Context} (block : CBlock)
    (pindex : UInt256) (pprev : Option UInt256) (queue : TestPool)
    (h : ∀ (s : NodeState) (txdb : CTxDB), part { s with txdb := txdb } = part s) :
    KeepsPart part (writeBlock ctx block pindex pprev queue) := by
  refine KeepsPart.bind (KeepsPart.modify fun s => h s _) fun _ =>
    KeepsPart.bind (KeepsPart.indexBlockAddresses block fun s _ _ => h s _) fun _ => ?_
  cases pprev with
  | none => exact KeepsPart.pure _
  | some p => exact KeepsPart.bind (KeepsPart.reading _) fun _ => KeepsPart.modify fun s => h s _

theorem keepsFrame_indexBlockAddresses (block : CBlock) :
    KeepsFrame touched (indexBlockAddresses ctx block) := by
  refine KeepsFrame.ite (KeepsFrame.forM fun tx _ => ?_) (KeepsFrame.pure _)
  refine KeepsFrame.bind (KeepsFrame.reading _) fun mapInputs => fun s => ?_
  refine ConnectFrame.of_txdb s _ fun h => ?_
  have h₁ := writeAddrIds_of_open ctx h (ctx.hashTx tx)
    (mapInputs.entries.flatMap fun entry => entry.2.2.vout)
  have h₂ := writeAddrIds_of_open ctx h₁.2 (ctx.hashTx tx) tx.vout
  exact ⟨h₂.1.trans h₁.1, h₂.2⟩

theorem keepsFrame_writePrevLink (pprev : Option UInt256) (hashNext : UInt256) :
    KeepsFrame touched (writePrevLink ctx pprev hashNext) := by
  cases pprev with
  | none => exact KeepsFrame.pure _
  | some p => exact KeepsFrame.bind (KeepsFrame.reading _) fun prev => KeepsFrame.perform _

theorem keepsFrame_writeBlock (block : CBlock) (pindex : UInt256) (pprev : Option UInt256)
    (queue : TestPool) : KeepsFrame touched (writeBlock ctx block pindex pprev queue) := by
  refine KeepsFrame.bind (fun s => ?_) fun _ => ?_
  · exact ConnectFrame.of_txdb s _ fun h => writeQueue_of_open h queue
  · exact KeepsFrame.bind (keepsFrame_indexBlockAddresses ctx block)
      fun _ => keepsFrame_writePrevLink ctx pprev pindex

variable {block : CBlock} {pindex : UInt256} {fJustCheck : Bool} {r : CBlockIndex × ConnectAcc}

theorem evaluateBlock_eq_ok {env : Env}
    (h : evaluateBlock ctx env block pindex fJustCheck s = .ok r) :
    ∃ i prevSupply, s.mapBlockIndex pindex = some i ∧
      connectTransactions ctx env s block i fJustCheck = .ok r.2 ∧
      checkReward ctx s block i r.2 = .ok () ∧ prevMoneySupply s i = .ok prevSupply ∧
      r.1 = withSupply i prevSupply r.2 := by
  obtain ⟨i, hi, h⟩ := bind_ok h
  obtain ⟨acc, hacc, h⟩ := bind_ok h
  obtain ⟨⟨⟩, hrew, h⟩ := bind_ok h
  obtain ⟨prevSupply, hprev, h⟩ := bind_ok h
  cases h
  exact ⟨i, prevSupply, index_eq_ok.mp hi, hacc, hrew, hprev, rfl⟩

theorem frame_record (env : Env) (h : evaluateBlock ctx env block pindex fJustCheck s = .ok r) :
    ConnectFrame (· = pindex) s
      { s.setIndex pindex r.1 with
        txdb := s.txdb.WriteBlockIndex ctx (CDiskBlockIndex.of r.1) } := by
  obtain ⟨i, prevSupply, hi, -, -, -, hr⟩ := evaluateBlock_eq_ok ctx h
  refine ⟨rfl, fun h hne => Function.update_of_ne hne _ _, fun h => ?_, fun hopen => ?_⟩
  · by_cases heq : h = pindex
    · subst heq
      simp [NodeState.setIndex, hi, hr, withSupply]
    · simp [NodeState.setIndex, Function.update_of_ne heq]
  · exact Store.perform_of_open hopen _

theorem keepsFrame_connectBlock (env : Env) (block : CBlock) (pindex : UInt256)
    (fJustCheck : Bool) :
    KeepsFrame (· = pindex) (ConnectBlock ctx env block pindex fJustCheck) := by
  refine KeepsFrame.bind (KeepsFrame.of_core (keepsCore_checkBlock _ _ _ _ _ _)) fun _ => ?_
  refine KeepsFrame.bind (KeepsFrame.of_core (keepsCore_computeBlockSize _)) fun size => ?_
  refine KeepsFrame.bind (KeepsFrame.of_core (KeepsPart.modify fun s => core_withLimits s size))
    fun _ => fun s => ?_
  rw [Action.bind_apply, Action.reading_apply]
  rcases h : evaluateBlock ctx env block pindex fJustCheck s with e | r
  · exact ConnectFrame.refl _ s
  · refine (frame_record ctx env h).trans ?_
    refine KeepsFrame.ite (KeepsFrame.pure _) ?_ _
    exact KeepsFrame.bind (keepsFrame_writeBlock ctx _ _ _ _) fun _ => KeepsFrame.pure _

theorem keepsFrame_disconnectBlock (block : CBlock) (pindex : UInt256) :
    KeepsFrame touched (DisconnectBlock ctx block pindex) := by
  refine KeepsFrame.bind (KeepsFrame.forM fun tx _ => ?_) fun _ => ?_
  · refine KeepsFrame.bind ?_ fun _ => KeepsFrame.perform _
    refine KeepsFrame.ite (KeepsFrame.pure _) (KeepsFrame.forM fun txin _ => ?_)
    exact KeepsFrame.bind (KeepsFrame.reading _) fun txindex => KeepsFrame.perform _
  · exact KeepsFrame.bind (KeepsFrame.reading _) fun i => keepsFrame_writePrevLink ctx _ _

end

/-- The parts of connecting a block that succeeds. Before the entry is recorded, only static variables
change. -/
theorem connectBlock_parts {ctx : Context} {env : Env} {block : CBlock} {p : UInt256}
    {log : List SigCheck} (h : ConnectBlock ctx env block p false s = (.ok log, s')) :
    ∃ t₁ size t₂ s₁ r, CheckBlock ctx env block true true false s = (.ok (), t₁) ∧
      ComputeBlockSize p t₁ = (.ok size, t₂) ∧ t₂.withLimits size = s₁ ∧ s₁.core = s.core ∧
      evaluateBlock ctx env block p false s₁ = .ok r ∧
      writeBlock ctx block p r.1.pprev r.2.mapQueuedChanges { s₁.setIndex p r.1 with
        txdb := s₁.txdb.WriteBlockIndex ctx (CDiskBlockIndex.of r.1) } = (.ok (), s') ∧
      log = r.2.sigLog := by
  obtain ⟨⟨⟩, t₁, hchk, h⟩ := Action.bind_eq_ok.mp h
  obtain ⟨size, t₂, hsize, h⟩ := Action.bind_eq_ok.mp h
  obtain ⟨⟨⟩, s₁, hlims, h⟩ := Action.bind_eq_ok.mp h
  obtain ⟨r, t₃, hread, h⟩ := Action.bind_eq_ok.mp h
  obtain ⟨⟨⟩, t₄, hrec, h⟩ := Action.bind_eq_ok.mp h
  obtain ⟨⟨⟩, t₅, hwrite, h⟩ := Action.bind_eq_ok.mp h
  obtain ⟨-, hs₁⟩ := Prod.mk.inj hlims
  obtain ⟨heval, ht₃⟩ := Prod.mk.inj hread
  obtain ⟨-, ht₄⟩ := Prod.mk.inj hrec
  obtain ⟨hlog, hs'⟩ := Prod.mk.inj h
  subst ht₃ ht₄ hs'
  refine ⟨t₁, size, t₂, s₁, r, hchk, hsize, hs₁, ?_, heval, hwrite, (Except.ok.inj hlog).symm⟩
  rw [← hs₁]
  have h₁ : t₁.core = s.core := (keepsCore_checkBlock ctx env block _ _ _).of_eq hchk
  have h₂ : t₂.core = t₁.core := (keepsCore_computeBlockSize p).of_eq hsize
  exact (core_withLimits t₂ size).trans (h₂.trans h₁)

end ZalemCoin.Chain
