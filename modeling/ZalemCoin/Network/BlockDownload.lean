import ZalemCoin.Chain.Primitives
import ZalemCoin.Lib.StableList

/-!
# Which blocks are asked for

For every peer the node keeps a list of the blocks that it is to be asked for, a list of those that it
has been asked for, and the lengths of both. Two maps lead from the hash of a block to the peer and the
place in its list. A block is in one list of one peer at most, and the lists, the lengths and the maps
agree after every run of calls (`downloads_of_calls`), so no call meets a stale place.
-/

namespace ZalemCoin.Network

open Lib Chain
open Function (update_of_ne update_self)
open Lib.Action (reading_apply get_bind bind_of_ok)

abbrev NodeId := ℤ

def MAX_BLOCKS_IN_TRANSIT_PER_PEER : ℤ := 128

/-- How long a peer may be late with a block, in seconds. -/
def BLOCK_DOWNLOAD_TIMEOUT : ℤ := 60

/-- A block that a peer has been asked for. -/
structure QueuedBlock where
  hash : UInt256
  /-- The time of the request, in microseconds. -/
  nTime : ℤ
  /-- The number of blocks in flight at the time of the request. -/
  nQueuedBefore : ℤ

/-- What the node keeps about a peer. -/
structure CNodeState where
  nMisbehavior : ℤ
  fShouldBan : Bool
  name : String
  vBlocksInFlight : StableList QueuedBlock
  nBlocksInFlight : ℤ
  vBlocksToDownload : StableList UInt256
  nBlocksToDownload : ℤ
  nLastBlockReceive : ℤ
  nLastBlockProcess : ℤ

/-- A peer that has just connected. -/
def CNodeState.new : CNodeState where
  nMisbehavior := 0
  fShouldBan := false
  name := ""
  vBlocksInFlight := .empty
  nBlocksInFlight := 0
  vBlocksToDownload := .empty
  nBlocksToDownload := 0
  nLastBlockReceive := 0
  nLastBlockProcess := 0

/-- The peers, and where the blocks are in their lists. -/
structure DownloadState where
  mapNodeState : NodeId → Option CNodeState
  mapBlocksInFlight : UInt256 → Option (NodeId × ℕ)
  mapBlocksToDownload : UInt256 → Option (NodeId × ℕ)

/-- No peers. -/
def DownloadState.start : DownloadState := ⟨fun _ => none, fun _ => none, fun _ => none⟩

/-- Replaces what is kept about a peer. -/
def DownloadState.setNode (s : DownloadState) (nodeid : NodeId) (state : CNodeState) :
    DownloadState :=
  { s with mapNodeState := Function.update s.mapNodeState nodeid (some state) }

/-- A call that changes the peers. -/
abbrev DownloadM := Action DownloadState Failure

/-- What is kept about a peer; there is nothing for one that is not connected, and the callers follow
the null pointer. -/
def State (nodeid : NodeId) : DownloadM CNodeState :=
  Action.reading fun s =>
    match s.mapNodeState nodeid with
    | some state => .ok state
    | none => .error (.crash "null pointer")

def frontOf {α : Type} (l : StableList α) : Except Failure α :=
  match l.front with
  | some a => .ok a
  | none => .error (.crash "front of an empty list")

/-- Raises the score of a peer. -/
def CNodeState.misbehaving (banscore howmuch : ℤ) (state : CNodeState) : CNodeState :=
  { state with
    nMisbehavior := state.nMisbehavior + howmuch
    fShouldBan := state.fShouldBan || decide (banscore ≤ state.nMisbehavior + howmuch) }

/-- Raises the score of a peer, if it is connected. -/
def Misbehaving (banscore : ℤ) (pnode : NodeId) (howmuch : ℤ) : DownloadM Unit :=
  Action.modify fun s =>
    if howmuch = 0 then s
    else
      match s.mapNodeState pnode with
      | none => s
      | some state => s.setNode pnode (state.misbehaving banscore howmuch)

/-- A peer connects. -/
def InitializeNode (nodeid : NodeId) (addrName : String) : DownloadM Unit :=
  Action.modify fun s =>
    s.setNode nodeid { (s.mapNodeState nodeid).getD CNodeState.new with name := addrName }

/-- A peer disconnects. -/
def FinalizeNode (nodeid : NodeId) : DownloadM Unit := do
  let state ← State nodeid
  Action.modify fun s =>
    { mapNodeState := Function.update s.mapNodeState nodeid none
      mapBlocksInFlight :=
        eraseKeys (state.vBlocksInFlight.values.map QueuedBlock.hash) s.mapBlocksInFlight
      mapBlocksToDownload := eraseKeys (state.vBlocksToDownload.values.map id) s.mapBlocksToDownload }

/-- Takes a block off a peer's queue. -/
def CNodeState.dequeue (it : ℕ) (state : CNodeState) : CNodeState :=
  { state with
    vBlocksToDownload := state.vBlocksToDownload.erase it
    nBlocksToDownload := state.nBlocksToDownload - 1 }

/-- Puts a block into a peer's queue. Too long a queue counts against the peer. -/
def CNodeState.enqueue (banscore : ℤ) (hash : UInt256) (state : CNodeState) : CNodeState :=
  let queued :=
    { state with
      vBlocksToDownload := state.vBlocksToDownload.pushBack hash
      nBlocksToDownload := state.nBlocksToDownload + 1 }
  if queued.nBlocksToDownload > 5000 then queued.misbehaving banscore 10 else queued

/-- Takes a block off those that a peer has been asked for. -/
def CNodeState.receive (it : ℕ) (fFrom : Bool) (now : ℤ) (state : CNodeState) : CNodeState :=
  { state with
    vBlocksInFlight := state.vBlocksInFlight.erase it
    nBlocksInFlight := state.nBlocksInFlight - 1
    nLastBlockReceive := if fFrom then now else state.nLastBlockReceive }

/-- Puts a block among those that a peer has been asked for. -/
def CNodeState.request (hash : UInt256) (now : ℤ) (state : CNodeState) : CNodeState :=
  { state with
    vBlocksInFlight := state.vBlocksInFlight.pushBack ⟨hash, now, state.nBlocksInFlight⟩
    nBlocksInFlight := state.nBlocksInFlight + 1
    nLastBlockReceive := if state.nBlocksInFlight = 0 then now else state.nLastBlockReceive }

/-- A block is no longer to be asked for. -/
def eraseToDownload (hash : UInt256) : DownloadM Unit := do
  let s ← Action.get
  match s.mapBlocksToDownload hash with
  | none => pure ()
  | some (owner, it) => do
    let state ← State owner
    Action.check ((state.vBlocksToDownload.get it).isSome = true) (.crash "dangling iterator")
    Action.modify fun s =>
      { s.setNode owner (state.dequeue it) with
        mapBlocksToDownload := Function.update s.mapBlocksToDownload hash none }

def eraseInFlight (hash : UInt256) (nodeFrom : NodeId) (now : ℤ) : DownloadM Unit := do
  let s ← Action.get
  match s.mapBlocksInFlight hash with
  | none => pure ()
  | some (owner, it) => do
    let state ← State owner
    Action.check ((state.vBlocksInFlight.get it).isSome = true) (.crash "dangling iterator")
    Action.modify fun s =>
      { s.setNode owner (state.receive it (decide (owner = nodeFrom)) now) with
        mapBlocksInFlight := Function.update s.mapBlocksInFlight hash none }

def MarkBlockAsReceived (hash : UInt256) (nodeFrom : NodeId) (now : ℤ) : DownloadM Unit := do
  eraseToDownload hash
  eraseInFlight hash nodeFrom now

/-- A peer is to be asked for a block, unless one is already. -/
def AddBlockToQueue (banscore : ℤ) (nodeid : NodeId) (hash : UInt256) : DownloadM Bool := do
  let s ← Action.get
  if (s.mapBlocksToDownload hash).isSome ∨ (s.mapBlocksInFlight hash).isSome then pure false
  else
    match s.mapNodeState nodeid with
    | none => pure false
    | some state => do
      Action.modify fun s =>
        { s.setNode nodeid (state.enqueue banscore hash) with
          mapBlocksToDownload := Function.update s.mapBlocksToDownload hash
            (some (nodeid, state.vBlocksToDownload.next)) }
      pure true

def MarkBlockAsInFlight (nodeid : NodeId) (hash : UInt256) (now : ℤ) : DownloadM Unit := do
  let _ ← State nodeid
  -- Make sure it's not listed somewhere already.
  MarkBlockAsReceived hash (-1) now
  let state ← State nodeid
  Action.modify fun s =>
    { s.setNode nodeid (state.request hash now) with
      mapBlocksInFlight := Function.update s.mapBlocksInFlight hash
        (some (nodeid, state.vBlocksInFlight.next)) }

/-- A connection. -/
structure CNode where
  id : NodeId
  /-- `addr.IsLocal()`. -/
  fLocal : Bool
  fDisconnect : Bool

/-- Whether a peer is stalling the download: it has sent no block for a minute, and all that it has been
asked for are late by two, since the node was last ready to process one. -/
def isStalling (state : CNodeState) : Except Failure Bool :=
  if state.nBlocksInFlight ≠ 0 ∧ state.nLastBlockReceive <
      state.nLastBlockProcess - BLOCK_DOWNLOAD_TIMEOUT * 1000000 then do
    let entry ← frontOf state.vBlocksInFlight
    pure (decide (entry.nTime < state.nLastBlockProcess - 2 * BLOCK_DOWNLOAD_TIMEOUT * 1000000))
  else .ok false

/-- Asks a peer for the blocks of its queue, as long as not too many are in flight. Every step takes
one off the queue. -/
def requestBlocks (pto : NodeId) (now : ℕ → ℤ) : ℕ → List UInt256 → DownloadM (List UInt256)
  | 0, _ => Action.fail (.crash "the loop does not end")
  | fuel + 1, vGetData => do
    let state ← State pto
    if state.nBlocksToDownload ≠ 0 ∧ state.nBlocksInFlight < MAX_BLOCKS_IN_TRANSIT_PER_PEER then do
      let hash ← Action.reading fun _ => frontOf state.vBlocksToDownload
      MarkBlockAsInFlight pto hash (now fuel)
      requestBlocks pto now fuel (vGetData ++ [hash])
    else pure vGetData

/-- The part of `SendMessages` that looks after the download of blocks: whether the peer is to be
disconnected, and the blocks that it is asked for. They are too few for the limit of a message
(`length_requestBlocks`). -/
def SendMessages (pto : CNode) (now : ℕ → ℤ) : DownloadM (Bool × List UInt256) := do
  let state ← State pto.id
  Action.modify fun s => s.setNode pto.id { state with fShouldBan := false }
  if pto.fDisconnect ∨ (state.fShouldBan = true ∧ pto.fLocal = false) then pure (true, [])
  else do
    let stalling ← Action.reading fun _ => isStalling state
    if stalling then pure (true, [])
    else do
      let vGetData ← requestBlocks pto.id now (state.nBlocksToDownload.toNat + 1) []
      pure (false, vGetData)

def noteBlockProcess (nodeid : NodeId) (now : ℤ) : DownloadM Unit := do
  let state ← State nodeid
  Action.modify fun s => s.setNode nodeid { state with nLastBlockProcess := now }

/-! ## The lists, the lengths and the maps -/

def DownloadState.lists {α : Type} (s : DownloadState) (f : CNodeState → StableList α) :
    NodeId → Option (StableList α) :=
  fun nodeid => (s.mapNodeState nodeid).map f

/-- The lengths that are kept about a peer are those of its lists. -/
structure CNodeState.Counted (state : CNodeState) : Prop where
  toDownload : state.nBlocksToDownload = state.vBlocksToDownload.length
  inFlight : state.nBlocksInFlight = state.vBlocksInFlight.length

/-- The lists, the lengths and the maps agree. -/
structure Consistent (s : DownloadState) : Prop where
  toDownload : Indexes id (s.lists CNodeState.vBlocksToDownload) s.mapBlocksToDownload
  inFlight : Indexes QueuedBlock.hash (s.lists CNodeState.vBlocksInFlight) s.mapBlocksInFlight
  disjoint : ∀ hash, s.mapBlocksToDownload hash = none ∨ s.mapBlocksInFlight hash = none
  counted : ∀ nodeid state, s.mapNodeState nodeid = some state → state.Counted

variable {s s' : DownloadState} {nodeid : NodeId} {state state' : CNodeState} {hash : UInt256}
  {α : Type}

theorem lists_of_node (f : CNodeState → StableList α) (h : s.mapNodeState nodeid = some state) :
    s.lists f nodeid = some (f state) := by
  unfold DownloadState.lists
  rw [h, Option.map_some]

theorem lists_setNode (f : CNodeState → StableList α) (s : DownloadState) (nodeid : NodeId)
    (state : CNodeState) :
    (s.setNode nodeid state).lists f = Function.update (s.lists f) nodeid (some (f state)) := by
  funext nodeid'
  unfold DownloadState.lists DownloadState.setNode
  dsimp only
  by_cases hid : nodeid' = nodeid
  · rw [hid, update_self, update_self, Option.map_some]
  · rw [update_of_ne hid, update_of_ne hid]

theorem lists_setNode_of_eq {f : CNodeState → StableList α} (h : s.mapNodeState nodeid = some state)
    (hf : f state' = f state) :
    (s.setNode nodeid state').lists f = s.lists f := by
  rw [lists_setNode, hf, ← lists_of_node f h, Function.update_eq_self]

theorem counted_setNode (h : Consistent s) (hcounted : state.Counted) (nodeid' : NodeId)
    (state' : CNodeState) (hst' : (s.setNode nodeid state).mapNodeState nodeid' = some state') :
    state'.Counted := by
  unfold DownloadState.setNode at hst'
  dsimp only at hst'
  by_cases hid : nodeid' = nodeid
  · rw [hid, update_self] at hst'
    rw [← Option.some.inj hst']
    exact hcounted
  · rw [update_of_ne hid] at hst'
    exact h.counted nodeid' state' hst'

theorem Consistent.setNode (h : Consistent s) (hst : s.mapNodeState nodeid = some state)
    (htoDownload : state'.vBlocksToDownload = state.vBlocksToDownload)
    (hinFlight : state'.vBlocksInFlight = state.vBlocksInFlight) (hcounted : state'.Counted) :
    Consistent (s.setNode nodeid state') where
  toDownload := by
    rw [lists_setNode_of_eq hst htoDownload]
    exact h.toDownload
  inFlight := by
    rw [lists_setNode_of_eq hst hinFlight]
    exact h.inFlight
  disjoint := h.disjoint
  counted := counted_setNode h hcounted

theorem consistent_start : Consistent DownloadState.start where
  toDownload := Indexes.noLists
  inFlight := Indexes.noLists
  disjoint _ := .inl rfl
  counted _ _ h := nomatch h

theorem state_of_node (h : s.mapNodeState nodeid = some state) :
    State nodeid s = (.ok state, s) := by
  unfold State
  rw [reading_apply, h]

/-! ## The calls -/

variable (h : Consistent s)
include h

theorem not_mem_queue (hst : s.mapNodeState nodeid = some state)
    (hent : ∀ it, s.mapBlocksToDownload hash ≠ some (nodeid, it)) :
    hash ∉ state.vBlocksToDownload.values := by
  intro hmem
  obtain ⟨it, hget⟩ := StableList.mem_values.mp hmem
  exact hent it (h.toDownload.entry (lists_of_node _ hst) hget)

/-- A hash leaves the map and the list of the blocks to ask for together. -/
theorem eraseToDownload_spec (hash : UInt256) :
    ∃ s', eraseToDownload hash s = (.ok (), s') ∧ Consistent s' ∧
      s'.mapBlocksToDownload hash = none ∧ s'.mapBlocksInFlight = s.mapBlocksInFlight ∧
      ∀ nodeid state, s.mapNodeState nodeid = some state →
        ∃ state', s'.mapNodeState nodeid = some state' ∧
          state'.vBlocksInFlight = state.vBlocksInFlight ∧
          state'.vBlocksToDownload.length + (if hash ∈ state.vBlocksToDownload.values then 1 else 0)
            = state.vBlocksToDownload.length := by
  unfold eraseToDownload
  rw [get_bind]
  rcases hent : s.mapBlocksToDownload hash with _ | ⟨owner, it⟩
  · refine ⟨s, rfl, h, hent, rfl, fun nodeid state hst => ⟨state, hst, rfl, ?_⟩⟩
    rw [if_neg (not_mem_queue h hst fun it heq => ?_), Nat.add_zero]
    rw [hent] at heq
    exact nomatch heq
  · obtain ⟨l, a, hlist, hget, hkey⟩ := h.toDownload.element hent
    obtain rfl : a = hash := hkey
    obtain ⟨state, hst, rfl⟩ := Option.map_eq_some_iff.mp hlist
    have hlen := StableList.length_erase hget
    have hcnt := h.counted owner state hst
    dsimp only
    rw [bind_of_ok (state_of_node hst), Action.check_bind_of (by rw [hget]; rfl)]
    refine ⟨_, rfl, ⟨?_, ?_, ?_, counted_setNode h ⟨?_, hcnt.inFlight⟩⟩, update_self .., rfl, ?_⟩
    · change Indexes id ((s.setNode owner _).lists _) _
      rw [lists_setNode]
      exact h.toDownload.erase hlist hent
    · change Indexes _ ((s.setNode owner _).lists _) _
      rw [lists_setNode_of_eq hst
        (show (state.dequeue it).vBlocksInFlight = state.vBlocksInFlight from rfl)]
      exact h.inFlight
    · intro hash'
      dsimp only [DownloadState.setNode]
      by_cases hhash : hash' = a
      · exact .inl (by rw [hhash, update_self])
      · rw [update_of_ne hhash]
        exact h.disjoint hash'
    · dsimp only [CNodeState.dequeue]
      rw [hcnt.toDownload, ← hlen]
      omega
    · intro nodeid state₁ hst₁
      dsimp only [DownloadState.setNode]
      by_cases hid : nodeid = owner
      · rw [hid, hst] at hst₁
        cases hst₁
        rw [hid, update_self]
        refine ⟨_, rfl, rfl, ?_⟩
        rw [if_pos (StableList.mem_values.mpr ⟨it, hget⟩)]
        exact hlen
      · rw [update_of_ne hid]
        refine ⟨state₁, hst₁, rfl, ?_⟩
        rw [if_neg (not_mem_queue h hst₁ fun it' heq => ?_), Nat.add_zero]
        rw [hent] at heq
        exact hid (Prod.mk.inj (Option.some.inj heq)).1.symm

/-- A hash leaves the map and the list of the blocks in flight together. -/
theorem eraseInFlight_spec (hash : UInt256) (nodeFrom : NodeId) (now : ℤ) :
    ∃ s', eraseInFlight hash nodeFrom now s = (.ok (), s') ∧ Consistent s' ∧
      s'.mapBlocksInFlight hash = none ∧ s'.mapBlocksToDownload = s.mapBlocksToDownload ∧
      (s.mapBlocksInFlight hash = none → s' = s) ∧
      ∀ nodeid state, s.mapNodeState nodeid = some state →
        ∃ state', s'.mapNodeState nodeid = some state' ∧
          state'.vBlocksToDownload = state.vBlocksToDownload := by
  unfold eraseInFlight
  rw [get_bind]
  rcases hent : s.mapBlocksInFlight hash with _ | ⟨owner, it⟩
  · exact ⟨s, rfl, h, hent, rfl, fun _ => rfl, fun nodeid state hst => ⟨state, hst, rfl⟩⟩
  · obtain ⟨l, entry, hlist, hget, rfl⟩ := h.inFlight.element hent
    obtain ⟨state, hst, rfl⟩ := Option.map_eq_some_iff.mp hlist
    have hlen := StableList.length_erase hget
    have hcnt := h.counted owner state hst
    dsimp only
    rw [bind_of_ok (state_of_node hst), Action.check_bind_of (by rw [hget]; rfl)]
    refine ⟨_, rfl, ⟨?_, ?_, ?_, counted_setNode h ⟨hcnt.toDownload, ?_⟩⟩,
      update_self .., rfl, (fun hnone => nomatch hnone), ?_⟩
    · change Indexes id ((s.setNode owner _).lists _) _
      rw [lists_setNode_of_eq hst (show (state.receive it _ now).vBlocksToDownload
        = state.vBlocksToDownload from rfl)]
      exact h.toDownload
    · change Indexes _ ((s.setNode owner _).lists _) _
      rw [lists_setNode]
      exact h.inFlight.erase hlist hent
    · intro hash'
      dsimp only [DownloadState.setNode]
      by_cases hhash : hash' = entry.hash
      · exact .inr (by rw [hhash, update_self])
      · rw [update_of_ne hhash]
        exact h.disjoint hash'
    · dsimp only [CNodeState.receive]
      rw [hcnt.inFlight, ← hlen]
      omega
    · intro nodeid state₁ hst₁
      dsimp only [DownloadState.setNode]
      by_cases hid : nodeid = owner
      · rw [hid, hst] at hst₁
        cases hst₁
        rw [hid, update_self]
        exact ⟨_, rfl, rfl⟩
      · rw [update_of_ne hid]
        exact ⟨state₁, hst₁, rfl⟩

theorem markBlockAsReceived_spec (hash : UInt256) (nodeFrom : NodeId) (now : ℤ) :
    ∃ s', MarkBlockAsReceived hash nodeFrom now s = (.ok (), s') ∧ Consistent s' ∧
      s'.mapBlocksToDownload hash = none ∧ s'.mapBlocksInFlight hash = none ∧
      ∀ nodeid state, s.mapNodeState nodeid = some state →
        ∃ state', s'.mapNodeState nodeid = some state' ∧
          state'.vBlocksToDownload.length + (if hash ∈ state.vBlocksToDownload.values then 1 else 0)
            = state.vBlocksToDownload.length ∧
          (s.mapBlocksInFlight hash = none → state'.vBlocksInFlight = state.vBlocksInFlight) := by
  obtain ⟨s₁, hrun₁, h₁, htoDownload, hsame, hnodes₁⟩ := eraseToDownload_spec h hash
  obtain ⟨s₂, hrun₂, h₂, hinFlight, hkept, hidle, hnodes₂⟩ := eraseInFlight_spec h₁ hash nodeFrom now
  refine ⟨s₂, ?_, h₂, by rw [hkept, htoDownload], hinFlight, ?_⟩
  · unfold MarkBlockAsReceived
    rw [bind_of_ok hrun₁, hrun₂]
  · intro nodeid state hst
    obtain ⟨state₁, hst₁, hlist, hqueue⟩ := hnodes₁ nodeid state hst
    obtain ⟨state₂, hst₂, hqueue₂⟩ := hnodes₂ nodeid state₁ hst₁
    refine ⟨state₂, hst₂, by rw [hqueue₂, hqueue], fun hnone => ?_⟩
    have hsame₂ : s₂ = s₁ := hidle (by rw [hsame, hnone])
    rw [hsame₂, hst₁] at hst₂
    rw [← Option.some.inj hst₂, hlist]

theorem addBlockToQueue_spec (banscore : ℤ) (nodeid : NodeId) (hash : UInt256) :
    ∃ queued s', AddBlockToQueue banscore nodeid hash s = (.ok queued, s') ∧ Consistent s' := by
  unfold AddBlockToQueue
  rw [get_bind]
  split
  · exact ⟨false, s, rfl, h⟩
  · rename_i hnew
    rw [not_or, Option.not_isSome_iff_eq_none, Option.not_isSome_iff_eq_none] at hnew
    rcases hst : s.mapNodeState nodeid with _ | state
    · exact ⟨false, s, rfl, h⟩
    · have hcnt := h.counted nodeid state hst
      have hqueue : (state.enqueue banscore hash).vBlocksToDownload
          = state.vBlocksToDownload.pushBack hash := by
        unfold CNodeState.enqueue
        dsimp only
        split <;> rfl
      have hflight : (state.enqueue banscore hash).vBlocksInFlight = state.vBlocksInFlight := by
        unfold CNodeState.enqueue
        dsimp only
        split <;> rfl
      refine ⟨true, _, rfl, ?_, ?_, ?_, counted_setNode h ?_⟩
      · change Indexes id ((s.setNode nodeid _).lists _) _
        rw [lists_setNode, hqueue]
        exact h.toDownload.pushBack (lists_of_node _ hst) hnew.1
      · change Indexes _ ((s.setNode nodeid _).lists _) _
        rw [lists_setNode_of_eq hst hflight]
        exact h.inFlight
      · intro hash'
        dsimp only [DownloadState.setNode]
        by_cases hhash : hash' = hash
        · exact .inr (by rw [hhash, hnew.2])
        · rw [update_of_ne hhash]
          exact h.disjoint hash'
      · constructor
        · rw [hqueue, StableList.length_pushBack]
          unfold CNodeState.enqueue
          dsimp only
          split
          · exact congrArg (· + 1) hcnt.toDownload
          · exact congrArg (· + 1) hcnt.toDownload
        · rw [hflight]
          unfold CNodeState.enqueue
          dsimp only
          split
          · exact hcnt.inFlight
          · exact hcnt.inFlight

theorem markBlockAsInFlight_spec (hst : s.mapNodeState nodeid = some state)
    (hash : UInt256) (now : ℤ) :
    ∃ s' state', MarkBlockAsInFlight nodeid hash now s = (.ok (), s') ∧ Consistent s' ∧
      s'.mapNodeState nodeid = some state' ∧
      state'.vBlocksToDownload.length + (if hash ∈ state.vBlocksToDownload.values then 1 else 0)
        = state.vBlocksToDownload.length ∧
      (s.mapBlocksInFlight hash = none →
        state'.vBlocksInFlight.length = state.vBlocksInFlight.length + 1) := by
  obtain ⟨s₁, hrun, h₁, htoDownload, hinFlight, hnodes⟩ := markBlockAsReceived_spec h hash (-1) now
  obtain ⟨state₁, hst₁, hqueue, hlist⟩ := hnodes nodeid state hst
  have hcnt := h₁.counted nodeid state₁ hst₁
  unfold MarkBlockAsInFlight
  rw [bind_of_ok (state_of_node hst), bind_of_ok hrun, bind_of_ok (state_of_node hst₁)]
  refine ⟨_, state₁.request hash now, rfl,
    ⟨?_, ?_, ?_, counted_setNode h₁ ⟨hcnt.toDownload, ?_⟩⟩, update_self .., hqueue,
    fun hnone => ?_⟩
  · change Indexes id ((s₁.setNode nodeid _).lists _) _
    rw [lists_setNode_of_eq hst₁ (show (state₁.request hash now).vBlocksToDownload
      = state₁.vBlocksToDownload from rfl)]
    exact h₁.toDownload
  · change Indexes _ ((s₁.setNode nodeid _).lists _) _
    rw [lists_setNode]
    exact @Indexes.pushBack _ _ ⟨hash, now, state₁.nBlocksInFlight⟩ _ _ QueuedBlock.hash _ _ _ _ _
      h₁.inFlight (lists_of_node _ hst₁) hinFlight
  · intro hash'
    dsimp only [DownloadState.setNode]
    by_cases hhash : hash' = hash
    · exact .inl (by rw [hhash, htoDownload])
    · rw [update_of_ne hhash]
      exact h₁.disjoint hash'
  · dsimp only [CNodeState.request]
    rw [StableList.length_pushBack, hcnt.inFlight]
    rfl
  · dsimp only [CNodeState.request]
    rw [StableList.length_pushBack, hlist hnone]

theorem finalizeNode_spec (hst : s.mapNodeState nodeid = some state) :
    ∃ s', FinalizeNode nodeid s = (.ok (), s') ∧ Consistent s' ∧ s'.mapNodeState nodeid = none := by
  unfold FinalizeNode
  rw [bind_of_ok (state_of_node hst)]
  have hlists : ∀ {α : Type} (f : CNodeState → StableList α),
      (fun nodeid' => (Function.update s.mapNodeState nodeid none nodeid').map f)
        = Function.update (s.lists f) nodeid none := by
    intro α f
    funext nodeid'
    by_cases hid : nodeid' = nodeid
    · rw [hid, update_self, update_self, Option.map_none]
    · rw [update_of_ne hid, update_of_ne hid]
      rfl
  refine ⟨_, rfl, ⟨?_, ?_, ?_, ?_⟩, update_self ..⟩
  · change Indexes id (fun _ => Option.map _ _) _
    rw [hlists]
    exact h.toDownload.removeOwner (lists_of_node _ hst)
  · change Indexes _ (fun _ => Option.map _ _) _
    rw [hlists]
    exact h.inFlight.removeOwner (lists_of_node _ hst)
  · intro hash
    dsimp only
    rw [eraseKeys_apply, eraseKeys_apply]
    rcases h.disjoint hash with hnone | hnone
    · exact .inl (by rw [hnone, ite_self])
    · exact .inr (by rw [hnone, ite_self])
  · intro nodeid' state' hst'
    by_cases hid : nodeid' = nodeid
    · dsimp only at hst'
      rw [hid, update_self] at hst'
      exact nomatch hst'
    · dsimp only at hst'
      rw [update_of_ne hid] at hst'
      exact h.counted nodeid' state' hst'

theorem initializeNode_spec (nodeid : NodeId) (addrName : String) :
    ∃ s', InitializeNode nodeid addrName s = (.ok (), s') ∧ Consistent s' := by
  refine ⟨_, rfl, ?_⟩
  dsimp only
  rcases hst : s.mapNodeState nodeid with _ | state
  · have hnone : ∀ {α : Type} (f : CNodeState → StableList α), s.lists f nodeid = none := by
      intro α f
      unfold DownloadState.lists
      rw [hst, Option.map_none]
    dsimp only [Option.getD_none]
    refine ⟨?_, ?_, h.disjoint, counted_setNode h ⟨rfl, rfl⟩⟩
    · rw [lists_setNode]
      exact h.toDownload.addOwner (hnone _)
    · rw [lists_setNode]
      exact h.inFlight.addOwner (hnone _)
  · have hcnt := h.counted nodeid state hst
    dsimp only [Option.getD_some]
    exact h.setNode hst rfl rfl ⟨hcnt.toDownload, hcnt.inFlight⟩

theorem misbehaving_spec (banscore : ℤ) (pnode : NodeId) (howmuch : ℤ) :
    ∃ s', Misbehaving banscore pnode howmuch s = (.ok (), s') ∧ Consistent s' := by
  refine ⟨_, rfl, ?_⟩
  dsimp only
  split
  · exact h
  · rcases hst : s.mapNodeState pnode with _ | state
    · exact h
    · have hcnt := h.counted pnode state hst
      exact h.setNode hst (show (state.misbehaving banscore howmuch).vBlocksToDownload = _ from rfl)
        rfl ⟨hcnt.toDownload, hcnt.inFlight⟩

omit h

theorem frontOf_eq_ok {l : StableList α} (h : l.length ≠ 0) :
    ∃ a it, frontOf l = .ok a ∧ l.get it = some a := by
  unfold frontOf
  rcases hfront : l.front with _ | a
  · exact absurd (StableList.front_eq_none.mp hfront) h
  · obtain ⟨it, hget⟩ := StableList.get_of_front hfront
    exact ⟨a, it, rfl, hget⟩

theorem requestBlocks_spec {now : ℕ → ℤ} (fuel : ℕ) (h : Consistent s)
    (hst : s.mapNodeState nodeid = some state) (hfuel : state.vBlocksToDownload.length < fuel)
    (vGetData : List UInt256) :
    ∃ vGetData' s', requestBlocks nodeid now fuel vGetData s = (.ok vGetData', s') ∧ Consistent s' ∧
      (vGetData'.length : ℤ)
        ≤ vGetData.length + max 0 (MAX_BLOCKS_IN_TRANSIT_PER_PEER - state.nBlocksInFlight) := by
  induction fuel generalizing s state vGetData with
  | zero => omega
  | succ fuel ih =>
    have hcnt := h.counted nodeid state hst
    unfold requestBlocks
    rw [bind_of_ok (state_of_node hst)]
    split
    · rename_i hmore
      have hnonempty : state.vBlocksToDownload.length ≠ 0 := by
        have hlen := hcnt.toDownload
        omega
      obtain ⟨hash, it, hfront, hget⟩ := frontOf_eq_ok hnonempty
      -- A queued block is not in flight, so one more is afterwards.
      have hent := h.toDownload.entry (lists_of_node _ hst) hget
      have hnone : s.mapBlocksInFlight hash = none :=
        (h.disjoint hash).resolve_left fun hno => by
          rw [show s.mapBlocksToDownload hash = some (nodeid, it) from hent] at hno
          exact nomatch hno
      obtain ⟨s₁, state₁, hrun, h₁, hst₁, hqueue, hflight⟩ :=
        markBlockAsInFlight_spec h hst hash (now fuel)
      rw [if_pos (StableList.mem_values.mpr ⟨it, hget⟩)] at hqueue
      obtain ⟨vGetData', s', hrest, h', hlen⟩ := ih h₁ hst₁ (by omega) (vGetData ++ [hash])
      refine ⟨vGetData', s', ?_, h', ?_⟩
      · have hread : (Action.reading fun _ => frontOf state.vBlocksToDownload : DownloadM UInt256) s
            = (.ok hash, s) := by rw [reading_apply, hfront]
        rw [bind_of_ok hread, bind_of_ok hrun, hrest]
      · have hadded := hflight hnone
        have hcnt₁ := (h₁.counted nodeid state₁ hst₁).inFlight
        have hcnt := hcnt.inFlight
        rw [List.length_append, List.length_singleton] at hlen
        omega
    · exact ⟨vGetData, s, rfl, h, by omega⟩

theorem length_requestBlocks {now : ℕ → ℤ} (h : Consistent s)
    (hst : s.mapNodeState nodeid = some state) :
    ∃ vGetData s', requestBlocks nodeid now (state.nBlocksToDownload.toNat + 1) [] s
      = (.ok vGetData, s') ∧ Consistent s' ∧ vGetData.length ≤ 128 := by
  have hcnt := h.counted nodeid state hst
  have htoDownload := hcnt.toDownload
  have hinFlight := hcnt.inFlight
  obtain ⟨vGetData, s', hrun, h', hlen⟩ := @requestBlocks_spec s nodeid state now
    (state.nBlocksToDownload.toNat + 1) h hst (by omega) []
  refine ⟨vGetData, s', hrun, h', ?_⟩
  unfold MAX_BLOCKS_IN_TRANSIT_PER_PEER at hlen
  rw [List.length_nil] at hlen
  omega

theorem isStalling_eq_ok (h : state.Counted) : ∃ stalling, isStalling state = .ok stalling := by
  unfold isStalling
  split
  · rename_i hflight
    have hlen := h.inFlight
    obtain ⟨entry, it, hfront, -⟩ := frontOf_eq_ok (l := state.vBlocksInFlight) (by omega)
    rw [hfront]
    exact ⟨_, rfl⟩
  · exact ⟨false, rfl⟩

theorem sendMessages_spec (h : Consistent s) (pto : CNode) (now : ℕ → ℤ)
    (hst : s.mapNodeState pto.id = some state) :
    ∃ r s', SendMessages pto now s = (.ok r, s') ∧ Consistent s' := by
  have hcnt := h.counted pto.id state hst
  unfold SendMessages
  rw [bind_of_ok (state_of_node hst), Action.modify_bind]
  have h₁ : Consistent (s.setNode pto.id { state with fShouldBan := false }) :=
    h.setNode hst rfl rfl ⟨hcnt.toDownload, hcnt.inFlight⟩
  split
  · exact ⟨_, _, rfl, h₁⟩
  · obtain ⟨stalling, hstalling⟩ := isStalling_eq_ok hcnt
    rw [bind_of_ok (show (Action.reading fun _ => isStalling state : DownloadM Bool)
      (s.setNode pto.id { state with fShouldBan := false })
        = (.ok stalling, s.setNode pto.id { state with fShouldBan := false }) by
          rw [reading_apply, hstalling])]
    cases stalling with
    | true => exact ⟨_, _, rfl, h₁⟩
    | false =>
      obtain ⟨vGetData, s', hrun, h', -⟩ := @length_requestBlocks
        (s.setNode pto.id { state with fShouldBan := false }) pto.id
        { state with fShouldBan := false } now h₁ (update_self ..)
      refine ⟨(false, vGetData), s', ?_, h'⟩
      exact bind_of_ok hrun

/-! ## Runs -/

inductive DownloadCall
  | initializeNode (nodeid : NodeId) (addrName : String)
  | finalizeNode (nodeid : NodeId)
  | misbehaving (pnode : NodeId) (howmuch : ℤ)
  | addBlockToQueue (nodeid : NodeId) (hash : UInt256)
  | markBlockAsInFlight (nodeid : NodeId) (hash : UInt256) (now : ℤ)
  | markBlockAsReceived (hash : UInt256) (nodeFrom : NodeId) (now : ℤ)
  | noteBlockProcess (nodeid : NodeId) (now : ℤ)
  | sendMessages (pto : CNode) (now : ℕ → ℤ)

def DownloadCall.run (banscore : ℤ) : DownloadCall → DownloadM Unit
  | initializeNode nodeid addrName => InitializeNode nodeid addrName
  | finalizeNode nodeid => FinalizeNode nodeid
  | misbehaving pnode howmuch => Misbehaving banscore pnode howmuch
  | addBlockToQueue nodeid hash => do let _ ← AddBlockToQueue banscore nodeid hash
  | markBlockAsInFlight nodeid hash now => MarkBlockAsInFlight nodeid hash now
  | markBlockAsReceived hash nodeFrom now => MarkBlockAsReceived hash nodeFrom now
  | noteBlockProcess nodeid now => Network.noteBlockProcess nodeid now
  | sendMessages pto now => do let _ ← SendMessages pto now

/-- The peer that a call takes for granted is connected. -/
def DownloadCall.Known (s : DownloadState) : DownloadCall → Prop
  | finalizeNode nodeid | markBlockAsInFlight nodeid _ _ | noteBlockProcess nodeid _ =>
    s.mapNodeState nodeid ≠ none
  | sendMessages pto _ => s.mapNodeState pto.id ≠ none
  | _ => True

theorem known_of_bind {f : CNodeState → DownloadM α} {a : α}
    (h : (State nodeid >>= f) s = (.ok a, s')) : s.mapNodeState nodeid ≠ none := by
  intro hnone
  obtain ⟨state, t, hst, -⟩ := Action.bind_eq_ok.mp h
  unfold State at hst
  rw [reading_apply, hnone] at hst
  exact nomatch hst

theorem downloadCall_spec (h : Consistent s) (banscore : ℤ) (call : DownloadCall)
    (hknown : call.Known s) : ∃ s', call.run banscore s = (.ok (), s') ∧ Consistent s' := by
  cases call with
  | initializeNode nodeid addrName => exact initializeNode_spec h nodeid addrName
  | finalizeNode nodeid =>
    obtain ⟨state, hst⟩ := Option.ne_none_iff_exists'.mp hknown
    obtain ⟨s', hrun, h', -⟩ := finalizeNode_spec h hst
    exact ⟨s', hrun, h'⟩
  | misbehaving pnode howmuch => exact misbehaving_spec h banscore pnode howmuch
  | addBlockToQueue nodeid hash =>
    obtain ⟨queued, s', hrun, h'⟩ := addBlockToQueue_spec h banscore nodeid hash
    exact ⟨s', bind_of_ok hrun, h'⟩
  | markBlockAsInFlight nodeid hash now =>
    obtain ⟨state, hst⟩ := Option.ne_none_iff_exists'.mp hknown
    obtain ⟨s', -, hrun, h', -⟩ := markBlockAsInFlight_spec h hst hash now
    exact ⟨s', hrun, h'⟩
  | markBlockAsReceived hash nodeFrom now =>
    obtain ⟨s', hrun, h', -⟩ := markBlockAsReceived_spec h hash nodeFrom now
    exact ⟨s', hrun, h'⟩
  | noteBlockProcess nodeid now =>
    obtain ⟨state, hst⟩ := Option.ne_none_iff_exists'.mp hknown
    have hcnt := h.counted nodeid state hst
    exact ⟨_, bind_of_ok (state_of_node hst),
      h.setNode hst rfl rfl ⟨hcnt.toDownload, hcnt.inFlight⟩⟩
  | sendMessages pto now =>
    obtain ⟨state, hst⟩ := Option.ne_none_iff_exists'.mp hknown
    obtain ⟨r, s', hrun, h'⟩ := sendMessages_spec h pto now hst
    exact ⟨s', bind_of_ok hrun, h'⟩

theorem known_of_run {banscore : ℤ} {call : DownloadCall} (h : call.run banscore s = (.ok (), s')) :
    call.Known s := by
  cases call with
  | finalizeNode nodeid => exact known_of_bind h
  | markBlockAsInFlight nodeid hash now => exact known_of_bind h
  | noteBlockProcess nodeid now => exact known_of_bind h
  | sendMessages pto now =>
    obtain ⟨r, t, hrun, -⟩ := Action.bind_eq_ok.mp h
    exact known_of_bind hrun
  | _ => trivial

theorem consistent_of_calls {banscore : ℤ} (calls : List DownloadCall) (h : Consistent s)
    (hrun : calls.forM (DownloadCall.run banscore) s = (.ok (), s')) : Consistent s' := by
  induction calls generalizing s with
  | nil =>
    cases hrun
    exact h
  | cons call calls ih =>
    obtain ⟨t, hcall, hrest⟩ := Action.forM_cons_eq_ok.mp hrun
    obtain ⟨t', hcall', h'⟩ := downloadCall_spec h banscore call (known_of_run hcall)
    rw [hcall] at hcall'
    cases hcall'
    exact ih h' hrest

/-- After every run of calls the lists, the lengths and the maps agree, a peer that disconnects then
leaves no entry in the maps, and a call fails only because the peer that it takes for granted is not
connected. -/
theorem downloads_of_calls {banscore : ℤ} (calls : List DownloadCall)
    (hrun : calls.forM (DownloadCall.run banscore) DownloadState.start = (.ok (), s)) :
    Consistent s ∧
      (∀ nodeid s', FinalizeNode nodeid s = (.ok (), s') → ∀ hash it,
        s'.mapBlocksToDownload hash ≠ some (nodeid, it) ∧
          s'.mapBlocksInFlight hash ≠ some (nodeid, it)) ∧
      ∀ call : DownloadCall, (∃ s', call.run banscore s = (.ok (), s')) ↔ call.Known s := by
  have h := consistent_of_calls calls consistent_start hrun
  refine ⟨h, fun nodeid s' hfinal => ?_, fun call => ⟨fun ⟨s', hcall⟩ => known_of_run hcall,
    fun hknown => ?_⟩⟩
  · obtain ⟨state, hstate⟩ := Option.ne_none_iff_exists'.mp (known_of_bind hfinal)
    obtain ⟨t, hrun', h', hgone⟩ := finalizeNode_spec h hstate
    rw [hfinal] at hrun'
    cases hrun'
    have hlist : ∀ {α : Type} (f : CNodeState → StableList α), s'.lists f nodeid = none := by
      intro α f
      unfold DownloadState.lists
      rw [hgone, Option.map_none]
    refine fun hash it => ⟨fun hentry => ?_, fun hentry => ?_⟩
    · obtain ⟨l, a, hl, -⟩ := h'.toDownload.element hentry
      rw [hlist] at hl
      exact nomatch hl
    · obtain ⟨l, a, hl, -⟩ := h'.inFlight.element hentry
      rw [hlist] at hl
      exact nomatch hl
  · obtain ⟨s', hcall, -⟩ := downloadCall_spec h banscore call hknown
    exact ⟨s', hcall⟩

def peerCalls : List DownloadCall :=
  [.initializeNode 0 "first", .initializeNode 1 "second", .addBlockToQueue 0 10,
    .addBlockToQueue 0 11, .addBlockToQueue 0 12, .addBlockToQueue 1 10, .markBlockAsInFlight 1 11 5,
    .sendMessages ⟨0, false, false⟩ fun _ => 7, .markBlockAsReceived 10 0 9, .finalizeNode 0]

/-- The peers agree with the maps after the run. -/
theorem peerCalls_consistent :
    Consistent (peerCalls.forM (DownloadCall.run 100) DownloadState.start).2 :=
  (downloads_of_calls peerCalls (Action.eq_of_fst rfl)).1

end ZalemCoin.Network
