import ZalemCoin.Chain.InputFailures
import ZalemCoin.Chain.OrphanTxs
import ZalemCoin.Chain.PlainContext

/-!
# Runs of transactions that arrive

What the node does with a transaction that a peer sends, over runs of such messages. No orphan that
spends from a transaction outside the transaction index is ever accepted, so the queue of a message
ends after the transaction itself. An orphan whose previous transactions have all come stays an orphan
when one of them is in the pool only; in runs without such transactions no orphan does.
-/

namespace ZalemCoin.Chain

open Lib

/-- The transactions whose orphans are still to be tried, and the orphans to drop. -/
structure OrphanQueues where
  vWorkQueue : List UInt256
  vEraseQueue : List UInt256

variable (ctx : Context)

def processOrphan (env : UInt256 → Env) (orphans : OrphanTxs ctx)
    (queues : OrphanQueues) (orphanTxHash : UInt256) : NodeM OrphanQueues :=
  match orphans.find orphanTxHash with
  | none => pure queues
  | some orphanTx => do
    let fMissingInputs2 ← Action.reading fun s => .ok (pfMissingInputs ctx s orphanTx)
    let accepted ← attempt (AcceptToMemoryPool ctx (env orphanTxHash) orphanTx true false false)
    pure (
      if accepted then
        ⟨queues.vWorkQueue ++ [orphanTxHash], queues.vEraseQueue ++ [orphanTxHash]⟩
      else if fMissingInputs2 then queues
      else { queues with vEraseQueue := queues.vEraseQueue ++ [orphanTxHash] })

/-- Tries the orphans of the transactions in the queue, and returns those to drop. Every transaction
that is queued enters the pool, so the queue has no more than one for each orphan. -/
def processOrphans (ctx : Context) (env : UInt256 → Env) (orphans : OrphanTxs ctx) :
    ℕ → OrphanQueues → NodeM (List UInt256)
  | _, ⟨[], vEraseQueue⟩ => pure vEraseQueue
  | 0, ⟨_ :: _, _⟩ => Action.fail (.crash "the work queue does not end")
  | fuel + 1, ⟨hash :: rest, vEraseQueue⟩ => do
    let queues ← (orphans.waiting hash).foldlM (processOrphan ctx env orphans) ⟨rest, vEraseQueue⟩
    processOrphans ctx env orphans fuel queues

structure TxNode where
  chain : NodeState
  orphans : OrphanTxs ctx

/-- A transaction from a peer, and what the node reads from outside while it processes it: for every
transaction that it tries, and the random hashes of the eviction. -/
structure TxMessage where
  tx : CTransaction
  /-- Whether a `dstx` has come before; none for a `tx`. -/
  dstx : Option Bool
  /-- The transaction is one of those that a masternode may send for free. -/
  ignoreFees : Bool
  env : UInt256 → Env
  randHash : ℕ → UInt256

/-- Whether the node has what a message brings, as an orphan or elsewhere. -/
def AlreadyHave (chain : NodeState) (orphan : Bool) (m : TxMessage) : Bool :=
  let hash := ctx.hashTx m.tx
  match m.dstx with
  | some seen => seen
  | none => chain.mempool.existsTx hash || orphan || chain.txdb.ContainsTx hash

def TxNode.has {ctx : Context} (n : TxNode ctx) (m : TxMessage) : Bool :=
  AlreadyHave ctx n.chain (n.orphans.find (ctx.hashTx m.tx)).isSome m

def ProcessTx (n : TxNode ctx) (m : TxMessage) : TxNode ctx :=
  let hash := ctx.hashTx m.tx
  if n.has m then n
  else
    match attempt (AcceptToMemoryPool ctx (m.env hash) m.tx true false m.ignoreFees) n.chain with
    | (.ok true, chain) =>
      match processOrphans ctx m.env n.orphans (n.orphans.size + 1) ⟨[hash], []⟩
          chain with
      | (.ok vEraseQueue, chain) => ⟨chain, vEraseQueue.foldl OrphanTxs.EraseOrphanTx n.orphans⟩
      | (.error _, chain) => { n with chain := chain }
    | (.ok false, chain) =>
      if pfMissingInputs ctx n.chain m.tx then
        ⟨chain, (n.orphans.AddOrphanTx m.tx).LimitOrphanTxSize MAX_ORPHAN_TRANSACTIONS m.randHash⟩
      else { n with chain := chain }
    | (.error _, chain) => { n with chain := chain }

def processTxs (n : TxNode ctx) (ms : List TxMessage) : TxNode ctx :=
  ms.foldl (ProcessTx ctx) n

/-- A message whose transaction is new to the node and enters the pool. -/
def TxAccepted (n : TxNode ctx) (m : TxMessage) : Prop :=
  n.has m = false ∧ (AcceptToMemoryPool ctx (m.env (ctx.hashTx m.tx)) m.tx true false m.ignoreFees
    n.chain).1 = .ok ()

def NodeState.withTx (s : NodeState) (tx : CTransaction) : NodeState :=
  { s with mempool := s.mempool.addUnchecked (ctx.hashTx tx) tx }

def NoneStuck {ctx : Context} (n : TxNode ctx) : Prop :=
  ∀ hash tx, n.orphans.find hash = some tx → ∃ txin ∈ tx.vin, ¬Available n.chain txin

/-- A message of which no transaction stops at the pool: neither the one that arrives, nor, when it is
accepted, an orphan that spends from it. -/
def ClearOfPool (n : TxNode ctx) (m : TxMessage) : Prop :=
  ¬StopsAtPool ctx n.chain m.tx ∧
    (TxAccepted ctx n m → ∀ hash ∈ n.orphans.waiting (ctx.hashTx m.tx),
      ∀ tx ∈ n.orphans.find hash, ¬StopsAtPool ctx (n.chain.withTx ctx m.tx) tx)

def ClearRun (ctx : Context) : TxNode ctx → List TxMessage → Prop
  | _, [] => True
  | n, m :: ms => ClearOfPool ctx n m ∧ ClearRun ctx (ProcessTx ctx n m) ms

section

variable {ctx : Context} {env : UInt256 → Env} {s : NodeState} {tx : CTransaction}

/-! ## The orphans of one transaction -/

theorem attempt_of_unindexed {e : Env} {fLimitFree fRejectInsaneFee ignoreFees : Bool}
    (h : ∃ txin ∈ tx.vin, s.txdb.ContainsTx txin.prevout.hash = false) :
    attempt (AcceptToMemoryPool ctx e tx fLimitFree fRejectInsaneFee ignoreFees) s
      = (.ok false, s) := by
  rcases @acceptToMemoryPool_cases ctx e s tx fLimitFree fRejectInsaneFee ignoreFees with
    ⟨-, hindexed, -⟩ | ⟨failure, hfail, hcall⟩
  · obtain ⟨txin, htxin, hout⟩ := h
    rw [(checkIndexed_eq_ok.mp hindexed).2.1 txin htxin] at hout
    exact Bool.noConfusion hout
  · -- All checks up to the look at the previous transactions refuse, and so does this one.
    obtain ⟨nDoS, msg, rfl⟩ : ∃ nDoS msg, failure = .reject nDoS msg := by
      rcases hfail with hloose | ⟨-, hindexed⟩
      · exact refuses_checkLoose failure hloose
      · rcases except_bind_eq_error.mp hindexed with hknown | ⟨⟨⟩, -, hindexed⟩
        · exact ⟨_, _, (ensure_eq_error.mp hknown).2.symm⟩
        · rcases except_bind_eq_error.mp hindexed with hmiss | ⟨⟨⟩, hall, -⟩
          · exact ⟨_, _, (ensure_eq_error.mp hmiss).2.symm⟩
          · obtain ⟨txin, htxin, hout⟩ := h
            rw [ensure_eq_ok.mp hall txin htxin] at hout
            exact Bool.noConfusion hout
    exact attempt_of_reject hcall

/-- An orphan that is dropped when it is tried in a state: the one that is refused and not because of
a missing input. -/
def droppedIn (ctx : Context) (s : NodeState) (orphans : OrphanTxs ctx) (hash : UInt256) : Bool :=
  match orphans.find hash with
  | none => false
  | some tx => !pfMissingInputs ctx s tx

variable {orphans : OrphanTxs ctx} {prev : UInt256} {n : TxNode ctx} {m : TxMessage}

theorem processOrphan_of_unindexed {hash : UInt256} (hwaiting : hash ∈ orphans.waiting prev)
    (hprev : s.txdb.ContainsTx prev = false) (queues : OrphanQueues) :
    processOrphan ctx env orphans queues hash s = (.ok
      ⟨queues.vWorkQueue, queues.vEraseQueue ++ [hash].filter (droppedIn ctx s orphans)⟩, s) := by
  obtain ⟨tx, hfind, txin, htxin, rfl⟩ := OrphanTxs.mem_waiting.mp hwaiting
  unfold processOrphan
  rw [hfind]
  dsimp only
  rw [Action.bind_apply, Action.reading_apply]
  dsimp only
  rw [Action.bind_of_ok (attempt_of_unindexed ⟨txin, htxin, hprev⟩), Action.pure_apply]
  by_cases hmiss : pfMissingInputs ctx s tx = true
  · simp [droppedIn, hfind, hmiss]
  · simp [droppedIn, hfind, hmiss]

theorem processWaiting_of_unindexed (hprev : s.txdb.ContainsTx prev = false) (l : List UInt256)
    (hl : ∀ hash ∈ l, hash ∈ orphans.waiting prev) (queues : OrphanQueues) :
    l.foldlM (processOrphan ctx env orphans) queues s = (.ok
      ⟨queues.vWorkQueue, queues.vEraseQueue ++ l.filter (droppedIn ctx s orphans)⟩, s) := by
  induction l generalizing queues with
  | nil => simp [pure]
  | cons hash l ih =>
    rw [List.foldlM_cons, Action.bind_of_ok
      (processOrphan_of_unindexed (hl hash List.mem_cons_self) hprev queues),
      ih fun hash' hmem => hl hash' (List.mem_cons_of_mem _ hmem)]
    rw [List.append_assoc, ← List.filter_append, List.singleton_append]

theorem processOrphans_of_unindexed (hprev : s.txdb.ContainsTx prev = false) (fuel : ℕ) :
    processOrphans ctx env orphans (fuel + 1) ⟨[prev], []⟩ s
      = (.ok ((orphans.waiting prev).filter (droppedIn ctx s orphans)), s) := by
  unfold processOrphans
  rw [Action.bind_of_ok
    (processWaiting_of_unindexed hprev (orphans.waiting prev) (fun _ h => h) ⟨[], []⟩)]
  cases fuel <;> rfl

/-! ## One message -/

/-- A transaction is accepted, kept as an orphan, or nothing changes. -/
theorem processTx_cases (n : TxNode ctx) (m : TxMessage) :
    (TxAccepted ctx n m ∧ ProcessTx ctx n m = ⟨n.chain.withTx ctx m.tx,
        ((n.orphans.waiting (ctx.hashTx m.tx)).filter
          (droppedIn ctx (n.chain.withTx ctx m.tx) n.orphans)).foldl OrphanTxs.EraseOrphanTx
            n.orphans⟩) ∨
      (¬TxAccepted ctx n m ∧ pfMissingInputs ctx n.chain m.tx = true ∧ ProcessTx ctx n m = ⟨n.chain,
        (n.orphans.AddOrphanTx m.tx).LimitOrphanTxSize MAX_ORPHAN_TRANSACTIONS m.randHash⟩) ∨
      (¬TxAccepted ctx n m ∧ ProcessTx ctx n m = n) := by
  by_cases hhas : n.has m = true
  · exact .inr (.inr ⟨fun hacc => Bool.noConfusion (hacc.1.symm.trans hhas), if_pos hhas⟩)
  rw [show ProcessTx ctx n m = _ from if_neg hhas]
  rw [Bool.not_eq_true] at hhas
  rcases @acceptToMemoryPool_cases ctx (m.env (ctx.hashTx m.tx)) n.chain m.tx true false m.ignoreFees
    with ⟨-, hindexed, hcall⟩ | ⟨e, -, hcall⟩
  · -- The transaction was not in the index, and the pool does not change that.
    have hnew : (n.chain.withTx ctx m.tx).txdb.ContainsTx (ctx.hashTx m.tx) = false :=
      (checkIndexed_eq_ok.mp hindexed).1
    refine .inl ⟨⟨hhas, by rw [hcall]⟩, ?_⟩
    rw [attempt_of_ok hcall]
    change (match processOrphans ctx m.env n.orphans (n.orphans.size + 1)
        ⟨[ctx.hashTx m.tx], []⟩ (n.chain.withTx ctx m.tx) with
      | (.ok vEraseQueue, chain) =>
        (⟨chain, vEraseQueue.foldl OrphanTxs.EraseOrphanTx n.orphans⟩ : TxNode ctx)
      | (.error _, chain) => { n with chain := chain }) = _
    rw [processOrphans_of_unindexed hnew]
  · have href : ¬TxAccepted ctx n m := by
      rintro ⟨-, hacc⟩
      rw [hcall] at hacc
      cases hacc
    by_cases hmiss : pfMissingInputs ctx n.chain m.tx = true
    · refine .inr (.inl ⟨href, hmiss, ?_⟩)
      obtain ⟨-, -, hunindexed⟩ := pfMissingInputs_eq_true.mp hmiss
      rw [attempt_of_unindexed hunindexed]
      dsimp only
      rw [if_pos hmiss]
    · refine .inr (.inr ⟨href, ?_⟩)
      cases e with
      | reject nDoS msg =>
        rw [attempt_of_reject hcall]
        dsimp only
        rw [if_neg hmiss]
      | crash msg => rw [attempt_of_crash hcall]

/-- A previous transaction that is not there is not there either after another has entered the
pool. -/
theorem not_available_withTx {txin : CTxIn} (h : ¬Available s txin)
    (hother : txin.prevout.hash ≠ ctx.hashTx tx) : ¬Available (s.withTx ctx tx) txin := by
  unfold Available at h ⊢
  unfold NodeState.withTx CTxMemPool.existsTx
  unfold CTxMemPool.existsTx at h
  rw [CTxMemPool.lookup_addUnchecked, if_neg hother]
  exact h

theorem NoneStuck.processTx (h : NoneStuck n) (hclear : ClearOfPool ctx n m) :
    NoneStuck (ProcessTx ctx n m) := by
  obtain ⟨harrived, hwaiting⟩ := hclear
  rcases processTx_cases n m with ⟨haccepts, hrun⟩ | ⟨-, hmiss, hrun⟩ | ⟨-, hrun⟩
  · rw [hrun]
    intro hash tx hfind
    rw [OrphanTxs.find_foldl_eraseOrphanTx] at hfind
    split at hfind
    · simp at hfind
    · rename_i hkept
      by_cases hspends : hash ∈ n.orphans.waiting (ctx.hashTx m.tx)
      · -- It was tried, and is kept because of a missing input.
        have hflag : pfMissingInputs ctx (n.chain.withTx ctx m.tx) tx = true := by
          by_contra hflag
          refine hkept (List.mem_filter.mpr ⟨hspends, ?_⟩)
          simpa [droppedIn, hfind] using hflag
        obtain ⟨hloose, hnew, hunindexed⟩ := pfMissingInputs_eq_true.mp hflag
        by_contra hall
        push Not at hall
        exact hwaiting haccepts hash hspends tx (Option.mem_def.mpr hfind)
          ⟨hloose, hnew, hall, hunindexed⟩
      · obtain ⟨txin, htxin, hgone⟩ := h hash tx hfind
        refine ⟨txin, htxin, not_available_withTx hgone fun heq => hspends ?_⟩
        exact OrphanTxs.mem_waiting.mpr ⟨tx, hfind, txin, htxin, heq⟩
  · rw [hrun]
    intro hash tx hfind
    have hkept := (OrphanTxs.limitOrphanTxSize_spec _ _ _).2 hash tx hfind
    rcases OrphanTxs.find_of_addOrphanTx hkept with rfl | hold
    · exact ((@truthful_iff ctx (m.env 0) n.chain m.tx true false false).mpr harrived).missing
        hmiss
    · exact h hash tx hold
  · rw [hrun]
    exact h

theorem NoneStuck.processTx_iff (h : NoneStuck n) (hacc : TxAccepted ctx n m) :
    NoneStuck (ProcessTx ctx n m) ↔ ClearOfPool ctx n m := by
  refine ⟨fun haft => ⟨?_, fun _ hash hspends tx htx hstops => ?_⟩, h.processTx⟩
  · rintro ⟨-, -, -, txin, htxin, hunindexed⟩
    rw [(acceptToMemoryPool_eq_ok.mp hacc.2).2 txin htxin] at hunindexed
    exact Bool.noConfusion hunindexed
  · -- The orphan is tried and kept, and all its previous transactions are there.
    obtain ⟨hloose, hnew, havailable, hunindexed⟩ := hstops
    have hfind : n.orphans.find hash = some tx := htx
    have hflag : pfMissingInputs ctx (n.chain.withTx ctx m.tx) tx = true :=
      pfMissingInputs_eq_true.mpr ⟨hloose, hnew, hunindexed⟩
    rcases processTx_cases n m with ⟨-, hrun⟩ | ⟨href, -⟩ | ⟨href, -⟩
    · rw [hrun] at haft
      obtain ⟨txin, htxin, hgone⟩ := haft hash tx (by
        rw [OrphanTxs.find_foldl_eraseOrphanTx, if_neg, hfind]
        intro hdropped
        have := (List.mem_filter.mp hdropped).2
        simp [droppedIn, hfind, hflag] at this)
      exact hgone (havailable txin htxin)
    · exact href hacc
    · exact href hacc

theorem NoneStuck.processTxs {ms : List TxMessage} (h : NoneStuck n) (hclear : ClearRun ctx n ms) :
    NoneStuck (processTxs ctx n ms) := by
  induction ms generalizing n with
  | nil => exact h
  | cons m ms ih =>
    obtain ⟨hfst, hrest⟩ := hclear
    exact ih (h.processTx hfst) hrest

/-- A missing input is reported truly, and a transaction that passes the other checks is accepted,
exactly when the transaction does not stop at the pool. An accepted transaction leaves no orphan with
all its previous transactions exactly when none of those that spend from it stops there, and a run in
which no transaction does leaves none either; and when no transaction of the disconnected blocks does,
each of them that passes the other checks is back in the pool in the end. -/
theorem missingInputs_truthful_iff (ctx : Context) :
    (∀ (env : Env) (s : NodeState) (tx : CTransaction)
      (fLimitFree fRejectInsaneFee ignoreFees : Bool),
      Truthful ctx env s tx fLimitFree fRejectInsaneFee ignoreFees ↔ ¬StopsAtPool ctx s tx) ∧
    (∀ (n : TxNode ctx) (m : TxMessage), NoneStuck n → TxAccepted ctx n m →
      (NoneStuck (ProcessTx ctx n m) ↔ ClearOfPool ctx n m)) ∧
    (∀ (n : TxNode ctx) (ms : List TxMessage), NoneStuck n → ClearRun ctx n ms →
      NoneStuck (processTxs ctx n ms)) ∧
    ∀ (env : Env) (s : NodeState) (vResurrect : List CTransaction),
      (∀ call ∈ resurrectCalls ctx env s vResurrect, ¬StopsAtPool ctx call.1 call.2) →
      ∀ call ∈ resurrectCalls ctx env s vResurrect,
        PassesOthers ctx env call.1 call.2 false false false →
        (resurrect ctx env vResurrect s).2.mempool.existsTx (ctx.hashTx call.2) = true := by
  refine ⟨fun env s tx _ _ _ => truthful_iff, fun n m h haccepted => h.processTx_iff haccepted,
    fun n ms h hclear => h.processTxs hclear, ?_⟩
  intro env s vResurrect hclear call hcall hpasses
  exact existsTx_of_resurrectCalls vResurrect hcall
    ((truthful_iff.mpr (hclear call hcall)).accepted hpasses)

end

/-- A node that has disconnected a block with two transactions, the second of which spends from the
first. -/
def returnedNode : NodeState := { chainedNode with txdb := ⟨chainedNode.txdb.disk, none⟩ }

def returnedTxs : List CTransaction :=
  resurrected (chainedContext true) (plainIndex 2 1 (some 1) chainedBlock) chainedBlock

def returnedMessage (i : ℕ) : TxMessage where
  tx := returnedTxs[i]?.getD (plainTx 0 [] [])
  dstx := none
  ignoreFees := false
  env _ := plainEnv 2000
  randHash _ := 0

def returnedTxNode : TxNode (chainedContext true) := ⟨returnedNode, OrphanTxs.empty⟩

/-- The first transaction of the block spends from the index: it is resurrected, and accepted when it
arrives. -/
theorem returnedParent_accepted :
    NoneStuck (processTxs (chainedContext true) returnedTxNode [returnedMessage 0]) ∧
      (resurrect (chainedContext true) (plainEnv 2000) (returnedTxs.take 1)
        returnedNode).2.mempool.existsTx 21 = true := by
  obtain ⟨-, -, hruns, hresurrect⟩ := missingInputs_truthful_iff (chainedContext true)
  constructor
  · refine hruns returnedTxNode [returnedMessage 0] (fun hash tx hfind => ?_) ⟨⟨?_, ?_⟩, trivial⟩
    · simp [returnedTxNode] at hfind
    · decide
    · intro _ hash hwaiting
      obtain ⟨tx, hfind, -⟩ := OrphanTxs.mem_waiting.mp hwaiting
      simp [returnedTxNode] at hfind
  · have hcalls : resurrectCalls (chainedContext true) (plainEnv 2000) returnedNode
        (returnedTxs.take 1) = [(returnedNode, (returnedMessage 0).tx)] := by rfl
    refine hresurrect (plainEnv 2000) returnedNode (returnedTxs.take 1) (fun call hcall => ?_)
      (returnedNode, (returnedMessage 0).tx) (hcalls ▸ List.mem_singleton_self _) ?_
    · rw [hcalls] at hcall
      obtain rfl := List.mem_singleton.mp hcall
      decide
    · decide

/-- The second one spends from the first. While the first is in the pool it is reported to have a
missing input; it stays an orphan after the first has come; and it is not resurrected, although it
passes all other checks. -/
theorem returnedChild_stuck :
    (∃ s, s.mempool.existsTx 21 = true ∧
      ¬Truthful (chainedContext true) (plainEnv 2000) s (returnedMessage 1).tx true false false) ∧
    (NoneStuck returnedTxNode ∧ ¬NoneStuck (processTxs (chainedContext true) returnedTxNode
      [returnedMessage 1, returnedMessage 0])) ∧
    ∃ call ∈ resurrectCalls (chainedContext true) (plainEnv 2000) returnedNode returnedTxs,
      PassesOthers (chainedContext true) (plainEnv 2000) call.1 call.2 false false false ∧
      (resurrect (chainedContext true) (plainEnv 2000) returnedTxs returnedNode).2.mempool.existsTx
        ((chainedContext true).hashTx call.2) = false := by
  refine ⟨⟨returnedNode.withTx (chainedContext true) (returnedMessage 0).tx, by decide,
    fun h => truthful_iff.mp h (by decide)⟩, ⟨fun hash tx hfind => ?_, fun h => ?_⟩, ?_⟩
  · simp [returnedTxNode] at hfind
  · obtain ⟨txin, htxin, hgone⟩ := h 22 (returnedMessage 1).tx (by decide)
    revert txin
    decide
  · refine ⟨(returnedNode.withTx (chainedContext true) (returnedMessage 0).tx,
      (returnedMessage 1).tx), ?_, by decide, by decide⟩
    exact List.mem_of_getElem? (i := 1) rfl

end ZalemCoin.Chain
