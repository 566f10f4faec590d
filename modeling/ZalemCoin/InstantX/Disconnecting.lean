import ZalemCoin.Chain.InputFailures
import ZalemCoin.InstantX.Cleaning
import ZalemCoin.InstantX.Counting

/-!
# Blocks that are disconnected for a lock

When a lock is completed for a transaction that was refused, the node disconnects a block, with a
pointer to an index that it has not looked for and that is not set. This happens exactly when a vote
completes the lock of a transaction that was refused before, or when a request is refused whose lock
is complete already, and in both cases no input is locked for another transaction.
-/

namespace ZalemCoin.InstantX

open Lib Chain Script
open Lib.Action (get_bind modify_bind bind_of_ok check_bind_of check_bind_of_not bind_apply
  reading_apply)

/-- What stops a node that disconnects a block with a pointer that is not set. -/
def unsetPointer : Failure := .crash "pindex is not set"

def lockWithVote (env : IxEnv) (n : Node) (vote : CConsensusVote) : CTransactionLock :=
  ((n.mapTxLocks.lookup vote.txHash).getD
    ⟨0, vote.txHash, [], env.time + 20 * 60⟩).AddSignature vote

def requestOf (env : IxEnv) (n : Node) (hash : UInt256) : CTransaction :=
  (n.mapTxLockReq hash).getD (CTransaction.empty env)

variable (ctx : Context)

/-- A vote completes the lock of a transaction that was refused, and no input of its request is locked
for another one. -/
structure VoteCompletesRefused (n : Node) (env : IxEnv) (vote : CConsensusVote) :
    Prop where
  fresh : n.mapTxLockVote vote.GetHash = none
  counts : Counts env vote
  complete : INSTANTX_SIGNATURES_REQUIRED ≤ (lockWithVote env n vote).CountSignatures
  free : conflictingLock n (ctx.hashTx (requestOf env n vote.txHash))
    (requestOf env n vote.txHash).vin = none
  refused : n.mapTxLockReqRejected vote.txHash ≠ none

/-- The height that a request gives to the lock of its transaction; it keeps the one that there is when
the inputs are too new. -/
def RequestHeight (n : Node) (env : IxEnv) (tx : CTransaction)
    (old nBlockHeight : ℤ) : Prop :=
  (inputAge ctx env n.chain 0 tx.vin.reverse = .ok none ∧ nBlockHeight = old) ∨
    ∃ nTxAge best, inputAge ctx env n.chain 0 tx.vin.reverse = .ok (some nTxAge) ∧
      n.chain.index n.chain.pindexBest = .ok best ∧ nBlockHeight = best.nHeight - nTxAge + 4

/-- The memory pool refuses a request whose lock has enough votes already, and none of its inputs is
locked for another transaction. -/
structure RequestRefusedComplete (n : Node) (env : IxEnv) (tx : CTransaction) :
    Prop where
  reaches : ReachesPool ctx n env tx
  complete : ∃ lock nBlockHeight, n.mapTxLocks.lookup (ctx.hashTx tx) = some lock ∧
    RequestHeight ctx n env tx lock.nBlockHeight nBlockHeight ∧
    INSTANTX_SIGNATURES_REQUIRED ≤ { lock with nBlockHeight := nBlockHeight }.CountSignatures
  refused : ∃ nDoS msg, (AcceptToMemoryPool ctx env.toEnv tx true false false n.chain).1
    = .error (.reject nDoS msg)
  free : conflictingLock n (ctx.hashTx tx) tx.vin = none

def Disconnects (n : Node) (env : IxEnv) (message : Message) : Prop :=
  Listens env ∧
    match message with
    | .txlreq tx => RequestRefusedComplete ctx n env tx
    | .txlvote vote => VoteCompletesRefused ctx n env vote

section

variable {ctx : Context} {env : IxEnv} {n m : Node} {hash : UInt256} {tx : CTransaction}
  {vote : CConsensusVote}

/-! ## Votes -/

theorem checkForConflictingLocks_eq (n : Node) :
    ∃ n', CheckForConflictingLocks ctx env tx n
        = (.ok (conflictingLock n (ctx.hashTx tx) tx.vin).isSome, n') ∧
      n'.mapTxLockReqRejected = n.mapTxLockReqRejected := by
  have hexpire : ∀ (m : Node) (time : ℤ) (k : UInt256),
      (m.expire time k).mapTxLockReqRejected = m.mapTxLockReqRejected := by
    intro m time k
    unfold Node.expire
    split <;> rfl
  unfold CheckForConflictingLocks
  split
  · rename_i hnone
    exact ⟨n, by rw [hnone]; rfl, rfl⟩
  · rename_i other hsome
    refine ⟨_, by rw [hsome]; rfl, ?_⟩
    rw [hexpire, hexpire]

theorem completeLock_eq_unset :
    (completeLock ctx env hash n).1 = .error unsetPointer ↔
      conflictingLock n (ctx.hashTx (requestOf env n hash)) (requestOf env n hash).vin = none ∧
        n.mapTxLockReqRejected hash ≠ none := by
  unfold completeLock
  rw [get_bind, modify_bind]
  have htx : (n.mapTxLockReq hash).getD (CTransaction.empty env) = requestOf env n hash := rfl
  rw [htx]
  generalize hm : ({ n with
    mapTxLockReq := Function.update n.mapTxLockReq hash (some (requestOf env n hash)) } : Node) = m
  have hconf : conflictingLock m = conflictingLock n := by
    rw [← hm]
    rfl
  have hrej : m.mapTxLockReqRejected = n.mapTxLockReqRejected := by
    rw [← hm]
  obtain ⟨n', hchk, hn'⟩ := @checkForConflictingLocks_eq ctx env (requestOf env n hash) m
  rw [bind_of_ok hchk, hconf]
  rcases hfound : conflictingLock n (ctx.hashTx (requestOf env n hash))
      (requestOf env n hash).vin with _ | other
  · change (((Action.modify _ >>= _) n').1 = _ ↔ _)
    rw [modify_bind, get_bind]
    have hreject : (n'.lockInputs hash (requestOf env n hash).vin).mapTxLockReqRejected hash
        = n.mapTxLockReqRejected hash := by
      change n'.mapTxLockReqRejected hash = _
      rw [hn', hrej]
    rw [hreject]
    rcases n.mapTxLockReqRejected hash with _ | refused
    · simp [unsetPointer]
    · simp [unsetPointer, disconnectNothing]
  · simp [unsetPointer]

theorem processConsensusVote_eq_unset :
    (ProcessConsensusVote ctx env vote n).1 = .error unsetPointer ↔ Counts env vote ∧
      INSTANTX_SIGNATURES_REQUIRED ≤ (lockWithVote env n vote).CountSignatures ∧
      conflictingLock n (ctx.hashTx (requestOf env n vote.txHash))
        (requestOf env n vote.txHash).vin = none ∧
      n.mapTxLockReqRejected vote.txHash ≠ none := by
  unfold ProcessConsensusVote
  by_cases hknown : env.GetFloatingcityRank vote.vinFloatingcity vote.nBlockHeight ≠ -1
  · rw [check_bind_of hknown]
    by_cases hranked : env.GetFloatingcityRank vote.vinFloatingcity vote.nBlockHeight
        ≤ INSTANTX_SIGNATURES_TOTAL
    · rw [check_bind_of hranked]
      by_cases hsig : env.SignatureValid vote = true
      · have hcnts : Counts env vote := ⟨hsig, hknown, hranked⟩
        rw [check_bind_of hsig, get_bind]
        rw [modify_bind]
        change (((if INSTANTX_SIGNATURES_REQUIRED ≤ (lockWithVote env n vote).CountSignatures then _
          else _ : Action Node Failure Unit) _).1 = _ ↔ _)
        by_cases hcomp : INSTANTX_SIGNATURES_REQUIRED
            ≤ (lockWithVote env n vote).CountSignatures
        · rw [if_pos hcomp, completeLock_eq_unset]
          simp only [hcnts, hcomp, true_and]
          rfl
        · rw [if_neg hcomp]
          simp [hcomp, unsetPointer]
      · have hcnts : ¬Counts env vote := fun h => hsig h.signed
        rw [check_bind_of_not hsig]
        simp [hcnts, unsetPointer]
    · have hcnts : ¬Counts env vote := fun h => hranked h.ranked
      rw [check_bind_of_not hranked]
      simp [hcnts, unsetPointer]
  · have hcnts : ¬Counts env vote := fun h => hknown h.known
    rw [check_bind_of_not hknown]
    simp [hcnts, unsetPointer]

theorem processVote_eq_unset :
    (processVote ctx env vote n).1 = .error unsetPointer ↔ VoteCompletesRefused ctx n env vote := by
  unfold processVote
  rw [get_bind]
  by_cases hfresh : n.mapTxLockVote vote.GetHash = none
  · rw [check_bind_of hfresh, modify_bind]
    rw [processConsensusVote_eq_unset]
    constructor
    · rintro ⟨hcnts, hcomp, hfree, href⟩
      exact ⟨hfresh, hcnts, hcomp, hfree, href⟩
    · rintro ⟨-, hcnts, hcomp, hfree, href⟩
      exact ⟨hcnts, hcomp, hfree, href⟩
  · rw [check_bind_of_not hfresh]
    constructor
    · simp [unsetPointer]
    · intro h
      exact absurd h.fresh hfresh

/-! ## Requests -/

theorem conflictingLock_lockInputs (n : Node) (vin vin' : List CTxIn) :
    conflictingLock (n.lockInputs hash vin) hash vin' = conflictingLock n hash vin' := by
  have hlocked : ∀ o, (vin.foldl (lockInput hash) n.chain.mapLockedInputs o).filter (· ≠ hash)
      = (n.chain.mapLockedInputs o).filter (· ≠ hash) := by
    intro o
    generalize n.chain.mapLockedInputs = locked
    induction vin generalizing locked with
    | nil => rfl
    | cons txin vin ih =>
      rw [List.foldl_cons, ih]
      unfold lockInput
      rcases hold : locked txin.prevout with _ | other
      · dsimp only
        by_cases ho : o = txin.prevout
        · subst ho
          rw [Function.update_self, hold]
          simp
        · rw [Function.update_of_ne ho]
      · rfl
  unfold conflictingLock Node.lockInputs
  congr 1
  funext txin
  exact hlocked txin.prevout

theorem failsWith_inputAge (nTxAge : ℤ) (vin : List CTxIn) :
    FailsWith InputFailure (inputAge ctx env n.chain nTxAge vin) := by
  induction vin generalizing nTxAge with
  | nil => exact FailsWith.ok _
  | cons i vin ih =>
    have hage : FailsWith InputFailure (GetInputAge ctx n.chain env.blocks i) := by
      unfold GetInputAge
      split
      · exact FailsWith.ok _
      · exact failsAsInputs_index.bind fun _ => FailsWith.pure _
    refine hage.bind fun age => ?_
    exact FailsWith.ite (FailsWith.pure _) (ih age)

theorem failsWith_acceptToMemoryPool (s : NodeState) :
    FailsWith (fun e => e ≠ unsetPointer) (AcceptToMemoryPool ctx env.toEnv tx true false false s).1 := by
  have hinput : ∀ e, InputFailure e → e ≠ unsetPointer := by
    rintro e he rfl
    simp [InputFailure, Failure.text, inputTexts, unsetPointer] at he
  have hrej : ∀ nDoS msg, Failure.reject nDoS msg ≠ unsetPointer := by
    intro nDoS msg h
    simp [unsetPointer] at h
  have hrefuses : ∀ e, Failure.Refuses e → e ≠ unsetPointer := by
    rintro e ⟨nDoS, msg, rfl⟩
    exact hrej nDoS msg
  have hloose := (@refuses_checkLoose ctx s tx).mono hrefuses
  have hfees : ∀ nFees, FailsWith (fun e => e ≠ unsetPointer)
      (checkRelayFees ctx env.toEnv tx nFees true false) :=
    fun nFees => refuses_checkRelayFees.mono hrefuses
  have hindexed : FailsWith (fun e => e ≠ unsetPointer)
      (checkIndexed ctx env.toEnv s tx true false false) := by
    refine FailsWith.bind (FailsWith.ensure (hrej _ _)) fun _ => ?_
    refine FailsWith.bind (FailsWith.ensure (hrej _ _)) fun _ => ?_
    refine FailsWith.bind (failsAsInputs_fetchInputs.mono hinput) fun mapInputs => ?_
    refine FailsWith.bind (FailsWith.ensure (hrej _ _)) fun _ => ?_
    refine FailsWith.bind (failsAsInputs_getP2SHSigOpCount.mono hinput) fun nP2SH => ?_
    refine FailsWith.bind (FailsWith.ensure (hrej _ _)) fun _ => ?_
    refine FailsWith.bind (failsAsInputs_getValueIn.mono hinput) fun nValueIn => ?_
    refine FailsWith.bind (failsAsInputs_getValueOut.mono hinput) fun nValueOut => ?_
    refine FailsWith.bind (hfees _) fun _ => ?_
    refine FailsWith.bind (FailsWith.ensure (hrej _ _)) fun _ => ?_
    refine FailsWith.bind (failsAsInputs_connectInputs.mono hinput) fun _ => ?_
    exact FailsWith.bind (failsAsInputs_connectInputs.mono hinput) fun _ => FailsWith.pure _
  unfold AcceptToMemoryPool
  rw [bind_apply, reading_apply]
  rcases hchk : checkLoose ctx s tx with e | ⟨⟩
  · rw [hchk] at hloose
    exact hloose
  · dsimp only
    rw [bind_apply, reading_apply]
    rcases hchk : checkIndexed ctx env.toEnv s tx true false false with e | ⟨⟩
    · rw [hchk] at hindexed
      exact hindexed
    · exact FailsWith.ok ()

/-- `CreateNewLock` fails at an input, or leaves a lock that is complete only if one was before. -/
theorem createNewLock_cases (n : Node) :
    (∃ e, InputFailure e ∧ CreateNewLock ctx env tx n = (.error e, n) ∧
        ∀ old nBlockHeight, ¬RequestHeight ctx n env tx old nBlockHeight) ∨
      ∃ nBlockHeight m, CreateNewLock ctx env tx n = (.ok nBlockHeight, m) ∧ m.chain = n.chain ∧
        ((∃ lock, m.mapTxLocks.lookup (ctx.hashTx tx) = some lock ∧
            INSTANTX_SIGNATURES_REQUIRED ≤ lock.CountSignatures) ↔
          ∃ lock nBlockHeight, n.mapTxLocks.lookup (ctx.hashTx tx) = some lock ∧
            RequestHeight ctx n env tx lock.nBlockHeight nBlockHeight ∧
            INSTANTX_SIGNATURES_REQUIRED
              ≤ { lock with nBlockHeight := nBlockHeight }.CountSignatures) := by
  unfold CreateNewLock
  rw [bind_apply, reading_apply]
  have hages := @failsWith_inputAge ctx env n 0 tx.vin.reverse
  rcases hage : inputAge ctx env n.chain 0 tx.vin.reverse with e | age
  · rw [hage] at hages
    exact .inl ⟨e, hages e rfl, rfl, by simp [RequestHeight, hage]⟩
  rcases age with _ | nTxAge
  · have hheight : ∀ old height, RequestHeight ctx n env tx old height ↔ height = old := by
      intro old height
      simp [RequestHeight, hage]
    refine .inr ⟨0, n, rfl, rfl, ?_⟩
    constructor
    · rintro ⟨lock, hlock, hvotes⟩
      exact ⟨lock, lock.nBlockHeight, hlock, (hheight _ _).mpr rfl, hvotes⟩
    · rintro ⟨lock, height, hlock, hsame, hvotes⟩
      obtain rfl := (hheight _ _).mp hsame
      exact ⟨lock, hlock, hvotes⟩
  · dsimp only
    rw [bind_apply, reading_apply]
    have hbests := @failsAsInputs_index n.chain n.chain.pindexBest
    rcases hbest : n.chain.index n.chain.pindexBest with e | best
    · rw [hbest] at hbests
      exact .inl ⟨e, hbests e rfl, rfl, by simp [RequestHeight, hage, hbest]⟩
    have hheight : ∀ old height, RequestHeight ctx n env tx old height ↔
        height = best.nHeight - nTxAge + 4 := by
      intro old height
      simp [RequestHeight, hage, hbest]
    refine .inr ⟨_, _, rfl, ?_, ?_⟩
    · dsimp only
      split <;> rfl
    · dsimp only
      rcases hlock : n.mapTxLocks.lookup (ctx.hashTx tx) with _ | lock
      · -- A new lock has no votes.
        dsimp only [Node.setLock]
        rw [AList.lookup_insert]
        constructor
        · rintro ⟨lock, hnew, hvotes⟩
          cases hnew
          unfold CTransactionLock.CountSignatures INSTANTX_SIGNATURES_REQUIRED at hvotes
          split at hvotes <;> simp [CTransactionLock.counted] at hvotes
        · rintro ⟨lock, _, hnone, -⟩
          simp at hnone
      · dsimp only [Node.setLock]
        rw [AList.lookup_insert]
        constructor
        · rintro ⟨lock', hnew, hvotes⟩
          cases hnew
          exact ⟨lock, _, rfl, (hheight _ _).mpr rfl, hvotes⟩
        · rintro ⟨lock', height, hold, hnew, hvotes⟩
          cases hold
          obtain rfl := (hheight _ _).mp hnew
          exact ⟨_, rfl, hvotes⟩

theorem rejectRequest_eq_unset :
    (rejectRequest ctx env tx n).1 = .error unsetPointer ↔
      (∃ lock, n.mapTxLocks.lookup (ctx.hashTx tx) = some lock ∧
        INSTANTX_SIGNATURES_REQUIRED ≤ lock.CountSignatures) ∧
      conflictingLock n (ctx.hashTx tx) tx.vin = none := by
  unfold rejectRequest
  rw [modify_bind, modify_bind, get_bind]
  generalize hm : Node.lockInputs _ (ctx.hashTx tx) tx.vin = m
  have hlocks : m.mapTxLocks = n.mapTxLocks := by
    rw [← hm]
    rfl
  have hconf : conflictingLock m (ctx.hashTx tx) tx.vin
      = conflictingLock n (ctx.hashTx tx) tx.vin := by
    rw [← hm, conflictingLock_lockInputs]
    rfl
  rw [hlocks]
  rcases hlock : n.mapTxLocks.lookup (ctx.hashTx tx) with _ | lock
  · simp [unsetPointer]
  dsimp only
  by_cases hvotes : INSTANTX_SIGNATURES_REQUIRED ≤ lock.CountSignatures
  · rw [if_pos hvotes]
    obtain ⟨n', hchk, -⟩ := @checkForConflictingLocks_eq ctx env tx m
    rw [bind_of_ok hchk, hconf]
    rcases hfound : conflictingLock n (ctx.hashTx tx) tx.vin with _ | other
    · simp [hvotes, unsetPointer, disconnectNothing]
    · simp [unsetPointer]
  · rw [if_neg hvotes]
    simp [hvotes, unsetPointer]

/-- What `acceptRequest` makes of the answer of the memory pool. -/
def requestAnswer : Except Failure Unit → Except Failure Bool
  | .ok () => .ok true
  | .error (.crash msg) => .error (.crash msg)
  | .error _ => .ok false

/-- A request reads the unset pointer exactly when it is refused and has a complete lock. -/
theorem processRequest_eq_unset :
    (processRequest ctx env tx n).1 = .error unsetPointer ↔
      RequestRefusedComplete ctx n env tx := by
  unfold processRequest
  rw [get_bind]
  by_cases hfresh : n.mapTxLockReq (ctx.hashTx tx) = none ∧
      n.mapTxLockReqRejected (ctx.hashTx tx) = none
  swap
  · rw [check_bind_of_not hfresh]
    exact ⟨by simp [unsetPointer], fun h => absurd h.reaches.fresh hfresh⟩
  rw [check_bind_of hfresh]
  by_cases hvalid : IsIXTXValid ctx env n.chain tx = true
  swap
  · rw [check_bind_of_not hvalid]
    exact ⟨by simp [unsetPointer], fun h => absurd h.reaches.valid hvalid⟩
  rw [check_bind_of hvalid]
  by_cases hscripts : ∀ o ∈ tx.vout, IsNormalPaymentScript o.scriptPubKey ∨
      IsUnspendable o.scriptPubKey
  swap
  · rw [check_bind_of_not hscripts]
    exact ⟨by simp [unsetPointer], fun h => absurd h.reaches.scripts hscripts⟩
  rw [check_bind_of hscripts]
  rcases @createNewLock_cases ctx env tx n with ⟨e, he, hcreate, hno⟩ | ⟨height, m, hcreate, hchain,
    hcomp⟩
  · rw [bind_apply, hcreate]
    constructor
    · intro h
      cases h
      simp [InputFailure, Failure.text, inputTexts, unsetPointer] at he
    · intro h
      obtain ⟨lock, nBlockHeight, -, hheight, -⟩ := h.complete
      exact absurd hheight (hno _ _)
  rw [bind_of_ok hcreate]
  have hpool := @failsWith_acceptToMemoryPool ctx env tx n.chain
  have hacc : acceptRequest ctx env tx m =
      (requestAnswer (AcceptToMemoryPool ctx env.toEnv tx true false false n.chain).1,
        { m with chain := (AcceptToMemoryPool ctx env.toEnv tx true false false n.chain).2 }) := by
    unfold acceptRequest Action.handle
    rw [bind_apply]
    unfold onChain
    rw [hchain]
    rcases AcceptToMemoryPool ctx env.toEnv tx true false false n.chain with ⟨e | ⟨⟩, chain⟩
    · rcases e with ⟨nDoS, msg⟩ | msg <;> rfl
    · rfl
  have hlocked := keeps_acceptToMemoryPool ctx env.toEnv tx true false false n.chain
  rw [bind_apply, hacc]
  rcases hrun : AcceptToMemoryPool ctx env.toEnv tx true false false n.chain with ⟨e | ⟨⟩, chain⟩
  · rw [hrun] at hpool hlocked
    rcases e with ⟨nDoS, msg⟩ | msg
    · dsimp only [requestAnswer]
      rw [if_neg Bool.false_ne_true, rejectRequest_eq_unset]
      have hconf : conflictingLock { m with chain := chain } = conflictingLock n := by
        funext k vin
        unfold conflictingLock
        change vin.findSome? (fun txin => (chain.mapLockedInputs txin.prevout).filter _) = _
        rw [hlocked]
      rw [hconf]
      constructor
      · rintro ⟨hlock, hfree⟩
        exact ⟨⟨hfresh, hvalid, hscripts⟩, hcomp.mp hlock, ⟨nDoS, msg, by rw [hrun]⟩, hfree⟩
      · intro h
        exact ⟨hcomp.mpr h.complete, h.free⟩
    · constructor
      · intro h
        exact absurd (Except.error.inj h) (hpool _ rfl)
      · intro h
        obtain ⟨nDoS, msg', href⟩ := h.refused
        rw [hrun] at href
        simp at href
  · dsimp only [requestAnswer]
    rw [if_pos rfl]
    constructor
    · intro h
      have hvote : ∀ k, ∃ k', DoConsensusVote ctx env tx height k = (.ok (), k') := by
        intro k
        unfold DoConsensusVote
        rcases ownVote env (ctx.hashTx tx) height with _ | vote
        · exact ⟨k, rfl⟩
        · exact ⟨_, rfl⟩
      obtain ⟨k', hk'⟩ := hvote { m with chain := chain }
      rw [bind_of_ok hk'] at h
      simp [unsetPointer] at h
    · intro h
      obtain ⟨nDoS, msg, href⟩ := h.refused
      rw [hrun] at href
      simp at href

theorem processMessage_eq_unset {message : Message} :
    (ProcessMessageInstantX ctx env message n).1 = .error unsetPointer ↔
      Disconnects ctx n env message := by
  unfold Disconnects
  by_cases hlis : Listens env
  · rw [processMessage_of_listens hlis]
    cases message with
    | txlreq tx => simp [hlis, processRequest_eq_unset]
    | txlvote vote => simp [hlis, processVote_eq_unset]
  · have hfails : ∃ msg, (ProcessMessageInstantX ctx env message n).1 = .error (.error msg) := by
      unfold ProcessMessageInstantX
      by_cases hlite : env.fLiteMode = false
      · rw [check_bind_of hlite]
        by_cases hact : env.fInstantX = true
        · rw [check_bind_of hact]
          by_cases hsynced : env.fBlockchainSynced = true
          · exact absurd ⟨hlite, hact, hsynced⟩ hlis
          · exact ⟨_, by rw [check_bind_of_not hsynced]⟩
        · exact ⟨_, by rw [check_bind_of_not hact]⟩
      · exact ⟨_, by rw [check_bind_of_not hlite]⟩
    obtain ⟨msg, hmsg⟩ := hfails
    rw [hmsg]
    simp [hlis, unsetPointer]

end

def PointersSet (ctx : Context) (allowed : Node → IxEnv → Message → Prop) : Prop :=
  ∀ n log env message, Run ctx allowed n log → allowed n env message →
    (ProcessMessageInstantX ctx env message n).1 ≠ .error unsetPointer

/-- No message uses a pointer that is not set, along the runs whose messages are allowed, exactly when
no allowed message makes a node disconnect a block for a lock. -/
theorem pointersSet_iff (ctx : Context) (allowed : Node → IxEnv → Message → Prop) :
    PointersSet ctx allowed ↔ ∀ n log env message, Run ctx allowed n log → allowed n env message →
      ¬Disconnects ctx n env message := by
  constructor
  · intro h n log env message hrun hallowed
    have hset := h n log env message hrun hallowed
    rwa [Ne, processMessage_eq_unset] at hset
  · intro h n log env message hrun hallowed
    rw [Ne, processMessage_eq_unset]
    exact h n log env message hrun hallowed

/-- Two votes for a transaction that was refused make the node use the pointer. -/
theorem refused_then_complete : ¬∀ ctx : Context, PointersSet ctx fun _ _ _ => True := by
  intro h
  have hstart : Run (chainedContext true) (fun _ _ _ => True) requestNode [] :=
    Run.start rfl rfl rfl rfl rfl
  have hpooled : Run (chainedContext true) (fun _ _ _ => True) pooledNode [] :=
    Run.elsewhere hstart (keeps_acceptToMemoryPool _ _ _ _ _ _ requestNode.chain)
  have hasked := @Run.after _ _ _ hpooled (.txlreq (requestTx 11)) trivial
  have hone := @Run.after _ _ _ hasked (.txlvote (requestVote 1)) trivial
  have hunset : (ProcessMessageInstantX (chainedContext true) requestEnv (.txlvote (requestVote 2))
      ((pooledNode.after (.txlreq (requestTx 11))).after (.txlvote (requestVote 1)))).1
      = .error unsetPointer := by decide
  exact h _ _ _ requestEnv (.txlvote (requestVote 2)) hone trivial hunset

end ZalemCoin.InstantX
