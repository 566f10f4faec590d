import ZalemCoin.Chain.AcceptableInputs
import ZalemCoin.Script.Standard

/-!
# Transaction locks

A request `txlreq` asks the masternodes to lock the inputs of a transaction, and a message `txlvote`
is the vote of one of them. A node counts the votes that it has received, and locks the inputs of a
transaction that it knows when there are enough. The memory pool and the blocks may not spend a locked
input with another transaction. Old locks are removed from time to time.
-/

namespace ZalemCoin.InstantX

open Lib Chain Script

/-- The number of votes that complete a lock, and the number of masternodes that may vote. -/
def INSTANTX_SIGNATURES_REQUIRED : ℤ := 2
def INSTANTX_SIGNATURES_TOTAL : ℤ := 4

/-- The vote of a masternode for a transaction. -/
structure CConsensusVote where
  vinFloatingcity : CTxIn
  txHash : UInt256
  nBlockHeight : ℤ
  vchFloatingCitySignature : List UInt8
deriving DecidableEq

def CConsensusVote.GetHash (vote : CConsensusVote) : UInt256 :=
  vote.vinFloatingcity.prevout.hash
    + BitVec.ofNat 256 vote.vinFloatingcity.prevout.n.toNat + vote.txHash

structure CTransactionLock where
  nBlockHeight : ℤ
  txHash : UInt256
  vecConsensusVotes : List CConsensusVote
  nExpiration : ℤ
deriving DecidableEq

namespace CTransactionLock

def AddSignature (lock : CTransactionLock) (cv : CConsensusVote) : CTransactionLock :=
  { lock with vecConsensusVotes := lock.vecConsensusVotes ++ [cv] }

def counted (lock : CTransactionLock) : List CConsensusVote :=
  lock.vecConsensusVotes.filter fun vote => vote.nBlockHeight == lock.nBlockHeight

/-- The number of votes that count, and minus one while the height is not known. -/
def CountSignatures (lock : CTransactionLock) : ℤ :=
  if lock.nBlockHeight = 0 then -1 else lock.counted.length

end CTransactionLock

/-- What a node reads from outside while it processes a message. -/
structure IxEnv extends Chain.Env where
  fLiteMode : Bool
  /-- Whether the spork `SPORK_2_INSTANTX` is active. -/
  fInstantX : Bool
  /-- The value of the spork `SPORK_5_MAX_VALUE`. -/
  nMaxValue : ℤ
  /-- `IsBlockchainSynced()`. -/
  fBlockchainSynced : Bool
  /-- The keys of the block index, in their order. -/
  blocks : List UInt256
  /-- The rank of a masternode in the node's list for a height, and minus one for an unknown one. -/
  GetFloatingcityRank : CTxIn → ℤ → ℤ
  /-- Whether a vote is signed with the key of its masternode in the node's list. -/
  SignatureValid : CConsensusVote → Bool
  /-- Whether the node is a masternode. -/
  fFloatingCity : Bool
  /-- The input that claims the collateral of the node, if it is a masternode. -/
  activeVin : CTxIn
  /-- The signature that the node makes for a transaction and a height. -/
  Sign : UInt256 → ℤ → Option (List UInt8)

/-- A node that keeps transaction locks. -/
structure Node where
  chain : NodeState
  mapTxLockReq : UInt256 → Option CTransaction
  mapTxLockReqRejected : UInt256 → Option CTransaction
  mapTxLockVote : UInt256 → Option CConsensusVote
  mapTxLocks : AList fun _ : UInt256 => CTransactionLock

/-- The messages that concern locks. -/
inductive Message
  | txlreq (tx : CTransaction)
  | txlvote (vote : CConsensusVote)
deriving DecidableEq

/-! ## Requests -/

/-- The loop over the operations of a script that pays to a key, with the number of operations that
it has seen. -/
def normalPaymentLoop : ℕ → ℕ → CScript → Bool
  | _, _, [] => true
  | 0, _, _ => true
  | fuel + 1, i, byte :: script =>
    let op := GetOp byte script
    let opcode := op.opcode.getD OP_INVALIDOPCODE
    if (i = 0 ∧ opcode ≠ OP_DUP) ∨ (i = 1 ∧ opcode ≠ OP_HASH160) ∨
        (i = 3 ∧ opcode ≠ OP_EQUALVERIFY) ∨ (i = 4 ∧ opcode ≠ OP_CHECKSIG) ∨ i = 5 then false
    else normalPaymentLoop fuel (i + 1) op.rest

def IsNormalPaymentScript (script : CScript) : Bool :=
  script.length == 25 && normalPaymentLoop script.length 0 script

/-- Whether a script can never be satisfied. -/
def IsUnspendable (script : CScript) : Bool := script.head? == some OP_RETURN

variable (ctx : Context)

/-- Whether a transaction may be locked: it is final, not worth too much, and pays enough fees as far
as its inputs are known. -/
def IsIXTXValid (env : IxEnv) (s : NodeState) (txCollateral : CTransaction) : Bool :=
  let nValueOut := txCollateral.vout.foldl (fun n o => wrap64 (n + o.nValue)) 0
  let found := txCollateral.vin.map fun i =>
    (GetTransaction ctx s env.blocks i.prevout.hash).map fun tx2 =>
      ((tx2.1.vout[i.prevout.n.toNat]?).map CTxOut.nValue).getD 0
  let nValueIn := found.foldl (fun n value => wrap64 (n + value.getD 0)) 0
  if txCollateral.vout = [] ∨ txCollateral.nLockTime ≠ 0 then false
  else if wrap64 (env.nMaxValue * COIN) < nValueOut then false
  else if none ∈ found then true
  else decide (CENT ≤ wrap64 (nValueIn - nValueOut))

/-- The ages of the inputs of a transaction, from the last one to the first one, up to one that is
too new. The result is the age of the first input. -/
def inputAge (ctx : Context) (env : IxEnv) (s : NodeState) (nTxAge : ℤ) :
    List CTxIn → Except Failure (Option ℤ)
  | [] => .ok (some nTxAge)
  | i :: vin => do
    let nTxAge ← GetInputAge ctx s env.blocks i
    if nTxAge < 9 then pure none else inputAge ctx env s nTxAge vin

def Node.setLock (n : Node) (hash : UInt256) (lock : CTransactionLock) : Node :=
  { n with mapTxLocks := n.mapTxLocks.insert hash lock }

/-- Starts the lock of a transaction, or gives it its height. The height is zero when the inputs are
too new. -/
def CreateNewLock (env : IxEnv) (tx : CTransaction) : Action Node Failure ℤ := do
  let age ← Action.reading fun n => inputAge ctx env n.chain 0 tx.vin.reverse
  match age with
  | none => pure 0
  | some nTxAge => do
    let best ← Action.reading fun n => n.chain.index n.chain.pindexBest
    let nBlockHeight := (best.nHeight : ℤ) - nTxAge + 4
    Action.modify fun n =>
      match n.mapTxLocks.lookup (ctx.hashTx tx) with
      | none => n.setLock (ctx.hashTx tx) ⟨nBlockHeight, ctx.hashTx tx, [], env.time + 20 * 60⟩
      | some lock => n.setLock (ctx.hashTx tx) { lock with nBlockHeight := nBlockHeight }
    pure nBlockHeight

def ownVote (env : IxEnv) (txHash : UInt256) (nBlockHeight : ℤ) : Option CConsensusVote :=
  let rank := env.GetFloatingcityRank env.activeVin nBlockHeight
  if env.fFloatingCity = false ∨ rank = -1 ∨ INSTANTX_SIGNATURES_TOTAL < rank then none
  else
    ((env.Sign txHash nBlockHeight).map fun sig => ⟨env.activeVin, txHash, nBlockHeight, sig⟩).filter
      env.SignatureValid

def DoConsensusVote (env : IxEnv) (tx : CTransaction) (nBlockHeight : ℤ) :
    Action Node Failure Unit :=
  match ownVote env (ctx.hashTx tx) nBlockHeight with
  | none => pure ()
  | some vote =>
    Action.modify fun n =>
      { n with mapTxLockVote := Function.update n.mapTxLockVote vote.GetHash (some vote) }

/-- Ends a lock now. -/
def Node.expire (n : Node) (time : ℤ) (hash : UInt256) : Node :=
  match n.mapTxLocks.lookup hash with
  | none => n
  | some lock => n.setLock hash { lock with nExpiration := time }

def conflictingLock (n : Node) (hash : UInt256) (vin : List CTxIn) : Option UInt256 :=
  vin.findSome? fun txin => (n.chain.mapLockedInputs txin.prevout).filter fun h => h ≠ hash

def CheckForConflictingLocks (env : IxEnv) (tx : CTransaction) :
    Action Node Failure Bool := fun n =>
  match conflictingLock n (ctx.hashTx tx) tx.vin with
  | none => (.ok false, n)
  | some other => (.ok true, (n.expire env.time (ctx.hashTx tx)).expire env.time other)

def lockInput (hash : UInt256) (locked : COutPoint → Option UInt256) (txin : CTxIn) :
    COutPoint → Option UInt256 :=
  match locked txin.prevout with
  | none => Function.update locked txin.prevout (some hash)
  | some _ => locked

def Node.lockInputs (n : Node) (hash : UInt256) (vin : List CTxIn) : Node :=
  { n with
    chain :=
      { n.chain with mapLockedInputs := vin.foldl (lockInput hash) n.chain.mapLockedInputs } }

/-- `DisconnectBlock` of an empty block with an index pointer that has not been set. -/
def disconnectNothing : Action Node Failure Unit := Action.fail (.crash "pindex is not set")

def onChain {α : Type} (x : NodeM α) : Action Node Failure α := fun n =>
  ((x n.chain).1, { n with chain := (x n.chain).2 })

/-- Whether the memory pool takes a transaction. -/
def acceptRequest (env : IxEnv) (tx : CTransaction) : Action Node Failure Bool :=
  Action.handle
    (do
      onChain (AcceptToMemoryPool ctx env.toEnv tx true false false)
      pure true)
    fun e =>
      match e with
      | .crash msg => Action.fail (.crash msg)
      | _ => pure false

/-- What happens to a request that the memory pool does not take. -/
def rejectRequest (env : IxEnv) (tx : CTransaction) : Action Node Failure Unit := do
  Action.modify fun n =>
    { n with
      mapTxLockReqRejected := Function.update n.mapTxLockReqRejected (ctx.hashTx tx) (some tx) }
  Action.modify fun n => n.lockInputs (ctx.hashTx tx) tx.vin
  let n ← Action.get
  match n.mapTxLocks.lookup (ctx.hashTx tx) with
  | none => pure ()
  | some lock =>
    if INSTANTX_SIGNATURES_REQUIRED ≤ lock.CountSignatures then do
      let conflict ← CheckForConflictingLocks ctx env tx
      if conflict then pure () else disconnectNothing
    else pure ()

def processRequest (env : IxEnv) (tx : CTransaction) : Action Node Failure Unit := do
  let n ← Action.get
  Action.check (n.mapTxLockReq (ctx.hashTx tx) = none ∧ n.mapTxLockReqRejected (ctx.hashTx tx) = none)
    (.error "the request is known")
  Action.check (IsIXTXValid ctx env n.chain tx) (.error "IsIXTXValid")
  Action.check (∀ o ∈ tx.vout, IsNormalPaymentScript o.scriptPubKey ∨ IsUnspendable o.scriptPubKey)
    (.error "ProcessMessageInstantX::txlreq - Invalid Script")
  let nBlockHeight ← CreateNewLock ctx env tx
  let fAccepted ← acceptRequest ctx env tx
  if fAccepted then do
    DoConsensusVote ctx env tx nBlockHeight
    Action.modify fun n =>
      { n with mapTxLockReq := Function.update n.mapTxLockReq (ctx.hashTx tx) (some tx) }
  else rejectRequest ctx env tx

/-! ## Votes -/

/-- The transaction without inputs and outputs that a map creates for a key that it does not have. -/
def CTransaction.empty (env : IxEnv) : CTransaction where
  nVersion := 1
  nTime := UInt32.ofNat env.adjustedTime.toNat
  vin := []
  vout := []
  nLockTime := 0

/-- What happens when a vote completes a lock: the inputs of the transaction are locked, unless one of
them is locked for another transaction. Looking up a request creates it when there is none. -/
def completeLock (env : IxEnv) (txHash : UInt256) : Action Node Failure Unit := do
  let n ← Action.get
  let tx := (n.mapTxLockReq txHash).getD (CTransaction.empty env)
  Action.modify fun n => { n with mapTxLockReq := Function.update n.mapTxLockReq txHash (some tx) }
  let conflict ← CheckForConflictingLocks ctx env tx
  if conflict then pure ()
  else do
    Action.modify fun n => n.lockInputs txHash tx.vin
    let n ← Action.get
    match n.mapTxLockReqRejected txHash with
    | none => pure ()
    | some _ => disconnectNothing

def ProcessConsensusVote (ctx : Context) (env : IxEnv) (vote : CConsensusVote) :
    Action Node Failure Unit := do
  let rank := env.GetFloatingcityRank vote.vinFloatingcity vote.nBlockHeight
  Action.check (rank ≠ -1) (.error "InstantX::ProcessConsensusVote - Unknown Floatingcity")
  Action.check (rank ≤ INSTANTX_SIGNATURES_TOTAL)
    (.error "InstantX::ProcessConsensusVote - Floatingcity not in the top 4")
  Action.check (env.SignatureValid vote)
    (.error "InstantX::ProcessConsensusVote - Signature invalid")
  let n ← Action.get
  let lock := (n.mapTxLocks.lookup vote.txHash).getD ⟨0, vote.txHash, [], env.time + 20 * 60⟩
  let lock := lock.AddSignature vote
  Action.modify fun n => n.setLock vote.txHash lock
  if INSTANTX_SIGNATURES_REQUIRED ≤ lock.CountSignatures then completeLock ctx env vote.txHash
  else pure ()

def processVote (env : IxEnv) (vote : CConsensusVote) : Action Node Failure Unit := do
  let n ← Action.get
  Action.check (n.mapTxLockVote vote.GetHash = none) (.error "the vote is known")
  Action.modify fun n =>
    { n with mapTxLockVote := Function.update n.mapTxLockVote vote.GetHash (some vote) }
  ProcessConsensusVote ctx env vote

def ProcessMessageInstantX (env : IxEnv) (message : Message) :
    Action Node Failure Unit := do
  Action.check (env.fLiteMode = false) (.error "fLiteMode")
  Action.check env.fInstantX (.error "SPORK_2_INSTANTX is not active")
  Action.check env.fBlockchainSynced (.error "the chain is not synchronised")
  match message with
  | .txlreq tx => processRequest ctx env tx
  | .txlvote vote => processVote ctx env vote

/-! ## Removing locks -/

/-- Removes the lock of a transaction when it has expired. With a request, the inputs of its
transaction are no longer locked. -/
def cleanLock (env : IxEnv) (n : Node) (hash : UInt256) : Node :=
  match n.mapTxLocks.lookup hash with
  | none => n
  | some lock =>
    if env.time ≤ lock.nExpiration then n
    else
      match n.mapTxLockReq lock.txHash with
      | none => { n with mapTxLocks := n.mapTxLocks.erase hash }
      | some tx =>
        { chain :=
            { n.chain with
              mapLockedInputs := tx.vin.foldl
                (fun locked txin => Function.update locked txin.prevout none)
                n.chain.mapLockedInputs }
          mapTxLockReq := Function.update n.mapTxLockReq lock.txHash none
          mapTxLockReqRejected := Function.update n.mapTxLockReqRejected lock.txHash none
          mapTxLockVote := lock.vecConsensusVotes.foldl
            (fun votes vote => Function.update votes vote.GetHash none) n.mapTxLockVote
          mapTxLocks := n.mapTxLocks.erase hash }

def CleanTransactionLocksList (env : IxEnv) (n : Node) : Node :=
  if n.chain.pindexBest = none then n else n.mapTxLocks.keys.foldl (cleanLock env) n

end ZalemCoin.InstantX
