import ZalemCoin.Chain.ConnectBlock
import ZalemCoin.Chain.Mempool

/-!
# The best chain

`AddToBlockIndex` makes an entry for a block and, when its chain has more trust than the best one,
calls `SetBestChain`. There are three ways to move to the new chain: to start it with the genesis
block, to add one block to the best chain, and to switch to another branch. The last one connects
only as many blocks in one transaction of the database as it takes to get ahead of the old branch,
and postpones the others; the globals are set afterwards.
-/

namespace ZalemCoin.Chain

open Lib

/-- A failure that a caller reports under its own message. What stops the process stays what it
is. -/
def Failure.reportedAs (msg : String) : Failure → Failure
  | .crash m => .crash m
  | .reject _ _ => .error msg

def reportAs {α : Type} (msg : String) (x : NodeM α) : NodeM α :=
  Action.handle x fun e => Action.fail (e.reportedAs msg)

/-- Whether an action succeeds. What stops the process is passed on. -/
def attempt (x : NodeM Unit) : NodeM Bool :=
  Action.handle (x >>= fun _ => pure true) fun e =>
    match e with
    | .crash m => Action.fail (.crash m)
    | .reject _ _ => pure false

/-- Opens a transaction of the database. -/
def TxnBegin : NodeM Unit := fun s =>
  match s.txdb.txnBegin with
  | some txdb => (.ok (), { s with txdb := txdb })
  | none => (.error (.crash "assert(!activeBatch)"), s)

def TxnCommit : NodeM Unit := fun s =>
  match s.txdb.txnCommit with
  | some txdb => (.ok (), { s with txdb := txdb })
  | none => (.error (.crash "assert(activeBatch)"), s)

/-- Drops the transaction of the database. -/
def TxnAbort : NodeM Unit := Action.modify fun s => { s with txdb := s.txdb.txnAbort }

def WriteHashBestChain (hash : UInt256) : NodeM Unit :=
  Action.modify fun s => { s with txdb := s.txdb.write .hashBestChain hash }

def readBlockTrust (i : CBlockIndex) : NodeM Unit := do
  let _ ← Action.reading fun s => s.index i.pprev
  pure ()

def InvalidChainFound (pindexNew : UInt256) : NodeM Unit := do
  let i ← Action.reading fun s => s.index (some pindexNew)
  Action.modify fun s =>
    if s.nBestInvalidTrust < i.nChainTrust then
      { s with
        nBestInvalidTrust := i.nChainTrust
        txdb := s.txdb.write .bnBestInvalidTrust i.nChainTrust }
    else s
  readBlockTrust i
  let best ← Action.reading fun s => s.index s.pindexBest
  if best.nHeight ≠ 0 then readBlockTrust best else pure ()

def setNext (pindex : Option UInt256) (pnext : Option UInt256) : NodeM Unit := do
  let i ← Action.reading fun s => s.index pindex
  Action.modify fun s =>
    match pindex with
    | some p => s.setIndex p { i with pnext := pnext }
    | none => s

/-- Sets the link of the entry before a block, if there is one. -/
def linkPrev (pnext : UInt256 → Option UInt256) (pindex : UInt256) : NodeM Unit := do
  let i ← Action.reading fun s => s.index (some pindex)
  match i.pprev with
  | none => pure ()
  | some p => setNext (some p) (pnext pindex)

/-- The first block of a chain down to a height: the inner loop of the search for the fork. -/
def descend (s : NodeState) (nHeight : ℕ) : ℕ → UInt256 → Except Failure UInt256
  | 0, _ => .error (.crash "Reorganize does not return")
  | fuel + 1, plonger => do
    let i ← s.index (some plonger)
    if nHeight < i.nHeight then
      match i.pprev with
      | none => .error (.error "Reorganize() : plonger->pprev is null")
      | some p => descend s nHeight fuel p
    else pure plonger

/-- The search for the last common block of two chains. -/
def findFork (s : NodeState) : ℕ → UInt256 → UInt256 → Except Failure UInt256
  | 0, _, _ => .error (.crash "Reorganize does not return")
  | fuel + 1, pfork, plonger =>
    if pfork = plonger then .ok pfork
    else do
      let i ← s.index (some pfork)
      let longer ← s.index (some plonger)
      let plonger ← descend s i.nHeight (longer.nHeight + 1) plonger
      if pfork = plonger then pure pfork
      else
        match i.pprev with
        | none => .error (.error "Reorganize() : pfork->pprev is null")
        | some p => findFork s fuel p plonger

def blocksUntil (s : NodeState) (pfork : UInt256) : ℕ → UInt256 → Except Failure (List UInt256)
  | 0, _ => .error (.crash "Reorganize does not return")
  | fuel + 1, p =>
    if p = pfork then .ok []
    else do
      let i ← s.index (some p)
      match i.pprev with
      | none => .error (.crash "null pointer")
      | some q => do
        let rest ← blocksUntil s pfork fuel q
        pure (p :: rest)

/-- What a switch to another branch disconnects and connects, both from the tip down to the
fork. -/
structure Switch where
  vDisconnect : List UInt256
  vConnect : List UInt256

def findSwitch (s : NodeState) (pindexNew : UInt256) : Except Failure Switch := do
  let best ← s.index s.pindexBest
  let new ← s.index (some pindexNew)
  let pindexBest := s.pindexBest.getD 0
  let pfork ← findFork s (best.nHeight + 1) pindexBest pindexNew
  let vDisconnect ← blocksUntil s pfork (best.nHeight + 1) pindexBest
  let vConnect ← blocksUntil s pfork (new.nHeight + 1) pindexNew
  pure ⟨vDisconnect, vConnect⟩

variable (ctx : Context)

/-- The transactions of a disconnected block that may go back to the memory pool. -/
def resurrected (i : CBlockIndex) (block : CBlock) : List CTransaction :=
  block.vtx.filter fun tx =>
    !(tx.IsCoinBase || tx.IsCoinStake) && decide (GetTotalBlocksEstimate ctx < i.nHeight)

/-- Disconnects blocks, and collects the transactions that may go back to the memory pool. -/
def disconnectBranch (ctx : Context) :
    List UInt256 → List CTransaction → NodeM (List CTransaction)
  | [], vResurrect => pure vResurrect
  | pindex :: rest, vResurrect => do
    let i ← Action.reading fun s => s.index (some pindex)
    let block ← reportAs "Reorganize() : ReadFromDisk for disconnect failed"
      (Action.reading fun _ => ReadFromDisk ctx pindex i)
    reportAs "Reorganize() : DisconnectBlock failed" (DisconnectBlock ctx block pindex)
    disconnectBranch ctx rest (resurrected ctx i block ++ vResurrect)

def connectBranch (ctx : Context) (env : Env) :
    List UInt256 → List CTransaction → NodeM (List CTransaction)
  | [], vDelete => pure vDelete
  | pindex :: rest, vDelete => do
    let i ← Action.reading fun s => s.index (some pindex)
    let block ← reportAs "Reorganize() : ReadFromDisk for connect failed"
      (Action.reading fun _ => ReadFromDisk ctx pindex i)
    let _ ← reportAs "Reorganize() : ConnectBlock failed" (ConnectBlock ctx env block pindex false)
    connectBranch ctx env rest (vDelete ++ block.vtx)

/-- Brings the memory pool up to date after a switch. Transactions that are not accepted again are
dropped. -/
def updateMempool (env : Env) (vResurrect vDelete : List CTransaction) :
    NodeM Unit := do
  vResurrect.forM fun tx => do
    let _ ← attempt (AcceptToMemoryPool ctx env tx false false false)
    pure ()
  Action.modify fun s =>
    { s with
      mempool := vDelete.foldl
        (fun pool tx => (pool.remove ctx tx false).removeConflicts ctx tx) s.mempool }

/-- What a switch has done before it is committed. -/
structure Switched extends Switch where
  vResurrect : List CTransaction
  vDelete : List CTransaction

/-- Disconnects the shorter branch and connects the longer one, in the open transaction of the
database. -/
def switchBlocks (env : Env) (pindexNew : UInt256) : NodeM Switched := do
  let switch ← Action.reading fun s => findSwitch s pindexNew
  let vResurrect ← disconnectBranch ctx switch.vDisconnect []
  let vDelete ← connectBranch ctx env switch.vConnect.reverse []
  WriteHashBestChain pindexNew
  pure ⟨switch, vResurrect, vDelete⟩

/-- Commits a switch, and brings the links and the memory pool up to date. -/
def finishSwitch (env : Env) (switched : Switched) : NodeM Unit := do
  TxnCommit
  switched.vDisconnect.forM (linkPrev fun _ => none)
  switched.vConnect.reverse.forM (linkPrev some)
  updateMempool ctx env switched.vResurrect switched.vDelete

/-- Switches to another branch. -/
def Reorganize (env : Env) (pindexNew : UInt256) : NodeM Unit := do
  let switched ← switchBlocks ctx env pindexNew
  finishSwitch ctx env switched

/-- Drops the transaction of the database after a failure, records that a chain is invalid, and
fails under a message. -/
def abandon (pindexNew : UInt256) (msg : String) : Failure → NodeM Unit
  | .crash m => Action.fail (.crash m)
  | .reject _ _ => do
    TxnAbort
    InvalidChainFound pindexNew
    Action.fail (.error msg)

def removeFromPool (block : CBlock) : NodeM Unit :=
  Action.modify fun s =>
    { s with mempool := block.vtx.foldl (fun pool tx => pool.remove ctx tx false) s.mempool }

/-- Connects a block and writes it as the best one, in the open transaction of the database. -/
def connectTip (env : Env) (block : CBlock) (pindexNew : UInt256) : NodeM Unit := do
  let _ ← ConnectBlock ctx env block pindexNew false
  WriteHashBestChain (ctx.GetHash block)

/-- Commits a block that has been connected, and brings the links and the memory pool up to
date. -/
def finishTip (block : CBlock) (pindexNew : UInt256) : NodeM Unit := do
  TxnCommit
  let i ← Action.reading fun s => s.index (some pindexNew)
  setNext i.pprev (some pindexNew)
  removeFromPool ctx block

def SetBestChainInner (ctx : Context) (env : Env) (block : CBlock) (pindexNew : UInt256) :
    NodeM Unit := do
  Action.handle (connectTip ctx env block pindexNew) (abandon pindexNew "SetBestChainInner")
  finishTip ctx block pindexNew

/-- The first block of the new chain that has more trust than the best chain, and the blocks after
it in the order in which they are connected. -/
def findIntermediate (s : NodeState) (nBestTrust : UInt256) :
    ℕ → UInt256 → List UInt256 → Except Failure (UInt256 × List UInt256)
  | 0, _, _ => .error (.crash "SetBestChain does not return")
  | fuel + 1, pindexIntermediate, vpindexSecondary => do
    let i ← s.index (some pindexIntermediate)
    match i.pprev with
    | none => pure (pindexIntermediate, vpindexSecondary)
    | some p => do
      let prev ← s.index (some p)
      if nBestTrust < prev.nChainTrust then
        findIntermediate s nBestTrust fuel p (pindexIntermediate :: vpindexSecondary)
      else pure (pindexIntermediate, vpindexSecondary)

/-- Where a switch to another branch ends, and which blocks it postpones. -/
def findPostponed (s : NodeState) (pindexNew : UInt256) :
    Except Failure (UInt256 × List UInt256) := do
  let best ← s.index s.pindexBest
  let new ← s.index (some pindexNew)
  findIntermediate s best.nChainTrust (new.nHeight + 1) pindexNew []

def connectSecondary (env : Env) (pindex : UInt256) : NodeM Unit := do
  let i ← Action.reading fun s => s.index (some pindex)
  let block ← Action.reading fun _ => ReadFromDisk ctx pindex i
  TxnBegin
  SetBestChainInner ctx env block pindex

/-- Connects the postponed blocks. A block that does not connect ends the loop, and is not reported
as a failure. -/
def connectPostponed (ctx : Context) (env : Env) : List UInt256 → NodeM Unit
  | [] => pure ()
  | pindex :: rest => do
    let connected ← attempt (connectSecondary ctx env pindex)
    if connected then connectPostponed ctx env rest else pure ()

/-- Switches to another branch, and connects its last blocks afterwards. -/
def switchBranch (env : Env) (pindexNew : UInt256) : NodeM Unit := do
  let target ← Action.reading fun s => findPostponed s pindexNew
  Action.handle (Reorganize ctx env target.1)
    (abandon pindexNew "SetBestChain() : Reorganize failed")
  connectPostponed ctx env target.2

def startChain (hash pindexNew : UInt256) : NodeM Unit := do
  WriteHashBestChain hash
  TxnCommit
  Action.modify fun s => { s with pindexGenesisBlock := some pindexNew }

/-- Moves the database and the links between the blocks to the chain of a block, in one of the
three ways. -/
def moveChain (env : Env) (block : CBlock) (pindexNew : UInt256) : NodeM Unit :=
  fun s =>
    (if s.pindexGenesisBlock = none ∧ ctx.GetHash block = ctx.hashGenesisBlock then
      startChain (ctx.GetHash block) pindexNew
    else if block.hashPrevBlock = s.hashBestChain then
      reportAs "SetBestChain() : SetBestChainInner failed"
        (SetBestChainInner ctx env block pindexNew)
    else switchBranch ctx env pindexNew) s

def setBestBlock (hash pindexNew : UInt256) : NodeM Unit := do
  let i ← Action.reading fun s => s.index (some pindexNew)
  Action.modify fun s =>
    { s with
      hashBestChain := hash
      pindexBest := some pindexNew
      pblockindexFBBHLast := none
      nBestHeight := i.nHeight
      nBestChainTrust := i.nChainTrust }
  if i.nHeight ≠ 0 then readBlockTrust i else pure ()

def SetBestChain (env : Env) (block : CBlock) (pindexNew : UInt256) :
    NodeM Unit := do
  TxnBegin
  moveChain ctx env block pindexNew
  Action.modify fun s => s.afterDownloadCheck ctx env
  setBestBlock (ctx.GetHash block) pindexNew

/-- The entry of a block at a position, before its place in the chain is known. -/
def CBlockIndex.of (nFile nBlockPos : UInt32) (block : CBlock) : CBlockIndex where
  pprev := none
  pnext := none
  nFile := nFile
  nBlockPos := nBlockPos
  nChainTrust := 0
  nHeight := 0
  nMint := 0
  nMoneySupply := 0
  fProofOfStake := block.IsProofOfStake
  fStakeEntropy := false
  fStakeModifier := false
  nStakeModifier := 0
  bnStakeModifierV2 := 0
  prevoutStake :=
    if block.IsProofOfStake then
      (((block.vtx[1]?).bind fun tx => tx.vin[0]?).map CTxIn.prevout).getD COutPoint.null
    else COutPoint.null
  nStakeTime :=
    if block.IsProofOfStake then ((block.vtx[1]?).map CTransaction.nTime).getD 0 else 0
  hashProof := 0
  nVersion := block.nVersion
  hashMerkleRoot := block.hashMerkleRoot
  nTime := block.nTime
  nBits := block.nBits
  nNonce := block.nNonce
  nSequenceId := 0

def stakeKernel (hash : UInt256) (block : CBlock) : UInt256 :=
  if block.IsProofOfWork then hash
  else (((block.vtx[1]?).bind fun tx => tx.vin[0]?).map fun txin => txin.prevout.hash).getD 0

/-- The entry of a block with its place in the chain and its stake modifiers. -/
def newBlockIndex (mapBlockIndex : UInt256 → Option CBlockIndex)
    (nFile nBlockPos : UInt32) (hashProof : UInt256) (nSequenceId : UInt32) (block : CBlock) :
    Except Failure CBlockIndex :=
  let hash := ctx.GetHash block
  let prev := mapBlockIndex block.hashPrevBlock
  let pprev := prev.map fun _ => block.hashPrevBlock
  let i := CBlockIndex.of nFile nBlockPos block
  match ctx.computeNextStakeModifier mapBlockIndex pprev with
  | none => .error (.error "AddToBlockIndex() : ComputeNextStakeModifier() failed")
  | some (nStakeModifier, fGeneratedStakeModifier) =>
    .ok
      { i with
        pprev := pprev
        nHeight := (prev.map fun j => j.nHeight + 1).getD 0
        nChainTrust := (prev.map CBlockIndex.nChainTrust).getD 0 + i.GetBlockTrust
        fStakeEntropy := hash.toNat % 2 = 1
        hashProof := hashProof
        nStakeModifier := nStakeModifier
        fStakeModifier := fGeneratedStakeModifier
        bnStakeModifierV2 :=
          match prev with
          | none => 0
          | some j => ctx.hashStakeModifier (stakeKernel hash block) j.bnStakeModifierV2
        nSequenceId := nSequenceId }

/-- Makes the entry of a block, in memory and in the database. -/
def indexBlock (nFile nBlockPos : UInt32) (hashProof : UInt256) (block : CBlock) :
    NodeM CBlockIndex := do
  let nSequenceId ← Action.reading fun s => do
    ensure (s.mapBlockIndex (ctx.GetHash block) = none)
      (.error "AddToBlockIndex() : already exists")
    pure s.nBlockSequenceId
  Action.modify fun s => { s with nBlockSequenceId := nSequenceId + 1 }
  let i ← Action.reading fun s =>
    newBlockIndex ctx s.mapBlockIndex nFile nBlockPos hashProof nSequenceId block
  Action.modify fun s => s.setIndex (ctx.GetHash block) i
  TxnBegin
  Action.modify fun s => { s with txdb := s.txdb.WriteBlockIndex ctx (CDiskBlockIndex.of i) }
  TxnCommit
  pure i

/-- Makes the entry of a block, and moves to its chain when that has more trust than the best
one. -/
def AddToBlockIndex (env : Env) (nFile nBlockPos : UInt32) (hashProof : UInt256)
    (block : CBlock) : NodeM Unit := do
  let i ← indexBlock ctx nFile nBlockPos hashProof block
  let nBestChainTrust ← Action.reading fun s => .ok s.nBestChainTrust
  if nBestChainTrust < i.nChainTrust then SetBestChain ctx env block (ctx.GetHash block)
  else pure ()

end ZalemCoin.Chain
