import ZalemCoin.Chain.BlockSize
import ZalemCoin.Chain.CheckBlock
import ZalemCoin.Chain.ConnectInputs

/-!
# Connecting and disconnecting a block

`ConnectBlock` collects the changes of the transaction index in a map while it goes through the
transactions, checks what the block pays itself, and only then writes: the mint and the supply of
the block, the collected changes, and the link of the previous block. `DisconnectBlock` works on
the index directly, in reverse order.
-/

namespace ZalemCoin.Chain

open Lib

/-- The depth from which on a coin counts for the coin age. -/
def nStakeMinConfirmations : ℕ := 30

/-- What the loop of `ConnectBlock` over the transactions carries. -/
structure ConnectAcc where
  mapQueuedChanges : TestPool
  nFees : ℤ
  nValueIn : ℤ
  nValueOut : ℤ
  nStakeReward : ℤ
  nSigOps : ℕ
  nTxPos : UInt32
  /-- The script evaluations so far. -/
  sigLog : List SigCheck

def ConnectAcc.start (block : CBlock) (pindex : CBlockIndex) (fJustCheck : Bool) : ConnectAcc where
  mapQueuedChanges := ∅
  nFees := 0
  nValueIn := 0
  nValueOut := 0
  nStakeReward := 0
  nSigOps := 0
  nTxPos := if fJustCheck then 1 else txPosition pindex.nBlockPos block.vtx 0
  sigLog := []

def CheckMode.block : CheckMode := ⟨true, false⟩

variable (ctx : Context)

/-- What a transaction other than the coinbase adds to the sums of its block, with its inputs
spent. -/
def connectSpending (env : Env) (s : NodeState) (pindex : CBlockIndex)
    (posThisTx : CDiskTxPos) (acc : ConnectAcc) (tx : CTransaction) :
    Except Failure ConnectAcc := do
  let mapInputs ← FetchInputs ctx s acc.mapQueuedChanges .block tx
  let nP2SH ← GetP2SHSigOpCount mapInputs tx
  let nSigOps := acc.nSigOps + nP2SH
  ensure (nSigOps ≤ s.MAX_BLOCK_SIGOPS) (.reject 100 "ConnectBlock() : too many sigops")
  let nTxValueIn ← GetValueIn mapInputs tx
  let nTxValueOut ← tx.GetValueOut
  let spent ← ConnectInputs ctx env s tx mapInputs acc.mapQueuedChanges posThisTx (some pindex)
    .block SCRIPT_VERIFY_NOCACHE
  pure
    { acc with
      mapQueuedChanges := spent.1
      nValueIn := wrap64 (acc.nValueIn + nTxValueIn)
      nValueOut := wrap64 (acc.nValueOut + nTxValueOut)
      nFees :=
        if tx.IsCoinStake then acc.nFees else wrap64 (acc.nFees + wrap64 (nTxValueIn - nTxValueOut))
      nStakeReward :=
        if tx.IsCoinStake then wrap64 (nTxValueOut - nTxValueIn) else acc.nStakeReward
      nSigOps := nSigOps
      sigLog := acc.sigLog ++ spent.2 }

/-- What the coinbase adds to the sums of its block. -/
def connectCoinBase (acc : ConnectAcc) (tx : CTransaction) : Except Failure ConnectAcc := do
  let nTxValueOut ← tx.GetValueOut
  pure { acc with nValueOut := wrap64 (acc.nValueOut + nTxValueOut) }

/-- One step of the loop of `ConnectBlock` over the transactions. -/
def connectTransaction (env : Env) (s : NodeState) (pindex : CBlockIndex)
    (fJustCheck : Bool) (acc : ConnectAcc) (tx : CTransaction) : Except Failure ConnectAcc := do
  let nSigOps := acc.nSigOps + GetLegacySigOpCount tx
  ensure (nSigOps ≤ s.MAX_BLOCK_SIGOPS) (.reject 100 "ConnectBlock() : too many sigops")
  let posThisTx := CDiskTxPos.of pindex.nFile pindex.nBlockPos acc.nTxPos
  let nTxPos :=
    if fJustCheck then acc.nTxPos else acc.nTxPos + UInt32.ofNat tx.GetSerializeSize
  let counted := { acc with nSigOps := nSigOps, nTxPos := nTxPos }
  let summed ← cond tx.IsCoinBase (connectCoinBase counted tx)
    (connectSpending ctx env s pindex posThisTx counted tx)
  pure
    { summed with
      mapQueuedChanges :=
        summed.mapQueuedChanges.insert (ctx.hashTx tx) (CTxIndex.new posThisTx tx.vout.length) }

/-- The loop of `ConnectBlock` over the transactions. -/
def connectTransactions (env : Env) (s : NodeState) (block : CBlock)
    (pindex : CBlockIndex) (fJustCheck : Bool) : Except Failure ConnectAcc :=
  block.vtx.foldlM (connectTransaction ctx env s pindex fJustCheck)
    (ConnectAcc.start block pindex fJustCheck)

/-- The coin age that one input adds, in cent-seconds; none when the transaction is older than the
output that it spends. -/
def coinAgeOf (s : NodeState) (tx : CTransaction)
    (pindexPrev : Option CBlockIndex) (txin : CTxIn) : Except Failure (Option ℤ) :=
  match s.txdb.ReadTxIndex txin.prevout.hash with
  | none => .ok (some 0)
  | some txindex =>
    match readTxAt ctx txindex.pos with
    | none => .ok (some 0)
    | some txPrev =>
      match txPrev.vout[txin.prevout.n.toNat]? with
      | none => .ok (some 0)
      | some txout =>
        if tx.nTime < txPrev.nTime then .ok none
        else do
          let confirmed ←
            IsConfirmedInNPrevBlocks s txindex pindexPrev (nStakeMinConfirmations - 1)
          if confirmed then pure (some 0)
          else pure (some
            ((txout.nValue * ((tx.nTime.toNat : ℤ) - txPrev.nTime.toNat)).tdiv CENT))

def GetCoinAge (s : NodeState) (tx : CTransaction)
    (pindexPrev : Option CBlockIndex) : Except Failure (Option ℕ) := do
  let bnCentSecond ← tx.vin.foldlM (fun sum txin =>
    match sum with
    | none => .ok none
    | some bnCentSecond => do
      let age ← coinAgeOf ctx s tx pindexPrev txin
      pure (age.map fun age => bnCentSecond + age)) (some 0)
  pure (bnCentSecond.map fun bnCentSecond =>
    (((bnCentSecond * CENT).tdiv COIN).tdiv (24 * 60 * 60)).toNat % 2 ^ 64)

/-- The check of what a block pays itself: its coinbase when it is proof-of-work, and its
coinstake when it is proof-of-stake. -/
def checkReward (s : NodeState) (block : CBlock) (pindex : CBlockIndex)
    (acc : ConnectAcc) : Except Failure Unit :=
  match block.IsProofOfStake, block.vtx with
  | false, coinbase :: _ => do
    let nReward ← GetProofOfWorkReward ctx s pindex.nHeight acc.nFees
    let nValueOut ← coinbase.GetValueOut
    ensure (nValueOut ≤ nReward) (.reject 50 "ConnectBlock() : coinbase reward exceeded")
  | true, _ :: coinstake :: _ => do
    let nCoinAge ← GetCoinAge ctx s coinstake (pindex.pprev.bind s.mapBlockIndex)
    match nCoinAge with
    | none => .error (.error "ConnectBlock() : unable to get coin age for coinstake")
    | some nCoinAge => do
      let pindexPrev ← s.index pindex.pprev
      let nCalculatedStakeReward ← GetProofOfStakeReward ctx s pindexPrev nCoinAge acc.nFees
      ensure (acc.nStakeReward ≤ nCalculatedStakeReward)
        (.reject 100 "ConnectBlock() : coinstake pays too much")
  | _, _ => .error (.crash "vtx out of range")

/-- The mint and the supply of a block, from the sums over its transactions and the supply of the
block before it. -/
def withSupply (pindex : CBlockIndex) (prevSupply : ℤ) (acc : ConnectAcc) : CBlockIndex :=
  { pindex with
    nMint := wrap64 (acc.nValueOut - acc.nValueIn + acc.nFees)
    nMoneySupply := wrap64 (prevSupply + acc.nValueOut - acc.nValueIn) }

def prevMoneySupply (s : NodeState) (pindex : CBlockIndex) : Except Failure ℤ :=
  match pindex.pprev with
  | none => .ok 0
  | some p => do
    let prev ← s.index (some p)
    pure prev.nMoneySupply

def writeQueue (txdb : CTxDB) (queue : TestPool) : CTxDB :=
  queue.entries.foldl (fun txdb entry => txdb.UpdateTxIndex entry.1 entry.2) txdb

/-- The identifiers under which the address index files a script: the long enough data that it
pushes, or else the whole script. -/
def addrIdsLoop (ctx : Context) : ℕ → CScript → List UInt160
  | 0, _ => []
  | _ + 1, [] => []
  | fuel + 1, byte :: script =>
    let op := GetOp byte script
    let addrid (data : List UInt8) : UInt160 :=
      if data.length ≤ 20 then
        BitVec.ofNat 160 (data.foldr (fun b n => b.toNat + 256 * n) 0)
      else ctx.hash160 data
    match op.opcode with
    | some opcode =>
      if opcode ≤ OP_PUSHDATA4 ∧ 8 ≤ op.data.length then
        addrid op.data :: addrIdsLoop ctx fuel op.rest
      else addrIdsLoop ctx fuel op.rest
    | none => addrIdsLoop ctx fuel op.rest

def BuildAddrIndex (script : CScript) : List UInt160 :=
  match addrIdsLoop ctx script.length script with
  | [] => [ctx.hash160 script]
  | addrIds => addrIds

def CTxDB.WriteAddrIndex (txdb : CTxDB) (addrid : UInt160) (txHash : UInt256) : CTxDB :=
  let txHashes : List UInt256 := (txdb.read (.adr addrid)).getD []
  if txHash ∈ txHashes then txdb
  else txdb.write (.adr addrid) (txHashes ++ [txHash] : List UInt256)

def writeAddrIds (txdb : CTxDB) (hashTx : UInt256) (vout : List CTxOut) : CTxDB :=
  (vout.flatMap fun txout => BuildAddrIndex ctx txout.scriptPubKey).foldl
    (fun txdb addrid => txdb.WriteAddrIndex addrid hashTx) txdb

def indexAddresses (tx : CTransaction) : NodeM Unit := do
  let mapInputs ← Action.reading fun s =>
    if tx.IsCoinBase then .ok ∅ else FetchInputs ctx s ∅ .block tx
  Action.modify fun s =>
    let txdb := writeAddrIds ctx s.txdb (ctx.hashTx tx)
      (mapInputs.entries.flatMap fun entry => entry.2.2.vout)
    { s with txdb := writeAddrIds ctx txdb (ctx.hashTx tx) tx.vout }

/-- Adds the transactions of a block to the address index. It ends without a failure at the first one
whose inputs cannot be fetched. -/
def RebuildAddressIndex (block : CBlock) : NodeM Unit :=
  Action.handle (block.vtx.forM (indexAddresses ctx)) fun e =>
    match e with
    | .crash m => Action.fail (.crash m)
    | .reject _ _ => pure ()

/-- The loop of `ConnectBlock` over the address index, which fails at a refused `FetchInputs`. -/
def indexBlockAddresses (block : CBlock) : NodeM Unit :=
  if ctx.fAddrIndex then block.vtx.forM (indexAddresses ctx) else pure ()

/-- Writes the previous block's entry with its link to the next block set, in the database
only. -/
def writePrevLink (pprev : Option UInt256) (hashNext : UInt256) : NodeM Unit :=
  match pprev with
  | none => pure ()
  | some p => do
    let prev ← Action.reading fun s => s.index (some p)
    let blockindexPrev := { CDiskBlockIndex.of prev with hashNext := hashNext }
    Action.modify fun s => { s with txdb := s.txdb.WriteBlockIndex ctx blockindexPrev }

/-- The limits that `ConnectBlock` derives from the size limit. -/
def NodeState.withLimits (s : NodeState) (MAX_BLOCK_SIZE : ℕ) : NodeState :=
  { s with
    MAX_BLOCK_SIZE := MAX_BLOCK_SIZE
    MAX_BLOCK_SIGOPS := MAX_BLOCK_SIZE / 50
    MAX_TX_SIGOPS := MAX_BLOCK_SIZE / 50 / 5 }

/-- What connecting a block comes to before anything is written: its entry with its mint and its
supply, and the sums and changes of its transactions. -/
def evaluateBlock (env : Env) (block : CBlock) (pindex : UInt256)
    (fJustCheck : Bool) (s : NodeState) : Except Failure (CBlockIndex × ConnectAcc) := do
  let i ← s.index (some pindex)
  let acc ← connectTransactions ctx env s block i fJustCheck
  checkReward ctx s block i acc
  let prevSupply ← prevMoneySupply s i
  pure (withSupply i prevSupply acc, acc)

/-- Writes the changes of the transaction index, the address index and the link of the previous
block. -/
def writeBlock (block : CBlock) (pindex : UInt256) (pprev : Option UInt256)
    (queue : TestPool) : NodeM Unit := do
  Action.modify fun s => { s with txdb := writeQueue s.txdb queue }
  indexBlockAddresses ctx block
  writePrevLink ctx pprev pindex

def ConnectBlock (env : Env) (block : CBlock) (pindex : UInt256)
    (fJustCheck : Bool) : NodeM (List SigCheck) := do
  CheckBlock ctx env block (!fJustCheck) (!fJustCheck) false
  let size ← ComputeBlockSize pindex
  Action.modify fun s => s.withLimits size
  let connected ← Action.reading (evaluateBlock ctx env block pindex fJustCheck)
  Action.modify fun s =>
    { s.setIndex pindex connected.1 with
      txdb := s.txdb.WriteBlockIndex ctx (CDiskBlockIndex.of connected.1) }
  if fJustCheck then pure connected.2.sigLog
  else
    writeBlock ctx block pindex connected.1.pprev connected.2.mapQueuedChanges
    pure connected.2.sigLog

def DisconnectBlock (block : CBlock) (pindex : UInt256) : NodeM Unit := do
  block.vtx.reverse.forM (DisconnectInputs ctx)
  let i ← Action.reading fun s => s.index (some pindex)
  writePrevLink ctx i.pprev 0

end ZalemCoin.Chain
