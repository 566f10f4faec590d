import ZalemCoin.Chain.AcceptBlock
import ZalemCoin.Script.Standard

/-!
# Block templates

`CreateNewBlock` fills a block with transactions of the memory pool: the ones with the highest priority
first, and from some size on the ones with the highest fees. A transaction that spends from another
one of the pool waits until that one is in the block. The limits are those of `miner.cpp`: the
variables of the header are static, so every file that includes it has its own copies, and nothing
changes these.
-/

namespace ZalemCoin.Mining

open Lib Chain Script

/-- The copies of the limits that `miner.cpp` has. -/
def MAX_BLOCK_SIZE : ℕ := 20512000
def MAX_BLOCK_SIZE_GEN : ℕ := MAX_BLOCK_SIZE / 2
def MAX_BLOCK_SIGOPS : ℕ := MAX_BLOCK_SIZE / 50

/-- The value that an `unsigned int` gets from an argument. -/
def toUnsigned (n : ℤ) : ℕ := (n % 2 ^ 32).toNat

/-- The arguments of the node that the miner looks at. -/
structure MinerArgs where
  /-- The arguments `-blockmaxsize`, `-blockprioritysize` and `-blockminsize`. -/
  blockmaxsize : Option ℤ
  blockprioritysize : Option ℤ
  blockminsize : Option ℤ
  /-- The argument `-mintxfee`, when it is an amount. -/
  mintxfee : Option ℤ
  fDebug : Bool

namespace MinerArgs

def nBlockMaxSize (args : MinerArgs) : ℕ :=
  max 1000 (min (MAX_BLOCK_SIZE - 1000)
    (toUnsigned (args.blockmaxsize.getD ((MAX_BLOCK_SIZE_GEN / 2 : ℕ) : ℤ))))

/-- The part of the block in which fees do not matter. -/
def nBlockPrioritySize (args : MinerArgs) : ℕ :=
  min args.nBlockMaxSize
    (toUnsigned (args.blockprioritysize.getD ((DEFAULT_BLOCK_PRIORITY_SIZE : ℕ) : ℤ)))

/-- The part of the block that free transactions may fill. -/
def nBlockMinSize (args : MinerArgs) : ℕ :=
  min args.nBlockMaxSize (toUnsigned (args.blockminsize.getD 0))

def nMinTxFee (args : MinerArgs) : ℤ := args.mintxfee.getD MIN_TX_FEE

end MinerArgs

/-! ## The queue of candidates -/

/-- A transaction that can be added to the block. -/
structure TxPriority where
  dPriority : ℚ
  dFeePerKb : ℚ
  tx : CTransaction

/-- Whether a candidate comes after another one. -/
def TxPriority.less (byFee : Bool) (a b : TxPriority) : Bool :=
  if byFee then
    if a.dFeePerKb = b.dFeePerKb then decide (a.dPriority < b.dPriority)
    else decide (a.dFeePerKb < b.dFeePerKb)
  else if a.dPriority = b.dPriority then decide (a.dFeePerKb < b.dFeePerKb)
  else decide (a.dPriority < b.dPriority)

/-- Takes the greatest element off the heap, and of several ones the one that is in front. -/
def popHeap (byFee : Bool) : List TxPriority → Option (TxPriority × List TxPriority)
  | [] => none
  | a :: queue =>
    match popHeap byFee queue with
    | none => some (a, [])
    | some (b, rest) => if TxPriority.less byFee a b then some (b, a :: rest) else some (a, queue)

/-- A transaction that waits for others of the pool. -/
structure COrphan where
  tx : CTransaction
  setDependsOn : List UInt256
  dPriority : ℚ
  dFeePerKb : ℚ

/-! ## Collecting the candidates -/

variable (ctx : Context)

/-- The output that an outpoint refers to and the index entry of its transaction, when the
transaction is on the disk. -/
def readPrevout (s : NodeState) (prevout : COutPoint) :
    Option (CTxIndex × CTxOut) := do
  let txindex ← s.txdb.ReadTxIndex prevout.hash
  let txPrev ← readTxAt ctx txindex.pos
  let txout ← txPrev.vout[prevout.n.toNat]?
  pure (txindex, txout)

def GetDepthInMainChain (s : NodeState) (txindex : CTxIndex) : ℤ :=
  match ctx.files.block txindex.pos.nFile txindex.pos.nBlockPos with
  | none => 0
  | some block =>
    match s.mapBlockIndex (ctx.GetHash block) with
    | none => 0
    | some i =>
      if s.IsInMainChain (ctx.GetHash block) then 1 + s.nBestHeight - i.nHeight else 0

/-- What the loop over the inputs of a transaction of the pool carries. -/
structure InputScan where
  /-- The transactions of the pool that it spends from, when there are any. -/
  setDependsOn : Option (List UInt256)
  /-- The orphans that wait for a transaction, by their numbers. -/
  mapDependers : UInt256 → List ℕ
  dPriority : ℚ
  nTotalIn : ℤ

/-- An input of a transaction of the pool. There is no result when the transaction that it spends
from is neither on the disk nor in the pool. -/
def scanInput (args : MinerArgs) (s : NodeState) (porphan : ℕ) (scan : InputScan)
    (txin : CTxIn) : Except Failure (Option InputScan) :=
  match readPrevout ctx s txin.prevout with
  | some (txindex, txout) =>
    let nConf := GetDepthInMainChain ctx s txindex
    .ok (some
      { scan with
        nTotalIn := wrap64 (scan.nTotalIn + txout.nValue)
        dPriority := nearestDouble (scan.dPriority + nearestDouble (nearestDouble txout.nValue * nConf)) })
  | none =>
    match s.mempool.mapTx.lookup txin.prevout.hash with
    | none =>
      if args.fDebug then .error (.crash "mempool transaction missing input") else .ok none
    | some txPrev =>
      match txPrev.vout[txin.prevout.n.toNat]? with
      | none => .error (.crash "vout out of range")
      | some txout =>
        let hash := txin.prevout.hash
        .ok (some
          { scan with
            setDependsOn := some ((scan.setDependsOn.getD []).insert hash)
            mapDependers :=
              Function.update scan.mapDependers hash (scan.mapDependers hash ++ [porphan])
            nTotalIn := wrap64 (scan.nTotalIn + txout.nValue) })

def scanInputs (ctx : Context) (args : MinerArgs) (s : NodeState) (porphan : ℕ) :
    List CTxIn → InputScan → Except Failure (InputScan × Bool)
  | [], scan => .ok (scan, true)
  | txin :: vin, scan => do
    match ← scanInput ctx args s porphan scan txin with
    | none => pure (scan, false)
    | some scan => scanInputs ctx args s porphan vin scan

/-- The candidates, and the transactions that wait. The number of an orphan is never used again: one
that is removed leaves its place empty, and numbers of it stay behind. -/
structure Candidates where
  vOrphan : List (Option COrphan)
  mapDependers : UInt256 → List ℕ
  vecPriority : List TxPriority

def collectTx (env : Env) (args : MinerArgs) (s : NodeState) (nHeight : ℕ)
    (c : Candidates) (tx : CTransaction) : Except Failure Candidates :=
  if tx.IsCoinBase || tx.IsCoinStake || !IsFinalTx env s tx nHeight 0 then .ok c
  else do
    let (scan, found) ← scanInputs ctx args s c.vOrphan.length tx.vin ⟨none, c.mapDependers, 0, 0⟩
    if found then do
      let nTxSize : ℚ := tx.GetSerializeSize
      let dPriority := nearestDouble (scan.dPriority / nTxSize)
      let nValueOut ← tx.GetValueOut
      let dFeePerKb := nearestDouble
        (nearestDouble (wrap64 (scan.nTotalIn - nValueOut)) / nearestDouble (nTxSize / 1000))
      match scan.setDependsOn with
      | some set =>
        pure
          { c with
            vOrphan := c.vOrphan ++ [some ⟨tx, set, dPriority, dFeePerKb⟩]
            mapDependers := scan.mapDependers }
      | none =>
        pure
          { c with
            mapDependers := scan.mapDependers
            vecPriority := c.vecPriority ++ [⟨dPriority, dFeePerKb, tx⟩] }
    else
      pure
        { c with
          vOrphan := c.vOrphan ++ (scan.setDependsOn.map fun _ => none).toList
          mapDependers := scan.mapDependers }

def poolTxs (s : NodeState) : List CTransaction :=
  (s.mempool.mapTx.entries.insertionSort fun a b => a.1 ≤ b.1).map Sigma.snd

/-- The candidates among the transactions of the pool. -/
def collect (env : Env) (args : MinerArgs) (s : NodeState) (nHeight : ℕ) :
    Except Failure Candidates :=
  (poolTxs s).foldlM (collectTx ctx env args s nHeight) ⟨[], fun _ => [], []⟩

/-! ## Filling the block -/

/-- What the loop over the candidates carries. -/
structure Assembly where
  vtx : List CTransaction
  mapTestPool : TestPool
  nBlockSize : ℕ
  nBlockSigOps : ℕ
  nFees : ℤ
  fSortedByFee : Bool
  vecPriority : List TxPriority
  vOrphan : List (Option COrphan)

def Assembly.start (args : MinerArgs) (coinbase : CTransaction) (c : Candidates) : Assembly where
  vtx := [coinbase]
  mapTestPool := ∅
  nBlockSize := 1000
  nBlockSigOps := 100
  nFees := 0
  fSortedByFee := args.nBlockPrioritySize == 0
  vecPriority := c.vecPriority
  vOrphan := c.vOrphan

/-- The result of a step that may return false, but not throw. -/
def attempt {α : Type} : Except Failure α → Except Failure (Option α)
  | .ok a => .ok (some a)
  | .error (.reject _ _) => .ok none
  | .error (.crash msg) => .error (.crash msg)

/-- An orphan no longer waits for a transaction, and is a candidate when it waits for no other. -/
def releaseOrphan (hash : UInt256) (a : Assembly) (porphan : ℕ) : Except Failure Assembly :=
  match a.vOrphan[porphan]? with
  | some (some orphan) =>
    if orphan.setDependsOn = [] then .ok a
    else
      let set := orphan.setDependsOn.filter (· ≠ hash)
      let vOrphan := a.vOrphan.set porphan (some { orphan with setDependsOn := set })
      if set = [] then
        .ok
          { a with
            vOrphan := vOrphan
            vecPriority := a.vecPriority ++ [⟨orphan.dPriority, orphan.dFeePerKb, orphan.tx⟩] }
      else .ok { a with vOrphan := vOrphan }
  | _ => .error (.crash "porphan has been removed")

/-- Whether a candidate is passed over: it does not fit, it is too new, or it pays no fee where a fee
is asked for. -/
def skipped (env : Env) (args : MinerArgs) (fProofOfStake : Bool) (nTimeCoinbase : UInt32)
    (a : Assembly) (candidate : TxPriority) : Bool :=
  let tx := candidate.tx
  let nTxSize := tx.GetSerializeSize
  decide (args.nBlockMaxSize ≤ a.nBlockSize + nTxSize) ||
    decide (MAX_BLOCK_SIGOPS ≤ a.nBlockSigOps + GetLegacySigOpCount tx) ||
    decide (env.adjustedTime < tx.nTime.toNat) || (fProofOfStake && decide (nTimeCoinbase < tx.nTime)) ||
    (a.fSortedByFee && decide (candidate.dFeePerKb < nearestDouble args.nMinTxFee) &&
      decide (args.nBlockMinSize ≤ a.nBlockSize + nTxSize))

/-- What a transaction adds to the block: its signature operations, its fees, and the spent outputs.
There is no result when it cannot be connected or has too many signature operations. -/
def connectCandidate (env : Env) (s : NodeState) (pindexPrev : CBlockIndex)
    (a : Assembly) (tx : CTransaction) : Except Failure (Option (ℕ × ℤ × TestPool)) := do
  let some mapInputs ← attempt (FetchInputs ctx s a.mapTestPool ⟨false, true⟩ tx) | pure none
  let nValueIn ← GetValueIn mapInputs tx
  let nValueOut ← tx.GetValueOut
  let nP2SH ← GetP2SHSigOpCount mapInputs tx
  let nTxSigOps := GetLegacySigOpCount tx + nP2SH
  if MAX_BLOCK_SIGOPS ≤ a.nBlockSigOps + nTxSigOps then pure none
  else do
    let some spent ← attempt (ConnectInputs ctx env s tx mapInputs a.mapTestPool
      CDiskTxPos.memoryPool (some pindexPrev) ⟨false, true⟩ MANDATORY_SCRIPT_VERIFY_FLAGS) | pure none
    pure (some (nTxSigOps, wrap64 (nValueIn - nValueOut),
      spent.1.insert (ctx.hashTx tx) (CTxIndex.new CDiskTxPos.memoryPool tx.vout.length)))

/-- Considers a candidate. From some size on, and when there are no more candidates with a high
priority, the queue is in the order of the fees. -/
def considerTx (env : Env) (args : MinerArgs) (s : NodeState)
    (pindexPrev : CBlockIndex) (fProofOfStake : Bool) (nTimeCoinbase : UInt32)
    (mapDependers : UInt256 → List ℕ) (a : Assembly) (candidate : TxPriority) :
    Except Failure Assembly :=
  if skipped env args fProofOfStake nTimeCoinbase a candidate then .ok a
  else do
    let tx := candidate.tx
    let nBlockSize := a.nBlockSize + tx.GetSerializeSize
    let a :=
      { a with
        fSortedByFee := a.fSortedByFee || decide (args.nBlockPrioritySize ≤ nBlockSize) ||
          decide (candidate.dPriority < ((COIN * 144).tdiv 250 : ℤ)) }
    match ← connectCandidate ctx env s pindexPrev a tx with
    | none => pure a
    | some (nTxSigOps, nTxFees, mapTestPool) =>
      (mapDependers (ctx.hashTx tx)).foldlM (releaseOrphan (ctx.hashTx tx))
        { a with
          vtx := a.vtx ++ [tx]
          mapTestPool := mapTestPool
          nBlockSize := nBlockSize
          nBlockSigOps := a.nBlockSigOps + nTxSigOps
          nFees := wrap64 (a.nFees + nTxFees) }

/-- The loop over the candidates. The first argument is the number of steps that it may still
take. -/
def fillBlock (consider : Assembly → TxPriority → Except Failure Assembly) :
    ℕ → Assembly → Except Failure Assembly
  | fuel, a =>
    match popHeap a.fSortedByFee a.vecPriority with
    | none => .ok a
    | some (candidate, rest) =>
      match fuel with
      | 0 => .error (.crash "CreateNewBlock does not return")
      | fuel + 1 => do
        let a ← consider { a with vecPriority := rest } candidate
        fillBlock consider fuel a

/-! ## The template -/

def GetMaxTransactionTime (vtx : List CTransaction) : ℕ := (vtx.map fun tx => tx.nTime.toNat).foldr max 0

/-- The coinbase of a template. That of a proof-of-stake block states the height and pays nothing,
and that of a proof-of-work block pays a key. -/
def templateCoinbase (env : Env) (nHeight : ℕ) (payTo : Option CKeyID) : CTransaction where
  nVersion := 1
  nTime := UInt32.ofNat (toUnsigned env.adjustedTime)
  vin := [⟨COutPoint.null, if payTo.isSome then [] else heightScript nHeight, 0xffffffff⟩]
  vout :=
    match payTo with
    | some id => [⟨-1, GetScriptForDestination (.keyID id)⟩]
    | none => [⟨0, []⟩]
  nLockTime := 0

def templateBlock (env : Env) (hashPrevBlock : UInt256) (pindexPrev : CBlockIndex) (nBits : UInt32)
    (fProofOfStake : Bool) (vtx : List CTransaction) : CBlock :=
  let nTime := max (pindexPrev.GetBlockTime - nDrift + 1) (GetMaxTransactionTime vtx)
  { nVersion := 7
    hashPrevBlock := hashPrevBlock
    hashMerkleRoot := 0
    nTime := UInt32.ofNat (toUnsigned
      (if fProofOfStake then nTime else max (toUnsigned nTime : ℤ) env.adjustedTime))
    nBits := nBits
    nNonce := 0
    vtx := vtx
    vchBlockSig := [] }

def payReward (nReward : ℤ) (tx : CTransaction) : CTransaction :=
  { tx with vout := tx.vout.map fun txout => { txout with nValue := nReward } }

def rewardedVtx (s : NodeState) (nHeight : ℕ) (fProofOfStake : Bool)
    (filled : Assembly) : Except Failure (List CTransaction) :=
  if fProofOfStake then .ok filled.vtx
  else do
    let nReward ← GetProofOfWorkReward ctx s nHeight filled.nFees
    pure (filled.vtx.modifyHead (payReward nReward))

/-- Creates a block template on the best block, and the fees of its transactions. There is none when
a proof-of-work block has no key to pay to. -/
def CreateNewBlock (env : Env) (args : MinerArgs) (reservekey : Option CKeyID)
    (fProofOfStake : Bool) (s : NodeState) : Except Failure (Option (CBlock × ℤ)) := do
  let pindexPrev ← s.index s.pindexBest
  let hashPrevBlock := s.pindexBest.getD 0
  let nHeight := pindexPrev.nHeight + 1
  if fProofOfStake = false ∧ reservekey = none then pure none
  else do
    let coinbase := templateCoinbase env nHeight (if fProofOfStake then none else reservekey)
    ensure (∀ txin ∈ coinbase.vin, txin.scriptSig.length ≤ 100) (.crash "scriptSig.size() <= 100")
    let nBits ← GetNextTargetRequired ctx s hashPrevBlock fProofOfStake
    let candidates ← collect ctx env args s nHeight
    let filled ← fillBlock
      (considerTx ctx env args s pindexPrev fProofOfStake coinbase.nTime candidates.mapDependers)
      (poolTxs s).length (Assembly.start args coinbase candidates)
    let vtx ← rewardedVtx ctx s nHeight fProofOfStake filled
    pure (some (templateBlock env hashPrevBlock pindexPrev nBits fProofOfStake vtx, filled.nFees))

end ZalemCoin.Mining
