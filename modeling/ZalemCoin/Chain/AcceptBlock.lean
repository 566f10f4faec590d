import ZalemCoin.Chain.Retarget

/-!
# Accepting a block

`AcceptBlock` checks a block against the block that it is built on: the spacing of the two, its
proof of work or of stake, its target, its time, the checkpoints, and the height that its coinbase
states. A block that passes is written to the disk and added to the index. The synchronized
checkpoint is chosen anew at every call, by its depth below the best block.
-/

namespace ZalemCoin.Chain

open Lib

/-! ## Spacing -/

/-- The height from which on the spacing of blocks is constrained. -/
def VELOCITY_TOGGLE : ℕ := 175

/-- The constraints, which are the same at all heights from there on. -/
def VELOCITY_RATE : ℤ := BLOCK_SPACING
def VELOCITY_MIN_RATE : ℤ := 60

/-- Whether the spacing of blocks is constrained at a height. -/
def Velocity_check (nHeight : ℕ) : Bool := decide (VELOCITY_TOGGLE ≤ nHeight)

/-- Whether the time of a block meets the constraints. -/
def Velocity (env : Env) (s : NodeState) (prevBlock : CBlockIndex) (block : CBlock) :
    Except Failure Bool := do
  let prevPrev ← s.index prevBlock.pprev
  let TXrate := block.GetBlockTime - prevBlock.GetBlockTime
  let CURvalstamp := prevBlock.GetBlockTime + VELOCITY_MIN_RATE
  let OLDvalstamp := prevPrev.GetBlockTime + VELOCITY_MIN_RATE
  let logical := decide (block.GetBlockTime ≤ env.time + VELOCITY_MIN_RATE ∧
    block.GetBlockTime ≤ env.adjustedTime + VELOCITY_MIN_RATE)
  if VELOCITY_RATE > 0 ∧ TXrate ≥ VELOCITY_MIN_RATE then pure logical
  else if VELOCITY_RATE > 0 ∧ TXrate < VELOCITY_MIN_RATE then pure false
  else if block.GetBlockTime < CURvalstamp ∨ prevBlock.GetBlockTime < OLDvalstamp then pure false
  else pure logical

/-! ## Proof of stake -/

/-- The mask of the bits of its time that a coinstake leaves out. -/
def STAKE_TIMESTAMP_MASK : UInt32 := 15

def CheckCoinStakeTimestamp (nTimeBlock nTimeTx : UInt32) : Bool :=
  nTimeBlock == nTimeTx && nTimeTx &&& STAKE_TIMESTAMP_MASK == 0

variable (ctx : Context)

def CheckStakeKernelHash (pindexPrev : CBlockIndex) (nBits : UInt32)
    (txPrev : CTransaction) (txout : CTxOut) (prevout : COutPoint) (nTimeTx : UInt32) :
    Option UInt256 :=
  if nTimeTx < txPrev.nTime then none
  else
    let bnTarget := SetCompact nBits * txout.nValue
    let hashProofOfStake :=
      ctx.hashKernel pindexPrev.bnStakeModifierV2 txPrev.nTime prevout nTimeTx
    if (hashProofOfStake.toNat : ℤ) > bnTarget then none else some hashProofOfStake

/-- The proof of a coinstake: its kernel, the first input, is signed, mature, and meets the
target. -/
def CheckProofOfStake (s : NodeState) (pindexPrev : CBlockIndex)
    (tx : CTransaction) (nBits : UInt32) : Except Failure UInt256 :=
  let failed := Failure.error "AcceptBlock() : check proof-of-stake failed"
  match tx.IsCoinStake, tx.vin with
  | true, txin :: _ => do
    let some txindex := s.txdb.ReadTxIndex txin.prevout.hash | .error failed
    let some txPrev := readTxAt ctx txindex.pos | .error failed
    let some txout := txPrev.vout[txin.prevout.n.toNat]? | .error failed
    ensure (ctx.verifySignature txPrev tx 0 SCRIPT_VERIFY_NONE = true) failed
    ensure ((ctx.files.block txindex.pos.nFile txindex.pos.nBlockPos).isSome = true) failed
    let confirmed ←
      IsConfirmedInNPrevBlocks s txindex (some pindexPrev) (nStakeMinConfirmations - 1)
    ensure (confirmed = false) failed
    match CheckStakeKernelHash ctx pindexPrev nBits txPrev txout txin.prevout tx.nTime with
    | some hashProofOfStake => .ok hashProofOfStake
    | none => .error failed
  | _, _ => .error failed

/-! ## Checkpoints and finality -/

/-- The checkpoints that are built in. The test network has none. -/
def mapCheckpoints : List (ℕ × UInt256) :=
  if ctx.network = .testnet then []
  else
    [(0, ctx.hashGenesisBlock),
      (1, 0x0000061ba2e31a69ebadfd90f695636e73afa4541d99968732cfdba723256479),
      (2, 0x000006ffb293302fe2bdcb38cd39747368ee40f3abc0b5cb34f3ac6810acfe35),
      (100, 0x35ae5535e90fff158dbb607ae95af9e29738df6ecc06ba9ecdafeac73d464fb2),
      (110, 0xdcc81c2ef3e4508d3ffb5432b7fb2390f1b9113a15b65191c231b41daea67e2b)]

def CheckHardened (nHeight : ℕ) (hash : UInt256) : Bool :=
  match (mapCheckpoints ctx).lookup nHeight with
  | none => true
  | some hashCheckpoint => hash == hashCheckpoint

def nCheckpointSpan : ℕ := 5000

def syncCheckpointLoop (s : NodeState) (nBestHeight : ℕ) :
    ℕ → UInt256 → Except Failure UInt256
  | 0, _ => .error (.crash "AutoSelectSyncCheckpoint does not return")
  | fuel + 1, pindex => do
    let i ← s.index (some pindex)
    match i.pprev with
    | none => pure pindex
    | some p =>
      if i.nHeight + nCheckpointSpan > nBestHeight then syncCheckpointLoop s nBestHeight fuel p
      else pure pindex

/-- The synchronized checkpoint: the last block of the best chain that is deep enough, or else the
genesis block. -/
def AutoSelectSyncCheckpoint (s : NodeState) : Except Failure UInt256 := do
  let best ← s.index s.pindexBest
  syncCheckpointLoop s best.nHeight (best.nHeight + 1) (s.pindexBest.getD 0)

def CheckSync (s : NodeState) (nHeight : ℕ) : Except Failure Bool := do
  let pindexSync ← AutoSelectSyncCheckpoint s
  let sync ← s.index (some pindexSync)
  pure (decide (sync.nHeight < nHeight))

/-- The lock times from which on they are times, not heights. -/
def LOCKTIME_THRESHOLD : ℕ := 500000000

/-- Whether a transaction is final in a block of a height and a time; zero stands for the next
block, and for now. -/
def IsFinalTx (env : Env) (s : NodeState) (tx : CTransaction) (nBlockHeight nBlockTime : ℤ) :
    Bool :=
  let nBlockHeight := if nBlockHeight = 0 then s.nBestHeight else nBlockHeight
  let nBlockTime := if nBlockTime = 0 then env.adjustedTime else nBlockTime
  let lockedUntil := if tx.nLockTime.toNat < LOCKTIME_THRESHOLD then nBlockHeight else nBlockTime
  tx.nLockTime == 0 || decide ((tx.nLockTime.toNat : ℤ) < lockedUntil) ||
    tx.vin.all fun txin => txin.nSequence == 0xffffffff

/-- The script that pushes a height: one of the operations for small numbers, or the bytes of the
number with room for a sign. -/
def heightScript (nHeight : ℕ) : CScript :=
  if 1 ≤ nHeight ∧ nHeight ≤ 16 then [UInt8.ofNat nHeight + (OP_1 - 1)]
  else
    let bytes := leBytes nHeight nHeight
    let vch := if bytes.getLast?.any (0x80 ≤ ·) then bytes ++ [0] else bytes
    UInt8.ofNat vch.length :: vch

/-! ## The checks of a block -/

/-- The height from which on blocks may not be proof-of-work, and that from which on they may be
proof-of-stake. -/
def EndPoWBlock : ℕ := 0x7fffffff
def StartPoSBlock : ℕ := 0

def checkVersion (block : CBlock) : Except Failure Unit := do
  ensure (¬block.nVersion < 7) (.reject 100 "AcceptBlock() : reject too old nVersion")
  ensure (¬block.nVersion > 7) (.reject 100 "AcceptBlock() : reject too new nVersion")

/-- The spacing of a block, where it is constrained. -/
def checkVelocity (env : Env) (s : NodeState) (prevBlock : CBlockIndex) (block : CBlock) :
    Except Failure Unit :=
  if Velocity_check (prevBlock.nHeight + 1) then do
    let met ← Velocity env s prevBlock block
    ensure (met = true) (.reject 100 "AcceptBlock() : Velocity rejected block")
  else .ok ()

def checkType (block : CBlock) (nHeight : ℕ) : Except Failure Unit := do
  ensure (¬(block.IsProofOfWork ∧ EndPoWBlock < nHeight))
    (.reject 100 "AcceptBlock() : reject proof-of-work at height")
  ensure (¬(block.IsProofOfStake ∧ nHeight < StartPoSBlock))
    (.reject 100 "AcceptBlock() : reject proof-of-stake at height")
  match block.vtx with
  | [] => .error (.crash "vtx out of range")
  | coinbase :: rest => do
    ensure (¬(block.GetBlockTime > coinbase.nTime.toNat + nDrift ∧ block.IsProofOfStake))
      (.reject 50 "AcceptBlock() : coinbase timestamp is too early")
    ensure (¬(block.IsProofOfStake ∧
        ∃ coinstake ∈ rest.head?, ¬CheckCoinStakeTimestamp block.nTime coinstake.nTime))
      (.reject 50 "AcceptBlock() : coinstake timestamp violation")

def checkTarget (s : NodeState) (block : CBlock) : Except Failure Unit := do
  let nBits ← GetNextTargetRequired ctx s block.hashPrevBlock block.IsProofOfStake
  ensure (block.nBits = nBits) (.reject 100 "AcceptBlock() : incorrect target")

def checkPlace (env : Env) (s : NodeState) (prevBlock : CBlockIndex)
    (block : CBlock) : Except Failure Unit := do
  ensure (¬(block.GetBlockTime ≤ prevBlock.GetBlockTime - nDrift ∨
      block.GetBlockTime + nDrift < prevBlock.GetBlockTime))
    (.error "AcceptBlock() : block's timestamp is too early")
  ensure (∀ tx ∈ block.vtx, IsFinalTx env s tx (prevBlock.nHeight + 1) block.GetBlockTime = true)
    (.reject 10 "AcceptBlock() : contains a non-final transaction")
  ensure (CheckHardened ctx (prevBlock.nHeight + 1) (ctx.GetHash block) = true)
    (.reject 100 "AcceptBlock() : rejected by hardened checkpoint lock-in")

/-- The hash that proves the work or the stake of a block. -/
def proofOf (s : NodeState) (prevBlock : CBlockIndex) (block : CBlock) :
    Except Failure UInt256 :=
  match block.IsProofOfStake, block.vtx with
  | false, _ => .ok (ctx.GetHash block)
  | true, _ :: coinstake :: _ => CheckProofOfStake ctx s prevBlock coinstake block.nBits
  | true, _ => .error (.crash "vtx out of range")

def checkHeight (s : NodeState) (block : CBlock) (nHeight : ℕ) : Except Failure Unit := do
  let synced ← CheckSync s nHeight
  ensure (synced = true) (.error "AcceptBlock() : rejected by synchronized checkpoint")
  match block.vtx.head?.bind fun coinbase => coinbase.vin.head? with
  | none => .error (.crash "vin out of range")
  | some txin =>
    ensure ((heightScript nHeight).isPrefixOf txin.scriptSig = true)
      (.reject 100 "AcceptBlock() : block height mismatch in coinbase")

def checkAccept (env : Env) (s : NodeState) (block : CBlock) :
    Except Failure UInt256 := do
  ensure (s.mapBlockIndex (ctx.GetHash block) = none)
    (.error "AcceptBlock() : block already in mapBlockIndex")
  match s.mapBlockIndex block.hashPrevBlock with
  | none => .error (.reject 10 "AcceptBlock() : prev block not found")
  | some prevBlock => do
    checkVersion block
    checkVelocity env s prevBlock block
    checkType block (prevBlock.nHeight + 1)
    checkTarget ctx s block
    checkPlace ctx env s prevBlock block
    let hashProof ← proofOf ctx s prevBlock block
    checkHeight s block (prevBlock.nHeight + 1)
    pure hashProof

def AcceptBlock (ctx : Context) (env : Env) (nFile nBlockPos : UInt32) (block : CBlock) :
    NodeM Unit := do
  let hashProof ← Action.reading fun s => checkAccept ctx env s block
  reportAs "AcceptBlock() : AddToBlockIndex failed"
    (AddToBlockIndex ctx env nFile nBlockPos hashProof block)

end ZalemCoin.Chain
