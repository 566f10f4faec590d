import ZalemCoin.Chain.Script
import ZalemCoin.Lib.KeyValueStore

/-!
# The state of a node

The globals of `main.cpp`, the database, the memory pool, and the static variables of the functions
that keep some. A pointer to a block index is the hash under which `mapBlockIndex` holds it, and
`none` is the null pointer. What a node computes with but never changes (hash functions, script
verification, network parameters, and the block files, which are only ever appended to) is in
`Context`; what it reads from outside in one call (clocks, sporks, payment winners) is in `Env`.
-/

namespace ZalemCoin.Chain

open Lib

/-- The networks that a node can run on. -/
inductive Network where
  | main
  | testnet
  | regtest
deriving DecidableEq

structure CBlockIndex where
  /-- The previous block, if the node has it. -/
  pprev : Option UInt256
  /-- The next block of the main chain. -/
  pnext : Option UInt256
  nFile : UInt32
  nBlockPos : UInt32
  nChainTrust : UInt256
  nHeight : ℕ
  nMint : ℤ
  nMoneySupply : ℤ
  /-- The flag `BLOCK_PROOF_OF_STAKE`. -/
  fProofOfStake : Bool
  /-- The flag `BLOCK_STAKE_ENTROPY`. -/
  fStakeEntropy : Bool
  /-- The flag `BLOCK_STAKE_MODIFIER`. -/
  fStakeModifier : Bool
  nStakeModifier : UInt64
  bnStakeModifierV2 : UInt256
  prevoutStake : COutPoint
  nStakeTime : UInt32
  hashProof : UInt256
  nVersion : ℤ
  hashMerkleRoot : UInt256
  nTime : UInt32
  nBits : UInt32
  nNonce : UInt32
  nSequenceId : UInt32
deriving DecidableEq

def CBlockIndex.GetBlockTime (pindex : CBlockIndex) : ℤ := pindex.nTime.toNat

def CBlockIndex.unlinked (i : CBlockIndex) : CBlockIndex := { i with pnext := none }

/-- A block index as the database stores it: links are hashes, and zero stands for no link. -/
structure CDiskBlockIndex extends CBlockIndex where
  hashPrev : UInt256
  hashNext : UInt256
deriving DecidableEq

/-- Marshals a block index. The links, the trust and the sequence number are not written. -/
def CDiskBlockIndex.of (pindex : CBlockIndex) : CDiskBlockIndex :=
  { pindex with
    pprev := none
    pnext := none
    nChainTrust := 0
    nSequenceId := 0
    hashPrev := pindex.pprev.getD 0
    hashNext := pindex.pnext.getD 0 }

def CDiskBlockIndex.header (blockindex : CDiskBlockIndex) : CBlockHeader where
  nVersion := blockindex.nVersion
  hashPrevBlock := blockindex.hashPrev
  hashMerkleRoot := blockindex.hashMerkleRoot
  nTime := blockindex.nTime
  nBits := blockindex.nBits
  nNonce := blockindex.nNonce

inductive DbKey where
  | tx (hash : UInt256)
  | blockindex (hash : UInt256)
  | adr (addrid : UInt160)
  | hashBestChain
  | bnBestInvalidTrust
deriving DecidableEq

abbrev DbKey.Val : DbKey → Type
  | tx _ => CTxIndex
  | blockindex _ => CDiskBlockIndex
  | adr _ => List UInt256
  | hashBestChain => UInt256
  | bnBestInvalidTrust => UInt256

abbrev CTxDB := Store DbKey.Val

def CTxDB.ReadTxIndex (txdb : CTxDB) (hash : UInt256) : Option CTxIndex := txdb.read (.tx hash)

def CTxDB.UpdateTxIndex (txdb : CTxDB) (hash : UInt256) (txindex : CTxIndex) : CTxDB :=
  txdb.write (.tx hash) txindex

def CTxDB.EraseTxIndex (txdb : CTxDB) (hash : UInt256) : CTxDB := txdb.erase (.tx hash)

/-- The input of a memory pool transaction that spends an output. -/
structure CInPoint where
  /-- The key of the transaction in the pool. -/
  ptx : UInt256
  n : ℕ
deriving DecidableEq

/-- The memory pool: its transactions, and the spender of each output that they spend. -/
structure CTxMemPool where
  mapTx : AList fun _ : UInt256 => CTransaction
  mapNextTx : COutPoint → Option CInPoint

/-- The start of the transaction number `i` of a block that starts at `nBlockPos`. -/
def txPosition (nBlockPos : UInt32) (vtx : List CTransaction) (i : ℕ) : UInt32 :=
  nBlockPos + UInt32.ofNat (80 + GetSizeOfCompactSize vtx.length
    + ((vtx.take i).map CTransaction.GetSerializeSize).sum)

/-- The block files. Blocks are only ever appended, so a run reads from one fixed content; the
node reads a block only at positions where it has written one. -/
structure BlockFiles where
  /-- What reading a block at a position of a file gives. -/
  block : UInt32 → UInt32 → Option CBlock
  /-- What reading a transaction at a position of a file gives. -/
  tx : UInt32 → UInt32 → Option CTransaction
  /-- `OpenBlockFile` opens neither the file zero nor the null file. -/
  closed : ∀ nPos, block 0 nPos = none ∧ block 0xffffffff nPos = none ∧
    tx 0 nPos = none ∧ tx 0xffffffff nPos = none
  /-- `WriteToDisk` writes the message start and the size before a block. -/
  room : ∀ nFile nBlockPos block', block nFile nBlockPos = some block' → 8 ≤ nBlockPos
  tx_eq : ∀ nFile nBlockPos block', block nFile nBlockPos = some block' →
    ∀ i tx', block'.vtx[i]? = some tx' → tx nFile (txPosition nBlockPos block'.vtx i) = some tx'

/-- What a node computes with and never changes. -/
structure Context where
  network : Network
  hashTx : CTransaction → UInt256
  hashHeader : CBlockHeader → UInt256
  /-- The hash of two concatenated hashes, in the merkle tree. -/
  hashPair : UInt256 → UInt256 → UInt256
  hashStakeModifier : UInt256 → UInt256 → UInt256
  /-- The hash of a kernel: a stake modifier, the time of the transaction that is staked, the output
  that is staked, and the time at which it is. -/
  hashKernel : UInt256 → UInt32 → COutPoint → UInt32 → UInt256
  hash160 : List UInt8 → UInt160
  /-- `VerifySignature` on the previous transaction, the spending transaction, the number of its
  input and the flags, with hash type zero. -/
  verifySignature : CTransaction → CTransaction → ℕ → UInt32 → Bool
  checkBlockSignature : CBlock → Bool
  isStandardTx : CTransaction → Bool
  /-- `AreInputsStandard` on a transaction and the transactions that it spends from. -/
  areInputsStandard : CTransaction → (UInt256 → Option CTransaction) → Bool
  /-- The stake modifier of the block after an index, and whether it is newly generated. -/
  computeNextStakeModifier :
    (UInt256 → Option CBlockIndex) → Option UInt256 → Option (UInt64 × Bool)
  /-- The draw of the seeded generator, in the range from zero up to the bound. -/
  generateMTRandom : ℕ → ℕ → ℕ
  /-- The script that pays the developers' address of the main network. -/
  devopsScript : CScript
  proofOfWorkLimit : ℕ
  hashGenesisBlock : UInt256
  /-- The argument `-addrindex`. -/
  fAddrIndex : Bool
  files : BlockFiles

/-- What a node reads from outside during one call. -/
structure Env where
  /-- `GetTime()`. -/
  time : ℤ
  /-- `GetAdjustedTime()`. -/
  adjustedTime : ℤ
  /-- Whether the spork `SPORK_3_INSTANTX_BLOCK_FILTERING` is active. -/
  fInstantXBlockFiltering : Bool
  /-- The payee that the payment votes agree on for a height. -/
  blockPayee : ℕ → Option CScript
  /-- The reward that the wallet computed last. -/
  nPoSageReward : ℤ
  /-- The transactions that were broadcast for mixing. -/
  mnengineBroadcast : UInt256 → Bool
  fFreeLimited : Bool

structure NodeState where
  mapBlockIndex : UInt256 → Option CBlockIndex
  pindexGenesisBlock : Option UInt256
  pindexBest : Option UInt256
  hashBestChain : UInt256
  nBestHeight : ℤ
  nBestChainTrust : UInt256
  nBestInvalidTrust : UInt256
  pblockindexFBBHLast : Option UInt256
  nBlockSequenceId : UInt32
  txdb : CTxDB
  mempool : CTxMemPool
  mapLockedInputs : COutPoint → Option UInt256
  /-- The copies of the limits that `main.cpp` has. -/
  MAX_BLOCK_SIZE : ℕ
  MAX_BLOCK_SIGOPS : ℕ
  MAX_TX_SIGOPS : ℕ
  /-- Static variables of `IsInitialBlockDownload`. -/
  nLastUpdate : ℤ
  pindexLastBest : Option UInt256
  /-- Static variables of the block size calculator. -/
  blocksizes : List UInt32
  sorted : Bool
  /-- The files of the directory `blocks`. -/
  blocksDir : UInt32 → Option (List UInt8)

abbrev NodeM := Action NodeState Failure

/-- The block index under a pointer; following a null or dangling pointer stops the node. -/
def NodeState.index (s : NodeState) (pindex : Option UInt256) : Except Failure CBlockIndex :=
  match pindex.bind s.mapBlockIndex with
  | some i => .ok i
  | none => .error (.crash "null pointer")

/-- The parent pointers of the block index. -/
def NodeState.parent (s : NodeState) (p : UInt256) : Option UInt256 :=
  (s.mapBlockIndex p).bind CBlockIndex.pprev

def NodeState.setIndex (s : NodeState) (pindex : UInt256) (i : CBlockIndex) : NodeState :=
  { s with mapBlockIndex := Function.update s.mapBlockIndex pindex (some i) }

variable (ctx : Context)

def Context.GetHash (block : CBlock) : UInt256 := ctx.hashHeader block.toCBlockHeader

def CTxDB.WriteBlockIndex (txdb : CTxDB) (blockindex : CDiskBlockIndex) : CTxDB :=
  txdb.write (.blockindex (ctx.hashHeader blockindex.header)) blockindex

/-- Whether the database has an entry for a transaction. An erasure in the open batch does not
hide the entry on the disk. -/
def CTxDB.ContainsTx (txdb : CTxDB) (hash : UInt256) : Bool :=
  match txdb.activeBatch with
  | none => (txdb.disk (.tx hash)).isSome
  | some ops =>
    match scanBatch ops (.tx hash) with
    | some (some _) => true
    | _ => (txdb.disk (.tx hash)).isSome

/-- The number that the compact form of a target stands for. -/
def SetCompact (nCompact : UInt32) : ℤ :=
  let nSize := nCompact.toNat / 2 ^ 24
  let word := nCompact.toNat % 2 ^ 23
  let magnitude : ℕ := if nSize ≤ 3 then word / 256 ^ (3 - nSize) else word * 256 ^ (nSize - 3)
  if nCompact.toNat / 2 ^ 23 % 2 = 1 ∧ 1 ≤ nSize then -(magnitude : ℤ) else magnitude

/-- Whether a hash meets the target that its block claims. -/
def CheckProofOfWork (hash : UInt256) (nBits : UInt32) : Bool :=
  let bnTarget := SetCompact nBits
  decide (0 < bnTarget) && decide (bnTarget ≤ ctx.proofOfWorkLimit) &&
    decide ((hash.toNat : ℤ) ≤ bnTarget)

def CBlockIndex.GetBlockTrust (pindex : CBlockIndex) : UInt256 :=
  let bnTarget := SetCompact pindex.nBits
  if bnTarget ≤ 0 then 0 else BitVec.ofInt 256 (2 ^ 256 / (bnTarget + 1))

/-- The height of the last checkpoint. -/
def GetTotalBlocksEstimate : ℕ :=
  if ctx.network = .testnet then 0 else 110

def NodeState.IsInMainChain (s : NodeState) (pindex : UInt256) : Bool :=
  match s.mapBlockIndex pindex with
  | some i => i.pnext.isSome || s.pindexBest == some pindex
  | none => false

def ReadFromDisk (ctx : Context) (pindex : UInt256) (i : CBlockIndex) : Except Failure CBlock :=
  match ctx.files.block i.nFile i.nBlockPos with
  | none => .error (.error "CBlock::ReadFromDisk() : OpenBlockFile failed")
  | some block => do
    ensure (¬(block.IsProofOfWork ∧ ¬CheckProofOfWork ctx (ctx.GetHash block) block.nBits))
      (.error "CBlock::ReadFromDisk() : errors in block header")
    ensure (ctx.GetHash block = pindex)
      (.error "CBlock::ReadFromDisk() : GetHash() doesn't match index")
    pure block

def IsInitialBlockDownload (env : Env) (s : NodeState) : Bool :=
  match s.pindexBest.bind s.mapBlockIndex with
  | none => true
  | some best =>
    if s.nBestHeight < GetTotalBlocksEstimate ctx then true
    else
      let nLastUpdate := if s.pindexBest ≠ s.pindexLastBest then env.time else s.nLastUpdate
      decide (env.time - nLastUpdate < 15) &&
        decide (best.GetBlockTime < env.time - 8 * 60 * 60)

/-- The static variables of `IsInitialBlockDownload` after a call. -/
def NodeState.afterDownloadCheck (env : Env) (s : NodeState) : NodeState :=
  if s.pindexBest = none ∨ s.nBestHeight < GetTotalBlocksEstimate ctx ∨
      s.pindexBest = s.pindexLastBest then s
  else { s with pindexLastBest := s.pindexBest, nLastUpdate := env.time }

end ZalemCoin.Chain
