import ZalemCoin.Chain.BestChain
import ZalemCoin.Lib.Placeholders

/-!
# Loading the block index

When a node starts, `LoadBlockIndex` reads the stored entries of the block index, in whatever order
the database has them, and makes an entry for every hash that it meets: for the block itself, for the
one before it, and for the next one. It computes the trusts by increasing height, and takes the best
block that the database names. Then it checks the last blocks of the best chain, and moves back to
before the lowest one that it finds bad.
-/

namespace ZalemCoin.Chain

open Lib

/-! ## Reading the entries -/

/-- The map of block indices while it is being filled. -/
abbrev IndexMap := AList fun _ : UInt256 => CBlockIndex

def CBlockIndex.blank : CBlockIndex where
  pprev := none
  pnext := none
  nFile := 0
  nBlockPos := 0
  nChainTrust := 0
  nHeight := 0
  nMint := 0
  nMoneySupply := 0
  fProofOfStake := false
  fStakeEntropy := false
  fStakeModifier := false
  nStakeModifier := 0
  bnStakeModifierV2 := 0
  prevoutStake := COutPoint.null
  nStakeTime := 0
  hashProof := 0
  nVersion := 0
  hashMerkleRoot := 0
  nTime := 0
  nBits := 0
  nNonce := 0
  nSequenceId := 0

/-- A stored block index as it is read back: what is staked is stored for proof-of-stake blocks
only. -/
def CDiskBlockIndex.unserialize (diskindex : CDiskBlockIndex) : CDiskBlockIndex :=
  if diskindex.fProofOfStake then diskindex
  else { diskindex with prevoutStake := COutPoint.null, nStakeTime := 0 }

variable (ctx : Context)

/-- The hash of a stored block index. The one that is stored for old blocks has been computed in the
same way. -/
def CDiskBlockIndex.GetBlockHash (diskindex : CDiskBlockIndex) : UInt256 :=
  ctx.hashHeader diskindex.header

/-- The pointer to the entry of a hash, which is made when there is none; the null pointer for
zero. -/
def InsertBlockIndex (hash : UInt256) (mapBlockIndex : IndexMap) : Option UInt256 × IndexMap :=
  if hash = 0 then (none, mapBlockIndex)
  else (some hash, mention CBlockIndex.blank mapBlockIndex hash)

/-- Sets the fields of an entry to those of a stored one. -/
def CDiskBlockIndex.fill (diskindex : CDiskBlockIndex) (pprev pnext : Option UInt256)
    (pindexNew : CBlockIndex) : CBlockIndex :=
  { pindexNew with
    pprev := pprev
    pnext := pnext
    nFile := diskindex.nFile
    nBlockPos := diskindex.nBlockPos
    nHeight := diskindex.nHeight
    nMint := diskindex.nMint
    nMoneySupply := diskindex.nMoneySupply
    fProofOfStake := diskindex.fProofOfStake
    fStakeEntropy := diskindex.fStakeEntropy
    fStakeModifier := diskindex.fStakeModifier
    nStakeModifier := diskindex.nStakeModifier
    bnStakeModifierV2 := diskindex.bnStakeModifierV2
    prevoutStake := diskindex.prevoutStake
    nStakeTime := diskindex.nStakeTime
    hashProof := diskindex.hashProof
    nVersion := diskindex.nVersion
    hashMerkleRoot := diskindex.hashMerkleRoot
    nTime := diskindex.nTime
    nBits := diskindex.nBits
    nNonce := diskindex.nNonce }

/-- Reads one stored entry. -/
def loadRecord (mapBlockIndex : IndexMap) (record : CDiskBlockIndex) :
    Except Failure IndexMap :=
  let diskindex := record.unserialize
  let new := InsertBlockIndex (diskindex.GetBlockHash ctx) mapBlockIndex
  let prev := InsertBlockIndex diskindex.hashPrev new.2
  let next := InsertBlockIndex diskindex.hashNext prev.2
  match new.1.bind fun p => (next.2.lookup p).map (Prod.mk p) with
  | none => .error (.crash "null pointer")
  | some (p, pindexNew) => .ok (next.2.insert p (diskindex.fill prev.1 next.1 pindexNew))

def addTrust (mapBlockIndex : IndexMap) (p : UInt256) : IndexMap :=
  match mapBlockIndex.lookup p with
  | none => mapBlockIndex
  | some pindex =>
    mapBlockIndex.insert p
      { pindex with
        nChainTrust := ((pindex.pprev.bind fun q => mapBlockIndex.lookup q).map
          CBlockIndex.nChainTrust).getD 0 + pindex.GetBlockTrust }

def addTrusts (mapBlockIndex : IndexMap) : IndexMap :=
  let vSortedByHeight := (mapBlockIndex.entries.map fun item => (item.2.nHeight, item.1)).insertionSort
    fun a b => a.1 ≤ b.1
  vSortedByHeight.foldl (fun mapBlockIndex item => addTrust mapBlockIndex item.2) mapBlockIndex

/-- Takes the best block that the database names, and says whether there is one. -/
def loadBest : NodeM Bool := do
  let hashBestChain ← Action.reading fun s => .ok (s.txdb.read .hashBestChain)
  match hashBestChain with
  | none => do
    Action.reading fun s => ensure (s.pindexGenesisBlock = none)
      (.error "CTxDB::LoadBlockIndex() : hashBestChain not loaded")
    pure false
  | some hashBestChain => do
    Action.modify fun s => { s with hashBestChain := hashBestChain }
    let best ← Action.reading fun s =>
      match s.mapBlockIndex hashBestChain with
      | none => .error (.error
        "CTxDB::LoadBlockIndex() : hashBestChain not found in the block index")
      | some best => .ok best
    Action.modify fun s =>
      { s with
        pindexBest := some hashBestChain
        nBestHeight := best.nHeight
        nBestChainTrust := best.nChainTrust
        nBestInvalidTrust := (s.txdb.read .bnBestInvalidTrust).getD (0 : UInt256) }
    pure true

def loadIndex (records : List CDiskBlockIndex) : NodeM Bool := do
  let mapBlockIndex ← Action.reading fun _ => records.foldlM (loadRecord ctx) ∅
  Action.modify fun s =>
    { s with
      mapBlockIndex := fun p => (addTrusts mapBlockIndex).lookup p
      pindexGenesisBlock :=
        if records.any fun record => record.GetBlockHash ctx == ctx.hashGenesisBlock then
          some ctx.hashGenesisBlock
        else none }
  loadBest

/-! ## Checking the last blocks -/

/-- The arguments `-checklevel` and `-checkblocks`. -/
structure CheckArgs where
  nCheckLevel : ℤ
  nCheckBlocks : ℤ

def CheckArgs.default : CheckArgs := ⟨1, 500⟩

def CheckArgs.nCheckDepth (args : CheckArgs) (nBestHeight : ℤ) : ℤ :=
  let nCheckDepth := if args.nCheckBlocks = 0 then 1000000000 else args.nCheckBlocks
  if nCheckDepth > nBestHeight then nBestHeight else nCheckDepth

def spenderOk (s : NodeState) (nCheckLevel : ℤ)
    (mapBlockPos : List (UInt32 × UInt32)) (hashTx : UInt256) (txpos : CDiskTxPos) (nOutput : ℕ) :
    Except Failure Bool :=
  if txpos.IsNull then .ok true
  else
    let known := mapBlockPos.contains (txpos.nFile, txpos.nBlockPos)
    if nCheckLevel > 5 then
      match readTxAt ctx txpos with
      | none => .ok false
      | some txSpend =>
        match CheckTransaction s.MAX_BLOCK_SIZE txSpend with
        | .error (.crash m) => .error (.crash m)
        | .error (.reject _ _) => .ok false
        | .ok _ => .ok (known && txSpend.vin.any fun txin =>
            txin.prevout.hash == hashTx && txin.prevout.n == UInt32.ofNat nOutput)
    else .ok known

def prevoutOk (s : NodeState) (txin : CTxIn) : Except Failure Bool :=
  match s.txdb.ReadTxIndex txin.prevout.hash with
  | none => .ok true
  | some txindex =>
    if txindex.vSpent.length = 0 then .error (.crash "vSpent out of range")
    else
      match txindex.vSpent[txin.prevout.n.toNat]? with
      | none => .ok false
      | some txpos => .ok (!decide txpos.IsNull)

def allOk {α : Type} (check : α → Except Failure Bool) (l : List α) : Except Failure Bool :=
  l.foldlM (fun fine a => do
    let ok ← check a
    pure (fine && ok)) true

def txIndexOk (s : NodeState) (nCheckLevel : ℤ) (pindex : CBlockIndex)
    (mapBlockPos : List (UInt32 × UInt32)) (tx : CTransaction) : Except Failure Bool := do
  let hashTx := ctx.hashTx tx
  let indexed ←
    match s.txdb.ReadTxIndex hashTx with
    | none => .ok true
    | some txindex => do
      let placed :=
        if nCheckLevel > 2 ∨ pindex.nFile ≠ txindex.pos.nFile ∨
            pindex.nBlockPos ≠ txindex.pos.nBlockPos then
          (readTxAt ctx txindex.pos).any fun txFound => ctx.hashTx txFound == hashTx
        else true
      let spent ←
        if nCheckLevel > 3 then
          allOk (fun slot : CDiskTxPos × ℕ =>
            spenderOk ctx s nCheckLevel mapBlockPos hashTx slot.1 slot.2) txindex.vSpent.zipIdx
        else .ok true
      pure (placed && spent)
  let spends ← if nCheckLevel > 4 then allOk (prevoutOk s) tx.vin else .ok true
  pure (indexed && spends)

/-- Checks the blocks of the best chain downwards, and returns the block before the lowest bad one.
The first numbers are the level and the lowest height. -/
def verifyBlocks (ctx : Context) (env : Env) (nCheckLevel nLowest : ℤ) :
    ℕ → UInt256 → List (UInt32 × UInt32) → Option UInt256 → NodeM (Option UInt256)
  | 0, _, _, _ => Action.fail (.crash "LoadBlockIndex does not return")
  | fuel + 1, pindex, mapBlockPos, pindexFork => do
    let i ← Action.reading fun s => s.index (some pindex)
    match i.pprev with
    | none => pure pindexFork
    | some pprev =>
      if (i.nHeight : ℤ) < nLowest then pure pindexFork
      else do
        let block ← reportAs "LoadBlockIndex() : block.ReadFromDisk failed"
          (Action.reading fun _ => ReadFromDisk ctx pindex i)
        let valid ←
          if nCheckLevel > 0 then
            attempt (CheckBlock ctx env block true true (decide (nCheckLevel > 6)))
          else pure true
        let mapBlockPos := if nCheckLevel > 1 then (i.nFile, i.nBlockPos) :: mapBlockPos
          else mapBlockPos
        let indexed ← Action.reading fun s =>
          if nCheckLevel > 1 then allOk (txIndexOk ctx s nCheckLevel i mapBlockPos) block.vtx
          else .ok true
        verifyBlocks ctx env nCheckLevel nLowest fuel pprev mapBlockPos
          (if valid && indexed then pindexFork else some pprev)

def verifyBest (env : Env) (args : CheckArgs) : NodeM (Option UInt256) := do
  let best ← Action.reading fun s => s.index s.pindexBest
  let pindexBest ← Action.reading fun s => .ok (s.pindexBest.getD 0)
  verifyBlocks ctx env args.nCheckLevel (best.nHeight - args.nCheckDepth best.nHeight)
    (best.nHeight + 1) pindexBest [] none

def moveBack (env : Env) (pindexFork : UInt256) : NodeM Unit := do
  let i ← Action.reading fun s => s.index (some pindexFork)
  let block ← reportAs "LoadBlockIndex() : block.ReadFromDisk failed"
    (Action.reading fun _ => ReadFromDisk ctx pindexFork i)
  let _ ← attempt (SetBestChain ctx env block pindexFork)
  pure ()

/-- Loads the block index of a node that has just been started, from the entries that its database
has. -/
def LoadBlockIndex (env : Env) (args : CheckArgs) (records : List CDiskBlockIndex) :
    NodeM Unit := do
  let loaded ← loadIndex ctx records
  if loaded then do
    let pindexFork ← verifyBest ctx env args
    match pindexFork with
    | none => pure ()
    | some pindexFork => moveBack ctx env pindexFork
  else pure ()

end ZalemCoin.Chain
