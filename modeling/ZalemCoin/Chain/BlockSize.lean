import ZalemCoin.Chain.State

/-!
# The block size calculator

The limit on the size of a block comes from a window of the sizes of recent blocks, which the
calculator keeps in a static variable and updates by one element at a call. The size of a block is
read from the four bytes before its position in a file of the directory `blocks`; opening such a
file creates it when it does not exist.
-/

namespace ZalemCoin.Chain

open Lib

def MAX_BLOCK_SIZE_INCREASE_MULTIPLE : UInt32 := 2

def NUM_BLOCKS_FOR_MEDIAN_BLOCK : ℕ := 25

def MIN_BLOCK_SIZE : ℕ := 2051200

/-- Follows the links to previous blocks down to a height. The first argument is the number of
steps that may still be taken. -/
def walkBack (s : NodeState) (nHeight : ℕ) :
    ℕ → Option UInt256 → Except Failure (Option UInt256)
  | 0, _ => .error (.crash "FindBlockByHeight does not return")
  | fuel + 1, pblockindex => do
    let i ← s.index pblockindex
    if nHeight < i.nHeight then walkBack s nHeight fuel i.pprev else pure pblockindex

/-- Follows the links to next blocks up to a height. -/
def walkForward (s : NodeState) (nHeight : ℕ) :
    ℕ → Option UInt256 → Except Failure (Option UInt256)
  | 0, _ => .error (.crash "FindBlockByHeight does not return")
  | fuel + 1, pblockindex => do
    let i ← s.index pblockindex
    if i.nHeight < nHeight then walkForward s nHeight fuel i.pnext else pure pblockindex

/-- Where the search for a height starts: at the nearer end of the chain, or at the last block
found when that is nearer still. -/
def findStart (s : NodeState) (nHeight : ℕ) : Except Failure (Option UInt256) := do
  let pblockindex :=
    if (nHeight : ℤ) < s.nBestHeight.tdiv 2 then s.pindexGenesisBlock else s.pindexBest
  match s.pblockindexFBBHLast with
  | none => pure pblockindex
  | some last => do
    let i ← s.index pblockindex
    let l ← s.index (some last)
    if ((nHeight : ℤ) - l.nHeight).natAbs < ((nHeight : ℤ) - i.nHeight).natAbs then
      pure (some last)
    else pure pblockindex

def FindBlockByHeight (nHeight : ℕ) : NodeM (Option UInt256) := do
  let pblockindex ← Action.reading fun s => do
    let start ← findStart s nHeight
    let i ← s.index start
    let lower ← walkBack s nHeight (i.nHeight + 1) start
    walkForward s nHeight (nHeight + 1) lower
  Action.modify fun s => { s with pblockindexFBBHLast := pblockindex }
  pure pblockindex

/-- The number in the four bytes before a position of a file; missing bytes count as zero. -/
def sizeBefore (file : List UInt8) (nPos : UInt32) : UInt32 :=
  let bytes := file.drop (if nPos < 4 then nPos.toNat else nPos.toNat - 4)
  let byte (i : ℕ) : UInt32 := (bytes.getD i 0).toUInt32
  byte 0 + 256 * (byte 1 + 256 * (byte 2 + 256 * byte 3))

/-- The size of a block as the calculator reads it; `0xffffffff` stands for minus one. -/
def GetBlockSize (pblockindex : Option UInt256) : NodeM UInt32 :=
  match pblockindex with
  | none => pure 0xffffffff
  | some p => do
    let i ← Action.reading fun s => s.index (some p)
    Action.check (i.nFile ≠ 0xffffffff) (.crash "GetBlockSize: null file")
    let s ← Action.get
    let file := (s.blocksDir i.nFile).getD []
    Action.modify fun s => { s with blocksDir := Function.update s.blocksDir i.nFile (some file) }
    pure (sizeBefore file i.nBlockPos)

/-- The search of `std::lower_bound` in the range of length `len` from `first`. -/
def lowerBoundLoop (sizes : List UInt32) (value : UInt32) : ℕ → ℕ → ℕ → ℕ
  | 0, first, _ => first
  | fuel + 1, first, len =>
    if len = 0 then first
    else
      let half := len / 2
      if sizes.getD (first + half) 0 < value then
        lowerBoundLoop sizes value fuel (first + half + 1) (len - half - 1)
      else lowerBoundLoop sizes value fuel first half

/-- Inserts a size where `std::lower_bound` puts it. -/
def insertSize (sizes : List UInt32) (value : UInt32) : List UInt32 :=
  sizes.insertIdx (lowerBoundLoop sizes value (sizes.length + 1) 0 sizes.length) value

/-- Fills the empty window with the sizes of the blocks from an index down to a height. -/
def collectSizes (firstBlock : ℕ) : ℕ → Option UInt256 → NodeM Unit
  | _, none => pure ()
  | 0, some _ => Action.fail (.crash "GetBlockSizes does not return")
  | fuel + 1, some p => do
    let i ← Action.reading fun s => s.index (some p)
    if firstBlock < i.nHeight then
      let blocksize ← GetBlockSize (some p)
      Action.modify fun s =>
        if blocksize ≠ 0xffffffff then { s with blocksizes := s.blocksizes ++ [blocksize] } else s
      collectSizes firstBlock fuel i.pprev
    else pure ()

/-- Moves a window that is not empty by one block: the size of the block that leaves is replaced by
the size of the block that enters. -/
def moveWindow (pblockindex : UInt256) (firstBlock : ℕ) : NodeM Unit := do
  let latestBlockSize ← GetBlockSize (some pblockindex)
  if latestBlockSize ≠ 0xffffffff then
    let firstBlockIndex ← FindBlockByHeight firstBlock
    let oldestBlockSize ← GetBlockSize firstBlockIndex
    if oldestBlockSize ≠ 0xffffffff then
      Action.modify fun s =>
        if oldestBlockSize ∈ s.blocksizes then
          { s with blocksizes := insertSize (s.blocksizes.erase oldestBlockSize) latestBlockSize }
        else s

/-- Brings the window up to date for a block. -/
def GetBlockSizes (pblockindex : UInt256) (pastblocks : ℕ) : NodeM Unit := do
  let i ← Action.reading fun s => s.index (some pblockindex)
  if i.nHeight < pastblocks then pure ()
  else
    let s ← Action.get
    if s.blocksizes ≠ [] then moveWindow pblockindex (i.nHeight - pastblocks)
    else collectSizes (i.nHeight - pastblocks) (i.nHeight + 1) (some pblockindex)

/-- The middle element of a window, or the mean of its two middle elements. -/
def medianOf (sizes : List UInt32) : UInt32 :=
  let vsize := sizes.length
  if vsize % 2 = 0 then (sizes.getD (vsize / 2) 0 + sizes.getD (vsize / 2 - 1) 0) / 2
  else sizes.getD (vsize / 2) 0

/-- The median of the window, and zero while the window is not full. The window is sorted at the
first call only. -/
def GetMedianBlockSize (pblockindex : UInt256) (pastblocks : ℕ) : NodeM UInt32 := do
  GetBlockSizes pblockindex pastblocks
  Action.modify fun s =>
    if s.sorted then s
    else { s with blocksizes := s.blocksizes.insertionSort (· ≤ ·), sorted := true }
  let s ← Action.get
  pure (if s.blocksizes.length = pastblocks then medianOf s.blocksizes else 0)

def ComputeBlockSize (pblockindex : UInt256) : NodeM ℕ := do
  let proposedMaxBlockSize ← GetMedianBlockSize pblockindex NUM_BLOCKS_FOR_MEDIAN_BLOCK
  if proposedMaxBlockSize > 0 then
    let result := proposedMaxBlockSize * MAX_BLOCK_SIZE_INCREASE_MULTIPLE
    let result := if result < proposedMaxBlockSize then 0xffffffff else result
    pure (max result.toNat MIN_BLOCK_SIZE)
  else pure MIN_BLOCK_SIZE

end ZalemCoin.Chain
