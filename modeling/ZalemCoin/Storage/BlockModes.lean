import ZalemCoin.Storage.BlockFormat
import ZalemCoin.Storage.CompactSize

/-!
# Blocks in every mode

The mode of a stream says what a block is written for. For its hash, or for its header only, its
transactions and its signature are left out, and reading clears them. The sizes that `GetSerializeSize`
adds up are those of what is written; the function has them in 32 bits.
-/

namespace ZalemCoin.Storage

open Lib Chain
open List (length_append)

/-! ## Modes -/

/-- What a stream is for. -/
def SER_NETWORK : UInt32 := (1 : UInt32) <<< 0
def SER_DISK : UInt32 := (1 : UInt32) <<< 1
def SER_GETHASH : UInt32 := (1 : UInt32) <<< 2

/-- The modifier of a stream that has headers only. -/
def SER_BLOCKHEADERONLY : UInt32 := (1 : UInt32) <<< 17

/-- Whether a mode leaves the transactions of a block out. -/
def HeaderOnly (nType : UInt32) : Prop := nType &&& (SER_GETHASH ||| SER_BLOCKHEADERONLY) ≠ 0

instance (nType : UInt32) : Decidable (HeaderOnly nType) := inferInstanceAs (Decidable (_ ≠ _))

/-- `Serialize` of a block. -/
def serializeBlock (nType : UInt32) (block : CBlock) : List UInt8 :=
  writeHeader block.toCBlockHeader ++
    if ¬HeaderOnly nType then writeVector writeTransaction block.vtx ++ writeBytes block.vchBlockSig
    else []

/-- `Unserialize` of a block. -/
def unserializeBlock (nType : UInt32) : Reader CBlock := do
  let header ← readHeader
  if ¬HeaderOnly nType then
    let vtx ← readVector readTransaction
    let vchBlockSig ← readBytes
    pure ⟨header, vtx, vchBlockSig⟩
  else pure ⟨header, [], []⟩

/-- `GetSerializeSize` of a block. -/
def blockSerializeSize (nType : UInt32) (block : CBlock) : ℕ :=
  if ¬HeaderOnly nType then block.GetSerializeSize else 80

def keptBlock (nType : UInt32) (block : CBlock) : CBlock :=
  if ¬HeaderOnly nType then block else ⟨block.toCBlockHeader, [], []⟩

/-! ## Sizes -/

theorem length_writeInt (k : ℕ) (n : ℤ) : (writeInt k n).length = k := length_littleEndian _ _

theorem length_writeUInt32 (n : UInt32) : (writeUInt32 n).length = 4 := length_littleEndian _ _

theorem length_writeHash (hash : UInt256) : (writeHash hash).length = 32 := length_littleEndian _ _

theorem length_writeBytes (v : List UInt8) : (writeBytes v).length = bytesSize v := by
  unfold writeBytes bytesSize
  rw [length_append, length_writeCompactSize]

theorem length_writeVector {α : Type} {write : α → List UInt8} {size : α → ℕ} {v : List α}
    (h : ∀ a, (write a).length = size a) :
    (writeVector write v).length = GetSizeOfCompactSize v.length + (v.map size).sum := by
  unfold writeVector
  rw [length_append, length_writeCompactSize, List.length_flatMap]
  simp only [h]

theorem length_writeTxIn (txin : CTxIn) : (writeTxIn txin).length = txin.GetSerializeSize := by
  unfold writeTxIn writeOutPoint CTxIn.GetSerializeSize
  rw [length_append, length_append, length_append, length_writeHash,
    length_writeUInt32, length_writeUInt32, length_writeBytes]
  omega

theorem length_writeTxOut (txout : CTxOut) : (writeTxOut txout).length = txout.GetSerializeSize := by
  unfold writeTxOut CTxOut.GetSerializeSize
  rw [length_append, length_writeInt, length_writeBytes]

theorem length_writeTransaction (tx : CTransaction) :
    (writeTransaction tx).length = tx.GetSerializeSize := by
  unfold writeTransaction CTransaction.GetSerializeSize
  rw [length_append, length_append, length_append, length_append, length_writeInt,
    length_writeUInt32, length_writeUInt32, length_writeVector length_writeTxIn,
    length_writeVector length_writeTxOut]
  omega

theorem length_writeHeader (header : CBlockHeader) : (writeHeader header).length = 80 := by
  unfold writeHeader
  rw [length_append, length_append, length_append, length_append,
    length_append, length_writeInt, length_writeHash, length_writeHash, length_writeUInt32,
    length_writeUInt32, length_writeUInt32]

theorem length_serializeBlock (nType : UInt32) (block : CBlock) :
    (serializeBlock nType block).length = blockSerializeSize nType block := by
  unfold serializeBlock blockSerializeSize CBlock.GetSerializeSize
  rw [length_append, length_writeHeader]
  split_ifs
  · rfl
  · rw [length_append, length_writeVector length_writeTransaction, length_writeBytes]
    omega

/-! ## What is written is read back -/

theorem reads_unserializeBlock (nType : UInt32) {block : CBlock} (h : Writable.Block block) :
    Reads (unserializeBlock nType) (serializeBlock nType block) (keptBlock nType block) := by
  unfold unserializeBlock serializeBlock keptBlock
  apply Reads.bind (reads_header h.nVersion)
  split_ifs
  · exact Reads.pure _
  · apply Reads.bind (reads_vector h.vtx.1 fun tx hmem => reads_transaction (h.vtx.2 tx hmem))
    exact reads_bind_pure (reads_bytes h.vchBlockSig) _

end ZalemCoin.Storage
