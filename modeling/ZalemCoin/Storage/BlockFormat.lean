import ZalemCoin.Chain.Primitives
import ZalemCoin.Storage.Serialize

/-!
# Blocks on the disk

The `Serialize` and `Unserialize` functions of blocks, their transactions and their inputs and outputs,
as they are on the disk. A block whose numbers fit their types and whose vectors are not too long is read
back.
-/

namespace ZalemCoin.Storage

open Lib Chain

/-! ## Reading and writing -/

def writeHash (hash : UInt256) : List UInt8 := littleEndian 32 hash.toNat
def readHash : Reader UInt256 := BitVec.ofNat 256 <$> Reader.takeNat 32

/-- A vector, each element by its own functions. -/
def writeVector {α : Type} (write : α → List UInt8) (v : List α) : List UInt8 :=
  WriteCompactSize v.length ++ v.flatMap write
def readVector {α : Type} (read : Reader α) : Reader (List α) := do
  let nSize ← ReadCompactSize
  Reader.loop (fun _ v => do
    let a ← read
    pure (v ++ [a])) 0 nSize []

/-- An outpoint. -/
def writeOutPoint (o : COutPoint) : List UInt8 := writeHash o.hash ++ writeUInt32 o.n
def readOutPoint : Reader COutPoint := do
  let hash ← readHash
  let n ← readUInt32
  pure ⟨hash, n⟩

def writeTxIn (txin : CTxIn) : List UInt8 :=
  writeOutPoint txin.prevout ++ (writeBytes txin.scriptSig ++ writeUInt32 txin.nSequence)
def readTxIn : Reader CTxIn := do
  let prevout ← readOutPoint
  let scriptSig ← readBytes
  let nSequence ← readUInt32
  pure ⟨prevout, scriptSig, nSequence⟩

def writeTxOut (txout : CTxOut) : List UInt8 := writeInt 8 txout.nValue ++ writeBytes txout.scriptPubKey
def readTxOut : Reader CTxOut := do
  let nValue ← readInt 8
  let scriptPubKey ← readBytes
  pure ⟨nValue, scriptPubKey⟩

def writeTransaction (tx : CTransaction) : List UInt8 :=
  writeInt 4 tx.nVersion ++ (writeUInt32 tx.nTime ++ (writeVector writeTxIn tx.vin
    ++ (writeVector writeTxOut tx.vout ++ writeUInt32 tx.nLockTime)))
def readTransaction : Reader CTransaction := do
  let nVersion ← readInt 4
  let nTime ← readUInt32
  let vin ← readVector readTxIn
  let vout ← readVector readTxOut
  let nLockTime ← readUInt32
  pure ⟨nVersion, nTime, vin, vout, nLockTime⟩

def writeHeader (header : CBlockHeader) : List UInt8 :=
  writeInt 4 header.nVersion ++ (writeHash header.hashPrevBlock ++ (writeHash header.hashMerkleRoot
    ++ (writeUInt32 header.nTime ++ (writeUInt32 header.nBits ++ writeUInt32 header.nNonce))))
def readHeader : Reader CBlockHeader := do
  let nVersion ← readInt 4
  let hashPrevBlock ← readHash
  let hashMerkleRoot ← readHash
  let nTime ← readUInt32
  let nBits ← readUInt32
  let nNonce ← readUInt32
  pure ⟨nVersion, hashPrevBlock, hashMerkleRoot, nTime, nBits, nNonce⟩

def writeBlock (block : CBlock) : List UInt8 :=
  writeHeader block.toCBlockHeader
    ++ (writeVector writeTransaction block.vtx ++ writeBytes block.vchBlockSig)
def readBlock : Reader CBlock := do
  let header ← readHeader
  let vtx ← readVector readTransaction
  let vchBlockSig ← readBytes
  pure ⟨header, vtx, vchBlockSig⟩

/-! ## What is written is read back -/

/-- A number that fits into `k` bytes with its sign. -/
def FitsBytes (k : ℕ) (n : ℤ) : Prop := -256 ^ k ≤ 2 * n ∧ 2 * n < 256 ^ k

/-- An input whose script is not too long. -/
def Writable.TxIn (txin : CTxIn) : Prop := txin.scriptSig.length ≤ MAX_SIZE

/-- An output whose value fits, and whose script is not too long. -/
structure Writable.TxOut (txout : CTxOut) : Prop where
  nValue : FitsBytes 8 txout.nValue
  scriptPubKey : txout.scriptPubKey.length ≤ MAX_SIZE

/-- A transaction whose version fits, and whose vectors are not too long. -/
structure Writable.Transaction (tx : CTransaction) : Prop where
  nVersion : FitsBytes 4 tx.nVersion
  vin : tx.vin.length ≤ MAX_SIZE ∧ ∀ txin ∈ tx.vin, Writable.TxIn txin
  vout : tx.vout.length ≤ MAX_SIZE ∧ ∀ txout ∈ tx.vout, Writable.TxOut txout

/-- A block whose version fits, and whose vectors are not too long. -/
structure Writable.Block (block : CBlock) : Prop where
  nVersion : FitsBytes 4 block.nVersion
  vtx : block.vtx.length ≤ MAX_SIZE ∧ ∀ tx ∈ block.vtx, Writable.Transaction tx
  vchBlockSig : block.vchBlockSig.length ≤ MAX_SIZE

theorem reads_bind_pure {α β : Type} {r : Reader α} {bytes : List UInt8} {a : α} (hr : Reads r bytes a)
    (f : α → β) : Reads (r >>= fun a => pure (f a)) bytes (f a) := by
  have hread := Reads.bind (f := fun a => pure (f a)) hr (Reads.pure (f a))
  rwa [List.append_nil] at hread

theorem reads_hash (hash : UInt256) : Reads readHash (writeHash hash) hash := by
  have hfits : hash.toNat < 256 ^ 32 := lt_of_lt_of_le hash.isLt (by norm_num)
  have hread := (Reads.takeNat hfits).map (BitVec.ofNat 256)
  rwa [BitVec.ofNat_toNat, BitVec.setWidth_eq] at hread

theorem reads_vector {α : Type} {read : Reader α} {write : α → List UInt8} {v : List α}
    (hlen : v.length ≤ MAX_SIZE) (hread : ∀ a ∈ v, Reads read (write a) a) :
    Reads (readVector read) (writeVector write v) v := by
  apply Reads.bind (reads_compactSize hlen)
  have hstep : ∀ done a rest, v = done ++ a :: rest → ∀ s, s = done →
      ∃ s', Reads (read >>= fun a => pure (s ++ [a])) (write a) s' ∧ s' = done ++ [a] := by
    rintro done a rest rfl s rfl
    exact ⟨s ++ [a], reads_bind_pure (hread a (by simp)) fun a => s ++ [a], rfl⟩
  obtain ⟨v', hloop, rfl⟩ := @Reads.loop α (List α) (fun _ s => read >>= fun a => pure (s ++ [a])) write
    (fun done s => s = done) v hstep [] rfl
  exact hloop

theorem reads_outPoint (o : COutPoint) : Reads readOutPoint (writeOutPoint o) o := by
  apply Reads.bind (reads_hash o.hash)
  exact reads_bind_pure (reads_uint32 o.n) _

theorem reads_txIn {txin : CTxIn} (h : Writable.TxIn txin) : Reads readTxIn (writeTxIn txin) txin := by
  apply Reads.bind (reads_outPoint txin.prevout)
  apply Reads.bind (reads_bytes h)
  exact reads_bind_pure (reads_uint32 txin.nSequence) _

theorem reads_txOut {txout : CTxOut} (h : Writable.TxOut txout) :
    Reads readTxOut (writeTxOut txout) txout := by
  apply Reads.bind (reads_int h.nValue.1 h.nValue.2)
  exact reads_bind_pure (reads_bytes h.scriptPubKey) _

theorem reads_transaction {tx : CTransaction} (h : Writable.Transaction tx) :
    Reads readTransaction (writeTransaction tx) tx := by
  apply Reads.bind (reads_int h.nVersion.1 h.nVersion.2)
  apply Reads.bind (reads_uint32 tx.nTime)
  apply Reads.bind (reads_vector h.vin.1 fun txin hmem => reads_txIn (h.vin.2 txin hmem))
  apply Reads.bind (reads_vector h.vout.1 fun txout hmem => reads_txOut (h.vout.2 txout hmem))
  exact reads_bind_pure (reads_uint32 tx.nLockTime) _

theorem reads_header {header : CBlockHeader} (h : FitsBytes 4 header.nVersion) :
    Reads readHeader (writeHeader header) header := by
  apply Reads.bind (reads_int h.1 h.2)
  apply Reads.bind (reads_hash header.hashPrevBlock)
  apply Reads.bind (reads_hash header.hashMerkleRoot)
  apply Reads.bind (reads_uint32 header.nTime)
  apply Reads.bind (reads_uint32 header.nBits)
  exact reads_bind_pure (reads_uint32 header.nNonce) _

theorem reads_block {block : CBlock} (h : Writable.Block block) :
    Reads readBlock (writeBlock block) block := by
  apply Reads.bind (reads_header h.nVersion)
  apply Reads.bind (reads_vector h.vtx.1 fun tx hmem => reads_transaction (h.vtx.2 tx hmem))
  exact reads_bind_pure (reads_bytes h.vchBlockSig) _

end ZalemCoin.Storage
