import ZalemCoin.Chain.LoadBlockIndex
import ZalemCoin.Chain.PlainContext
import ZalemCoin.Storage.BlockModes

/-!
# Block indexes in the database

The `Serialize` and `Unserialize` functions of `CDiskBlockIndex`. The stake of a block is written for
proof-of-stake blocks only, and reading clears it for the others. What the chain takes the database to hold
is what is read back from these bytes (`reads_unserialize`).
-/

namespace ZalemCoin.Storage

open Lib Chain

structure CDiskBlockIndex where
  hashNext : UInt256
  nFile : UInt32
  nBlockPos : UInt32
  nHeight : Int32
  nMint : Int64
  nMoneySupply : Int64
  nFlags : UInt32
  nStakeModifier : UInt64
  bnStakeModifierV2 : UInt256
  prevoutStake : COutPoint
  nStakeTime : UInt32
  hashProof : UInt256
  nVersion : Int32
  hashPrev : UInt256
  hashMerkleRoot : UInt256
  nTime : UInt32
  nBits : UInt32
  nNonce : UInt32
  blockHash : UInt256
deriving DecidableEq

def BLOCK_PROOF_OF_STAKE : UInt32 := (1 : UInt32) <<< 0
def BLOCK_STAKE_ENTROPY : UInt32 := (1 : UInt32) <<< 1
def BLOCK_STAKE_MODIFIER : UInt32 := (1 : UInt32) <<< 2

def IsProofOfStake (nFlags : UInt32) : Prop := nFlags &&& BLOCK_PROOF_OF_STAKE ≠ 0

instance (nFlags : UInt32) : Decidable (IsProofOfStake nFlags) := inferInstanceAs (Decidable (_ ≠ _))

def writeStreamVersion (nType : UInt32) (nVersion : Int32) : List UInt8 :=
  if nType &&& SER_GETHASH = 0 then writeInt32 nVersion else []
def readStreamVersion (nType : UInt32) : Reader Unit :=
  if nType &&& SER_GETHASH = 0 then (fun _ => ()) <$> readInt32 else pure ()

def writeStake (i : CDiskBlockIndex) : List UInt8 :=
  if IsProofOfStake i.nFlags then writeOutPoint i.prevoutStake ++ writeUInt32 i.nStakeTime else []
def readStake (nFlags : UInt32) : Reader (COutPoint × UInt32) :=
  if IsProofOfStake nFlags then do
    let prevoutStake ← readOutPoint
    let nStakeTime ← readUInt32
    pure (prevoutStake, nStakeTime)
  else pure (COutPoint.null, 0)

/-- `Serialize` of a block index, in a stream of a version. -/
def serializeIndex (nType : UInt32) (nVersion : Int32) (i : CDiskBlockIndex) : List UInt8 :=
  writeStreamVersion nType nVersion ++ (writeHash i.hashNext ++ (writeUInt32 i.nFile
    ++ (writeUInt32 i.nBlockPos ++ (writeInt32 i.nHeight ++ (writeInt64 i.nMint
    ++ (writeInt64 i.nMoneySupply ++ (writeUInt32 i.nFlags ++ (writeUInt64 i.nStakeModifier
    ++ (writeHash i.bnStakeModifierV2 ++ (writeStake i ++ (writeHash i.hashProof
    ++ (writeInt32 i.nVersion ++ (writeHash i.hashPrev ++ (writeHash i.hashMerkleRoot
    ++ (writeUInt32 i.nTime ++ (writeUInt32 i.nBits ++ (writeUInt32 i.nNonce
    ++ writeHash i.blockHash)))))))))))))))))

/-- `Unserialize` of a block index. -/
def unserializeIndex (nType : UInt32) : Reader CDiskBlockIndex := do
  readStreamVersion nType
  let hashNext ← readHash
  let nFile ← readUInt32
  let nBlockPos ← readUInt32
  let nHeight ← readInt32
  let nMint ← readInt64
  let nMoneySupply ← readInt64
  let nFlags ← readUInt32
  let nStakeModifier ← readUInt64
  let bnStakeModifierV2 ← readHash
  let stake ← readStake nFlags
  let hashProof ← readHash
  let nVersion ← readInt32
  let hashPrev ← readHash
  let hashMerkleRoot ← readHash
  let nTime ← readUInt32
  let nBits ← readUInt32
  let nNonce ← readUInt32
  let blockHash ← readHash
  pure
    { hashNext, nFile, nBlockPos, nHeight, nMint, nMoneySupply, nFlags, nStakeModifier,
      bnStakeModifierV2, prevoutStake := stake.1, nStakeTime := stake.2, hashProof, nVersion, hashPrev,
      hashMerkleRoot, nTime, nBits, nNonce, blockHash }

/-- `GetSerializeSize` of a block index. -/
def indexSerializeSize (nType : UInt32) (i : CDiskBlockIndex) : ℕ :=
  (if nType &&& SER_GETHASH = 0 then 4 else 0) + (32 + 4 + 4 + 4 + 8 + 8 + 4 + 8 + 32)
    + (if IsProofOfStake i.nFlags then 36 + 4 else 0) + (32 + 4 + 32 + 32 + 4 + 4 + 4 + 32)

def keptIndex (i : CDiskBlockIndex) : CDiskBlockIndex :=
  if IsProofOfStake i.nFlags then i
  else { i with prevoutStake := COutPoint.null, nStakeTime := 0 }

/-! ## Sizes -/

theorem length_writeInt32 (n : Int32) : (writeInt32 n).length = 4 := length_writeInt 4 _

theorem length_writeInt64 (n : Int64) : (writeInt64 n).length = 8 := length_writeInt 8 _

theorem length_writeUInt64 (n : UInt64) : (writeUInt64 n).length = 8 := length_littleEndian _ _

variable (nType : UInt32)

theorem length_writeStreamVersion (nVersion : Int32) :
    (writeStreamVersion nType nVersion).length = if nType &&& SER_GETHASH = 0 then 4 else 0 := by
  unfold writeStreamVersion
  split_ifs
  · exact length_writeInt32 nVersion
  · rfl

theorem length_writeStake (i : CDiskBlockIndex) :
    (writeStake i).length = if IsProofOfStake i.nFlags then 36 + 4 else 0 := by
  unfold writeStake
  split_ifs
  · unfold writeOutPoint
    rw [List.length_append, List.length_append, length_writeHash, length_writeUInt32,
      length_writeUInt32]
  · rfl

theorem length_serializeIndex (nVersion : Int32) (i : CDiskBlockIndex) :
    (serializeIndex nType nVersion i).length = indexSerializeSize nType i := by
  unfold serializeIndex indexSerializeSize
  simp only [List.length_append, length_writeStreamVersion, length_writeStake, length_writeHash,
    length_writeUInt32, length_writeInt32, length_writeInt64, length_writeUInt64]
  omega

/-! ## What is written is read back -/

theorem reads_streamVersion (nVersion : Int32) :
    Reads (readStreamVersion nType) (writeStreamVersion nType nVersion) () := by
  unfold readStreamVersion writeStreamVersion
  split_ifs
  · exact (reads_int32 nVersion).map _
  · exact Reads.pure ()

theorem reads_stake (i : CDiskBlockIndex) :
    Reads (readStake i.nFlags) (writeStake i) ((keptIndex i).prevoutStake, (keptIndex i).nStakeTime) := by
  unfold readStake writeStake keptIndex
  split_ifs
  · apply Reads.bind (reads_outPoint i.prevoutStake)
    exact reads_bind_pure (reads_uint32 i.nStakeTime) _
  · exact Reads.pure _

theorem reads_unserializeIndex (nVersion : Int32) (i : CDiskBlockIndex) :
    Reads (unserializeIndex nType) (serializeIndex nType nVersion i) (keptIndex i) := by
  have hkept : keptIndex i = { i with
      prevoutStake := (keptIndex i).prevoutStake, nStakeTime := (keptIndex i).nStakeTime } := by
    unfold keptIndex
    split_ifs <;> rfl
  rw [hkept]
  apply Reads.bind (reads_streamVersion nType nVersion)
  apply Reads.bind (reads_hash i.hashNext)
  apply Reads.bind (reads_uint32 i.nFile)
  apply Reads.bind (reads_uint32 i.nBlockPos)
  apply Reads.bind (reads_int32 i.nHeight)
  apply Reads.bind (reads_int64 i.nMint)
  apply Reads.bind (reads_int64 i.nMoneySupply)
  apply Reads.bind (reads_uint32 i.nFlags)
  apply Reads.bind (reads_uint64 i.nStakeModifier)
  apply Reads.bind (reads_hash i.bnStakeModifierV2)
  apply Reads.bind (reads_stake i)
  apply Reads.bind (reads_hash i.hashProof)
  apply Reads.bind (reads_int32 i.nVersion)
  apply Reads.bind (reads_hash i.hashPrev)
  apply Reads.bind (reads_hash i.hashMerkleRoot)
  apply Reads.bind (reads_uint32 i.nTime)
  apply Reads.bind (reads_uint32 i.nBits)
  apply Reads.bind (reads_uint32 i.nNonce)
  exact reads_bind_pure (reads_hash i.blockHash) _

/-! ## The indexes of the chain -/

def flagsOf (fProofOfStake fStakeEntropy fStakeModifier : Bool) : UInt32 :=
  (if fProofOfStake then BLOCK_PROOF_OF_STAKE else 0) ||| (if fStakeEntropy then BLOCK_STAKE_ENTROPY else 0)
    ||| (if fStakeModifier then BLOCK_STAKE_MODIFIER else 0)

theorem flagsOf_and (b c d : Bool) :
    decide (flagsOf b c d &&& BLOCK_PROOF_OF_STAKE ≠ 0) = b ∧
    decide (flagsOf b c d &&& BLOCK_STAKE_ENTROPY ≠ 0) = c ∧
    decide (flagsOf b c d &&& BLOCK_STAKE_MODIFIER ≠ 0) = d := by
  revert b c d
  decide

def CDiskBlockIndex.ofIndex (blockHash : UInt256) (i : Chain.CDiskBlockIndex) : CDiskBlockIndex where
  hashNext := i.hashNext
  nFile := i.nFile
  nBlockPos := i.nBlockPos
  nHeight := Int32.ofInt i.nHeight
  nMint := Int64.ofInt i.nMint
  nMoneySupply := Int64.ofInt i.nMoneySupply
  nFlags := flagsOf i.fProofOfStake i.fStakeEntropy i.fStakeModifier
  nStakeModifier := i.nStakeModifier
  bnStakeModifierV2 := i.bnStakeModifierV2
  prevoutStake := i.prevoutStake
  nStakeTime := i.nStakeTime
  hashProof := i.hashProof
  nVersion := Int32.ofInt i.nVersion
  hashPrev := i.hashPrev
  hashMerkleRoot := i.hashMerkleRoot
  nTime := i.nTime
  nBits := i.nBits
  nNonce := i.nNonce
  blockHash := blockHash

def CDiskBlockIndex.toIndex (i : CDiskBlockIndex) : Chain.CDiskBlockIndex where
  pprev := none
  pnext := none
  nFile := i.nFile
  nBlockPos := i.nBlockPos
  nChainTrust := 0
  nHeight := i.nHeight.toInt.toNat
  nMint := i.nMint.toInt
  nMoneySupply := i.nMoneySupply.toInt
  fProofOfStake := decide (i.nFlags &&& BLOCK_PROOF_OF_STAKE ≠ 0)
  fStakeEntropy := decide (i.nFlags &&& BLOCK_STAKE_ENTROPY ≠ 0)
  fStakeModifier := decide (i.nFlags &&& BLOCK_STAKE_MODIFIER ≠ 0)
  nStakeModifier := i.nStakeModifier
  bnStakeModifierV2 := i.bnStakeModifierV2
  prevoutStake := i.prevoutStake
  nStakeTime := i.nStakeTime
  hashProof := i.hashProof
  nVersion := i.nVersion.toInt
  hashMerkleRoot := i.hashMerkleRoot
  nTime := i.nTime
  nBits := i.nBits
  nNonce := i.nNonce
  nSequenceId := 0
  hashPrev := i.hashPrev
  hashNext := i.hashNext

structure IndexFits (i : CBlockIndex) : Prop where
  nHeight : i.nHeight < 2 ^ 31
  nMint : FitsBytes 8 i.nMint
  nMoneySupply : FitsBytes 8 i.nMoneySupply
  nVersion : FitsBytes 4 i.nVersion

theorem toIndex_ofIndex {i : CBlockIndex} (h : IndexFits i) (blockHash : UInt256) :
    (CDiskBlockIndex.ofIndex blockHash (Chain.CDiskBlockIndex.of i)).toIndex
      = Chain.CDiskBlockIndex.of i := by
  obtain ⟨hstake, hentropy, hmodifier⟩ := flagsOf_and i.fProofOfStake i.fStakeEntropy i.fStakeModifier
  obtain ⟨hheight, ⟨hmint, hmint'⟩, ⟨hsup, hsup'⟩, hver, hver'⟩ := h
  unfold CDiskBlockIndex.toIndex CDiskBlockIndex.ofIndex Chain.CDiskBlockIndex.of
  dsimp only
  rw [hstake, hentropy, hmodifier, Int32.toInt_ofInt_of_le (by omega) (by omega),
    Int32.toInt_ofInt_of_le (by norm_num at *; omega) (by norm_num at *; omega),
    Int64.toInt_ofInt_of_le (by norm_num at *; omega) (by norm_num at *; omega),
    Int64.toInt_ofInt_of_le (by norm_num at *; omega) (by norm_num at *; omega), Int.toNat_natCast]

theorem toIndex_keptIndex (i : CDiskBlockIndex) : (keptIndex i).toIndex = i.toIndex.unserialize := by
  unfold keptIndex Chain.CDiskBlockIndex.unserialize
  by_cases hstake : IsProofOfStake i.nFlags
  · have hflag : i.toIndex.fProofOfStake = true := decide_eq_true hstake
    rw [if_pos hstake, if_pos hflag]
  · have hflag : ¬i.toIndex.fProofOfStake = true := fun h => hstake (of_decide_eq_true h)
    rw [if_neg hstake, if_neg hflag]
    rfl

/-- The bytes that are written for the entry of a block are read back as what the chain takes the
database to hold for it. -/
theorem reads_unserialize {i : CBlockIndex} (h : IndexFits i) (nVersion : Int32) (blockHash : UInt256) :
    Reads (CDiskBlockIndex.toIndex <$> unserializeIndex SER_DISK)
      (serializeIndex SER_DISK nVersion (CDiskBlockIndex.ofIndex blockHash (Chain.CDiskBlockIndex.of i)))
      (Chain.CDiskBlockIndex.of i).unserialize := by
  have hread := (reads_unserializeIndex SER_DISK nVersion
    (CDiskBlockIndex.ofIndex blockHash (Chain.CDiskBlockIndex.of i))).map CDiskBlockIndex.toIndex
  rwa [toIndex_keptIndex, toIndex_ofIndex h] at hread

theorem reads_unserialize_chained :
    Reads (CDiskBlockIndex.toIndex <$> unserializeIndex SER_DISK)
      (serializeIndex SER_DISK 0 (CDiskBlockIndex.ofIndex 2
        (Chain.CDiskBlockIndex.of (plainIndex 2 1 (some 1) chainedBlock))))
      (Chain.CDiskBlockIndex.of (plainIndex 2 1 (some 1) chainedBlock)).unserialize :=
  reads_unserialize ⟨by decide, ⟨by decide, by decide⟩, ⟨by decide, by decide⟩, by decide, by decide⟩ 0 2

end ZalemCoin.Storage
