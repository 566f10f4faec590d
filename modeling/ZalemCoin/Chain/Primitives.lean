import Mathlib.Data.BitVec
import Mathlib.Data.Int.ModEq
import ZalemCoin.Lib.Action
import ZalemCoin.Lib.SlotLedger

/-!
# Transactions, blocks and their serialised sizes

The data that the node moves about, with the source's names for its fields. Hashes are 256-bit
values; an amount is an integer, and `wrap64` stands wherever the source accumulates amounts in an
`int64_t`. The sizes are those of the network serialisation, which for these types is also the
serialisation on disk.
-/

namespace ZalemCoin.Chain

open Lib

/-- A 256-bit hash or number. -/
abbrev UInt256 := BitVec 256

instance : LawfulBEq UInt256 := instLawfulBEq

/-- A 160-bit hash. -/
abbrev UInt160 := BitVec 160

abbrev CScript := List UInt8

/-- The value that an `int64_t` holds after an addition or subtraction with this result. -/
def wrap64 (x : ℤ) : ℤ := x.bmod (2 ^ 64)

def COIN : ℤ := 100000000

/-- One hundredth of a coin. -/
def CENT : ℤ := 1000000

/-- The collateral of a mixing session. -/
def MNengine_COLLATERAL : ℤ := 1 * COIN

/-- No amount larger than this is valid. -/
def MAX_SINGLE_TX : ℤ := 300000000 * COIN

/-- An amount that is neither negative nor too large. -/
def MoneyRange (nValue : ℤ) : Prop := 0 ≤ nValue ∧ nValue ≤ MAX_SINGLE_TX

instance (nValue : ℤ) : Decidable (MoneyRange nValue) := inferInstanceAs (Decidable (_ ∧ _))

/-- An outpoint: the hash of a transaction and the number of one of its outputs. -/
structure COutPoint where
  hash : UInt256
  n : UInt32
deriving DecidableEq

/-- The outpoint that refers to nothing. -/
def COutPoint.null : COutPoint := ⟨0, 0xffffffff⟩

/-- Whether an outpoint refers to nothing. -/
def COutPoint.IsNull (o : COutPoint) : Bool := o.hash == 0 && o.n == 0xffffffff

/-- An input: the output that it claims, and the script that entitles it to it. -/
structure CTxIn where
  prevout : COutPoint
  scriptSig : CScript
  nSequence : UInt32
deriving DecidableEq

/-- An output: an amount, and the script that a claim on it must satisfy. -/
structure CTxOut where
  nValue : ℤ
  scriptPubKey : CScript
deriving DecidableEq

/-- The empty output marks a coinstake, and the coinbase of a proof-of-stake block. -/
def CTxOut.IsEmpty (o : CTxOut) : Bool := o.nValue == 0 && o.scriptPubKey.isEmpty

structure CTransaction where
  nVersion : ℤ
  nTime : UInt32
  vin : List CTxIn
  vout : List CTxOut
  nLockTime : UInt32
deriving DecidableEq

namespace CTransaction

/-- A coinbase has a single input that refers to nothing. -/
def IsCoinBase (tx : CTransaction) : Bool :=
  match tx.vin with
  | [txin] => txin.prevout.IsNull && decide (1 ≤ tx.vout.length)
  | _ => false

/-- A coinstake spends something, and its first output is empty. -/
def IsCoinStake (tx : CTransaction) : Bool :=
  match tx.vin, tx.vout with
  | txin :: _, txout :: _ :: _ => !txin.prevout.IsNull && txout.IsEmpty
  | _, _ => false

theorem not_isCoinBase_of_isCoinStake {tx : CTransaction} (h : tx.IsCoinStake = true) :
    tx.IsCoinBase = false := by
  unfold IsCoinStake at h
  unfold IsCoinBase
  split at h
  · rename_i txin rest _ _ _ hvin hvout
    rw [hvin]
    cases rest with
    | nil =>
      simp only [Bool.and_eq_true, Bool.not_eq_true'] at h
      simp [h.1]
    | cons _ _ => rfl
  · cases h

end CTransaction

structure CBlockHeader where
  nVersion : ℤ
  hashPrevBlock : UInt256
  hashMerkleRoot : UInt256
  nTime : UInt32
  nBits : UInt32
  nNonce : UInt32
deriving DecidableEq

structure CBlock extends CBlockHeader where
  vtx : List CTransaction
  vchBlockSig : List UInt8
deriving DecidableEq

namespace CBlock

def GetBlockTime (block : CBlock) : ℤ := block.nTime.toNat

def IsProofOfStake (block : CBlock) : Bool :=
  match block.vtx with
  | _ :: tx :: _ => tx.IsCoinStake
  | _ => false

def IsProofOfWork (block : CBlock) : Bool := !block.IsProofOfStake

end CBlock

/-- The number of bytes of the length prefix of a sequence. -/
def GetSizeOfCompactSize (nSize : ℕ) : ℕ :=
  if nSize < 253 then 1 else if nSize ≤ 0xffff then 3 else if nSize ≤ 0xffffffff then 5 else 9

def bytesSize (bytes : List UInt8) : ℕ := GetSizeOfCompactSize bytes.length + bytes.length

def CTxIn.GetSerializeSize (txin : CTxIn) : ℕ := 36 + bytesSize txin.scriptSig + 4

def CTxOut.GetSerializeSize (txout : CTxOut) : ℕ := 8 + bytesSize txout.scriptPubKey

def CTransaction.GetSerializeSize (tx : CTransaction) : ℕ :=
  4 + 4 + (GetSizeOfCompactSize tx.vin.length + (tx.vin.map CTxIn.GetSerializeSize).sum)
    + (GetSizeOfCompactSize tx.vout.length + (tx.vout.map CTxOut.GetSerializeSize).sum) + 4

def CBlock.GetSerializeSize (block : CBlock) : ℕ :=
  80 + (GetSizeOfCompactSize block.vtx.length
    + (block.vtx.map CTransaction.GetSerializeSize).sum) + bytesSize block.vchBlockSig

/-- A position on disk: a block file, the start of a block in it, and the start of a transaction.
A position in the file numbered `2 ^ 32 - 1` is null, and only one such position is used. -/
structure CDiskTxPos where
  nFile : UInt32
  nBlockPos : UInt32
  nTxPos : UInt32
  /-- A null position has no other content. -/
  null_unique : nFile = 0xffffffff → nBlockPos = 0 ∧ nTxPos = 0
deriving DecidableEq

namespace CDiskTxPos

def null : CDiskTxPos := ⟨0xffffffff, 0, 0, by decide⟩

/-- The position with this content, and the null position in the null file. -/
def of (nFile nBlockPos nTxPos : UInt32) : CDiskTxPos :=
  if h : nFile = 0xffffffff then null else ⟨nFile, nBlockPos, nTxPos, fun h' => absurd h' h⟩

def IsNull (pos : CDiskTxPos) : Prop := pos.nFile = 0xffffffff

instance (pos : CDiskTxPos) : Decidable pos.IsNull := inferInstanceAs (Decidable (_ = _))

def memoryPool : CDiskTxPos := ⟨1, 1, 1, by decide⟩

theorem of_eq {nFile nBlockPos nTxPos : UInt32} (h : nFile ≠ 0xffffffff) :
    (of nFile nBlockPos nTxPos).nFile = nFile ∧ (of nFile nBlockPos nTxPos).nBlockPos = nBlockPos ∧
      (of nFile nBlockPos nTxPos).nTxPos = nTxPos := by
  simp [of, h]

theorem of_ne_null {nFile nBlockPos nTxPos : UInt32} (h : nFile ≠ 0xffffffff) :
    of nFile nBlockPos nTxPos ≠ null := by
  intro heq
  have hfile := (@of_eq nFile nBlockPos nTxPos h).1
  rw [heq] at hfile
  exact h hfile.symm

end CDiskTxPos

/-- The index entry of a transaction: its position, and the positions of the spenders of its
outputs. -/
abbrev CTxIndex := Entry CDiskTxPos

abbrev CTxIndex.vSpent (txindex : CTxIndex) : List CDiskTxPos := txindex.slots

def CTxIndex.new (pos : CDiskTxPos) (nOutputs : ℕ) : CTxIndex :=
  ⟨pos, List.replicate nOutputs CDiskTxPos.null⟩

/-- Why a call did not succeed: it returned false with a misbehaviour score and a message, or it
stopped the process (an assertion, an exception or a null pointer). -/
inductive Failure where
  | reject (nDoS : ℕ) (msg : String)
  | crash (msg : String)
deriving DecidableEq

/-- The source's `error`, which reports a failure without a score. -/
abbrev Failure.error (msg : String) : Failure := .reject 0 msg

/-- What the outputs of a transaction add up to; the source throws when a sum leaves the range. -/
def CTransaction.GetValueOut (tx : CTransaction) : Except Failure ℤ :=
  tx.vout.foldlM (fun nValueOut txout => do
    let nValueOut := wrap64 (nValueOut + txout.nValue)
    ensure (MoneyRange txout.nValue ∧ MoneyRange nValueOut)
      (.crash "CTransaction::GetValueOut() : value out of range")
    pure nValueOut) 0

end ZalemCoin.Chain
