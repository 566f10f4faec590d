import ZalemCoin.Chain.State

/-!
# A context to run the model in

Block files that hold one block each, for any assignment of blocks to files, and a context with
simple functions in place of the hashes: a transaction is identified by its lock time and a block by
its nonce. Concrete runs of the model are runs in this context.
-/

namespace ZalemCoin.Chain

open Lib

def bytesBefore (vtx : List CTransaction) (i : ℕ) : ℕ :=
  80 + GetSizeOfCompactSize vtx.length + ((vtx.take i).map CTransaction.GetSerializeSize).sum

theorem bytesBefore_lt {vtx : List CTransaction} {i j : ℕ} (hij : i < j) (hj : j ≤ vtx.length) :
    bytesBefore vtx i < bytesBefore vtx j := by
  unfold bytesBefore
  obtain ⟨k, rfl⟩ : ∃ k, j = i + 1 + k := ⟨j - (i + 1), by omega⟩
  have hi : i < vtx.length := by omega
  have hpos : 0 < vtx[i].GetSerializeSize := by
    unfold CTransaction.GetSerializeSize
    omega
  have htake : (vtx.take (i + 1 + k)).map CTransaction.GetSerializeSize
      = (vtx.take i).map CTransaction.GetSerializeSize ++ vtx[i].GetSerializeSize ::
        ((vtx.drop (i + 1)).take k).map CTransaction.GetSerializeSize := by
    rw [List.take_add, List.take_succ_eq_append_getElem hi, List.map_append, List.map_append,
      List.append_assoc]
    rfl
  rw [htake, List.sum_append, List.sum_cons]
  omega

theorem bytesBefore_le (block : CBlock) {i : ℕ} (hi : i ≤ block.vtx.length) :
    bytesBefore block.vtx i ≤ block.GetSerializeSize := by
  have hle : bytesBefore block.vtx i ≤ bytesBefore block.vtx block.vtx.length := by
    rcases Nat.lt_or_eq_of_le hi with hlt | rfl
    · exact Nat.le_of_lt (bytesBefore_lt hlt le_rfl)
    · exact le_rfl
  refine le_trans hle ?_
  unfold bytesBefore CBlock.GetSerializeSize
  rw [List.take_length]
  omega

theorem txPosition_injective {block : CBlock} (hsmall : block.GetSerializeSize < 2 ^ 31) {i j : ℕ}
    (hi : i < block.vtx.length) (hj : j < block.vtx.length)
    (h : txPosition 8 block.vtx i = txPosition 8 block.vtx j) : i = j := by
  have hnat := congrArg UInt32.toNat h
  change (8 + UInt32.ofNat (bytesBefore block.vtx i)).toNat
    = (8 + UInt32.ofNat (bytesBefore block.vtx j)).toNat at hnat
  have hbi := bytesBefore_le block (Nat.le_of_lt hi)
  have hbj := bytesBefore_le block (Nat.le_of_lt hj)
  rw [UInt32.toNat_add, UInt32.toNat_add, UInt32.toNat_ofNat', UInt32.toNat_ofNat',
    show (8 : UInt32).toNat = 8 from rfl] at hnat
  rcases Nat.lt_trichotomy i j with hlt | heq | hlt
  · have := bytesBefore_lt hlt (Nat.le_of_lt hj)
    omega
  · exact heq
  · have := bytesBefore_lt hlt (Nat.le_of_lt hi)
    omega

theorem noBlocks_small (_ : UInt32) (block : CBlock) (h : (none : Option CBlock) = some block) :
    block.GetSerializeSize < 2 ^ 31 := by
  cases h

def BlockFiles.ofBlocks (blocks : UInt32 → Option CBlock)
    (hsmall : ∀ nFile block, blocks nFile = some block → block.GetSerializeSize < 2 ^ 31) :
    BlockFiles where
  block nFile nPos :=
    if nFile = 0 ∨ nFile = 0xffffffff ∨ nPos ≠ 8 then none else blocks nFile
  tx nFile nPos :=
    if nFile = 0 ∨ nFile = 0xffffffff then none
    else
      (blocks nFile).bind fun block =>
        ((List.range block.vtx.length).find? fun i => txPosition 8 block.vtx i == nPos).bind
          fun i => block.vtx[i]?
  closed nPos := by simp
  room nFile nBlockPos block h := by
    split at h
    · simp at h
    · rename_i hopen
      push Not at hopen
      rw [hopen.2.2]
      decide
  tx_eq nFile nBlockPos block h i tx hi := by
    split at h
    · simp at h
    · rename_i hopen
      push Not at hopen
      obtain ⟨h0, hmax, rfl⟩ := hopen
      rw [if_neg (by push Not; exact ⟨h0, hmax⟩), h, Option.bind_some]
      have hlen : i < block.vtx.length := (List.getElem?_eq_some_iff.mp hi).1
      -- The search finds some transaction at the position, and positions are distinct.
      rcases hf : (List.range block.vtx.length).find?
          (fun j => txPosition 8 block.vtx j == txPosition 8 block.vtx i) with _ | j
      · have hnone := List.find?_eq_none.mp hf i (List.mem_range.mpr hlen)
        simp at hnone
      · have hj := List.mem_range.mp (List.mem_of_find?_eq_some hf)
        have heq := List.find?_some hf
        rw [beq_iff_eq] at heq
        rw [Option.bind_some, txPosition_injective (hsmall nFile block h) hj hlen heq]
        exact hi

def plainContext (files : BlockFiles) (hashGenesisBlock : UInt256) (signed : Bool) : Context where
  network := .testnet
  hashTx tx := BitVec.ofNat 256 tx.nLockTime.toNat
  hashHeader header := BitVec.ofNat 256 header.nNonce.toNat
  hashPair a b := a + b
  hashStakeModifier a b := a + b
  hashKernel _ _ _ _ := 0
  hash160 _ := 0
  verifySignature _ _ _ _ := signed
  checkBlockSignature _ := true
  isStandardTx _ := true
  areInputsStandard _ _ := true
  computeNextStakeModifier _ _ := some (0, false)
  generateMTRandom _ nMax := nMax
  devopsScript := []
  proofOfWorkLimit := 2 ^ 255
  hashGenesisBlock := hashGenesisBlock
  fAddrIndex := false
  files := files

def plainTx (id : UInt32) (vin : List CTxIn) (vout : List CTxOut) : CTransaction where
  nVersion := 1
  nTime := 1000
  vin := vin
  vout := vout
  nLockTime := id

def coinbaseInput : CTxIn := ⟨COutPoint.null, [0, 0], 0xffffffff⟩

def inputOf (id n : UInt32) : CTxIn := ⟨⟨BitVec.ofNat 256 id.toNat, n⟩, [], 0xffffffff⟩

def payTo (nValue : ℤ) : CTxOut := ⟨nValue, [OP_1]⟩

def plainBlock (id prev : UInt32) (hashMerkleRoot : UInt256) (vtx : List CTransaction) :
    CBlock where
  nVersion := 7
  hashPrevBlock := BitVec.ofNat 256 prev.toNat
  hashMerkleRoot := hashMerkleRoot
  nTime := 1000
  nBits := 0x207fffff
  nNonce := id
  vtx := vtx
  vchBlockSig := []

def plainIndex (nFile : UInt32) (nHeight : ℕ) (pprev : Option UInt256) (block : CBlock) :
    CBlockIndex where
  pprev := pprev
  pnext := none
  nFile := nFile
  nBlockPos := 8
  nChainTrust := 0
  nHeight := nHeight
  nMint := 0
  nMoneySupply := 0
  fProofOfStake := block.IsProofOfStake
  fStakeEntropy := false
  fStakeModifier := false
  nStakeModifier := 0
  bnStakeModifierV2 := 0
  prevoutStake := COutPoint.null
  nStakeTime := 0
  hashProof := 0
  nVersion := block.nVersion
  hashMerkleRoot := block.hashMerkleRoot
  nTime := block.nTime
  nBits := block.nBits
  nNonce := block.nNonce
  nSequenceId := 0

def plainEnv (time : ℤ) : Env where
  time := time
  adjustedTime := time
  fInstantXBlockFiltering := false
  blockPayee _ := none
  nPoSageReward := 0
  mnengineBroadcast _ := false
  fFreeLimited := false

def emptyNode : NodeState where
  mapBlockIndex _ := none
  pindexGenesisBlock := none
  pindexBest := none
  hashBestChain := 0
  nBestHeight := -1
  nBestChainTrust := 0
  nBestInvalidTrust := 0
  pblockindexFBBHLast := none
  nBlockSequenceId := 1
  txdb := ⟨fun _ => none, none⟩
  mempool := ⟨∅, fun _ => none⟩
  mapLockedInputs _ := none
  MAX_BLOCK_SIZE := 20512000
  MAX_BLOCK_SIGOPS := 20512000 / 50
  MAX_TX_SIGOPS := 20512000 / 50 / 5
  nLastUpdate := 0
  pindexLastBest := none
  blocksizes := []
  sorted := false
  blocksDir _ := none

def fundedBlock : CBlock :=
  plainBlock 1 0 0 [plainTx 10 [coinbaseInput] [payTo 0],
    plainTx 11 [inputOf 5 0] [payTo (50 * COIN)]]

def chainedBlock : CBlock :=
  plainBlock 2 1 85 [plainTx 20 [coinbaseInput] [payTo (99 * COIN)],
    plainTx 21 [inputOf 11 0] [payTo (50 * COIN)], plainTx 22 [inputOf 21 0] [payTo (40 * COIN)]]

def chainedContext (signed : Bool) : Context :=
  plainContext (BlockFiles.ofBlocks
    (fun nFile => if nFile = 1 then some fundedBlock else if nFile = 2 then some chainedBlock
      else none)
    (by
      intro nFile block h
      split at h
      · cases h
        decide
      · split at h
        · cases h
          decide
        · simp at h)) 1 signed

def chainedNode : NodeState :=
  { emptyNode with
    mapBlockIndex := Function.update (Function.update (fun _ => none)
      1 (some (plainIndex 1 0 none fundedBlock))) 2 (some (plainIndex 2 1 (some 1) chainedBlock))
    pindexGenesisBlock := some 1
    pindexBest := some 1
    hashBestChain := 1
    nBestHeight := 0
    txdb := ⟨Function.update (fun _ => none) (.tx 11)
      (some (CTxIndex.new (CDiskTxPos.of 1 8 (txPosition 8 fundedBlock.vtx 1)) 1)), some []⟩ }

def coinbaseBlock (id : UInt32) (nValue : ℤ) : CBlock :=
  plainBlock id (id - 1) (BitVec.ofNat 256 (10 * id.toNat))
    [plainTx (10 * id) [coinbaseInput] [payTo nValue]]

def overpaidBlock (id : UInt32) : CBlock :=
  coinbaseBlock id (if id = 3 then 990001 * COIN else COIN)

def overpaidContext : Context :=
  plainContext (BlockFiles.ofBlocks
    (fun nFile => if nFile = 1 ∨ nFile = 2 ∨ nFile = 3 ∨ nFile = 4 then some (overpaidBlock nFile)
      else none)
    (by
      intro nFile block h
      split at h
      · rename_i hfile
        cases h
        rcases hfile with rfl | rfl | rfl | rfl <;> decide
      · simp at h)) 1 true

/-- The second and the third block are built on the first one, and the fourth on the third. -/
def switchedBlock (id : UInt32) : CBlock :=
  plainBlock id (if id = 3 then 1 else id - 1) (BitVec.ofNat 256 (10 * id.toNat))
    [plainTx (10 * id) [coinbaseInput] [payTo COIN]]

/-- The file of a block, for one of two nodes that store the blocks in opposite orders. -/
def switchedFile (mirrored : Bool) (id : UInt32) : UInt32 := if mirrored then 5 - id else id

def switchedContext (mirrored : Bool) : Context :=
  plainContext (BlockFiles.ofBlocks
    (fun nFile => if nFile = 1 ∨ nFile = 2 ∨ nFile = 3 ∨ nFile = 4 then
      some (switchedBlock (switchedFile mirrored nFile)) else none)
    (by
      intro nFile block h
      split at h
      · rename_i hfile
        cases h
        rcases hfile with rfl | rfl | rfl | rfl <;> cases mirrored <;> decide
      · simp at h)) 1 true

end ZalemCoin.Chain
