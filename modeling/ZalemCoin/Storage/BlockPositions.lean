import ZalemCoin.Chain.BlockSizeLimit
import ZalemCoin.Chain.ConnectSpec
import ZalemCoin.Storage.ExternalFile
import ZalemCoin.Storage.IndexFormat

/-!
# Where the transactions of a block are on the disk

`WriteToDisk` appends a block to a file and returns where it starts. `ConnectBlock` counts the sizes of
the transactions from there, and the transaction index gets the positions. A transaction is read back at
its position, whatever has been appended to the file since.
-/

namespace ZalemCoin.Storage

open Lib Chain

abbrev BlockBytes := UInt32 → List UInt8

/-- `OpenBlockFile` opens the files with these numbers. -/
def CanOpen (nFile : UInt32) : Prop := ¬(nFile < 1 ∨ nFile = 0xffffffff)

instance (nFile : UInt32) : Decidable (CanOpen nFile) := inferInstanceAs (Decidable (¬_))

/-- The first file from `nCurrentBlockFile` on that has room for another block. -/
def AppendBlockFile (files : BlockBytes) (nCurrentBlockFile : UInt32) : Option UInt32 :=
  if CanOpen nCurrentBlockFile then
    if (files nCurrentBlockFile).length < 0x7F000000 - MAX_SIZE then some nCurrentBlockFile
    else AppendBlockFile files (nCurrentBlockFile + 1)
  else none
termination_by 2 ^ 32 - nCurrentBlockFile.toNat
decreasing_by
  rename_i hopen _
  have hlt := nCurrentBlockFile.toNat_lt
  have hlast : nCurrentBlockFile.toNat ≠ 0xffffffff := fun h =>
    hopen (Or.inr (UInt32.toNat_inj.mp h))
  rw [UInt32.toNat_add, UInt32.toNat_one]
  omega

def recordStart (network : Network) (block : CBlock) : List UInt8 :=
  MessageStart network ++ writeUInt32 (UInt32.ofNat block.GetSerializeSize)

def WriteToDisk (network : Network) (files : BlockBytes) (nCurrentBlockFile : UInt32) (block : CBlock) :
    Option (UInt32 × UInt32 × BlockBytes) :=
  (AppendBlockFile files nCurrentBlockFile).map fun nFile =>
    let before := files nFile ++ recordStart network block
    (nFile, UInt32.ofNat before.length, Function.update files nFile (before ++ writeBlock block))

def ReadFromDisk (files : BlockBytes) (pos : CDiskTxPos) : Option CTransaction :=
  if CanOpen pos.nFile then
    (readTransaction.run ((files pos.nFile).drop pos.nTxPos.toNat)).map Prod.fst
  else none

instance (k : ℕ) (n : ℤ) : Decidable (FitsBytes k n) := inferInstanceAs (Decidable (_ ∧ _))

structure TransactionFits (tx : CTransaction) : Prop where
  nVersion : FitsBytes 4 tx.nVersion
  nValue : ∀ txout ∈ tx.vout, FitsBytes 8 txout.nValue

structure BlockFits (block : CBlock) : Prop where
  nVersion : FitsBytes 4 block.nVersion
  vtx : ∀ tx ∈ block.vtx, TransactionFits tx

/-! ## Blocks that are small enough -/

section

variable {tx : CTransaction} {block : CBlock}

theorem length_le_sum {α : Type} {size : α → ℕ} {v : List α} (h : ∀ a, 0 < size a) :
    v.length ≤ (v.map size).sum := by
  induction v with
  | nil => exact le_rfl
  | cons a v ih =>
    have hpos := h a
    rw [List.length_cons, List.map_cons, List.sum_cons]
    omega

theorem size_le_sum {α : Type} {size : α → ℕ} {v : List α} {a : α} (h : a ∈ v) :
    size a ≤ (v.map size).sum :=
  List.single_le_sum (fun n _ => Nat.zero_le n) _ (List.mem_map_of_mem h)

theorem writable_transaction (hfits : TransactionFits tx) (hsize : tx.GetSerializeSize ≤ MAX_SIZE) :
    Writable.Transaction tx := by
  have hin : (tx.vin.map CTxIn.GetSerializeSize).sum ≤ MAX_SIZE := by
    unfold CTransaction.GetSerializeSize at hsize
    omega
  have hout : (tx.vout.map CTxOut.GetSerializeSize).sum ≤ MAX_SIZE := by
    unfold CTransaction.GetSerializeSize at hsize
    omega
  constructor
  · exact hfits.nVersion
  · constructor
    · have hpos (txin : CTxIn) : 0 < txin.GetSerializeSize := Nat.succ_pos _
      exact (length_le_sum hpos).trans hin
    · intro txin hmem
      have hle := (size_le_sum hmem).trans hin
      unfold CTxIn.GetSerializeSize bytesSize at hle
      change txin.scriptSig.length ≤ MAX_SIZE
      omega
  · constructor
    · have hpos (txout : CTxOut) : 0 < txout.GetSerializeSize := by
        unfold CTxOut.GetSerializeSize
        omega
      exact (length_le_sum hpos).trans hout
    · intro txout hmem
      have hle := (size_le_sum hmem).trans hout
      unfold CTxOut.GetSerializeSize bytesSize at hle
      exact ⟨hfits.nValue txout hmem, by omega⟩

theorem sum_le_size (block : CBlock) :
    80 + GetSizeOfCompactSize block.vtx.length + (block.vtx.map CTransaction.GetSerializeSize).sum
      ≤ block.GetSerializeSize := by
  unfold CBlock.GetSerializeSize
  omega

theorem writable_of_mem (hfits : BlockFits block) (hsize : block.GetSerializeSize ≤ MAX_SIZE)
    (hmem : tx ∈ block.vtx) : Writable.Transaction tx := by
  have hle := @size_le_sum _ CTransaction.GetSerializeSize block.vtx tx hmem
  have hsum := sum_le_size block
  exact writable_transaction (hfits.vtx tx hmem) (by omega)

end

/-! ## The place of a transaction in its block -/

theorem writeBlock_split {block : CBlock} {k : ℕ} {tx : CTransaction} (h : block.vtx[k]? = some tx) :
    ∃ front back, writeBlock block = front ++ (writeTransaction tx ++ back) ∧
      front.length = 80 + GetSizeOfCompactSize block.vtx.length
        + ((block.vtx.take k).map CTransaction.GetSerializeSize).sum := by
  obtain ⟨hk, rfl⟩ := List.getElem?_eq_some_iff.mp h
  have hvtx : block.vtx.flatMap writeTransaction = (block.vtx.take k).flatMap writeTransaction
      ++ (writeTransaction block.vtx[k] ++ (block.vtx.drop (k + 1)).flatMap writeTransaction) := by
    rw [← List.flatMap_cons, ← List.flatMap_append, ← List.drop_eq_getElem_cons, List.take_append_drop]
  refine ⟨writeHeader block.toCBlockHeader
      ++ (WriteCompactSize block.vtx.length ++ (block.vtx.take k).flatMap writeTransaction),
    (block.vtx.drop (k + 1)).flatMap writeTransaction ++ writeBytes block.vchBlockSig, ?_, ?_⟩
  · unfold writeBlock writeVector
    rw [hvtx]
    simp only [List.append_assoc]
  · have hlen : ((block.vtx.take k).flatMap writeTransaction).length
        = ((block.vtx.take k).map CTransaction.GetSerializeSize).sum := by
      rw [List.length_flatMap]
      simp only [length_writeTransaction]
    rw [List.length_append, List.length_append, length_writeHeader, length_writeCompactSize, hlen]
    omega

theorem appendBlockFile_eq_some {files : BlockBytes} {nCurrentBlockFile nFile : UInt32}
    (h : AppendBlockFile files nCurrentBlockFile = some nFile) :
    CanOpen nFile ∧ (files nFile).length < 0x7F000000 - MAX_SIZE := by
  induction nCurrentBlockFile using AppendBlockFile.induct files with
  | case1 n hopen hroom =>
    rw [AppendBlockFile, if_pos hopen, if_pos hroom] at h
    cases h
    exact ⟨hopen, hroom⟩
  | case2 n hopen hfull ih =>
    rw [AppendBlockFile, if_pos hopen, if_neg hfull] at h
    exact ih h
  | case3 n hclosed =>
    rw [AppendBlockFile, if_neg hclosed] at h
    cases h

theorem readFromDisk_txPosition {network : Network} {files files' later : BlockBytes}
    {nCurrentBlockFile nFile nBlockPos : UInt32} {block : CBlock} {k : ℕ} {tx : CTransaction}
    (hwrite : WriteToDisk network files nCurrentBlockFile block = some (nFile, nBlockPos, files'))
    (hlater : files' nFile <+: later nFile) (hfits : BlockFits block)
    (hsize : block.GetSerializeSize ≤ MAX_SIZE) (htx : block.vtx[k]? = some tx) :
    ReadFromDisk later (CDiskTxPos.of nFile nBlockPos (txPosition nBlockPos block.vtx k)) = some tx := by
  obtain ⟨nFile', hfile, hwr⟩ := Option.map_eq_some_iff.mp hwrite
  obtain ⟨hnFile, hplaced⟩ := Prod.mk.inj hwr
  cases hplaced
  subst hnFile
  obtain ⟨hopen, hroom⟩ := appendBlockFile_eq_some hfile
  obtain ⟨front, back, hblock, hfront⟩ := writeBlock_split htx
  obtain ⟨appended, happended⟩ := hlater
  have hmem : tx ∈ block.vtx := List.mem_of_getElem? htx
  have hread := reads_transaction (writable_of_mem hfits hsize hmem)
  have hstart : (recordStart network block).length = 8 := by
    obtain ⟨a, b, c, d, hstart, -⟩ := messageStart_eq network
    unfold recordStart
    rw [hstart, List.length_append, length_writeUInt32]
    rfl
  -- The positions stay below `2 ^ 32`, so that they are counted without an overflow.
  have htake : ((block.vtx.take k).map CTransaction.GetSerializeSize).sum
      ≤ (block.vtx.map CTransaction.GetSerializeSize).sum :=
    List.Sublist.sum_le_sum ((List.take_sublist k block.vtx).map _) fun n _ => Nat.zero_le n
  have hsum := sum_le_size block
  have hmax : MAX_SIZE = 0x02000000 := rfl
  have hposition : (txPosition (UInt32.ofNat (files nFile' ++ recordStart network block).length)
      block.vtx k).toNat = ((files nFile' ++ recordStart network block) ++ front).length := by
    have hlen := @List.length_append _ (files nFile' ++ recordStart network block) front
    unfold txPosition
    rw [← hfront, ← UInt32.ofNat_add, hlen]
    apply UInt32.toNat_ofNat_of_lt'
    rw [List.length_append, hstart]
    change _ < 2 ^ 32
    omega
  have hbytes : later nFile' = ((files nFile' ++ recordStart network block) ++ front)
      ++ (writeTransaction tx ++ (back ++ appended)) := by
    rw [← happended, Function.update_self, hblock]
    simp only [List.append_assoc]
  have hnull : nFile' ≠ 0xffffffff := fun h => hopen (.inr h)
  unfold ReadFromDisk
  rw [(CDiskTxPos.of_eq hnull).1, (CDiskTxPos.of_eq hnull).2.2, if_pos hopen, hposition, hbytes,
    List.drop_left, hread]
  rfl

/-! ## What `ConnectBlock` records -/

section

variable {ctx : Context} {env : Env} {s s' : NodeState} {block : CBlock} {i : CBlockIndex}

def RecordedAt (ctx : Context) (i : CBlockIndex) (vtx done : List CTransaction)
    (L : Ledger UInt256 CDiskTxPos) : Prop :=
  ∀ k tx, done[k]? = some tx → (L (ctx.hashTx tx)).map Entry.pos
    = some (CDiskTxPos.of i.nFile i.nBlockPos (txPosition i.nBlockPos vtx k))

theorem RecordedAt.connect {vtx done rest : List CTransaction} {tx : CTransaction}
    {L : Ledger UInt256 CDiskTxPos} (h : RecordedAt ctx i vtx done L) (hvtx : vtx = done ++ tx :: rest)
    (hids : (vtx.map ctx.hashTx).Nodup) :
    RecordedAt ctx i vtx (done ++ [tx]) (Ledger.connect CDiskTxPos.null L
      (tx.spend ctx (CDiskTxPos.of i.nFile i.nBlockPos (txPosition i.nBlockPos vtx done.length)))) := by
  intro k tx' hk
  rw [Ledger.map_pos_connect]
  rcases Nat.lt_or_ge k done.length with hlt | hge
  · rw [List.getElem?_append_left hlt] at hk
    -- Another transaction has another hash.
    have hne : ctx.hashTx tx' ≠ ctx.hashTx tx := by
      rw [hvtx, List.map_append, List.nodup_append] at hids
      exact hids.2.2 _ (List.mem_map_of_mem (List.mem_of_getElem? hk)) _
        (List.mem_map_of_mem List.mem_cons_self)
    have hid : (tx.spend ctx (CDiskTxPos.of i.nFile i.nBlockPos
        (txPosition i.nBlockPos vtx done.length))).id = ctx.hashTx tx := rfl
    rw [hid, if_neg hne]
    exact h k tx' hk
  · rw [List.getElem?_append_right hge] at hk
    obtain ⟨hlast, rfl⟩ := List.getElem?_eq_some_iff.mp hk
    rw [List.length_singleton] at hlast
    have hkdone : k = done.length := by omega
    subst hkdone
    rw [if_pos (by simp [CTransaction.spend])]
    rfl

theorem connectTransactions_recordedAt {acc : ConnectAcc} (hids : (block.vtx.map ctx.hashTx).Nodup)
    (h : connectTransactions ctx env s block i false = .ok acc) :
    RecordedAt ctx i block.vtx block.vtx (pending s acc.mapQueuedChanges) := by
  have hall := foldlM_ok_induction (fun done acc => Progress ctx s i block.vtx done acc ∧
    RecordedAt ctx i block.vtx done (pending s acc.mapQueuedChanges))
    ⟨progress_start, fun k tx hk => by simp at hk⟩ ?_ h
  · exact hall.2
  intro done tx rest c c' hvtx hc hstep
  obtain ⟨hled, -, -⟩ := connectTransaction_block hstep
  refine ⟨hc.1.step hvtx hstep, ?_⟩
  rw [hled, hc.1.position]
  exact hc.2.connect hvtx hids

theorem connected_size {s₁ : NodeState} {p : UInt256} {prevSupply : ℤ} {acc : ConnectAcc}
    (hs : CalculatorReaches ctx s) (h : BlockConnected ctx env block p s s' s₁ i prevSupply acc) :
    block.GetSerializeSize ≤ MAX_SIZE := by
  have hform := h.checked.form
  obtain ⟨hsize, -⟩ := ensure_ok hform
  obtain ⟨-, -, hle⟩ := hsize
  refine hle.trans ?_
  rcases hs.inv.limit with hlim | hlim <;> rw [hlim] <;> decide

theorem connectBlock_positions {network : Network} {files files' later : BlockBytes}
    {nCurrentBlockFile : UInt32} {p : UInt256} {log : List SigCheck} (hs : CalculatorReaches ctx s)
    (hfits : BlockFits block) (hent : s.mapBlockIndex p = some i)
    (hwrite : WriteToDisk network files nCurrentBlockFile block = some (i.nFile, i.nBlockPos, files'))
    (hlater : files' i.nFile <+: later i.nFile)
    (hconnect : ConnectBlock ctx env block p false s = (.ok log, s')) :
    ∀ k tx, block.vtx[k]? = some tx → ∃ entry, s'.txdb.txIndex (ctx.hashTx tx) = some entry ∧
      entry.pos = CDiskTxPos.of i.nFile i.nBlockPos (txPosition i.nBlockPos block.vtx k) ∧
      ReadFromDisk later entry.pos = some tx := by
  obtain ⟨s₁, i', prevSupply, acc, hconn, -⟩ := connectBlock_eq_ok hconnect
  obtain rfl := Option.mem_unique hent hconn.entry
  have hids := (checkTransactions_eq_ok hconn.checked.transactions).2
  have hrec := connectTransactions_recordedAt hids hconn.transactions
  have hled := hconn.ledger
  rw [pending, ← txdb_of_core hconn.core] at hled
  rw [pending, ← hled] at hrec
  intro k tx hk
  obtain ⟨entry, hget, hpos⟩ := Option.map_eq_some_iff.mp (hrec k tx hk)
  have hread := readFromDisk_txPosition hwrite hlater hfits (connected_size hs hconn) hk
  exact ⟨entry, hget, hpos, hpos ▸ hread⟩

end

/-- What is written is read back, from as many bytes as `GetSerializeSize` counts: a transaction; a block,
without what the mode leaves out; and a block index, without a stake that its flags deny. And the
positions that `ConnectBlock` records for the transactions of a block are those at which they are read back
from the disk. -/
theorem serialization_codec :
    (∀ tx, (Writable.Transaction tx → Reads readTransaction (writeTransaction tx) tx) ∧
      (writeTransaction tx).length = tx.GetSerializeSize) ∧
    (∀ nType block, (Writable.Block block →
        Reads (unserializeBlock nType) (serializeBlock nType block) (keptBlock nType block)) ∧
      (serializeBlock nType block).length = blockSerializeSize nType block) ∧
    (∀ nType nVersion i, Reads (unserializeIndex nType) (serializeIndex nType nVersion i) (keptIndex i) ∧
      (serializeIndex nType nVersion i).length = indexSerializeSize nType i) ∧
    ∀ (ctx : Context) (env : Env) (s s' : NodeState) (block : CBlock) (i : CBlockIndex)
      (network : Network) (files files' later : BlockBytes) (nCurrentBlockFile : UInt32) (p : UInt256)
      (log : List SigCheck), CalculatorReaches ctx s → BlockFits block → s.mapBlockIndex p = some i →
      WriteToDisk network files nCurrentBlockFile block = some (i.nFile, i.nBlockPos, files') →
      files' i.nFile <+: later i.nFile →
      ConnectBlock ctx env block p false s = (.ok log, s') →
      ∀ k tx, block.vtx[k]? = some tx → ∃ entry, s'.txdb.txIndex (ctx.hashTx tx) = some entry ∧
        entry.pos = CDiskTxPos.of i.nFile i.nBlockPos (txPosition i.nBlockPos block.vtx k) ∧
        ReadFromDisk later entry.pos = some tx :=
  ⟨fun tx => ⟨reads_transaction, length_writeTransaction tx⟩,
    fun nType block => ⟨reads_unserializeBlock nType, length_serializeBlock nType block⟩,
    fun nType nVersion i => ⟨reads_unserializeIndex nType nVersion i,
      length_serializeIndex nType nVersion i⟩,
    fun _ _ _ _ _ _ _ _ _ _ _ _ _ hs hfits hentry hwrite hlater hconnect =>
      connectBlock_positions hs hfits hentry hwrite hlater hconnect⟩

/-- The second transaction of the chained block is read back from its position in the second file. -/
theorem serialization_codec_chained :
    ∃ entry, (ConnectBlock (chainedContext true) (plainEnv 1000) chainedBlock 2 false
        chainedNode).2.txdb.txIndex ((chainedContext true).hashTx (plainTx 21 [inputOf 11 0] [payTo (50 * COIN)]))
          = some entry ∧
      ReadFromDisk (Function.update (fun _ => []) 2
        (recordStart .main chainedBlock ++ writeBlock chainedBlock)) entry.pos
          = some (plainTx 21 [inputOf 11 0] [payTo (50 * COIN)]) := by
  have hreached : CalculatorReaches (chainedContext true) chainedNode :=
    ⟨chainedNode, ⟨rfl, rfl, rfl⟩, fun _ => rfl, Relation.ReflTransGen.refl⟩
  have hfits : BlockFits chainedBlock := by
    refine ⟨by decide, fun tx htx => ⟨?_, ?_⟩⟩
    · revert tx
      decide
    · revert tx
      decide
  have hwrite : WriteToDisk .main (fun _ => []) 2 chainedBlock = some (2, 8,
      Function.update (fun _ => []) 2 (recordStart .main chainedBlock ++ writeBlock chainedBlock)) := by
    unfold WriteToDisk
    rw [AppendBlockFile, if_pos (by decide), if_pos (by decide)]
    rfl
  have hconnect : ConnectBlock (chainedContext true) (plainEnv 1000) chainedBlock 2 false
      chainedNode = (.ok [], (ConnectBlock (chainedContext true) (plainEnv 1000) chainedBlock 2
        false chainedNode).2) := Action.eq_of_fst (by decide)
  obtain ⟨-, -, -, hpositions⟩ := serialization_codec
  obtain ⟨entry, hentry, -, hread⟩ := hpositions _ _ _ _ _ _ _ _ _ _ _ _ _ hreached hfits rfl hwrite
    (List.prefix_refl _) hconnect 1 _ rfl
  exact ⟨entry, hentry, hread⟩

def stakedWork : CDiskBlockIndex :=
  { CDiskBlockIndex.ofIndex 0 (Chain.CDiskBlockIndex.of (plainIndex 1 0 none (plainBlock 1 0 0 [])))
      with nStakeTime := 1 }

/-- A block is not read back with its transactions from what is written for its hash, and the index of a
proof-of-work block is not read back with a stake. -/
theorem serialization_codec_not_exact :
    ¬(∀ nType block, Writable.Block block →
      Reads (unserializeBlock nType) (serializeBlock nType block) block) ∧
    ¬(∀ nType nVersion i, Reads (unserializeIndex nType) (serializeIndex nType nVersion i) i) := by
  constructor
  · intro h
    have hempty : Writable.Block (plainBlock 1 0 0 [plainTx 10 [] []]) := by
      refine ⟨by decide, ⟨by decide, fun tx htx => ?_⟩, by decide⟩
      obtain rfl := List.mem_singleton.mp htx
      exact ⟨by decide, ⟨by decide, by simp [plainTx]⟩, by decide, by simp [plainTx]⟩
    have heq := (h SER_GETHASH _ hempty).run.symm.trans (reads_unserializeBlock SER_GETHASH hempty).run
    have hvtx := congrArg CBlock.vtx (Prod.mk.inj (Option.some.inj heq)).1
    exact absurd hvtx (by decide)
  · intro h
    have heq := (h SER_DISK 0 stakedWork).run.symm.trans
      (reads_unserializeIndex SER_DISK 0 stakedWork).run
    have htime := congrArg CDiskBlockIndex.nStakeTime (Prod.mk.inj (Option.some.inj heq)).1
    exact absurd htime (by decide)

end ZalemCoin.Storage
