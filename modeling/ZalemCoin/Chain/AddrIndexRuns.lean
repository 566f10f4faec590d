import ZalemCoin.Chain.AddrIndex
import ZalemCoin.Script.Standard

/-!
# Runs of the address index

Blocks are connected and disconnected, and the database is committed and changed elsewhere in between.
When the index is exact before a block is connected, it is exact after it exactly when every address
of the transactions that the block spends from concerns the spending transaction; and when it is exact
before a block is disconnected, it is exact after it exactly when the chain keeps all transactions of the
block. The hashes of the transactions are assumed not to collide.
-/

namespace ZalemCoin.Chain

open Lib

/-- The number that a destination is looked up under. -/
def addridOf : Script.CTxDestination → UInt160
  | .keyID id => BitVec.ofFin id
  | .scriptID id => BitVec.ofFin id

/-- The transactions that the index has for a destination. The read goes to the disk, past the batch
that another handle may have open. -/
def FindTransactionsByDestination (txdb : CTxDB) (dest : Script.CTxDestination) :
    Option (List UInt256) :=
  if addridOf dest = 0 then none else txdb.disk (.adr (addridOf dest))

def txsOfBlocks (blocks : List CBlock) : Set CTransaction := {tx | ∃ block ∈ blocks, tx ∈ block.vtx}

inductive BlockCall where
  | connect (env : Env) (block : CBlock) (pindex : UInt256)
  | disconnect (block : CBlock) (pindex : UInt256)
  | elsewhere (s' : NodeState)

/-- A call that succeeds, with the blocks that are connected before and after it, the last one first. A
block is connected that its entry says is on the disk, and the last one is disconnected; anything else
leaves both indexes as they are. -/
inductive BlockStep (ctx : Context) :
    NodeState → List CBlock → BlockCall → NodeState → List CBlock → Prop
  | connect {s s' : NodeState} {blocks : List CBlock} {env : Env} {block : CBlock} {p : UInt256}
      {i : CBlockIndex} {log : List SigCheck} (hentry : s.mapBlockIndex p = some i)
      (hstored : ctx.files.block i.nFile i.nBlockPos = some block)
      (hrun : ConnectBlock ctx env block p false s = (.ok log, s')) :
      BlockStep ctx s blocks (.connect env block p) s' (block :: blocks)
  | disconnect {s s' : NodeState} {blocks : List CBlock} {block : CBlock} {p : UInt256}
      (hrun : DisconnectBlock ctx block p s = (.ok (), s')) :
      BlockStep ctx s (block :: blocks) (.disconnect block p) s' blocks
  | elsewhere {s s' : NodeState} {blocks : List CBlock} (htx : s'.txdb.txIndex = s.txdb.txIndex)
      (haddr : s'.txdb.addrIndex = s.txdb.addrIndex) :
      BlockStep ctx s blocks (.elsewhere s') s' blocks

/-- The states that a node without transactions comes to by steps that are allowed, with the blocks that
are connected in them. Their transactions are among the given ones. -/
inductive IndexRun (ctx : Context) (T : Set CTransaction)
    (allowed : List CBlock → BlockCall → Prop) : NodeState → List CBlock → Prop
  | start {s : NodeState} (htx : ∀ hash, s.txdb.txIndex hash = none)
      (haddr : ∀ addrid, s.txdb.addrIndex addrid = []) : IndexRun ctx T allowed s []
  | step {s s' : NodeState} {blocks blocks' : List CBlock} {call : BlockCall}
      (h : IndexRun ctx T allowed s blocks) (hallowed : allowed blocks call)
      (hstep : BlockStep ctx s blocks call s' blocks') (hknown : txsOfBlocks blocks' ⊆ T) :
      IndexRun ctx T allowed s' blocks'

def OwnAddressesOnly (ctx : Context) (txs : Set CTransaction) (tx : CTransaction) : Prop :=
  tx.IsCoinBase = false → ∀ txin ∈ tx.vin, ∀ prev ∈ txs, ctx.hashTx prev = txin.prevout.hash →
    ∀ txout ∈ prev.vout, ∀ addrid, txout.Pays ctx addrid → Concerns ctx txs addrid tx

def KeepsExact (ctx : Context) (blocks : List CBlock) : BlockCall → Prop
  | .connect _ block _ => ∀ tx ∈ block.vtx, OwnAddressesOnly ctx (txsOfBlocks (block :: blocks)) tx
  | .disconnect block _ => ∀ tx ∈ block.vtx, tx ∈ txsOfBlocks blocks.tail
  | .elsewhere _ => True

structure IndexInv (ctx : Context) (s : NodeState) (txs : Set CTransaction) : Prop where
  located : Located ctx s.txdb.txIndex txs
  /-- Inputs refer to transactions of the chain. -/
  resolved : ∀ tx ∈ txs, tx.IsCoinBase = false →
    ∀ txin ∈ tx.vin, ∃ prev ∈ txs, ctx.hashTx prev = txin.prevout.hash
  outputs : ∀ tx ∈ txs, tx.vout ≠ []

section

variable {ctx : Context} {env : Env} {s s' : NodeState} {tx : CTransaction}
  {txs txs' T : Set CTransaction} {block : CBlock} {blocks blocks' : List CBlock} {p : UInt256}
  {addrid : UInt160}

/-- The index has the output scripts of a destination under the number that it is looked up under. -/
theorem buildAddrIndex_destination (ctx : Context) (dest : Script.CTxDestination) :
    BuildAddrIndex ctx (Script.GetScriptForDestination dest) = [addridOf dest] := by
  have hnumber : ∀ id : Fin (2 ^ 160), BitVec.ofNat 160
      ((littleEndian 20 id).foldr (fun b n => b.toNat + 256 * n) 0) = BitVec.ofFin id := by
    intro id
    have hfold : ∀ bytes : List UInt8,
        bytes.foldr (fun b n => b.toNat + 256 * n) 0 = ofLittleEndian bytes := by
      intro bytes
      induction bytes with
      | nil => rfl
      | cons b bytes ih => rw [List.foldr_cons, ih, ofLittleEndian]
    rw [hfold, ofLittleEndian_of_lt id.isLt]
    exact BitVec.ofNat_toNat 160 (BitVec.ofFin id)
  rcases dest with id | id
  · rw [addridOf, ← hnumber id]
    rfl
  · rw [addridOf, ← hnumber id]
    rfl

/-! ## The chain -/

theorem mem_txsOfBlocks_cons :
    tx ∈ txsOfBlocks (block :: blocks) ↔ tx ∈ block.vtx ∨ tx ∈ txsOfBlocks blocks := by
  constructor
  · rintro ⟨b, hb, htx⟩
    rcases List.mem_cons.mp hb with rfl | hb
    · exact .inl htx
    · exact .inr ⟨b, hb, htx⟩
  · rintro (htx | ⟨b, hb, htx⟩)
    · exact ⟨block, List.mem_cons_self, htx⟩
    · exact ⟨b, List.mem_cons_of_mem _ hb, htx⟩

theorem concerns_iff_of_subset (hsub : txs ⊆ txs') (hinj : Set.InjOn ctx.hashTx txs')
    (hresolved : tx.IsCoinBase = false →
      ∀ txin ∈ tx.vin, ∃ prev ∈ txs, ctx.hashTx prev = txin.prevout.hash) :
    Concerns ctx txs' addrid tx ↔ Concerns ctx txs addrid tx := by
  refine or_congr_right (and_congr_right fun hcb => exists_congr fun txin =>
    and_congr_right fun htxin => ?_)
  constructor
  · rintro ⟨prev, hprev, hhash, hpays⟩
    obtain ⟨prev', hprev', hhash'⟩ := hresolved hcb txin htxin
    obtain rfl := hinj (hsub hprev') hprev (hhash'.trans hhash.symm)
    exact ⟨prev', hprev', hhash, hpays⟩
  · rintro ⟨prev, hprev, hhash, hpays⟩
    exact ⟨prev, hsub hprev, hhash, hpays⟩

theorem vout_ne_nil_of_checkTransaction {MAX_BLOCK_SIZE : ℕ}
    (h : CheckTransaction MAX_BLOCK_SIZE tx = .ok ()) : tx.vout ≠ [] := by
  obtain ⟨⟨⟩, -, h⟩ := bind_ok h
  obtain ⟨hvout, -⟩ := ensure_ok h
  exact hvout

theorem exists_concerns (ctx : Context) (txs : Set CTransaction) (h : tx.vout ≠ []) :
    ∃ addrid, Concerns ctx txs addrid tx := by
  obtain ⟨txout, vout, hvout⟩ := List.exists_cons_of_ne_nil h
  obtain ⟨addrid, hpays⟩ := exists_mem_buildAddrIndex ctx txout.scriptPubKey
  exact ⟨addrid, .inl ⟨txout, hvout ▸ List.mem_cons_self, hpays⟩⟩

theorem AddrIndexExact.concerns {txdb : CTxDB} (h : AddrIndexExact ctx txdb txs)
    (hsub : txs ⊆ txs') (hinj : Set.InjOn ctx.hashTx txs') (htx : tx ∈ txs')
    (hmem : ctx.hashTx tx ∈ txdb.addrIndex addrid) : tx ∈ txs ∧ Concerns ctx txs addrid tx := by
  obtain ⟨tx', htx', hhash, hconcerns⟩ := (h.mem_iff addrid _).mp hmem
  obtain rfl := hinj (hsub htx') htx hhash
  exact ⟨htx', hconcerns⟩

/-! ## Connecting a block -/

theorem IndexInv.connectBlock {i : CBlockIndex} {log : List SigCheck}
    (h : IndexInv ctx s (txsOfBlocks blocks)) (haddr : ctx.fAddrIndex = true)
    (hinj : Set.InjOn ctx.hashTx (txsOfBlocks (block :: blocks)))
    (hent : s.mapBlockIndex p = some i)
    (hstor : ctx.files.block i.nFile i.nBlockPos = some block)
    (hrun : ConnectBlock ctx env block p false s = (.ok log, s')) :
    IndexInv ctx s' (txsOfBlocks (block :: blocks)) ∧
      (∀ addrid hash, hash ∈ s'.txdb.addrIndex addrid ↔ hash ∈ s.txdb.addrIndex addrid ∨
        ∃ tx ∈ block.vtx, ctx.hashTx tx = hash ∧
          Filed ctx (txsOfBlocks (block :: blocks)) addrid tx) ∧
      ∀ addrid, (s.txdb.addrIndex addrid).Nodup → (s'.txdb.addrIndex addrid).Nodup := by
  have hsub : txsOfBlocks blocks ⊆ txsOfBlocks (block :: blocks) :=
    fun tx htx => mem_txsOfBlocks_cons.mpr (.inr htx)
  obtain ⟨hlocated, hresolve⟩ := connectBlock_located hent hstor (h.located.mono hsub)
    (fun tx htx => mem_txsOfBlocks_cons.mpr (.inl htx)) hrun
  obtain ⟨u, u', hfiling, hidx, hbef, haft⟩ := connectBlock_addrIndex haddr hrun
  obtain ⟨_, hall, hfiled⟩ := forM_indexAddresses_filed hinj block.vtx (hidx ▸ hlocated)
    (hidx ▸ hresolve)
  cases hfiling.symm.trans hall
  have hmem := hfiled.mem_iff
  have hnd := hfiled.nodup
  rw [hbef, ← haft] at hmem hnd
  refine ⟨⟨hlocated, fun tx htx hcb txin htxin => ?_, fun tx htx => ?_⟩, hmem, hnd⟩
  · rcases mem_txsOfBlocks_cons.mp htx with htx | htx
    · obtain ⟨-, prev, hprev, hhash, -⟩ := hresolve tx htx hcb txin htxin
      exact ⟨prev, hprev, hhash⟩
    · obtain ⟨prev, hprev, hhash⟩ := h.resolved tx htx hcb txin htxin
      exact ⟨prev, hsub hprev, hhash⟩
  · rcases mem_txsOfBlocks_cons.mp htx with htx | htx
    · obtain ⟨s₁, i', prevSupply, acc, hconn, -⟩ := connectBlock_eq_ok hrun
      exact vout_ne_nil_of_checkTransaction
        ((checkTransactions_eq_ok hconn.checked.transactions).1 tx htx)
    · exact h.outputs tx htx

theorem IndexInv.connect_exact_iff {i : CBlockIndex} {log : List SigCheck}
    (h : IndexInv ctx s (txsOfBlocks blocks))
    (hexact : AddrIndexExact ctx s.txdb (txsOfBlocks blocks)) (haddr : ctx.fAddrIndex = true)
    (hinj : Set.InjOn ctx.hashTx (txsOfBlocks (block :: blocks)))
    (hent : s.mapBlockIndex p = some i)
    (hstor : ctx.files.block i.nFile i.nBlockPos = some block)
    (hrun : ConnectBlock ctx env block p false s = (.ok log, s')) :
    AddrIndexExact ctx s'.txdb (txsOfBlocks (block :: blocks)) ↔
      KeepsExact ctx blocks (.connect env block p) := by
  obtain ⟨-, hmem, hnd⟩ := h.connectBlock haddr hinj hent hstor hrun
  have hsub : txsOfBlocks blocks ⊆ txsOfBlocks (block :: blocks) :=
    fun tx htx => mem_txsOfBlocks_cons.mpr (.inr htx)
  have hold : ∀ addrid, ∀ tx ∈ txsOfBlocks blocks,
      (Concerns ctx (txsOfBlocks (block :: blocks)) addrid tx ↔
        Concerns ctx (txsOfBlocks blocks) addrid tx) :=
    fun addrid tx htx => concerns_iff_of_subset hsub hinj (h.resolved tx htx)
  constructor
  · intro haft tx htx hcb txin htxin prev hprev hhash txout htxout addrid hpays
    have hfiled : ctx.hashTx tx ∈ s'.txdb.addrIndex addrid := (hmem addrid _).mpr
      (.inr ⟨tx, htx, rfl, .inr ⟨hcb, txin, htxin, prev, hprev, hhash, txout, htxout, hpays⟩⟩)
    exact (haft.concerns (fun _ h => h) hinj (mem_txsOfBlocks_cons.mpr (.inl htx)) hfiled).2
  · intro hown
    -- Under the condition what is filed is what concerns the address.
    have hnew : ∀ addrid, ∀ tx ∈ block.vtx,
        (Filed ctx (txsOfBlocks (block :: blocks)) addrid tx ↔
          Concerns ctx (txsOfBlocks (block :: blocks)) addrid tx) := by
      refine fun addrid tx htx => ⟨?_, Concerns.filed⟩
      rintro (hpaid | ⟨hcb, txin, htxin, prev, hprev, hhash, txout, htxout, hpays⟩)
      · exact .inl hpaid
      · exact hown tx htx hcb txin htxin prev hprev hhash txout htxout addrid hpays
    refine ⟨fun addrid => hnd addrid (hexact.nodup addrid), fun addrid hash => ?_⟩
    rw [hmem, hexact.mem_iff]
    constructor
    · rintro (⟨tx, htx, hhash, hconcerns⟩ | ⟨tx, htx, hhash, hfiled⟩)
      · exact ⟨tx, hsub htx, hhash, (hold addrid tx htx).mpr hconcerns⟩
      · exact ⟨tx, mem_txsOfBlocks_cons.mpr (.inl htx), hhash, (hnew addrid tx htx).mp hfiled⟩
    · rintro ⟨tx, htx, hhash, hconcerns⟩
      rcases mem_txsOfBlocks_cons.mp htx with htx | htx
      · exact .inr ⟨tx, htx, hhash, hconcerns.filed⟩
      · exact .inl ⟨tx, htx, hhash, (hold addrid tx htx).mp hconcerns⟩

/-! ## Disconnecting a block -/

theorem disconnectBlock_located (hlocated : Located ctx s.txdb.txIndex txs)
    (hrun : DisconnectBlock ctx block p s = (.ok (), s')) :
    Located ctx s'.txdb.txIndex txs ∧ s'.txdb.addrIndex = s.txdb.addrIndex := by
  refine ⟨?_, (keepsAddrIndex_disconnectBlock ctx block p).of_eq hrun⟩
  rw [disconnectBlock_eq_ok 0 0 hrun]
  exact hlocated.foldl_disconnect

theorem txsOfBlocks_cons_eq (h : ∀ tx ∈ block.vtx, tx ∈ txsOfBlocks blocks) :
    txsOfBlocks (block :: blocks) = txsOfBlocks blocks := by
  ext tx
  rw [mem_txsOfBlocks_cons]
  exact or_iff_right_of_imp (h tx)

theorem IndexInv.disconnect_exact_iff (h : IndexInv ctx s (txsOfBlocks (block :: blocks)))
    (hexact : AddrIndexExact ctx s.txdb (txsOfBlocks (block :: blocks)))
    (hinj : Set.InjOn ctx.hashTx (txsOfBlocks (block :: blocks)))
    (hrun : DisconnectBlock ctx block p s = (.ok (), s')) :
    AddrIndexExact ctx s'.txdb (txsOfBlocks blocks) ↔
      KeepsExact ctx (block :: blocks) (.disconnect block p) := by
  obtain ⟨-, hsame⟩ := disconnectBlock_located h.located hrun
  constructor
  · intro haft tx htx
    have hchain : tx ∈ txsOfBlocks (block :: blocks) := mem_txsOfBlocks_cons.mpr (.inl htx)
    -- The transaction is still in the index, under the addresses that it concerns.
    obtain ⟨addrid, hconcerns⟩ := exists_concerns ctx _ (h.outputs tx hchain)
    have hstays : ctx.hashTx tx ∈ s'.txdb.addrIndex addrid := by
      rw [hsame]
      exact (hexact.mem_iff addrid _).mpr ⟨tx, hchain, rfl, hconcerns⟩
    exact (haft.concerns (fun tx htx => mem_txsOfBlocks_cons.mpr (.inr htx)) hinj hchain
      hstays).1
  · intro hkept
    have hkept : ∀ tx ∈ block.vtx, tx ∈ txsOfBlocks blocks := hkept
    rw [txsOfBlocks_cons_eq hkept] at hexact
    refine ⟨fun addrid => ?_, fun addrid hash => ?_⟩
    · rw [hsame]
      exact hexact.nodup addrid
    · rw [hsame]
      exact hexact.mem_iff addrid hash

/-! ## Runs -/

theorem BlockStep.exact_iff {call : BlockCall} (hstep : BlockStep ctx s blocks call s' blocks')
    (h : IndexInv ctx s (txsOfBlocks blocks))
    (hexact : AddrIndexExact ctx s.txdb (txsOfBlocks blocks)) (haddr : ctx.fAddrIndex = true)
    (hinj : Set.InjOn ctx.hashTx (txsOfBlocks blocks))
    (hinj' : Set.InjOn ctx.hashTx (txsOfBlocks blocks')) :
    AddrIndexExact ctx s'.txdb (txsOfBlocks blocks') ↔ KeepsExact ctx blocks call := by
  cases hstep with
  | connect hent hstor hrun => exact h.connect_exact_iff hexact haddr hinj' hent hstor hrun
  | disconnect hrun => exact h.disconnect_exact_iff hexact hinj hrun
  | elsewhere _ hsame =>
    refine iff_of_true ⟨fun addrid => ?_, fun addrid hash => ?_⟩ trivial
    · rw [hsame]
      exact hexact.nodup addrid
    · rw [hsame]
      exact hexact.mem_iff addrid hash

theorem BlockStep.inv {call : BlockCall} (hstep : BlockStep ctx s blocks call s' blocks')
    (h : IndexInv ctx s (txsOfBlocks blocks)) (haddr : ctx.fAddrIndex = true)
    (hinj' : Set.InjOn ctx.hashTx (txsOfBlocks blocks')) (hkeeps : KeepsExact ctx blocks call) :
    IndexInv ctx s' (txsOfBlocks blocks') := by
  cases hstep with
  | connect hent hstor hrun => exact (h.connectBlock haddr hinj' hent hstor hrun).1
  | disconnect hrun =>
    rename_i block p
    have hkeeps : ∀ tx ∈ block.vtx, tx ∈ txsOfBlocks blocks' := hkeeps
    rw [txsOfBlocks_cons_eq hkeeps] at h
    exact ⟨(disconnectBlock_located h.located hrun).1, h.resolved, h.outputs⟩
  | elsewhere hsame _ => exact ⟨hsame ▸ h.located, h.resolved, h.outputs⟩

theorem IndexRun.inv (haddr : ctx.fAddrIndex = true) (hinj : Set.InjOn ctx.hashTx T)
    (h : IndexRun ctx T (KeepsExact ctx) s blocks) :
    txsOfBlocks blocks ⊆ T ∧ IndexInv ctx s (txsOfBlocks blocks) ∧
      AddrIndexExact ctx s.txdb (txsOfBlocks blocks) := by
  induction h with
  | start htx hnone =>
    -- No block is connected, and both indexes are empty.
    refine ⟨?_, ⟨?_, ?_, ?_⟩, ⟨?_, ?_⟩⟩
    · rintro tx ⟨block, hblock, -⟩
      simp at hblock
    · intro hash e he
      rw [htx] at he
      cases he
    · rintro tx ⟨block, hblock, -⟩
      simp at hblock
    · rintro tx ⟨block, hblock, -⟩
      simp at hblock
    · intro addrid
      rw [hnone]
      exact List.nodup_nil
    · intro addrid hash
      rw [hnone]
      simp [txsOfBlocks]
  | step _ hkeeps hstep hknown ih =>
    obtain ⟨hsub, hinv, hexact⟩ := ih
    have hinj' := hinj.mono hknown
    exact ⟨hknown, hstep.inv hinv haddr hinj' hkeeps,
      (hstep.exact_iff hinv hexact haddr (hinj.mono hsub) hinj').mpr hkeeps⟩

/-- Outside a database transaction a lookup finds what concerns the destination, each once. -/
theorem IndexRun.find {dest : Script.CTxDestination} {vtxhash : List UInt256}
    (h : IndexRun ctx T (KeepsExact ctx) s blocks) (haddr : ctx.fAddrIndex = true)
    (hinj : Set.InjOn ctx.hashTx T) (hopen : s.txdb.activeBatch = none)
    (hfind : FindTransactionsByDestination s.txdb dest = some vtxhash) :
    vtxhash.Nodup ∧ ∀ hash, hash ∈ vtxhash ↔ ∃ tx ∈ txsOfBlocks blocks, ctx.hashTx tx = hash ∧
      Concerns ctx (txsOfBlocks blocks) (addridOf dest) tx := by
  obtain ⟨-, -, hexact⟩ := h.inv haddr hinj
  have hread : s.txdb.addrIndex (addridOf dest) = vtxhash := by
    unfold FindTransactionsByDestination at hfind
    split_ifs at hfind
    unfold CTxDB.addrIndex Store.view
    rw [hopen]
    exact congrArg (Option.getD · []) hfind
  rw [← hread]
  exact ⟨hexact.nodup _, hexact.mem_iff _⟩

/-- A run whose steps keep the index exact has an exact index in every state, and the first step of
another kind leaves an index that is not. -/
theorem addrIndexExact_iff (haddr : ctx.fAddrIndex = true) (hinj : Set.InjOn ctx.hashTx T) :
    (∀ s blocks, IndexRun ctx T (KeepsExact ctx) s blocks →
      AddrIndexExact ctx s.txdb (txsOfBlocks blocks)) ∧
    ∀ s blocks call s' blocks', IndexRun ctx T (KeepsExact ctx) s blocks →
      BlockStep ctx s blocks call s' blocks' → txsOfBlocks blocks' ⊆ T →
      (AddrIndexExact ctx s'.txdb (txsOfBlocks blocks') ↔ KeepsExact ctx blocks call) := by
  refine ⟨fun s blocks h => (h.inv haddr hinj).2.2, fun s blocks call s' blocks' h hstep hknown => ?_⟩
  obtain ⟨hsub, hinv, hexact⟩ := h.inv haddr hinj
  exact hstep.exact_iff hinv hexact haddr (hinj.mono hsub) (hinj.mono hknown)

end

/-- Three blocks with a coinbase, the last two with the same one, and a block that spends the first
coinbase. -/
def indexedBlock (id : UInt32) : CBlock :=
  if id = 5 then plainBlock 5 3 101 [plainTx 50 [coinbaseInput] [payTo 0],
    plainTx 51 [inputOf 20 0] [payTo COIN]]
  else if id = 2 then plainBlock 2 1 20 [plainTx 20 [coinbaseInput] [payTo COIN]]
  else plainBlock id (id - 1) 30 [plainTx 30 [coinbaseInput] [payTo COIN]]

def indexedContext : Context :=
  { plainContext (BlockFiles.ofBlocks
      (fun nFile => if nFile = 2 ∨ nFile = 3 ∨ nFile = 4 ∨ nFile = 5 then some (indexedBlock nFile)
        else none)
      (by
        intro nFile block h
        split at h
        · rename_i hfile
          cases h
          rcases hfile with rfl | rfl | rfl | rfl <;> decide
        · simp at h)) 1 true with fAddrIndex := true }

/-- The last block is far above the others, so that the coinbase is mature there. -/
def indexedEntry (id : UInt32) : CBlockIndex :=
  plainIndex id (if id = 5 then 50 else id.toNat - 1)
    (if id = 5 then some 3 else some (BitVec.ofNat 256 (id.toNat - 1))) (indexedBlock id)

def indexedNode : NodeState :=
  { emptyNode with
    mapBlockIndex p :=
      if 1 ≤ p ∧ p ≤ 5 then some (indexedEntry (UInt32.ofNat p.toNat)) else none
    pindexGenesisBlock := some 1
    pindexBest := some 1
    hashBestChain := 1
    nBestHeight := 0 }

def connectIndexed (id : UInt32) (s : NodeState) : Except Failure (List SigCheck) × NodeState :=
  ConnectBlock indexedContext (plainEnv 2000) (indexedBlock id) (BitVec.ofNat 256 id.toNat) false s

def paidNode : NodeState := (connectIndexed 2 indexedNode).2

def unpaidNode : NodeState := (DisconnectBlock indexedContext (indexedBlock 2) 2 paidNode).2

/-- The coinbase of the third block is connected twice. -/
def repaidNode : NodeState := (connectIndexed 4 (connectIndexed 3 paidNode).2).2

def keptNode : NodeState := (DisconnectBlock indexedContext (indexedBlock 4) 4 repaidNode).2

def spentNode : NodeState := (connectIndexed 5 keptNode).2

def indexedTxs : List CTransaction :=
  [indexedBlock 5, indexedBlock 3, indexedBlock 2].flatMap CBlock.vtx

theorem injOn_indexed : Set.InjOn indexedContext.hashTx {tx | tx ∈ indexedTxs} := by
  have hnd : (indexedTxs.map indexedContext.hashTx).Nodup := by decide
  exact fun tx htx tx' htx' => List.inj_on_of_nodup_map hnd htx htx'

section

variable {allowed : List CBlock → BlockCall → Prop} {id : UInt32} {s : NodeState}
  {blocks : List CBlock} {env : Env} {p : UInt256}

theorem txsOfBlocks_subset (h : ∀ block ∈ blocks, ∀ tx ∈ block.vtx, tx ∈ indexedTxs) :
    txsOfBlocks blocks ⊆ {tx | tx ∈ indexedTxs} :=
  fun tx ⟨block, hblock, htx⟩ => h block hblock tx htx

/-- All outputs have the same script, so that the spender of one pays its address too. -/
theorem indexed_keepsExact
    (h : ∀ block ∈ indexedBlock id :: blocks, ∀ tx ∈ block.vtx, tx ∈ indexedTxs) :
    KeepsExact indexedContext blocks (.connect env (indexedBlock id) p) := by
  have hsame : ∀ tx ∈ indexedTxs, tx.vout ≠ [] ∧ ∀ txout ∈ tx.vout, txout.scriptPubKey = [OP_1] := by
    decide
  intro tx htx _ txin _ prev hprev _ txout htxout addrid hpays
  obtain ⟨hne, hown⟩ := hsame tx (h _ List.mem_cons_self tx htx)
  obtain ⟨own, hmem⟩ := List.exists_mem_of_ne_nil _ hne
  refine .inl ⟨own, hmem, ?_⟩
  unfold CTxOut.Pays at hpays ⊢
  rwa [(hsame prev (txsOfBlocks_subset h hprev)).2 txout htxout, ← hown own hmem] at hpays

theorem indexed_step (h : IndexRun indexedContext {tx | tx ∈ indexedTxs} allowed s blocks)
    (hallow : allowed blocks (.connect (plainEnv 2000) (indexedBlock id) (BitVec.ofNat 256 id.toNat)))
    (hent : s.mapBlockIndex (BitVec.ofNat 256 id.toNat) = some (indexedEntry id))
    (hstor : indexedContext.files.block id 8 = some (indexedBlock id))
    (hrun : (connectIndexed id s).1 = .ok [])
    (hknown : ∀ block ∈ indexedBlock id :: blocks, ∀ tx ∈ block.vtx, tx ∈ indexedTxs) :
    IndexRun indexedContext {tx | tx ∈ indexedTxs} allowed (connectIndexed id s).2
      (indexedBlock id :: blocks) :=
  .step h hallow (.connect hent hstor (Action.eq_of_fst hrun)) (txsOfBlocks_subset hknown)

theorem paidNode_run
    (hallow : allowed [] (.connect (plainEnv 2000) (indexedBlock 2) (BitVec.ofNat 256 2))) :
    IndexRun indexedContext {tx | tx ∈ indexedTxs} allowed paidNode [indexedBlock 2] :=
  indexed_step (.start (fun _ => rfl) fun _ => rfl) hallow (by decide) (by decide)
    (by decide +kernel) (by decide)

end

/-- A coinbase is connected a second time and disconnected, and another one is spent: the index is exact
and has all four transactions. -/
theorem spentNode_exact : AddrIndexExact indexedContext spentNode.txdb
      (txsOfBlocks [indexedBlock 5, indexedBlock 3, indexedBlock 2]) ∧
    spentNode.txdb.addrIndex 0 = [20, 30, 50, 51] := by
  have hdisconnect : (DisconnectBlock indexedContext (indexedBlock 4) 4 repaidNode).1 = .ok () := by
    decide +kernel
  have htwo := paidNode_run (indexed_keepsExact (by decide))
  have hthree := @indexed_step _ 3 _ _ htwo (indexed_keepsExact (by decide)) (by decide +kernel)
    (by decide) (by decide +kernel) (by decide)
  have hfour := @indexed_step _ 4 _ _ hthree (indexed_keepsExact (by decide)) (by decide +kernel)
    (by decide) (by decide +kernel) (by decide)
  have hagain : KeepsExact indexedContext [indexedBlock 4, indexedBlock 3, indexedBlock 2]
      (.disconnect (indexedBlock 4) 4) := fun tx htx => ⟨indexedBlock 3, List.mem_cons_self, htx⟩
  have hkept : IndexRun indexedContext {tx | tx ∈ indexedTxs} (KeepsExact indexedContext) keptNode
      [indexedBlock 3, indexedBlock 2] :=
    .step hfour hagain (.disconnect (Action.eq_of_fst hdisconnect)) (txsOfBlocks_subset (by decide))
  have hfive := @indexed_step _ 5 _ _ hkept (indexed_keepsExact (by decide)) (by decide +kernel)
    (by decide) (by decide +kernel) (by decide)
  exact ⟨(addrIndexExact_iff rfl injOn_indexed).1 _ _ hfive, by decide +kernel⟩

/-- After it has been disconnected, the index still has its coinbase, although no block is connected. -/
theorem unpaidNode_inexact :
    Set.InjOn indexedContext.hashTx {tx | tx ∈ indexedTxs} ∧
      IndexRun indexedContext {tx | tx ∈ indexedTxs} (fun _ _ => True) unpaidNode [] ∧
      unpaidNode.txdb.addrIndex 0 = [20] ∧
      ¬AddrIndexExact indexedContext unpaidNode.txdb (txsOfBlocks []) := by
  have hdisconnect : (DisconnectBlock indexedContext (indexedBlock 2) 2 paidNode).1 = .ok () := by
    decide +kernel
  have hstill : unpaidNode.txdb.addrIndex 0 = [20] := by decide +kernel
  refine ⟨injOn_indexed, .step (paidNode_run trivial) trivial
    (.disconnect (Action.eq_of_fst hdisconnect)) ?_, hstill, fun hexact => ?_⟩
  · rintro tx ⟨block, hblock, -⟩
    simp at hblock
  · obtain ⟨tx, ⟨block, hblock, -⟩, -⟩ := (hexact.mem_iff 0 20).mp (by rw [hstill]; simp)
    simp at hblock

end ZalemCoin.Chain
