import ZalemCoin.Chain.Conservation
import ZalemCoin.Chain.PoolLedger

/-!
# Inputs that could be spent, and where a transaction is

`AcceptableInputs` asks whether a transaction could enter the memory pool, without a look at its
scripts; `GetTransaction` looks for a transaction in the pool, in the transaction index and in the
blocks that are not on the main chain. What the index has as unspent is an unspent output of a
transaction that the active chain has connected.
-/

namespace ZalemCoin.Chain

open Lib

variable (ctx : Context)

/-- A context in which every script is satisfied: `ConnectInputs` with `fValidateSig` unset. -/
def Context.withoutSignatures : Context :=
  { ctx with verifySignature := fun _ _ _ _ => true }

/-- Whether a transaction could enter the memory pool, but for its scripts. -/
def AcceptableInputs (ctx : Context) (env : Env) (s : NodeState) (tx : CTransaction)
    (fLimitFree fRejectInsaneFee isDSTX : Bool) : Except Failure Unit := do
  CheckTransaction s.MAX_BLOCK_SIZE tx
  ensure (tx.IsCoinBase = false) (.reject 100 "AcceptableInputs : coinbase as individual tx")
  ensure (tx.IsCoinStake = false) (.reject 100 "AcceptableInputs : coinstake as individual tx")
  ensure (s.mempool.existsTx (ctx.hashTx tx) = false) (.error "already in the memory pool")
  ensure (∀ txin ∈ tx.vin, lockedForOther ctx s tx txin = false)
    (.reject 0 "AcceptableInputs : conflicts with existing transaction lock")
  ensure (∀ txin ∈ tx.vin, s.mempool.mapNextTx txin.prevout = none) (.error "conflicts in pool")
  ensure (s.txdb.ContainsTx (ctx.hashTx tx) = false) (.error "already in the transaction index")
  let mapInputs ← FetchInputs ctx s ∅ ⟨false, false⟩ tx
  let nP2SH ← GetP2SHSigOpCount mapInputs tx
  ensure (GetLegacySigOpCount tx + nP2SH ≤ s.MAX_TX_SIGOPS)
    (.reject 0 "AcceptableInputs : too many sigops")
  let nValueIn ← GetValueIn mapInputs tx
  let nValueOut ← tx.GetValueOut
  let nFees := wrap64 (nValueIn - nValueOut)
  let txMinFee := GetMinFee tx tx.GetSerializeSize true .GMF_RELAY
  ensure (isDSTX ∨ ¬(fLimitFree ∧ nFees < txMinFee)) (.error "AcceptableInputs : not enough fees")
  ensure (isDSTX ∨ ¬(fLimitFree ∧ nFees < MIN_RELAY_TX_FEE ∧ env.fFreeLimited))
    (.error "AcceptableInputs : free transaction rejected by rate limiter")
  ensure (¬(fRejectInsaneFee ∧ wrap64 (txMinFee * 10000) < nFees))
    (.error "AcceptableInputs: : insane fees")
  let _ ← ConnectInputs ctx.withoutSignatures env s tx mapInputs ∅ CDiskTxPos.memoryPool
    (s.pindexBest.bind s.mapBlockIndex) .block STANDARD_SCRIPT_VERIFY_FLAGS
  pure ()

/-- The transaction with a hash in the block of an index, when the block is off the main chain. -/
def orphanedTx (s : NodeState) (hash p : UInt256) : Option CTransaction :=
  match s.mapBlockIndex p with
  | none => none
  | some i =>
    if s.pindexBest = some p ∨ i.pnext.isSome then none
    else
      match ReadFromDisk ctx p i with
      | .error _ => none
      | .ok block => block.vtx.find? fun tx => ctx.hashTx tx == hash

/-- Finds a transaction, and the hash of the block that contains it when the transaction index has
it. Zero stands for no block, and `blocks` are the keys of the block index in their order. -/
def GetTransaction (s : NodeState) (blocks : List UInt256) (hash : UInt256) :
    Option (CTransaction × UInt256) :=
  match s.mempool.mapTx.lookup hash with
  | some tx => some (tx, 0)
  | none =>
    match s.txdb.ReadTxIndex hash with
    | none => (blocks.findSome? (orphanedTx ctx s hash)).map fun tx => (tx, 0)
    | some txindex =>
      match readTxAt ctx txindex.pos with
      | none => (blocks.findSome? (orphanedTx ctx s hash)).map fun tx => (tx, 0)
      | some tx =>
        some (tx, ((ctx.files.block txindex.pos.nFile txindex.pos.nBlockPos).map ctx.GetHash).getD 0)

def GetInputAge (s : NodeState) (blocks : List UInt256) (vin : CTxIn) :
    Except Failure ℤ :=
  match (GetTransaction ctx s blocks vin.prevout.hash).bind fun found =>
      s.mapBlockIndex found.2 with
  | none => .ok 0
  | some i => do
    let best ← s.index s.pindexBest
    pure ((best.nHeight : ℤ) - i.nHeight)

variable {ctx : Context} {env : Env} {s : NodeState} {blocks : List UInt256}

variable {hash : UInt256} {tx : CTransaction} {vin : CTxIn}

theorem getTransaction_block {hashBlock : UInt256}
    (h : GetTransaction ctx s blocks hash = some (tx, hashBlock)) (hblock : hashBlock ≠ 0) :
    s.mempool.mapTx.lookup hash = none ∧ ∃ txindex, s.txdb.txIndex hash = some txindex ∧
      readTxAt ctx txindex.pos = some tx := by
  -- Where no block is found, the hash of the block is left at zero.
  have horphan : (blocks.findSome? (orphanedTx ctx s hash)).map (fun tx => (tx, 0))
      ≠ some (tx, hashBlock) := by
    intro horphan
    obtain ⟨found, -, heq⟩ := Option.map_eq_some_iff.mp horphan
    exact hblock (Prod.mk.inj heq).2.symm
  unfold GetTransaction at h
  rw [readTxIndex_eq] at h
  rcases hpool : s.mempool.mapTx.lookup hash with _ | pooled
  · rw [hpool] at h
    rcases hidx : s.txdb.txIndex hash with _ | txindex
    · rw [hidx] at h
      exact absurd h horphan
    · rw [hidx] at h
      dsimp only at h
      rcases hread : readTxAt ctx txindex.pos with _ | found
      · rw [hread] at h
        exact absurd h horphan
      · rw [hread] at h
        cases h
        exact ⟨rfl, txindex, rfl, hread⟩
  · rw [hpool] at h
    exact absurd (Prod.mk.inj (Option.some.inj h)).2.symm hblock

theorem getInputAge_pos {age : ℤ} (h : GetInputAge ctx s blocks vin = .ok age) (hpos : 0 < age) :
    ∃ tx hashBlock,
      GetTransaction ctx s blocks vin.prevout.hash = some (tx, hashBlock) ∧
        s.mapBlockIndex hashBlock ≠ none := by
  unfold GetInputAge at h
  rcases hfound : GetTransaction ctx s blocks vin.prevout.hash with _ | ⟨tx, hashBlock⟩
  · rw [hfound] at h
    obtain rfl : 0 = age := Except.ok.inj h
    omega
  · rw [hfound, Option.bind_some] at h
    rcases hidx : s.mapBlockIndex hashBlock with _ | i
    · rw [hidx] at h
      obtain rfl : 0 = age := Except.ok.inj h
      omega
    · exact ⟨tx, hashBlock, rfl, by rw [hidx]; simp⟩

variable {queue : TestPool} {p : CTxIndex × CTransaction} {mode : CheckMode} {inputs : MapPrevTx}

theorem fetchPrev_index (h : fetchPrev ctx s queue ⟨false, false⟩ hash = .ok p)
    (hpool : s.mempool.mapTx.lookup hash = none) :
    s.txdb.txIndex hash = some p.1 ∧ readTxAt ctx p.1.pos = some p.2 := by
  unfold fetchPrev prevIndex at h
  rw [hpool, if_neg (by simp), readTxIndex_eq] at h
  rcases hidx : s.txdb.txIndex hash with _ | txindex
  · rw [hidx] at h
    simp at h
  · rw [hidx] at h
    dsimp only at h
    split at h
    · simp at h
    · rcases hread : readTxAt ctx txindex.pos with _ | tx
      · rw [hread] at h
        simp at h
      · rw [hread] at h
        cases h
        exact ⟨rfl, hread⟩

theorem fetchInputs_single (hvin : tx.vin = [vin]) (hcb : tx.IsCoinBase = false)
    (h : FetchInputs ctx s ∅ mode tx = .ok inputs) :
    ∃ p, fetchPrev ctx s ∅ mode vin.prevout.hash = .ok p ∧
      inputs.lookup vin.prevout.hash = some p := by
  unfold FetchInputs at h
  rw [hcb, if_neg Bool.false_ne_true, hvin] at h
  obtain ⟨fetched, hfetch, h⟩ := bind_ok h
  obtain ⟨⟨⟩, -, h⟩ := bind_ok h
  cases h
  obtain ⟨fetched', hone, hnil⟩ := bind_ok hfetch
  cases hnil
  obtain ⟨p, hp, hone⟩ := bind_ok hone
  cases hone
  exact ⟨p, hp, AList.lookup_insert _⟩

theorem connectInputs_single {pos : CDiskTxPos} {pindex : Option CBlockIndex} {flags : UInt32}
    {r : TestPool × List SigCheck} (hvin : tx.vin = [vin]) (hcb : tx.IsCoinBase = false)
    (hp : inputs.lookup vin.prevout.hash = some p)
    (h : ConnectInputs ctx env s tx inputs queue pos pindex mode flags = .ok r) :
    p.1.slots[vin.prevout.n.toNat]? = some CDiskTxPos.null := by
  unfold ConnectInputs at h
  rw [hcb, if_neg Bool.false_ne_true, hvin] at h
  obtain ⟨nValueIn, -, h⟩ := bind_ok h
  obtain ⟨acc, hspend, -⟩ := bind_ok h
  obtain ⟨acc', hone, -⟩ := bind_ok hspend
  unfold spendInput at hone
  dsimp only at hone
  rw [hp] at hone
  obtain ⟨hnull, -⟩ := ensure_ok hone
  exact hnull

theorem acceptableInputs_single {fLimitFree fRejectInsaneFee isDSTX : Bool} (hvin : tx.vin = [vin])
    (hpool : s.mempool.mapTx.lookup vin.prevout.hash = none)
    (h : AcceptableInputs ctx env s tx fLimitFree fRejectInsaneFee isDSTX = .ok ()) :
    Unspent s.txdb.txIndex vin.prevout := by
  obtain ⟨⟨⟩, -, h⟩ := bind_ok h
  obtain ⟨hcb, h⟩ := ensure_ok h
  obtain ⟨⟨⟩, -, h⟩ := bind_ok h
  obtain ⟨⟨⟩, -, h⟩ := bind_ok h
  obtain ⟨⟨⟩, -, h⟩ := bind_ok h
  obtain ⟨⟨⟩, -, h⟩ := bind_ok h
  obtain ⟨⟨⟩, -, h⟩ := bind_ok h
  obtain ⟨inputs, hfetch, h⟩ := bind_ok h
  obtain ⟨nP2SH, -, h⟩ := bind_ok h
  obtain ⟨⟨⟩, -, h⟩ := bind_ok h
  obtain ⟨nValueIn, -, h⟩ := bind_ok h
  obtain ⟨nValueOut, -, h⟩ := bind_ok h
  obtain ⟨⟨⟩, -, h⟩ := bind_ok h
  obtain ⟨⟨⟩, -, h⟩ := bind_ok h
  obtain ⟨⟨⟩, -, h⟩ := bind_ok h
  obtain ⟨r, hconn, -⟩ := bind_ok h
  obtain ⟨p, hprev, hlook⟩ := fetchInputs_single hvin hcb hfetch
  have hidx := (fetchPrev_index hprev hpool).1
  have hfree := connectInputs_single hvin hcb hlook hconn
  unfold Unspent Ledger.slot COutPoint.slot
  rw [hidx]
  exact hfree

/-! ## The active chain -/

variable {tip : UInt256} {above : List UInt256}

theorem Connected.mem_connectedTxs (h : Connected ctx s tip above) {txindex : CTxIndex}
    (hidx : s.txdb.txIndex hash = some txindex) (hread : readTxAt ctx txindex.pos = some tx) :
    (txindex.pos, tx) ∈ connectedTxs ctx s (tip :: above) ∧ ctx.hashTx tx = hash := by
  have hrec := h.chained.recorded
  rw [← h.ledger] at hrec
  have hsome : ¬ s.txdb.txIndex hash = none := by simp [hidx]
  rw [hrec.absent] at hsome
  push Not at hsome
  obtain ⟨t, ht, hid⟩ := hsome
  have hpos := hrec.pos t ht
  rw [hid, hidx] at hpos
  obtain ⟨u, hu, rfl⟩ := List.mem_map.mp ht
  have hplace : txindex.pos = u.1 := Option.some.inj hpos
  have htx : u.2 = tx := by
    rw [hplace, (h.chained.wellPlaced u hu).1] at hread
    exact Option.some.inj hread
  subst htx
  constructor
  · rw [hplace]
    exact hu
  · exact hid

theorem Connected.not_spent (h : Connected ctx s tip above) {o : COutPoint}
    (hunspent : Unspent s.txdb.txIndex o) :
    ∀ u ∈ connectedTxs ctx s (tip :: above), o.slot ∉ u.2.spentSlots := by
  intro u hu hspent
  have hmark := h.marksSpent.spender u hu _ hspent
  have hnull : u.1 = CDiskTxPos.null := Option.mem_unique hmark hunspent
  exact (h.chained.wellPlaced u hu).2.1 hnull

end ZalemCoin.Chain
