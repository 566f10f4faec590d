import ZalemCoin.Chain.CheckBlock
import ZalemCoin.Chain.ConnectInputs

/-!
# The memory pool

`AcceptToMemoryPool` checks a transaction against the locks, the pool, the transaction index and
the scripts of its inputs before it adds it; transactions leave the pool when a block contains them
or conflicts with them.
-/

namespace ZalemCoin.Chain

open Lib

def MIN_TX_FEE : ℤ := 10000

def MIN_RELAY_TX_FEE : ℤ := MIN_TX_FEE

def DEFAULT_BLOCK_PRIORITY_SIZE : ℕ := 50000

inductive GetMinFee_mode where
  | GMF_BLOCK
  | GMF_RELAY
  | GMF_SEND
deriving DecidableEq

def GetMinFee (tx : CTransaction) (nBytes : ℕ) (fAllowFree : Bool) (mode : GetMinFee_mode) : ℤ :=
  let nBaseFee := if mode = .GMF_RELAY then MIN_RELAY_TX_FEE else MIN_TX_FEE
  let nMinFee := (1 + (nBytes / 1000 : ℕ)) * nBaseFee
  let nMinFee :=
    if fAllowFree ∧ nBytes < (if mode = .GMF_SEND then 1000 else DEFAULT_BLOCK_PRIORITY_SIZE - 1000)
    then 0 else nMinFee
  let nMinFee :=
    if nMinFee < nBaseFee ∧ mode = .GMF_SEND ∧ ∃ txout ∈ tx.vout, txout.nValue < CENT then nBaseFee
    else nMinFee
  if 0 ≤ nMinFee ∧ nMinFee ≤ MAX_SINGLE_TX then nMinFee else MAX_SINGLE_TX

namespace CTxMemPool

def existsTx (pool : CTxMemPool) (hash : UInt256) : Bool := (pool.mapTx.lookup hash).isSome

def addUnchecked (pool : CTxMemPool) (hash : UInt256) (tx : CTransaction) : CTxMemPool where
  mapTx := pool.mapTx.insert hash tx
  mapNextTx := tx.vin.zipIdx.foldl
    (fun mapNextTx input => Function.update mapNextTx input.1.prevout (some ⟨hash, input.2⟩))
    pool.mapNextTx

/-- Removes the entry of a transaction and those of the outputs that it spends. -/
def erase (pool : CTxMemPool) (hash : UInt256) (tx : CTransaction) : CTxMemPool where
  mapTx := pool.mapTx.erase hash
  mapNextTx := tx.vin.foldl (fun mapNextTx txin => Function.update mapNextTx txin.prevout none)
    pool.mapNextTx

/-- Removes a transaction and everything in the pool that spends from it. Every step of the
recursion removes a transaction that the pool has, and the pool has no more than the first
argument says. -/
def removeRecursive (ctx : Context) : ℕ → CTxMemPool → CTransaction → CTxMemPool
  | 0, pool, _ => pool
  | fuel + 1, pool, tx =>
    if pool.existsTx (ctx.hashTx tx) then
      let pool := (List.range tx.vout.length).foldl (fun pool i =>
        match (pool.mapNextTx ⟨ctx.hashTx tx, UInt32.ofNat i⟩).bind
            fun next => pool.mapTx.lookup next.ptx with
        | some child => removeRecursive ctx fuel pool child
        | none => pool) pool
      pool.erase (ctx.hashTx tx) tx
    else pool

def remove (ctx : Context) (pool : CTxMemPool) (tx : CTransaction) (fRecursive : Bool) :
    CTxMemPool :=
  if fRecursive then removeRecursive ctx (pool.mapTx.keys.length + 1) pool tx
  else if pool.existsTx (ctx.hashTx tx) then pool.erase (ctx.hashTx tx) tx
  else pool

/-- Removes the transactions of the pool that spend what a transaction spends, and everything that
spends from them. -/
def removeConflicts (ctx : Context) (pool : CTxMemPool) (tx : CTransaction) : CTxMemPool :=
  tx.vin.foldl (fun pool txin =>
    match (pool.mapNextTx txin.prevout).bind fun next => pool.mapTx.lookup next.ptx with
    | some txConflict => if txConflict ≠ tx then pool.remove ctx txConflict true else pool
    | none => pool) pool

end CTxMemPool

variable (ctx : Context)

def checkRelayFees (env : Env) (tx : CTransaction) (nFees : ℤ) (fLimitFree : Bool)
    (ignoreFees : Bool) : Except Failure Unit :=
  if env.mnengineBroadcast (ctx.hashTx tx) ∨ ignoreFees then .ok ()
  else do
    ensure (¬(fLimitFree ∧ nFees < GetMinFee tx tx.GetSerializeSize true .GMF_RELAY))
      (.error "AcceptToMemoryPool : not enough fees")
    ensure (¬(fLimitFree ∧ nFees < MIN_RELAY_TX_FEE ∧ env.fFreeLimited))
      (.error "AcceptableInputs : free transaction rejected by rate limiter")

def checkLoose (s : NodeState) (tx : CTransaction) : Except Failure Unit := do
  CheckTransaction s.MAX_BLOCK_SIZE tx
  ensure (tx.IsCoinBase = false) (.reject 100 "AcceptToMemoryPool : coinbase as individual tx")
  ensure (tx.IsCoinStake = false) (.reject 100 "AcceptToMemoryPool : coinstake as individual tx")
  ensure (ctx.network = .testnet ∨ ctx.isStandardTx tx)
    (.error "AcceptToMemoryPool : nonstandard transaction")
  ensure (s.mempool.existsTx (ctx.hashTx tx) = false) (.error "already in the memory pool")
  ensure (∀ txin ∈ tx.vin, lockedForOther ctx s tx txin = false)
    (.error "AcceptToMemoryPool : conflicts with existing transaction lock")
  ensure (∀ txin ∈ tx.vin, s.mempool.mapNextTx txin.prevout = none) (.error "conflicts in pool")

def checkIndexed (env : Env) (s : NodeState) (tx : CTransaction)
    (fLimitFree fRejectInsaneFee ignoreFees : Bool) : Except Failure Unit := do
  ensure (s.txdb.ContainsTx (ctx.hashTx tx) = false) (.error "already in the transaction index")
  ensure (∀ txin ∈ tx.vin, s.txdb.ContainsTx txin.prevout.hash = true) (.error "missing inputs")
  let mapInputs ← FetchInputs ctx s ∅ ⟨false, false⟩ tx
  ensure (ctx.network = .testnet ∨
      ctx.areInputsStandard tx fun hash => (mapInputs.lookup hash).map Prod.snd)
    (.error "AcceptToMemoryPool : nonstandard transaction input")
  let nP2SH ← GetP2SHSigOpCount mapInputs tx
  ensure (GetLegacySigOpCount tx + nP2SH ≤ s.MAX_TX_SIGOPS)
    (.error "AcceptToMemoryPool : too many sigops")
  let nValueIn ← GetValueIn mapInputs tx
  let nValueOut ← tx.GetValueOut
  let nFees := wrap64 (nValueIn - nValueOut)
  checkRelayFees ctx env tx nFees fLimitFree ignoreFees
  ensure (¬(fRejectInsaneFee ∧ MIN_RELAY_TX_FEE * 10000 < nFees))
    (.error "AcceptableInputs: : insane fees")
  let connect := ConnectInputs ctx env s tx mapInputs ∅ CDiskTxPos.memoryPool
    (s.pindexBest.bind s.mapBlockIndex) ⟨false, false⟩
  let _ ← connect STANDARD_SCRIPT_VERIFY_FLAGS
  let _ ← connect MANDATORY_SCRIPT_VERIFY_FLAGS
  pure ()

def AcceptToMemoryPool (env : Env) (tx : CTransaction)
    (fLimitFree fRejectInsaneFee ignoreFees : Bool) : NodeM Unit := do
  Action.reading fun s => checkLoose ctx s tx
  Action.reading fun s => checkIndexed ctx env s tx fLimitFree fRejectInsaneFee ignoreFees
  Action.modify fun s => { s with mempool := s.mempool.addUnchecked (ctx.hashTx tx) tx }

end ZalemCoin.Chain
