import ZalemCoin.Chain.State

/-!
# Fetching, connecting and disconnecting the inputs of a transaction

`FetchInputs` looks up the transactions that a transaction spends from: in the pending changes, in
the database, or in the memory pool. `ConnectInputs` checks the inputs against them and records the
spent outputs in the pending changes; it also returns which script verifications it evaluated, and
with which result.
-/

namespace ZalemCoin.Chain

open Lib

def nCoinbaseMaturity : ℕ := 23

def SCRIPT_VERIFY_NONE : UInt32 := 0
def SCRIPT_VERIFY_NOCACHE : UInt32 := 1
def SCRIPT_VERIFY_STRICTENC : UInt32 := 2
def SCRIPT_VERIFY_NULLDUMMY : UInt32 := 16
def SCRIPT_VERIFY_DISCOURAGE_UPGRADABLE_NOPS : UInt32 := 128
def MANDATORY_SCRIPT_VERIFY_FLAGS : UInt32 := SCRIPT_VERIFY_NONE
def STANDARD_SCRIPT_VERIFY_FLAGS : UInt32 :=
  MANDATORY_SCRIPT_VERIFY_FLAGS ||| SCRIPT_VERIFY_STRICTENC ||| SCRIPT_VERIFY_NULLDUMMY |||
    SCRIPT_VERIFY_DISCOURAGE_UPGRADABLE_NOPS
def STANDARD_NOT_MANDATORY_VERIFY_FLAGS : UInt32 :=
  STANDARD_SCRIPT_VERIFY_FLAGS &&& ~~~MANDATORY_SCRIPT_VERIFY_FLAGS

/-- The pending changes of the transaction index. -/
abbrev TestPool := AList fun _ : UInt256 => CTxIndex

abbrev MapPrevTx := AList fun _ : UInt256 => CTxIndex × CTransaction

/-- Which checks a caller wants: `fBlock` when a block is connected and `fMiner` when a block is
assembled; neither when a transaction enters the memory pool. -/
structure CheckMode where
  fBlock : Bool
  fMiner : Bool

/-- The evaluation of a script: the transactions, the number of the input, the flags and the
result. -/
structure SigCheck where
  txPrev : CTransaction
  txTo : CTransaction
  nIn : ℕ
  flags : UInt32
  result : Bool
deriving DecidableEq

variable (ctx : Context)

def readTxAt (pos : CDiskTxPos) : Option CTransaction :=
  ctx.files.tx pos.nFile pos.nTxPos

/-- The index entry of a previous transaction: from the pending changes, or else from the
database. -/
def prevIndex (s : NodeState) (mapTestPool : TestPool) (mode : CheckMode) (hash : UInt256) :
    Option CTxIndex :=
  if mode.fBlock || mode.fMiner then
    match mapTestPool.lookup hash with
    | some txindex => some txindex
    | none => s.txdb.ReadTxIndex hash
  else s.txdb.ReadTxIndex hash

def fetchPrev (s : NodeState) (mapTestPool : TestPool) (mode : CheckMode)
    (hash : UInt256) : Except Failure (CTxIndex × CTransaction) :=
  match prevIndex s mapTestPool mode hash with
  | some txindex =>
    if txindex.pos = CDiskTxPos.memoryPool then
      match s.mempool.mapTx.lookup hash with
      | some txPrev => .ok (txindex, txPrev)
      | none => .error (.error "FetchInputs() : mempool Tx prev not found")
    else
      match readTxAt ctx txindex.pos with
      | some txPrev => .ok (txindex, txPrev)
      | none => .error (.error "FetchInputs() : ReadFromDisk prev tx failed")
  | none =>
    if mode.fBlock || mode.fMiner then
      .error (.error "FetchInputs() : prev tx index entry not found")
    else
      match s.mempool.mapTx.lookup hash with
      | some txPrev => .ok (CTxIndex.new CDiskTxPos.null txPrev.vout.length, txPrev)
      | none => .error (.error "FetchInputs() : mempool Tx prev not found")

def fetchInput (s : NodeState) (mapTestPool : TestPool) (mode : CheckMode)
    (inputsRet : MapPrevTx) (txin : CTxIn) : Except Failure MapPrevTx :=
  match inputsRet.lookup txin.prevout.hash with
  | some _ => .ok inputsRet
  | none => do
    let prev ← fetchPrev ctx s mapTestPool mode txin.prevout.hash
    pure (inputsRet.insert txin.prevout.hash prev)

def checkPrevout (inputs : MapPrevTx) (msg : String) (txin : CTxIn) : Except Failure Unit :=
  match inputs.lookup txin.prevout.hash with
  | none => .error (.crash "inputs.count(prevout.hash) > 0")
  | some (txindex, txPrev) =>
    ensure (txin.prevout.n.toNat < txPrev.vout.length ∧
      txin.prevout.n.toNat < txindex.vSpent.length) (.reject 100 msg)

def FetchInputs (ctx : Context) (s : NodeState) (mapTestPool : TestPool) (mode : CheckMode)
    (tx : CTransaction) : Except Failure MapPrevTx :=
  if tx.IsCoinBase then .ok ∅
  else do
    let inputsRet ← tx.vin.foldlM (fetchInput ctx s mapTestPool mode) ∅
    tx.vin.forM (checkPrevout inputsRet "FetchInputs() : prevout.n out of range")
    pure inputsRet

def GetOutputFor (inputs : MapPrevTx) (txin : CTxIn) : Except Failure CTxOut :=
  match (inputs.lookup txin.prevout.hash).bind fun p => p.2.vout[txin.prevout.n.toNat]? with
  | some txout => .ok txout
  | none => .error (.crash "CTransaction::GetOutputFor()")

def GetValueIn (inputs : MapPrevTx) (tx : CTransaction) : Except Failure ℤ :=
  if tx.IsCoinBase then .ok 0
  else
    tx.vin.foldlM (fun nResult txin => do
      let txout ← GetOutputFor inputs txin
      pure (wrap64 (nResult + txout.nValue))) 0

/-- The signature operations in the scripts that the inputs reveal. -/
def GetP2SHSigOpCount (inputs : MapPrevTx) (tx : CTransaction) : Except Failure ℕ :=
  if tx.IsCoinBase then .ok 0
  else
    tx.vin.foldlM (fun nSigOps txin => do
      let prevout ← GetOutputFor inputs txin
      pure (if CScript.IsPayToScriptHash prevout.scriptPubKey then
        nSigOps + CScript.GetSigOpCountWith prevout.scriptPubKey txin.scriptSig
      else nSigOps)) 0

/-- The search of `IsConfirmedInNPrevBlocks` from an index, with the steps that it may still
take. -/
def confirmedLoop (s : NodeState) (txindex : CTxIndex) (nFromHeight nMaxDepth : ℕ) :
    ℕ → Option UInt256 → Except Failure Bool
  | _, none => .ok false
  | 0, some _ => .error (.crash "IsConfirmedInNPrevBlocks does not return")
  | fuel + 1, some p => do
    let i ← s.index (some p)
    if ((nFromHeight : ℤ) - i.nHeight) < nMaxDepth then
      if i.nBlockPos = txindex.pos.nBlockPos ∧ i.nFile = txindex.pos.nFile then pure true
      else confirmedLoop s txindex nFromHeight nMaxDepth fuel i.pprev
    else pure false

/-- Whether the block of a transaction is among the last blocks up to an index. The index is given
by its content, and `none` is the null pointer. -/
def IsConfirmedInNPrevBlocks (s : NodeState) (txindex : CTxIndex)
    (pindexFrom : Option CBlockIndex) (nMaxDepth : ℕ) : Except Failure Bool :=
  match pindexFrom with
  | none => .ok false
  | some i =>
    if 0 < nMaxDepth then
      if i.nBlockPos = txindex.pos.nBlockPos ∧ i.nFile = txindex.pos.nFile then .ok true
      else confirmedLoop s txindex i.nHeight nMaxDepth (i.nHeight + 1) i.pprev
    else .ok false

/-- The output of a coinbase or a coinstake must be mature. -/
def checkMaturity (s : NodeState) (txindex : CTxIndex) (txPrev : CTransaction)
    (pindexBlock : Option CBlockIndex) : Except Failure Unit :=
  if txPrev.IsCoinBase || txPrev.IsCoinStake then do
    let confirmed ← IsConfirmedInNPrevBlocks s txindex pindexBlock nCoinbaseMaturity
    ensure (confirmed = false)
      (.error "ConnectInputs() : tried to spend coinbase or coinstake at depth")
  else .ok ()

def checkInput (s : NodeState) (tx : CTransaction) (inputs : MapPrevTx)
    (pindexBlock : Option CBlockIndex) (nValueIn : ℤ) (txin : CTxIn) : Except Failure ℤ := do
  checkPrevout inputs "ConnectInputs() : prevout.n out of range" txin
  match inputs.lookup txin.prevout.hash with
  | none => .error (.crash "inputs.count(prevout.hash) > 0")
  | some (txindex, txPrev) =>
    checkMaturity s txindex txPrev pindexBlock
    ensure (txPrev.nTime ≤ tx.nTime)
      (.reject 100 "ConnectInputs() : transaction timestamp earlier than input transaction")
    let prevout ← GetOutputFor inputs txin
    ensure (prevout.IsEmpty = false) (.reject 1 "ConnectInputs() : special marker is not spendable")
    let nValueIn := wrap64 (nValueIn + prevout.nValue)
    ensure (MoneyRange prevout.nValue ∧ MoneyRange nValueIn)
      (.reject 100 "ConnectInputs() : txin values out of range")
    pure nValueIn

/-- What the second loop of `ConnectInputs` carries: the previous transactions, the pending
changes, and the script evaluations so far. -/
structure SpendState where
  inputs : MapPrevTx
  mapTestPool : TestPool
  sigLog : List SigCheck

/-- The script verification of one input. With flags beyond the mandatory ones a failed
verification is repeated with the mandatory flags only. -/
def verifyInput (txPrev tx : CTransaction) (i : ℕ) (flags : UInt32) :
    Except Failure (List SigCheck) :=
  if ctx.verifySignature txPrev tx i flags then .ok [⟨txPrev, tx, i, flags, true⟩]
  else if flags &&& STANDARD_NOT_MANDATORY_VERIFY_FLAGS ≠ 0 ∧
      ctx.verifySignature txPrev tx i (flags &&& ~~~STANDARD_NOT_MANDATORY_VERIFY_FLAGS) then
    .error (.error "ConnectInputs() : non-mandatory VerifySignature failed")
  else .error (.reject 100 "ConnectInputs() : VerifySignature failed")

/-- The script verification of one input, where the caller wants it: it is skipped when a block is
connected after the initial download. -/
def checkScript (txPrev tx : CTransaction) (i : ℕ) (mode : CheckMode)
    (fInitialDownload : Bool) (flags : UInt32) : Except Failure (List SigCheck) :=
  if !(mode.fBlock && !fInitialDownload) then verifyInput ctx txPrev tx i flags else .ok []

/-- Spends one input: its output must not be spent yet, and is marked with the position of the
transaction. -/
def spendInput (tx : CTransaction) (posThisTx : CDiskTxPos) (mode : CheckMode)
    (fInitialDownload : Bool) (flags : UInt32) (acc : SpendState) (input : CTxIn × ℕ) :
    Except Failure SpendState :=
  let prevout := input.1.prevout
  match acc.inputs.lookup prevout.hash with
  | none => .error (.crash "inputs.count(prevout.hash) > 0")
  | some (txindex, txPrev) => do
    ensure (txindex.vSpent[prevout.n.toNat]? = some CDiskTxPos.null)
      (.error "ConnectInputs() : prev tx already used")
    let checks ← checkScript ctx txPrev tx input.2 mode fInitialDownload flags
    let txindex := { txindex with slots := txindex.slots.set prevout.n.toNat posThisTx }
    pure
      { inputs := acc.inputs.insert prevout.hash (txindex, txPrev)
        mapTestPool :=
          if mode.fBlock || mode.fMiner then acc.mapTestPool.insert prevout.hash txindex
          else acc.mapTestPool
        sigLog := acc.sigLog ++ checks }

def checkFees (tx : CTransaction) (nValueIn : ℤ) : Except Failure Unit :=
  if tx.IsCoinStake then .ok ()
  else do
    let nValueOut ← tx.GetValueOut
    ensure (nValueOut ≤ nValueIn) (.reject 100 "ConnectInputs() : value in < value out")
    ensure (MoneyRange (nValueIn - nValueOut)) (.reject 100 "ConnectInputs() : nFees out of range")

/-- Checks the inputs of a transaction against the transactions that it spends from, and records
the spent outputs. -/
def ConnectInputs (env : Env) (s : NodeState) (tx : CTransaction)
    (inputs : MapPrevTx) (mapTestPool : TestPool) (posThisTx : CDiskTxPos)
    (pindexBlock : Option CBlockIndex) (mode : CheckMode) (flags : UInt32) :
    Except Failure (TestPool × List SigCheck) :=
  if tx.IsCoinBase then .ok (mapTestPool, [])
  else do
    let nValueIn ← tx.vin.foldlM (checkInput s tx inputs pindexBlock) 0
    let acc ← tx.vin.zipIdx.foldlM
      (spendInput ctx tx posThisTx mode (IsInitialBlockDownload ctx env s) flags)
      ⟨inputs, mapTestPool, []⟩
    checkFees tx nValueIn
    pure (acc.mapTestPool, acc.sigLog)

/-- Frees the output that an input spends. -/
def disconnectInput (txin : CTxIn) : NodeM Unit := do
  let txindex ← Action.reading fun s =>
    match s.txdb.ReadTxIndex txin.prevout.hash with
    | none => .error (.error "DisconnectInputs() : ReadTxIndex failed")
    | some txindex => do
      ensure (txin.prevout.n.toNat < txindex.vSpent.length)
        (.error "DisconnectInputs() : prevout.n out of range")
      pure txindex
  let txindex : CTxIndex :=
    { txindex with slots := txindex.slots.set txin.prevout.n.toNat CDiskTxPos.null }
  Action.modify fun s => { s with txdb := s.txdb.UpdateTxIndex txin.prevout.hash txindex }

/-- Frees the outputs that a transaction spends. -/
def releaseInputs (tx : CTransaction) : NodeM Unit :=
  if tx.IsCoinBase then pure () else tx.vin.forM disconnectInput

/-- Frees the outputs that a transaction spends, and removes it from the index. -/
def DisconnectInputs (tx : CTransaction) : NodeM Unit := do
  releaseInputs tx
  Action.modify fun s => { s with txdb := s.txdb.EraseTxIndex (ctx.hashTx tx) }

end ZalemCoin.Chain
