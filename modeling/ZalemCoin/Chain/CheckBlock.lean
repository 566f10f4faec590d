import ZalemCoin.Chain.Rewards

/-!
# Checking a transaction and a block on their own

`CheckTransaction` and `CheckBlock` make the checks that do not need the inputs of a transaction.
`CheckBlock` is not free of context: it reads the clock, the locked inputs, the payment winners and
the best block, and the size limits are variables.
-/

namespace ZalemCoin.Chain

open Lib

/-- The time by which a block may be ahead of the clock. -/
def nDrift : ℤ := 5 * 60

def START_FLOATINGCITY_PAYMENTS : ℤ := 1554534732

def START_DEVOPS_PAYMENTS_TESTNET : ℤ := 9993058800
def START_DEVOPS_PAYMENTS : ℤ := 1554534732
def STOP_DEVOPS_PAYMENTS_TESTNET : ℤ := 9993058800
def STOP_DEVOPS_PAYMENTS : ℤ := 9993058800

def checkOutput (tx : CTransaction) (nValueOut : ℤ) (txout : CTxOut) : Except Failure ℤ := do
  ensure (¬(txout.IsEmpty ∧ ¬tx.IsCoinBase ∧ ¬tx.IsCoinStake))
    (.reject 100 "CTransaction::CheckTransaction() : txout empty for user transaction")
  ensure (0 ≤ txout.nValue) (.reject 100 "CTransaction::CheckTransaction() : txout.nValue negative")
  ensure (txout.nValue ≤ MAX_SINGLE_TX)
    (.reject 100 "CTransaction::CheckTransaction() : txout.nValue too high")
  let nValueOut := wrap64 (nValueOut + txout.nValue)
  ensure (MoneyRange nValueOut)
    (.reject 100 "CTransaction::CheckTransaction() : txout total out of range")
  pure nValueOut

def CheckTransaction (MAX_BLOCK_SIZE : ℕ) (tx : CTransaction) : Except Failure Unit := do
  ensure (tx.vin ≠ []) (.reject 10 "CTransaction::CheckTransaction() : vin empty")
  ensure (tx.vout ≠ []) (.reject 10 "CTransaction::CheckTransaction() : vout empty")
  ensure (tx.GetSerializeSize ≤ MAX_BLOCK_SIZE)
    (.reject 100 "CTransaction::CheckTransaction() : size limits failed")
  let _ ← tx.vout.foldlM (checkOutput tx) 0
  ensure (tx.vin.map CTxIn.prevout).Nodup (.error "")
  if tx.IsCoinBase then
    ensure (∀ txin ∈ tx.vin.head?, 2 ≤ txin.scriptSig.length ∧ txin.scriptSig.length ≤ 100)
      (.reject 100 "CTransaction::CheckTransaction() : coinbase script size is invalid")
  else
    ensure (∀ txin ∈ tx.vin, txin.prevout.IsNull = false)
      (.reject 10 "CTransaction::CheckTransaction() : prevout is null")

/-- One level of the merkle tree from the level below; a last hash without a partner is paired with
itself. -/
def merkleLevel (ctx : Context) : List UInt256 → List UInt256
  | a :: b :: rest => ctx.hashPair a b :: merkleLevel ctx rest
  | [a] => [ctx.hashPair a a]
  | [] => []

def merkleRootLoop (ctx : Context) : ℕ → List UInt256 → UInt256
  | _, [] => 0
  | _, [a] => a
  | 0, a :: _ => a
  | fuel + 1, level => merkleRootLoop ctx fuel (merkleLevel ctx level)

variable (ctx : Context)

def BuildMerkleTree (block : CBlock) : UInt256 :=
  merkleRootLoop ctx block.vtx.length (block.vtx.map ctx.hashTx)

/-- The first checks of a block: its size, its proof of work, its time, and where its coinbase and
coinstake are. -/
def checkForm (env : Env) (s : NodeState) (block : CBlock) (fCheckPOW : Bool) :
    Except Failure Unit := do
  ensure (block.vtx ≠ [] ∧ block.vtx.length ≤ s.MAX_BLOCK_SIZE ∧
      block.GetSerializeSize ≤ s.MAX_BLOCK_SIZE)
    (.reject 100 "CheckBlock() : size limits failed")
  ensure (¬(fCheckPOW ∧ block.IsProofOfWork ∧
      ¬CheckProofOfWork ctx (ctx.GetHash block) block.nBits))
    (.reject 50 "CheckBlock() : proof of work failed")
  ensure (block.GetBlockTime ≤ env.adjustedTime + nDrift)
    (.error "CheckBlock() : block timestamp too far in the future")
  ensure (∀ tx ∈ block.vtx.head?, tx.IsCoinBase = true)
    (.reject 100 "CheckBlock() : first tx is not coinbase")
  ensure (∀ tx ∈ block.vtx.tail, tx.IsCoinBase = false)
    (.reject 100 "CheckBlock() : more than one coinbase")
  if block.IsProofOfStake then
    ensure (∀ tx ∈ block.vtx.head?, tx.vout.length = 1 ∧ ∀ txout ∈ tx.vout, txout.IsEmpty = true)
      (.reject 100 "CheckBlock() : coinbase output not empty for proof-of-stake block")
    ensure (∀ tx ∈ block.vtx.drop 2, tx.IsCoinStake = false)
      (.reject 100 "CheckBlock() : more than one coinstake")

/-- Whether payments to the developers are due at this time. -/
def devopsPaymentsActive (env : Env) : Bool :=
  if ctx.network = .testnet then
    decide (env.time > START_DEVOPS_PAYMENTS_TESTNET) &&
      !decide (env.time > STOP_DEVOPS_PAYMENTS_TESTNET)
  else decide (env.time > START_DEVOPS_PAYMENTS) && !decide (env.time > STOP_DEVOPS_PAYMENTS)

def extendedBest (s : NodeState) (block : CBlock) : Option CBlockIndex :=
  if s.pindexBest = some block.hashPrevBlock then s.mapBlockIndex block.hashPrevBlock else none

/-- The check of the payment to the developers. It is made on the test network only, and the
address that it looks for is set on the main network only. -/
def checkDevops (env : Env) (s : NodeState) (block : CBlock) :
    Except Failure Unit :=
  if block.IsProofOfStake ∧ ¬IsInitialBlockDownload ctx env s ∧ devopsPaymentsActive ctx env ∧
      ctx.network = .testnet then
    match extendedBest s block, block.vtx with
    | some best, _ :: coinstake :: _ => do
      let devopaddress := if ctx.network = .main then some ctx.devopsScript else none
      let devopsPayment := GetDevOpsPayment env.nPoSageReward
      match devopaddress with
      | none => .error (.reject 100 "CheckBlock() : coinstake failed to include devops recipient")
      | some script => do
        let fEnforced := decide (best.GetBlockTime > 1554091740)
        let devpayee := if fEnforced then script else []
        ensure (fEnforced = false ∨ ∃ txout ∈ coinstake.vout, txout.nValue = devopsPayment)
          (.reject 100 "CheckBlock() : coinstake failed to include devops payment")
        ensure (fEnforced = false ∨ ∃ txout ∈ coinstake.vout, txout.scriptPubKey = devpayee)
          (.reject 100 "CheckBlock() : coinstake failed to include devops recipient")
    | _, _ => .ok ()
  else .ok ()

def lockedForOther (s : NodeState) (tx : CTransaction) (txin : CTxIn) : Bool :=
  match s.mapLockedInputs txin.prevout with
  | some hash => hash != ctx.hashTx tx
  | none => false

def checkLocks (env : Env) (s : NodeState) (block : CBlock) :
    Except Failure Unit :=
  if env.fInstantXBlockFiltering then
    ensure (∀ tx ∈ block.vtx, tx.IsCoinBase = false →
        ∀ txin ∈ tx.vin, lockedForOther ctx s tx txin = false)
      (.error "CheckBlock() : found conflicting transaction with transaction lock")
  else .ok ()

/-- The check of the payment to a masternode: the last output of the coinstake sets the amount. -/
def checkFloatingcityPayment (env : Env) (s : NodeState) (block : CBlock) :
    Except Failure Unit :=
  if ¬IsInitialBlockDownload ctx env s ∧ block.GetBlockTime > START_FLOATINGCITY_PAYMENTS ∧
      block.IsProofOfStake then
    match extendedBest s block, block.vtx with
    | some best, _ :: coinstake :: _ =>
      match env.blockPayee (best.nHeight + 1) with
      | none | some [] => .ok ()
      | some payee =>
        ensure (∃ txout ∈ coinstake.vout,
            some txout.nValue = coinstake.vout.getLast?.map CTxOut.nValue ∧
              txout.scriptPubKey = payee)
          (.reject 100 "CheckBlock() : Couldn't find floatingcity payment or payee")
    | _, _ => .ok ()
  else .ok ()

/-- The failure that `CheckBlock` reports for a transaction: the score is the transaction's. -/
def blockFailure : Failure → Failure
  | .reject nDoS _ => .reject nDoS "CheckBlock() : CheckTransaction failed"
  | .crash msg => .crash msg

def checkBlockTransaction (s : NodeState) (block : CBlock) (tx : CTransaction) :
    Except Failure Unit := do
  (CheckTransaction s.MAX_BLOCK_SIZE tx).mapError blockFailure
  ensure ((tx.nTime.toNat : ℤ) ≤ block.GetBlockTime)
    (.reject 50 "CheckBlock() : block timestamp earlier than transaction timestamp")

def checkTransactions (s : NodeState) (block : CBlock) (fCheckMerkleRoot : Bool) :
    Except Failure Unit := do
  block.vtx.forM (checkBlockTransaction s block)
  ensure (block.vtx.map ctx.hashTx).Nodup (.reject 100 "CheckBlock() : duplicate transaction")
  ensure ((block.vtx.map GetLegacySigOpCount).sum ≤ s.MAX_BLOCK_SIGOPS)
    (.reject 100 "CheckBlock() : out-of-bounds SigOpCount")
  ensure (¬(fCheckMerkleRoot ∧ block.hashMerkleRoot ≠ BuildMerkleTree ctx block))
    (.reject 100 "CheckBlock() : hashMerkleRoot mismatch")

def CheckBlock (ctx : Context) (env : Env) (block : CBlock)
    (fCheckPOW fCheckMerkleRoot fCheckSig : Bool) : NodeM Unit := do
  Action.reading fun s => checkForm ctx env s block fCheckPOW
  -- The proof-of-stake branch asks for the initial download before anything else does.
  Action.modify fun s => if block.IsProofOfStake then s.afterDownloadCheck ctx env else s
  Action.reading fun s => do
    checkDevops ctx env s block
    ensure (¬(fCheckSig ∧ ¬ctx.checkBlockSignature block))
      (.reject 100 "CheckBlock() : bad proof-of-stake block signature")
    checkLocks ctx env s block
  Action.modify fun s => s.afterDownloadCheck ctx env
  Action.reading fun s => do
    checkFloatingcityPayment ctx env s block
    checkTransactions ctx s block fCheckMerkleRoot

end ZalemCoin.Chain
