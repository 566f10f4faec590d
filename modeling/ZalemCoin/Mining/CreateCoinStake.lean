import ZalemCoin.Mining.CreateNewBlock
import ZalemCoin.Wallet.Crypter

/-!
# Coinstakes

`CreateCoinStake` looks for a coin of the wallet that meets the target, adds further coins of the same
key, and pays the value of the coins and the reward of the block: to the key of the coin, in one or two
outputs, and behind them to a masternode and to the developers, as far as these payments are active by
the clock of the node. The outputs are added without amounts, and found again by their positions.
-/

namespace ZalemCoin.Mining

open Lib Chain Script Wallet

def START_FLOATINGCITY_PAYMENTS_TESTNET : ℤ := 9993058800
def STOP_FLOATINGCITY_PAYMENTS_TESTNET : ℤ := 9993058800
def STOP_FLOATINGCITY_PAYMENTS : ℤ := 9993058800

/-- The largest number of seconds that a search for a kernel goes back. -/
def nMaxStakeSearchInterval : ℤ := 60

/-- The age from which on a coin can be added to a coinstake. -/
def nStakeMinAge : ℤ := 2 / 60

/-- An output of a transaction of the wallet. -/
structure COutput where
  tx : CTransaction
  i : UInt32
  fSpendable : Bool

namespace COutput

def nValue (coin : COutput) : ℤ := ((coin.tx.vout[coin.i.toNat]?).map CTxOut.nValue).getD 0

def scriptPubKey (coin : COutput) : CScript :=
  ((coin.tx.vout[coin.i.toNat]?).map CTxOut.scriptPubKey).getD []

end COutput

/-- What a wallet stakes with. -/
structure Staker where
  keys : KeyContext
  keystore : CCryptoKeyStore
  nBalance : ℤ
  nReserveBalance : ℤ
  /-- The argument `-stakethreshold`. -/
  stakethreshold : ℤ
  AvailableCoinsForStaking : List COutput
  /-- The address at which the wallet has a transaction, by which coins are ordered. -/
  address : UInt256 → ℕ
  /-- The script that `SignSignature` gives to an input. -/
  SignSignature : CTransaction → CTransaction → ℕ → Option CScript
  /-- The script that pays to the masternode that `GetCurrentFloatingCity` returns. -/
  currentFloatingCity : Option CScript

namespace Staker

def GetStakeCombineThreshold (st : Staker) : ℤ := wrap64 (st.stakethreshold * COIN)

def GetStakeSplitThreshold (st : Staker) : ℤ := wrap64 (2 * st.GetStakeCombineThreshold)

end Staker

/-! ## The kernel -/

/-- The coins that are chosen one after the other until they are worth enough. -/
def selectCoins (nTargetValue : ℤ) : ℤ → List COutput → List COutput
  | _, [] => []
  | nValueRet, output :: vCoins =>
    if output.fSpendable = false then selectCoins nTargetValue nValueRet vCoins
    else if nTargetValue ≤ nValueRet then []
    else if nTargetValue ≤ output.nValue then [output]
    else if output.nValue < nTargetValue + CENT then
      output :: selectCoins nTargetValue (wrap64 (nValueRet + output.nValue)) vCoins
    else selectCoins nTargetValue nValueRet vCoins

variable (ctx : Context)

/-- The coins that are worth enough together, in the order of a set of pointers. -/
def SelectCoinsForStaking (st : Staker) (nTargetValue : ℤ) : List COutput :=
  (selectCoins nTargetValue 0 st.AvailableCoinsForStaking).insertionSort fun a b =>
    st.address (ctx.hashTx a.tx) < st.address (ctx.hashTx b.tx) ∨
      (st.address (ctx.hashTx a.tx) = st.address (ctx.hashTx b.tx) ∧ a.i ≤ b.i)

def CheckKernel (s : NodeState) (pindexPrev : CBlockIndex) (nBits nTime : UInt32)
    (prevout : COutPoint) : Except Failure Bool := do
  let some txindex := s.txdb.ReadTxIndex prevout.hash | pure false
  let some txPrev := readTxAt ctx txindex.pos | pure false
  let some txout := txPrev.vout[prevout.n.toNat]? | pure false
  if (ctx.files.block txindex.pos.nFile txindex.pos.nBlockPos).isSome then do
    let confirmed ←
      IsConfirmedInNPrevBlocks s txindex (some pindexPrev) (nStakeMinConfirmations - 1)
    if confirmed then pure false
    else pure (CheckStakeKernelHash ctx pindexPrev nBits txPrev txout prevout nTime).isSome
  else pure false

def kernelKey (st : Staker) (scriptPubKeyKernel : CScript) : Option (CKey × CScript) :=
  match Solver scriptPubKeyKernel with
  | some (.TX_PUBKEYHASH, vch :: _) =>
    (st.keystore.GetKey st.keys (uint160 vch)).map fun key =>
      let pubkey := (key.GetPubKey st.keys).vch
      (key, UInt8.ofNat pubkey.length :: pubkey ++ [OP_CHECKSIG])
  | some (.TX_PUBKEY, vchPubKey :: _) =>
    (st.keystore.GetKey st.keys (st.keys.Hash160 vchPubKey)).bind fun key =>
      if key.GetPubKey st.keys ≠ CPubKey.ofBytes vchPubKey then none
      else some (key, scriptPubKeyKernel)
  | _ => none

/-- A kernel: the coin, the time at which it meets the target, its key, and the script to which it is
paid. -/
structure Kernel where
  coin : COutput
  nTime : UInt32
  key : CKey
  scriptPubKeyOut : CScript

def COutput.prevout (coin : COutput) : COutPoint := ⟨ctx.hashTx coin.tx, coin.i⟩

/-- The search for a kernel in one coin, backwards in time. It ends when the key of the coin cannot be
used. -/
def searchCoin (ctx : Context) (st : Staker) (s : NodeState) (pindexPrev : CBlockIndex)
    (nBits nTime : UInt32) (coin : COutput) : List ℕ → Except Failure (Option Kernel)
  | [] => .ok none
  | n :: ns => do
    let nTimeTx := nTime - UInt32.ofNat n
    if ← CheckKernel ctx s pindexPrev nBits nTimeTx (coin.prevout ctx) then
      pure ((kernelKey st coin.scriptPubKey).map fun found => ⟨coin, nTimeTx, found.1, found.2⟩)
    else searchCoin ctx st s pindexPrev nBits nTime coin ns

def searchKernel (ctx : Context) (st : Staker) (s : NodeState) (pindexPrev : CBlockIndex)
    (nBits nTime : UInt32) (nSearchInterval : ℤ) : List COutput → Except Failure (Option Kernel)
  | [] => .ok none
  | coin :: coins => do
    match ← searchCoin ctx st s pindexPrev nBits nTime coin
        (List.range (min nSearchInterval nMaxStakeSearchInterval).toNat) with
    | some kernel => pure (some kernel)
    | none => searchKernel ctx st s pindexPrev nBits nTime nSearchInterval coins

/-! ## The inputs -/

/-- The coins of a coinstake, and what they are worth. -/
structure Stake where
  coins : List COutput
  nCredit : ℤ

def Kernel.split (kernel : Kernel) (st : Staker) : Bool :=
  decide (st.GetStakeSplitThreshold < kernel.coin.nValue)

/-- Adds further coins of the same key to a stake that is not split. -/
def combineCoins (ctx : Context) (st : Staker) (kernel : Kernel) : List COutput → Stake → Stake
  | [], stake => stake
  | coin :: coins, stake =>
    if kernel.split st = false ∧ (coin.scriptPubKey = kernel.coin.scriptPubKey ∨
        coin.scriptPubKey = kernel.scriptPubKeyOut) ∧
        ctx.hashTx coin.tx ≠ ctx.hashTx kernel.coin.tx then
      let nTimeWeight : ℤ := kernel.nTime.toNat - coin.tx.nTime.toNat - nStakeMinAge
      if 100 ≤ stake.coins.length then stake
      else if st.GetStakeCombineThreshold ≤ stake.nCredit then stake
      else if st.nBalance - st.nReserveBalance < wrap64 (stake.nCredit + coin.nValue) then stake
      else if st.GetStakeCombineThreshold ≤ coin.nValue then combineCoins ctx st kernel coins stake
      else if nTimeWeight < nStakeMinAge then combineCoins ctx st kernel coins stake
      else
        combineCoins ctx st kernel coins
          ⟨stake.coins ++ [coin], wrap64 (stake.nCredit + coin.nValue)⟩
    else combineCoins ctx st kernel coins stake

/-! ## The outputs -/

def floatingcityPaymentsActive (env : Env) : Bool :=
  if ctx.network = .testnet then
    decide (env.time > START_FLOATINGCITY_PAYMENTS_TESTNET) &&
      !decide (env.time > STOP_FLOATINGCITY_PAYMENTS_TESTNET)
  else
    decide (env.time > START_FLOATINGCITY_PAYMENTS) && !decide (env.time > STOP_FLOATINGCITY_PAYMENTS)

/-- The payee of the payment to a masternode, and none within when there is no payment. There is no
result when no masternode is found. -/
def floatingcityPayee (env : Env) (st : Staker) (nHeight : ℕ) :
    Option (Option CScript) :=
  if floatingcityPaymentsActive ctx env then
    match env.blockPayee nHeight with
    | some payee => some (some payee)
    | none => st.currentFloatingCity.map some
  else some none

/-- The payee of the payment to the developers, and none within when there is no payment. There is no
result away from the main network, which alone has an address. -/
def devopsPayee (env : Env) (best : CBlockIndex) : Option (Option CScript) :=
  if devopsPaymentsActive ctx env then
    if ctx.network = .main then
      some (if best.GetBlockTime > 1546123500 then some ctx.devopsScript else none)
    else none
  else some none

def setValue (vout : List CTxOut) (i : ℕ) (nValue : ℤ) : List CTxOut :=
  vout.modify i fun txout => { txout with nValue := nValue }

/-- Sets the amounts of a split stake: one half in whole cents, and the rest. -/
def setSplit (vout : List CTxOut) (blockValue : ℤ) : List CTxOut :=
  let half := (blockValue.tdiv 2).tdiv CENT * CENT
  setValue (setValue vout 1 half) 2 (wrap64 (blockValue - half))

/-- Sets the amounts of the outputs. `payments` and `devoppay` are the numbers of outputs after those
to a masternode and to the developers have been added. -/
def setAmounts (hasPayment hasdevopsPay : Bool) (payments devoppay : ℕ) (vout : List CTxOut)
    (blockValue floatingcityPayment devopsPayment : ℤ) : List CTxOut :=
  match hasPayment, hasdevopsPay with
  | false, false =>
    if vout.length = 3 then setSplit vout blockValue
    else if vout.length = 2 then setValue vout 1 blockValue
    else vout
  | true, false =>
    let paid := setValue vout (payments - 1) floatingcityPayment
    if vout.length = 4 then setSplit paid (wrap64 (blockValue - floatingcityPayment))
    else if vout.length = 3 then setValue paid 1 (wrap64 (blockValue - floatingcityPayment))
    else vout
  | false, true =>
    let paid := setValue vout (devoppay - 1) devopsPayment
    if vout.length = 4 then setSplit paid (wrap64 (blockValue - devopsPayment))
    else if vout.length = 3 then setValue paid 1 (wrap64 (blockValue - devopsPayment))
    else vout
  | true, true =>
    let paid := setValue (setValue vout (payments - 1) floatingcityPayment) (devoppay - 1) devopsPayment
    let blockValue := wrap64 (wrap64 (blockValue - floatingcityPayment) - devopsPayment)
    if vout.length = 5 then setSplit paid blockValue
    else if vout.length = 4 then setValue paid 1 blockValue
    else vout

def addPayee (vout : List CTxOut) (payee : Option CScript) : List CTxOut :=
  vout ++ (payee.map fun script => (⟨0, script⟩ : CTxOut)).toList

/-- The outputs of a coinstake, from those to the key of its kernel. -/
def stakeOutputs (vout : List CTxOut) (payee devpayee : Option CScript)
    (blockValue floatingcityPayment devopsPayment : ℤ) : List CTxOut :=
  let payments := (addPayee vout payee).length
  let devoppay := (addPayee (addPayee vout payee) devpayee).length
  setAmounts payee.isSome devpayee.isSome payments devoppay (addPayee (addPayee vout payee) devpayee)
    blockValue floatingcityPayment devopsPayment

/-! ## The coinstake -/

def setScriptSig (tx : CTransaction) (nIn : ℕ) (scriptSig : CScript) : CTransaction :=
  { tx with vin := tx.vin.modify nIn fun txin => { txin with scriptSig := scriptSig } }

def signInputs (SignSignature : CTransaction → CTransaction → ℕ → Option CScript) :
    List CTransaction → ℕ → CTransaction → Option CTransaction
  | [], _, tx => some tx
  | pcoin :: vwtxPrev, nIn, tx => do
    let scriptSig ← SignSignature pcoin tx nIn
    signInputs SignSignature vwtxPrev (nIn + 1) (setScriptSig tx nIn scriptSig)

/-- A coinstake, the key of its block, and the reward that it has been paid. -/
structure CoinStake where
  tx : CTransaction
  key : CKey
  nPoSageReward : ℤ

/-- The inputs of a coinstake of a kernel, before they are signed. -/
def stakeInputs (stake : Stake) : List CTxIn :=
  stake.coins.map fun coin => ⟨coin.prevout ctx, [], 0xffffffff⟩

/-- The kernel of a coinstake and the coins that it spends. -/
def chooseStake (st : Staker) (s : NodeState) (pindexPrev : CBlockIndex)
    (nBits nTime : UInt32) (nSearchInterval : ℤ) : Except Failure (Option (Kernel × Stake)) :=
  if st.nBalance ≤ st.nReserveBalance then .ok none
  else do
    let setCoins := SelectCoinsForStaking ctx st (st.nBalance - st.nReserveBalance)
    let some kernel ← searchKernel ctx st s pindexPrev nBits nTime nSearchInterval setCoins | pure none
    if kernel.coin.nValue = 0 ∨ st.nBalance - st.nReserveBalance < kernel.coin.nValue then pure none
    else
      pure (some (kernel,
        combineCoins ctx st kernel setCoins ⟨[kernel.coin], kernel.coin.nValue⟩))

/-- The reward of a coinstake; none when it cannot be computed or is not positive. -/
def stakeReward (s : NodeState) (pindexPrev : CBlockIndex) (nFees : ℤ)
    (tx : CTransaction) : Except Failure (Option ℤ) := do
  let some nCoinAge ← GetCoinAge ctx s tx (some pindexPrev) | pure none
  let nReward ← GetProofOfStakeReward ctx s pindexPrev nCoinAge nFees
  pure (if nReward ≤ 0 then none else some nReward)

def stakeTx (st : Staker) (kernel : Kernel) (stake : Stake) : CTransaction where
  nVersion := 1
  nTime := kernel.nTime
  vin := stakeInputs ctx stake
  vout := ⟨0, []⟩ :: ⟨0, kernel.scriptPubKeyOut⟩ ::
    if kernel.split st then [⟨0, kernel.scriptPubKeyOut⟩] else []
  nLockTime := 0

def payStake (env : Env) (st : Staker) (pindexPrev : CBlockIndex) (kernel : Kernel)
    (stake : Stake) (nReward : ℤ) : Option CoinStake := do
  let payee ← floatingcityPayee ctx env st (pindexPrev.nHeight + 1)
  let devpayee ← devopsPayee ctx env pindexPrev
  let txNew := stakeTx ctx st kernel stake
  let vout := stakeOutputs txNew.vout payee devpayee (wrap64 (stake.nCredit + nReward))
    (GetFloatingcityPayment nReward) (GetDevOpsPayment nReward)
  let tx ← signInputs st.SignSignature (stake.coins.map COutput.tx) 0 { txNew with vout := vout }
  if MAX_BLOCK_SIZE_GEN / 5 ≤ tx.GetSerializeSize then none
  else some ⟨tx, kernel.key, nReward⟩

/-- Creates a coinstake for a block on the best one. -/
def CreateCoinStake (env : Env) (st : Staker) (s : NodeState) (nBits nTime : UInt32)
    (nSearchInterval nFees : ℤ) : Except Failure (Option CoinStake) := do
  let pindexPrev ← s.index s.pindexBest
  let some (kernel, stake) ← chooseStake ctx st s pindexPrev nBits nTime nSearchInterval | pure none
  let some nReward ← stakeReward ctx s pindexPrev nFees (stakeTx ctx st kernel stake) | pure none
  pure (payStake ctx env st pindexPrev kernel stake nReward)

end ZalemCoin.Mining
