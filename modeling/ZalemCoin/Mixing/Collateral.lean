import ZalemCoin.Chain.Admission
import ZalemCoin.InstantX.Locks
import ZalemCoin.Script.Spendable
import ZalemCoin.Script.StandardTransactions

/-!
# The collateral of a mix

A client pays with a transaction that the masternode may send to the network when the client does not
behave. `IsCollateralValid` is what the masternode asks of it before a session: it counts the values
itself, and then asks whether the transaction could enter the memory pool. Scripts are not verified
then, and neither is whether the pool would have the transaction as a standard one.
-/

namespace ZalemCoin.Mixing

open Chain Script InstantX Lib

variable {Key : Type} {lib : SignatureLibrary Key}

/-- The value that an input of a collateral counts for: that of the output that it spends, nothing when
there is no such output, and none when the transaction of the output is not found. -/
def countedValue (ctx : Context) (s : NodeState) (blocks : List UInt256) (i : CTxIn) : Option ℤ :=
  (GetTransaction ctx s blocks i.prevout.hash).map fun tx2 =>
    ((tx2.1.vout[i.prevout.n.toNat]?).map CTxOut.nValue).getD 0

def IsCollateralValid (ctx : Context) (env : Env) (s : NodeState) (blocks : List UInt256)
    (txCollateral : CTransaction) : Except Failure Bool :=
  let nValueOut := txCollateral.vout.foldl (fun n o => wrap64 (n + o.nValue)) 0
  let nValueIn := txCollateral.vin.foldl
    (fun n i => wrap64 (n + (countedValue ctx s blocks i).getD 0)) 0
  let missingTx := txCollateral.vin.any fun i => (countedValue ctx s blocks i).isNone
  if txCollateral.vout.length < 1 then .ok false
  else if txCollateral.nLockTime ≠ 0 then .ok false
  else if txCollateral.vout.any fun o => !IsNormalPaymentScript o.scriptPubKey then .ok false
  else if missingTx then .ok false
  else if wrap64 (nValueIn - nValueOut) < MNengine_COLLATERAL then .ok false
  else
    match AcceptableInputs ctx env s txCollateral true false false with
    | .ok () => .ok true
    | .error (.reject _ _) => .ok false
    | .error (.crash msg) => .error (.crash msg)

/-- A transaction that the pool and the transaction index both have under a hash is the same one. -/
def OneByHash (ctx : Context) (s : NodeState) : Prop :=
  ∀ hash tx txindex tx', s.mempool.mapTx.lookup hash = some tx →
    s.txdb.ReadTxIndex hash = some txindex → readTxAt ctx txindex.pos = some tx' → tx = tx'

section

variable {ctx : Context} {env : Env} {s : NodeState} {blocks : List UInt256} {tx : CTransaction}

theorem isCollateralValid_eq_true (h : IsCollateralValid ctx env s blocks tx = .ok true) :
    MNengine_COLLATERAL ≤ wrap64 (wrap64 (tx.vin.map fun i =>
        (countedValue ctx s blocks i).getD 0).sum - wrap64 tx.valueOut) ∧
      AcceptableInputs ctx env s tx true false false = .ok () := by
  unfold IsCollateralValid at h
  simp only [foldl_wrap64] at h
  split_ifs at h with hvout hlock hscripts hmiss hfee
  · simp at h
  · simp at h
  · simp at h
  · simp at h
  · simp at h
  · refine ⟨not_lt.mp hfee, ?_⟩
    split at h
    · assumption
    · simp at h
    · simp at h

theorem getTransaction_of_fetchPrev (hone : OneByHash ctx s) (blocks : List UInt256) {hash : UInt256}
    {prev : CTxIndex × CTransaction} (h : fetchPrev ctx s ∅ ⟨false, false⟩ hash = .ok prev) :
    ∃ hashBlock, GetTransaction ctx s blocks hash = some (prev.2, hashBlock) := by
  unfold GetTransaction
  unfold fetchPrev prevIndex at h
  rw [if_neg (by simp)] at h
  rcases hidx : s.txdb.ReadTxIndex hash with _ | txindex
  · rw [hidx] at h
    rw [if_neg (by simp)] at h
    rcases hpool : s.mempool.mapTx.lookup hash with _ | txPrev
    · rw [hpool] at h
      simp at h
    · rw [hpool] at h
      cases h
      exact ⟨0, rfl⟩
  · rw [hidx] at h
    dsimp only at h
    rcases hpool : s.mempool.mapTx.lookup hash with _ | txPool
    · rw [hpool] at h
      split_ifs at h
      · rcases hread : readTxAt ctx txindex.pos with _ | txPrev
        · rw [hread] at h
          simp at h
        · rw [hread] at h
          cases h
          exact ⟨((ctx.files.block txindex.pos.nFile txindex.pos.nBlockPos).map ctx.GetHash).getD 0, by
            dsimp only
            rw [hread]⟩
    · rw [hpool] at h
      split_ifs at h
      · cases h
        exact ⟨0, rfl⟩
      · rcases hread : readTxAt ctx txindex.pos with _ | txPrev
        · rw [hread] at h
          simp at h
        · -- the pool has it as well
          rw [hread] at h
          cases h
          exact ⟨0, by rw [hone hash txPool txindex txPrev hpool hidx hread]⟩

theorem collateral_le_feeOf (hone : OneByHash ctx s)
    (h : IsCollateralValid ctx env s blocks tx = .ok true) :
    MNengine_COLLATERAL ≤ feeOf ctx s tx := by
  obtain ⟨hfee, hacceptable⟩ := isCollateralValid_eq_true h
  obtain ⟨inputs, nP2SH, nValueIn, nValueOut, hacc⟩ := acceptableInputs_eq_ok hacceptable
  obtain ⟨hprev, hins⟩ := fetchInputs_eq_ok hacc.noCoinBase hacc.fetched
  have hcounted : (tx.vin.map fun i => (countedValue ctx s blocks i).getD 0)
      = tx.vin.map fun txin => prevValue ctx s tx txin.prevout := by
    apply List.map_congr_left
    intro txin htxin
    obtain ⟨prev, txout, hlook, hout⟩ := hins txin htxin
    obtain ⟨hashBlock, hfound⟩ := getTransaction_of_fetchPrev hone blocks (hprev _ _ hlook)
    unfold countedValue prevValue
    rw [hfound, ← prevTxs_of_fetchInputs hacc.noCoinBase hacc.fetched]
    dsimp only
    rw [hlook]
    rfl
  obtain ⟨-, hin, hout⟩ := hacc.fee_eq
  rw [hcounted, wrap64_of_moneyRange hin, wrap64_of_moneyRange hout,
    wrap64_sub_of_moneyRange hin hout] at hfee
  have hnd := (checkTransaction_eq_ok hacc.checked).2.1
  have hfeeOf : feeOf ctx s tx
      = (tx.vin.map fun txin => prevValue ctx s tx txin.prevout).sum - tx.valueOut := by
    unfold feeOf
    rw [hnd.dedup, List.map_map]
    rfl
  exact hfeeOf ▸ hfee

end

/-! ## Charging -/

/-- When a valid collateral can be charged: it is standard, as are its inputs, it spends from
transactions of blocks, its scripts are satisfied, and where high fees are refused it pays no more than
it has to. -/
structure Chargeable (lib : SignatureLibrary Key) (ctx : Context) (env : Env) (s : NodeState)
    (tx : CTransaction) (fRejectInsaneFee : Bool) : Prop where
  standard : ctx.network = .testnet ∨ IsStandardTx env s tx = .ok ()
  confirmed : ∀ txin ∈ tx.vin, s.txdb.ContainsTx txin.prevout.hash = true
  inputsStandard : ctx.network = .testnet ∨ AreInputsStandard lib tx (prevTxs ctx s tx) = true
  signed : ∀ i txin txPrev, tx.vin[i]? = some txin → prevTxs ctx s tx txin.prevout.hash = some txPrev →
    VerifySignature lib txPrev tx i STANDARD_SCRIPT_VERIFY_FLAGS 0 = true ∧
      VerifySignature lib txPrev tx i MANDATORY_SCRIPT_VERIFY_FLAGS 0 = true
  exact : fRejectInsaneFee = true → feeOf ctx s tx ≤ MNengine_COLLATERAL

theorem isStandardTx_withScripts {ctx : Context} {env : Env} {s : NodeState} {tx : CTransaction} :
    (withScripts lib ctx env s).isStandardTx tx = true ↔ IsStandardTx env s tx = .ok () := by
  have hdef : (withScripts lib ctx env s).isStandardTx tx = (IsStandardTx env s tx).isOk := rfl
  rw [hdef]
  rcases IsStandardTx env s tx with reason | ⟨⟩
  · exact iff_of_false (by simp [Except.isOk, Except.toBool]) (by simp)
  · exact iff_of_true rfl rfl

/-- A valid collateral is charged, with a fee that is high enough, exactly when it can be: none of this
is part of the check of a collateral. -/
theorem collateral_charged_iff (lib : SignatureLibrary Key) {ctx : Context} {env : Env} {s : NodeState}
    {blocks : List UInt256} {tx : CTransaction} (fRejectInsaneFee : Bool) (hone : OneByHash ctx s)
    (hvalid : IsCollateralValid (withScripts lib ctx env s) env s blocks tx = .ok true) :
    ((AcceptToMemoryPool (withScripts lib ctx env s) env tx true fRejectInsaneFee false s).1 = .ok () ∧
        MNengine_COLLATERAL ≤ feeOf ctx s tx) ↔
      Chargeable lib ctx env s tx fRejectInsaneFee := by
  have hfee : MNengine_COLLATERAL ≤ feeOf ctx s tx :=
    @collateral_le_feeOf (withScripts lib ctx env s) env s blocks tx hone hvalid
  have hmost : MIN_RELAY_TX_FEE * 10000 = MNengine_COLLATERAL := rfl
  rw [admitted_iff (isCollateralValid_eq_true hvalid).2]
  constructor
  · rintro ⟨h, -⟩
    exact
      { standard := h.standard.imp_right isStandardTx_withScripts.mp
        confirmed := h.confirmed
        inputsStandard := h.inputsStandard
        signed := fun i txin txPrev htxin hprev =>
          ⟨h.signed i txin txPrev htxin hprev, h.signedMandatory i txin txPrev htxin hprev⟩
        exact := fun hinsane => hmost ▸ h.sane hinsane }
  · intro h
    refine ⟨?_, hfee⟩
    exact
      { standard := h.standard.imp_right isStandardTx_withScripts.mpr
        confirmed := h.confirmed
        inputsStandard := h.inputsStandard
        sane := fun hinsane => hmost ▸ h.exact hinsane
        signed := fun i txin txPrev htxin hprev => (h.signed i txin txPrev htxin hprev).1
        signedMandatory := fun i txin txPrev htxin hprev => (h.signed i txin txPrev htxin hprev).2 }

def collateralBlock : CBlock :=
  plainBlock 1 0 0 [plainTx 10 [coinbaseInput] [payTo 0],
    plainTx 11 [inputOf 5 0] [payTo (50 * COIN), ⟨50 * COIN, plainScript⟩]]

def collateralContext : Context :=
  plainContext (BlockFiles.ofBlocks
    (fun nFile => if nFile = 1 then some collateralBlock else none)
    (by
      intro nFile block h
      split at h
      · cases h
        decide
      · simp at h)) 1 true

def collateralNode : NodeState :=
  { emptyNode with
    mapBlockIndex := Function.update (fun _ => none) 1 (some (plainIndex 1 0 none collateralBlock))
    pindexGenesisBlock := some 1
    pindexBest := some 1
    hashBestChain := 1
    nBestHeight := 0
    txdb := ⟨Function.update (fun _ => none) (.tx 11)
      (some (CTxIndex.new (CDiskTxPos.of 1 8 (txPosition 8 collateralBlock.vtx 1)) 2)), some []⟩ }

def collateralScheme : SignatureLibrary Unit :=
  { plainScheme with GetHash := collateralContext.hashTx }

def normalScript : CScript :=
  [OP_DUP, OP_HASH160, 0x14] ++ List.replicate 20 7 ++ [OP_EQUALVERIFY, OP_CHECKSIG]

def unsignedCollateral (n : UInt32) : CTransaction :=
  plainTx 0 [inputOf 11 n] [⟨49 * COIN, normalScript⟩]

theorem collateralNode_oneByHash : OneByHash collateralContext collateralNode := by
  intro hash tx txindex tx' hpool
  simp [collateralNode, emptyNode] at hpool

theorem unsignedCollateral_valid {n : UInt32} (hn : n = 0 ∨ n = 1) :
    IsCollateralValid (withScripts collateralScheme collateralContext (plainEnv 2000) collateralNode)
      (plainEnv 2000) collateralNode [1] (unsignedCollateral n) = .ok true := by
  rcases hn with rfl | rfl
  · rfl
  · rfl

/-- The collateral that spends the output for anybody can be charged. -/
theorem anybodys_collateral_chargeable : Chargeable collateralScheme collateralContext (plainEnv 2000)
    collateralNode (unsignedCollateral 0) true :=
  (collateral_charged_iff collateralScheme true collateralNode_oneByHash
    (unsignedCollateral_valid (Or.inl rfl))).mp ⟨rfl, by decide⟩

/-- The one that spends the output of the holder of a key is valid, and cannot be charged. -/
theorem unsigned_collateral_refused :
    let ctx := withScripts collateralScheme collateralContext (plainEnv 2000) collateralNode
    IsCollateralValid ctx (plainEnv 2000) collateralNode [1] (unsignedCollateral 1) = .ok true ∧
      (AcceptToMemoryPool ctx (plainEnv 2000) (unsignedCollateral 1) true false false
        collateralNode).1 ≠ .ok () := by
  have hrefused : (AcceptToMemoryPool
      (withScripts collateralScheme collateralContext (plainEnv 2000) collateralNode) (plainEnv 2000)
      (unsignedCollateral 1) true false false collateralNode).1
        = .error (.reject 100 "ConnectInputs() : VerifySignature failed") := by
    rfl
  exact ⟨rfl, by rw [hrefused]; simp⟩

end ZalemCoin.Mixing
