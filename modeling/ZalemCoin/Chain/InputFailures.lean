import ZalemCoin.Chain.Mempool

/-!
# How checking inputs fails

Fetching, counting and connecting the inputs of a transaction fail with a fixed list of texts, so
their failures cannot be mistaken for those of their callers.
-/

namespace ZalemCoin.Chain

open Lib
open FailsWith (foldlM)

def Failure.text : Failure → String
  | .reject _ msg => msg
  | .crash msg => msg

/-- What fetching, counting and connecting inputs report. -/
def inputTexts : List String :=
  ["null pointer",
    "CTransaction::GetValueOut() : value out of range",
    "CTransaction::GetOutputFor()",
    "inputs.count(prevout.hash) > 0",
    "IsConfirmedInNPrevBlocks does not return",
    "FetchInputs() : mempool Tx prev not found",
    "FetchInputs() : ReadFromDisk prev tx failed",
    "FetchInputs() : prev tx index entry not found",
    "FetchInputs() : prevout.n out of range",
    "ConnectInputs() : prevout.n out of range",
    "ConnectInputs() : tried to spend coinbase or coinstake at depth",
    "ConnectInputs() : transaction timestamp earlier than input transaction",
    "ConnectInputs() : special marker is not spendable",
    "ConnectInputs() : txin values out of range",
    "ConnectInputs() : prev tx already used",
    "ConnectInputs() : non-mandatory VerifySignature failed",
    "ConnectInputs() : VerifySignature failed",
    "ConnectInputs() : value in < value out",
    "ConnectInputs() : nFees out of range"]

def InputFailure (e : Failure) : Prop := e.text ∈ inputTexts

variable {ctx : Context} {env : Env} {s : NodeState} {tx : CTransaction} {inputs : MapPrevTx}

theorem failsAsInputs_index {p : Option UInt256} : FailsWith InputFailure (s.index p) := by
  unfold NodeState.index
  split
  · exact FailsWith.ok _
  · exact FailsWith.error (by simp [InputFailure, Failure.text, inputTexts])

theorem failsAsInputs_getValueOut : FailsWith InputFailure tx.GetValueOut := by
  apply foldlM
  intro nValueOut txout
  refine FailsWith.bind (FailsWith.ensure ?_) fun _ => ?_
  · simp [InputFailure, Failure.text, inputTexts]
  exact FailsWith.pure _

variable {txin : CTxIn} {msg : String} {queue : TestPool} {mode : CheckMode} {txindex : CTxIndex}
  {i : Option CBlockIndex} {n : ℤ} {pos : CDiskTxPos} {flags : UInt32}

theorem failsAsInputs_getOutputFor : FailsWith InputFailure (GetOutputFor inputs txin) := by
  unfold GetOutputFor
  split
  · exact FailsWith.ok _
  · exact FailsWith.error (by simp [InputFailure, Failure.text, inputTexts])

theorem failsAsInputs_getValueIn : FailsWith InputFailure (GetValueIn inputs tx) := by
  refine FailsWith.ite (FailsWith.ok _) ?_
  apply foldlM
  intro nResult txin
  exact failsAsInputs_getOutputFor.bind fun _ => FailsWith.pure _

theorem failsAsInputs_getP2SHSigOpCount : FailsWith InputFailure (GetP2SHSigOpCount inputs tx) := by
  refine FailsWith.ite (FailsWith.ok _) ?_
  apply foldlM
  intro nSigOps txin
  exact failsAsInputs_getOutputFor.bind fun _ => FailsWith.pure _

theorem failsAsInputs_checkPrevout (hmsg : msg ∈ inputTexts) :
    FailsWith InputFailure (checkPrevout inputs msg txin) := by
  unfold checkPrevout
  split
  · exact FailsWith.error (by simp [InputFailure, Failure.text, inputTexts])
  · exact FailsWith.ensure hmsg

theorem failsAsInputs_fetchInputs : FailsWith InputFailure (FetchInputs ctx s queue mode tx) := by
  have hprev : ∀ hash, FailsWith InputFailure (fetchPrev ctx s queue mode hash) := by
    intro hash
    unfold fetchPrev
    repeat' split
    all_goals first
      | exact FailsWith.ok _
      | exact FailsWith.error (by simp [InputFailure, Failure.text, inputTexts])
  have hinput : ∀ inputs txin,
      FailsWith InputFailure (fetchInput ctx s queue mode inputs txin) := by
    intro inputs txin
    unfold fetchInput
    split
    · exact FailsWith.ok _
    · exact (hprev _).bind fun _ => FailsWith.pure _
  refine FailsWith.ite (FailsWith.ok _) ?_
  apply (foldlM hinput _ _).bind
  intro inputs
  apply FailsWith.bind
  · exact FailsWith.forM (fun _ => failsAsInputs_checkPrevout (by simp [inputTexts])) _
  · exact fun _ => FailsWith.pure _

theorem failsAsInputs_confirmedLoop {n m fuel : ℕ} {p : Option UInt256} :
    FailsWith InputFailure (confirmedLoop s txindex n m fuel p) := by
  induction fuel generalizing p with
  | zero =>
    rcases p with _ | p
    · exact FailsWith.ok _
    · exact FailsWith.error (by simp [InputFailure, Failure.text, inputTexts])
  | succ fuel ih =>
    rcases p with _ | p
    · exact FailsWith.ok _
    · apply failsAsInputs_index.bind
      intro i
      exact FailsWith.ite (FailsWith.ite (FailsWith.pure _) ih) (FailsWith.pure _)

theorem failsAsInputs_checkMaturity {txPrev : CTransaction} :
    FailsWith InputFailure (checkMaturity s txindex txPrev i) := by
  have hconfirmed :
      FailsWith InputFailure (IsConfirmedInNPrevBlocks s txindex i nCoinbaseMaturity) := by
    unfold IsConfirmedInNPrevBlocks
    split
    · exact FailsWith.ok _
    · exact FailsWith.ite (FailsWith.ite (FailsWith.ok _) failsAsInputs_confirmedLoop)
        (FailsWith.ok _)
  refine FailsWith.ite (hconfirmed.bind fun _ => ?_) (FailsWith.ok _)
  exact FailsWith.ensure (by simp [InputFailure, Failure.text, inputTexts])

theorem failsAsInputs_checkInput : FailsWith InputFailure (checkInput s tx inputs i n txin) := by
  apply (failsAsInputs_checkPrevout (by simp [inputTexts])).bind
  intro _
  split
  · exact FailsWith.error (by simp [InputFailure, Failure.text, inputTexts])
  · apply failsAsInputs_checkMaturity.bind
    intro _
    refine FailsWith.bind (FailsWith.ensure ?_) fun _ => ?_
    · simp [InputFailure, Failure.text, inputTexts]
    apply failsAsInputs_getOutputFor.bind
    intro _
    refine FailsWith.bind (FailsWith.ensure ?_) fun _ => ?_
    · simp [InputFailure, Failure.text, inputTexts]
    refine FailsWith.bind (FailsWith.ensure ?_) fun _ => ?_
    · simp [InputFailure, Failure.text, inputTexts]
    exact FailsWith.pure _

theorem failsAsInputs_spendInput {download : Bool} {acc : SpendState} {input : CTxIn × ℕ} :
    FailsWith InputFailure (spendInput ctx tx pos mode download flags acc input) := by
  have hscr : ∀ txPrev i,
      FailsWith InputFailure (checkScript ctx txPrev tx i mode download flags) := by
    intro txPrev i
    unfold checkScript verifyInput
    repeat' split
    all_goals first
      | exact FailsWith.ok _
      | exact FailsWith.error (by simp [InputFailure, Failure.text, inputTexts])
  unfold spendInput
  dsimp only
  split
  · exact FailsWith.error (by simp [InputFailure, Failure.text, inputTexts])
  · refine FailsWith.bind (FailsWith.ensure ?_) fun _ => ?_
    · simp [InputFailure, Failure.text, inputTexts]
    exact (hscr _ _).bind fun _ => FailsWith.pure _

theorem failsAsInputs_checkFees : FailsWith InputFailure (checkFees tx n) := by
  refine FailsWith.ite (FailsWith.ok _) ?_
  apply failsAsInputs_getValueOut.bind
  intro _
  refine FailsWith.bind (FailsWith.ensure ?_) fun _ => ?_
  · simp [InputFailure, Failure.text, inputTexts]
  exact FailsWith.ensure (by simp [InputFailure, Failure.text, inputTexts])

theorem failsAsInputs_connectInputs :
    FailsWith InputFailure (ConnectInputs ctx env s tx inputs queue pos i mode flags) := by
  refine FailsWith.ite (FailsWith.ok _) ?_
  apply (foldlM (fun _ _ => failsAsInputs_checkInput) _ _).bind
  intro n
  apply (foldlM (fun _ _ => failsAsInputs_spendInput) _ _).bind
  intro acc
  exact failsAsInputs_checkFees.bind fun _ => FailsWith.pure _

/-! ## Checks that refuse -/

def Failure.Refuses (e : Failure) : Prop := ∃ nDoS msg, e = .reject nDoS msg

theorem refuses_ensure {c : Prop} [Decidable c] {nDoS : ℕ} :
    FailsWith Failure.Refuses (ensure c (.reject nDoS msg)) := FailsWith.ensure ⟨nDoS, msg, rfl⟩

theorem refuses_checkOutput {nValueOut : ℤ} {txout : CTxOut} :
    FailsWith Failure.Refuses (checkOutput tx nValueOut txout) := by
  repeat' refine FailsWith.bind refuses_ensure fun _ => ?_
  exact FailsWith.pure _

theorem refuses_checkTransaction {MAX_BLOCK_SIZE : ℕ} :
    FailsWith Failure.Refuses (CheckTransaction MAX_BLOCK_SIZE tx) := by
  refine FailsWith.bind refuses_ensure fun _ => ?_
  refine FailsWith.bind refuses_ensure fun _ => ?_
  refine FailsWith.bind refuses_ensure fun _ => ?_
  refine FailsWith.bind (foldlM (fun _ _ => refuses_checkOutput) _ _) fun _ => ?_
  refine FailsWith.bind refuses_ensure fun _ => ?_
  exact FailsWith.ite refuses_ensure refuses_ensure

theorem refuses_checkLoose : FailsWith Failure.Refuses (checkLoose ctx s tx) := by
  refine FailsWith.bind refuses_checkTransaction fun _ => ?_
  repeat' refine FailsWith.bind refuses_ensure fun _ => ?_
  exact refuses_ensure

theorem refuses_checkRelayFees {nFees : ℤ} {fLimitFree fRejectInsaneFee : Bool} :
    FailsWith Failure.Refuses (checkRelayFees ctx env tx nFees fLimitFree fRejectInsaneFee) := by
  refine FailsWith.ite (FailsWith.ok _) ?_
  exact FailsWith.bind refuses_ensure fun _ => refuses_ensure

end ZalemCoin.Chain
