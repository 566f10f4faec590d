import ZalemCoin.Chain.ConnectSpec
import ZalemCoin.Chain.PlainContext

/-!
# Which scripts a connected block has verified

`ConnectInputs` means to skip script verification for blocks before the last checkpoint, but its
condition skips it for every block that is connected after the initial download. A block that is
connected then has had none of its scripts verified.
-/

namespace ZalemCoin.Chain

open Lib

variable {ctx : Context} {tx : CTransaction} {env : Env} {s : NodeState}

theorem spendInput_sigLog {pos : CDiskTxPos} {flags : UInt32} {acc acc' : SpendState}
    {input : CTxIn × ℕ} (h : spendInput ctx tx pos .block false flags acc input = .ok acc') :
    acc'.sigLog = acc.sigLog := by
  unfold spendInput at h
  dsimp only at h
  split at h
  · simp at h
  · obtain ⟨⟨⟩, -, h⟩ := bind_ok h
    obtain ⟨checks, hchks, h⟩ := bind_ok h
    cases h
    cases hchks
    exact List.append_nil _

theorem connectInputs_sigLog {inputs : MapPrevTx} {queue : TestPool} {pos : CDiskTxPos}
    {pindex : Option CBlockIndex} {flags : UInt32} {r : TestPool × List SigCheck}
    (hdownload : IsInitialBlockDownload ctx env s = false)
    (h : ConnectInputs ctx env s tx inputs queue pos pindex .block flags = .ok r) : r.2 = [] := by
  unfold ConnectInputs at h
  rw [hdownload] at h
  split at h
  · cases h
    rfl
  · obtain ⟨nValueIn, -, h⟩ := bind_ok h
    obtain ⟨acc, hacc, h⟩ := bind_ok h
    obtain ⟨⟨⟩, -, h⟩ := bind_ok h
    cases h
    refine foldlM_ok_induction (fun _ acc => acc.sigLog = []) rfl ?_ hacc
    intro done input rest c c' _ hc hstep
    exact (spendInput_sigLog hstep).trans hc

theorem connectTransaction_sigLog {pindex : CBlockIndex} {fJustCheck : Bool} {acc acc' : ConnectAcc}
    (hdownload : IsInitialBlockDownload ctx env s = false)
    (h : connectTransaction ctx env s pindex fJustCheck acc tx = .ok acc') :
    acc'.sigLog = acc.sigLog := by
  obtain ⟨_, summed, rfl, ⟨-, hsum⟩ | ⟨-, hsum⟩, rfl⟩ := connectTransaction_cases h
  · unfold connectCoinBase at hsum
    obtain ⟨nTxValueOut, -, hsum⟩ := bind_ok hsum
    cases hsum
    rfl
  · obtain ⟨_, _, _, _, spent, -, -, -, -, hspent, rfl⟩ := connectSpending_eq_ok hsum
    have hnone : spent.2 = [] := connectInputs_sigLog hdownload hspent
    rw [hnone, List.append_nil]

theorem connectBlock_sigLog {block : CBlock} {pindex : UInt256} {s' : NodeState}
    {log : List SigCheck} (h : ConnectBlock ctx env block pindex false s = (.ok log, s'))
    (hdownload : IsInitialBlockDownload ctx env s = false) : log = [] := by
  obtain ⟨s₁, i, prevSupply, acc, hconn, rfl⟩ := connectBlock_eq_ok h
  have hdownload₁ := hconn.download.trans hdownload
  refine foldlM_ok_induction (fun _ acc => acc.sigLog = []) rfl ?_ hconn.transactions
  intro done tx rest c c' _ hc hstep
  exact (connectTransaction_sigLog hdownload₁ hstep).trans hc

/-- Every input of every transaction of a block other than the coinbase has had its script
verified, according to the script evaluations that were made. -/
def SpendsAuthorised (block : CBlock) (log : List SigCheck) : Prop :=
  ∀ tx ∈ block.vtx, tx.IsCoinBase = false → ∀ i < tx.vin.length,
    ∃ check ∈ log, check.txTo = tx ∧ check.nIn = i ∧ check.flags = SCRIPT_VERIFY_NOCACHE ∧
      check.result = true

/-- A block that is connected after the initial download, above the last checkpoint, has had the
scripts of its inputs verified exactly when it has none to verify, that is, when all of its
transactions are coinbases. -/
theorem connectBlock_authorised_iff {ctx : Context} {env : Env} {block : CBlock}
    {pindex : UInt256} {s s' : NodeState} {log : List SigCheck} {i : CBlockIndex}
    (hconnect : ConnectBlock ctx env block pindex false s = (.ok log, s'))
    (hdownload : IsInitialBlockDownload ctx env s = false)
    (_hentry : s.mapBlockIndex pindex = some i)
    (_hcheckpoint : GetTotalBlocksEstimate ctx < i.nHeight) :
    SpendsAuthorised block log ↔ ∀ tx ∈ block.vtx, tx.IsCoinBase = true := by
  obtain rfl := connectBlock_sigLog hconnect hdownload
  obtain ⟨s₁, j, prevSupply, acc, hconnected, -⟩ := connectBlock_eq_ok hconnect
  obtain ⟨htxs, -⟩ := checkTransactions_eq_ok hconnected.checked.transactions
  constructor
  · intro hauth tx htx
    by_contra hcb
    rw [Bool.not_eq_true] at hcb
    -- A transaction has an input, and no evaluation covers it.
    have hvin : 0 < tx.vin.length :=
      List.length_pos_iff.mpr (checkTransaction_eq_ok (htxs tx htx)).1
    obtain ⟨check, hmem, -⟩ := hauth tx htx hcb 0 hvin
    simp at hmem
  · intro hall tx htx hcb
    rw [hall tx htx] at hcb
    simp at hcb

/-- The chained block, connected where every signature is valid: it spends outputs, and none of its
scripts has been verified. -/
theorem chainedBlock_not_authorised :
    ¬SpendsAuthorised chainedBlock [] := by
  have hconnect : ConnectBlock (chainedContext true) (plainEnv 1000) chainedBlock 2 false
      chainedNode = (.ok [], (ConnectBlock (chainedContext true) (plainEnv 1000) chainedBlock 2
        false chainedNode).2) := Prod.ext (by decide) rfl
  rw [connectBlock_authorised_iff hconnect (by decide) rfl (by decide)]
  decide

/-- The chained block connects after the initial download, above the last checkpoint, where no
signature at all is valid. -/
theorem chainedBlock_connects_unsigned :
    (ConnectBlock (chainedContext false) (plainEnv 1000) chainedBlock 2 false chainedNode).1
        = .ok [] ∧
      IsInitialBlockDownload (chainedContext false) (plainEnv 1000) chainedNode = false ∧
      GetTotalBlocksEstimate (chainedContext false)
        < (plainIndex 2 1 (some 1) chainedBlock).nHeight ∧
      (∀ txPrev tx i flags, (chainedContext false).verifySignature txPrev tx i flags = false) ∧
      ¬SpendsAuthorised chainedBlock [] := by
  refine ⟨by decide, by decide, by decide, fun _ _ _ _ => rfl, ?_⟩
  intro h
  obtain ⟨check, hmem, -⟩ := h _ (List.mem_cons_of_mem _ List.mem_cons_self) (by decide) 0
    (by decide)
  simp at hmem

end ZalemCoin.Chain
