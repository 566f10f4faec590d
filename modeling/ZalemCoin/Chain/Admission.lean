import ZalemCoin.Chain.AcceptableInputs
import ZalemCoin.Chain.AddrIndex
import ZalemCoin.Chain.MissingInputs

/-!
# The two ways to ask for admission

`AcceptableInputs` and `AcceptToMemoryPool` do nearly the same checks. A transaction that passes the
first one is admitted by the second one exactly when it is standard, as are its inputs, when it spends
from transactions that are in the transaction index, and when its scripts are satisfied.
-/

namespace ZalemCoin.Chain

open Lib
open Except (ok.inj)

/-- The transactions that a transaction spends from, as `FetchInputs` finds them. -/
def prevTxs (ctx : Context) (s : NodeState) (tx : CTransaction) (hash : UInt256) :
    Option CTransaction :=
  if ∃ txin ∈ tx.vin, txin.prevout.hash = hash then
    match fetchPrev ctx s ∅ ⟨false, false⟩ hash with
    | .ok prev => some prev.2
    | .error _ => none
  else none

def prevValue (ctx : Context) (s : NodeState) (tx : CTransaction) (o : COutPoint) : ℤ :=
  (((prevTxs ctx s tx o.hash).bind fun txPrev => txPrev.vout[o.n.toNat]?).map CTxOut.nValue).getD 0

/-- The fee of a transaction: what its inputs, each counted once, are worth more than its outputs. -/
def feeOf (ctx : Context) (s : NodeState) (tx : CTransaction) : ℤ :=
  ((tx.vin.map CTxIn.prevout).dedup.map (prevValue ctx s tx)).sum - tx.valueOut

variable {ctx ctx' : Context} {env : Env} {s : NodeState} {tx : CTransaction} {inputs : MapPrevTx}

/-! ## Fetching -/

variable {mode : CheckMode} {pos : CDiskTxPos} {download : Bool} {flags : UInt32} {acc : SpendState}

variable {queue : TestPool} {input : CTxIn × ℕ} {prev : CTxIndex × CTransaction} {acc' : SpendState}
  {flags' : UInt32}

variable (hcb : tx.IsCoinBase = false)
include hcb

theorem fetchInputs_eq_ok (h : FetchInputs ctx s queue mode tx = .ok inputs) :
    (∀ hash prev, inputs.lookup hash = some prev → fetchPrev ctx s queue mode hash = .ok prev) ∧
      ∀ txin ∈ tx.vin, ∃ prev txout, inputs.lookup txin.prevout.hash = some prev ∧
        prev.2.vout[txin.prevout.n.toNat]? = some txout := by
  unfold FetchInputs at h
  rw [hcb] at h
  obtain ⟨fetched, hfetch, h⟩ := bind_ok h
  obtain ⟨⟨⟩, hrng, h⟩ := bind_ok h
  obtain rfl := ok.inj h
  constructor
  · refine foldlM_ok_induction (fun _ (inputs : MapPrevTx) => ∀ hash prev,
      inputs.lookup hash = some prev → fetchPrev ctx s queue mode hash = .ok prev)
      (fun hash prev hprev => by simp at hprev) ?_ hfetch
    intro done txin rest c c' _ hc hstep hash prev hprev
    unfold fetchInput at hstep
    split at hstep
    · obtain rfl := ok.inj hstep
      exact hc hash prev hprev
    · obtain ⟨new, hnew, hstep⟩ := bind_ok hstep
      obtain rfl := ok.inj hstep
      by_cases heq : hash = txin.prevout.hash
      · subst heq
        rw [AList.lookup_insert] at hprev
        rw [← Option.some.inj hprev]
        exact hnew
      · rw [AList.lookup_insert_ne heq] at hprev
        exact hc hash prev hprev
  · intro txin htxin
    have hchk := except_forM_eq_ok.mp hrng txin htxin
    unfold checkPrevout at hchk
    rcases hlook : fetched.lookup txin.prevout.hash with _ | prev
    · rw [hlook] at hchk
      simp at hchk
    · rw [hlook] at hchk
      have hlt := (ensure_eq_ok.mp hchk).1
      exact ⟨prev, _, rfl, List.getElem?_eq_getElem hlt⟩

theorem prevTxs_of_fetchInputs (h : FetchInputs ctx s ∅ ⟨false, false⟩ tx = .ok inputs) :
    (fun hash => (inputs.lookup hash).map Prod.snd) = prevTxs ctx s tx := by
  obtain ⟨hprev, hins⟩ := fetchInputs_eq_ok hcb h
  funext hash
  unfold prevTxs
  split_ifs with hspent
  · obtain ⟨txin, htxin, rfl⟩ := hspent
    obtain ⟨prev, txout, hlook, -⟩ := hins txin htxin
    rw [hlook, hprev _ _ hlook]
    rfl
  · rcases hlook : inputs.lookup hash with _ | prev
    · rfl
    · exact absurd (mem_of_fetchInputs hcb h hlook) hspent

theorem getOutputFor_eq (h : FetchInputs ctx s ∅ ⟨false, false⟩ tx = .ok inputs) {txin : CTxIn}
    {txout : CTxOut} (hout : GetOutputFor inputs txin = .ok txout) :
    prevValue ctx s tx txin.prevout = txout.nValue := by
  unfold prevValue
  rw [← prevTxs_of_fetchInputs hcb h]
  unfold GetOutputFor at hout
  rcases hlook : inputs.lookup txin.prevout.hash with _ | prev
  · rw [hlook] at hout
    simp at hout
  · dsimp only
    rw [hlook, Option.bind_some] at hout
    rcases hget : prev.2.vout[txin.prevout.n.toNat]? with _ | txout'
    · rw [hget] at hout
      simp at hout
    · rw [hget] at hout
      rw [← ok.inj hout, hlook, Option.map_some, Option.bind_some, hget]
      rfl

omit hcb

/-! ## Connecting -/

def SpendState.spend (acc : SpendState) (pos : CDiskTxPos) (mode : CheckMode) (o : COutPoint)
    (prev : CTxIndex × CTransaction) (checks : List SigCheck) : SpendState :=
  let txindex := { prev.1 with slots := prev.1.slots.set o.n.toNat pos }
  { inputs := acc.inputs.insert o.hash (txindex, prev.2)
    mapTestPool :=
      if mode.fBlock || mode.fMiner then acc.mapTestPool.insert o.hash txindex else acc.mapTestPool
    sigLog := acc.sigLog ++ checks }

theorem spendInput_eq (hlook : acc.inputs.lookup input.1.prevout.hash = some prev)
    (hnull : prev.1.vSpent[input.1.prevout.n.toNat]? = some CDiskTxPos.null) :
    spendInput ctx tx pos mode download flags acc input
      = checkScript ctx prev.2 tx input.2 mode download flags >>= fun checks =>
        pure (acc.spend pos mode input.1.prevout prev checks) := by
  unfold spendInput
  dsimp only
  rw [hlook]
  dsimp only
  rw [ensure_eq_ok (u := ()) |>.mpr hnull]
  rfl

theorem spendInput_eq_ok (h : spendInput ctx tx pos mode download flags acc input = .ok acc') :
    ∃ prev checks, acc.inputs.lookup input.1.prevout.hash = some prev ∧
      prev.1.vSpent[input.1.prevout.n.toNat]? = some CDiskTxPos.null ∧
      checkScript ctx prev.2 tx input.2 mode download flags = .ok checks ∧
      acc' = acc.spend pos mode input.1.prevout prev checks := by
  unfold spendInput at h
  dsimp only at h
  rcases hlook : acc.inputs.lookup input.1.prevout.hash with _ | prev
  · rw [hlook] at h
    simp at h
  · rw [hlook] at h
    obtain ⟨hnull, h⟩ := ensure_ok h
    obtain ⟨checks, hchks, h⟩ := bind_ok h
    exact ⟨prev, checks, rfl, hnull, hchks, (ok.inj h).symm⟩

theorem SpendState.lookup_spend {o : COutPoint} (hlook : acc.inputs.lookup o.hash = some prev)
    (pos : CDiskTxPos) (mode : CheckMode) (checks : List SigCheck) (hash : UInt256) :
    ((acc.spend pos mode o prev checks).inputs.lookup hash).map Prod.snd
      = (acc.inputs.lookup hash).map Prod.snd := by
  unfold SpendState.spend
  by_cases heq : hash = o.hash
  · subst heq
    rw [AList.lookup_insert, hlook]
    rfl
  · rw [AList.lookup_insert_ne heq]

theorem foldlM_spendInput_iff {mode' : CheckMode} {download' : Bool} (vin : List (CTxIn × ℕ))
    {acc₀ : SpendState} (hins : acc₀.inputs = acc.inputs)
    (h : vin.foldlM (spendInput ctx' tx pos mode' download' flags') acc = .ok acc') :
    (∃ r, vin.foldlM (spendInput ctx tx pos mode download flags) acc₀ = .ok r) ↔
      ∀ input ∈ vin, ∀ txPrev, (acc.inputs.lookup input.1.prevout.hash).map Prod.snd = some txPrev →
        ∃ checks, checkScript ctx txPrev tx input.2 mode download flags = .ok checks := by
  induction vin generalizing acc acc₀ with
  | nil => exact iff_of_true ⟨acc₀, rfl⟩ (by simp)
  | cons input vin ih =>
    rw [List.foldlM_cons] at h
    obtain ⟨acc₁, hstep, hrest⟩ := bind_ok h
    obtain ⟨prev, checks', hlook, hnull, -, rfl⟩ := spendInput_eq_ok hstep
    rw [List.foldlM_cons, spendInput_eq (hins ▸ hlook) hnull, List.forall_mem_cons]
    have hfst : (∀ txPrev, (acc.inputs.lookup input.1.prevout.hash).map Prod.snd = some txPrev →
        ∃ checks, checkScript ctx txPrev tx input.2 mode download flags = .ok checks) ↔
          ∃ checks, checkScript ctx prev.2 tx input.2 mode download flags = .ok checks := by
      rw [hlook]
      simp
    rw [hfst]
    rcases hchk : checkScript ctx prev.2 tx input.2 mode download flags with e | checks
    · -- the script fails, and nothing more is spent
      exact iff_of_false (fun h => by simp [bind, Except.bind] at h) (fun h => by simp at h)
    · have hsame : (acc₀.spend pos mode input.1.prevout prev checks).inputs
          = (acc.spend pos mode' input.1.prevout prev checks').inputs := by
        unfold SpendState.spend
        rw [hins]
      have hnext := ih hsame hrest
      simp only [SpendState.lookup_spend hlook] at hnext
      exact hnext.trans ⟨fun h => ⟨⟨checks, rfl⟩, h⟩, fun h => h.2⟩

/-- Inputs that connect without the scripts connect with them when each signature verifies. -/
theorem connectInputs_iff {pindex : Option CBlockIndex} {r : TestPool × List SigCheck}
    (hcb : tx.IsCoinBase = false)
    (h : ConnectInputs ctx' env s tx inputs queue pos pindex mode flags' = .ok r) :
    (∃ r, ConnectInputs ctx env s tx inputs queue pos pindex ⟨false, false⟩ flags = .ok r) ↔
      ∀ i txin txPrev, tx.vin[i]? = some txin →
        (inputs.lookup txin.prevout.hash).map Prod.snd = some txPrev →
          ctx.verifySignature txPrev tx i flags = true := by
  unfold ConnectInputs at h ⊢
  rw [hcb, if_neg Bool.false_ne_true] at h
  rw [hcb, if_neg Bool.false_ne_true]
  obtain ⟨nValueIn, hval, h⟩ := bind_ok h
  obtain ⟨acc, hspend, h⟩ := bind_ok h
  obtain ⟨⟨⟩, hfees, -⟩ := bind_ok h
  have hloop : (∃ acc, tx.vin.zipIdx.foldlM (spendInput ctx tx pos ⟨false, false⟩
      (IsInitialBlockDownload ctx env s) flags) ⟨inputs, queue, []⟩ = .ok acc) ↔ _ :=
    foldlM_spendInput_iff tx.vin.zipIdx rfl hspend
  have hconn : (∃ r, (tx.vin.foldlM (checkInput s tx inputs pindex) 0 >>= fun nValueIn =>
      tx.vin.zipIdx.foldlM (spendInput ctx tx pos ⟨false, false⟩ (IsInitialBlockDownload ctx env s)
        flags) ⟨inputs, queue, []⟩ >>= fun acc =>
      checkFees tx nValueIn >>= fun _ => pure (acc.mapTestPool, acc.sigLog)) = .ok r) ↔
      ∃ acc, tx.vin.zipIdx.foldlM (spendInput ctx tx pos ⟨false, false⟩
        (IsInitialBlockDownload ctx env s) flags) ⟨inputs, queue, []⟩ = .ok acc := by
    constructor
    · rintro ⟨r, hr⟩
      obtain ⟨nValueIn', -, hr⟩ := bind_ok hr
      obtain ⟨acc, hacc, -⟩ := bind_ok hr
      exact ⟨acc, hacc⟩
    · rintro ⟨acc, hacc⟩
      exact ⟨_, ok_bind hval (ok_bind hacc (ok_bind hfees rfl))⟩
  refine hconn.trans (hloop.trans ?_)
  have hscr : ∀ txPrev i, (∃ checks, checkScript ctx txPrev tx i ⟨false, false⟩
      (IsInitialBlockDownload ctx env s) flags = .ok checks) ↔
        ctx.verifySignature txPrev tx i flags = true := by
    intro txPrev i
    unfold checkScript verifyInput
    simp only [Bool.false_and, Bool.not_false, if_true]
    split_ifs with hver hrepeat
    · exact iff_of_true ⟨_, rfl⟩ hver
    · exact iff_of_false (by simp) hver
    · exact iff_of_false (by simp) hver
  simp only [hscr]
  constructor
  · intro hall i txin txPrev htxin hprev
    exact hall (txin, i) (List.mem_zipIdx_iff_getElem?.mpr htxin) txPrev hprev
  · intro hall input hinput txPrev hprev
    exact hall input.2 input.1 txPrev (List.mem_zipIdx_iff_getElem?.mp hinput) hprev

/-! ## Admission -/

/-- What `AcceptableInputs` has found when it accepts a transaction. -/
structure Acceptable (ctx : Context) (env : Env) (s : NodeState) (tx : CTransaction)
    (inputs : MapPrevTx) (nP2SH : ℕ) (nValueIn nValueOut : ℤ) : Prop where
  checked : CheckTransaction s.MAX_BLOCK_SIZE tx = .ok ()
  noCoinBase : tx.IsCoinBase = false
  noCoinStake : tx.IsCoinStake = false
  notPooled : s.mempool.existsTx (ctx.hashTx tx) = false
  unlocked : ∀ txin ∈ tx.vin, lockedForOther ctx s tx txin = false
  noConflict : ∀ txin ∈ tx.vin, s.mempool.mapNextTx txin.prevout = none
  notIndexed : s.txdb.ContainsTx (ctx.hashTx tx) = false
  fetched : FetchInputs ctx s ∅ ⟨false, false⟩ tx = .ok inputs
  counted : GetP2SHSigOpCount inputs tx = .ok nP2SH
  few : GetLegacySigOpCount tx + nP2SH ≤ s.MAX_TX_SIGOPS
  valueIn : GetValueIn inputs tx = .ok nValueIn
  valueOut : tx.GetValueOut = .ok nValueOut
  paid : ¬wrap64 (nValueIn - nValueOut) < GetMinFee tx tx.GetSerializeSize true .GMF_RELAY
  relayed : ¬(wrap64 (nValueIn - nValueOut) < MIN_RELAY_TX_FEE ∧ env.fFreeLimited)
  connected : ∃ r, ConnectInputs ctx.withoutSignatures env s tx inputs ∅ CDiskTxPos.memoryPool
    (s.pindexBest.bind s.mapBlockIndex) .block STANDARD_SCRIPT_VERIFY_FLAGS = .ok r

theorem acceptableInputs_eq_ok (h : AcceptableInputs ctx env s tx true false false = .ok ()) :
    ∃ inputs nP2SH nValueIn nValueOut, Acceptable ctx env s tx inputs nP2SH nValueIn nValueOut := by
  obtain ⟨⟨⟩, hchecked, h⟩ := bind_ok h
  obtain ⟨hcb, h⟩ := ensure_ok h
  obtain ⟨hcs, h⟩ := ensure_ok h
  obtain ⟨hpool, h⟩ := ensure_ok h
  obtain ⟨hlocks, h⟩ := ensure_ok h
  obtain ⟨hconflicts, h⟩ := ensure_ok h
  obtain ⟨hidx, h⟩ := ensure_ok h
  obtain ⟨inputs, hfetch, h⟩ := bind_ok h
  obtain ⟨nP2SH, hcnt, h⟩ := bind_ok h
  obtain ⟨hfew, h⟩ := ensure_ok h
  obtain ⟨nValueIn, hin, h⟩ := bind_ok h
  obtain ⟨nValueOut, hout, h⟩ := bind_ok h
  obtain ⟨hpaid, h⟩ := ensure_ok h
  obtain ⟨hrelayed, h⟩ := ensure_ok h
  obtain ⟨⟨⟩, -, h⟩ := bind_ok h
  obtain ⟨r, hconn, -⟩ := bind_ok h
  exact ⟨inputs, nP2SH, nValueIn, nValueOut,
    { checked := hchecked
      noCoinBase := hcb
      noCoinStake := hcs
      notPooled := hpool
      unlocked := hlocks
      noConflict := hconflicts
      notIndexed := hidx
      fetched := hfetch
      counted := hcnt
      few := hfew
      valueIn := hin
      valueOut := hout
      paid := by simpa using hpaid
      relayed := by simpa using hrelayed
      connected := ⟨r, hconn⟩ }⟩

section

variable {nP2SH : ℕ} {nValueIn nValueOut : ℤ}

theorem Acceptable.fee_eq (h : Acceptable ctx env s tx inputs nP2SH nValueIn nValueOut) :
    wrap64 (nValueIn - nValueOut) = feeOf ctx s tx ∧
      MoneyRange (tx.vin.map fun txin => prevValue ctx s tx txin.prevout).sum ∧
      MoneyRange tx.valueOut := by
  obtain ⟨r, hconn⟩ := h.connected
  unfold ConnectInputs at hconn
  rw [h.noCoinBase, if_neg Bool.false_ne_true] at hconn
  obtain ⟨nValue, hval, -⟩ := bind_ok hconn
  have hsum : nValue = (tx.vin.map fun txin => prevValue ctx s tx txin.prevout).sum ∧
      MoneyRange nValue := by
    refine foldlM_moneyRange_eq (fun txin _ n n' hstep => ?_) hval
    obtain ⟨prevout, hout, hadd, hrng, hrng'⟩ := checkInput_eq_ok hstep
    rw [getOutputFor_eq h.noCoinBase h.fetched hout]
    exact ⟨hadd, hrng, hrng'⟩
  have hin : nValueIn = wrap64 (tx.vin.map fun txin => prevValue ctx s tx txin.prevout).sum := by
    have hloop := h.valueIn
    unfold GetValueIn at hloop
    rw [h.noCoinBase, if_neg Bool.false_ne_true] at hloop
    refine foldlM_wrap64_eq (fun txin htxin n n' hstep => ?_) hloop
    obtain ⟨prevout, hout, hstep⟩ := bind_ok hstep
    cases hstep
    rw [getOutputFor_eq h.noCoinBase h.fetched hout]
  obtain ⟨hexact, hout⟩ := getValueOut_exact h.valueOut
  have hnd := (checkTransaction_eq_ok h.checked).2.1
  rw [← hsum.1] at hin ⊢
  rw [wrap64_of_moneyRange hsum.2] at hin
  refine ⟨?_, hsum.2, hexact ▸ hout⟩
  calc wrap64 (nValueIn - nValueOut)
      = nValue - tx.valueOut := by rw [hin, wrap64_sub_of_moneyRange hsum.2 hout, hexact]
    _ = (tx.vin.map fun txin => prevValue ctx s tx txin.prevout).sum - tx.valueOut := by rw [hsum.1]
    _ = feeOf ctx s tx := by
      unfold feeOf
      rw [hnd.dedup, List.map_map]
      rfl

theorem Acceptable.checkLoose_iff (h : Acceptable ctx env s tx inputs nP2SH nValueIn nValueOut) :
    checkLoose ctx s tx = .ok () ↔ ctx.network = .testnet ∨ ctx.isStandardTx tx = true := by
  unfold checkLoose
  constructor
  · intro hloose
    obtain ⟨⟨⟩, -, hloose⟩ := bind_ok hloose
    obtain ⟨⟨⟩, -, hloose⟩ := bind_ok hloose
    obtain ⟨⟨⟩, -, hloose⟩ := bind_ok hloose
    obtain ⟨⟨⟩, hstandard, -⟩ := bind_ok hloose
    exact ensure_eq_ok.mp hstandard
  · intro hstandard
    rw [h.checked]
    refine ok_bind rfl ?_
    refine ensure_bind h.noCoinBase ?_
    refine ensure_bind h.noCoinStake ?_
    refine ensure_bind hstandard ?_
    refine ensure_bind h.notPooled ?_
    refine ensure_bind h.unlocked ?_
    exact ensure_eq_ok.mpr h.noConflict

def ScriptsPass (ctx : Context) (s : NodeState) (tx : CTransaction) (flags : UInt32) : Prop :=
  ∀ i txin txPrev, tx.vin[i]? = some txin → prevTxs ctx s tx txin.prevout.hash = some txPrev →
    ctx.verifySignature txPrev tx i flags = true

variable (h : Acceptable ctx env s tx inputs nP2SH nValueIn nValueOut)
include h

theorem Acceptable.connect_iff (flags : UInt32) :
    (∃ r, ConnectInputs ctx env s tx inputs ∅ CDiskTxPos.memoryPool
      (s.pindexBest.bind s.mapBlockIndex) ⟨false, false⟩ flags = .ok r) ↔
        ScriptsPass ctx s tx flags := by
  obtain ⟨r, hconn⟩ := h.connected
  unfold ScriptsPass
  rw [← prevTxs_of_fetchInputs h.noCoinBase h.fetched]
  exact connectInputs_iff h.noCoinBase hconn

theorem Acceptable.checkRelayFees_eq :
    checkRelayFees ctx env tx (wrap64 (nValueIn - nValueOut)) true false = .ok () := by
  unfold checkRelayFees
  split
  · rfl
  · refine ensure_bind (fun hfree => h.paid hfree.2) ?_
    exact ensure_eq_ok.mpr fun hfree => h.relayed hfree.2

theorem Acceptable.checkFetched_iff (fRejectInsaneFee : Bool) :
    checkFetched ctx env s tx true fRejectInsaneFee false = .ok () ↔
      (ctx.network = .testnet ∨ ctx.areInputsStandard tx (prevTxs ctx s tx) = true) ∧
        (fRejectInsaneFee = true → feeOf ctx s tx ≤ MIN_RELAY_TX_FEE * 10000) ∧
        ScriptsPass ctx s tx STANDARD_SCRIPT_VERIFY_FLAGS ∧
        ScriptsPass ctx s tx MANDATORY_SCRIPT_VERIFY_FLAGS := by
  have hsane : ¬(fRejectInsaneFee = true ∧ MIN_RELAY_TX_FEE * 10000 < wrap64 (nValueIn - nValueOut))
    ↔ (fRejectInsaneFee = true → feeOf ctx s tx ≤ MIN_RELAY_TX_FEE * 10000) := by
    rw [h.fee_eq.1, not_and, not_lt]
  rw [← prevTxs_of_fetchInputs h.noCoinBase h.fetched, ← hsane, ← h.connect_iff, ← h.connect_iff]
  constructor
  · intro hfetch
    obtain ⟨inputs', hins, hfetch⟩ := bind_ok hfetch
    obtain rfl := ok.inj (hins.symm.trans h.fetched)
    obtain ⟨⟨⟩, hstandard, hfetch⟩ := bind_ok hfetch
    obtain ⟨nP2SH', -, hfetch⟩ := bind_ok hfetch
    obtain ⟨⟨⟩, -, hfetch⟩ := bind_ok hfetch
    obtain ⟨nValueIn', hin, hfetch⟩ := bind_ok hfetch
    obtain rfl := ok.inj (hin.symm.trans h.valueIn)
    obtain ⟨nValueOut', hout, hfetch⟩ := bind_ok hfetch
    obtain rfl := ok.inj (hout.symm.trans h.valueOut)
    obtain ⟨⟨⟩, -, hfetch⟩ := bind_ok hfetch
    obtain ⟨⟨⟩, hinsane, hfetch⟩ := bind_ok hfetch
    obtain ⟨r, hfst, hfetch⟩ := bind_ok hfetch
    obtain ⟨r', hsnd, -⟩ := bind_ok hfetch
    exact ⟨ensure_eq_ok.mp hstandard, ensure_eq_ok.mp hinsane, ⟨r, hfst⟩, ⟨r', hsnd⟩⟩
  · rintro ⟨hstandard, hinsane, ⟨r, hfst⟩, ⟨r', hsnd⟩⟩
    refine ok_bind h.fetched ?_
    refine ensure_bind hstandard ?_
    refine ok_bind h.counted ?_
    refine ensure_bind h.few ?_
    refine ok_bind h.valueIn ?_
    refine ok_bind h.valueOut ?_
    refine ok_bind h.checkRelayFees_eq ?_
    refine ensure_bind hinsane ?_
    refine ok_bind hfst ?_
    exact ok_bind hsnd rfl

end

/-- When the pool admits a transaction that could enter it but for its scripts. -/
structure Admissible (ctx : Context) (s : NodeState) (tx : CTransaction) (fRejectInsaneFee : Bool) :
    Prop where
  standard : ctx.network = .testnet ∨ ctx.isStandardTx tx = true
  /-- The transactions that it spends from are in blocks. -/
  confirmed : ∀ txin ∈ tx.vin, s.txdb.ContainsTx txin.prevout.hash = true
  inputsStandard : ctx.network = .testnet ∨ ctx.areInputsStandard tx (prevTxs ctx s tx) = true
  sane : fRejectInsaneFee = true → feeOf ctx s tx ≤ MIN_RELAY_TX_FEE * 10000
  signed : ScriptsPass ctx s tx STANDARD_SCRIPT_VERIFY_FLAGS
  signedMandatory : ScriptsPass ctx s tx MANDATORY_SCRIPT_VERIFY_FLAGS

theorem admitted_iff (h : AcceptableInputs ctx env s tx true false false = .ok ())
    (fRejectInsaneFee : Bool) :
    (AcceptToMemoryPool ctx env tx true fRejectInsaneFee false s).1 = .ok () ↔
      Admissible ctx s tx fRejectInsaneFee := by
  obtain ⟨inputs, nP2SH, nValueIn, nValueOut, hacc⟩ := acceptableInputs_eq_ok h
  rw [acceptToMemoryPool_eq_ok]
  unfold PassesOthers
  rw [hacc.checkLoose_iff, hacc.checkFetched_iff]
  constructor
  · rintro ⟨⟨hstandard, -, hins, hsane, hsig, hmandatory⟩, hconfirmed⟩
    exact ⟨hstandard, hconfirmed, hins, hsane, hsig, hmandatory⟩
  · rintro ⟨hstandard, hconfirmed, hins, hsane, hsig, hmandatory⟩
    exact ⟨⟨hstandard, hacc.notIndexed, hins, hsane, hsig, hmandatory⟩, hconfirmed⟩

end ZalemCoin.Chain
