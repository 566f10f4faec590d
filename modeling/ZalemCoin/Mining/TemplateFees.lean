import ZalemCoin.Chain.ValueRange
import ZalemCoin.Mining.TemplateLimits

/-!
# The fees of templates

`CreateNewBlock` adds up the fees of the transactions that it selects. The fee of a transaction comes
from the transactions that it spends from: those that have been selected before it, as the pool has
them, and others as they are on the disk.
-/

namespace ZalemCoin.Mining

open Lib Chain Script
open CDiskTxPos (memoryPool)

def templatePrev (ctx : Context) (s : NodeState) (before : List CTransaction) (hash : UInt256) :
    Option CTransaction :=
  if hash ∈ before.map ctx.hashTx then s.mempool.mapTx.lookup hash
  else (s.txdb.txIndex hash).bind fun txindex => readTxAt ctx txindex.pos

def outputWorth (txPrev : Option CTransaction) (n : ℕ) : ℤ :=
  ((txPrev.bind fun tx => tx.vout[n]?).map CTxOut.nValue).getD 0

def feeAfter (ctx : Context) (s : NodeState) (before : List CTransaction) (tx : CTransaction) : ℤ :=
  (tx.vin.map fun txin =>
    outputWorth (templatePrev ctx s before txin.prevout.hash) txin.prevout.n.toNat).sum - tx.valueOut

/-- The fees of those of some selected transactions that meet a condition. -/
def feesOf (ctx : Context) (s : NodeState) (p : CTransaction → Bool) :
    List CTransaction → List CTransaction → ℤ
  | _, [] => 0
  | before, tx :: sel =>
    (if p tx then feeAfter ctx s before tx else 0) + feesOf ctx s p (before ++ [tx]) sel

section

variable {ctx : Context} {s : NodeState} {p : CTransaction → Bool}
  {before sel : List CTransaction}

theorem feesOf_concat (tx : CTransaction) :
    feesOf ctx s p before (sel ++ [tx])
      = feesOf ctx s p before sel + if p tx then feeAfter ctx s (before ++ sel) tx else 0 := by
  induction sel generalizing before with
  | nil => simp [feesOf]
  | cons tx' sel ih =>
    rw [List.cons_append, feesOf, ih, feesOf, List.append_assoc, List.singleton_append]
    omega

theorem feesOf_add_not :
    feesOf ctx s p before sel + feesOf ctx s (fun tx => !p tx) before sel
      = feesOf ctx s (fun _ => true) before sel := by
  induction sel generalizing before with
  | nil => rfl
  | cons tx sel ih =>
    have hrest := @ih (before ++ [tx])
    unfold feesOf
    rcases p tx <;> simp <;> omega

/-- Fees that are not negative add up to zero only when each is zero. -/
theorem feesOf_nonneg
    (h : ∀ done tx rest, sel = done ++ tx :: rest → 0 ≤ feeAfter ctx s (before ++ done) tx) :
    0 ≤ feesOf ctx s p before sel ∧
      (feesOf ctx s p before sel = 0 ↔ ∀ done tx rest, sel = done ++ tx :: rest → p tx = true →
        feeAfter ctx s (before ++ done) tx = 0) := by
  induction sel generalizing before with
  | nil => simp [feesOf]
  | cons tx sel ih =>
    have hfst := h [] tx sel rfl
    rw [List.append_nil] at hfst
    obtain ⟨hrest, hzero⟩ := @ih (before ++ [tx]) fun done tx' rest heq => by
      have hlater := h (tx :: done) tx' rest (by rw [heq]; rfl)
      rwa [List.append_assoc]
    unfold feesOf
    have hsum : 0 ≤ if p tx then feeAfter ctx s before tx else 0 := by
      split
      · exact hfst
      · exact le_rfl
    refine ⟨by omega, ?_⟩
    constructor
    · intro hnone done tx' rest heq hp
      rcases done with _ | ⟨tx'', done⟩
      · obtain ⟨rfl, rfl⟩ := List.cons.inj heq
        rw [if_pos hp] at hnone
        rw [List.append_nil]
        omega
      · obtain ⟨rfl, rfl⟩ := List.cons.inj heq
        have hlater := hzero.mp (by omega) done tx' rest rfl hp
        rwa [List.append_assoc] at hlater
    · intro hall
      have hlater := hzero.mpr fun done tx' rest heq hp => by
        have := hall (tx :: done) tx' rest (by rw [heq]; rfl) hp
        rwa [List.append_assoc]
      have hfst' : (if p tx then feeAfter ctx s before tx else 0) = 0 := by
        split
        · rename_i hp
          have := hall [] tx sel rfl hp
          rwa [List.append_nil] at this
        · rfl
      omega

end

/-! ## What the loop over the candidates carries -/

/-- The pending changes of the loop after some transactions have been selected: these are where the
pool is, and the others are where they were. -/
structure SelectedOver (ctx : Context) (s : NodeState) (sel : List CTransaction)
    (L : Ledger UInt256 CDiskTxPos) : Prop where
  selected : ∀ hash ∈ sel.map ctx.hashTx, (L hash).map Entry.pos = some CDiskTxPos.memoryPool
  others : ∀ hash ∉ sel.map ctx.hashTx,
    (L hash).map Entry.pos = (s.txdb.txIndex hash).map Entry.pos

/-- What is known of a selected transaction: its fee is not negative, and what it spends from is
there and not later than itself. -/
structure Covered (ctx : Context) (s : NodeState) (before : List CTransaction)
    (tx : CTransaction) : Prop where
  fee : 0 ≤ feeAfter ctx s before tx
  spends : ∀ txin ∈ tx.vin, ∃ txPrev,
    templatePrev ctx s before txin.prevout.hash = some txPrev ∧ txPrev.nTime ≤ tx.nTime

structure FeesSo (ctx : Context) (s : NodeState) (coinbase : CTransaction) (a : Assembly)
    (sel : List CTransaction) : Prop where
  vtx : a.vtx = coinbase :: sel
  fees : a.nFees = wrap64 (feesOf ctx s (fun _ => true) [] sel)
  ledger : SelectedOver ctx s sel (pending s a.mapTestPool)
  covered : ∀ before tx after, sel = before ++ tx :: after → Covered ctx s before tx

section

variable {ctx : Context} {env : Env} {args : MinerArgs} {s : NodeState} {sel : List CTransaction}
  {L : Ledger UInt256 CDiskTxPos} {tx : CTransaction} {a a' : Assembly} {pindexPrev : CBlockIndex}

variable (h : SelectedOver ctx s sel L)
include h

variable (hdisk : OnDisk s.txdb.txIndex)
include hdisk

theorem SelectedOver.prevTx (hash : UInt256) :
    ((L hash).bind fun e => prevTxAt ctx s hash e.pos) = templatePrev ctx s sel hash := by
  unfold templatePrev prevTxAt
  split
  · rename_i hmem
    obtain ⟨e, he, hpos⟩ := Option.map_eq_some_iff.mp (h.selected hash hmem)
    rw [he, Option.bind_some, if_pos hpos]
  · rename_i hmem
    have hpos := h.others hash hmem
    rcases he : s.txdb.txIndex hash with _ | e
    · rw [he, Option.map_none, Option.map_eq_none_iff] at hpos
      rw [hpos]
      rfl
    · rw [he, Option.map_some] at hpos
      obtain ⟨e', he', hsame⟩ := Option.map_eq_some_iff.mp hpos
      rw [he', Option.bind_some, Option.bind_some, hsame, if_neg (hdisk hash e he)]

theorem SelectedOver.slotWorth (k : UInt256 × ℕ) :
    slotWorth ctx s L k = outputWorth (templatePrev ctx s sel k.1) k.2 := by
  unfold Chain.slotWorth outputWorth
  rw [h.prevTx hdisk]

theorem SelectedOver.fee (hcb : tx.IsCoinBase = false) :
    tx.spentWorth ctx s L - tx.valueOut = feeAfter ctx s sel tx := by
  rw [spentWorth_eq hcb]
  simp only [h.slotWorth hdisk]
  rfl

omit hdisk

theorem SelectedOver.select :
    SelectedOver ctx s (sel ++ [tx]) (Function.update
      (tx.spentSlots.foldl (Ledger.mark memoryPool) L) (ctx.hashTx tx)
      (some (CTxIndex.new memoryPool tx.vout.length))) := by
  have hmarks (hash : UInt256) :
      (tx.spentSlots.foldl (Ledger.mark memoryPool) L hash).map Entry.pos
        = (L hash).map Entry.pos := Ledger.map_pos_foldl_mark _ _ _ _
  constructor
  · intro hash hmem
    by_cases heq : hash = ctx.hashTx tx
    · subst heq
      rw [Function.update_self]
      rfl
    · rw [Function.update_of_ne heq, hmarks]
      rw [List.map_append, List.mem_append, List.map_singleton, List.mem_singleton] at hmem
      exact h.selected hash (hmem.resolve_right heq)
  · intro hash hmem
    rw [List.map_append, List.mem_append, List.map_singleton, List.mem_singleton, not_or] at hmem
    rw [Function.update_of_ne hmem.2, hmarks]
    exact h.others hash hmem.1

omit h

theorem checkInputs_time {inputs : MapPrevTx} {pindexBlock : Option CBlockIndex} {vin : List CTxIn}
    {n n' : ℤ} (h : vin.foldlM (checkInput s tx inputs pindexBlock) n = .ok n') {txin : CTxIn}
    (htxin : txin ∈ vin) :
    ∃ p, inputs.lookup txin.prevout.hash = some p ∧ p.2.nTime ≤ tx.nTime := by
  refine foldlM_ok_induction (fun done _ => ∀ txin ∈ done, ∃ p,
    inputs.lookup txin.prevout.hash = some p ∧ p.2.nTime ≤ tx.nTime) (by simp) ?_ h txin htxin
  intro done txin rest n n' _ hdone hstep txin' hmem
  rcases List.mem_append.mp hmem with hmem | hmem
  · exact hdone txin' hmem
  · obtain rfl := List.mem_singleton.mp hmem
    obtain ⟨⟨⟩, -, hstep⟩ := bind_ok hstep
    split at hstep
    · simp at hstep
    · rename_i txindex txPrev hlook
      obtain ⟨⟨⟩, -, hstep⟩ := bind_ok hstep
      obtain ⟨htime, -⟩ := ensure_ok hstep
      exact ⟨(txindex, txPrev), hlook, htime⟩

theorem attempt_eq_ok {α : Type} {x : Except Failure α} {y : α} (h : attempt x = .ok (some y)) :
    x = .ok y := by
  rcases x with e | x
  · cases e <;> simp [attempt] at h
  · rw [Option.some.inj (Except.ok.inj h)]

/-- A candidate that is connected pays its fee over the ones before. -/
theorem connectCandidate_eq_ok {nTxSigOps : ℕ} {nTxFees : ℤ} {mapTestPool : TestPool}
    (hled : SelectedOver ctx s sel (pending s a.mapTestPool)) (hdisk : OnDisk s.txdb.txIndex)
    (hcb : tx.IsCoinBase = false) (hcs : tx.IsCoinStake = false)
    (h : connectCandidate ctx env s pindexPrev a tx
      = .ok (some (nTxSigOps, nTxFees, mapTestPool))) :
    nTxFees = feeAfter ctx s sel tx ∧ Covered ctx s sel tx ∧
      SelectedOver ctx s (sel ++ [tx]) (pending s mapTestPool) ∧
      (∀ k ∈ tx.spentSlots, Ledger.slot (pending s a.mapTestPool) k = some CDiskTxPos.null) ∧
      ∀ k, k.1 ≠ ctx.hashTx tx → Ledger.slot (pending s mapTestPool) k =
        if k ∈ tx.spentSlots then
          (Ledger.slot (pending s a.mapTestPool) k).map fun _ => memoryPool
        else Ledger.slot (pending s a.mapTestPool) k := by
  have hmode : CheckMode.OfBlock ⟨false, true⟩ := rfl
  obtain ⟨fetched, hfetch, h⟩ := bind_ok h
  rcases fetched with _ | mapInputs
  · simp [pure, Except.pure] at h
  obtain ⟨nValueIn, hin, h⟩ := bind_ok h
  obtain ⟨nValueOut, hout, h⟩ := bind_ok h
  obtain ⟨nP2SH, -, h⟩ := bind_ok h
  dsimp only at h
  split_ifs at h with hsigops
  · simp [pure, Except.pure] at h
  obtain ⟨connected, hspent, h⟩ := bind_ok h
  rcases connected with _ | spent
  · simp [pure, Except.pure] at h
  obtain ⟨-, hpair⟩ := Prod.mk.inj (Option.some.inj (Except.ok.inj h))
  cases hpair
  have hconn := attempt_eq_ok hspent
  have hfetched := fetchInputs_ofBlock hmode hcb (attempt_eq_ok hfetch)
  obtain ⟨hrng, hcov⟩ := connectInputs_amounts hfetched hcb hconn
  obtain ⟨rfl, hrng'⟩ := getValueOut_exact hout
  have hval := getValueIn_spentWorth hfetched hcb hin
  rw [wrap64_of_moneyRange hrng] at hval
  subst hval
  have hfee := hled.fee hdisk hcb
  obtain ⟨hmark, hfree⟩ := connectInputs_ofBlock hmode hcb hfetched hconn
  have hpend : pending s (spent.1.insert (ctx.hashTx tx)
      (CTxIndex.new memoryPool tx.vout.length)) = Function.update
      (tx.spentSlots.foldl (Ledger.mark memoryPool) (pending s a.mapTestPool))
      (ctx.hashTx tx) (some (CTxIndex.new memoryPool tx.vout.length)) := by
    rw [pending, overlay_insert, ← pending, hmark]
  refine ⟨?_, ⟨?_, fun txin htxin => ?_⟩, ?_, hfree, fun k hk => ?_⟩
  · rw [wrap64_sub_of_moneyRange hrng hrng', hfee]
  · rw [← hfee]
    have := hcov hcs
    omega
  · -- The transaction that was fetched is the one that the entry refers to.
    have hchecked := hconn
    unfold ConnectInputs at hchecked
    rw [hcb, if_neg Bool.false_ne_true] at hchecked
    obtain ⟨total, hchks, -⟩ := bind_ok hchecked
    obtain ⟨p, hlook, htime⟩ := checkInputs_time hchks htxin
    obtain ⟨hent, hprev⟩ := hfetched.entry _ _ hlook
    refine ⟨p.2, ?_, htime⟩
    rw [← hled.prevTx hdisk, hent, Option.bind_some]
    exact hprev.prevTxAt
  · rw [hpend]
    exact hled.select
  · -- The new entry is not the one that the slot is in.
    rw [← Ledger.slot_foldl_mark, hpend]
    unfold Ledger.slot
    rw [Function.update_of_ne hk]

theorem considerTx_eq_ok {fProofOfStake : Bool} {nTimeCoinbase : UInt32}
    {mapDependers : UInt256 → List ℕ} {candidate : TxPriority} {rest : List TxPriority}
    (h : considerTx ctx env args s pindexPrev fProofOfStake nTimeCoinbase mapDependers
      { a with vecPriority := rest } candidate = .ok a') :
    (a'.vtx = a.vtx ∧ a'.mapTestPool = a.mapTestPool ∧ a'.nFees = a.nFees) ∨
      ∃ b nTxSigOps nTxFees, b.mapTestPool = a.mapTestPool ∧
        connectCandidate ctx env s pindexPrev b candidate.tx
          = .ok (some (nTxSigOps, nTxFees, a'.mapTestPool)) ∧
        a'.vtx = a.vtx ++ [candidate.tx] ∧ a'.nFees = wrap64 (a.nFees + nTxFees) := by
  unfold considerTx at h
  split_ifs at h with hskip
  · cases h
    exact .inl ⟨rfl, rfl, rfl⟩
  obtain ⟨added, hadded, h⟩ := bind_ok h
  rcases added with _ | ⟨nTxSigOps, nTxFees, mapTestPool⟩
  · cases h
    exact .inl ⟨rfl, rfl, rfl⟩
  -- The orphans that the transaction releases change the queue only.
  have hreleased : a'.vtx = a.vtx ++ [candidate.tx] ∧ a'.mapTestPool = mapTestPool ∧
      a'.nFees = wrap64 (a.nFees + nTxFees) := by
    refine foldlM_ok_induction (fun _ b => b.vtx = a.vtx ++ [candidate.tx] ∧
      b.mapTestPool = mapTestPool ∧ b.nFees = wrap64 (a.nFees + nTxFees)) ⟨rfl, rfl, rfl⟩ ?_ h
    intro _ porphan _ b b' _ hb hrelease
    unfold releaseOrphan at hrelease
    split at hrelease
    · dsimp only at hrelease
      split_ifs at hrelease <;> obtain rfl := Except.ok.inj hrelease <;> exact hb
    · simp at hrelease
  obtain ⟨hvtx, hpool, hfees⟩ := hreleased
  rw [← hpool] at hadded
  exact .inr ⟨_, nTxSigOps, nTxFees, rfl, hadded, hvtx, hfees⟩

theorem FeesSo.start {coinbase : CTransaction} {candidates : Candidates} :
    FeesSo ctx s coinbase (Assembly.start args coinbase candidates) [] := by
  refine ⟨rfl, rfl, ⟨by simp, fun hash _ => ?_⟩, by simp⟩
  change (pending s ∅ hash).map _ = _
  rw [pending, overlay_empty]

theorem FeesSo.considerTx {coinbase : CTransaction} {fProofOfStake : Bool} {nTimeCoinbase : UInt32}
    {mapDependers : UInt256 → List ℕ} {candidate : TxPriority} {rest : List TxPriority}
    (h : FeesSo ctx s coinbase a sel) (hdisk : OnDisk s.txdb.txIndex)
    (hcb : candidate.tx.IsCoinBase = false) (hcs : candidate.tx.IsCoinStake = false)
    (hstep : considerTx ctx env args s pindexPrev fProofOfStake nTimeCoinbase mapDependers
      { a with vecPriority := rest } candidate = .ok a') :
    ∃ sel', FeesSo ctx s coinbase a' sel' := by
  rcases considerTx_eq_ok hstep with
    ⟨hvtx, hpool, hfees⟩ | ⟨b, nTxSigOps, nTxFees, hb, hadded, hvtx, hfees⟩
  · refine ⟨sel, hvtx.trans h.vtx, hfees.trans h.fees, ?_, h.covered⟩
    rw [hpool]
    exact h.ledger
  have hbef := h.ledger
  rw [← hb] at hbef
  obtain ⟨rfl, hcov, hled, -⟩ := connectCandidate_eq_ok hbef hdisk hcb hcs hadded
  refine ⟨sel ++ [candidate.tx], ?_, ?_, hled, fun before tx after heq => ?_⟩
  · rw [hvtx, h.vtx, List.cons_append]
  · rw [hfees, h.fees, feesOf_concat, if_pos rfl, List.nil_append, wrap64_add_wrap64_left]
  · -- The transaction is one of those before, or the last one.
    rcases List.eq_nil_or_concat after with rfl | ⟨after, last, rfl⟩
    · obtain ⟨rfl, htx⟩ := List.append_inj' heq rfl
      rw [← List.singleton_inj.mp htx]
      exact hcov
    · rw [List.concat_eq_append, ← List.cons_append, ← List.append_assoc] at heq
      exact h.covered before tx after (List.append_inj' heq rfl).1

end

theorem ordinary_of_eligible {env : Env} {s : NodeState} {nHeight : ℕ} {tx : CTransaction}
    (h : tx ∈ eligibleTxs env s nHeight) : tx.IsCoinBase = false ∧ tx.IsCoinStake = false := by
  obtain ⟨-, hord⟩ := List.mem_filter.mp h
  simp only [Bool.not_eq_true', Bool.or_eq_false_iff] at hord
  exact hord.1

theorem createNewBlock_fees {ctx : Context} {env : Env} {args : MinerArgs}
    {reservekey : Option CKeyID} {s : NodeState} {block : CBlock} {nFees : ℤ}
    (hdisk : OnDisk s.txdb.txIndex)
    (h : CreateNewBlock ctx env args reservekey true s = .ok (some (block, nFees))) :
    ∃ pindexPrev sel, s.index s.pindexBest = .ok pindexPrev ∧
      block.vtx = baseOf env true reservekey pindexPrev :: sel ∧
      sel.Subperm (eligibleTxs env s (pindexPrev.nHeight + 1)) ∧
      nFees = wrap64 (feesOf ctx s (fun _ => true) [] sel) ∧
      ∀ before tx after, sel = before ++ tx :: after → Covered ctx s before tx := by
  obtain ⟨pindexPrev, nBits, candidates, filled, vtx, hfilled, rfl, rfl⟩ := createNewBlock_filled h
  obtain ⟨⟨sel, hfees⟩, sel', hfills⟩ := hfilled.fills
    (P := fun a => ∃ sel, FeesSo ctx s (baseOf env true reservekey pindexPrev) a sel)
    ⟨[], FeesSo.start⟩ fun a candidate rest a' _ ⟨sel, ha⟩ _ hsub hstep => by
      obtain ⟨hcb, hcs⟩ := ordinary_of_eligible (hsub.subset List.mem_concat_self)
      exact ha.considerTx hdisk hcb hcs hstep
  obtain rfl : sel = sel' := (List.cons.inj (hfees.vtx.symm.trans hfills.vtx)).2
  have hvtx : filled.vtx = vtx := Except.ok.inj hfilled.vtx_eq
  refine ⟨pindexPrev, sel, hfilled.best, ?_, ?_, hfees.fees, hfees.covered⟩
  · rw [← hfees.vtx, hvtx]
    rfl
  · exact Multiset.coe_le.mp ((Multiset.le_add_right _ _).trans hfills.held)

end ZalemCoin.Mining
