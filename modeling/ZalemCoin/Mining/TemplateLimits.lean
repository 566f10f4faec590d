import ZalemCoin.Chain.InputFailures
import ZalemCoin.Mining.CreateNewBlock

/-!
# The limits of templates

The miner bounds the size of a block by its own copy of the limit, and the signature operations by ten
times as many as a block with the lowest size limit may have. A template is a selection of the
transactions of the pool, so it is within the limits of the validator when every selection that is
small enough for the miner is.
-/

namespace ZalemCoin.Mining

open Lib Chain Script
open Multiset (le_add_right coe_add coe_singleton)
open List (map_append map_cons sum_append)

/-- The signature operations of a transaction, when all of its inputs reveal scripts. -/
def txSigOps (tx : CTransaction) : ℕ :=
  GetLegacySigOpCount tx + (tx.vin.map fun txin =>
    ((CScript.lastPushLoop txin.scriptSig.length [] txin.scriptSig).map
      fun data => CScript.GetSigOpCount data true).getD 0).sum

/-- The limits that `CheckBlock` and `ConnectBlock` apply to a block in a state: in `ConnectBlock` the
limit on signature operations is the one of the size that it computes for the block's entry. -/
structure WithinLimits (ctx : Context) (s : NodeState) (block : CBlock) : Prop where
  size : block.vtx.length ≤ s.MAX_BLOCK_SIZE ∧ block.GetSerializeSize ≤ s.MAX_BLOCK_SIZE
  sigops : (block.vtx.map GetLegacySigOpCount).sum ≤ s.MAX_BLOCK_SIGOPS
  connect : ∀ env pindex i fJustCheck size t,
    ComputeBlockSize pindex (s.setIndex pindex i) = (.ok size, t) →
      connectTransactions ctx env (t.withLimits size) block i fJustCheck
        ≠ .error (.reject 100 "ConnectBlock() : too many sigops")

/-- The transactions of the pool that the next block may have: ordinary ones that are final. -/
def eligibleTxs (env : Env) (s : NodeState) (nHeight : ℕ) : List CTransaction :=
  (poolTxs s).filter fun tx => !(tx.IsCoinBase || tx.IsCoinStake || !IsFinalTx env s tx nHeight 0)

/-- Every selection of these that is small enough for the miner fits into the limits of the validator,
with the room that the miner leaves for the rest of the block. -/
def SelectionsFit (env : Env) (args : MinerArgs) (s : NodeState) : Prop :=
  ∀ pindexPrev, s.index s.pindexBest = .ok pindexPrev → ∀ sel : List CTransaction,
    sel.Subperm (eligibleTxs env s (pindexPrev.nHeight + 1)) →
    1000 + (sel.map CTransaction.GetSerializeSize).sum ≤ args.nBlockMaxSize →
      1000 + (sel.map CTransaction.GetSerializeSize).sum ≤ s.MAX_BLOCK_SIZE ∧
      100 + (sel.map txSigOps).sum ≤ min s.MAX_BLOCK_SIGOPS (MIN_BLOCK_SIZE / 50)

/-! ## What a template is made of -/

def waitingTx : Option COrphan → List CTransaction
  | some orphan => if orphan.setDependsOn = [] then [] else [orphan.tx]
  | none => []

def held (queue : List TxPriority) (vOrphan : List (Option COrphan)) : Multiset CTransaction :=
  (queue.map TxPriority.tx : Multiset CTransaction) + (vOrphan.flatMap waitingTx : Multiset CTransaction)

variable {ctx : Context} {env : Env} {args : MinerArgs} {s : NodeState} {tx : CTransaction}

section

variable {nHeight : ℕ} {c c' : Candidates} {a a' : Assembly} {rest : List TxPriority}
  {candidate : TxPriority}

/-- Looking at a transaction of the pool adds it at most once, and not when the next block may not
have it. -/
theorem held_collectTx (h : collectTx ctx env args s nHeight c tx = .ok c') :
    held c'.vecPriority c'.vOrphan ≤ held c.vecPriority c.vOrphan + {tx} ∧
      ((tx.IsCoinBase || tx.IsCoinStake || !IsFinalTx env s tx nHeight 0) = true → c' = c) := by
  have hsame : held c.vecPriority c.vOrphan ≤ held c.vecPriority c.vOrphan + {tx} :=
    le_add_right _ _
  unfold collectTx at h
  split_ifs at h with hskip
  · cases h
    exact ⟨hsame, fun _ => rfl⟩
  · refine ⟨?_, fun h => absurd h hskip⟩
    obtain ⟨⟨scan, found⟩, -, h⟩ := bind_ok h
    dsimp only at h
    rcases found with _ | _
    · cases h
      rcases scan.setDependsOn with _ | set
      · simp [held]
      · simp [held, waitingTx]
    · rw [if_pos rfl] at h
      obtain ⟨nValueOut, -, h⟩ := bind_ok h
      rcases hset : scan.setDependsOn with _ | set
      · rw [hset] at h
        cases h
        apply le_of_eq
        simp only [held, map_append, map_cons, List.map_nil]
        rw [← coe_add, coe_singleton, add_right_comm]
      · rw [hset] at h
        cases h
        simp only [held, List.flatMap_append, List.flatMap_cons, List.flatMap_nil, List.append_nil]
        rw [← coe_add, ← add_assoc]
        refine add_le_add le_rfl ?_
        unfold waitingTx
        dsimp only
        split_ifs
        · exact bot_le
        · exact le_rfl

theorem held_collect (h : collect ctx env args s nHeight = .ok c) :
    held c.vecPriority c.vOrphan ≤ (eligibleTxs env s nHeight : Multiset CTransaction) := by
  refine foldlM_ok_induction (fun done c => held c.vecPriority c.vOrphan
    ≤ ((done.filter fun tx => !(tx.IsCoinBase || tx.IsCoinStake || !IsFinalTx env s tx nHeight 0) :
      List CTransaction) : Multiset CTransaction)) bot_le ?_ h
  intro done tx rest c c' _ hc hstep
  obtain ⟨hone, hnone⟩ := held_collectTx hstep
  rw [List.filter_append, ← coe_add]
  rcases hskip : (tx.IsCoinBase || tx.IsCoinStake || !IsFinalTx env s tx nHeight 0) with _ | _
  · rw [List.filter_singleton, hskip]
    exact hone.trans (add_le_add hc le_rfl)
  · rw [hnone hskip]
    exact hc.trans (le_add_right _ _)

theorem popHeap_perm {byFee : Bool} {queue : List TxPriority}
    (h : popHeap byFee queue = some (candidate, rest)) : (candidate :: rest).Perm queue := by
  induction queue generalizing candidate rest with
  | nil => simp [popHeap] at h
  | cons a queue ih =>
    unfold popHeap at h
    rcases hqueue : popHeap byFee queue with _ | ⟨b, others⟩
    · rw [hqueue] at h
      cases h
      have hnil : queue = [] := by
        rcases queue with _ | ⟨b, queue⟩
        · rfl
        · unfold popHeap at hqueue
          split at hqueue
          · simp at hqueue
          · split_ifs at hqueue
      rw [hnil]
    · rw [hqueue] at h
      dsimp only at h
      split_ifs at h
      · cases h
        exact (List.Perm.swap a _ _).trans ((ih hqueue).cons a)
      · cases h
        exact List.Perm.refl _

theorem releaseOrphan_eq_ok {hash : UInt256} {porphan : ℕ}
    (h : releaseOrphan hash a porphan = .ok a') :
    a'.vtx = a.vtx ∧ a'.nBlockSize = a.nBlockSize ∧
      held a'.vecPriority a'.vOrphan = held a.vecPriority a.vOrphan := by
  unfold releaseOrphan at h
  rcases hget : a.vOrphan[porphan]? with _ | _ | orphan
  · rw [hget] at h
    simp at h
  · rw [hget] at h
    simp at h
  · rw [hget] at h
    dsimp only at h
    split_ifs at h with hready hset
    · cases h
      exact ⟨rfl, rfl, rfl⟩
    -- The orphan's place is split off, since only what it holds changes.
    all_goals
      obtain ⟨hlt, horphan⟩ := List.getElem?_eq_some_iff.mp hget
      cases h
      refine ⟨rfl, rfl, ?_⟩
      have hold : a.vOrphan = a.vOrphan.take porphan ++ some orphan :: a.vOrphan.drop (porphan + 1) := by
        rw [← horphan, ← List.drop_eq_getElem_cons hlt, List.take_append_drop]
      rw [List.set_eq_take_append_cons_drop, if_pos hlt]
      conv_rhs => rw [hold]
      simp only [held, List.flatMap_append, List.flatMap_cons, map_append, map_cons,
        List.map_nil, waitingTx, if_neg hready]
    · rw [if_pos hset]
      simp only [← coe_add, List.nil_append, coe_singleton]
      ac_rfl
    · rw [if_neg hset]

/-- What the loop over the candidates keeps: the block is a selection of the pool, whose size is
counted, and no larger than the miner is willing to create. -/
structure Fills (args : MinerArgs) (pool : List CTransaction) (coinbase : CTransaction)
    (a : Assembly) (sel : List CTransaction) : Prop where
  vtx : a.vtx = coinbase :: sel
  size : a.nBlockSize = 1000 + (sel.map CTransaction.GetSerializeSize).sum
  bound : a.nBlockSize ≤ args.nBlockMaxSize
  held : (sel : Multiset CTransaction) + held a.vecPriority a.vOrphan
    ≤ (pool : Multiset CTransaction)

theorem Fills.considerTx {pindexPrev : CBlockIndex} {fProofOfStake : Bool} {nTimeCoinbase : UInt32}
    {mapDependers : UInt256 → List ℕ} {coinbase : CTransaction} {pool sel : List CTransaction}
    (hfills : Fills args pool coinbase a sel) (hpop : (candidate :: rest).Perm a.vecPriority)
    (h : considerTx ctx env args s pindexPrev fProofOfStake nTimeCoinbase mapDependers
      { a with vecPriority := rest } candidate = .ok a') :
    ∃ sel', Fills args pool coinbase a' sel' := by
  have hqueue : Mining.held a.vecPriority a.vOrphan
      = {candidate.tx} + Mining.held rest a.vOrphan := by
    unfold Mining.held
    rw [← Multiset.coe_eq_coe.mpr (hpop.map TxPriority.tx), map_cons, ← Multiset.cons_coe,
      ← Multiset.singleton_add, add_assoc]
  have hheld := hfills.held
  rw [hqueue] at hheld
  have hdropped : (sel : Multiset CTransaction) + Mining.held rest a.vOrphan
      ≤ (pool : Multiset CTransaction) :=
    (add_le_add le_rfl (Multiset.le_add_left _ _)).trans hheld
  unfold Mining.considerTx at h
  split_ifs at h with hskip
  · cases h
    exact ⟨sel, ⟨hfills.vtx, hfills.size, hfills.bound, hdropped⟩⟩
  obtain ⟨added, -, h⟩ := bind_ok h
  rcases added with _ | ⟨nTxSigOps, nTxFees, mapTestPool⟩
  · cases h
    exact ⟨sel, ⟨hfills.vtx, hfills.size, hfills.bound, hdropped⟩⟩
  have hsmall : a.nBlockSize + candidate.tx.GetSerializeSize < args.nBlockMaxSize := by
    unfold skipped at hskip
    simp only [Bool.or_eq_true, decide_eq_true_eq, not_or] at hskip
    omega
  -- The orphans that the transaction releases stay what the loop holds.
  have hstart : ∃ sel', Fills args pool coinbase
      { a with
        vtx := a.vtx ++ [candidate.tx]
        mapTestPool := mapTestPool
        nBlockSize := a.nBlockSize + candidate.tx.GetSerializeSize
        nBlockSigOps := a.nBlockSigOps + nTxSigOps
        nFees := wrap64 (a.nFees + nTxFees)
        fSortedByFee := a.fSortedByFee || decide (args.nBlockPrioritySize
          ≤ a.nBlockSize + candidate.tx.GetSerializeSize) ||
          decide (candidate.dPriority < ((COIN * 144).tdiv 250 : ℤ))
        vecPriority := rest } sel' := by
    refine ⟨sel ++ [candidate.tx], ?_, ?_, hsmall.le, ?_⟩
    · dsimp only
      rw [hfills.vtx, List.cons_append]
    · dsimp only
      rw [hfills.size, map_append, sum_append, List.map_singleton, List.sum_singleton, add_assoc]
    · rw [← coe_add, coe_singleton, add_assoc]
      exact hheld
  refine foldlM_ok_induction (fun _ a => ∃ sel', Fills args pool coinbase a sel') hstart ?_ h
  intro _ _ _ b b' _ hb hstep
  obtain ⟨sel', hb⟩ := hb
  obtain ⟨hvtx, hsize, hsame⟩ := releaseOrphan_eq_ok hstep
  refine ⟨sel', ?_, ?_, ?_, ?_⟩
  · rw [hvtx, hb.vtx]
  · rw [hsize, hb.size]
  · rw [hsize]
    exact hb.bound
  · rw [hsame]
    exact hb.held

theorem Fills.subperm {coinbase : CTransaction} {pool sel : List CTransaction}
    (hfills : Fills args pool coinbase a sel) (hpop : (candidate :: rest).Perm a.vecPriority) :
    (sel ++ [candidate.tx]).Subperm pool := by
  apply Multiset.coe_le.mp
  refine le_trans ?_ hfills.held
  refine add_le_add le_rfl (Multiset.singleton_le.mpr (Multiset.mem_add.mpr (.inl ?_)))
  exact Multiset.mem_coe.mpr (List.mem_map_of_mem (hpop.subset List.mem_cons_self))

theorem fillBlock_induction {consider : Assembly → TxPriority → Except Failure Assembly}
    {P : Assembly → Prop} (step : ∀ a candidate rest a', P a →
      popHeap a.fSortedByFee a.vecPriority = some (candidate, rest) →
        consider { a with vecPriority := rest } candidate = .ok a' → P a') {fuel : ℕ} (ha : P a)
    (h : fillBlock consider fuel a = .ok a') : P a' := by
  induction fuel generalizing a with
  | zero =>
    unfold fillBlock at h
    split at h
    · cases h
      exact ha
    · simp at h
  | succ fuel ih =>
    unfold fillBlock at h
    rcases hpop : popHeap a.fSortedByFee a.vecPriority with _ | ⟨candidate, rest⟩
    · rw [hpop] at h
      cases h
      exact ha
    · rw [hpop] at h
      obtain ⟨b, hstep, h⟩ := bind_ok h
      exact ih (step a candidate rest b ha hpop hstep) h

end

/-- The coinbase of a template, before it is paid. -/
def baseOf (env : Env) (fProofOfStake : Bool) (reservekey : Option CKeyID) (pindexPrev : CBlockIndex) :
    CTransaction :=
  templateCoinbase env (pindexPrev.nHeight + 1) (if fProofOfStake then none else reservekey)

/-- What a template is: a coinbase and a selection of the pool that is small enough for the miner, with
a header for the block after the best one. -/
structure IsTemplate (ctx : Context) (env : Env) (args : MinerArgs) (reservekey : Option CKeyID)
    (fProofOfStake : Bool) (s : NodeState) (pindexPrev : CBlockIndex) (nBits : UInt32)
    (coinbase : CTransaction) (sel : List CTransaction) (block : CBlock) : Prop where
  best : s.index s.pindexBest = .ok pindexPrev
  key : fProofOfStake = true ∨ reservekey ≠ none
  short : ∀ txin ∈ (baseOf env fProofOfStake reservekey pindexPrev).vin, txin.scriptSig.length ≤ 100
  target : GetNextTargetRequired ctx s (s.pindexBest.getD 0) fProofOfStake = .ok nBits
  coinbase_eq : coinbase = baseOf env fProofOfStake reservekey pindexPrev ∨ fProofOfStake = false ∧
    ∃ nReward, coinbase = payReward nReward (baseOf env fProofOfStake reservekey pindexPrev)
  selection : sel.Subperm (eligibleTxs env s (pindexPrev.nHeight + 1))
  small : 1000 + (sel.map CTransaction.GetSerializeSize).sum ≤ args.nBlockMaxSize
  block_eq : block = templateBlock env (s.pindexBest.getD 0) pindexPrev nBits fProofOfStake
    (coinbase :: sel)

/-- The candidates and the filled block from which `CreateNewBlock` makes a template. -/
structure FilledTemplate (ctx : Context) (env : Env) (args : MinerArgs) (reservekey : Option CKeyID)
    (fProofOfStake : Bool) (s : NodeState) (pindexPrev : CBlockIndex) (nBits : UInt32)
    (candidates : Candidates) (filled : Assembly) (vtx : List CTransaction) : Prop where
  best : s.index s.pindexBest = .ok pindexPrev
  key : fProofOfStake = true ∨ reservekey ≠ none
  short : ∀ txin ∈ (baseOf env fProofOfStake reservekey pindexPrev).vin, txin.scriptSig.length ≤ 100
  target : GetNextTargetRequired ctx s (s.pindexBest.getD 0) fProofOfStake = .ok nBits
  candidates_eq : collect ctx env args s (pindexPrev.nHeight + 1) = .ok candidates
  filled_eq : fillBlock (considerTx ctx env args s pindexPrev fProofOfStake
      (baseOf env fProofOfStake reservekey pindexPrev).nTime candidates.mapDependers)
    (poolTxs s).length
    (Assembly.start args (baseOf env fProofOfStake reservekey pindexPrev) candidates) = .ok filled
  vtx_eq : rewardedVtx ctx s (pindexPrev.nHeight + 1) fProofOfStake filled = .ok vtx

variable {reservekey : Option CKeyID} {fProofOfStake : Bool}

theorem createNewBlock_filled {block : CBlock} {nFees : ℤ}
    (h : CreateNewBlock ctx env args reservekey fProofOfStake s = .ok (some (block, nFees))) :
    ∃ pindexPrev nBits candidates filled vtx,
      FilledTemplate ctx env args reservekey fProofOfStake s pindexPrev nBits candidates filled vtx ∧
        block = templateBlock env (s.pindexBest.getD 0) pindexPrev nBits fProofOfStake vtx ∧
        nFees = filled.nFees := by
  obtain ⟨pindexPrev, hbest, h⟩ := bind_ok h
  by_cases hkey : fProofOfStake = false ∧ reservekey = none
  · rw [if_pos hkey] at h
    simp [pure, Except.pure] at h
  rw [if_neg hkey] at h
  obtain ⟨hshort, h⟩ := ensure_ok h
  obtain ⟨nBits, htgt, h⟩ := bind_ok h
  obtain ⟨candidates, hcands, h⟩ := bind_ok h
  obtain ⟨filled, hfilled, h⟩ := bind_ok h
  obtain ⟨vtx, hvtx, h⟩ := bind_ok h
  obtain ⟨hblock, hfees⟩ := Prod.mk.inj (Option.some.inj (Except.ok.inj h))
  have hkey' : fProofOfStake = true ∨ reservekey ≠ none := by
    rcases fProofOfStake with _ | _
    · exact .inr fun hnone => hkey ⟨rfl, hnone⟩
    · exact .inl rfl
  exact ⟨pindexPrev, nBits, candidates, filled, vtx, ⟨hbest, hkey', hshort, htgt,
    hcands, hfilled, hvtx⟩, hblock.symm, hfees.symm⟩

theorem Fills.start {nHeight : ℕ} {coinbase : CTransaction} {candidates : Candidates}
    (h : collect ctx env args s nHeight = .ok candidates) :
    Fills args (eligibleTxs env s nHeight) coinbase (Assembly.start args coinbase candidates) [] := by
  refine ⟨rfl, rfl, le_max_left _ _, ?_⟩
  exact held_collect h

theorem FilledTemplate.fills {pindexPrev : CBlockIndex} {nBits : UInt32} {candidates : Candidates}
    {filled : Assembly} {vtx : List CTransaction}
    (h : FilledTemplate ctx env args reservekey fProofOfStake s pindexPrev nBits candidates filled
      vtx) {P : Assembly → Prop}
    (hstart : P (Assembly.start args (baseOf env fProofOfStake reservekey pindexPrev) candidates))
    (hstep : ∀ a candidate rest a' sel, P a →
      a.vtx = baseOf env fProofOfStake reservekey pindexPrev :: sel →
      (sel ++ [candidate.tx]).Subperm (eligibleTxs env s (pindexPrev.nHeight + 1)) →
      considerTx ctx env args s pindexPrev fProofOfStake
        (baseOf env fProofOfStake reservekey pindexPrev).nTime candidates.mapDependers
        { a with vecPriority := rest } candidate = .ok a' → P a') :
    P filled ∧ ∃ sel, Fills args (eligibleTxs env s (pindexPrev.nHeight + 1))
      (baseOf env fProofOfStake reservekey pindexPrev) filled sel := by
  refine fillBlock_induction (P := fun a => P a ∧ ∃ sel,
    Fills args (eligibleTxs env s (pindexPrev.nHeight + 1))
      (baseOf env fProofOfStake reservekey pindexPrev) a sel) ?_ ⟨hstart, [], ?_⟩ h.filled_eq
  · rintro a candidate rest a' ⟨ha, sel, hfills⟩ hpop hconsider
    have hperm := popHeap_perm hpop
    exact ⟨hstep a candidate rest a' sel ha hfills.vtx (hfills.subperm hperm) hconsider,
      hfills.considerTx hperm hconsider⟩
  · exact Fills.start h.candidates_eq

theorem createNewBlock_eq_ok {block : CBlock} {nFees : ℤ}
    (h : CreateNewBlock ctx env args reservekey fProofOfStake s = .ok (some (block, nFees))) :
    ∃ pindexPrev nBits coinbase sel,
      IsTemplate ctx env args reservekey fProofOfStake s pindexPrev nBits coinbase sel block := by
  obtain ⟨pindexPrev, nBits, candidates, filled, vtx, hfilled, hblock, -⟩ := createNewBlock_filled h
  obtain ⟨-, sel, hfills⟩ := hfilled.fills (P := fun _ => True) trivial fun _ _ _ _ _ _ _ _ _ => trivial
  have hsel : sel.Subperm (eligibleTxs env s (pindexPrev.nHeight + 1)) :=
    Multiset.coe_le.mp ((le_add_right _ _).trans hfills.held)
  have hsmall := hfills.bound
  rw [hfills.size] at hsmall
  have hvtx := hfilled.vtx_eq
  unfold rewardedVtx at hvtx
  rw [hfills.vtx] at hvtx
  split_ifs at hvtx with hstake
  · cases hvtx
    exact ⟨pindexPrev, nBits, _, sel, hfilled.best, hfilled.key, hfilled.short, hfilled.target,
      .inl rfl, hsel, hsmall, hblock⟩
  · obtain ⟨nReward, -, hvtx⟩ := bind_ok hvtx
    cases hvtx
    exact ⟨pindexPrev, nBits, _, sel, hfilled.best, hfilled.key, hfilled.short, hfilled.target,
      .inr ⟨Bool.eq_false_iff.mpr hstake, nReward, rfl⟩, hsel, hsmall, hblock⟩

/-! ## The size of a template -/

theorem getSizeOfCompactSize_le (n : ℕ) : GetSizeOfCompactSize n ≤ 9 := by
  unfold GetSizeOfCompactSize
  split_ifs <;> omega

theorem sigOpCount_payToKey (id : CKeyID) :
    CScript.GetSigOpCount (GetScriptForDestination (.keyID id)) false = 1 := by
  rfl

theorem sigOpCount_heightScript {nHeight : ℕ} (h : nHeight < 2 ^ 31) :
    CScript.GetSigOpCount (heightScript nHeight) false = 0 := by
  unfold heightScript
  split_ifs with hsmall
  · have hall : ∀ n ≤ 16, 1 ≤ n → CScript.GetSigOpCount [UInt8.ofNat n + (OP_1 - 1)] false = 0 := by
      decide
    exact hall nHeight hsmall.2 hsmall.1
  dsimp only
  generalize hvch : (if (leBytes nHeight nHeight).getLast?.any (0x80 ≤ ·)
    then leBytes nHeight nHeight ++ [0] else leBytes nHeight nHeight) = vch
  have hlen : vch.length ≤ 5 := by
    have hbytes := @length_leBytes nHeight nHeight 4 (by omega)
    rw [← hvch]
    split_ifs
    · rw [List.length_append, List.length_singleton]
      omega
    · omega
  -- The script is a single push of all of these bytes.
  have hbyte : ∀ n ≤ 5, UInt8.ofNat n ≤ OP_PUSHDATA4 ∧ UInt8.ofNat n < OP_PUSHDATA1 ∧
      (UInt8.ofNat n).toNat = n ∧ sigOpsOf false OP_INVALIDOPCODE (UInt8.ofNat n) = 0 := by
    decide
  obtain ⟨hle, hlt, hnat, hops⟩ := hbyte _ hlen
  have hop : GetOp (UInt8.ofNat vch.length) vch = ⟨some (UInt8.ofNat vch.length), vch, []⟩ := by
    unfold GetOp pushSize
    rw [if_pos hle, if_pos hlt, hnat]
    dsimp only
    rw [if_neg (lt_irrefl _), List.take_length, List.drop_length]
  unfold CScript.GetSigOpCount
  rw [List.length_cons, sigOpCountLoop, hop]
  dsimp only
  rw [hops, zero_add]
  cases vch.length <;> rfl

/-- What the room that the miner leaves has to hold. -/
structure SmallCoinbase (coinbase : CTransaction) : Prop where
  isCoinBase : coinbase.IsCoinBase = true
  size : coinbase.GetSerializeSize ≤ 900
  sigops : GetLegacySigOpCount coinbase ≤ 100

theorem smallCoinbase_baseOf {pindexPrev : CBlockIndex} (hheight : pindexPrev.nHeight + 1 < 2 ^ 31)
    (hshort : ∀ txin ∈ (baseOf env fProofOfStake reservekey pindexPrev).vin, txin.scriptSig.length ≤ 100) :
    SmallCoinbase (baseOf env fProofOfStake reservekey pindexPrev) := by
  unfold baseOf at hshort ⊢
  generalize (if fProofOfStake then none else reservekey) = payTo at hshort ⊢
  rcases payTo with _ | id
  · have hscr : (heightScript (pindexPrev.nHeight + 1)).length ≤ 100 := hshort _ List.mem_cons_self
    have hprefix := getSizeOfCompactSize_le (heightScript (pindexPrev.nHeight + 1)).length
    refine ⟨rfl, ?_, ?_⟩
    · show 4 + 4 + (1 + (36 + (GetSizeOfCompactSize (heightScript (pindexPrev.nHeight + 1)).length
        + (heightScript (pindexPrev.nHeight + 1)).length) + 4 + 0)) + (1 + (8 + (1 + 0) + 0)) + 4
          ≤ 900
      omega
    · show CScript.GetSigOpCount (heightScript (pindexPrev.nHeight + 1)) false + 0 + (0 + 0) ≤ 100
      rw [sigOpCount_heightScript hheight]
      omega
  · refine ⟨rfl, ?_, ?_⟩
    · show 4 + 4 + (1 + (36 + (1 + 0) + 4 + 0)) + (1 + (8 + (1 + 25) + 0)) + 4 ≤ 900
      omega
    · show 0 + 0 + (CScript.GetSigOpCount (GetScriptForDestination (.keyID id)) false + 0) ≤ 100
      rw [sigOpCount_payToKey]
      omega

theorem SmallCoinbase.payReward {coinbase : CTransaction} (h : SmallCoinbase coinbase)
    (nReward : ℤ) : SmallCoinbase (payReward nReward coinbase) := by
  constructor
  · have hcb := h.isCoinBase
    unfold CTransaction.IsCoinBase Mining.payReward at *
    rwa [List.length_map]
  · have hsize := h.size
    unfold CTransaction.GetSerializeSize Mining.payReward at *
    rw [List.length_map, List.map_map]
    exact hsize
  · have hsigops := h.sigops
    unfold GetLegacySigOpCount Mining.payReward at *
    rw [List.map_map]
    exact hsigops

/-! ## The signature operations that are counted -/

/-- The scripts that a transaction reveals have at least the signature operations that are counted
for them. -/
theorem getP2SHSigOpCount_le {inputs : MapPrevTx} {n : ℕ}
    (h : GetP2SHSigOpCount inputs tx = .ok n) : GetLegacySigOpCount tx + n ≤ txSigOps tx := by
  have hrevealed : n ≤ (tx.vin.map fun txin =>
      ((CScript.lastPushLoop txin.scriptSig.length [] txin.scriptSig).map
        fun data => CScript.GetSigOpCount data true).getD 0).sum := by
    unfold GetP2SHSigOpCount at h
    split_ifs at h
    · cases h
      exact Nat.zero_le _
    · refine foldlM_ok_induction (fun done n => n ≤ (done.map fun txin =>
        ((CScript.lastPushLoop txin.scriptSig.length [] txin.scriptSig).map
          fun data => CScript.GetSigOpCount data true).getD 0).sum) (Nat.zero_le _) ?_ h
      intro done txin rest m m' _ hm hstep
      obtain ⟨prevout, -, hstep⟩ := bind_ok hstep
      cases hstep
      rw [map_append, sum_append, List.map_singleton, List.sum_singleton]
      split_ifs with hp2sh
      · unfold CScript.GetSigOpCountWith
        rw [if_pos hp2sh]
        rcases CScript.lastPushLoop txin.scriptSig.length [] txin.scriptSig with _ | data
        · exact Nat.add_le_add_right hm 0
        · exact Nat.add_le_add_right hm _
      · exact hm.trans (Nat.le_add_right _ _)
  unfold txSigOps
  omega

/-- The most that `ConnectBlock` counts for a transaction. -/
def countedSigOps (tx : CTransaction) : ℕ :=
  if tx.IsCoinBase then GetLegacySigOpCount tx else txSigOps tx

def tooManySigOps : Failure := .reject 100 "ConnectBlock() : too many sigops"

section

variable {inputs : MapPrevTx}

theorem tooManySigOps_not_input : ¬InputFailure tooManySigOps := by
  simp [InputFailure, tooManySigOps, Failure.text, inputTexts]

theorem pure_ne {α : Type} {x : α} : (pure x : Except Failure α) ≠ .error tooManySigOps := by
  simp [pure, Except.pure]

variable {i : CBlockIndex} {fJustCheck : Bool}

theorem connectTransaction_ne {acc : ConnectAcc}
    (hfits : acc.nSigOps + countedSigOps tx ≤ s.MAX_BLOCK_SIGOPS) :
    connectTransaction ctx env s i fJustCheck acc tx ≠ .error tooManySigOps := by
  have hlegacy : acc.nSigOps + GetLegacySigOpCount tx ≤ s.MAX_BLOCK_SIGOPS := by
    unfold countedSigOps txSigOps at hfits
    split_ifs at hfits <;> omega
  unfold connectTransaction
  dsimp only
  rw [ensure, if_pos hlegacy]
  apply except_bind_ne_error (by simp)
  intro _
  refine except_bind_ne_error ?_ fun _ => pure_ne
  unfold countedSigOps at hfits
  rcases htype : tx.IsCoinBase with _ | _
  · rw [cond_false]
    rw [htype, if_neg Bool.false_ne_true] at hfits
    unfold connectSpending
    apply except_bind_ne_error (failsAsInputs_fetchInputs.ne tooManySigOps_not_input)
    intro mapInputs h
    rcases except_bind_eq_error.mp h with h | ⟨nP2SH, hcnt, h⟩
    · exact failsAsInputs_getP2SHSigOpCount.ne tooManySigOps_not_input h
    · have hle := getP2SHSigOpCount_le hcnt
      dsimp only at h
      rw [ensure, if_pos (by omega)] at h
      refine except_bind_ne_error (by simp) (fun _ => ?_) h
      apply except_bind_ne_error (failsAsInputs_getValueIn.ne tooManySigOps_not_input)
      intro _
      apply except_bind_ne_error (failsAsInputs_getValueOut.ne tooManySigOps_not_input)
      intro _
      apply except_bind_ne_error (failsAsInputs_connectInputs.ne tooManySigOps_not_input)
      exact fun _ => pure_ne
  · rw [cond_true]
    apply except_bind_ne_error (failsAsInputs_getValueOut.ne tooManySigOps_not_input)
    exact fun _ => pure_ne

theorem connectTransaction_nSigOps {acc acc' : ConnectAcc}
    (h : connectTransaction ctx env s i fJustCheck acc tx = .ok acc') :
    acc'.nSigOps ≤ acc.nSigOps + countedSigOps tx := by
  unfold countedSigOps
  obtain ⟨_, summed, rfl, ⟨hcb, hsum⟩ | ⟨hcb, hsum⟩, rfl⟩ := connectTransaction_cases h
  · unfold connectCoinBase at hsum
    obtain ⟨nTxValueOut, -, hsum⟩ := bind_ok hsum
    cases hsum
    rw [hcb, if_pos rfl]
  · obtain ⟨_, nP2SH, _, _, _, -, hcnt, -, -, -, rfl⟩ := connectSpending_eq_ok hsum
    have hle := getP2SHSigOpCount_le hcnt
    rw [hcb, if_neg Bool.false_ne_true]
    show acc.nSigOps + GetLegacySigOpCount tx + nP2SH ≤ acc.nSigOps + txSigOps tx
    omega

theorem connectTransactions_ne {block : CBlock}
    (hfits : (block.vtx.map countedSigOps).sum ≤ s.MAX_BLOCK_SIGOPS) :
    connectTransactions ctx env s block i fJustCheck ≠ .error tooManySigOps := by
  apply foldlM_ne_error fun done acc => acc.nSigOps ≤ (done.map countedSigOps).sum
  · exact Nat.zero_le _
  · intro done tx rest acc acc' _ hacc hstep
    have hle := connectTransaction_nSigOps hstep
    rw [map_append, sum_append, List.map_singleton, List.sum_singleton]
    omega
  · intro done tx rest acc hblock hacc
    apply connectTransaction_ne
    rw [hblock, map_append, sum_append, map_cons, List.sum_cons] at hfits
    omega

end

theorem min_le_computeBlockSize {p : UInt256} {s' : NodeState} {size : ℕ}
    (h : ComputeBlockSize p s = (.ok size, s')) : MIN_BLOCK_SIZE ≤ size := by
  obtain ⟨proposed, t, -, h⟩ := Action.bind_eq_ok.mp h
  split_ifs at h
  · obtain rfl := Except.ok.inj (Prod.mk.inj h).1
    exact le_max_right _ _
  · obtain rfl := Except.ok.inj (Prod.mk.inj h).1
    exact le_rfl

/-- When every selection of the pool that is small enough for the miner fits into the limits of the
validator, the template is within them. -/
theorem template_withinLimits {ctx : Context} {env : Env} {args : MinerArgs}
    {reservekey : Option CKeyID} {fProofOfStake : Bool} {s : NodeState} {block : CBlock} {nFees : ℤ}
    (hheight : ∀ pindexPrev, s.index s.pindexBest = .ok pindexPrev → pindexPrev.nHeight + 1 < 2 ^ 31)
    (hfit : SelectionsFit env args s)
    (h : CreateNewBlock ctx env args reservekey fProofOfStake s = .ok (some (block, nFees))) :
    WithinLimits ctx s block := by
  obtain ⟨pindexPrev, nBits, coinbase, sel, htemplate⟩ := createNewBlock_eq_ok h
  have hbase := smallCoinbase_baseOf (hheight _ htemplate.best) htemplate.short
  have hcoinbase : SmallCoinbase coinbase := by
    rcases htemplate.coinbase_eq with rfl | ⟨-, nReward, rfl⟩
    · exact hbase
    · exact hbase.payReward nReward
  have hsmall := hcoinbase.size
  have hfew := hcoinbase.sigops
  obtain ⟨hsize, hsigops⟩ :=
    hfit pindexPrev htemplate.best sel htemplate.selection htemplate.small
  have hvtx : block.vtx = coinbase :: sel := by
    rw [htemplate.block_eq]
    rfl
  have hcounted : (block.vtx.map countedSigOps).sum
      ≤ GetLegacySigOpCount coinbase + (sel.map txSigOps).sum := by
    rw [hvtx, List.map_cons, List.sum_cons, countedSigOps, if_pos hcoinbase.isCoinBase]
    apply Nat.add_le_add_left
    apply List.sum_le_sum
    intro tx _
    unfold countedSigOps txSigOps
    split_ifs <;> omega
  refine ⟨⟨?_, ?_⟩, ?_, ?_⟩
  · have hlength : sel.length ≤ (sel.map CTransaction.GetSerializeSize).sum := by
      rw [← List.length_map]
      apply List.length_le_sum_of_one_le
      intro n hn
      obtain ⟨tx, -, rfl⟩ := List.mem_map.mp hn
      unfold CTransaction.GetSerializeSize
      omega
    rw [hvtx, List.length_cons]
    omega
  · have hprefix := getSizeOfCompactSize_le block.vtx.length
    have hsig : bytesSize block.vchBlockSig = 1 := by
      rw [htemplate.block_eq]
      rfl
    unfold CBlock.GetSerializeSize
    rw [hsig]
    have hsum : (block.vtx.map CTransaction.GetSerializeSize).sum
        = coinbase.GetSerializeSize + (sel.map CTransaction.GetSerializeSize).sum := by
      rw [hvtx, List.map_cons, List.sum_cons]
    omega
  · have hlegacy : (block.vtx.map GetLegacySigOpCount).sum ≤ (block.vtx.map countedSigOps).sum := by
      apply List.sum_le_sum
      intro tx _
      unfold countedSigOps txSigOps
      split_ifs <;> omega
    omega
  · intro env' pindex i fJustCheck size t hcompute
    apply connectTransactions_ne
    have hmin := min_le_computeBlockSize hcompute
    have hlimit : (t.withLimits size).MAX_BLOCK_SIGOPS = size / 50 := rfl
    have hdiv : MIN_BLOCK_SIZE / 50 ≤ size / 50 := Nat.div_le_div_right hmin
    omega

/-! ## A template within the limits, and one that is not -/

def minerNode : NodeState :=
  { chainedNode with
    mapBlockIndex := Function.update (fun _ => none) 1 (some (plainIndex 1 0 none fundedBlock))
    txdb := ⟨chainedNode.txdb.disk, none⟩ }

def minerTx (scriptPubKey : CScript) : CTransaction :=
  plainTx 21 [inputOf 11 0] [⟨49 * COIN, scriptPubKey⟩]

def poolNode (scriptPubKey : CScript) : NodeState :=
  (AcceptToMemoryPool (chainedContext true) (plainEnv 2000) (minerTx scriptPubKey) true false false
    minerNode).2

def plainArgs : MinerArgs := ⟨none, none, none, none, false⟩

def nextIndex (block : CBlock) : CBlockIndex := plainIndex 2 1 (some 1) block

theorem template_of_eval {P : CBlock → Bool}
    (h : ((CreateNewBlock (chainedContext true) (plainEnv 2000) plainArgs none true s).toOption.bind
      id).map (fun created => P created.1) = some true) :
    ∃ block nFees, CreateNewBlock (chainedContext true) (plainEnv 2000) plainArgs none true s
      = .ok (some (block, nFees)) ∧ P block = true := by
  obtain ⟨⟨block, nFees⟩, hcre, hP⟩ := Option.map_eq_some_iff.mp h
  rcases hres : CreateNewBlock (chainedContext true) (plainEnv 2000) plainArgs none true s
    with e | created
  · rw [hres] at hcre
    simp [Except.toOption] at hcre
  · rw [hres] at hcre
    exact ⟨block, nFees, congrArg Except.ok hcre, hP⟩

/-- The template of a node whose pool has a transaction with one operation is within the limits. -/
theorem smallTemplate_withinLimits :
    ∃ block, block.vtx.length = 2 ∧
      WithinLimits (chainedContext true) (poolNode [OP_1]) block := by
  obtain ⟨block, nFees, hcreated, hlength⟩ :=
    @template_of_eval (poolNode [OP_1]) (fun block => block.vtx.length == 2) (by decide)
  have hbest : ∀ pindexPrev, (poolNode [OP_1]).index (poolNode [OP_1]).pindexBest = .ok pindexPrev →
      pindexPrev = plainIndex 1 0 none fundedBlock := fun _ h => (Except.ok.inj h).symm
  have hfit : SelectionsFit (plainEnv 2000) plainArgs (poolNode [OP_1]) := by
    intro pindexPrev h sel hsel _
    obtain rfl := hbest pindexPrev h
    rcases List.subperm_singleton_iff.mp hsel with rfl | rfl <;> decide
  refine ⟨block, by simpa using hlength, template_withinLimits (fun pindexPrev h => ?_) hfit hcreated⟩
  obtain rfl := hbest pindexPrev h
  decide

def sigOpsScript : CScript := List.replicate 2100 OP_CHECKMULTISIG

def failsForSigOps : Except Failure ConnectAcc → Bool
  | .error e => decide (e = tooManySigOps)
  | .ok _ => false

/-- The node whose pool has accepted a transaction with that script has it in its template, and
`ConnectBlock` refuses the block. -/
theorem template_exceeds_limits :
    ¬ ∀ (ctx : Context) (env : Env) (args : MinerArgs) (reservekey : Option CKeyID)
      (fProofOfStake : Bool) (s : NodeState) (block : CBlock) (nFees : ℤ),
      CreateNewBlock ctx env args reservekey fProofOfStake s = .ok (some (block, nFees)) →
        WithinLimits ctx s block := by
  intro h
  obtain ⟨block, nFees, hcreated, hrefused⟩ := @template_of_eval (poolNode sigOpsScript)
    (fun block =>
      (ComputeBlockSize 2 ((poolNode sigOpsScript).setIndex 2 (nextIndex block))).1.toOption
        == some MIN_BLOCK_SIZE &&
      failsForSigOps (connectTransactions (chainedContext true) (plainEnv 2000)
        ((ComputeBlockSize 2 ((poolNode sigOpsScript).setIndex 2 (nextIndex block))).2.withLimits
          MIN_BLOCK_SIZE) block (nextIndex block) false)) (by decide +kernel)
  obtain ⟨hsize, hrefused⟩ := Bool.and_eq_true_iff.mp hrefused
  have hsize : (ComputeBlockSize 2 ((poolNode sigOpsScript).setIndex 2 (nextIndex block))).1
      = .ok MIN_BLOCK_SIZE := by
    generalize (ComputeBlockSize 2 ((poolNode sigOpsScript).setIndex 2 (nextIndex block))).1 = r
      at hsize
    rcases r with e | size
    · simp [Except.toOption] at hsize
    · simpa [Except.toOption] using hsize
  apply (h _ _ _ _ _ _ _ _ hcreated).connect (plainEnv 2000) 2 (nextIndex block) false
    MIN_BLOCK_SIZE _ (Action.eq_of_fst hsize)
  cases hconnect : connectTransactions (chainedContext true) (plainEnv 2000)
      ((ComputeBlockSize 2 ((poolNode sigOpsScript).setIndex 2 (nextIndex block))).2.withLimits
        MIN_BLOCK_SIZE) block (nextIndex block) false with
  | error e =>
    rw [hconnect] at hrefused
    rw [of_decide_eq_true hrefused]
    rfl
  | ok acc =>
    rw [hconnect] at hrefused
    exact Bool.noConfusion hrefused

end ZalemCoin.Mining
