import ZalemCoin.Chain.BestChain
import ZalemCoin.Chain.PoolRemoval

/-!
# Missing inputs

`AcceptToMemoryPool` tells its caller when it has refused a transaction because a previous transaction
is missing. It looks for the previous transactions in the transaction index only, and before
`FetchInputs`, which looks for them in the memory pool too. So a transaction that spends from one in
the pool is reported as one with a missing input, and it is never accepted; nothing else goes wrong.
-/

namespace ZalemCoin.Chain

open Lib

variable (ctx : Context)

/-- What `AcceptToMemoryPool` leaves in `*pfMissingInputs`. -/
def pfMissingInputs (s : NodeState) (tx : CTransaction) : Bool :=
  match checkLoose ctx s tx with
  | .error _ => false
  | .ok () =>
    if s.txdb.ContainsTx (ctx.hashTx tx) then false
    else tx.vin.any fun txin => !s.txdb.ContainsTx txin.prevout.hash

/-- The checks of `AcceptToMemoryPool` that come after the previous transactions have been found in
the transaction index. -/
def checkFetched (env : Env) (s : NodeState) (tx : CTransaction)
    (fLimitFree fRejectInsaneFee ignoreFees : Bool) : Except Failure Unit := do
  let mapInputs ← FetchInputs ctx s ∅ ⟨false, false⟩ tx
  ensure (ctx.network = .testnet ∨
      ctx.areInputsStandard tx fun hash => (mapInputs.lookup hash).map Prod.snd)
    (.error "AcceptToMemoryPool : nonstandard transaction input")
  let nP2SH ← GetP2SHSigOpCount mapInputs tx
  ensure (GetLegacySigOpCount tx + nP2SH ≤ s.MAX_TX_SIGOPS)
    (.error "AcceptToMemoryPool : too many sigops")
  let nValueIn ← GetValueIn mapInputs tx
  let nValueOut ← tx.GetValueOut
  let nFees := wrap64 (nValueIn - nValueOut)
  checkRelayFees ctx env tx nFees fLimitFree ignoreFees
  ensure (¬(fRejectInsaneFee ∧ MIN_RELAY_TX_FEE * 10000 < nFees))
    (.error "AcceptableInputs: : insane fees")
  let connect := ConnectInputs ctx env s tx mapInputs ∅ CDiskTxPos.memoryPool
    (s.pindexBest.bind s.mapBlockIndex) ⟨false, false⟩
  let _ ← connect STANDARD_SCRIPT_VERIFY_FLAGS
  let _ ← connect MANDATORY_SCRIPT_VERIFY_FLAGS
  pure ()

def Available (s : NodeState) (txin : CTxIn) : Prop :=
  s.txdb.ContainsTx txin.prevout.hash = true ∨ s.mempool.existsTx txin.prevout.hash = true

instance (s : NodeState) (txin : CTxIn) : Decidable (Available s txin) :=
  inferInstanceAs (Decidable (_ ∨ _))

def SpendsFromPool (s : NodeState) (tx : CTransaction) : Prop :=
  (∀ txin ∈ tx.vin, Available s txin) ∧
    ∃ txin ∈ tx.vin, s.txdb.ContainsTx txin.prevout.hash = false

def StopsAtPool (s : NodeState) (tx : CTransaction) : Prop :=
  checkLoose ctx s tx = .ok () ∧ s.txdb.ContainsTx (ctx.hashTx tx) = false ∧ SpendsFromPool s tx

instance (ctx : Context) (s : NodeState) (tx : CTransaction) : Decidable (StopsAtPool ctx s tx) :=
  inferInstanceAs (Decidable (_ ∧ _ ∧ (∀ txin ∈ tx.vin, Available s txin) ∧
    ∃ txin ∈ tx.vin, s.txdb.ContainsTx txin.prevout.hash = false))

def PassesOthers (env : Env) (s : NodeState) (tx : CTransaction)
    (fLimitFree fRejectInsaneFee ignoreFees : Bool) : Prop :=
  checkLoose ctx s tx = .ok () ∧ s.txdb.ContainsTx (ctx.hashTx tx) = false ∧
    checkFetched ctx env s tx fLimitFree fRejectInsaneFee ignoreFees = .ok ()

instance (ctx : Context) (env : Env) (s : NodeState) (tx : CTransaction)
    (fLimitFree fRejectInsaneFee ignoreFees : Bool) :
    Decidable (PassesOthers ctx env s tx fLimitFree fRejectInsaneFee ignoreFees) :=
  inferInstanceAs (Decidable (_ ∧ _ ∧ _))

/-- Puts the transactions of disconnected blocks back into the pool, as far as it accepts them. -/
def resurrect (env : Env) (vResurrect : List CTransaction) : NodeM Unit :=
  vResurrect.forM fun tx => do
    let _ ← attempt (AcceptToMemoryPool ctx env tx false false false)
    pure ()

/-- The calls of `AcceptToMemoryPool` in this loop: each with the state in which it is made. -/
def resurrectCalls (ctx : Context) (env : Env) :
    NodeState → List CTransaction → List (NodeState × CTransaction)
  | _, [] => []
  | s, tx :: rest =>
    (s, tx) :: match attempt (AcceptToMemoryPool ctx env tx false false false) s with
      | (.ok _, s') => resurrectCalls ctx env s' rest
      | (.error _, _) => []

/-- What `AcceptToMemoryPool` should say: a missing input is really missing, and a transaction that
passes the other checks is accepted. -/
structure Truthful (env : Env) (s : NodeState) (tx : CTransaction)
    (fLimitFree fRejectInsaneFee ignoreFees : Bool) : Prop where
  missing : pfMissingInputs ctx s tx = true → ∃ txin ∈ tx.vin, ¬Available s txin
  accepted : PassesOthers ctx env s tx fLimitFree fRejectInsaneFee ignoreFees →
    (AcceptToMemoryPool ctx env tx fLimitFree fRejectInsaneFee ignoreFees s).1 = .ok ()

variable {ctx : Context} {env : Env} {s : NodeState} {tx : CTransaction}
  {fLimitFree fRejectInsaneFee ignoreFees : Bool}

/-! ## The calls -/

variable {hash : UInt256} {x : NodeM Unit} {t : NodeState} {msg : String}

theorem containsTx_of_readTxIndex {txindex : CTxIndex} (h : s.txdb.ReadTxIndex hash = some txindex) :
    s.txdb.ContainsTx hash = true := by
  unfold CTxDB.ReadTxIndex Store.read at h
  unfold CTxDB.ContainsTx
  split at h
  · rename_i hbatch
    rw [hbatch]
    exact Option.isSome_iff_exists.mpr ⟨_, h⟩
  · rename_i ops hbatch
    rw [hbatch]
    dsimp only
    split at h
    · rename_i found hscan
      rw [hscan, h]
    · rename_i hscan
      rw [hscan]
      exact Option.isSome_iff_exists.mpr ⟨_, h⟩

theorem available_of_fetchPrev {txin : CTxIn} {prev : CTxIndex × CTransaction}
    (h : fetchPrev ctx s ∅ ⟨false, false⟩ txin.prevout.hash = .ok prev) : Available s txin := by
  unfold fetchPrev prevIndex at h
  simp only [Bool.or_self, Bool.false_eq_true, if_false] at h
  split at h
  · rename_i hread
    exact .inl (containsTx_of_readTxIndex hread)
  · split at h
    · rename_i hlook
      refine .inr ?_
      unfold CTxMemPool.existsTx
      rw [hlook]
      rfl
    · simp at h

theorem available_of_fetchInputs {inputs : MapPrevTx} (hcb : tx.IsCoinBase = false)
    (h : FetchInputs ctx s ∅ ⟨false, false⟩ tx = .ok inputs) : ∀ txin ∈ tx.vin, Available s txin := by
  unfold FetchInputs at h
  rw [hcb] at h
  obtain ⟨fetched, hfetch, -⟩ := bind_ok h
  -- What the loop has fetched so far is available, and so are the inputs that it has passed.
  have hloop := foldlM_ok_induction
    (fun done (inputs : MapPrevTx) => (∀ txin : CTxIn, (inputs.lookup txin.prevout.hash).isSome →
      Available s txin) ∧ ∀ txin ∈ done, Available s txin)
    ⟨fun txin hsome => by simp at hsome, fun txin htxin => by simp at htxin⟩
    (fun done txin rest c c' _ hc hstep => ?_) hfetch
  · exact hloop.2
  · obtain ⟨hfetched, hdone⟩ := hc
    unfold fetchInput at hstep
    split at hstep
    · rename_i hlook
      cases hstep
      refine ⟨hfetched, fun txin' htxin' => ?_⟩
      rcases List.mem_append.mp htxin' with hmem | hmem
      · exact hdone txin' hmem
      · obtain rfl := List.mem_singleton.mp hmem
        exact hfetched txin' (by rw [hlook]; rfl)
    · obtain ⟨prev, hprev, hstep⟩ := bind_ok hstep
      cases hstep
      have hnew := available_of_fetchPrev hprev
      refine ⟨fun txin' hsome => ?_, fun txin' htxin' => ?_⟩
      · by_cases heq : txin'.prevout.hash = txin.prevout.hash
        · unfold Available
          rw [heq]
          exact hnew
        · rw [AList.lookup_insert_ne heq] at hsome
          exact hfetched txin' hsome
      · rcases List.mem_append.mp htxin' with hmem | hmem
        · exact hdone txin' hmem
        · obtain rfl := List.mem_singleton.mp hmem
          exact hnew

theorem isCoinBase_of_checkLoose (h : checkLoose ctx s tx = .ok ()) : tx.IsCoinBase = false := by
  obtain ⟨⟨⟩, -, h⟩ := bind_ok h
  obtain ⟨hcb, -⟩ := ensure_ok h
  exact hcb

theorem PassesOthers.available
    (h : PassesOthers ctx env s tx fLimitFree fRejectInsaneFee ignoreFees) :
    ∀ txin ∈ tx.vin, Available s txin := by
  obtain ⟨hloose, -, hfetched⟩ := h
  obtain ⟨inputs, hfetch, -⟩ := bind_ok hfetched
  exact available_of_fetchInputs (isCoinBase_of_checkLoose hloose) hfetch

theorem checkIndexed_eq_ok :
    checkIndexed ctx env s tx fLimitFree fRejectInsaneFee ignoreFees = .ok () ↔
      s.txdb.ContainsTx (ctx.hashTx tx) = false ∧
        (∀ txin ∈ tx.vin, s.txdb.ContainsTx txin.prevout.hash = true) ∧
        checkFetched ctx env s tx fLimitFree fRejectInsaneFee ignoreFees = .ok () := by
  change (ensure _ _ >>= fun _ => ensure _ _ >>= fun _ =>
    checkFetched ctx env s tx fLimitFree fRejectInsaneFee ignoreFees) = .ok () ↔ _
  rw [except_bind_eq_ok]
  constructor
  · rintro ⟨⟨⟩, hnew, h⟩
    obtain ⟨⟨⟩, hins, hfetch⟩ := bind_ok h
    exact ⟨ensure_eq_ok.mp hnew, ensure_eq_ok.mp hins, hfetch⟩
  · rintro ⟨hnew, hins, hfetch⟩
    exact ⟨(), ensure_eq_ok.mpr hnew, ensure_bind hins hfetch⟩

theorem acceptToMemoryPool_cases :
    (checkLoose ctx s tx = .ok () ∧
        checkIndexed ctx env s tx fLimitFree fRejectInsaneFee ignoreFees = .ok () ∧
        AcceptToMemoryPool ctx env tx fLimitFree fRejectInsaneFee ignoreFees s
          = (.ok (), { s with mempool := s.mempool.addUnchecked (ctx.hashTx tx) tx })) ∨
      ∃ e, (checkLoose ctx s tx = .error e ∨ checkLoose ctx s tx = .ok () ∧
          checkIndexed ctx env s tx fLimitFree fRejectInsaneFee ignoreFees = .error e) ∧
        AcceptToMemoryPool ctx env tx fLimitFree fRejectInsaneFee ignoreFees s = (.error e, s) := by
  unfold AcceptToMemoryPool
  rw [Action.bind_apply, Action.reading_apply]
  rcases hloose : checkLoose ctx s tx with e | ⟨⟩
  · exact .inr ⟨e, .inl rfl, rfl⟩
  · dsimp only
    rw [Action.bind_apply, Action.reading_apply]
    rcases hindexed : checkIndexed ctx env s tx fLimitFree fRejectInsaneFee ignoreFees with e | ⟨⟩
    · exact .inr ⟨e, .inr ⟨rfl, rfl⟩, rfl⟩
    · exact .inl ⟨rfl, rfl, rfl⟩

theorem acceptToMemoryPool_eq_ok :
    (AcceptToMemoryPool ctx env tx fLimitFree fRejectInsaneFee ignoreFees s).1 = .ok () ↔
      PassesOthers ctx env s tx fLimitFree fRejectInsaneFee ignoreFees ∧
        ∀ txin ∈ tx.vin, s.txdb.ContainsTx txin.prevout.hash = true := by
  rcases @acceptToMemoryPool_cases ctx env s tx fLimitFree fRejectInsaneFee ignoreFees with
    ⟨hloose, hindexed, hcall⟩ | ⟨e, hfail, hcall⟩
  · rw [hcall]
    obtain ⟨hnew, hins, hfetch⟩ := checkIndexed_eq_ok.mp hindexed
    exact ⟨fun _ => ⟨⟨hloose, hnew, hfetch⟩, hins⟩, fun _ => rfl⟩
  · rw [hcall]
    constructor
    · intro h
      simp at h
    · rintro ⟨⟨hloose, hnew, hfetch⟩, hins⟩
      rcases hfail with hfail | ⟨-, hfail⟩
      · rw [hloose] at hfail
        simp at hfail
      · rw [checkIndexed_eq_ok.mpr ⟨hnew, hins, hfetch⟩] at hfail
        simp at hfail

theorem pfMissingInputs_eq_true :
    pfMissingInputs ctx s tx = true ↔ checkLoose ctx s tx = .ok () ∧
      s.txdb.ContainsTx (ctx.hashTx tx) = false ∧
        ∃ txin ∈ tx.vin, s.txdb.ContainsTx txin.prevout.hash = false := by
  unfold pfMissingInputs
  rcases checkLoose ctx s tx with e | ⟨⟩
  · simp
  · simp

/-- `AcceptToMemoryPool` says what it should exactly when the transaction does not get as far as the
look at its previous transactions with all of them there and some in the pool only. -/
theorem truthful_iff : Truthful ctx env s tx fLimitFree fRejectInsaneFee ignoreFees ↔
    ¬StopsAtPool ctx s tx := by
  constructor
  · rintro htruthful ⟨hloose, hnew, havailable, hpooled⟩
    obtain ⟨txin, htxin, hgone⟩ :=
      htruthful.missing (pfMissingInputs_eq_true.mpr ⟨hloose, hnew, hpooled⟩)
    exact hgone (havailable txin htxin)
  · intro hclear
    refine ⟨fun hmiss => ?_, fun hpass => ?_⟩
    · obtain ⟨hloose, hnew, hunindexed⟩ := pfMissingInputs_eq_true.mp hmiss
      by_contra hnone
      push Not at hnone
      exact hclear ⟨hloose, hnew, hnone, hunindexed⟩
    · refine acceptToMemoryPool_eq_ok.mpr ⟨hpass, fun txin htxin => ?_⟩
      by_contra hunindexed
      exact hclear ⟨hpass.1, hpass.2.1, hpass.available, txin, htxin,
        Bool.eq_false_iff.mpr hunindexed⟩

/-! ## Disconnected blocks -/

theorem existsTx_acceptToMemoryPool (h : s.mempool.existsTx hash = true) :
    (AcceptToMemoryPool ctx env tx fLimitFree fRejectInsaneFee ignoreFees s).2.mempool.existsTx hash
      = true := by
  rcases @acceptToMemoryPool_cases ctx env s tx fLimitFree fRejectInsaneFee ignoreFees with
    ⟨-, -, hcall⟩ | ⟨e, -, hcall⟩
  · rw [hcall]
    unfold CTxMemPool.existsTx at h ⊢
    rw [CTxMemPool.lookup_addUnchecked]
    split
    · rfl
    · exact h
  · rw [hcall]
    exact h

theorem snd_attempt (x : NodeM Unit) (s : NodeState) : (attempt x s).2 = (x s).2 := by
  unfold attempt Action.handle
  rw [Action.bind_apply]
  rcases x s with ⟨e | ⟨⟩, t⟩
  · cases e with
    | crash m => rfl
    | reject n m => rfl
  · rfl

theorem attempt_of_ok (h : x s = (.ok (), t)) : attempt x s = (.ok true, t) := by
  unfold attempt Action.handle
  rw [Action.bind_of_ok h]
  rfl

theorem attempt_of_reject {nDoS : ℕ} (h : x s = (.error (.reject nDoS msg), t)) :
    attempt x s = (.ok false, t) := by
  unfold attempt Action.handle
  rw [Action.bind_apply, h]
  rfl

theorem attempt_of_crash (h : x s = (.error (.crash msg), t)) :
    attempt x s = (.error (.crash msg), t) := by
  unfold attempt Action.handle
  rw [Action.bind_apply, h]
  rfl

theorem resurrect_cons (rest : List CTransaction) :
    resurrect ctx env (tx :: rest) s =
      match attempt (AcceptToMemoryPool ctx env tx false false false) s with
      | (.ok _, s') => resurrect ctx env rest s'
      | (.error e, s') => (.error e, s') := by
  change (((attempt (AcceptToMemoryPool ctx env tx false false false)) >>= fun _ => pure ()) >>=
    fun _ => resurrect ctx env rest) s = _
  rw [Action.bind_apply, Action.bind_apply]
  rcases attempt (AcceptToMemoryPool ctx env tx false false false) s with ⟨e | b, t⟩ <;> rfl

theorem existsTx_resurrect (l : List CTransaction) (h : s.mempool.existsTx hash = true) :
    (resurrect ctx env l s).2.mempool.existsTx hash = true := by
  induction l generalizing s with
  | nil => exact h
  | cons tx l ih =>
    have hcall : (attempt (AcceptToMemoryPool ctx env tx false false false) s).2.mempool.existsTx
        hash = true := by
      rw [snd_attempt]
      exact existsTx_acceptToMemoryPool h
    rw [resurrect_cons]
    rcases hattempt : attempt (AcceptToMemoryPool ctx env tx false false false) s with ⟨e | b, t⟩
    · rwa [hattempt] at hcall
    · rw [hattempt] at hcall
      exact ih hcall

theorem existsTx_of_resurrectCalls (l : List CTransaction) {call : NodeState × CTransaction}
    (hcall : call ∈ resurrectCalls ctx env s l)
    (h : (AcceptToMemoryPool ctx env call.2 false false false call.1).1 = .ok ()) :
    (resurrect ctx env l s).2.mempool.existsTx (ctx.hashTx call.2) = true := by
  induction l generalizing s with
  | nil => simp [resurrectCalls] at hcall
  | cons tx l ih =>
    rw [resurrect_cons]
    unfold resurrectCalls at hcall
    rcases List.mem_cons.mp hcall with rfl | hcall
    · dsimp only at h ⊢
      rcases @acceptToMemoryPool_cases ctx env s tx false false false with
        ⟨-, -, hadded⟩ | ⟨e, -, href⟩
      · rw [attempt_of_ok hadded]
        refine existsTx_resurrect l ?_
        unfold CTxMemPool.existsTx
        rw [CTxMemPool.lookup_addUnchecked, if_pos rfl]
        rfl
      · rw [href] at h
        simp at h
    · rcases hattempt : attempt (AcceptToMemoryPool ctx env tx false false false) s with ⟨e | b, t⟩
      · rw [hattempt] at hcall
        simp at hcall
      · rw [hattempt] at hcall
        exact ih hcall

end ZalemCoin.Chain
