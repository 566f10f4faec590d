import ZalemCoin.InstantX.Votes

/-!
# Locks are authorised by votes

Along every run in which no refused request finds an input that is not locked yet, every locked input
belongs to a transaction whose lock has enough votes that were valid when the node counted them. A
refused request locks the inputs that are not locked, without any vote.
-/

namespace ZalemCoin.InstantX

open Lib Chain Script
open Prod (mk.inj)
open Lib.Action (bind_apply modify_bind get_bind check_bind_cases bind_cases)

/-- The messages that a node has processed, with what it read from outside, last to first. -/
abbrev Log := List (IxEnv × Message)

def Validated (log : Log) (vote : CConsensusVote) : Prop :=
  ∃ env, (env, Message.txlvote vote) ∈ log ∧ Counts env vote

/-- The lock of a transaction has enough votes, and they were valid. -/
def HasQuorum (log : Log) (n : Node) (hash : UInt256) : Prop :=
  ∃ lock, n.mapTxLocks.lookup hash = some lock ∧
    INSTANTX_SIGNATURES_REQUIRED ≤ lock.CountSignatures ∧ ∀ vote ∈ lock.counted, Validated log vote

/-- Every locked input belongs to a transaction with enough votes, so what is refused because of a
lock is refused because of such a transaction. -/
structure Authorised (ctx : Context) (log : Log) (n : Node) : Prop where
  locked : ∀ o hash, n.chain.mapLockedInputs o = some hash → HasQuorum log n hash
  refused : ∀ tx txin, lockedForOther ctx n.chain tx txin = true →
    ∃ hash, hash ≠ ctx.hashTx tx ∧ n.chain.mapLockedInputs txin.prevout = some hash ∧
      HasQuorum log n hash

/-- A request gets as far as the memory pool. -/
structure ReachesPool (ctx : Context) (n : Node) (env : IxEnv) (tx : CTransaction) : Prop where
  fresh : n.mapTxLockReq (ctx.hashTx tx) = none ∧ n.mapTxLockReqRejected (ctx.hashTx tx) = none
  valid : IsIXTXValid ctx env n.chain tx = true
  scripts : ∀ o ∈ tx.vout, IsNormalPaymentScript o.scriptPubKey ∨ IsUnspendable o.scriptPubKey

/-- When the memory pool does not take a request, the inputs of its transaction are locked already. -/
def RefusedAreLocked (ctx : Context) (n : Node) (env : IxEnv) : Message → Prop
  | .txlvote _ => True
  | .txlreq tx =>
    ReachesPool ctx n env tx →
      (AcceptToMemoryPool ctx env.toEnv tx true false false n.chain).1 ≠ .ok () →
        ∀ txin ∈ tx.vin, n.chain.mapLockedInputs txin.prevout ≠ none

/-! ## Runs -/

/-- A run that starts without locks, and the messages that the node has processed. Between messages it
removes expired locks, and anything may happen to its chain, but for the locked inputs. -/
inductive Run (ctx : Context) (allowed : Node → IxEnv → Message → Prop) : Node → Log → Prop
  | start {n : Node} (hchain : n.chain.mapLockedInputs = fun _ => none)
      (hreq : n.mapTxLockReq = fun _ => none) (hrejected : n.mapTxLockReqRejected = fun _ => none)
      (hvotes : n.mapTxLockVote = fun _ => none) (hlocks : n.mapTxLocks = ∅) :
      Run ctx allowed n []
  | message {n n' : Node} {log : Log} {env : IxEnv} {message : Message} {r : Except Failure Unit}
      (hrun : Run ctx allowed n log) (hallowed : allowed n env message)
      (h : ProcessMessageInstantX ctx env message n = (r, n')) :
      Run ctx allowed n' ((env, message) :: log)
  | clean {n : Node} {log : Log} (env : IxEnv) (hrun : Run ctx allowed n log) :
      Run ctx allowed (CleanTransactionLocksList env n) log
  | elsewhere {n : Node} {log : Log} {chain : NodeState} (hrun : Run ctx allowed n log)
      (h : chain.mapLockedInputs = n.chain.mapLockedInputs) :
      Run ctx allowed { n with chain := chain } log

/-- Every locked input is one of a requested transaction whose lock has enough votes. -/
def LocksBacked (n : Node) : Prop :=
  ∀ o hash, n.chain.mapLockedInputs o = some hash → ∃ tx lock,
    n.mapTxLockReq hash = some tx ∧ (∃ txin ∈ tx.vin, txin.prevout = o) ∧
      n.mapTxLocks.lookup hash = some lock ∧ INSTANTX_SIGNATURES_REQUIRED ≤ lock.CountSignatures

def Node.lockPart (n : Node) :
    (COutPoint → Option UInt256) × (UInt256 → Option CTransaction) ×
      AList fun _ : UInt256 => CTransactionLock :=
  (n.chain.mapLockedInputs, n.mapTxLockReq, n.mapTxLocks)

section

variable {ctx : Context} {env : IxEnv} {n n' : Node} {log : Log} {hash : UInt256}
  {tx : CTransaction} {lock : CTransactionLock} {vote : CConsensusVote} {r : Except Failure Unit}

/-! ## Parts of the messages -/

variable (h : LocksBacked n)
include h

theorem LocksBacked.congr (hpart : n'.lockPart = n.lockPart) :
    LocksBacked n' := by
  obtain ⟨hlocked, hrest⟩ := mk.inj hpart
  obtain ⟨hreq, hlocks⟩ := mk.inj hrest
  unfold LocksBacked
  rw [hlocked, hreq, hlocks]
  exact h

theorem LocksBacked.setLock
    (hcnt : ∀ old, n.mapTxLocks.lookup hash = some old → n.mapTxLockReq hash ≠ none →
      INSTANTX_SIGNATURES_REQUIRED ≤ old.CountSignatures →
        INSTANTX_SIGNATURES_REQUIRED ≤ lock.CountSignatures) :
    LocksBacked (n.setLock hash lock) := by
  intro o k ho
  obtain ⟨tx, old, hreq, hmem, hold, hquorum⟩ := h o k ho
  by_cases hk : k = hash
  · subst hk
    have hne : n.mapTxLockReq k ≠ none := by simp [hreq]
    exact ⟨tx, lock, hreq, hmem, AList.lookup_insert _, hcnt old hold hne hquorum⟩
  · exact ⟨tx, old, hreq, hmem, (AList.lookup_insert_ne hk).trans hold, hquorum⟩

theorem LocksBacked.expire (time : ℤ) (hash : UInt256) :
    LocksBacked (n.expire time hash) := by
  unfold Node.expire
  rcases hlock : n.mapTxLocks.lookup hash with _ | lock
  · exact h
  · refine h.setLock fun old hold _ hquorum => ?_
    obtain rfl : lock = old := Option.mem_unique hlock hold
    exact hquorum

theorem LocksBacked.checkForConflictingLocks :
    LocksBacked (CheckForConflictingLocks ctx env tx n).2 := by
  unfold CheckForConflictingLocks
  split
  · exact h
  · exact (h.expire _ _).expire _ _

omit h

theorem checkForConflictingLocks_eq_false
    (h : CheckForConflictingLocks ctx env tx n = (.ok false, n')) : n' = n := by
  unfold CheckForConflictingLocks at h
  split at h
  · exact (mk.inj h).2.symm
  · simp at h

theorem LocksBacked.setRequest (h : LocksBacked n)
    (hreq : n.mapTxLockReq hash = none ∨ n.mapTxLockReq hash = some tx) :
    LocksBacked { n with mapTxLockReq := Function.update n.mapTxLockReq hash (some tx) } := by
  intro o k ho
  obtain ⟨tx', lock, hreq', hmem, hlock, hquorum⟩ := h o k ho
  refine ⟨tx', lock, ?_, hmem, hlock, hquorum⟩
  by_cases hk : k = hash
  · subst hk
    rcases hreq with hnone | hsome
    · rw [hnone] at hreq'
      simp at hreq'
    · rw [hsome] at hreq'
      exact (Function.update_self ..).trans hreq'
  · exact (Function.update_of_ne hk ..).trans hreq'

theorem foldl_lockInput {vin : List CTxIn} {locked : COutPoint → Option UInt256} {o : COutPoint}
    {k : UInt256} (h : vin.foldl (lockInput hash) locked o = some k) :
    locked o = some k ∨ (k = hash ∧ ∃ txin ∈ vin, txin.prevout = o) := by
  induction vin generalizing locked with
  | nil => exact .inl h
  | cons txin vin ih =>
    rcases ih h with hlocked | ⟨hk, txin', hmem, ho⟩
    · unfold lockInput at hlocked
      rcases hold : locked txin.prevout with _ | other
      · rw [hold] at hlocked
        dsimp only at hlocked
        by_cases ho : o = txin.prevout
        · subst ho
          rw [Function.update_self] at hlocked
          exact .inr ⟨(Option.some.inj hlocked).symm, txin, List.mem_cons_self, rfl⟩
        · rw [Function.update_of_ne ho] at hlocked
          exact .inl hlocked
      · rw [hold] at hlocked
        exact .inl hlocked
    · exact .inr ⟨hk, txin', List.mem_cons_of_mem _ hmem, ho⟩

theorem foldl_lockInput_eq {vin : List CTxIn} {locked : COutPoint → Option UInt256}
    (h : ∀ txin ∈ vin, locked txin.prevout ≠ none) : vin.foldl (lockInput hash) locked = locked := by
  induction vin with
  | nil => rfl
  | cons txin vin ih =>
    have hsame : lockInput hash locked txin = locked := by
      unfold lockInput
      rcases hold : locked txin.prevout with _ | other
      · exact absurd hold (h txin List.mem_cons_self)
      · rfl
    rw [List.foldl_cons, hsame]
    exact ih fun txin' hmem => h txin' (List.mem_cons_of_mem _ hmem)

theorem LocksBacked.lockInputs (h : LocksBacked n) (hreq : n.mapTxLockReq hash = some tx)
    (hlock : n.mapTxLocks.lookup hash = some lock)
    (hquorum : INSTANTX_SIGNATURES_REQUIRED ≤ lock.CountSignatures) :
    LocksBacked (n.lockInputs hash tx.vin) := by
  intro o k ho
  rcases foldl_lockInput ho with hold | ⟨rfl, hmem⟩
  · exact h o k hold
  · exact ⟨tx, lock, hreq, hmem, hlock, hquorum⟩

theorem LocksBacked.createNewLock {height : Except Failure ℤ} (h : LocksBacked n)
    (hreq : n.mapTxLockReq (ctx.hashTx tx) = none)
    (hcreate : CreateNewLock ctx env tx n = (height, n')) :
    LocksBacked n' ∧ n'.mapTxLockReq = n.mapTxLockReq ∧ n'.chain = n.chain := by
  rcases Action.reading_bind_cases hcreate with rfl | ⟨age, -, hcreate⟩
  · exact ⟨h, rfl, rfl⟩
  rcases age with _ | nTxAge
  · cases hcreate
    exact ⟨h, rfl, rfl⟩
  rcases Action.reading_bind_cases hcreate with rfl | ⟨best, -, hcreate⟩
  · exact ⟨h, rfl, rfl⟩
  rw [← (mk.inj hcreate).2]
  dsimp only
  -- No input is locked for a transaction without a request, so its lock may lose votes.
  rcases hlock : n.mapTxLocks.lookup (ctx.hashTx tx) with _ | lock
  · exact ⟨h.setLock fun old _ hne => absurd hreq hne, rfl, rfl⟩
  · exact ⟨h.setLock fun old _ hne => absurd hreq hne, rfl, rfl⟩

theorem keeps_acceptToMemoryPool (ctx : Context) (env : Chain.Env) (tx : CTransaction)
    (fLimitFree fRejectInsaneFee ignoreFees : Bool) :
    KeepsPart NodeState.mapLockedInputs
      (AcceptToMemoryPool ctx env tx fLimitFree fRejectInsaneFee ignoreFees) :=
  KeepsPart.bind (KeepsPart.reading _) fun _ =>
    KeepsPart.bind (KeepsPart.reading _) fun _ => KeepsPart.modify fun _ => rfl

theorem acceptRequest_cases {result : Except Failure Bool}
    (hacc : acceptRequest ctx env tx n = (result, n')) :
    n'.lockPart = n.lockPart ∧ (result = .ok false →
      (AcceptToMemoryPool ctx env.toEnv tx true false false n.chain).1 ≠ .ok ()) := by
  have hkeeps := keeps_acceptToMemoryPool ctx env.toEnv tx true false false n.chain
  unfold acceptRequest Action.handle at hacc
  rw [bind_apply] at hacc
  unfold onChain at hacc
  rcases hpool : AcceptToMemoryPool ctx env.toEnv tx true false false n.chain with ⟨e | ⟨⟩, chain⟩
  · rw [hpool] at hacc hkeeps
    dsimp only at hacc
    constructor
    · have hn' : n' = { n with chain := chain } := by
        split at hacc <;> exact (mk.inj hacc).2.symm
      rw [hn']
      exact Prod.ext hkeeps rfl
    · intro _
      simp
  · rw [hpool] at hacc hkeeps
    cases hacc
    constructor
    · exact Prod.ext hkeeps rfl
    · intro hfalse
      simp at hfalse

theorem lockPart_doConsensusVote {height : ℤ} (h : DoConsensusVote ctx env tx height n = (r, n')) :
    n'.lockPart = n.lockPart := by
  unfold DoConsensusVote at h
  rcases hown : ownVote env (ctx.hashTx tx) height with _ | vote
  · rw [hown] at h
    rw [← (mk.inj h).2]
  · rw [hown] at h
    rw [← (mk.inj h).2]
    rfl

theorem LocksBacked.rejectRequest (h : LocksBacked n)
    (hlocked : ∀ txin ∈ tx.vin, n.chain.mapLockedInputs txin.prevout ≠ none)
    (hrej : rejectRequest ctx env tx n = (r, n')) : LocksBacked n' := by
  unfold InstantX.rejectRequest at hrej
  rw [modify_bind, modify_bind, get_bind] at hrej
  -- Nothing is locked, since everything is locked already.
  have hsame : ∀ m : Node, m.lockPart = n.lockPart → (m.lockInputs (ctx.hashTx tx) tx.vin).lockPart
      = n.lockPart := by
    intro m hm
    have hchain : m.chain.mapLockedInputs = n.chain.mapLockedInputs := congrArg Prod.fst hm
    rw [← hm]
    refine Prod.ext ?_ rfl
    show tx.vin.foldl (lockInput (ctx.hashTx tx)) m.chain.mapLockedInputs = m.chain.mapLockedInputs
    rw [hchain]
    exact foldl_lockInput_eq hlocked
  generalize hm : Node.lockInputs _ (ctx.hashTx tx) tx.vin = m at hrej
  have hinv : LocksBacked m := by
    rw [← hm]
    exact h.congr (hsame _ rfl)
  rcases hlock : m.mapTxLocks.lookup (ctx.hashTx tx) with _ | lock
  · rw [hlock] at hrej
    rw [← (mk.inj hrej).2]
    exact hinv
  · rw [hlock] at hrej
    dsimp only at hrej
    split_ifs at hrej
    · have hchk := @LocksBacked.checkForConflictingLocks ctx env _ tx hinv
      rw [bind_apply] at hrej
      rcases hconf : CheckForConflictingLocks ctx env tx m with ⟨e | conflict, m'⟩
      · rw [hconf] at hrej hchk
        rw [← (mk.inj hrej).2]
        exact hchk
      · rw [hconf] at hrej hchk
        dsimp only at hrej
        split_ifs at hrej <;> rw [← (mk.inj hrej).2] <;> exact hchk
    · rw [← (mk.inj hrej).2]
      exact hinv

/-- A request keeps the locks backed when its inputs are locked already in case it is refused. -/
theorem LocksBacked.processRequest (h : LocksBacked n)
    (href : RefusedAreLocked ctx n env (.txlreq tx))
    (hrequest : processRequest ctx env tx n = (r, n')) : LocksBacked n' := by
  rcases check_bind_cases hrequest with rfl | ⟨hfresh, hrequest⟩
  · exact h
  rcases check_bind_cases hrequest with rfl | ⟨hvalid, hrequest⟩
  · exact h
  rcases check_bind_cases hrequest with rfl | ⟨hscripts, hrequest⟩
  · exact h
  rcases bind_cases hrequest with ⟨e, hcreate⟩ | ⟨height, m, hcreate, hrequest⟩
  · exact (h.createNewLock hfresh.1 hcreate).1
  obtain ⟨hm, hmreq, hmchain⟩ := h.createNewLock hfresh.1 hcreate
  rcases bind_cases hrequest with ⟨e, hacc⟩ | ⟨fAccepted, k, hacc, hrequest⟩
  · exact hm.congr (acceptRequest_cases hacc).1
  obtain ⟨hpart, hno⟩ := acceptRequest_cases hacc
  have hk : LocksBacked k := hm.congr hpart
  rcases fAccepted with _ | _
  · rw [if_neg Bool.false_ne_true] at hrequest
    have hpool := hno rfl
    rw [hmchain] at hpool
    have hlocked := href ⟨hfresh, hvalid, hscripts⟩ hpool
    refine hk.rejectRequest (fun txin htxin => ?_) hrequest
    have hsame : k.chain.mapLockedInputs = n.chain.mapLockedInputs := by
      rw [← hmchain]
      exact congrArg Prod.fst hpart
    rw [hsame]
    exact hlocked txin htxin
  · rw [if_pos rfl] at hrequest
    rcases bind_cases hrequest with ⟨e, hvote⟩ | ⟨⟨⟩, k', hvote, hrequest⟩
    · exact hk.congr (lockPart_doConsensusVote hvote)
    · have hk' := hk.congr (lockPart_doConsensusVote hvote)
      have hreq : k'.mapTxLockReq = n.mapTxLockReq := by
        have hparts := (lockPart_doConsensusVote hvote).trans hpart
        rw [← hmreq]
        exact congrArg (fun part => part.2.1) hparts
      rw [← (mk.inj hrequest).2]
      refine hk'.setRequest (.inl ?_)
      rw [hreq]
      exact hfresh.1

/-! ## Votes -/

/-- Completing a lock that has its signatures keeps the locks backed. -/
theorem LocksBacked.completeLock (h : LocksBacked n) (hlock : n.mapTxLocks.lookup hash = some lock)
    (hquorum : INSTANTX_SIGNATURES_REQUIRED ≤ lock.CountSignatures)
    (hcomp : completeLock ctx env hash n = (r, n')) : LocksBacked n' := by
  unfold InstantX.completeLock at hcomp
  rw [get_bind, modify_bind] at hcomp
  generalize htx : (n.mapTxLockReq hash).getD (CTransaction.empty env) = tx at hcomp
  have hreq : n.mapTxLockReq hash = none ∨ n.mapTxLockReq hash = some tx := by
    rcases hold : n.mapTxLockReq hash with _ | old
    · exact .inl rfl
    · rw [hold] at htx
      right
      rw [← htx]
      rfl
  have hm := h.setRequest hreq
  generalize hn : ({ n with mapTxLockReq := Function.update n.mapTxLockReq hash (some tx) } : Node)
    = m at hcomp hm
  have hmreq : m.mapTxLockReq hash = some tx := by
    rw [← hn]
    exact Function.update_self ..
  have hmlock : m.mapTxLocks.lookup hash = some lock := by
    rw [← hn]
    exact hlock
  rw [bind_apply] at hcomp
  have hchk := @LocksBacked.checkForConflictingLocks ctx env _ tx hm
  rcases hconf : CheckForConflictingLocks ctx env tx m with ⟨e | conflict, k⟩
  · rw [hconf] at hcomp hchk
    rw [← (mk.inj hcomp).2]
    exact hchk
  rw [hconf] at hcomp hchk
  dsimp only at hcomp
  rcases conflict with _ | _
  · obtain rfl := checkForConflictingLocks_eq_false hconf
    rw [if_neg Bool.false_ne_true, modify_bind] at hcomp
    have hlocked := hm.lockInputs hmreq hmlock hquorum
    rw [get_bind] at hcomp
    generalize Node.lockInputs _ hash tx.vin = l at hcomp hlocked
    rcases hrej : l.mapTxLockReqRejected hash with _ | rejected
    · rw [hrej] at hcomp
      rw [← (mk.inj hcomp).2]
      exact hlocked
    · rw [hrej] at hcomp
      rw [← (mk.inj hcomp).2]
      exact hlocked
  · rw [if_pos rfl] at hcomp
    rw [← (mk.inj hcomp).2]
    exact hchk

theorem countSignatures_addSignature (lock : CTransactionLock) (vote : CConsensusVote) :
    lock.CountSignatures ≤ (lock.AddSignature vote).CountSignatures := by
  unfold CTransactionLock.CountSignatures CTransactionLock.AddSignature CTransactionLock.counted
  dsimp only
  by_cases hzero : lock.nBlockHeight = 0
  · rw [if_pos hzero, if_pos hzero]
  · rw [if_neg hzero, if_neg hzero, List.filter_append, List.length_append]
    omega

theorem LocksBacked.processVote (h : LocksBacked n)
    (hvote : processVote ctx env vote n = (r, n')) : LocksBacked n' := by
  rcases check_bind_cases hvote with rfl | ⟨-, hvote⟩
  · exact h
  rw [modify_bind] at hvote
  generalize hm : ({ n with
    mapTxLockVote := Function.update n.mapTxLockVote vote.GetHash (some vote) } : Node) = m at hvote
  have hinv : LocksBacked m := by
    rw [← hm]
    exact h.congr rfl
  unfold ProcessConsensusVote at hvote
  rcases check_bind_cases hvote with rfl | ⟨-, hvote⟩
  · exact hinv
  rcases check_bind_cases hvote with rfl | ⟨-, hvote⟩
  · exact hinv
  rcases check_bind_cases hvote with rfl | ⟨-, hvote⟩
  · exact hinv
  rw [get_bind, modify_bind] at hvote
  have hset : LocksBacked (m.setLock vote.txHash (((m.mapTxLocks.lookup vote.txHash).getD
      ⟨0, vote.txHash, [], env.time + 20 * 60⟩).AddSignature vote)) := by
    refine hinv.setLock fun stored hstor _ hquorum => ?_
    rw [hstor]
    exact hquorum.trans (countSignatures_addSignature _ _)
  split_ifs at hvote with hquorum
  · exact hset.completeLock (AList.lookup_insert _) hquorum hvote
  · rw [← (mk.inj hvote).2]
    exact hset

/-! ## Removing locks -/

theorem LocksBacked.cleanLock (h : LocksBacked n) (hkeyed : Keyed n) (env : IxEnv)
    (hash : UInt256) : LocksBacked (cleanLock env n hash) := by
  unfold InstantX.cleanLock
  rcases hlock : n.mapTxLocks.lookup hash with _ | lock
  · exact h
  dsimp only
  by_cases hexpired : env.time ≤ lock.nExpiration
  · rw [if_pos hexpired]
    exact h
  rw [if_neg hexpired, hkeyed hash lock hlock]
  rcases hreq : n.mapTxLockReq hash with _ | tx
  · intro o k ho
    obtain ⟨tx', l, hreq', hmem, hl, hquorum⟩ := h o k ho
    have hne : k ≠ hash := by
      rintro rfl
      rw [hreq] at hreq'
      simp at hreq'
    exact ⟨tx', l, hreq', hmem, (AList.lookup_erase_ne hne).trans hl, hquorum⟩
  · intro o k ho
    have hunl : (if o ∈ tx.vin.map CTxIn.prevout then none
        else n.chain.mapLockedInputs o) = some k := by
      rw [← foldl_update_none]
      exact ho
    split_ifs at hunl with hmine
    obtain ⟨tx', l, hreq', ⟨txin, hmem, htxin⟩, hl, hquorum⟩ := h o k hunl
    -- The inputs that were locked for this transaction are those of its request.
    have hne : k ≠ hash := by
      rintro rfl
      rw [hreq] at hreq'
      cases hreq'
      exact hmine (List.mem_map.mpr ⟨txin, hmem, htxin⟩)
    exact ⟨tx', l, (Function.update_of_ne hne ..).trans hreq', ⟨txin, hmem, htxin⟩,
      (AList.lookup_erase_ne hne).trans hl, hquorum⟩

theorem LocksBacked.clean (h : LocksBacked n) (hkeyed : Keyed n) (env : IxEnv) :
    LocksBacked (CleanTransactionLocksList env n) := by
  have hall : ∀ (keys : List UInt256) (m : Node), LocksBacked m → Keyed m →
      LocksBacked (keys.foldl (InstantX.cleanLock env) m) := by
    intro keys
    induction keys with
    | nil => exact fun _ hm _ => hm
    | cons hash keys ih =>
      intro m hm hmkeyed
      have hstep := VotesFrom.cleanLock (fun _ _ => True) env m hash
      exact ih _ (hm.cleanLock hmkeyed env hash) (hstep.keyed hmkeyed)
  unfold CleanTransactionLocksList
  split_ifs
  · exact h
  · exact hall _ n h hkeyed

/-! ## Runs -/

theorem Run.votes {allowed : Node → IxEnv → Message → Prop} (h : Run ctx allowed n log) :
    Keyed n ∧ ∀ hash lock, n.mapTxLocks.lookup hash = some lock →
      ∀ vote ∈ lock.vecConsensusVotes, Validated log vote := by
  induction h with
  | @start n _ _ _ _ hlocks =>
    unfold Keyed
    rw [hlocks]
    simp
  | @message n n' log env message r _ hallow h ih =>
    have hfrom : VotesFrom (fun _ vote => Validated ((env, message) :: log) vote) n n' := by
      refine Action.Keeps.of_eq (keepsVotes_processMessage fun vote hvote hcnts => ?_) h
      rw [hvote]
      exact ⟨env, List.mem_cons_self, hcnts⟩
    constructor
    · exact hfrom.keyed ih.1
    · intro hash lock hlock vote hvote
      rcases hfrom.votes hash lock hlock vote hvote with hvalidated | ⟨old, hold, hmem⟩
      · exact hvalidated
      · obtain ⟨env', hlog, hcnts⟩ := ih.2 hash old hold vote hmem
        exact ⟨env', List.mem_cons_of_mem _ hlog, hcnts⟩
  | @clean n log env _ ih =>
    have hfrom := VotesFrom.clean (fun _ vote => Validated log vote) env n
    constructor
    · exact hfrom.keyed ih.1
    · intro hash lock hlock vote hvote
      rcases hfrom.votes hash lock hlock vote hvote with hvalidated | ⟨old, hold, hmem⟩
      · exact hvalidated
      · exact ih.2 hash old hold vote hmem
  | elsewhere _ _ ih => exact ih

theorem Run.locksBacked (h : Run ctx (RefusedAreLocked ctx) n log) : LocksBacked n := by
  induction h with
  | @start n hchain _ _ _ _ =>
    intro o hash ho
    rw [hchain] at ho
    simp at ho
  | @message n n' log env message r _ hallow h ih =>
    rcases check_bind_cases h with rfl | ⟨-, h⟩
    · exact ih
    rcases check_bind_cases h with rfl | ⟨-, h⟩
    · exact ih
    rcases check_bind_cases h with rfl | ⟨-, h⟩
    · exact ih
    cases message with
    | txlreq tx => exact ih.processRequest hallow h
    | txlvote vote => exact ih.processVote h
  | clean env hrun ih => exact ih.clean hrun.votes.1 env
  | elsewhere _ hchain ih => exact ih.congr (Prod.ext hchain rfl)

end

/-- Along a run in which no refused request finds an unlocked input, every locked input belongs to a
transaction with enough valid votes. -/
theorem locks_authorised (ctx : Context) {n : Node} {log : Log}
    (h : Run ctx (RefusedAreLocked ctx) n log) : Authorised ctx log n := by
  have hlocked : ∀ o hash, n.chain.mapLockedInputs o = some hash → HasQuorum log n hash := by
    intro o hash ho
    obtain ⟨tx, lock, -, -, hlock, hquorum⟩ := h.locksBacked o hash ho
    refine ⟨lock, hlock, hquorum, fun vote hvote => ?_⟩
    exact h.votes.2 hash lock hlock vote (List.mem_of_mem_filter hvote)
  refine ⟨hlocked, fun tx txin hother => ?_⟩
  unfold lockedForOther at hother
  rcases ho : n.chain.mapLockedInputs txin.prevout with _ | hash
  · rw [ho] at hother
    simp at hother
  · rw [ho] at hother
    exact ⟨hash, by simpa using hother, rfl, hlocked _ _ ho⟩

/-! ## A lock with votes, and one without -/

/-- A node whose best block is nineteen blocks after the one with a spendable transaction, without
locks. -/
def requestNode : Node where
  chain :=
    { chainedNode with
      mapBlockIndex := Function.update (Function.update (fun _ => none)
        1 (some (plainIndex 1 1 none fundedBlock)))
        20 (some (plainIndex 20 20 none (coinbaseBlock 20 0)))
      pindexBest := some 20
      hashBestChain := 20
      nBestHeight := 20
      txdb := ⟨chainedNode.txdb.disk, none⟩ }
  mapTxLockReq _ := none
  mapTxLockReqRejected _ := none
  mapTxLockVote _ := none
  mapTxLocks := ∅

def requestEnv : IxEnv :=
  { plainEnv 2000 with
    fLiteMode := false
    fInstantX := true
    nMaxValue := 3000000
    fBlockchainSynced := true
    blocks := [1, 20]
    GetFloatingcityRank := fun vin _ => vin.prevout.n.toNat
    SignatureValid := fun _ => true
    fFloatingCity := false
    activeVin := inputOf 0 0
    Sign := fun _ _ => none }

def requestTx (id : UInt32) : CTransaction :=
  plainTx 0 [inputOf id 0] [⟨49 * COIN, GetScriptForDestination (.keyID 0)⟩]

def requestVote (n : UInt32) : CConsensusVote := ⟨inputOf 100 n, 0, 5, []⟩

def Node.after (n : Node) (message : Message) : Node :=
  (ProcessMessageInstantX (chainedContext true) requestEnv message n).2

theorem Run.after {allowed : Node → IxEnv → Message → Prop} {n : Node} {log : Log}
    (hrun : Run (chainedContext true) allowed n log) {message : Message}
    (hallow : allowed n requestEnv message) :
    Run (chainedContext true) allowed (n.after message) ((requestEnv, message) :: log) :=
  Run.message hrun hallow rfl

def votedNode : Node :=
  ((requestNode.after (.txlreq (requestTx 11))).after (.txlvote (requestVote 1))).after
    (.txlvote (requestVote 2))

/-- After a request and two votes, an input is locked, and authorised. -/
theorem votedNode_authorised :
    votedNode.chain.mapLockedInputs ⟨11, 0⟩ = some 0 ∧
      Authorised (chainedContext true)
        [(requestEnv, .txlvote (requestVote 2)), (requestEnv, .txlvote (requestVote 1)),
          (requestEnv, .txlreq (requestTx 11))] votedNode := by
  have haccepted : (AcceptToMemoryPool (chainedContext true) requestEnv.toEnv (requestTx 11) true
      false false requestNode.chain).1 = .ok () := by decide
  have hstart : Run (chainedContext true) (RefusedAreLocked (chainedContext true)) requestNode [] :=
    Run.start rfl rfl rfl rfl rfl
  have hallowed : RefusedAreLocked (chainedContext true) requestNode requestEnv
      (.txlreq (requestTx 11)) := fun _ hrefused => absurd haccepted hrefused
  have hone := @Run.after _ _ _ (hstart.after hallowed) (.txlvote (requestVote 1)) trivial
  have htwo := @Run.after _ _ _ hone (.txlvote (requestVote 2)) trivial
  exact ⟨by decide, locks_authorised _ htwo⟩

/-- After a request that the memory pool refuses, an input is locked without a vote. -/
theorem refused_not_authorised :
    ¬ ∀ (ctx : Context) (n : Node) (log : Log), Run ctx (fun _ _ _ => True) n log →
      Authorised ctx log n := by
  intro h
  have hstart : Run (chainedContext true) (fun _ _ _ => True) requestNode [] :=
    Run.start rfl rfl rfl rfl rfl
  have hrun := @Run.after _ _ _ hstart (.txlreq (requestTx 12)) trivial
  have hlocked : (requestNode.after (.txlreq (requestTx 12))).chain.mapLockedInputs ⟨12, 0⟩
      = some 0 := by decide
  have hnone : (requestNode.after (.txlreq (requestTx 12))).mapTxLocks.lookup 0 = none := by
    decide
  obtain ⟨lock, hlock, -⟩ := (h _ _ _ hrun).locked _ _ hlocked
  rw [hnone] at hlock
  simp at hlock

end ZalemCoin.InstantX
