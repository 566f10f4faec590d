import ZalemCoin.InstantX.Authorisation

/-!
# Conflicting locks

Two of the four masternodes that may vote complete a lock, so two transactions that spend the same
output can both be complete, each with the votes of two of them. No masternode counts for both, and a
node that has locked an input for one of them ends both locks when the other is completed.
-/

namespace ZalemCoin.InstantX

open Lib Chain Script

def SpendCommon (tx tx' : CTransaction) : Prop :=
  ∃ txin ∈ tx.vin, ∃ txin' ∈ tx'.vin, txin.prevout = txin'.prevout

structure Casts (ctx : Context) (env : IxEnv) (n : Node) (tx : CTransaction)
    (vote : CConsensusVote) : Prop where
  listens : env.fLiteMode = false ∧ env.fInstantX = true ∧ env.fBlockchainSynced = true
  reaches : ReachesPool ctx n env tx
  accepted : ∃ nBlockHeight m, CreateNewLock ctx env tx n = (.ok nBlockHeight, m) ∧
    (AcceptToMemoryPool ctx env.toEnv tx true false false m.chain).1 = .ok () ∧
    ownVote env (ctx.hashTx tx) nBlockHeight = some vote

/-- A network: its nodes, and which votes have been cast for which transactions. -/
structure Net (ι : Type) where
  node : ι → Node
  cast : CConsensusVote → CTransaction → Prop

section

variable {ι : Type} [DecidableEq ι]

def Net.setNode (net : Net ι) (i : ι) (n : Node) : Net ι :=
  { net with node := Function.update net.node i n }

variable (ctx : Context)

/-- A node receives a message, and casts a vote when it processes a request. -/
def Net.deliver (net : Net ι) (i : ι) (env : IxEnv) (message : Message) : Net ι :=
  { net.setNode i (ProcessMessageInstantX ctx env message (net.node i)).2 with
    cast := fun vote tx =>
      net.cast vote tx ∨ (message = .txlreq tx ∧ Casts ctx env (net.node i) tx vote) }

/-- A run of a network in which nothing is locked at first. Any message can reach any node at any time,
any number of times or never; a vote is valid only when it has been cast. -/
inductive NetRun (ctx : Context) : Net ι → Prop
  | start {net : Net ι} (hnodes : ∀ i, Run ctx (fun _ _ _ => True) (net.node i) [])
      (hcast : ∀ vote tx, ¬net.cast vote tx) : NetRun ctx net
  | deliver {net : Net ι} {i : ι} {env : IxEnv} {message : Message} (hrun : NetRun ctx net)
      (hvalid : ∀ vote, env.SignatureValid vote = true →
        ∃ tx, (net.deliver ctx i env message).cast vote tx) :
      NetRun ctx (net.deliver ctx i env message)
  | clean {net : Net ι} (i : ι) (env : IxEnv) (hrun : NetRun ctx net) :
      NetRun ctx (net.setNode i (CleanTransactionLocksList env (net.node i)))
  | elsewhere {net : Net ι} {i : ι} {chain : NodeState} (hrun : NetRun ctx net)
      (h : chain.mapLockedInputs = (net.node i).chain.mapLockedInputs) :
      NetRun ctx (net.setNode i { net.node i with chain := chain })

/-- No masternode votes for two transactions that spend a common output. -/
def Honest (cast : CConsensusVote → CTransaction → Prop) : Prop :=
  ∀ vote u vote' u', cast vote u → cast vote' u' → vote.vinFloatingcity = vote'.vinFloatingcity →
    ∀ tx tx', ctx.hashTx tx = vote.txHash → ctx.hashTx tx' = vote'.txHash → SpendCommon tx tx' →
      vote.txHash = vote'.txHash

def CompleteAt (net : Net ι) (i : ι) (tx : CTransaction) : Prop :=
  ∃ lock, (net.node i).mapTxLocks.lookup (ctx.hashTx tx) = some lock ∧
    INSTANTX_SIGNATURES_REQUIRED ≤ lock.CountSignatures

def Agreement (net : Net ι) : Prop :=
  ∀ i j tx tx', SpendCommon tx tx' → ctx.hashTx tx ≠ ctx.hashTx tx' →
    ¬(CompleteAt ctx net i tx ∧ CompleteAt ctx net j tx')

/-- What happens to conflicting locks: no masternode counts for both, and a node that completes the
second one locks nothing and ends both. -/
structure ConflictsCancel (net : Net ι) : Prop where
  disjoint : ∀ i j tx tx' lock lock', SpendCommon tx tx' → ctx.hashTx tx ≠ ctx.hashTx tx' →
    (net.node i).mapTxLocks.lookup (ctx.hashTx tx) = some lock →
    (net.node j).mapTxLocks.lookup (ctx.hashTx tx') = some lock' →
      ∀ vote ∈ lock.counted, ∀ vote' ∈ lock'.counted,
        vote.vinFloatingcity ≠ vote'.vinFloatingcity
  cancelled : ∀ i env tx other, (net.node i).mapTxLockReq (ctx.hashTx tx) = some tx →
    conflictingLock (net.node i) (ctx.hashTx tx) tx.vin = some other →
      ∃ n', completeLock ctx env (ctx.hashTx tx) (net.node i) = (.ok (), n') ∧
        n'.chain = (net.node i).chain ∧
        ∀ hash, hash = ctx.hashTx tx ∨ hash = other →
          ∀ lock, n'.mapTxLocks.lookup hash = some lock → lock.nExpiration = env.time

/-! ## The votes of a network -/

section

variable {ctx : Context} {env : IxEnv} {net : Net ι} {n : Node}

theorem ownVote_eq_some {txHash : UInt256} {nBlockHeight : ℤ} {vote : CConsensusVote}
    (h : ownVote env txHash nBlockHeight = some vote) :
    env.fFloatingCity = true ∧ vote.vinFloatingcity = env.activeVin ∧ vote.txHash = txHash := by
  unfold ownVote at h
  dsimp only at h
  split_ifs at h with hnone
  push Not at hnone
  obtain ⟨signed, -⟩ := Option.filter_eq_some_iff.mp h
  obtain ⟨sig, -, rfl⟩ := Option.map_eq_some_iff.mp signed
  exact ⟨by simpa using hnone.1, rfl, rfl⟩

def VotesCast (cast : CConsensusVote → CTransaction → Prop) (node : ι → Node) : Prop :=
  ∀ i hash lock, (node i).mapTxLocks.lookup hash = some lock →
    ∀ vote ∈ lock.vecConsensusVotes, vote.txHash = hash ∧ ∃ tx, cast vote tx

theorem VotesCast.setNode {cast : CConsensusVote → CTransaction → Prop} {i : ι}
    (h : VotesCast cast net.node)
    (hfrom : VotesFrom (fun hash vote => vote.txHash = hash ∧ ∃ tx, cast vote tx) (net.node i) n) :
    VotesCast cast (net.setNode i n).node := by
  intro j hash lock hlock vote hvote
  have hnode : (net.setNode i n).node j = if j = i then n else net.node j :=
    Function.update_apply _ _ _ _
  rw [hnode] at hlock
  by_cases hj : j = i
  · subst hj
    rw [if_pos rfl] at hlock
    rcases hfrom.votes hash lock hlock vote hvote with hnew | ⟨old, hold, hmem⟩
    · exact hnew
    · exact h j hash old hold vote hmem
  · rw [if_neg hj] at hlock
    exact h j hash lock hlock vote hvote

theorem NetRun.votesCast (h : NetRun ctx net) : VotesCast net.cast net.node := by
  induction h with
  | @start net hnodes _ =>
    intro i hash lock hlock vote hvote
    obtain ⟨env, hlog, -⟩ := (hnodes i).votes.2 hash lock hlock vote hvote
    simp at hlog
  | @deliver net i env message _ hvalid ih =>
    have hfrom : VotesFrom
        (fun hash vote => vote.txHash = hash ∧ ∃ tx, (net.deliver ctx i env message).cast vote tx)
        (net.node i) (ProcessMessageInstantX ctx env message (net.node i)).2 :=
      keepsVotes_processMessage (fun vote _ hcnts => ⟨rfl, hvalid vote hcnts.signed⟩) _
    have hold : VotesCast (net.deliver ctx i env message).cast net.node := by
      intro j hash lock hlock vote hvote
      obtain ⟨hhash, tx, hcast⟩ := ih j hash lock hlock vote hvote
      exact ⟨hhash, tx, .inl hcast⟩
    exact hold.setNode hfrom
  | clean i env _ ih => exact ih.setNode (VotesFrom.clean _ env _)
  | elsewhere _ _ ih => exact ih.setNode (VotesFrom.of_eq rfl)

theorem expire_nExpiration (n : Node) (time : ℤ) (hash : UInt256) {lock : CTransactionLock}
    (h : (n.expire time hash).mapTxLocks.lookup hash = some lock) : lock.nExpiration = time := by
  unfold Node.expire at h
  rcases hold : n.mapTxLocks.lookup hash with _ | old
  · rw [hold] at h
    rw [hold] at h
    simp at h
  · rw [hold] at h
    dsimp only [Node.setLock] at h
    rw [AList.lookup_insert] at h
    rw [← Option.some.inj h]

theorem expire_of_ne (n : Node) (time : ℤ) {hash k : UInt256} (hk : k ≠ hash) :
    (n.expire time hash).mapTxLocks.lookup k = n.mapTxLocks.lookup k := by
  unfold Node.expire
  rcases n.mapTxLocks.lookup hash with _ | old
  · rfl
  · exact AList.lookup_insert_ne hk

theorem chain_expire (n : Node) (time : ℤ) (hash : UInt256) :
    (n.expire time hash).chain = n.chain := by
  unfold Node.expire
  split <;> rfl

theorem completeLock_conflict {tx : CTransaction} {other : UInt256}
    (hreq : n.mapTxLockReq (ctx.hashTx tx) = some tx)
    (hconf : conflictingLock n (ctx.hashTx tx) tx.vin = some other) :
    ∃ n', completeLock ctx env (ctx.hashTx tx) n = (.ok (), n') ∧ n'.chain = n.chain ∧
      ∀ hash, hash = ctx.hashTx tx ∨ hash = other →
        ∀ lock, n'.mapTxLocks.lookup hash = some lock → lock.nExpiration = env.time := by
  unfold completeLock
  rw [Action.get_bind]
  rw [hreq, Action.bind_apply, Action.modify_apply]
  dsimp only [Option.getD]
  generalize hm : ({ n with
    mapTxLockReq := Function.update n.mapTxLockReq (ctx.hashTx tx) (some tx) } : Node) = m
  have hchain : m.chain = n.chain := by
    rw [← hm]
  have hconf' : conflictingLock m (ctx.hashTx tx) tx.vin = some other := by
    unfold conflictingLock
    rw [hchain]
    exact hconf
  have hchk : CheckForConflictingLocks ctx env tx m
      = (.ok true, (m.expire env.time (ctx.hashTx tx)).expire env.time other) := by
    unfold CheckForConflictingLocks
    rw [hconf']
  rw [Action.bind_of_ok hchk, if_pos rfl]
  refine ⟨_, rfl, ?_, fun hash hhash lock hlock => ?_⟩
  · rw [chain_expire, chain_expire, hchain]
  · by_cases hother : hash = other
    · subst hother
      exact expire_nExpiration _ _ _ hlock
    · obtain rfl := hhash.resolve_right hother
      rw [expire_of_ne _ _ hother] at hlock
      exact expire_nExpiration _ _ _ hlock

end

/-- In every run of a network whose masternodes do not vote for two transactions that spend a common
output, no masternode counts for two such transactions, and completing the second one cancels both. -/
theorem conflicting_locks_cancel (ctx : Context) {net : Net ι} (h : NetRun ctx net)
    (hhonest : Honest ctx net.cast) : ConflictsCancel ctx net := by
  constructor
  · intro i j tx tx' lock lock' hcommon hne hlock hlock' vote hvote vote' hvote' hsame
    obtain ⟨hhash, u, hcast⟩ := h.votesCast i _ _ hlock vote (List.mem_of_mem_filter hvote)
    obtain ⟨hhash', u', hcast'⟩ := h.votesCast j _ _ hlock' vote' (List.mem_of_mem_filter hvote')
    have heq := hhonest vote u vote' u' hcast hcast' hsame tx tx' hhash.symm hhash'.symm hcommon
    rw [hhash, hhash'] at heq
    exact hne heq
  · intro i env tx other hreq hconflict
    exact completeLock_conflict hreq hconflict

end

/-! ## Two complete locks -/

def pairContext : Context :=
  { chainedContext true with
    hashTx := fun tx => BitVec.ofNat 256 (tx.nLockTime.toNat + 1000 * tx.vout.length) }

def pairTx (second : Bool) : CTransaction :=
  plainTx 0 [inputOf 11 0]
    (if second then
      [⟨24 * COIN, GetScriptForDestination (.keyID 0)⟩,
        ⟨25 * COIN, GetScriptForDestination (.keyID 0)⟩]
    else [⟨49 * COIN, GetScriptForDestination (.keyID 0)⟩])

/-- The masternodes with the numbers one and two vote for the first, those with three and four for
the second. -/
def pairVote (i : UInt32) : CConsensusVote :=
  ⟨inputOf 100 i, pairContext.hashTx (pairTx (2 < i)), 5, []⟩

def masterEnv (i : UInt32) : IxEnv :=
  { requestEnv with
    SignatureValid := fun vote => vote == pairVote i
    fFloatingCity := true
    activeVin := inputOf 100 i
    Sign := fun _ _ => some [] }

def otherEnv : IxEnv :=
  { requestEnv with
    SignatureValid := fun vote => decide (vote ∈ [pairVote 1, pairVote 2, pairVote 3, pairVote 4]) }

def idleNet : Net ℕ := ⟨fun _ => requestNode, fun _ _ => False⟩

def Net.request (net : Net ℕ) (i : UInt32) : Net ℕ :=
  net.deliver pairContext i.toNat (masterEnv i) (.txlreq (pairTx (2 < i)))

def castNet : Net ℕ := (((idleNet.request 1).request 2).request 3).request 4

def Net.collect (net : Net ℕ) (i : ℕ) (second : Bool) (a b : UInt32) : Net ℕ :=
  ((net.deliver pairContext i otherEnv (.txlreq (pairTx second))).deliver pairContext i otherEnv
    (.txlvote (pairVote a))).deliver pairContext i otherEnv (.txlvote (pairVote b))

def pairNet : Net ℕ := (castNet.collect 5 false 1 2).collect 6 true 3 4

theorem casts_pairVote {i : UInt32} (hi : i ∈ [(1 : UInt32), 2, 3, 4]) :
    Casts pairContext (masterEnv i) requestNode (pairTx (2 < i)) (pairVote i) := by
  have hall : ∀ i ∈ [(1 : UInt32), 2, 3, 4],
      IsIXTXValid pairContext (masterEnv i) requestNode.chain (pairTx (2 < i)) = true ∧
      (∀ o ∈ (pairTx (2 < i)).vout, IsNormalPaymentScript o.scriptPubKey ∨
        IsUnspendable o.scriptPubKey) ∧
      (CreateNewLock pairContext (masterEnv i) (pairTx (2 < i)) requestNode).1 = .ok 5 ∧
      (AcceptToMemoryPool pairContext (masterEnv i).toEnv (pairTx (2 < i)) true false false
        (CreateNewLock pairContext (masterEnv i) (pairTx (2 < i)) requestNode).2.chain).1 = .ok () ∧
      ownVote (masterEnv i) (pairContext.hashTx (pairTx (2 < i))) 5 = some (pairVote i) := by
    rw [← List.forall_iff_forall_mem]
    decide
  obtain ⟨hvalid, hscripts, hcreate, hacc, hvote⟩ := hall i hi
  exact ⟨⟨rfl, rfl, rfl⟩, ⟨⟨rfl, rfl⟩, hvalid, hscripts⟩, 5, _, Action.eq_of_fst hcreate, hacc, hvote⟩

theorem NetRun.request {net : Net ℕ} (hrun : NetRun pairContext net) {i : UInt32}
    (hi : i ∈ [(1 : UInt32), 2, 3, 4]) (hnode : net.node i.toNat = requestNode) :
    NetRun pairContext (net.request i) := by
  apply hrun.deliver
  intro vote hsig
  obtain rfl : vote = pairVote i := of_decide_eq_true hsig
  refine ⟨pairTx (2 < i), .inr ⟨rfl, ?_⟩⟩
  rw [hnode]
  exact casts_pairVote hi

theorem netRun_castNet : NetRun pairContext castNet := by
  have hidle : NetRun pairContext idleNet :=
    .start (fun _ => Run.start rfl rfl rfl rfl rfl) fun _ _ => id
  have hone : NetRun pairContext (idleNet.request 1) := hidle.request (by decide) rfl
  have htwo : NetRun pairContext ((idleNet.request 1).request 2) := hone.request (by decide) rfl
  have hthree : NetRun pairContext (((idleNet.request 1).request 2).request 3) :=
    htwo.request (by decide) rfl
  exact hthree.request (by decide) rfl

theorem castNet_cast {vote : CConsensusVote}
    (h : vote ∈ [pairVote 1, pairVote 2, pairVote 3, pairVote 4]) : ∃ tx, castNet.cast vote tx := by
  have hcasts : ∀ i ∈ [(1 : UInt32), 2, 3, 4], ∀ net : Net ℕ, net.node i.toNat = requestNode →
      (net.request i).cast (pairVote i) (pairTx (2 < i)) := by
    intro i hi net hnode
    refine .inr ⟨rfl, ?_⟩
    rw [hnode]
    exact casts_pairVote hi
  simp only [List.mem_cons, List.not_mem_nil, or_false] at h
  rcases h with rfl | rfl | rfl | rfl
  · exact ⟨_, .inl (.inl (.inl (hcasts 1 (by decide) _ rfl)))⟩
  · exact ⟨_, .inl (.inl (hcasts 2 (by decide) _ rfl))⟩
  · exact ⟨_, .inl (hcasts 3 (by decide) _ rfl)⟩
  · exact ⟨_, hcasts 4 (by decide) _ rfl⟩

theorem NetRun.collect {net : Net ℕ} (hrun : NetRun pairContext net)
    (hcast : ∀ vote ∈ [pairVote 1, pairVote 2, pairVote 3, pairVote 4], ∃ tx, net.cast vote tx)
    (i : ℕ) (second : Bool) (a b : UInt32) : NetRun pairContext (net.collect i second a b) := by
  have hstep : ∀ {net : Net ℕ} (message : Message), NetRun pairContext net →
      (∀ vote ∈ [pairVote 1, pairVote 2, pairVote 3, pairVote 4], ∃ tx, net.cast vote tx) →
        NetRun pairContext (net.deliver pairContext i otherEnv message) ∧
        ∀ vote ∈ [pairVote 1, pairVote 2, pairVote 3, pairVote 4],
          ∃ tx, (net.deliver pairContext i otherEnv message).cast vote tx := by
    intro net message hrun hcast
    have hlater : ∀ vote ∈ [pairVote 1, pairVote 2, pairVote 3, pairVote 4],
        ∃ tx, (net.deliver pairContext i otherEnv message).cast vote tx := by
      intro vote hvote
      obtain ⟨tx, h⟩ := hcast vote hvote
      exact ⟨tx, .inl h⟩
    exact ⟨hrun.deliver fun vote hsig => hlater vote (of_decide_eq_true hsig), hlater⟩
  obtain ⟨hreq, hcast⟩ := hstep (.txlreq (pairTx second)) hrun hcast
  obtain ⟨hone, hcast⟩ := hstep (.txlvote (pairVote a)) hreq hcast
  exact (hstep (.txlvote (pairVote b)) hone hcast).1

theorem netRun_pairNet : NetRun pairContext pairNet := by
  have hfive := netRun_castNet.collect (fun _ => castNet_cast) 5 false 1 2
  apply hfive.collect
  intro vote hvote
  obtain ⟨tx, hcast⟩ := castNet_cast hvote
  exact ⟨tx, .inl (.inl (.inl hcast))⟩

def FromMaster (vote : CConsensusVote) : Prop :=
  ∃ i ∈ [(1 : UInt32), 2, 3, 4], vote.vinFloatingcity = inputOf 100 i ∧
    vote.txHash = pairContext.hashTx (pairTx (2 < i))

theorem fromMaster_pairNet {vote : CConsensusVote} {tx : CTransaction}
    (h : pairNet.cast vote tx) : FromMaster vote := by
  have hother : ∀ {message : Message} {n : Node}, ¬(message = .txlreq tx ∧
      Casts pairContext otherEnv n tx vote) := by
    rintro message n ⟨-, hcasts⟩
    obtain ⟨height, m, -, -, hown⟩ := hcasts.accepted
    exact absurd (ownVote_eq_some hown).1 Bool.false_ne_true
  have hmas : ∀ i ∈ [(1 : UInt32), 2, 3, 4], ∀ n : Node,
      (Message.txlreq (pairTx (2 < i)) = .txlreq tx ∧ Casts pairContext (masterEnv i) n tx vote) →
        FromMaster vote := by
    rintro i hi n ⟨htx, hcasts⟩
    obtain rfl := Message.txlreq.inj htx
    obtain ⟨height, m, -, -, hown⟩ := hcasts.accepted
    obtain ⟨-, hvin, hhash⟩ := ownVote_eq_some hown
    exact ⟨i, hi, hvin, hhash⟩
  have hcast : castNet.cast vote tx := by
    rcases h with (((((h | h) | h) | h) | h) | h) | h
    · exact h
    all_goals exact absurd h hother
  rcases hcast with (((h | h) | h) | h) | h
  · exact h.elim
  · exact hmas 1 (by decide) _ h
  · exact hmas 2 (by decide) _ h
  · exact hmas 3 (by decide) _ h
  · exact hmas 4 (by decide) _ h

theorem honest_pairNet : Honest pairContext pairNet.cast := by
  intro vote u vote' u' hcast hcast' hsame _ _ _ _ _
  obtain ⟨i, -, hvin, hhash⟩ := fromMaster_pairNet hcast
  obtain ⟨j, -, hvin', hhash'⟩ := fromMaster_pairNet hcast'
  rw [hvin, hvin'] at hsame
  have hij : i = j := congrArg (fun txin : CTxIn => txin.prevout.n) hsame
  rw [hhash, hhash', hij]

/-- Two nodes can count enough votes for two transactions that spend the same output. -/
theorem both_complete :
    ¬ ∀ (ctx : Context) (net : Net ℕ), NetRun ctx net → Honest ctx net.cast → Agreement ctx net := by
  intro h
  have hcommon : SpendCommon (pairTx false) (pairTx true) :=
    ⟨inputOf 11 0, List.mem_singleton_self _, inputOf 11 0, List.mem_singleton_self _, rfl⟩
  have hne : pairContext.hashTx (pairTx false) ≠ pairContext.hashTx (pairTx true) := by
    decide
  have hfirst : ((pairNet.node 5).mapTxLocks.lookup (pairContext.hashTx (pairTx false))).map
      CTransactionLock.CountSignatures = some 2 := by
    decide
  have hsecond : ((pairNet.node 6).mapTxLocks.lookup (pairContext.hashTx (pairTx true))).map
      CTransactionLock.CountSignatures = some 2 := by
    decide
  apply h pairContext pairNet netRun_pairNet honest_pairNet 5 6 _ _ hcommon hne
  obtain ⟨lock, hlock, hcount⟩ := Option.map_eq_some_iff.mp hfirst
  obtain ⟨lock', hlock', hcount'⟩ := Option.map_eq_some_iff.mp hsecond
  exact ⟨⟨lock, hlock, hcount.ge⟩, ⟨lock', hlock', hcount'.ge⟩⟩

/-- In that network no masternode counts for both. -/
theorem pairNet_conflicts_cancel : ConflictsCancel pairContext pairNet :=
  conflicting_locks_cancel pairContext netRun_pairNet honest_pairNet

end ZalemCoin.InstantX
