import ZalemCoin.InstantX.Locks

/-!
# Where the votes of a lock come from

A vote gets into a lock only when the node receives it and finds it valid, and it gets into the lock of
the transaction that it is for. Every lock is stored under its transaction.
-/

namespace ZalemCoin.InstantX

open Lib Chain

/-- Every lock is stored under its transaction. -/
def Keyed (n : Node) : Prop :=
  ∀ hash lock, n.mapTxLocks.lookup hash = some lock → lock.txHash = hash

/-- A vote that a node finds valid: it is signed by a masternode that may vote. -/
structure Counts (env : IxEnv) (vote : CConsensusVote) : Prop where
  signed : env.SignatureValid vote = true
  known : env.GetFloatingcityRank vote.vinFloatingcity vote.nBlockHeight ≠ -1
  ranked : env.GetFloatingcityRank vote.vinFloatingcity vote.nBlockHeight
    ≤ INSTANTX_SIGNATURES_TOTAL

/-- Locks stay stored under their transactions, and their votes were there before, or satisfy a
predicate. -/
structure VotesFrom (V : UInt256 → CConsensusVote → Prop) (n n' : Node) : Prop where
  keyed : Keyed n → Keyed n'
  votes : ∀ hash lock', n'.mapTxLocks.lookup hash = some lock' → ∀ vote ∈ lock'.vecConsensusVotes,
    V hash vote ∨ ∃ lock, n.mapTxLocks.lookup hash = some lock ∧ vote ∈ lock.vecConsensusVotes

variable {V : UInt256 → CConsensusVote → Prop} {ctx : Context} {env : IxEnv} {n n' n'' : Node}
  {hash : UInt256} {lock : CTransactionLock} {tx : CTransaction} {α : Type}

/-! ## Single changes -/

theorem VotesFrom.of_eq (h : n'.mapTxLocks = n.mapTxLocks) : VotesFrom V n n' := by
  constructor
  · intro hkeyed
    unfold Keyed
    rw [h]
    exact hkeyed
  · intro k l hl vote hvote
    rw [h] at hl
    exact .inr ⟨l, hl, hvote⟩

theorem VotesFrom.trans (h : VotesFrom V n n') (h' : VotesFrom V n' n'') : VotesFrom V n n'' := by
  constructor
  · exact fun hkeyed => h'.keyed (h.keyed hkeyed)
  · intro k l hl vote hvote
    rcases h'.votes k l hl vote hvote with hv | ⟨l', hl', hvote'⟩
    · exact .inl hv
    · exact h.votes k l' hl' vote hvote'

theorem VotesFrom.setLock (hkey : Keyed n → lock.txHash = hash)
    (hvotes : ∀ vote ∈ lock.vecConsensusVotes, V hash vote ∨
      ∃ old, n.mapTxLocks.lookup hash = some old ∧ vote ∈ old.vecConsensusVotes) :
    VotesFrom V n (n.setLock hash lock) := by
  have hlook : ∀ k l, (n.mapTxLocks.insert hash lock).lookup k = some l →
      (k = hash ∧ l = lock) ∨ n.mapTxLocks.lookup k = some l := by
    intro k l hl
    by_cases hk : k = hash
    · subst hk
      rw [AList.lookup_insert] at hl
      exact .inl ⟨rfl, (Option.some.inj hl).symm⟩
    · rw [AList.lookup_insert_ne hk] at hl
      exact .inr hl
  constructor
  · intro hkeyed k l hl
    rcases hlook k l hl with ⟨rfl, rfl⟩ | hl
    · exact hkey hkeyed
    · exact hkeyed k l hl
  · intro k l hl vote hvote
    rcases hlook k l hl with ⟨rfl, rfl⟩ | hl
    · exact hvotes vote hvote
    · exact .inr ⟨l, hl, hvote⟩

theorem VotesFrom.changeLock {old : CTransactionLock} (hold : n.mapTxLocks.lookup hash = some old)
    (htx : lock.txHash = old.txHash) (hvotes : lock.vecConsensusVotes = old.vecConsensusVotes) :
    VotesFrom V n (n.setLock hash lock) := by
  apply VotesFrom.setLock
  · intro hkeyed
    exact htx.trans (hkeyed hash old hold)
  · intro vote hvote
    rw [hvotes] at hvote
    exact .inr ⟨old, hold, hvote⟩

theorem VotesFrom.expire (V : UInt256 → CConsensusVote → Prop) (n : Node) (time : ℤ)
    (hash : UInt256) : VotesFrom V n (n.expire time hash) := by
  unfold Node.expire
  rcases hold : n.mapTxLocks.lookup hash with _ | old
  · exact VotesFrom.of_eq rfl
  · exact VotesFrom.changeLock hold rfl rfl

/-! ## Calls -/

theorem keepsVotes_of_eq {x : Action Node Failure α}
    (h : ∀ n, (x n).2.mapTxLocks = n.mapTxLocks) : Action.Keeps (VotesFrom V) x :=
  fun n => VotesFrom.of_eq (h n)

theorem keepsVotes_bind {β : Type} {x : Action Node Failure α} {f : α → Action Node Failure β}
    (hx : Action.Keeps (VotesFrom V) x) (hf : ∀ a, Action.Keeps (VotesFrom V) (f a)) :
    Action.Keeps (VotesFrom V) (x >>= f) :=
  Action.Keeps.bind (fun hab hbc => hab.trans hbc) hx hf

theorem keepsVotes_createNewLock : Action.Keeps (VotesFrom V) (CreateNewLock ctx env tx) := by
  refine keepsVotes_bind (keepsVotes_of_eq fun _ => rfl) fun age => ?_
  rcases age with _ | nTxAge
  · exact keepsVotes_of_eq fun _ => rfl
  refine keepsVotes_bind (keepsVotes_of_eq fun _ => rfl) fun best => ?_
  refine keepsVotes_bind (fun n => ?_) fun _ => keepsVotes_of_eq fun _ => rfl
  rw [Action.modify_apply]
  rcases hold : n.mapTxLocks.lookup (ctx.hashTx tx) with _ | old
  · exact VotesFrom.setLock (fun _ => rfl) (by simp)
  · exact VotesFrom.changeLock hold rfl rfl

theorem keepsVotes_checkForConflictingLocks :
    Action.Keeps (VotesFrom V) (CheckForConflictingLocks ctx env tx) := by
  intro n
  unfold CheckForConflictingLocks
  split
  · exact VotesFrom.of_eq rfl
  · exact (VotesFrom.expire V n _ _).trans (VotesFrom.expire V _ _ _)

theorem keepsVotes_acceptRequest : Action.Keeps (VotesFrom V) (acceptRequest ctx env tx) := by
  apply keepsVotes_of_eq
  intro n
  unfold acceptRequest Action.handle
  rw [Action.bind_apply]
  unfold onChain
  rcases hpool : AcceptToMemoryPool ctx env.toEnv tx true false false n.chain with ⟨e | ⟨⟩, chain⟩
  · dsimp only
    split <;> rfl
  · rfl

theorem keepsVotes_processRequest : Action.Keeps (VotesFrom V) (processRequest ctx env tx) := by
  refine keepsVotes_bind (keepsVotes_of_eq fun _ => rfl) fun n => ?_
  refine keepsVotes_bind (keepsVotes_of_eq fun _ => rfl) fun _ => ?_
  refine keepsVotes_bind (keepsVotes_of_eq fun _ => rfl) fun _ => ?_
  refine keepsVotes_bind (keepsVotes_of_eq fun _ => rfl) fun _ => ?_
  refine keepsVotes_bind keepsVotes_createNewLock fun height => ?_
  refine keepsVotes_bind keepsVotes_acceptRequest fun fAccepted => ?_
  rcases fAccepted with _ | _
  · refine keepsVotes_bind (keepsVotes_of_eq fun _ => rfl) fun _ => ?_
    refine keepsVotes_bind (keepsVotes_of_eq fun _ => rfl) fun _ => ?_
    refine keepsVotes_bind (keepsVotes_of_eq fun _ => rfl) fun n => ?_
    split
    · exact keepsVotes_of_eq fun _ => rfl
    · split_ifs
      · refine keepsVotes_bind keepsVotes_checkForConflictingLocks fun conflict => ?_
        split_ifs <;> exact keepsVotes_of_eq fun _ => rfl
      · exact keepsVotes_of_eq fun _ => rfl
  · refine keepsVotes_bind (keepsVotes_of_eq fun n => ?_) fun _ => keepsVotes_of_eq fun _ => rfl
    unfold DoConsensusVote
    rcases ownVote env (ctx.hashTx tx) height with _ | vote <;> rfl

theorem keepsVotes_completeLock : Action.Keeps (VotesFrom V) (completeLock ctx env hash) := by
  refine keepsVotes_bind (keepsVotes_of_eq fun _ => rfl) fun n => ?_
  refine keepsVotes_bind (keepsVotes_of_eq fun _ => rfl) fun _ => ?_
  refine keepsVotes_bind keepsVotes_checkForConflictingLocks fun conflict => ?_
  split_ifs
  · exact keepsVotes_of_eq fun _ => rfl
  · refine keepsVotes_bind (keepsVotes_of_eq fun _ => rfl) fun _ => ?_
    refine keepsVotes_bind (keepsVotes_of_eq fun _ => rfl) fun n => ?_
    split <;> exact keepsVotes_of_eq fun _ => rfl

theorem VotesFrom.addVote {vote : CConsensusVote} (hv : V vote.txHash vote) (time : ℤ) :
    VotesFrom V n (n.setLock vote.txHash
      (((n.mapTxLocks.lookup vote.txHash).getD ⟨0, vote.txHash, [], time⟩).AddSignature vote)) := by
  rcases hold : n.mapTxLocks.lookup vote.txHash with _ | old
  · apply VotesFrom.setLock
    · exact fun _ => rfl
    · intro v hmem
      obtain rfl := List.mem_singleton.mp hmem
      exact .inl hv
  · apply VotesFrom.setLock
    · exact fun hkeyed => hkeyed _ old hold
    · intro v hmem
      rcases List.mem_append.mp hmem with hmem | hmem
      · exact .inr ⟨old, hold, hmem⟩
      · obtain rfl := List.mem_singleton.mp hmem
        exact .inl hv

theorem keepsVotes_processConsensusVote {vote : CConsensusVote}
    (hV : Counts env vote → V vote.txHash vote) :
    Action.Keeps (VotesFrom V) (ProcessConsensusVote ctx env vote) := by
  intro n
  generalize hres : ProcessConsensusVote ctx env vote n = result
  obtain ⟨r, n'⟩ := result
  unfold ProcessConsensusVote at hres
  rcases Action.check_bind_cases hres with rfl | ⟨hknown, hres⟩
  · exact VotesFrom.of_eq rfl
  rcases Action.check_bind_cases hres with rfl | ⟨hranked, hres⟩
  · exact VotesFrom.of_eq rfl
  rcases Action.check_bind_cases hres with rfl | ⟨hsig, hres⟩
  · exact VotesFrom.of_eq rfl
  rw [Action.get_bind, Action.modify_bind] at hres
  have hadd := @VotesFrom.addVote V n vote (hV ⟨hsig, hknown, hranked⟩) (env.time + 20 * 60)
  split_ifs at hres
  · exact hadd.trans (Action.Keeps.of_eq keepsVotes_completeLock hres)
  · rw [← (Prod.mk.inj hres).2]
    exact hadd

theorem keepsVotes_processMessage {message : Message}
    (hV : ∀ vote, message = .txlvote vote → Counts env vote → V vote.txHash vote) :
    Action.Keeps (VotesFrom V) (ProcessMessageInstantX ctx env message) := by
  refine keepsVotes_bind (keepsVotes_of_eq fun _ => rfl) fun _ => ?_
  refine keepsVotes_bind (keepsVotes_of_eq fun _ => rfl) fun _ => ?_
  refine keepsVotes_bind (keepsVotes_of_eq fun _ => rfl) fun _ => ?_
  cases message with
  | txlreq tx => exact keepsVotes_processRequest
  | txlvote vote =>
    refine keepsVotes_bind (keepsVotes_of_eq fun _ => rfl) fun n => ?_
    refine keepsVotes_bind (keepsVotes_of_eq fun _ => rfl) fun _ => ?_
    refine keepsVotes_bind (keepsVotes_of_eq fun _ => rfl) fun _ => ?_
    exact keepsVotes_processConsensusVote (hV vote rfl)

theorem VotesFrom.cleanLock (V : UInt256 → CConsensusVote → Prop) (env : IxEnv) (n : Node)
    (hash : UInt256) : VotesFrom V n (cleanLock env n hash) := by
  have herase : ∀ m : Node, m.mapTxLocks = n.mapTxLocks.erase hash → VotesFrom V n m := by
    intro m hm
    have hlook : ∀ k l, m.mapTxLocks.lookup k = some l → n.mapTxLocks.lookup k = some l := by
      intro k l hl
      rw [hm] at hl
      by_cases hk : k = hash
      · subst hk
        rw [AList.lookup_erase] at hl
        simp at hl
      · rwa [AList.lookup_erase_ne hk] at hl
    exact ⟨fun hkeyed k l hl => hkeyed k l (hlook k l hl),
      fun k l hl vote hvote => .inr ⟨l, hlook k l hl, hvote⟩⟩
  unfold InstantX.cleanLock
  split
  · exact VotesFrom.of_eq rfl
  · split_ifs
    · exact VotesFrom.of_eq rfl
    · split <;> exact herase _ rfl

theorem VotesFrom.clean (V : UInt256 → CConsensusVote → Prop) (env : IxEnv) (n : Node) :
    VotesFrom V n (CleanTransactionLocksList env n) := by
  have hall : ∀ (keys : List UInt256) (m : Node),
      VotesFrom V m (keys.foldl (InstantX.cleanLock env) m) := by
    intro keys
    induction keys with
    | nil => exact fun m => VotesFrom.of_eq rfl
    | cons hash keys ih => exact fun m => (VotesFrom.cleanLock V env m hash).trans (ih _)
  unfold CleanTransactionLocksList
  split_ifs
  · exact VotesFrom.of_eq rfl
  · exact hall _ n

end ZalemCoin.InstantX
