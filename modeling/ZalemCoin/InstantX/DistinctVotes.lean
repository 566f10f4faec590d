import ZalemCoin.InstantX.Counting

/-!
# No masternode is counted twice

The hashes of the votes in the locks are remembered and differ from each other, along every run: a vote
gets into a lock only when its hash is new, and a hash is forgotten only together with the lock that
holds its vote. So the votes of a lock come from different masternodes, and each was valid when the
node added it.
-/

namespace ZalemCoin.InstantX

open Lib Chain
open Function (update_of_ne update_self)

/-- A vote is in at most one lock, once, and its hash is remembered. -/
structure VotesOnce (n : Node) : Prop where
  stored : ∀ hash, ∀ vote ∈ n.votesOf hash, n.mapTxLockVote vote.GetHash ≠ none
  nodup : ∀ hash, ((n.votesOf hash).map CConsensusVote.GetHash).Nodup
  apart : ∀ hash hash', ∀ vote ∈ n.votesOf hash, ∀ vote' ∈ n.votesOf hash',
    vote.GetHash = vote'.GetHash → hash = hash'

/-- A vote was added by a step of the run so far: it was valid then. -/
structure AddedIn (ctx : Context) (log : Log) (vote : CConsensusVote) (env : IxEnv) (m : Node) :
    Prop where
  logged : ∃ earlier, (env, Message.txlvote vote) :: earlier <:+ log ∧
    Run ctx (fun _ _ _ => True) m earlier
  counts : Counts env vote
  added : (ProcessMessageInstantX ctx env (.txlvote vote) m).2.votesOf vote.txHash
    = m.votesOf vote.txHash ++ [vote]

section

variable {ctx : Context} {env : IxEnv} {n n' : Node} {log : Log} {hash : UInt256}
  {tx : CTransaction} {vote : CConsensusVote}

/-! ## Requests -/

/-- The votes in the locks stay, and no vote is forgotten. -/
structure Remembers (n n' : Node) : Prop where
  votesOf : n'.votesOf = n.votesOf
  stored : ∀ hash, n.mapTxLockVote hash ≠ none → n'.mapTxLockVote hash ≠ none

theorem Remembers.of_eq (h : n'.voteView = n.voteView) : Remembers n n' := by
  obtain ⟨hstor, hvotes⟩ := Prod.mk.inj h
  constructor
  · exact hvotes
  · intro hash hne
    rwa [hstor]

theorem remembers_bind {α β : Type} {x : Action Node Failure α} {f : α → Action Node Failure β}
    (hx : Action.Keeps Remembers x) (hf : ∀ a, Action.Keeps Remembers (f a)) :
    Action.Keeps Remembers (x >>= f) := by
  apply Action.Keeps.bind _ hx hf
  intro a b c hab hbc
  constructor
  · exact hbc.votesOf.trans hab.votesOf
  · exact fun hash hne => hbc.stored hash (hab.stored hash hne)

theorem remembers_of_eq {α : Type} {x : Action Node Failure α}
    (h : ∀ n, (x n).2.voteView = n.voteView) : Action.Keeps Remembers x :=
  fun n => Remembers.of_eq (h n)

theorem remembers_createNewLock : Action.Keeps Remembers (CreateNewLock ctx env tx) := by
  apply remembers_bind (remembers_of_eq fun _ => rfl)
  intro age
  rcases age with _ | nTxAge
  · exact remembers_of_eq fun _ => rfl
  apply remembers_bind (remembers_of_eq fun _ => rfl)
  intro best
  apply remembers_bind _ fun _ => remembers_of_eq fun _ => rfl
  apply remembers_of_eq
  intro n
  rw [Action.modify_apply]
  rcases hold : n.mapTxLocks.lookup (ctx.hashTx tx) with _ | old
  · apply voteView_setLock
    unfold Node.votesOf
    rw [hold]
    rfl
  · exact voteView_setLock (votesOf_eq hold).symm

theorem remembers_acceptRequest : Action.Keeps Remembers (acceptRequest ctx env tx) := by
  apply remembers_of_eq
  intro n
  unfold acceptRequest Action.handle
  rw [Action.bind_apply]
  unfold onChain
  rcases hpool : AcceptToMemoryPool ctx env.toEnv tx true false false n.chain with ⟨e | ⟨⟩, chain⟩
  · dsimp only
    split <;> rfl
  · rfl

theorem remembers_doConsensusVote (height : ℤ) :
    Action.Keeps Remembers (DoConsensusVote ctx env tx height) := by
  unfold DoConsensusVote
  rcases ownVote env (ctx.hashTx tx) height with _ | vote
  · exact remembers_of_eq fun _ => rfl
  · intro n
    constructor
    · rfl
    · intro hash hne
      change Function.update n.mapTxLockVote vote.GetHash (some vote) hash ≠ none
      by_cases hhash : hash = vote.GetHash
      · subst hhash
        rw [update_self]
        simp
      · rwa [update_of_ne hhash]

theorem remembers_processRequest : Action.Keeps Remembers (processRequest ctx env tx) := by
  apply remembers_bind (remembers_of_eq fun _ => rfl)
  intro n
  apply remembers_bind (remembers_of_eq fun _ => rfl)
  intro _
  apply remembers_bind (remembers_of_eq fun _ => rfl)
  intro _
  apply remembers_bind (remembers_of_eq fun _ => rfl)
  intro _
  apply remembers_bind remembers_createNewLock
  intro height
  apply remembers_bind remembers_acceptRequest
  intro fAccepted
  rcases fAccepted with _ | _
  · apply remembers_bind (remembers_of_eq fun _ => rfl)
    intro _
    apply remembers_bind (remembers_of_eq fun _ => rfl)
    intro _
    apply remembers_bind (remembers_of_eq fun _ => rfl)
    intro m
    split
    · exact remembers_of_eq fun _ => rfl
    · split_ifs
      · apply remembers_bind (remembers_of_eq voteView_checkForConflictingLocks)
        intro conflict
        split_ifs <;> exact remembers_of_eq fun _ => rfl
      · exact remembers_of_eq fun _ => rfl
  · exact remembers_bind (remembers_doConsensusVote height) fun _ => remembers_of_eq fun _ => rfl

theorem VotesOnce.remembers (h : VotesOnce n) (hstep : Remembers n n') : VotesOnce n' := by
  obtain ⟨hvotes, hstor⟩ := hstep
  constructor
  · intro hash vote hvote
    rw [hvotes] at hvote
    exact hstor _ (h.stored hash vote hvote)
  · rw [hvotes]
    exact h.nodup
  · rw [hvotes]
    exact h.apart

/-! ## Votes -/

theorem VotesOnce.add (h : VotesOnce n) (hnew : n.mapTxLockVote vote.GetHash = none)
    (hstor : n'.mapTxLockVote = Function.update n.mapTxLockVote vote.GetHash (some vote))
    (hvotes : n'.votesOf = Function.update n.votesOf hash (n.votesOf hash ++ [vote])) :
    VotesOnce n' := by
  have hmem : ∀ k v, v ∈ n'.votesOf k → v ∈ n.votesOf k ∨ (k = hash ∧ v = vote) := by
    intro k v hv
    rw [hvotes] at hv
    by_cases hk : k = hash
    · subst hk
      rw [update_self] at hv
      simpa using hv
    · rw [update_of_ne hk] at hv
      exact .inl hv
  -- No vote in a lock has the hash of the new one, since that is not remembered.
  have hother : ∀ k, ∀ v ∈ n.votesOf k, v.GetHash ≠ vote.GetHash := by
    intro k v hv heq
    apply h.stored k v hv
    rw [heq]
    exact hnew
  constructor
  · intro k v hv
    rw [hstor]
    rcases hmem k v hv with hold | ⟨-, rfl⟩
    · rw [update_of_ne (hother k v hold)]
      exact h.stored k v hold
    · rw [update_self]
      simp
  · intro k
    rw [hvotes]
    by_cases hk : k = hash
    · subst hk
      rw [update_self, List.map_append, List.map_singleton, List.nodup_append]
      have hlast : ∀ a ∈ (n.votesOf k).map CConsensusVote.GetHash, a ≠ vote.GetHash := by
        intro a ha
        obtain ⟨v, hv, rfl⟩ := List.mem_map.mp ha
        exact hother k v hv
      exact ⟨h.nodup k, by simp, fun a ha b hb => by simpa [List.mem_singleton.mp hb] using hlast a ha⟩
    · rw [update_of_ne hk]
      exact h.nodup k
  · intro k k' v hv v' hv' heq
    rcases hmem k v hv with hold | ⟨rfl, rfl⟩
    · rcases hmem k' v' hv' with hold' | ⟨rfl, rfl⟩
      · exact h.apart k k' v hold v' hold' heq
      · exact absurd heq (hother k v hold)
    · rcases hmem k' v' hv' with hold' | ⟨rfl, -⟩
      · exact absurd heq.symm (hother k' v' hold')
      · rfl

theorem VotesOnce.processMessage (h : VotesOnce n) (message : Message) :
    VotesOnce (ProcessMessageInstantX ctx env message n).2 := by
  by_cases hlis : Listens env
  · cases message with
    | txlreq tx =>
      rw [processMessage_of_listens hlis]
      exact h.remembers (remembers_processRequest n)
    | txlvote vote =>
      have hview := @voteView_processVote ctx env vote hlis n
      by_cases hnew : n.mapTxLockVote vote.GetHash = none
      · rw [if_pos hnew] at hview
        obtain ⟨hstor, hvotes⟩ := Prod.mk.inj hview
        by_cases hcnts : Counts env vote
        · rw [if_pos hcnts] at hvotes
          exact h.add hnew hstor hvotes
        · rw [if_neg hcnts] at hvotes
          apply h.remembers
          constructor
          · exact hvotes
          · intro hash hne
            rw [hstor]
            have hhash : hash ≠ vote.GetHash := by
              rintro rfl
              exact hne hnew
            rwa [update_of_ne hhash]
      · rw [if_neg hnew] at hview
        exact h.remembers (Remembers.of_eq hview)
  · rw [processMessage_of_not_listens hlis]
    exact h

/-! ## Removing locks -/

theorem votesOf_erase (hlocks : n'.mapTxLocks = n.mapTxLocks.erase hash) :
    n'.votesOf = Function.update n.votesOf hash [] := by
  funext k
  unfold Node.votesOf
  rw [hlocks]
  by_cases hk : k = hash
  · subst hk
    rw [AList.lookup_erase, update_self]
    rfl
  · rw [AList.lookup_erase_ne hk, update_of_ne hk]

theorem VotesOnce.erase (h : VotesOnce n) (hlocks : n'.mapTxLocks = n.mapTxLocks.erase hash)
    (hstor : ∀ k, n.mapTxLockVote k ≠ none →
      k ∈ (n.votesOf hash).map CConsensusVote.GetHash ∨ n'.mapTxLockVote k ≠ none) :
    VotesOnce n' := by
  have hvotes := votesOf_erase hlocks
  have hmem : ∀ k v, v ∈ n'.votesOf k → v ∈ n.votesOf k ∧ k ≠ hash := by
    intro k v hv
    rw [hvotes] at hv
    by_cases hk : k = hash
    · subst hk
      rw [update_self] at hv
      simp at hv
    · rw [update_of_ne hk] at hv
      exact ⟨hv, hk⟩
  constructor
  · intro k v hv
    obtain ⟨hold, hk⟩ := hmem k v hv
    rcases hstor v.GetHash (h.stored k v hold) with hforgotten | hkept
    · obtain ⟨v', hv', heq⟩ := List.mem_map.mp hforgotten
      exact absurd (h.apart k hash v hold v' hv' heq.symm) hk
    · exact hkept
  · intro k
    rw [hvotes]
    by_cases hk : k = hash
    · subst hk
      rw [update_self]
      exact List.nodup_nil
    · rw [update_of_ne hk]
      exact h.nodup k
  · intro k k' v hv v' hv' heq
    exact h.apart k k' v (hmem k v hv).1 v' (hmem k' v' hv').1 heq

theorem VotesOnce.cleanLock (h : VotesOnce n) (env : IxEnv) (hash : UInt256) :
    VotesOnce (cleanLock env n hash) := by
  unfold InstantX.cleanLock
  rcases hlock : n.mapTxLocks.lookup hash with _ | lock
  · exact h
  dsimp only
  by_cases hexpired : env.time ≤ lock.nExpiration
  · rw [if_pos hexpired]
    exact h
  rw [if_neg hexpired]
  rcases n.mapTxLockReq lock.txHash with _ | tx
  · exact h.erase rfl fun k hk => .inr hk
  · apply h.erase rfl
    intro k hk
    dsimp only
    rw [foldl_update_none, votesOf_eq hlock]
    by_cases hmem : k ∈ lock.vecConsensusVotes.map CConsensusVote.GetHash
    · exact .inl hmem
    · rw [if_neg hmem]
      exact .inr hk

theorem VotesOnce.clean (h : VotesOnce n) (env : IxEnv) :
    VotesOnce (CleanTransactionLocksList env n) := by
  unfold CleanTransactionLocksList
  split_ifs
  · exact h
  · apply List.foldlRecOn (motive := VotesOnce) _ _ h
    exact fun m hm hash _ => hm.cleanLock env hash

/-! ## Runs -/

theorem Run.votesOnce {allowed : Node → IxEnv → Message → Prop} (h : Run ctx allowed n log) :
    VotesOnce n := by
  induction h with
  | @start n _ _ _ _ hlocks =>
    have hnone : ∀ hash, n.votesOf hash = [] := by
      intro hash
      unfold Node.votesOf
      rw [hlocks]
      rfl
    constructor
    · intro hash vote hvote
      rw [hnone] at hvote
      simp at hvote
    · intro hash
      rw [hnone]
      exact List.nodup_nil
    · intro hash hash' vote hvote
      rw [hnone] at hvote
      simp at hvote
  | @message n n' log env message r _ _ h ih =>
    have hstep := @VotesOnce.processMessage ctx env n ih message
    rwa [h] at hstep
  | clean env _ ih => exact ih.clean env
  | elsewhere _ _ ih => exact ih.remembers (Remembers.of_eq rfl)

/-- Every vote of a lock was added in a step of the run. -/
theorem Run.addedIn (h : Run ctx (fun _ _ _ => True) n log) :
    ∀ hash, ∀ vote ∈ n.votesOf hash, vote.txHash = hash ∧ ∃ env m, AddedIn ctx log vote env m := by
  induction h with
  | @start n _ _ _ _ hlocks =>
    intro hash vote hvote
    unfold Node.votesOf at hvote
    rw [hlocks] at hvote
    simp at hvote
  | @message n n' log env message r hrun _ h ih =>
    have hlater : ∀ hash, ∀ vote ∈ n.votesOf hash, vote.txHash = hash ∧
        ∃ env' m, AddedIn ctx ((env, message) :: log) vote env' m := by
      intro hash vote hvote
      obtain ⟨hhash, env', m, ⟨earlier, hsuffix, hm⟩, hcnts, hadded⟩ := ih hash vote hvote
      exact ⟨hhash, env', m, ⟨earlier, hsuffix.trans (List.suffix_cons _ _), hm⟩, hcnts, hadded⟩
    have hn' : n' = (ProcessMessageInstantX ctx env message n).2 := by rw [h]
    intro hash vote hvote
    by_cases hlis : Listens env
    · cases message with
      | txlreq tx =>
        rw [hn', processMessage_of_listens hlis] at hvote
        have hstep := @remembers_processRequest ctx env tx n
        rw [hstep.votesOf] at hvote
        exact hlater hash vote hvote
      | txlvote new =>
        have hvotes := @votesOf_processVote ctx env new hlis n
        rw [hn', hvotes] at hvote
        by_cases hadd : n.mapTxLockVote new.GetHash = none ∧ Counts env new
        · rw [if_pos hadd] at hvote hvotes
          by_cases hhash : hash = new.txHash
          · subst hhash
            rw [update_self] at hvote
            rcases List.mem_append.mp hvote with hold | hlast
            · exact hlater _ vote hold
            · obtain rfl := List.mem_singleton.mp hlast
              refine ⟨rfl, env, n, ⟨log, List.suffix_refl _, hrun⟩, hadd.2, ?_⟩
              rw [hvotes, update_self]
          · rw [update_of_ne hhash] at hvote
            exact hlater hash vote hvote
        · rw [if_neg hadd] at hvote
          exact hlater hash vote hvote
    · rw [hn', processMessage_of_not_listens hlis] at hvote
      exact hlater hash vote hvote
  | @clean n log env _ ih =>
    have hfrom := VotesFrom.clean (fun _ _ => False) env n
    intro hash vote hvote
    unfold Node.votesOf at hvote
    rcases hlock : (CleanTransactionLocksList env n).mapTxLocks.lookup hash with _ | lock
    · rw [hlock] at hvote
      simp at hvote
    · rw [hlock] at hvote
      rcases hfrom.votes hash lock hlock vote hvote with hfalse | ⟨old, hold, hmem⟩
      · exact hfalse.elim
      · rw [← votesOf_eq hold] at hmem
        exact ih hash vote hmem
  | elsewhere _ _ ih => exact ih

end

/-- What the votes that are counted for a transaction are: votes of different masternodes, each for the
transaction and the height of the lock, and each valid when it was added. -/
structure SoundCount (ctx : Context) (log : Log) (lock : CTransactionLock) : Prop where
  distinct : (lock.counted.map fun vote => vote.vinFloatingcity.prevout).Nodup
  counted : lock.nBlockHeight ≠ 0 →
    lock.CountSignatures = (lock.counted.map fun vote => vote.vinFloatingcity.prevout).length
  valid : ∀ vote ∈ lock.counted, vote.txHash = lock.txHash ∧ ∃ env m, AddedIn ctx log vote env m ∧
    env.SignatureValid vote = true ∧
    env.GetFloatingcityRank vote.vinFloatingcity lock.nBlockHeight ≠ -1 ∧
    env.GetFloatingcityRank vote.vinFloatingcity lock.nBlockHeight ≤ INSTANTX_SIGNATURES_TOTAL

/-- Along every run, the votes counted for a transaction come from different masternodes and were valid
when they were added. -/
theorem countSignatures_sound (ctx : Context) {n : Node} {log : Log} {hash : UInt256}
    {lock : CTransactionLock} (h : Run ctx (fun _ _ _ => True) n log)
    (hlock : n.mapTxLocks.lookup hash = some lock) : SoundCount ctx log lock := by
  have hvotes := votesOf_eq hlock
  have hadded := h.addedIn hash
  rw [hvotes] at hadded
  constructor
  · have hnodup := h.votesOnce.nodup hash
    rw [hvotes] at hnodup
    have hcounted : (lock.counted.map CConsensusVote.GetHash).Nodup :=
      hnodup.sublist (List.filter_sublist.map _)
    -- Votes for one transaction with different hashes come from different masternodes.
    apply List.Nodup.map_on _ (List.Nodup.of_map _ hcounted)
    intro vote hvote vote' hvote' hprevout
    have htx : vote.txHash = vote'.txHash := by
      rw [(hadded vote (List.mem_of_mem_filter hvote)).1,
        (hadded vote' (List.mem_of_mem_filter hvote')).1]
    have hhash : vote.GetHash = vote'.GetHash := by
      unfold CConsensusVote.GetHash
      rw [hprevout, htx]
    exact List.inj_on_of_nodup_map hcounted hvote hvote' hhash
  · intro hheight
    unfold CTransactionLock.CountSignatures
    rw [if_neg hheight, List.length_map]
  · intro vote hvote
    obtain ⟨htx, env, m, hin⟩ := hadded vote (List.mem_of_mem_filter hvote)
    have hheight : vote.nBlockHeight = lock.nBlockHeight := by
      simpa using List.of_mem_filter hvote
    have hcounts := hin.counts
    refine ⟨htx.trans (h.votes.1 hash lock hlock).symm, env, m, hin, hcounts.signed, ?_, ?_⟩
    · rw [← hheight]
      exact hcounts.known
    · rw [← hheight]
      exact hcounts.ranked

/-- After a request and two votes, two votes are counted. -/
theorem votedNode_sound :
    ∃ lock log, votedNode.mapTxLocks.lookup 0 = some lock ∧ lock.CountSignatures = 2 ∧
      SoundCount (chainedContext true) log lock := by
  have hstart : Run (chainedContext true) (fun _ _ _ => True) requestNode [] :=
    Run.start rfl rfl rfl rfl rfl
  have hasked := @Run.after _ _ _ hstart (.txlreq (requestTx 11)) trivial
  have hone := @Run.after _ _ _ hasked (.txlvote (requestVote 1)) trivial
  have htwo := @Run.after _ _ _ hone (.txlvote (requestVote 2)) trivial
  have hlock : votedNode.mapTxLocks.lookup 0
      = some ⟨5, 0, [requestVote 1, requestVote 2], 2000 + 20 * 60⟩ := by decide
  exact ⟨_, _, hlock, by decide, countSignatures_sound _ htwo hlock⟩

end ZalemCoin.InstantX
