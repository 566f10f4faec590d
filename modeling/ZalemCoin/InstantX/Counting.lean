import ZalemCoin.InstantX.Authorisation

/-!
# Which votes are counted

A node remembers the votes that it has received by their hash, and ignores a vote whose hash it
remembers. So a lock holds at most one vote of a masternode. But a vote is remembered before the node
looks at its signature, its rank or its height, so one that does not count takes the place of one that
does.
-/

namespace ZalemCoin.InstantX

open Lib Chain
open Function (update update_of_ne update_self)
open Lib.Action (check_bind_of check_bind_cases)

def Node.votesOf (n : Node) (hash : UInt256) : List CConsensusVote :=
  ((n.mapTxLocks.lookup hash).map CTransactionLock.vecConsensusVotes).getD []

/-- What a node has of votes: those that it has received, by hash, and those in its locks. -/
def Node.voteView (n : Node) : (UInt256 → Option CConsensusVote) × (UInt256 → List CConsensusVote) :=
  (n.mapTxLockVote, n.votesOf)

/-- A node processes messages about locks. -/
def Listens (env : IxEnv) : Prop :=
  env.fLiteMode = false ∧ env.fInstantX = true ∧ env.fBlockchainSynced = true

instance (env : IxEnv) : Decidable (Listens env) :=
  inferInstanceAs (Decidable (_ ∧ _ ∧ _))

instance (env : IxEnv) (vote : CConsensusVote) : Decidable (Counts env vote) :=
  decidable_of_iff (env.SignatureValid vote = true ∧
      env.GetFloatingcityRank vote.vinFloatingcity vote.nBlockHeight ≠ -1 ∧
      env.GetFloatingcityRank vote.vinFloatingcity vote.nBlockHeight ≤ INSTANTX_SIGNATURES_TOTAL)
    ⟨fun h => ⟨h.1, h.2.1, h.2.2⟩, fun h => ⟨h.1, h.2, h.3⟩⟩

section

variable {ctx : Context} {env : IxEnv} {n n' : Node} {hash : UInt256} {tx : CTransaction}
  {vote : CConsensusVote}

/-! ## What a message does to the votes -/

theorem votesOf_eq {lock : CTransactionLock} (h : n.mapTxLocks.lookup hash = some lock) :
    n.votesOf hash = lock.vecConsensusVotes := by
  unfold Node.votesOf
  rw [h]
  rfl

theorem votesOf_setLock (n : Node) (hash : UInt256) (lock : CTransactionLock) :
    (n.setLock hash lock).votesOf
      = update n.votesOf hash lock.vecConsensusVotes := by
  funext k
  unfold Node.votesOf Node.setLock
  by_cases hk : k = hash
  · subst hk
    rw [AList.lookup_insert, update_self]
    rfl
  · rw [AList.lookup_insert_ne hk, update_of_ne hk]

theorem voteView_setLock {lock : CTransactionLock} (h : lock.vecConsensusVotes = n.votesOf hash) :
    (n.setLock hash lock).voteView = n.voteView := by
  unfold Node.voteView
  rw [votesOf_setLock, h, Function.update_eq_self]
  rfl

theorem voteView_expire (n : Node) (time : ℤ) (hash : UInt256) :
    (n.expire time hash).voteView = n.voteView := by
  unfold Node.expire
  rcases hlock : n.mapTxLocks.lookup hash with _ | lock
  · rfl
  · exact voteView_setLock (votesOf_eq hlock).symm

theorem voteView_checkForConflictingLocks (n : Node) :
    (CheckForConflictingLocks ctx env tx n).2.voteView = n.voteView := by
  unfold CheckForConflictingLocks
  split
  · rfl
  · exact (voteView_expire _ _ _).trans (voteView_expire _ _ _)

theorem keepsView_bind {α β : Type} {x : Action Node Failure α} {f : α → Action Node Failure β}
    (hx : Action.Keeps (fun n n' => n'.voteView = n.voteView) x)
    (hf : ∀ a, Action.Keeps (fun n n' => n'.voteView = n.voteView) (f a)) :
    Action.Keeps (fun n n' => n'.voteView = n.voteView) (x >>= f) :=
  Action.Keeps.bind (fun hab hbc => hbc.trans hab) hx hf

theorem keepsView_completeLock (ctx : Context) (env : IxEnv) (hash : UInt256) :
    Action.Keeps (fun n n' => n'.voteView = n.voteView) (completeLock ctx env hash) := by
  apply keepsView_bind (fun _ => rfl)
  intro n
  apply keepsView_bind (fun _ => rfl)
  intro _
  apply keepsView_bind voteView_checkForConflictingLocks
  intro conflict
  split_ifs
  · exact fun _ => rfl
  · apply keepsView_bind (fun _ => rfl)
    intro _
    apply keepsView_bind (fun _ => rfl)
    intro m
    split <;> exact fun _ => rfl

theorem voteView_processConsensusVote (n : Node) :
    (ProcessConsensusVote ctx env vote n).2.voteView = (n.mapTxLockVote,
      if Counts env vote then
        update n.votesOf vote.txHash (n.votesOf vote.txHash ++ [vote])
      else n.votesOf) := by
  generalize hres : ProcessConsensusVote ctx env vote n = result
  obtain ⟨r, n'⟩ := result
  by_cases hcnts : Counts env vote
  · rw [if_pos hcnts]
    unfold ProcessConsensusVote at hres
    rw [check_bind_of hcnts.known, check_bind_of hcnts.ranked,
      check_bind_of hcnts.signed, Action.get_bind] at hres
    generalize hlock : ((n.mapTxLocks.lookup vote.txHash).getD
      ⟨0, vote.txHash, [], env.time + 20 * 60⟩).AddSignature vote = lock at hres
    have hvotes : lock.vecConsensusVotes = n.votesOf vote.txHash ++ [vote] := by
      rw [← hlock]
      unfold Node.votesOf
      rcases n.mapTxLocks.lookup vote.txHash with _ | old <;> rfl
    have hset : (n.setLock vote.txHash lock).voteView = (n.mapTxLockVote,
        update n.votesOf vote.txHash (n.votesOf vote.txHash ++ [vote])) := by
      rw [← hvotes, ← votesOf_setLock]
      rfl
    rw [← hset]
    split_ifs at hres
    · exact (keepsView_completeLock ctx env vote.txHash).of_eq hres
    · rw [← (Prod.mk.inj hres).2]
  · rw [if_neg hcnts]
    -- One of the three checks fails, before anything is changed.
    have hsame : n' = n := by
      rcases check_bind_cases hres with rfl | ⟨hknown, hres⟩
      · rfl
      rcases check_bind_cases hres with rfl | ⟨hranked, hres⟩
      · rfl
      rcases check_bind_cases hres with rfl | ⟨hsig, hres⟩
      · rfl
      exact absurd ⟨hsig, hknown, hranked⟩ hcnts
    rw [hsame]
    rfl

theorem processMessage_of_not_listens {message : Message} (h : ¬Listens env) (n : Node) :
    (ProcessMessageInstantX ctx env message n).2 = n := by
  generalize hres : ProcessMessageInstantX ctx env message n = result
  obtain ⟨r, n'⟩ := result
  rcases check_bind_cases hres with rfl | ⟨hlite, hres⟩
  · rfl
  rcases check_bind_cases hres with rfl | ⟨hact, hres⟩
  · rfl
  rcases check_bind_cases hres with rfl | ⟨hsynced, hres⟩
  · rfl
  exact absurd ⟨hlite, hact, hsynced⟩ h

theorem processMessage_of_listens {message : Message} (h : Listens env) (n : Node) :
    ProcessMessageInstantX ctx env message n = match message with
      | .txlreq tx => processRequest ctx env tx n
      | .txlvote vote => processVote ctx env vote n := by
  unfold ProcessMessageInstantX
  rw [check_bind_of h.1, check_bind_of h.2.1, check_bind_of h.2.2]
  cases message <;> rfl

theorem voteView_processVote (hlis : Listens env) (n : Node) :
    (ProcessMessageInstantX ctx env (.txlvote vote) n).2.voteView =
      if n.mapTxLockVote vote.GetHash = none then
        (update n.mapTxLockVote vote.GetHash (some vote),
          if Counts env vote then
            update n.votesOf vote.txHash (n.votesOf vote.txHash ++ [vote])
          else n.votesOf)
      else n.voteView := by
  rw [processMessage_of_listens hlis]
  change (processVote ctx env vote n).2.voteView = _
  unfold processVote
  rw [Action.get_bind]
  by_cases hnew : n.mapTxLockVote vote.GetHash = none
  · rw [if_pos hnew, check_bind_of hnew, Action.modify_bind]
    exact voteView_processConsensusVote _
  · rw [if_neg hnew, Action.check_bind_of_not hnew]

theorem votesOf_processVote (hlis : Listens env) (n : Node) :
    (ProcessMessageInstantX ctx env (.txlvote vote) n).2.votesOf =
      if n.mapTxLockVote vote.GetHash = none ∧ Counts env vote then
        update n.votesOf vote.txHash (n.votesOf vote.txHash ++ [vote])
      else n.votesOf := by
  have hview := congrArg Prod.snd (@voteView_processVote ctx env vote hlis n)
  change (ProcessMessageInstantX ctx env (.txlvote vote) n).2.votesOf = _ at hview
  rw [hview]
  by_cases hnew : n.mapTxLockVote vote.GetHash = none
  · rw [if_pos hnew]
    by_cases hcnts : Counts env vote <;> simp [hnew, hcnts]
  · simp [hnew, Node.voteView]

/-! ## Votes that take the place of others -/

def CTransactionLock.forHeight (lock : CTransactionLock) (vote : CConsensusVote) :
    CTransactionLock := { lock with nBlockHeight := vote.nBlockHeight }

/-- The vote of a masternode for a transaction is counted, when the height of the lock is that of the
vote. -/
def CountedFor (n : Node) (vote : CConsensusVote) : Prop :=
  ∃ lock, n.mapTxLocks.lookup vote.txHash = some lock ∧
    ∃ other ∈ (lock.forHeight vote).counted,
      other.vinFloatingcity.prevout = vote.vinFloatingcity.prevout

/-- Two votes of a masternode, for one transaction and one height. -/
structure SameVote (other vote : CConsensusVote) : Prop where
  prevout : other.vinFloatingcity.prevout = vote.vinFloatingcity.prevout
  txHash : other.txHash = vote.txHash
  nBlockHeight : other.nBlockHeight = vote.nBlockHeight

def Node.receive (ctx : Context) (n : Node) (m : IxEnv × CConsensusVote) : Node :=
  (ProcessMessageInstantX ctx m.1 (.txlvote m.2) n).2

def Node.receiveAll (ctx : Context) (n : Node) (votes : List (IxEnv × CConsensusVote)) : Node :=
  votes.foldl (Node.receive ctx) n

def firstOf (vote : CConsensusVote) (votes : List (IxEnv × CConsensusVote)) :
    Option (IxEnv × CConsensusVote) :=
  votes.find? fun m => decide (Listens m.1 ∧ m.2.GetHash = vote.GetHash)

/-- The first of some votes with the hash of a given one is a valid vote of the same masternode, for
the same transaction and height. -/
def FirstCounts (vote : CConsensusVote) (votes : List (IxEnv × CConsensusVote)) : Prop :=
  ∃ m, firstOf vote votes = some m ∧ Counts m.1 m.2 ∧ SameVote m.2 vote

/-- A vote that reaches a node first prevents a later vote, of the same masternode for the same
transaction, from being counted: it would be counted without the first. -/
def Prevents (ctx : Context) (n : Node) (bad : IxEnv × CConsensusVote)
    (votes : List (IxEnv × CConsensusVote)) (vote : CConsensusVote) : Prop :=
  CountedFor (n.receiveAll ctx votes) vote ∧ ¬CountedFor (n.receiveAll ctx (bad :: votes)) vote

theorem countedFor_iff : CountedFor n vote ↔ ∃ other ∈ n.votesOf vote.txHash,
    other.nBlockHeight = vote.nBlockHeight ∧
      other.vinFloatingcity.prevout = vote.vinFloatingcity.prevout := by
  unfold CountedFor Node.votesOf
  rcases n.mapTxLocks.lookup vote.txHash with _ | lock
  · simp
  · simp [CTransactionLock.counted, CTransactionLock.forHeight, and_assoc]

theorem SameVote.getHash {other : CConsensusVote} (h : SameVote other vote) :
    other.GetHash = vote.GetHash := by
  unfold CConsensusVote.GetHash
  rw [h.prevout, h.txHash]

theorem countedFor_receive (m : IxEnv × CConsensusVote) :
    CountedFor (n.receive ctx m) vote ↔ CountedFor n vote ∨
      (Listens m.1 ∧ n.mapTxLockVote m.2.GetHash = none ∧ Counts m.1 m.2 ∧ SameVote m.2 vote) := by
  rw [countedFor_iff, countedFor_iff]
  by_cases hlis : Listens m.1
  · have hvotes := @votesOf_processVote ctx m.1 m.2 hlis n
    change (n.receive ctx m).votesOf = _ at hvotes
    rw [hvotes]
    by_cases hadd : n.mapTxLockVote m.2.GetHash = none ∧ Counts m.1 m.2
    · rw [if_pos hadd]
      by_cases htx : m.2.txHash = vote.txHash
      · rw [htx, update_self]
        constructor
        · rintro ⟨other, hmem, hheight, hprev⟩
          rcases List.mem_append.mp hmem with hold | hnew
          · exact .inl ⟨other, hold, hheight, hprev⟩
          · obtain rfl := List.mem_singleton.mp hnew
            exact .inr ⟨hlis, hadd.1, hadd.2, hprev, htx, hheight⟩
        · rintro (⟨other, hold, hrest⟩ | ⟨-, -, -, hsame⟩)
          · exact ⟨other, List.mem_append_left _ hold, hrest⟩
          · exact ⟨m.2, by simp, hsame.nBlockHeight, hsame.prevout⟩
      · rw [update_of_ne (Ne.symm htx)]
        constructor
        · exact .inl
        · rintro (hold | ⟨-, -, -, hsame⟩)
          · exact hold
          · exact absurd hsame.txHash htx
    · rw [if_neg hadd]
      constructor
      · exact .inl
      · rintro (hold | ⟨-, hnew, hcnts, -⟩)
        · exact hold
        · exact absurd ⟨hnew, hcnts⟩ hadd
  · unfold Node.receive
    rw [processMessage_of_not_listens hlis]
    simp [hlis]

theorem mapTxLockVote_receive (m : IxEnv × CConsensusVote) (hash : UInt256) :
    (n.receive ctx m).mapTxLockVote hash = none ↔
      n.mapTxLockVote hash = none ∧ ¬(Listens m.1 ∧ m.2.GetHash = hash) := by
  by_cases hlis : Listens m.1
  · have hfst := congrArg Prod.fst (@voteView_processVote ctx m.1 m.2 hlis n)
    change (n.receive ctx m).mapTxLockVote = _ at hfst
    rw [hfst]
    by_cases hhash : m.2.GetHash = hash
    · subst hhash
      by_cases hnew : n.mapTxLockVote m.2.GetHash = none
      · simp [hnew, hlis]
      · simp [hnew, Node.voteView]
    · by_cases hnew : n.mapTxLockVote m.2.GetHash = none
      · rw [if_pos hnew]
        dsimp only
        rw [update_of_ne (Ne.symm hhash)]
        simp [hhash]
      · rw [if_neg hnew]
        simp [Node.voteView, hhash]
  · unfold Node.receive
    rw [processMessage_of_not_listens hlis]
    simp [hlis]

theorem countedFor_receiveAll (votes : List (IxEnv × CConsensusVote)) :
    CountedFor (n.receiveAll ctx votes) vote ↔ CountedFor n vote ∨
      (n.mapTxLockVote vote.GetHash = none ∧ FirstCounts vote votes) := by
  induction votes generalizing n with
  | nil =>
    change CountedFor n vote ↔ _
    simp [FirstCounts, firstOf]
  | cons m votes ih =>
    change CountedFor ((n.receive ctx m).receiveAll ctx votes) vote ↔ _
    rw [ih, countedFor_receive, mapTxLockVote_receive]
    have hfst : firstOf vote (m :: votes) =
        if Listens m.1 ∧ m.2.GetHash = vote.GetHash then some m else firstOf vote votes := by
      unfold firstOf
      rw [List.find?_cons]
      by_cases h : Listens m.1 ∧ m.2.GetHash = vote.GetHash <;> simp [h]
    unfold FirstCounts
    rw [hfst]
    by_cases h : Listens m.1 ∧ m.2.GetHash = vote.GetHash
    · -- This is the first vote with the hash, and the later ones are ignored.
      rw [if_pos h]
      constructor
      · rintro ((hold | ⟨-, hnew, hcnts, hsame⟩) | ⟨⟨-, hother⟩, -⟩)
        · exact .inl hold
        · rw [h.2] at hnew
          exact .inr ⟨hnew, m, rfl, hcnts, hsame⟩
        · exact absurd h hother
      · rintro (hold | ⟨hnew, m', hm, hcnts, hsame⟩)
        · exact .inl (.inl hold)
        · cases hm
          rw [← h.2] at hnew
          exact .inl (.inr ⟨h.1, hnew, hcnts, hsame⟩)
    · rw [if_neg h]
      constructor
      · rintro ((hold | ⟨hlis, -, -, hsame⟩) | ⟨⟨hnew, -⟩, hlater⟩)
        · exact .inl hold
        · exact absurd ⟨hlis, hsame.getHash⟩ h
        · exact .inr ⟨hnew, hlater⟩
      · rintro (hold | ⟨hnew, hlater⟩)
        · exact .inl (.inl hold)
        · exact .inr ⟨⟨hnew, h⟩, hlater⟩

end

/-- A vote that is invalid does not prevent a valid one of the same masternode for the same transaction
from being counted, exactly when the node does not process it or remembers its hash already, when the
vote of the masternode is counted already, or when an invalid vote with that hash comes first anyway. -/
theorem not_prevents_iff (ctx : Context) (n : Node) (bad good : IxEnv × CConsensusVote)
    (votes : List (IxEnv × CConsensusVote))
    (hprevout : bad.2.vinFloatingcity.prevout = good.2.vinFloatingcity.prevout)
    (htx : bad.2.txHash = good.2.txHash)
    (hbad : ¬(Counts bad.1 bad.2 ∧ bad.2.nBlockHeight = good.2.nBlockHeight))
    (hgood : Listens good.1 ∧ Counts good.1 good.2) :
    ¬Prevents ctx n bad (votes ++ [good]) good.2 ↔
      ¬Listens bad.1 ∨ n.mapTxLockVote good.2.GetHash ≠ none ∨ CountedFor n good.2 ∨
        ∃ m, firstOf good.2 votes = some m ∧ ¬(Counts m.1 m.2 ∧ SameVote m.2 good.2) := by
  have hhash : bad.2.GetHash = good.2.GetHash := by
    unfold CConsensusVote.GetHash
    rw [hprevout, htx]
  have hlater : ¬FirstCounts good.2 (votes ++ [good]) ↔
      ∃ m, firstOf good.2 votes = some m ∧ ¬(Counts m.1 m.2 ∧ SameVote m.2 good.2) := by
    have happend : firstOf good.2 (votes ++ [good]) = (firstOf good.2 votes).or (some good) := by
      unfold firstOf
      rw [List.find?_append]
      simp [hgood.1]
    unfold FirstCounts
    rw [happend]
    rcases firstOf good.2 votes with _ | m
    · have hself : SameVote good.2 good.2 := ⟨rfl, rfl, rfl⟩
      simp [hgood.2, hself]
    · simp
  unfold Prevents
  rw [countedFor_receiveAll, countedFor_receiveAll, ← hlater]
  by_cases hlistens : Listens bad.1
  · -- The invalid vote is the first with its hash, so nothing is counted after it.
    have hfirst : ¬FirstCounts good.2 (bad :: (votes ++ [good])) := by
      unfold FirstCounts firstOf
      rw [List.find?_cons]
      rintro ⟨m, hm, hcounts, hsame⟩
      simp only [hlistens, hhash, and_self, decide_true] at hm
      cases hm
      exact hbad ⟨hcounts, hsame.nBlockHeight⟩
    simp only [hlistens, hfirst, not_true_eq_false, and_false, or_false, false_or]
    tauto
  · have hskip : FirstCounts good.2 (bad :: (votes ++ [good]))
        ↔ FirstCounts good.2 (votes ++ [good]) := by
      unfold FirstCounts firstOf
      rw [List.find?_cons]
      simp [hlistens]
    rw [hskip]
    simp only [hlistens, not_false_eq_true, true_or, iff_true]
    tauto

def signedEnv : IxEnv :=
  { requestEnv with SignatureValid := fun vote => vote.vchFloatingCitySignature == [1] }

def forgedVote : CConsensusVote := ⟨inputOf 100 1, 0, 5, []⟩
def signedVote : CConsensusVote := ⟨inputOf 100 1, 0, 5, [1]⟩

def askedNode : Node := requestNode.after (.txlreq (requestTx 11))

/-- After the right vote, the wrong one does no harm. -/
theorem forged_after_signed :
    ¬Prevents (chainedContext true) (askedNode.receive (chainedContext true) (signedEnv, signedVote))
      (signedEnv, forgedVote) [(signedEnv, signedVote)] signedVote := by
  refine (not_prevents_iff (chainedContext true) _ (signedEnv, forgedVote) (signedEnv, signedVote) []
    rfl rfl (by decide) (by decide)).mpr (Or.inr (Or.inl ?_))
  decide

/-- A vote with a wrong signature that comes first prevents the right one from being counted, in a
state that a node gets into by a request. -/
theorem forged_before_signed :
    ¬∀ (ctx : Context) (n : Node) (log : Log) (bad good : IxEnv × CConsensusVote)
      (votes : List (IxEnv × CConsensusVote)), Run ctx (fun _ _ _ => True) n log →
      bad.2.vinFloatingcity.prevout = good.2.vinFloatingcity.prevout →
      bad.2.txHash = good.2.txHash →
      ¬(Counts bad.1 bad.2 ∧ bad.2.nBlockHeight = good.2.nBlockHeight) →
      Listens good.1 ∧ Counts good.1 good.2 →
        ¬Prevents ctx n bad (votes ++ [good]) good.2 := by
  intro h
  have hstart : Run (chainedContext true) (fun _ _ _ => True) requestNode [] :=
    Run.start rfl rfl rfl rfl rfl
  have hrun := @Run.after _ _ _ hstart (.txlreq (requestTx 11)) trivial
  apply h (chainedContext true) askedNode _ (signedEnv, forgedVote) (signedEnv, signedVote) [] hrun
    rfl rfl (by decide) (by decide)
  constructor
  · rw [countedFor_iff]
    decide
  · rw [countedFor_iff]
    decide

end ZalemCoin.InstantX
