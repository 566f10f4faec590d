import ZalemCoin.Payments.Elections

/-!
# Whether the nodes agree on the payees

Nodes that take the same announcements in different orders, and announce nothing themselves, agree on
all payees exactly when for every height all announcements that some order elects name the same
payee. The hash of an announcement leaves out its payee, and the score does not depend on it either,
so that this is not always so.
-/

namespace ZalemCoin.Payments

open Chain Lib

variable {ctx : Context} {s s' : State} {winner : CFloatingcityPaymentWinner}
  {M l : List CFloatingcityPaymentWinner} {calls : List LocalCall} {history : List Event}

/-! ## Histories -/

def messages (history : List Event) : List CFloatingcityPaymentWinner :=
  history.filterMap fun event =>
    match event with
    | .mnw winner => some winner
    | .localCall _ => none

def localCalls (history : List Event) : List LocalCall :=
  history.filterMap fun event =>
    match event with
    | .mnw _ => none
    | .localCall call => some call

/-- A history in which some announcements arrive, in any order and between any of the local calls,
which are made in their order. -/
structure IsHistory (M : List CFloatingcityPaymentWinner) (calls : List LocalCall)
    (history : List Event) : Prop where
  messages : (messages history).Perm M
  calls : localCalls history = calls

/-- A node that has not seen any announcement, and whose cache of block hashes agrees with its
chain. -/
structure Fresh (ctx : Context) (s : State) : Prop where
  vWinning : s.vWinning = []
  seen : ∀ k, s.mapSeenFloatingcityVotes k = none
  cache : CacheOk ctx s

def payeeAt (s : State) (h : ℤ) : Option CScript := (GetBlockPayee s h).map Prod.fst

/-- Two nodes agree on all payees, whatever the orders are in which the announcements arrive. -/
def Converges (ctx : Context) (s s' : State) (M : List CFloatingcityPaymentWinner)
    (calls : List LocalCall) : Prop :=
  ∀ history history', IsHistory M calls history → IsHistory M calls history' →
    ∀ h, payeeAt (runHistory ctx s history) h = payeeAt (runHistory ctx s' history') h

/-- Whether a local call announces nothing: the node does not have the payments key, or has announced
a winner for that height or a later one already. -/
def LocalCall.Idle (s : State) : LocalCall → Prop
  | processBlock nBlockHeight _ => s.enabled = false ∨ nBlockHeight ≤ s.nLastBlockHeight
  | cleanPaymentList => True

/-- For every height, the announcements that some order elects name the same payee, and there are
none if some order elects nobody. -/
def Decided (ctx : Context) (M : List CFloatingcityPaymentWinner) : Prop :=
  ∀ h,
    (∀ winner winner',
      CanWin (CFloatingcityPaymentWinner.GetHash ctx) (electionScore ctx h)
        (M.filter (takes ctx)) winner →
      CanWin (CFloatingcityPaymentWinner.GetHash ctx) (electionScore ctx h)
        (M.filter (takes ctx)) winner' → winner.payee = winner'.payee) ∧
    (CanStayEmpty (CFloatingcityPaymentWinner.GetHash ctx) (electionScore ctx h)
        (M.filter (takes ctx)) →
      ∀ winner, ¬CanWin (CFloatingcityPaymentWinner.GetHash ctx) (electionScore ctx h)
        (M.filter (takes ctx)) winner)

/-! ## What a history does to the elections -/

theorem LocalCall.Idle.congr {call : LocalCall} (h : call.Idle s) (hown : s'.own = s.own) :
    call.Idle s' := by
  obtain ⟨henabled, hlast⟩ := Prod.mk.inj hown
  cases call with
  | processBlock nBlockHeight stack =>
    unfold LocalCall.Idle at h ⊢
    rw [henabled, hlast]
    exact h
  | cleanPaymentList => trivial

theorem Fresh.elects (hs : Fresh ctx s) : Elects ctx [] s := by
  refine ⟨hs.cache, ?_, fun k => ?_, fun h => ?_, ?_⟩
  · unfold OnePerHeight
    rw [hs.vWinning]
    exact List.nodup_nil
  · rw [hs.seen k]
    simp [elect]
  · rw [hs.vWinning]
    rfl
  · rw [hs.vWinning]
    simp

theorem processMnw_of_not_takes (htakes : takes ctx winner = false) :
    processMnw ctx winner s = s := by
  unfold processMnw
  split
  · rfl
  · rename_i hready
    split
    · rfl
    · rw [if_pos]
      by_contra haccepts
      unfold takes at htakes
      simp_all

/-- A local call that announces nothing leaves the node as it is: all of its winners are too recent
to be removed. -/
theorem Elects.localCall {call : LocalCall} (hs : Elects ctx l s) (hidle : call.Idle s) :
    call.run ctx s = s := by
  cases call with
  | processBlock nBlockHeight stack =>
    show (ProcessBlock ctx nBlockHeight stack s).2 = s
    unfold ProcessBlock
    split
    · rfl
    · rename_i hlater
      rw [if_pos (hidle.resolve_right hlater)]
  | cleanPaymentList =>
    show CleanPaymentList ctx s = s
    unfold CleanPaymentList
    split
    · rfl
    · have hkept : (s.vWinning.eraseP fun winner => decide (ctx.bestHeight - winner.nBlockHeight
          > max (ctx.vFloatingcities.length : ℤ) 1000)) = s.vWinning := by
        apply List.eraseP_of_forall_not
        intro winner hwinner
        have hrecent := hs.recent _ (List.mem_map_of_mem hwinner)
        rw [decide_eq_true_eq]
        omega
      dsimp only
      rw [hkept]

theorem Elects.runHistory (hs : Elects ctx l s)
    (hidle : ∀ call ∈ localCalls history, call.Idle s) :
    Elects ctx (l ++ (messages history).filter (takes ctx)) (runHistory ctx s history) := by
  induction history generalizing l s with
  | nil => simpa [messages, Payments.runHistory] using hs
  | cons event history ih =>
    cases event with
    | mnw winner =>
      have hmessages : messages (.mnw winner :: history) = winner :: messages history := rfl
      rw [hmessages, List.filter_cons]
      show Elects ctx _ (Payments.runHistory ctx (Payments.processMnw ctx winner s) history)
      by_cases htakes : takes ctx winner = true
      · obtain ⟨hs₁, hown⟩ := hs.processMnw htakes
        rw [if_pos htakes, List.append_cons]
        exact ih hs₁ fun call hcall => (hidle call hcall).congr hown
      · rw [if_neg htakes, processMnw_of_not_takes (by simpa using htakes)]
        exact ih hs hidle
    | localCall call =>
      have hcall : call.Idle s := hidle call List.mem_cons_self
      show Elects ctx (l ++ (messages history).filter (takes ctx))
        (Payments.runHistory ctx (call.run ctx s) history)
      rw [hs.localCall hcall]
      exact ih hs fun call hmem => hidle call (List.mem_cons_of_mem _ hmem)

theorem Elects.payeeAt (hs : Elects ctx l s) (h : ℤ) :
    payeeAt s h = (elect (CFloatingcityPaymentWinner.GetHash ctx) (electionScore ctx h) l).best.map
      CFloatingcityPaymentWinner.payee := by
  have hwinner : Payments.payeeAt s h
      = (winnerAt s.vWinning h).map CFloatingcityPaymentWinner.payee := by
    unfold Payments.payeeAt GetBlockPayee winnerAt
    rw [Option.map_map]
    rfl
  rw [hwinner, hs.winner h, Option.map_map]
  apply congrArg (Option.map · _)
  funext winner
  exact scored_payee ctx winner

theorem runHistory_of_not_takes (hnone : ∀ winner ∈ messages history, takes ctx winner = false) :
    runHistory ctx s history = (localCalls history).foldl (LocalCall.run ctx) s := by
  induction history generalizing s with
  | nil => rfl
  | cons event history ih =>
    cases event with
    | mnw winner =>
      show Payments.runHistory ctx (processMnw ctx winner s) history
        = (localCalls history).foldl (LocalCall.run ctx) s
      rw [processMnw_of_not_takes (hnone winner List.mem_cons_self)]
      exact ih fun winner hwinner => hnone winner (List.mem_cons_of_mem _ hwinner)
    | localCall call =>
      show Payments.runHistory ctx (call.run ctx s) history
        = (localCalls history).foldl (LocalCall.run ctx) (call.run ctx s)
      exact ih hnone

/-! ## The orders of the announcements -/

theorem exists_isHistory (hl : l.Perm (M.filter (takes ctx))) (calls : List LocalCall) :
    ∃ history, IsHistory M calls history ∧ (messages history).filter (takes ctx) = l := by
  obtain ⟨others, hothers⟩ : ∃ others, others = M.filter fun winner => !takes ctx winner := ⟨_, rfl⟩
  have hmessages : messages ((l ++ others).map Event.mnw ++ calls.map Event.localCall)
      = l ++ others := by
    unfold messages
    rw [List.filterMap_append, List.filterMap_map, List.filterMap_map]
    simp
  have hcalls : localCalls ((l ++ others).map Event.mnw ++ calls.map Event.localCall) = calls := by
    unfold localCalls
    rw [List.filterMap_append, List.filterMap_map, List.filterMap_map]
    simp
  refine ⟨(l ++ others).map Event.mnw ++ calls.map Event.localCall, ⟨?_, hcalls⟩, ?_⟩
  · rw [hmessages, hothers]
    exact (hl.append_right _).trans (List.filter_append_perm _ _)
  · have htaken : l.filter (takes ctx) = l := by
      apply List.filter_eq_self.mpr
      intro winner hwinner
      exact (List.mem_filter.mp (hl.mem_iff.mp hwinner)).2
    rw [hmessages, List.filter_append, htaken, hothers, List.filter_filter]
    simp

theorem IsHistory.mem_iff (hh : IsHistory M calls history) :
    winner ∈ (Payments.messages history).filter (takes ctx) ↔ winner ∈ M.filter (takes ctx) :=
  (hh.messages.filter (takes ctx)).mem_iff

def twoBlocks : Context where
  hashHeight := BitVec.ofInt 256
  hashHash := id
  verifyMessage := fun _ _ => true
  signMessage := fun _ => some []
  chain := [1, 2]
  synced := true
  vFloatingcities :=
    [⟨⟨⟨70, 0⟩, [], 0xffffffff⟩, true, 0, 1000, 500, 0, [], [0x51]⟩,
      ⟨⟨⟨80, 0⟩, [], 0xffffffff⟩, true, 0, 1000, 400, 0, [], [0x52]⟩]
  minProto := 0

def startedNode (enabled : Bool) : State := ⟨[], enabled, 0, fun _ => none, fun _ => none⟩

theorem fresh_startedNode (ctx : Context) (enabled : Bool) : Fresh ctx (startedNode enabled) :=
  ⟨rfl, fun _ => rfl, fun _ _ hcached => by cases hcached⟩

def announce (payee : CScript) : CFloatingcityPaymentWinner :=
  ⟨5, ⟨⟨70, 0⟩, [], 0xffffffff⟩, payee, [], 0⟩

def announceSecond : CFloatingcityPaymentWinner :=
  { announce [0x52] with vin := ⟨⟨80, 0⟩, [], 0xffffffff⟩ }

end ZalemCoin.Payments
