import ZalemCoin.Floatingcity.Admission

/-!
# Announcements that are replayed

An announcement is signed together with its time, and an entry takes the newest one. A ping that is
not newer than the last one is ignored. But an announcement that is not newer than that of the entry
still counts as a sign of life: the node notes that it has seen the masternode, when the key is that of
the entry, the number that marks a new announcement says so, which is not signed, and the masternode
has not been seen for five minutes.
-/

namespace ZalemCoin.Floatingcity

open Lib Chain Script
open Lib.Action (get_bind check_bind_cases check_bind_of)

variable (ctx : Context)

/-- An announcement passes the checks that come before a look at the list. -/
structure Announces (signer : CMNengineSigner) (env : FcEnv) (m : Dsee) : Prop where
  synced : env.fBlockchainSynced = true
  past : m.sigTime ≤ env.adjustedTime + 60 * 60
  donation : 0 ≤ m.donationPercentage ∧ m.donationPercentage ≤ 100
  version : MIN_POOL_PEER_PROTO_VERSION ≤ m.protocolVersion
  pubkey : (payee ctx m.pubkey).length = 25
  pubkey2 : (payee ctx m.pubkey2).length = 25
  scriptSig : m.vin.scriptSig = []
  signed : signer.verifyDsee m.pubkey m.vchSig m.addr m.sigTime m.pubkey m.pubkey2
    m.protocolVersion m.donationAddress m.donationPercentage = true

structure SignOfLife (signer : CMNengineSigner) (env : FcEnv) (n : Node) (m : Dsee)
    (mn : CFloatingcity) : Prop where
  announces : Announces ctx signer env m
  foreign : ¬announcesSelf env n m
  count : m.count = -1
  pubkey : mn.pubkey = m.pubkey
  unseen : mn.UpdatedWithin env FLOATINGCITY_MIN_DSEE_SECONDS = false

def Node.FindsAt (n : Node) (vin : CTxIn) (i : ℕ) (mn : CFloatingcity) : Prop :=
  n.mnodeman.Find vin = some i ∧ n.mnodeman.vFloatingcities[i]? = some mn

structure NewerAnnouncement (signer : CMNengineSigner) (env : FcEnv) (m : Dsee)
    (mn : CFloatingcity) : Prop where
  announces : Announces ctx signer env m
  named : mn.vin.prevout = m.vin.prevout
  newer : mn.sigTime < m.sigTime

structure NewerPing (signer : CMNengineSigner) (env : FcEnv) (m : Dseep) (mn : CFloatingcity) :
    Prop where
  past : m.sigTime ≤ env.adjustedTime + 60 * 60
  recent : env.adjustedTime - 60 * 60 < m.sigTime
  named : mn.vin.prevout = m.vin.prevout
  newer : mn.lastDseep < m.sigTime
  signed : signer.verifyDseep mn.pubkey2 m.vchSig mn.addr m.sigTime m.stop = true

/-- What protects a list from replayed announcements: one that is not newer leaves its entry alone,
and only a newer announcement or a newer ping advances the time when a masternode was seen. -/
structure ProtectsFromReplay (signer : CMNengineSigner) (env : FcEnv) (n : Node)
    (message : Message) : Prop where
  unchanged : ∀ m i mn, message = .dsee m → n.FindsAt m.vin i mn → m.sigTime ≤ mn.sigTime →
    (ProcessMessage ctx signer env message n).2.mnodeman.vFloatingcities[i]? = some mn
  seen : ∀ (j : ℕ) (mn mn' : CFloatingcity), n.mnodeman.vFloatingcities[j]? = some mn →
    (ProcessMessage ctx signer env message n).2.mnodeman.vFloatingcities[j]? = some mn' →
    mn.lastTimeSeen < mn'.lastTimeSeen →
      (∃ m, message = .dsee m ∧ NewerAnnouncement ctx signer env m mn) ∨
        ∃ m, message = .dseep m ∧ NewerPing signer env m mn

/-- A message is an announcement that is not newer than that of its entry, and a sign of life. -/
def Replays (signer : CMNengineSigner) (env : FcEnv) (n : Node)
    (message : Message) : Prop :=
  ∃ m i mn, message = .dsee m ∧ n.FindsAt m.vin i mn ∧ m.sigTime ≤ mn.sigTime ∧
    SignOfLife ctx signer env n m mn

section

variable {ctx : Context} {signer : CMNengineSigner} {env : FcEnv} {n : Node} {m : Dsee} {i : ℕ}
  {mn : CFloatingcity}

theorem Node.FindsAt.prevout {vin : CTxIn} (h : n.FindsAt vin i mn) :
    mn.vin.prevout = vin.prevout := by
  obtain ⟨hfind, hent⟩ := h
  obtain ⟨hlt, hmatch, -⟩ := List.findIdx?_eq_some_iff_getElem.mp hfind
  obtain ⟨hlt', rfl⟩ := List.getElem?_eq_some_iff.mp hent
  simpa using hmatch

theorem exists_findsAt {vin : CTxIn} (h : n.mnodeman.Find vin = some i) :
    ∃ mn, n.FindsAt vin i mn := by
  obtain ⟨hlt, -, -⟩ := List.findIdx?_eq_some_iff_getElem.mp h
  exact ⟨_, h, List.getElem?_eq_getElem hlt⟩

theorem entries_changeEntry {f : NodeState → CFloatingcity → Except Failure CFloatingcity}
    (hent : n.mnodeman.vFloatingcities[i]? = some mn) :
    (changeEntry i f n).2.mnodeman.vFloatingcities = match f n.chain mn with
      | .ok mn' => n.mnodeman.vFloatingcities.set i mn'
      | .error _ => n.mnodeman.vFloatingcities := by
  unfold changeEntry
  rw [get_bind]
  rw [hent]
  dsimp only
  rw [Action.bind_apply, Action.reading_apply]
  rcases f n.chain mn with e | mn' <;> rfl

theorem entries_acceptEntry {j : ℕ} (hj : n.mnodeman.vFloatingcities[j]? = some mn) :
    (acceptEntry ctx env m n).2.mnodeman.vFloatingcities[j]? = some mn := by
  generalize hres : acceptEntry ctx env m n = result
  obtain ⟨r, n'⟩ := result
  rcases mnodeman_acceptEntry hres with hsame | ⟨-, hadd⟩
  · rw [hsame]
    exact hj
  · rw [hadd]
    rcases add_cases n.mnodeman (CFloatingcity.new env m) with hsame | ⟨-, happ⟩
    · rw [hsame]
      exact hj
    · obtain ⟨hlt, -⟩ := List.getElem?_eq_some_iff.mp hj
      rw [happ, List.getElem?_append_left hlt]
      exact hj

theorem processMessage_of_not_announces (h : ¬Announces ctx signer env m) :
    (ProcessMessage ctx signer env (.dsee m) n).2 = n := by
  generalize hres : ProcessMessage ctx signer env (.dsee m) n = result
  obtain ⟨r, n'⟩ := result
  rcases check_bind_cases hres with rfl | ⟨hsynced, hres⟩
  · rfl
  rcases check_bind_cases hres with rfl | ⟨hpast, hres⟩
  · rfl
  rcases check_bind_cases hres with rfl | ⟨hdonation, hres⟩
  · rfl
  rcases check_bind_cases hres with rfl | ⟨hver, hres⟩
  · rfl
  rcases check_bind_cases hres with rfl | ⟨hpubkey, hres⟩
  · rfl
  rcases check_bind_cases hres with rfl | ⟨hpubkey2, hres⟩
  · rfl
  rcases check_bind_cases hres with rfl | ⟨hscriptSig, hres⟩
  · rfl
  rcases check_bind_cases hres with rfl | ⟨hsig, hres⟩
  · rfl
  exact absurd ⟨hsynced, hpast, hdonation, hver, hpubkey, hpubkey2, hscriptSig, hsig⟩ h

theorem processMessage_of_announces (h : Announces ctx signer env m) :
    ProcessMessage ctx signer env (.dsee m) n = match n.mnodeman.Find m.vin with
      | some i =>
        if announcesSelf env n m then acceptEntry ctx env m n
        else changeEntry i (fun s mn => mn.update ctx env s m) n
      | none => acceptEntry ctx env m n := by
  unfold ProcessMessage processDsee
  rw [check_bind_of h.synced]
  dsimp only
  rw [check_bind_of h.past, check_bind_of h.donation, check_bind_of h.version,
    check_bind_of h.pubkey, check_bind_of h.pubkey2,
    check_bind_of h.scriptSig, check_bind_of h.signed, get_bind]
  rcases n.mnodeman.Find m.vin with _ | i
  · rfl
  · dsimp only
    split_ifs <;> rfl

theorem entries_processDsee {j : ℕ} (hannounces : Announces ctx signer env m)
    (hj : n.mnodeman.vFloatingcities[j]? = some mn) :
    (ProcessMessage ctx signer env (.dsee m) n).2.mnodeman.vFloatingcities[j]? =
      if n.mnodeman.Find m.vin = some j ∧ ¬announcesSelf env n m then
        match mn.update ctx env n.chain m with
        | .ok mn' => some mn'
        | .error _ => some mn
      else some mn := by
  rw [processMessage_of_announces hannounces]
  rcases hfind : n.mnodeman.Find m.vin with _ | i
  · dsimp only
    rw [if_neg (by simp)]
    exact entries_acceptEntry hj
  · dsimp only
    by_cases hself : announcesSelf env n m
    · rw [if_pos hself, if_neg (by simp [hself])]
      exact entries_acceptEntry hj
    · rw [if_neg hself]
      obtain ⟨found, -, hfound⟩ := exists_findsAt hfind
      rw [entries_changeEntry hfound]
      by_cases hij : i = j
      · subst hij
        obtain rfl : mn = found := Option.mem_unique hj hfound
        obtain ⟨hlt, -⟩ := List.getElem?_eq_some_iff.mp hj
        rw [if_pos ⟨rfl, hself⟩]
        rcases mn.update ctx env n.chain m with e | mn'
        · exact hj
        · exact List.getElem?_set_self hlt
      · rw [if_neg (by simp [hij])]
        rcases found.update ctx env n.chain m with e | mn'
        · exact hj
        · exact (List.getElem?_set_ne hij).trans hj

/-- An entry changes only through a recent ping of its own. -/
theorem entries_processDseep {p : Dseep} {j : ℕ}
    (hj : n.mnodeman.vFloatingcities[j]? = some mn) :
    (ProcessMessage ctx signer env (.dseep p) n).2.mnodeman.vFloatingcities[j]? = some mn ∨
      ∃ mn', (ProcessMessage ctx signer env (.dseep p) n).2.mnodeman.vFloatingcities[j]? = some mn' ∧
        mn.ping ctx signer env n.chain p = .ok mn' ∧ n.FindsAt p.vin j mn ∧
        p.sigTime ≤ env.adjustedTime + 60 * 60 ∧ env.adjustedTime - 60 * 60 < p.sigTime := by
  generalize hres : ProcessMessage ctx signer env (.dseep p) n = result
  obtain ⟨r, n'⟩ := result
  rcases check_bind_cases hres with rfl | ⟨-, hres⟩
  · exact .inl hj
  rcases check_bind_cases hres with rfl | ⟨hpast, hres⟩
  · exact .inl hj
  rcases check_bind_cases hres with rfl | ⟨hrecent, hres⟩
  · exact .inl hj
  rw [get_bind] at hres
  rcases hfilter : (n.mnodeman.Find p.vin).filter _ with _ | i
  · rw [hfilter] at hres
    left
    rw [entries_askForEntry hres]
    exact hj
  · rw [hfilter] at hres
    change changeEntry i (fun s mn => mn.ping ctx signer env s p) n = (r, n') at hres
    have hfind : n.mnodeman.Find p.vin = some i := (Option.filter_eq_some_iff.mp hfilter).1
    obtain ⟨found, -, hfound⟩ := exists_findsAt hfind
    have hlist := @entries_changeEntry n i found (fun s mn => mn.ping ctx signer env s p) hfound
    rw [hres] at hlist
    rw [hlist]
    by_cases hij : i = j
    · subst hij
      obtain rfl : mn = found := Option.mem_unique hj hfound
      obtain ⟨hlt, -⟩ := List.getElem?_eq_some_iff.mp hj
      rcases hping : mn.ping ctx signer env n.chain p with e | mn'
      · exact .inl hj
      · right
        exact ⟨mn', List.getElem?_set_self hlt, rfl, ⟨hfind, hj⟩, hpast, hrecent⟩
    · left
      rcases found.ping ctx signer env n.chain p with e | mn'
      · exact hj
      · exact (List.getElem?_set_ne hij).trans hj

theorem lastTimeSeen_ne (h : mn.UpdatedWithin env FLOATINGCITY_MIN_DSEE_SECONDS = false) :
    mn.lastTimeSeen ≠ env.adjustedTime := by
  intro heq
  unfold CFloatingcity.UpdatedWithin at h
  rw [heq, sub_self] at h
  exact absurd h (by decide)

theorem update_of_le (s : NodeState) (hold : m.sigTime ≤ mn.sigTime) :
    mn.update ctx env s m = .ok (
      if m.count = -1 ∧ mn.pubkey = m.pubkey ∧
          mn.UpdatedWithin env FLOATINGCITY_MIN_DSEE_SECONDS = false then mn.UpdateLastSeen env 0
      else mn) := by
  unfold CFloatingcity.update
  dsimp only
  split_ifs with hlife hnewer
  · have hsame : (mn.UpdateLastSeen env 0).sigTime = mn.sigTime := rfl
    omega
  · rfl
  · rfl

theorem ping_of_seen {p : Dseep} {mn' : CFloatingcity} {s : NodeState}
    (h : mn.ping ctx signer env s p = .ok mn') (hseen : mn.lastTimeSeen < mn'.lastTimeSeen) :
    mn.lastDseep < p.sigTime ∧
      signer.verifyDseep mn.pubkey2 p.vchSig mn.addr p.sigTime p.stop = true := by
  unfold CFloatingcity.ping at h
  by_cases hnewer : mn.lastDseep < p.sigTime
  · rw [if_pos hnewer] at h
    obtain ⟨hsig, -⟩ := ensure_ok h
    exact ⟨hnewer, hsig⟩
  · rw [if_neg hnewer] at h
    cases h
    omega

end

/-- A message does no harm by being replayed exactly when it is not an announcement that is a sign of
life and not newer than that of its entry. -/
theorem protectsFromReplay_iff (ctx : Context) (signer : CMNengineSigner) (env : FcEnv) (n : Node)
    (message : Message) :
    ProtectsFromReplay ctx signer env n message ↔ ¬Replays ctx signer env n message := by
  constructor
  · rintro h ⟨m, i, mn, rfl, hfinds, hold, hlife⟩
    have hsame := h.unchanged m i mn rfl hfinds hold
    rw [entries_processDsee hlife.announces hfinds.2, if_pos ⟨hfinds.1, hlife.foreign⟩,
      update_of_le _ hold, if_pos ⟨hlife.count, hlife.pubkey, hlife.unseen⟩] at hsame
    have htime : (mn.UpdateLastSeen env 0).lastTimeSeen = mn.lastTimeSeen :=
      congrArg CFloatingcity.lastTimeSeen (Option.some.inj hsame)
    exact lastTimeSeen_ne hlife.unseen htime.symm
  · intro h
    constructor
    · rintro m i mn rfl hfinds hold
      by_cases hannounces : Announces ctx signer env m
      · rw [entries_processDsee hannounces hfinds.2]
        by_cases hfound : n.mnodeman.Find m.vin = some i ∧ ¬announcesSelf env n m
        · rw [if_pos hfound, update_of_le _ hold, if_neg]
          rintro ⟨hcount, hpubkey, hunseen⟩
          exact h ⟨m, i, mn, rfl, hfinds, hold, hannounces, hfound.2, hcount, hpubkey, hunseen⟩
        · rw [if_neg hfound]
      · rw [processMessage_of_not_announces hannounces]
        exact hfinds.2
    · intro j mn mn' hj hj' hseen
      cases message with
      | dsee m =>
        left
        refine ⟨m, rfl, ?_⟩
        by_cases hannounces : Announces ctx signer env m
        · rw [entries_processDsee hannounces hj] at hj'
          by_cases hfound : n.mnodeman.Find m.vin = some j ∧ ¬announcesSelf env n m
          · have hfinds : n.FindsAt m.vin j mn := ⟨hfound.1, hj⟩
            refine ⟨hannounces, hfinds.prevout, ?_⟩
            by_contra hnot
            have hold : m.sigTime ≤ mn.sigTime := by omega
            rw [if_pos hfound, update_of_le _ hold] at hj'
            split_ifs at hj' with hlife
            · obtain ⟨hcount, hpubkey, hunseen⟩ := hlife
              exact h ⟨m, j, mn, rfl, hfinds, hold, hannounces, hfound.2, hcount, hpubkey, hunseen⟩
            · cases hj'
              omega
          · rw [if_neg hfound] at hj'
            cases hj'
            omega
        · rw [processMessage_of_not_announces hannounces, hj] at hj'
          cases hj'
          omega
      | dseep p =>
        right
        refine ⟨p, rfl, ?_⟩
        rcases @entries_processDseep ctx signer env n mn p j hj with hsame |
          ⟨new, hnew, hping, hfinds, hpast, hrecent⟩
        · rw [hsame] at hj'
          cases hj'
          omega
        · rw [hnew] at hj'
          cases hj'
          obtain ⟨hnewer, hsigned⟩ := ping_of_seen hping hseen
          exact ⟨hpast, hrecent, hfinds.prevout, hnewer, hsigned⟩

def laterEnv : FcEnv := { fundedEnv with toEnv := plainEnv 2600 }

/-- The announcement that made an entry, received again after ten minutes, makes the masternode seen,
though its signature is as old as that of the entry. -/
theorem announced_again :
    ¬∀ (ctx : Context) (signer : CMNengineSigner) (env : FcEnv) (n : Node) (past : List Node)
      (message : Message), Run ctx signer (fun _ _ _ => True) n past →
        ProtectsFromReplay ctx signer env n message := by
  intro h
  have hprotects := h fundingContext anySigner laterEnv (announced 0) [fundedNode]
    (.dsee (fundedDsee 0)) (run_announced 0 trivial)
  obtain ⟨mn, hfinds, htime, hseen⟩ : ∃ mn, (announced 0).FindsAt (inputOf 11 0) 0 mn ∧
      mn.sigTime = 1500 ∧ mn.lastTimeSeen = 2000 := by
    refine ⟨CFloatingcity.new fundedEnv (fundedDsee 0), ⟨?_, ?_⟩, rfl, rfl⟩ <;> decide
  have hsame := hprotects.unchanged (fundedDsee 0) 0 mn rfl hfinds (by rw [htime]; decide)
  have hagain : ((ProcessMessage fundingContext anySigner laterEnv (.dsee (fundedDsee 0))
      (announced 0)).2.mnodeman.vFloatingcities[0]?).map CFloatingcity.lastTimeSeen = some 2600 := by
    decide
  rw [hsame, Option.map_some, hseen] at hagain
  exact absurd hagain (by decide)

end ZalemCoin.Floatingcity
