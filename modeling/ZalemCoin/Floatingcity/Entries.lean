import ZalemCoin.Floatingcity.Manager

/-!
# What the messages do to the list

A message leaves the outpoints and the keys of the list alone, or adds the entry of an outpoint that
the list did not have and whose collateral has passed the checks. Removing entries removes entries
only.
-/

namespace ZalemCoin.Floatingcity

open Lib Chain Script
open Except (ok.inj)
open Lib.Action (get_bind reading_bind_cases check_bind_cases bind_of_ok check_bind_of)

def CFloatingcity.claim (mn : CFloatingcity) : CTxIn × CPubKey := (mn.vin, mn.pubkey)

def Node.claims (n : Node) : List (CTxIn × CPubKey) :=
  n.mnodeman.vFloatingcities.map CFloatingcity.claim

/-- The checks that the collateral of a new entry passes. -/
structure Passes (ctx : Context) (env : FcEnv) (s : NodeState) (m : Dsee) : Prop where
  associated : IsVinAssociatedWithPubkey ctx s env.blocks m.vin m.pubkey = .ok true
  acceptable : acceptableCollateral ctx env s m.vin = .ok ()
  aged : ∃ age, GetInputAge ctx s env.blocks m.vin = .ok age ∧
    (FLOATINGCITY_MIN_CONFIRMATIONS : ℤ) ≤ age

/-- An entry is accepted: its collateral passes the checks, and the announcement is not signed too
early. -/
structure Accepted (ctx : Context) (env : FcEnv) (n : Node) (m : Dsee) : Prop where
  passes : Passes ctx env n.chain m
  unlocked : env.lockMain m.vin.prevout = true
  sigTime : (checkSigTime ctx env m n).1 = .ok ()

/-- What a message adds to the list. -/
structure Adds (ctx : Context) (env : FcEnv) (m : Dsee) (n n' : Node) : Prop where
  passes : Passes ctx env n.chain m
  /-- The outpoint had no entry. -/
  absent : ∀ c ∈ n.claims, c.1.prevout ≠ m.vin.prevout
  claims : n'.claims = n.claims ++ [(m.vin, m.pubkey)]

variable {ctx : Context} {signer : CMNengineSigner} {env : FcEnv} {s : NodeState}
  {mn mn' : CFloatingcity} {n n' : Node} {r : Except Failure Unit}

/-! ## Single entries -/

theorem claim_check (h : mn.Check ctx env s = .ok mn') : mn'.claim = mn.claim := by
  unfold CFloatingcity.Check at h
  split_ifs at h
  · rw [← ok.inj h]
  · rw [← ok.inj h]
  · rw [← ok.inj h]
    rfl
  · rw [← ok.inj h]
    rfl
  · split at h
    · rw [← ok.inj h]
      rfl
    · simp at h
    · rw [← ok.inj h]
      rfl

variable {m : Dsee} {vin : CTxIn}

theorem claim_update (h : mn.update ctx env s m = .ok mn') : mn'.claim = mn.claim := by
  unfold CFloatingcity.update at h
  dsimp only at h
  split_ifs at h
  · have hclaim := claim_check h
    exact hclaim
  · rw [← ok.inj h]
    rfl
  · rw [← ok.inj h]

theorem claim_ping {m : Dseep} (h : mn.ping ctx signer env s m = .ok mn') :
    mn'.claim = mn.claim := by
  unfold CFloatingcity.ping at h
  by_cases hnewer : mn.lastDseep < m.sigTime
  · rw [if_pos hnewer] at h
    obtain ⟨⟨⟩, -, h⟩ := bind_ok h
    dsimp only at h
    split_ifs at h
    · rw [← ok.inj h]
      rfl
    · rw [← ok.inj h]
      rfl
    · have hclaim := claim_check h
      exact hclaim
  · rw [if_neg hnewer] at h
    rw [← ok.inj h]

/-! ## The list -/

theorem claims_changeEntry {i : ℕ} {f : NodeState → CFloatingcity → Except Failure CFloatingcity}
    (hf : ∀ s mn mn', f s mn = .ok mn' → mn'.claim = mn.claim)
    (h : changeEntry i f n = (r, n')) : n'.claims = n.claims := by
  unfold changeEntry at h
  rw [get_bind] at h
  rcases hent : n.mnodeman.vFloatingcities[i]? with _ | mn
  · rw [hent] at h
    rw [← (Prod.mk.inj h).2]
  · rw [hent] at h
    dsimp only at h
    rw [Action.bind_apply, Action.reading_apply] at h
    rcases hchange : f n.chain mn with e | mn'
    · rw [hchange] at h
      rw [← (Prod.mk.inj h).2]
    · rw [hchange] at h
      rw [← (Prod.mk.inj h).2]
      have hclaim : mn'.claim = mn.claim := hf _ _ _ hchange
      have hget : (n.mnodeman.vFloatingcities.map CFloatingcity.claim)[i]? = some mn.claim := by
        rw [List.getElem?_map, hent]
        rfl
      show (n.mnodeman.vFloatingcities.set i mn').map CFloatingcity.claim = _
      rw [List.map_set, hclaim]
      obtain ⟨hlt, hget⟩ := List.getElem?_eq_some_iff.mp hget
      rw [← hget]
      exact List.set_getElem_self hlt

theorem find_eq_none {man : CFloatingcityMan} (h : man.Find vin = none) :
    ∀ mn ∈ man.vFloatingcities, mn.vin.prevout ≠ vin.prevout := by
  intro mn hmn
  have hne := List.findIdx?_eq_none_iff.mp h mn hmn
  simpa using hne

theorem add_cases (man : CFloatingcityMan) (mn : CFloatingcity) :
    man.Add mn = man ∨ (man.Find mn.vin = none ∧
      (man.Add mn).vFloatingcities = man.vFloatingcities ++ [mn]) := by
  unfold CFloatingcityMan.Add
  by_cases henabled : mn.IsEnabled = false
  · rw [if_pos henabled]
    exact .inl rfl
  · rw [if_neg henabled]
    rcases hfind : man.Find mn.vin with _ | i
    · exact .inr ⟨rfl, rfl⟩
    · exact .inl rfl

def SameList (n n' : Node) : Prop := n'.mnodeman = n.mnodeman

theorem keepsList_checkSigTime (ctx : Context) (env : FcEnv) (m : Dsee) :
    Action.Keeps SameList (checkSigTime ctx env m) := by
  have hbind : ∀ {α β : Type} {x : Action Node Failure α} {f : α → Action Node Failure β},
      Action.Keeps SameList x → (∀ a, Action.Keeps SameList (f a)) →
        Action.Keeps SameList (x >>= f) :=
    Action.Keeps.bind fun hab hbc => hbc.trans hab
  have hrefl : ∀ {α : Type} (x : Action Node Failure α),
      (∀ n, (x n).2.mnodeman = n.mnodeman) → Action.Keeps SameList x := fun _ hx => hx
  refine hbind (hrefl _ fun _ => rfl) fun n => ?_
  split
  · exact hrefl _ fun _ => rfl
  · refine hbind (hrefl _ fun _ => rfl) fun pConfIndex => ?_
    refine hbind (hrefl _ fun _ => rfl) fun i => ?_
    exact hrefl _ fun _ => rfl

theorem mnodeman_acceptEntry (h : acceptEntry ctx env m n = (r, n')) :
    n'.mnodeman = n.mnodeman ∨
      (Accepted ctx env n m ∧ n'.mnodeman = n.mnodeman.Add (CFloatingcity.new env m)) := by
  rcases reading_bind_cases h with rfl | ⟨associated, hassociated, h⟩
  · exact .inl rfl
  rcases check_bind_cases h with rfl | ⟨hfound, h⟩
  · exact .inl rfl
  rcases check_bind_cases h with rfl | ⟨hlock, h⟩
  · exact .inl rfl
  rcases reading_bind_cases h with rfl | ⟨⟨⟩, hacceptable, h⟩
  · exact .inl rfl
  rcases reading_bind_cases h with rfl | ⟨age, hage, h⟩
  · exact .inl rfl
  rcases check_bind_cases h with rfl | ⟨hold, h⟩
  · exact .inl rfl
  rw [hfound] at hassociated
  have hpass : Passes ctx env n.chain m := ⟨hassociated, hacceptable, age, hage, hold⟩
  rw [Action.bind_apply] at h
  rcases hchk : checkSigTime ctx env m n with ⟨e | ⟨⟩, t⟩
  · have hlist : t.mnodeman = n.mnodeman := (keepsList_checkSigTime ctx env m).of_eq hchk
    rw [hchk] at h
    cases h
    exact .inl hlist
  · have hlist : t.mnodeman = n.mnodeman := (keepsList_checkSigTime ctx env m).of_eq hchk
    have hsig : (checkSigTime ctx env m n).1 = .ok () := by rw [hchk]
    rw [hchk] at h
    refine .inr ⟨⟨hpass, hlock, hsig⟩, ?_⟩
    rw [← hlist, ← (Prod.mk.inj h).2]
    dsimp only
    split <;> rfl

theorem mnodeman_of_accepted (h : Accepted ctx env n m) :
    (acceptEntry ctx env m n).2.mnodeman = n.mnodeman.Add (CFloatingcity.new env m) := by
  obtain ⟨age, hage, hold⟩ := h.passes.aged
  have hchk : checkSigTime ctx env m n = (.ok (), (checkSigTime ctx env m n).2) :=
    Action.eq_of_fst h.sigTime
  have hlist : (checkSigTime ctx env m n).2.mnodeman = n.mnodeman :=
    (keepsList_checkSigTime ctx env m).of_eq hchk
  have hread {α : Type} {f : Node → Except Failure α} {a : α} (ha : f n = .ok a) :
      Action.reading f n = (.ok a, n) := Prod.ext ha rfl
  unfold acceptEntry
  rw [bind_of_ok (hread h.passes.associated), check_bind_of rfl,
    check_bind_of h.unlocked, bind_of_ok (hread h.passes.acceptable),
    bind_of_ok (hread hage), check_bind_of hold, bind_of_ok hchk, ← hlist]
  rw [Action.modify_bind, Action.modify_apply]
  split <;> rfl

theorem acceptEntry_cases (h : acceptEntry ctx env m n = (r, n')) :
    n'.claims = n.claims ∨ Adds ctx env m n n' := by
  unfold Node.claims
  rcases mnodeman_acceptEntry h with hsame | ⟨hacc, hn'⟩
  · rw [hsame]
    exact .inl rfl
  · rcases add_cases n.mnodeman (CFloatingcity.new env m) with hsame | ⟨hfind, hadd⟩
    · rw [hn', hsame]
      exact .inl rfl
    · right
      refine ⟨hacc.passes, fun c hc => ?_, ?_⟩
      · obtain ⟨mn, hmn, rfl⟩ := List.mem_map.mp hc
        exact find_eq_none hfind mn hmn
      · unfold Node.claims
        rw [hn', hadd, List.map_append]
        rfl

/-! ## The messages -/

theorem processDsee_cases (h : processDsee ctx signer env m n = (r, n')) :
    n'.claims = n.claims ∨ Adds ctx env m n n' := by
  rcases check_bind_cases h with rfl | ⟨-, h⟩
  · exact .inl rfl
  rcases check_bind_cases h with rfl | ⟨-, h⟩
  · exact .inl rfl
  rcases check_bind_cases h with rfl | ⟨-, h⟩
  · exact .inl rfl
  rcases check_bind_cases h with rfl | ⟨-, h⟩
  · exact .inl rfl
  rcases check_bind_cases h with rfl | ⟨-, h⟩
  · exact .inl rfl
  rcases check_bind_cases h with rfl | ⟨-, h⟩
  · exact .inl rfl
  rcases check_bind_cases h with rfl | ⟨-, h⟩
  · exact .inl rfl
  rw [get_bind] at h
  rcases hfind : n.mnodeman.Find m.vin with _ | i
  · rw [hfind] at h
    exact acceptEntry_cases h
  · rw [hfind] at h
    split_ifs at h
    · exact acceptEntry_cases h
    · exact .inl (claims_changeEntry (fun _ _ _ => claim_update) h)

theorem entries_askForEntry (h : askForEntry env vin n = (r, n')) :
    n'.mnodeman.vFloatingcities = n.mnodeman.vFloatingcities := by
  unfold askForEntry askForEntry.ask at h
  rw [get_bind] at h
  rcases hasked : n.mnodeman.mWeAskedForFloatingcityListEntry vin.prevout with _ | t
  · rw [hasked] at h
    rw [← (Prod.mk.inj h).2]
  · rw [hasked] at h
    dsimp only at h
    split_ifs at h <;> rw [← (Prod.mk.inj h).2]

theorem claims_askForEntry (h : askForEntry env vin n = (r, n')) : n'.claims = n.claims := by
  unfold Node.claims
  rw [entries_askForEntry h]

theorem claims_processDseep {m : Dseep} (h : processDseep ctx signer env m n = (r, n')) :
    n'.claims = n.claims := by
  rcases check_bind_cases h with rfl | ⟨-, h⟩
  · rfl
  rcases check_bind_cases h with rfl | ⟨-, h⟩
  · rfl
  rw [get_bind] at h
  generalize (n.mnodeman.Find m.vin).filter _ = found at h
  rcases found with _ | i
  · exact claims_askForEntry h
  · exact claims_changeEntry (fun _ _ _ => claim_ping) h

theorem processMessage_cases {message : Message}
    (h : ProcessMessage ctx signer env message n = (r, n')) :
    n'.claims = n.claims ∨ ∃ m, message = .dsee m ∧ Adds ctx env m n n' := by
  rcases check_bind_cases h with rfl | ⟨-, h⟩
  · exact .inl rfl
  cases message with
  | dsee m =>
    rcases processDsee_cases h with hsame | hadds
    · exact .inl hsame
    · exact .inr ⟨m, rfl, hadds⟩
  | dseep m => exact .inl (claims_processDseep h)

theorem claims_mapM_check {l l' : List CFloatingcity}
    (h : l.mapM (CFloatingcity.Check ctx env s) = .ok l') :
    l'.map CFloatingcity.claim = l.map CFloatingcity.claim := by
  induction l generalizing l' with
  | nil =>
    rw [List.mapM_nil] at h
    rw [← ok.inj h]
  | cons mn l ih =>
    rw [List.mapM_cons] at h
    obtain ⟨mn', hchk, h⟩ := bind_ok h
    obtain ⟨rest, hrest, h⟩ := bind_ok h
    rw [← ok.inj h, List.map_cons, List.map_cons, claim_check hchk, ih hrest]

theorem claims_checkAndRemove (h : CheckAndRemove ctx env n = (r, n')) :
    n'.claims.Sublist n.claims := by
  rcases reading_bind_cases h with rfl | ⟨entries, hents, h⟩
  · exact List.Sublist.refl _
  · rw [← (Prod.mk.inj h).2]
    unfold Node.claims
    rw [← claims_mapM_check hents]
    exact List.filter_sublist.map _

end ZalemCoin.Floatingcity
