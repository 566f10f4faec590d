import ZalemCoin.Floatingcity.PaymentQueue

/-!
# Which payment times are kept

An operation changes the time of the last payment of other entries when it copies them: when it adds an
entry to a full vector, or removes an entry that others come after. Along a run whose operations copy
entries with the time of now only, every entry has the time that was recorded for it, and the search finds
the one that has waited longest.
-/

namespace ZalemCoin.Floatingcity

open Lib Chain CopyingVector
open List (map_map map_cons mem_map_of_mem map_append zipWith length_map)

/-! ## The first maximum -/

/-- The first of the elements with a property whose score is not exceeded by another, if there is one. -/
def IsFirstMaximum {α : Type*} (P : α → Prop) (score : α → ℤ) (l : List α) : Option α → Prop
  | none => ∀ a ∈ l, ¬P a
  | some a => P a ∧ ∃ before after, l = before ++ a :: after ∧
      (∀ b ∈ before, P b → score b < score a) ∧ ∀ b ∈ after, P b → score b ≤ score a

section

variable {α : Type*} {P : α → Prop} {score : α → ℤ} {l : List α} {found : Option α} {b : α}

variable (h : IsFirstMaximum P score l found)
include h

/-- An element that does not count changes nothing, and neither does one with a score that is not
larger. -/
theorem IsFirstMaximum.skip (hb : P b → ∃ a ∈ found, score b ≤ score a) :
    IsFirstMaximum P score (l ++ [b]) found := by
  rcases found with _ | a
  · intro c hc hPc
    rcases List.mem_append.mp hc with hc | hc
    · exact h c hc hPc
    · rw [List.mem_singleton.mp hc] at hPc
      obtain ⟨a, ha, -⟩ := hb hPc
      simp at ha
  · obtain ⟨hPa, before, after, rfl, hbef, haft⟩ := h
    refine ⟨hPa, before, after ++ [b], by simp, hbef, fun c hc hPc => ?_⟩
    rcases List.mem_append.mp hc with hc | hc
    · exact haft c hc hPc
    · obtain rfl := List.mem_singleton.mp hc
      obtain ⟨a', ha', hle⟩ := hb hPc
      rwa [Option.some.inj ha']

theorem IsFirstMaximum.take (hPb : P b) (hb : ∀ a ∈ found, score a < score b) :
    IsFirstMaximum P score (l ++ [b]) (some b) := by
  refine ⟨hPb, l, [], rfl, fun c hc hPc => ?_, by simp⟩
  rcases found with _ | a
  · exact absurd hPc (h c hc)
  · obtain ⟨hPa, before, after, rfl, hbef, haft⟩ := h
    have hlt := hb a rfl
    rcases List.mem_append.mp hc with hc | hc
    · exact (hbef c hc hPc).trans hlt
    · rcases List.mem_cons.mp hc with rfl | hc
      · exact hlt
      · exact (haft c hc hPc).trans_lt hlt

theorem IsFirstMaximum.congr {score' : α → ℤ} (hscore : ∀ a ∈ l, score' a = score a) :
    IsFirstMaximum P score' l found := by
  rcases found with _ | a
  · exact h
  · obtain ⟨hPa, before, after, rfl, hbef, haft⟩ := h
    have ha := hscore a (by simp)
    refine ⟨hPa, before, after, rfl, fun b hb hPb => ?_, fun b hb hPb => ?_⟩
    · rw [ha, hscore b (by simp [hb])]
      exact hbef b hb hPb
    · rw [ha, hscore b (by simp [hb])]
      exact haft b hb hPb

end

/-! ## The recorded times -/

/-- Whether an operation pays the entry of an outpoint. -/
def Op.pays : Op → COutPoint → Prop
  | .pay vin, prevout => prevout = vin.prevout
  | _, _ => False

instance (op : Op) (prevout : COutPoint) : Decidable (op.pays prevout) := by
  unfold Op.pays
  split <;> infer_instance

/-- The times that are recorded after an operation: an entry that is new is recorded with the time of
now, and so is one that is paid. -/
def record (env : FcEnv) (op : Op) (p p' : PaidNode) (L : COutPoint → Option ℤ) :
    COutPoint → Option ℤ := fun prevout =>
  if (op.pays prevout ∧ prevout ∈ p.outpoints) ∨ (prevout ∈ p'.outpoints ∧ prevout ∉ p.outpoints) then
    some env.adjustedTime
  else L prevout

/-- Every entry has the time that is recorded for it. -/
def Recorded (p : PaidNode) (L : COutPoint → Option ℤ) : Prop :=
  ∀ e ∈ p.entries, L e.prevout = some e.nLastPaid

/-- An operation keeps the times of the entries that it does not pay. -/
def TimesKept (op : Op) (p p' : PaidNode) : Prop :=
  ∀ e ∈ p.entries, ∀ e' ∈ p'.entries, e'.prevout = e.prevout → ¬op.pays e.prevout →
    e'.nLastPaid = e.nLastPaid

/-- An entry can be the next one to be paid. -/
structure Eligible (s : NodeState) (vVins : List CTxIn) (nMinimumAge : ℤ) (e : Entry) : Prop where
  enabled : e.IsEnabled = true
  age : ∀ best, s.index s.pindexBest = .ok best → nMinimumAge ≤ e.inputAge best.nHeight
  ageNone : s.pindexBest = none → nMinimumAge ≤ 0
  included : ∀ vin ∈ vVins, e.prevout ≠ vin.prevout

/-- What the search finds by the recorded times: the first of those that have waited longest. -/
def FindsOldest (env : FcEnv) (s : NodeState) (vVins : List CTxIn) (nMinimumAge : ℤ)
    (L : COutPoint → Option ℤ) (entries : List Entry) (oldest : Option Entry) : Prop :=
  IsFirstMaximum (Eligible s vVins nMinimumAge)
    (fun e => Entry.secondsSince env ((L e.prevout).getD 0)) entries oldest

/-! ## When copies do no harm -/

/-- An announcement whose entry is added to the list. -/
structure Admitted (ctx : Context) (signer : CMNengineSigner) (env : FcEnv) (n : Node) (m : Dsee) :
    Prop where
  announces : Announces ctx signer env m
  absent : n.mnodeman.Find m.vin = none
  accepted : Accepted ctx env n m

/-- One more entry fits into the buffer, or the time of now is that of every entry. -/
def PushHarmless (env : FcEnv) (p : PaidNode) : Prop :=
  p.vFloatingcities.HasRoom ∨ ∀ e ∈ p.entries, e.nLastPaid = env.adjustedTime

/-- An operation does not copy entries whose time is another one than now. -/
def Harmless (ctx : Context) (signer : CMNengineSigner) (env : PaidEnv) : Op → PaidNode → Prop
  | .add mn, p =>
    mn.IsEnabled = true → p.node.mnodeman.Find mn.vin = none → PushHarmless env.toFcEnv p
  | .remove _, p => ∀ e ∈ p.entries.tail, e.nLastPaid = env.adjustedTime
  | .checkAndRemove, p =>
    ∀ entries, p.entries.mapM (Entry.Check ctx env.toFcEnv p.chain) = .ok entries →
      ∀ before e after, entries = before ++ e :: after → e.inactive env.toFcEnv = true →
        ∀ e' ∈ after, e'.inactive env.toFcEnv = false → e'.nLastPaid = env.adjustedTime
  | .message (.dsee m), p =>
    Admitted ctx signer env.toFcEnv p.node m → PushHarmless env.toFcEnv p
  | .message (.dseep _), _ => True
  | .pay _, _ => True
  | .findOldest _ _, _ => True

section

variable {ctx : Context} {env : FcEnv} {s : NodeState} {p p' : PaidNode} {e e' : Entry}

/-- What tells entries apart, and their times. -/
def paidAt (e : Entry) : COutPoint × ℤ := (e.prevout, e.nLastPaid)

theorem map_prevout_of_paidAt {l l' : List Entry} (h : l'.map paidAt = l.map paidAt) :
    l'.map Entry.prevout = l.map Entry.prevout := by
  have := congrArg (List.map Prod.fst) h
  rwa [map_map, map_map] at this

theorem paidAt_check (h : e.Check ctx env s = .ok e') : paidAt e' = paidAt e := by
  obtain ⟨mn, hchk, h⟩ := bind_ok h
  cases h
  have hvin : mn.vin = e.vin := congrArg Prod.fst (claim_check hchk)
  unfold paidAt Entry.prevout Entry.withFields
  rw [hvin]

theorem paidAt_mapM_check {l l' : List Entry} (h : l.mapM (Entry.Check ctx env s) = .ok l') :
    l'.map paidAt = l.map paidAt := by
  induction l generalizing l' with
  | nil =>
    rw [List.mapM_nil] at h
    rw [← Except.ok.inj h]
  | cons e l ih =>
    rw [List.mapM_cons] at h
    obtain ⟨e', hchk, h⟩ := bind_ok h
    obtain ⟨rest, hrest, h⟩ := bind_ok h
    rw [← Except.ok.inj h, map_cons, map_cons, paidAt_check hchk, ih hrest]

/-- Asking for the age of an input keeps what the entry says about the masternode and its times, and the
age that it gives is the one that is stored then. -/
theorem getFloatingcityInputAge_eq_ok {nAge : ℤ}
    (h : e.GetFloatingcityInputAge ctx env s = .ok (nAge, e')) :
    e'.toCFloatingcity = e.toCFloatingcity ∧ e'.nLastPaid = e.nLastPaid ∧
      (s.pindexBest = none → nAge = 0) ∧
      (s.pindexBest ≠ none → ∃ best, s.index s.pindexBest = .ok best ∧
        nAge = e'.inputAge best.nHeight) := by
  unfold Entry.GetFloatingcityInputAge at h
  split at h
  · rename_i hnone
    cases h
    exact ⟨rfl, rfl, fun _ => rfl, fun hsome => absurd hnone hsome⟩
  · rename_i b hsome
    obtain ⟨best, hbest, h⟩ := bind_ok h
    have hnot : s.pindexBest ≠ none := by simp [hsome]
    split_ifs at h
    · obtain ⟨age, -, h⟩ := bind_ok h
      cases h
      exact ⟨rfl, rfl, fun hnone => absurd hnone hnot, fun _ => ⟨best, hbest, rfl⟩⟩
    · cases h
      exact ⟨rfl, rfl, fun hnone => absurd hnone hnot, fun _ => ⟨best, hbest, rfl⟩⟩

theorem find_eq_none_iff {vin : CTxIn} :
    p.node.mnodeman.Find vin = none ↔ vin.prevout ∉ p.outpoints := by
  unfold CFloatingcityMan.Find PaidNode.outpoints PaidNode.node
  rw [List.findIdx?_eq_none_iff]
  simp only [List.mem_map, not_exists, not_and, forall_exists_index, and_imp,
    forall_apply_eq_imp_iff₂, beq_eq_false_iff_ne]
  rfl

theorem timesKept_iff {op : Op} (h : ∀ prevout, ¬op.pays prevout) :
    TimesKept op p p' ↔ Keeps Entry.prevout Entry.nLastPaid p.entries p'.entries := by
  exact ⟨fun hkept e he e' he' heq => hkept e he e' he' heq (h _),
    fun hkept e he e' he' heq _ => hkept e he e' he' heq⟩

theorem keeps_of_paidAt (hdist : p.outpoints.Nodup)
    (h : p'.entries.map paidAt = p.entries.map paidAt) :
    Keeps Entry.prevout Entry.nLastPaid p.entries p'.entries :=
  keeps_of_subset hdist fun _ hmem => h ▸ hmem

/-! ## What an operation does to the times -/

/-- After an operation the outpoints are different, and the entries that are new or paid have the time
of now. -/
structure Noted (env : FcEnv) (op : Op) (p p' : PaidNode) : Prop where
  distinct : p'.outpoints.Nodup
  fresh : ∀ e ∈ p'.entries, e.prevout ∉ p.outpoints → e.nLastPaid = env.adjustedTime
  paid : ∀ e ∈ p'.entries, op.pays e.prevout → e.nLastPaid = env.adjustedTime

theorem noted_of_paidAt {op : Op} (hdist : p.outpoints.Nodup) (hop : ∀ prevout, ¬op.pays prevout)
    (h : p'.entries.map paidAt = p.entries.map paidAt) : Noted env op p p' := by
  have hout : p'.outpoints = p.outpoints := map_prevout_of_paidAt h
  refine ⟨hout ▸ hdist, fun e he hnew => ?_, fun e _ hpaid => absurd hpaid (hop _)⟩
  rw [← hout] at hnew
  exact absurd (mem_map_of_mem he) hnew

/-- Appending an entry keeps the times of payment exactly when its copies lose none. -/
theorem push_spec (growth : Growth) {op : Op} (hdist : p.outpoints.Nodup) (hop : ∀ prevout, ¬op.pays prevout)
    (hnew : e.prevout ∉ p.outpoints) :
    Noted env op p (p.push growth env e) ∧
      (TimesKept op p (p.push growth env e) ↔ PushHarmless env p) := by
  have hkeys : p.entries.map (Entry.prevout ∘ Entry.copy env) = p.outpoints := rfl
  have hents : (p.push growth env e).entries = p.entries ++ [e.copy env] ∨
      (p.push growth env e).entries = p.entries.map (Entry.copy env) ++ [e.copy env] := by
    by_cases hroom : p.vFloatingcities.HasRoom
    · exact .inl (elems_push_back_of_hasRoom hroom)
    · exact .inr (elems_push_back_of_full hroom)
  have hout : (p.push growth env e).outpoints = p.outpoints ++ [e.prevout] := by
    unfold PaidNode.outpoints
    rcases hents with h | h
    · rw [h, map_append]
      rfl
    · rw [h, map_append, map_map, hkeys]
      rfl
  refine ⟨⟨?_, fun e' he' hfresh => ?_, fun e' _ hpaid => absurd hpaid (hop _)⟩, ?_⟩
  · rw [hout, List.nodup_append]
    refine ⟨hdist, List.nodup_singleton _, fun a ha b hb heq => ?_⟩
    rw [List.mem_singleton.mp hb] at heq
    exact hnew (heq ▸ ha)
  · rcases hents with h | h
    · rw [h] at he'
      rcases List.mem_append.mp he' with he' | he'
      · exact absurd (mem_map_of_mem he') hfresh
      · rw [List.mem_singleton.mp he']
        rfl
    · -- A copy has the time of now.
      rw [h] at he'
      rcases List.mem_append.mp he' with he' | he'
      · obtain ⟨b, -, rfl⟩ := List.mem_map.mp he'
        rfl
      · rw [List.mem_singleton.mp he']
        rfl
  · rw [timesKept_iff hop]
    have hiff : Keeps Entry.prevout Entry.nLastPaid p.vFloatingcities.elems
        (p.vFloatingcities.push_back (Entry.copy env) growth e).elems ↔ _ :=
      keeps_push_back_iff (Entry.prevout_copy env) hdist hnew
    refine hiff.trans ?_
    exact or_congr_right ⟨fun h b hb => (h b hb).symm, fun h b hb => (h b hb).symm⟩

end

section

variable (ctx : Context) (signer : CMNengineSigner) (growth : Growth) (env : PaidEnv)
  {p p' : PaidNode}

/-- A message adds the entry of an announcement that is admitted, and otherwise leaves what identifies
the entries alone. -/
theorem processMessage_list (message : Message) (n : Node) :
    (∃ m, message = .dsee m ∧ Admitted ctx signer env.toFcEnv n m ∧
      (ProcessMessage ctx signer env.toFcEnv message n).2.mnodeman.vFloatingcities
        = n.mnodeman.vFloatingcities ++ [CFloatingcity.new env.toFcEnv m]) ∨
      ((∀ m, message = .dsee m → ¬Admitted ctx signer env.toFcEnv n m) ∧
        (ProcessMessage ctx signer env.toFcEnv message n).2.claims = n.claims) := by
  generalize hres : ProcessMessage ctx signer env.toFcEnv message n = result
  obtain ⟨r, n'⟩ := result
  rcases processMessage_cases hres with hsame | ⟨m, rfl, hadds⟩
  · -- The entries are the same, so an announcement that is admitted would have to add one.
    right
    refine ⟨?_, hsame⟩
    rintro m rfl hadm
    rw [processMessage_of_announces hadm.announces, hadm.absent] at hres
    dsimp only at hres
    have hadd := mnodeman_of_accepted hadm.accepted
    rw [hres] at hadd
    have hlist : n'.mnodeman.vFloatingcities
        = n.mnodeman.vFloatingcities ++ [CFloatingcity.new env.toFcEnv m] := by
      rcases add_cases n.mnodeman (CFloatingcity.new env.toFcEnv m) with hkeep | ⟨-, happ⟩
      · unfold CFloatingcityMan.Add at hkeep
        rw [if_neg (show ¬(CFloatingcity.new env.toFcEnv m).IsEnabled = false from by
          simp [CFloatingcity.new, CFloatingcity.UpdateLastSeen, CFloatingcity.IsEnabled]),
          show n.mnodeman.Find (CFloatingcity.new env.toFcEnv m).vin = none from hadm.absent]
          at hkeep
        have := congrArg (fun man => man.vFloatingcities.length) hkeep
        simp at this
      · rw [← happ]
        exact congrArg CFloatingcityMan.vFloatingcities hadd
    have hlen := congrArg List.length hsame
    unfold Node.claims at hlen
    rw [hlist] at hlen
    simp at hlen
  · left
    have hannounces : Announces ctx signer env.toFcEnv m := by
      by_contra hnot
      have hunchanged := processMessage_of_not_announces (n := n) hnot
      rw [hres] at hunchanged
      have hlen := congrArg List.length hadds.claims
      rw [show n' = n from hunchanged] at hlen
      simp at hlen
    have hfind : n.mnodeman.Find m.vin = none := by
      by_contra hsome
      obtain ⟨i, hi⟩ := Option.ne_none_iff_exists'.mp hsome
      obtain ⟨mn, hat⟩ := exists_findsAt hi
      exact hadds.absent mn.claim (mem_map_of_mem (List.mem_of_getElem? hat.2)) hat.prevout
    rw [processMessage_of_announces hannounces, hfind] at hres
    have hnot : n'.mnodeman ≠ n.mnodeman := by
      intro hsame
      have hlen := congrArg List.length hadds.claims
      unfold Node.claims at hlen
      rw [hsame] at hlen
      simp at hlen
    obtain ⟨hacc, hadd⟩ := (mnodeman_acceptEntry hres).resolve_left hnot
    refine ⟨m, rfl, ⟨hannounces, hfind, hacc⟩, ?_⟩
    rcases add_cases n.mnodeman (CFloatingcity.new env.toFcEnv m) with hkeep | ⟨-, happ⟩
    · exact absurd (hadd.trans hkeep) hnot
    · exact (congrArg CFloatingcityMan.vFloatingcities hadd).trans happ

/-- Entries whose other fields are written keep their outpoints and times when what identifies them is
the same. -/
theorem paidAt_withFields {l : List CFloatingcity} {entries : List Entry}
    (h : l.map CFloatingcity.claim = entries.map fun e => e.toCFloatingcity.claim) :
    (zipWith Entry.withFields l entries).map paidAt = entries.map paidAt := by
  induction entries generalizing l with
  | nil => simp
  | cons e entries ih =>
    rcases l with _ | ⟨mn, l⟩
    · simp at h
    · rw [map_cons, map_cons] at h
      obtain ⟨hclaim, hrest⟩ := List.cons.inj h
      have hvin : mn.vin = e.vin := congrArg Prod.fst hclaim
      rw [List.zipWith_cons_cons, map_cons, map_cons, ih hrest]
      unfold paidAt Entry.prevout Entry.withFields
      rw [hvin]

theorem processMessage_paid (message : Message) (p : PaidNode) :
    (∃ m, message = .dsee m ∧ Admitted ctx signer env.toFcEnv p.node m ∧
      (p.ProcessMessage ctx signer growth env message).entries
        = (p.push growth env.toFcEnv
            (Entry.new env (CFloatingcity.new env.toFcEnv m))).entries) ∨
      ((∀ m, message = .dsee m → ¬Admitted ctx signer env.toFcEnv p.node m) ∧
        (p.ProcessMessage ctx signer growth env message).entries.map paidAt
          = p.entries.map paidAt) := by
  have hnode : p.node.mnodeman.vFloatingcities = p.entries.map Entry.toCFloatingcity := rfl
  unfold PaidNode.ProcessMessage
  dsimp only
  rcases processMessage_list ctx signer env message p.node with
    ⟨m, rfl, hadm, hlist⟩ | ⟨hnot, hclaims⟩
  · left
    refine ⟨m, rfl, hadm, ?_⟩
    rw [hlist, hnode]
    have hself : ∀ (es : List Entry) (l : List CFloatingcity),
        zipWith Entry.withFields (es.map Entry.toCFloatingcity ++ l) es = es := by
      intro es l
      induction es with
      | nil => simp
      | cons e es ih =>
        rw [map_cons, List.cons_append, List.zipWith_cons_cons, ih]
        rfl
    rw [write_eq_self (hself p.entries _), List.drop_append_of_le_length (by simp),
      List.drop_of_length_le (by simp)]
    rfl
  · right
    refine ⟨hnot, ?_⟩
    unfold Node.claims at hclaims
    have hlen := congrArg List.length hclaims
    rw [length_map, length_map, hnode, length_map] at hlen
    rw [List.drop_of_length_le hlen.le]
    refine paidAt_withFields ?_
    rw [hclaims, hnode, map_map]
    rfl

theorem add_spec (hdist : p.outpoints.Nodup) (mn : Entry) :
    Noted env.toFcEnv (.add mn) p (p.Add growth env.toFcEnv mn) ∧
      (TimesKept (.add mn) p (p.Add growth env.toFcEnv mn) ↔
        Harmless ctx signer env (.add mn) p) := by
  have hop : ∀ prevout, ¬(Op.add mn).pays prevout := fun _ h => h
  have hsame (himp : ¬(mn.IsEnabled = true ∧ p.node.mnodeman.Find mn.vin = none)) :
      Noted env.toFcEnv (.add mn) p p ∧
        (TimesKept (.add mn) p p ↔ Harmless ctx signer env (.add mn) p) := by
    refine ⟨noted_of_paidAt hdist hop rfl, iff_of_true ?_ fun henabled hnone => ?_⟩
    · rw [timesKept_iff hop]
      exact keeps_of_paidAt hdist rfl
    · exact absurd ⟨henabled, hnone⟩ himp
  unfold PaidNode.Add
  by_cases henabled : mn.IsEnabled = false
  · rw [if_pos henabled]
    exact hsame (by simp [henabled])
  · rw [if_neg henabled]
    rcases hfind : p.node.mnodeman.Find mn.vin with _ | i
    · obtain ⟨hnoted, hkept⟩ := push_spec growth hdist hop (find_eq_none_iff.mp hfind)
      refine ⟨hnoted, hkept.trans ⟨fun h _ _ => h, fun h => h ?_ hfind⟩⟩
      simpa using henabled
    · exact hsame (by simp [hfind])

theorem message_spec (hdist : p.outpoints.Nodup) (message : Message) :
    Noted env.toFcEnv (.message message) p (p.ProcessMessage ctx signer growth env message) ∧
      (TimesKept (.message message) p (p.ProcessMessage ctx signer growth env message) ↔
        Harmless ctx signer env (.message message) p) := by
  have hop : ∀ prevout, ¬(Op.message message).pays prevout := fun _ h => h
  rcases processMessage_paid ctx signer growth env message p with
    ⟨m, rfl, hadm, hents⟩ | ⟨hnot, hpaid⟩
  · have hnew : (Entry.new env (CFloatingcity.new env.toFcEnv m)).prevout ∉ p.outpoints :=
      find_eq_none_iff.mp hadm.absent
    obtain ⟨hnoted, hkept⟩ := @push_spec env.toFcEnv p _ growth (.message (.dsee m)) hdist hop hnew
    obtain ⟨hout, hfresh, hpaid⟩ := hnoted
    unfold PaidNode.outpoints at hout
    unfold TimesKept at hkept ⊢
    rw [← hents] at hout hfresh hpaid hkept
    refine ⟨⟨hout, hfresh, hpaid⟩, hkept.trans ?_⟩
    unfold Harmless
    simp [hadm]
  · refine ⟨noted_of_paidAt hdist hop hpaid, iff_of_true ?_ ?_⟩
    · rw [timesKept_iff hop]
      exact keeps_of_paidAt hdist hpaid
    · cases message with
      | dsee m => exact fun hadm => absurd hadm (hnot m rfl)
      | dseep m => trivial

variable {ctx signer growth env}

theorem zipWith_left {l l' : List Entry} (h : l.length = l'.length) :
    zipWith (fun e _ => e) l l' = l := by
  induction l generalizing l' with
  | nil => simp
  | cons e l ih =>
    rcases l' with _ | ⟨e', l'⟩
    · simp at h
    · rw [List.zipWith_cons_cons, ih (by simpa using h)]

theorem remove_spec (hdist : p.outpoints.Nodup) {vin : CTxIn}
    (h : p.Remove env.toFcEnv vin = .ok p') :
    Noted env.toFcEnv (.remove vin) p p' ∧
      (TimesKept (.remove vin) p p' ↔ Harmless ctx signer env (.remove vin) p) := by
  have hop : ∀ prevout, ¬(Op.remove vin).pays prevout := fun _ h => h
  unfold PaidNode.Remove at h
  split at h
  · rename_i hnil
    cases h
    refine ⟨noted_of_paidAt hdist hop rfl, iff_of_true ?_ ?_⟩
    · rw [timesKept_iff hop]
      exact keeps_of_paidAt hdist rfl
    · unfold Harmless
      simp [hnil]
  · rename_i e rest hcons
    split_ifs at h
    cases h
    -- The entries behind the first one are copied.
    have hents : (p.vFloatingcities.erase (Entry.copy env.toFcEnv) 0).elems
        = rest.map (Entry.copy env.toFcEnv) := by
      unfold PaidNode.entries at hcons
      rw [elems_erase, hcons]
      rfl
    have hout : (rest.map (Entry.copy env.toFcEnv)).map Entry.prevout = rest.map Entry.prevout := by
      rw [map_map]
      rfl
    have hall : p.outpoints = e.prevout :: rest.map Entry.prevout := by
      unfold PaidNode.outpoints
      rw [hcons, map_cons]
    refine ⟨⟨?_, fun e' he' hfresh => ?_, fun _ _ hpaid => absurd hpaid (hop _)⟩, ?_⟩
    · unfold PaidNode.outpoints PaidNode.entries
      rw [hents, hout]
      rw [hall] at hdist
      exact hdist.of_cons
    · change e' ∈ (p.vFloatingcities.erase (Entry.copy env.toFcEnv) 0).elems at he'
      rw [hents] at he'
      obtain ⟨b, hb, rfl⟩ := List.mem_map.mp he'
      rfl
    · rw [timesKept_iff hop]
      have hiff : Keeps Entry.prevout Entry.nLastPaid p.vFloatingcities.elems
          (p.vFloatingcities.erase (Entry.copy env.toFcEnv) 0).elems ↔ _ :=
        keeps_erase_iff (Entry.prevout_copy env.toFcEnv) hdist
      refine hiff.trans ?_
      have htail : p.vFloatingcities.elems.drop (0 + 1) = p.entries.tail := List.drop_one
      rw [htail]
      exact ⟨fun h b hb => (h b hb).symm, fun h b hb => (h b hb).symm⟩

/-- Removing keeps the times of payment exactly when no entry with another time is copied. -/
theorem checkAndRemove_spec (hdist : p.outpoints.Nodup)
    (h : p.CheckAndRemove ctx env.toFcEnv = .ok p') :
    Noted env.toFcEnv .checkAndRemove p p' ∧
      (TimesKept .checkAndRemove p p' ↔ Harmless ctx signer env .checkAndRemove p) := by
  have hop : ∀ prevout, ¬Op.checkAndRemove.pays prevout := fun _ h => h
  obtain ⟨entries, hents, h⟩ := bind_ok h
  cases h
  have hpaid := paidAt_mapM_check hents
  have hout := map_prevout_of_paidAt hpaid
  have hlen : entries.length = p.entries.length := by
    have := congrArg List.length hpaid
    simpa using this
  have hwrite : (p.vFloatingcities.write (fun e _ => e) entries).elems = entries :=
    zipWith_left hlen
  have hlist : ((p.vFloatingcities.write (fun e _ => e) entries).eraseIf
      (Entry.copy env.toFcEnv) (Entry.inactive env.toFcEnv)).elems
        = eraseList (Entry.copy env.toFcEnv) (Entry.inactive env.toFcEnv) entries := by
    rw [elems_eraseIf, hwrite]
  have hkeys : (entries.map Entry.prevout).Nodup := hout ▸ hdist
  have hleft : ((eraseList (Entry.copy env.toFcEnv) (Entry.inactive env.toFcEnv) entries).map
      Entry.prevout).Sublist p.outpoints := by
    rw [map_eraseList (Entry.inactive_copy env.toFcEnv) (Entry.copy_copy env.toFcEnv)
      (Entry.prevout_copy env.toFcEnv)]
    have hfilter := (List.filter_sublist (p := fun e => !e.inactive env.toFcEnv)
      (l := entries)).map Entry.prevout
    rwa [hout] at hfilter
  refine ⟨⟨?_, fun e he hfresh => ?_, fun _ _ hpaid => absurd hpaid (hop _)⟩, ?_⟩
  · unfold PaidNode.outpoints PaidNode.entries
    rw [hlist]
    exact hdist.sublist hleft
  · change e ∈ (eraseIf _ _ _).elems at he
    rw [hlist] at he
    exact absurd (hleft.subset (mem_map_of_mem he)) hfresh
  · rw [timesKept_iff hop]
    have hiff : Keeps Entry.prevout Entry.nLastPaid entries
        (eraseList (Entry.copy env.toFcEnv) (Entry.inactive env.toFcEnv) entries) ↔ _ :=
      keeps_eraseList_iff (Entry.inactive_copy env.toFcEnv) (Entry.copy_copy env.toFcEnv)
        (Entry.prevout_copy env.toFcEnv) hkeys
    have hcongr : Keeps Entry.prevout Entry.nLastPaid p.entries
        (eraseList (Entry.copy env.toFcEnv) (Entry.inactive env.toFcEnv) entries) ↔ _ :=
      ⟨fun h => h.congr hpaid.symm, fun h => h.congr hpaid⟩
    change Keeps Entry.prevout Entry.nLastPaid p.entries (eraseIf _ _ _).elems ↔ _
    rw [hlist, hcongr, hiff]
    constructor
    · intro hall entries' hents' before e after heq he e' he' hact
      obtain rfl := Except.ok.inj (hents.symm.trans hents')
      exact (hall before e after heq he e' he' hact).symm
    · intro hall before e after heq he e' he' hact
      exact (hall entries hents before e after heq he e' he' hact).symm

theorem pay_spec (hdist : p.outpoints.Nodup) (vin : CTxIn) :
    Noted env.toFcEnv (.pay vin) p (p.pay env.toFcEnv vin) ∧
      TimesKept (.pay vin) p (p.pay env.toFcEnv vin) := by
  rcases hfind : p.node.mnodeman.Find vin with _ | i
  · have hsame : p.pay env.toFcEnv vin = p := by
      unfold PaidNode.pay
      rw [hfind]
    rw [hsame]
    refine ⟨⟨hdist, fun e he hfresh => absurd (mem_map_of_mem he) hfresh,
      fun e he hpaid => ?_⟩, fun e he e' he' heq _ => ?_⟩
    · have hnone := find_eq_none_iff.mp hfind
      exact absurd (show vin.prevout ∈ p.outpoints from hpaid ▸ mem_map_of_mem he) hnone
    · rw [eq_of_key hdist he he' heq]
  · obtain ⟨mn, hat⟩ := exists_findsAt hfind
    -- The entry that is found is the only one with the outpoint.
    obtain ⟨found, hfound, hmn⟩ : ∃ found, p.entries[i]? = some found ∧ found.toCFloatingcity = mn := by
      have hget : (p.entries.map Entry.toCFloatingcity)[i]? = some mn := hat.2
      rw [List.getElem?_map] at hget
      exact Option.map_eq_some_iff.mp hget
    have hprev : found.prevout = vin.prevout := by
      have := hat.prevout
      rwa [← hmn] at this
    have hents : (p.pay env.toFcEnv vin).entries
        = p.entries.modify i fun e => { e with nLastPaid := env.adjustedTime } := by
      unfold PaidNode.pay
      rw [hfind]
      rfl
    have hmem : ∀ e' ∈ (p.pay env.toFcEnv vin).entries,
        (e' ∈ p.entries ∧ e'.prevout ≠ vin.prevout) ∨
          e' = { found with nLastPaid := env.adjustedTime } := by
      intro e' he'
      rw [hents] at he'
      obtain ⟨j, hj⟩ := List.mem_iff_getElem?.mp he'
      rw [List.getElem?_modify] at hj
      obtain ⟨e, he, heq⟩ := Option.map_eq_some_iff.mp hj
      by_cases hij : i = j
      · subst hij
        rw [hfound] at he
        rw [if_pos rfl, ← Option.some.inj he] at heq
        exact .inr heq.symm
      · rw [if_neg hij] at heq
        subst heq
        refine .inl ⟨List.mem_of_getElem? he, fun hsame => hij ?_⟩
        have hgeti : p.outpoints[i]? = some vin.prevout := by
          unfold PaidNode.outpoints
          rw [List.getElem?_map, hfound, Option.map_some, hprev]
        have hgetj : p.outpoints[j]? = some vin.prevout := by
          unfold PaidNode.outpoints
          rw [List.getElem?_map, he, Option.map_some]
          exact congrArg some hsame
        obtain ⟨hlt, -⟩ := List.getElem?_eq_some_iff.mp hgeti
        exact (List.getElem?_inj hlt hdist).mp (hgeti.trans hgetj.symm)
    have hout : (p.pay env.toFcEnv vin).outpoints = p.outpoints := by
      unfold PaidNode.outpoints
      rw [hents]
      apply List.ext_getElem?
      intro j
      rw [List.getElem?_map, List.getElem?_map, List.getElem?_modify]
      rcases p.entries[j]? with _ | e
      · rfl
      · simp only [Option.map_eq_map, Option.map_some]
        split_ifs <;> rfl
    refine ⟨⟨hout ▸ hdist, fun e' he' hfresh => ?_, fun e' he' hpaid => ?_⟩,
      fun e he e' he' heq hnot => ?_⟩
    · rw [← hout] at hfresh
      exact absurd (mem_map_of_mem he') hfresh
    · rcases hmem e' he' with ⟨-, hne⟩ | rfl
      · exact absurd hpaid hne
      · rfl
    · rcases hmem e' he' with ⟨hold, -⟩ | rfl
      · rw [eq_of_key hdist he hold heq]
      · exact absurd (show e.prevout = vin.prevout from heq.symm.trans hprev) hnot

/-- One round of the search keeps the first of the masternodes that are unpaid the longest. -/
theorem considerOldest_spec {s : NodeState} {vVins : List CTxIn} {nMinimumAge : ℤ}
    {found found' : List Entry × Option Entry} {done : List Entry} {e : Entry}
    (hfound : found.1.map paidAt = done.map paidAt ∧
      IsFirstMaximum (Eligible s vVins nMinimumAge) (Entry.SecondsSincePayment env.toFcEnv) found.1
        found.2)
    (h : PaidNode.considerOldest ctx env.toFcEnv s vVins nMinimumAge found e = .ok found') :
    found'.1.map paidAt = (done ++ [e]).map paidAt ∧
      IsFirstMaximum (Eligible s vVins nMinimumAge) (Entry.SecondsSincePayment env.toFcEnv) found'.1
        found'.2 := by
  obtain ⟨hpaid, hmax⟩ := hfound
  have happ {mn : Entry} (hmn : paidAt mn = paidAt e) :
      (found.1 ++ [mn]).map paidAt = (done ++ [e]).map paidAt := by
    rw [map_append, map_append, hpaid, List.map_singleton, List.map_singleton, hmn]
  unfold PaidNode.considerOldest at h
  obtain ⟨mn, hchk, h⟩ := bind_ok h
  have hmn := paidAt_check hchk
  split_ifs at h with hdisabled
  · cases h
    refine ⟨happ hmn, hmax.skip fun helig => ?_⟩
    exact absurd helig.enabled (by simp [hdisabled])
  obtain ⟨⟨nAge, aged⟩, hage, h⟩ := bind_ok h
  obtain ⟨hfields, hlast, hnone, hsome⟩ := getFloatingcityInputAge_eq_ok hage
  have haged : paidAt aged = paidAt e := by
    rw [← hmn]
    unfold paidAt Entry.prevout
    rw [hfields, hlast]
  dsimp only at h
  split_ifs at h with hyoung hexcluded hlonger
  · -- The input is too young.
    cases h
    refine ⟨happ haged, hmax.skip fun helig => ?_⟩
    by_cases hbest : s.pindexBest = none
    · have := helig.ageNone hbest
      rw [hnone hbest] at hyoung
      omega
    · obtain ⟨best, hidx, rfl⟩ := hsome hbest
      have := helig.age best hidx
      omega
  · -- The outpoint is excluded.
    cases h
    refine ⟨happ haged, hmax.skip fun helig => ?_⟩
    obtain ⟨vin, hvin, heq⟩ := List.any_eq_true.mp hexcluded
    exact absurd (eq_of_beq heq) (helig.included vin hvin)
  · -- It has waited longer than the one found so far.
    cases h
    refine ⟨happ haged, hmax.take ⟨?_, ?_, ?_, ?_⟩ fun oldest holdest => ?_⟩
    · rw [hfields]
      simpa using hdisabled
    · intro best hidx
      have hbest : s.pindexBest ≠ none := by
        intro hnull
        rw [hnull] at hidx
        simp [NodeState.index] at hidx
      obtain ⟨best', hidx', rfl⟩ := hsome hbest
      obtain rfl := Except.ok.inj (hidx.symm.trans hidx')
      omega
    · intro hbest
      rw [hnone hbest] at hyoung
      omega
    · intro vin hvin heq
      exact hexcluded (List.any_eq_true.mpr ⟨vin, hvin, beq_iff_eq.mpr heq⟩)
    · rw [holdest] at hlonger
      simpa using hlonger
  · cases h
    refine ⟨happ haged, hmax.skip fun _ => ?_⟩
    rcases hfound : found.2 with _ | oldest
    · rw [hfound] at hlonger
      simp at hlonger
    · rw [hfound] at hlonger
      exact ⟨oldest, rfl, by simpa using hlonger⟩

theorem findOldest_spec {vVins : List CTxIn} {nMinimumAge : ℤ} {oldest : Option Entry}
    (h : p.FindOldestNotInVec ctx env.toFcEnv vVins nMinimumAge = .ok (oldest, p')) :
    p'.entries.map paidAt = p.entries.map paidAt ∧
      IsFirstMaximum (Eligible p.chain vVins nMinimumAge) (Entry.SecondsSincePayment env.toFcEnv)
        p'.entries oldest := by
  obtain ⟨found, hloop, h⟩ := bind_ok h
  cases h
  obtain ⟨hpaid, hmax⟩ := foldlM_ok_induction
    (fun done found => found.1.map paidAt = done.map paidAt ∧
      IsFirstMaximum (Eligible p.chain vVins nMinimumAge) (Entry.SecondsSincePayment env.toFcEnv)
        found.1 found.2)
    ⟨rfl, by simp [IsFirstMaximum]⟩
    (fun _ _ _ _ _ _ hfound hstep => considerOldest_spec hfound hstep) hloop
  have hlen : found.1.length = p.vFloatingcities.elems.length := by
    have := congrArg List.length hpaid
    rwa [length_map, length_map] at this
  have hwrite : (p.vFloatingcities.write (fun e _ => e) found.1).elems = found.1 :=
    zipWith_left hlen
  unfold PaidNode.entries at hpaid ⊢
  rw [hwrite]
  exact ⟨hpaid, hmax⟩

/-- What an operation does to the times: those that are new or paid are now, and the others are kept
exactly when the operation is harmless. -/
theorem perform_spec {op : Op} (hdist : p.outpoints.Nodup)
    (h : op.perform ctx signer growth env p = .ok p') :
    Noted env.toFcEnv op p p' ∧ (TimesKept op p p' ↔ Harmless ctx signer env op p) := by
  cases op with
  | add mn =>
    cases h
    exact add_spec ctx signer growth env hdist mn
  | remove vin => exact remove_spec hdist h
  | checkAndRemove => exact checkAndRemove_spec hdist h
  | message m =>
    cases h
    exact message_spec ctx signer growth env hdist m
  | pay vin =>
    cases h
    obtain ⟨hnoted, hkept⟩ := pay_spec hdist vin
    exact ⟨hnoted, iff_of_true hkept trivial⟩
  | findOldest vVins nMinimumAge =>
    have hop : ∀ prevout, ¬(Op.findOldest vVins nMinimumAge).pays prevout := fun _ h => h
    change (p.FindOldestNotInVec ctx env.toFcEnv vVins nMinimumAge).map Prod.snd = .ok p' at h
    rcases hfind : p.FindOldestNotInVec ctx env.toFcEnv vVins nMinimumAge with e | ⟨oldest, q⟩
    · simp [hfind, Except.map] at h
    rw [hfind] at h
    obtain rfl : q = p' := Except.ok.inj h
    obtain ⟨hpaid, -⟩ := findOldest_spec hfind
    refine ⟨noted_of_paidAt hdist hop hpaid, iff_of_true ?_ trivial⟩
    rw [timesKept_iff hop]
    exact keeps_of_paidAt hdist hpaid

end

/-! ## Runs -/

/-- A run of operations that are allowed, and the times that have been recorded: it starts with a list
whose times are recorded, for instance the empty one. In between other things may happen in the node. -/
inductive PaidRun (ctx : Context) (signer : CMNengineSigner) (growth : Growth)
    (allowed : PaidEnv → Op → PaidNode → Prop) : PaidNode → (COutPoint → Option ℤ) → Prop
  | start {p : PaidNode} {L : COutPoint → Option ℤ} (hdistinct : p.outpoints.Nodup)
      (hrecorded : Recorded p L) : PaidRun ctx signer growth allowed p L
  | step {p p' : PaidNode} {L : COutPoint → Option ℤ} {env : PaidEnv} {op : Op}
      (hrun : PaidRun ctx signer growth allowed p L) (hallowed : allowed env op p)
      (h : op.perform ctx signer growth env p = .ok p') :
      PaidRun ctx signer growth allowed p' (record env.toFcEnv op p p' L)
  | elsewhere {p p' : PaidNode} {L : COutPoint → Option ℤ}
      (hrun : PaidRun ctx signer growth allowed p L)
      (h : p'.vFloatingcities = p.vFloatingcities) : PaidRun ctx signer growth allowed p' L

/-- What the queue remembers: every entry has the time that was recorded for it, every operation keeps
the times of the entries that it does not pay, and the search finds the first of those that have waited
longest by the recorded times. -/
structure Remembers (ctx : Context) (signer : CMNengineSigner) (growth : Growth)
    (allowed : PaidEnv → Op → PaidNode → Prop) (p : PaidNode) (L : COutPoint → Option ℤ) : Prop where
  recorded : Recorded p L
  kept : ∀ env op p', allowed env op p → op.perform ctx signer growth env p = .ok p' →
    TimesKept op p p'
  finds : ∀ (env : PaidEnv) vVins nMinimumAge oldest p',
    p.FindOldestNotInVec ctx env.toFcEnv vVins nMinimumAge = .ok (oldest, p') →
      FindsOldest env.toFcEnv p.chain vVins nMinimumAge L p'.entries oldest

section

variable {ctx : Context} {signer : CMNengineSigner} {growth : Growth} {env : PaidEnv}
  {p p' : PaidNode} {L : COutPoint → Option ℤ}

theorem Recorded.step {op : Op} (h : Recorded p L) (hnoted : Noted env.toFcEnv op p p')
    (hkept : TimesKept op p p') : Recorded p' (record env.toFcEnv op p p' L) := by
  intro e' he'
  have hmem : e'.prevout ∈ p'.outpoints := mem_map_of_mem he'
  unfold record
  split
  · rename_i hcond
    rcases hcond with ⟨hpays, -⟩ | ⟨-, hnew⟩
    · rw [hnoted.paid e' he' hpays]
    · rw [hnoted.fresh e' he' hnew]
  · rename_i hcond
    push Not at hcond
    obtain ⟨hpays, hnew⟩ := hcond
    -- The entry was there, and it is not the one that is paid.
    have hold := hnew hmem
    obtain ⟨e, he, heq⟩ := List.mem_map.mp hold
    rw [← heq, h e he, hkept e he e' he' heq.symm fun hpaid => hpays (heq ▸ hpaid) hold]

theorem PaidRun.invariant (h : PaidRun ctx signer growth (Harmless ctx signer) p L) :
    p.outpoints.Nodup ∧ Recorded p L := by
  induction h with
  | start hdist hrec => exact ⟨hdist, hrec⟩
  | step hrun hallow h ih =>
    obtain ⟨hdist, hrec⟩ := ih
    obtain ⟨hnoted, hkept⟩ := perform_spec hdist h
    exact ⟨hnoted.distinct, hrec.step hnoted (hkept.mpr hallow)⟩
  | elsewhere hrun h ih =>
    unfold PaidNode.outpoints Recorded PaidNode.entries at ih ⊢
    rw [h]
    exact ih

theorem Recorded.finds (h : Recorded p L) {vVins : List CTxIn} {nMinimumAge : ℤ}
    {oldest : Option Entry}
    (hfind : p.FindOldestNotInVec ctx env.toFcEnv vVins nMinimumAge = .ok (oldest, p')) :
    FindsOldest env.toFcEnv p.chain vVins nMinimumAge L p'.entries oldest := by
  obtain ⟨hpaid, hmax⟩ := findOldest_spec hfind
  refine hmax.congr fun e he => ?_
  have hmem : paidAt e ∈ p.entries.map paidAt := hpaid ▸ mem_map_of_mem he
  obtain ⟨e₀, he₀, hsame⟩ := List.mem_map.mp hmem
  obtain ⟨hprev, hlast⟩ := Prod.mk.inj hsame
  unfold Entry.SecondsSincePayment
  rw [← hprev, ← hlast, h e₀ he₀, Option.getD_some]

end

/-- Along a run of operations that copy no entry with a time other than now, the queue remembers the
times of the payments. An operation keeps the times of the other entries only when it is one of these. -/
theorem paymentQueue_remembers {ctx : Context} {signer : CMNengineSigner} {growth : Growth}
    {p : PaidNode} {L : COutPoint → Option ℤ}
    (h : PaidRun ctx signer growth (Harmless ctx signer) p L) :
    Remembers ctx signer growth (Harmless ctx signer) p L ∧
      ∀ env op p', op.perform ctx signer growth env p = .ok p' →
        (TimesKept op p p' ↔ Harmless ctx signer env op p) := by
  obtain ⟨hdistinct, hrecorded⟩ := h.invariant
  refine ⟨⟨hrecorded, fun env op p' hallowed hstep => ?_, fun env _ _ _ _ => hrecorded.finds⟩, ?_⟩
  · exact (perform_spec hdistinct hstep).2.mpr hallowed
  · intro env op p' hstep
    exact (perform_spec hdistinct hstep).2

/-! ## A queue that remembers, and one that does not -/

def doubling : Growth := ⟨fun n => max 1 (2 * n), fun n => by omega⟩

def queueEnv (time : ℤ) : PaidEnv :=
  { fundedEnv with
    toEnv := plainEnv time
    uninitialised := 0 }

def noMasternodes : PaidNode := ⟨emptyNode, empty, fun _ => none, ⟨CTxIn.null, ⟨0, 0⟩, Script.CPubKey.invalid⟩⟩

def queueEntry (n : UInt32) : Entry :=
  ⟨{ CFloatingcity.new fundedEnv (fundedDsee n) with vin := inputOf 11 n }, 0, 0, 0⟩

def twoMasternodes (time : ℤ) : PaidNode :=
  (noMasternodes.Add doubling (queueEnv 1000).toFcEnv (queueEntry 0)).Add doubling
    (queueEnv time).toFcEnv (queueEntry 1)

def recordedTimes (time : ℤ) : COutPoint → Option ℤ :=
  record (queueEnv time).toFcEnv (.add (queueEntry 1))
    (noMasternodes.Add doubling (queueEnv 1000).toFcEnv (queueEntry 0)) (twoMasternodes time)
    (record (queueEnv 1000).toFcEnv (.add (queueEntry 0)) noMasternodes
      (noMasternodes.Add doubling (queueEnv 1000).toFcEnv (queueEntry 0)) fun _ => none)

theorem twoMasternodes_run {allowed : PaidEnv → Op → PaidNode → Prop} (time : ℤ)
    (h₁ : allowed (queueEnv 1000) (.add (queueEntry 0)) noMasternodes)
    (h₂ : allowed (queueEnv time) (.add (queueEntry 1))
      (noMasternodes.Add doubling (queueEnv 1000).toFcEnv (queueEntry 0))) :
    PaidRun fundingContext anySigner doubling allowed (twoMasternodes time) (recordedTimes time) :=
  .step (.step (.start (by simp [noMasternodes, PaidNode.outpoints, PaidNode.entries, empty])
    (by simp [Recorded, noMasternodes, PaidNode.entries, empty])) h₁ rfl) h₂ rfl

/-- When both are added in the same second, the queue remembers the times. -/
theorem twoMasternodes_remembered :
    (twoMasternodes 1000).entries.map Entry.nLastPaid = [1000, 1000] ∧
      Remembers fundingContext anySigner doubling (Harmless fundingContext anySigner)
        (twoMasternodes 1000) (recordedTimes 1000) := by
  refine ⟨by decide, (paymentQueue_remembers (twoMasternodes_run 1000 ?_ ?_)).1⟩
  · exact fun _ _ => Or.inr (by decide)
  · exact fun _ _ => Or.inr (by decide)

/-- When the second one is added later, the first one has its time as well: the vector is full. -/
theorem twoMasternodes_forgotten :
    ¬ ∀ (ctx : Context) (signer : CMNengineSigner) (growth : Growth) (p : PaidNode)
      (L : COutPoint → Option ℤ), PaidRun ctx signer growth (fun _ _ _ => True) p L →
        Remembers ctx signer growth (fun _ _ _ => True) p L := by
  intro h
  have hremembers := h _ _ _ _ _ (twoMasternodes_run 2000 trivial trivial)
  obtain ⟨e, he, hprevout, hlast⟩ : ∃ e ∈ (twoMasternodes 2000).entries,
      e.prevout = (inputOf 11 0).prevout ∧ e.nLastPaid = 2000 := by
    decide
  have hrecorded := hremembers.recorded e he
  rw [hprevout, hlast] at hrecorded
  revert hrecorded
  decide

end ZalemCoin.Floatingcity
