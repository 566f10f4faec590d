import ZalemCoin.Floatingcity.Admission

/-!
# Random choice and removal of masternodes

`FindRandomNotInVec` counts the masternodes, draws a number and walks along the list until it has passed
that many. The first eligible one is taken for zero and for one, so the last one is never taken, and the
excluded inputs are taken off the count whether or not they are masternodes. `Remove` looks for an entry
with an iterator that it never advances.
-/

namespace ZalemCoin.Floatingcity

open Lib Chain Script

/-! ## Random choice -/

def wantedProtocol (env : FcEnv) (protocolVersion : ℤ) : ℤ :=
  if protocolVersion = -1 then env.nFloatingcityMinProtocol else protocolVersion

def CFloatingcity.CountsFor (protocolVersion : ℤ) (mn : CFloatingcity) : Bool :=
  !(decide (mn.protocolVersion < protocolVersion) || !mn.IsEnabled)

def CountEnabled (ctx : Context) (env : FcEnv) (protocolVersion : ℤ) : Action Node Failure ℕ := do
  let protocolVersion := wantedProtocol env protocolVersion
  let entries ← Action.reading fun n =>
    n.mnodeman.vFloatingcities.mapM (CFloatingcity.Check ctx env n.chain)
  Action.modify fun n => { n with mnodeman := { n.mnodeman with vFloatingcities := entries } }
  pure (entries.countP (CFloatingcity.CountsFor protocolVersion))

/-- The difference of two sizes, an unsigned number: it wraps instead of being negative. -/
def sizeDifference (a b : ℕ) : ℕ := if b ≤ a then a - b else 2 ^ 64 - (b - a)

/-- The walk along the list, from an entry with its place. -/
def pickLoop (protocolVersion : ℤ) (vecToExclude : List CTxIn) :
    List CFloatingcity → ℤ → ℕ → Option ℕ
  | [], _, _ => none
  | mn :: rest, rand, place =>
    if !mn.CountsFor protocolVersion then pickLoop protocolVersion vecToExclude rest rand (place + 1)
    else if vecToExclude.any fun usedVin => mn.vin.prevout == usedVin.prevout then
      pickLoop protocolVersion vecToExclude rest rand (place + 1)
    else
      -- `--rand < 1`
      let rand := rand - 1
      if rand < 1 then some place
      else pickLoop protocolVersion vecToExclude rest rand (place + 1)

/-- The place of a random masternode that is enabled and not excluded, with the number that
`GetRandInt` draws. -/
def FindRandomNotInVec (ctx : Context) (env : FcEnv) (vecToExclude : List CTxIn)
    (protocolVersion rand : ℤ) : Action Node Failure (Option ℕ) := do
  let protocolVersion := wantedProtocol env protocolVersion
  let nCountEnabled ← CountEnabled ctx env protocolVersion
  if sizeDifference nCountEnabled vecToExclude.length < 1 then pure none
  else do
    let n ← Action.get
    pure (pickLoop protocolVersion vecToExclude n.mnodeman.vFloatingcities rand 0)

/-- The numbers that `GetRandInt` draws below a size; it gives zero below zero. A size that has wrapped
is negative as an `int`, and then every number can come. -/
def Drawn (nMax : ℕ) (rand : ℤ) : Prop :=
  if nMax < 2 ^ 31 then 0 ≤ rand ∧ (rand < nMax ∨ rand = 0) else -2 ^ 31 ≤ rand ∧ rand < 2 ^ 31

/-- A masternode that can be chosen: it counts, and its collateral is not excluded. -/
def CFloatingcity.Eligible (protocolVersion : ℤ) (vecToExclude : List CTxIn) (mn : CFloatingcity) :
    Prop :=
  mn.CountsFor protocolVersion = true ∧
    ∀ usedVin ∈ vecToExclude, mn.vin.prevout ≠ usedVin.prevout

instance (protocolVersion : ℤ) (vecToExclude : List CTxIn) :
    DecidablePred (CFloatingcity.Eligible protocolVersion vecToExclude) :=
  fun _ => inferInstanceAs (Decidable (_ ∧ _))

def EligibleAt (protocolVersion : ℤ) (vecToExclude : List CTxIn) (l : List CFloatingcity)
    (place : ℕ) : Prop :=
  ∃ mn, l[place]? = some mn ∧ mn.Eligible protocolVersion vecToExclude

/-- The random choice is right: the difference of the sizes does not wrap, nothing is chosen exactly when
no masternode is eligible, and each eligible one is chosen for exactly one of the numbers that can be
drawn. -/
def PicksEvery (ctx : Context) (env : FcEnv) (n : Node) (vecToExclude : List CTxIn)
    (protocolVersion : ℤ) : Prop :=
  ∃ nCountEnabled n', CountEnabled ctx env (wantedProtocol env protocolVersion) n
      = (.ok nCountEnabled, n') ∧
    vecToExclude.length ≤ nCountEnabled ∧
    (∀ rand, Drawn (sizeDifference nCountEnabled vecToExclude.length) rand →
      ((FindRandomNotInVec ctx env vecToExclude protocolVersion rand n).1 = .ok none ↔
        ∀ place, ¬EligibleAt (wantedProtocol env protocolVersion) vecToExclude
          n'.mnodeman.vFloatingcities place)) ∧
    ∀ place, EligibleAt (wantedProtocol env protocolVersion) vecToExclude
        n'.mnodeman.vFloatingcities place →
      ∃! rand, Drawn (sizeDifference nCountEnabled vecToExclude.length) rand ∧
        (FindRandomNotInVec ctx env vecToExclude protocolVersion rand n).1 = .ok (some place)

def eligiblePlaces (protocolVersion : ℤ) (vecToExclude : List CTxIn) (l : List CFloatingcity)
    (place : ℕ) : List ℕ :=
  ((l.zipIdx place).filter fun e => decide (e.1.Eligible protocolVersion vecToExclude)).map Prod.snd

section

variable {protocolVersion : ℤ} {vecToExclude : List CTxIn} {ctx : Context} {env : FcEnv}
  {n n' : Node} {nCountEnabled : ℕ}

/-- The walk ends at the eligible masternode with the number that has been drawn, but zero and one both
stand for the first one. -/
theorem pickLoop_eq (l : List CFloatingcity) (rand : ℤ) (place : ℕ) :
    pickLoop protocolVersion vecToExclude l rand place
      = (eligiblePlaces protocolVersion vecToExclude l place)[(rand - 1).toNat]? := by
  induction l generalizing rand place with
  | nil => rfl
  | cons mn rest ih =>
    unfold pickLoop eligiblePlaces
    rw [List.zipIdx_cons]
    by_cases hcnts : mn.CountsFor protocolVersion = true
    · rw [if_neg (by rw [hcnts]; decide)]
      by_cases hused : ∃ usedVin ∈ vecToExclude, mn.vin.prevout = usedVin.prevout
      · rw [if_pos (by simpa using hused), List.filter_cons_of_neg, ih]
        · rfl
        · rintro helig
          obtain ⟨usedVin, hmem, heq⟩ := hused
          exact (of_decide_eq_true helig).2 usedVin hmem heq
      · have helig : mn.Eligible protocolVersion vecToExclude :=
          ⟨hcnts, fun usedVin hmem heq => hused ⟨usedVin, hmem, heq⟩⟩
        rw [if_neg (by simpa using hused), List.filter_cons_of_pos (by simpa using helig)]
        by_cases hlast : rand - 1 < 1
        · rw [if_pos hlast, show (rand - 1).toNat = 0 by omega]
          rfl
        · rw [if_neg hlast, ih, show (rand - 1).toNat = (rand - 1 - 1).toNat + 1 by omega]
          rfl
    · rw [if_pos (by simpa using hcnts), List.filter_cons_of_neg, ih]
      · rfl
      · rintro helig
        exact hcnts (of_decide_eq_true helig).1

theorem mem_eligiblePlaces {l : List CFloatingcity} {place : ℕ} :
    place ∈ eligiblePlaces protocolVersion vecToExclude l 0 ↔
      EligibleAt protocolVersion vecToExclude l place := by
  unfold eligiblePlaces EligibleAt
  rw [List.mem_map]
  constructor
  · rintro ⟨⟨mn, place'⟩, hmem, rfl⟩
    obtain ⟨hmem, helig⟩ := List.mem_filter.mp hmem
    exact ⟨mn, List.mem_zipIdx_iff_getElem?.mp hmem, of_decide_eq_true helig⟩
  · rintro ⟨mn, hget, helig⟩
    exact ⟨(mn, place), List.mem_filter.mpr ⟨List.mem_zipIdx_iff_getElem?.mpr hget,
      decide_eq_true helig⟩, rfl⟩

theorem nodup_eligiblePlaces (l : List CFloatingcity) :
    (eligiblePlaces protocolVersion vecToExclude l 0).Nodup := by
  have hplaces : ((l.zipIdx 0).map Prod.snd).Nodup := by
    rw [List.zipIdx_map_snd]
    exact List.nodup_range'
  exact (List.filter_sublist.map Prod.snd).nodup hplaces

theorem findRandomNotInVec_eq (hcnt : CountEnabled ctx env (wantedProtocol env protocolVersion) n
      = (.ok nCountEnabled, n')) (rand : ℤ) :
    (FindRandomNotInVec ctx env vecToExclude protocolVersion rand n).1
      = .ok (if sizeDifference nCountEnabled vecToExclude.length < 1 then none
        else (eligiblePlaces (wantedProtocol env protocolVersion) vecToExclude
          n'.mnodeman.vFloatingcities 0)[(rand - 1).toNat]?) := by
  unfold FindRandomNotInVec
  rw [Action.bind_of_ok hcnt]
  split
  · rfl
  · rw [Action.get_bind, Action.pure_apply, pickLoop_eq]

/-- When a choice by such a walk is right, in terms of the places that can be chosen: there is none, or a
single one for a single number. -/
theorem draws_iff {places : List ℕ} (hnd : places.Nodup) (nMax : ℕ) :
    ((∀ rand, Drawn nMax rand →
        ((if nMax < 1 then none else places[(rand - 1).toNat]?) = none ↔ places = [])) ∧
      ∀ place ∈ places, ∃! rand, Drawn nMax rand ∧
        (if nMax < 1 then none else places[(rand - 1).toNat]?) = some place) ↔
      places = [] ∨ (nMax = 1 ∧ ∃! place, place ∈ places) := by
  have hzero : Drawn nMax 0 := by
    unfold Drawn
    split <;> omega
  constructor
  · rintro ⟨hnone, hone⟩
    rcases hplaces : places with _ | ⟨place, rest⟩
    · exact .inl rfl
    · subst hplaces
      have hpositive : ¬nMax < 1 := by
        intro hless
        have hemp := (hnone 0 hzero).mp (if_pos hless)
        exact List.cons_ne_nil _ _ hemp
      simp only [if_neg hpositive] at hone
      have hfst : (place :: rest)[((0 : ℤ) - 1).toNat]? = some place := rfl
      -- Zero and one are the same draw, so there is no number but zero.
      have hsingle : nMax = 1 := by
        by_contra hmany
        have hdrawn : Drawn nMax 1 := by
          unfold Drawn
          split <;> omega
        obtain ⟨rand, -, hunique⟩ := hone place List.mem_cons_self
        have h0 := hunique 0 ⟨hzero, hfst⟩
        have h1 := hunique 1 ⟨hdrawn, rfl⟩
        omega
      refine .inr ⟨hsingle, place, List.mem_cons_self, fun other hmem => ?_⟩
      obtain ⟨rand, ⟨hdrawn, hpick⟩, -⟩ := hone other hmem
      have hrand : rand = 0 := by
        unfold Drawn at hdrawn
        rw [if_pos (by omega)] at hdrawn
        omega
      rw [hrand, hfst] at hpick
      exact (Option.some.inj hpick).symm
  · rintro (rfl | ⟨rfl, place, hmem, hunique⟩)
    · refine ⟨fun rand _ => ?_, fun place hmem => nomatch hmem⟩
      simp
    · -- A list without repetitions that has one element is that element.
      have hplaces : places = [place] := by
        rcases places with _ | ⟨a, _ | ⟨b, rest⟩⟩
        · exact nomatch hmem
        · rw [hunique a List.mem_cons_self]
        · have ha := hunique a List.mem_cons_self
          have hb := hunique b (List.mem_cons_of_mem _ List.mem_cons_self)
          exact absurd (ha.trans hb.symm) fun heq =>
            (List.nodup_cons.mp hnd).1 (heq ▸ List.mem_cons_self)
      subst hplaces
      have hdrawn : ∀ rand, Drawn 1 rand → rand = 0 := by
        intro rand hrand
        unfold Drawn at hrand
        rw [if_pos (by omega)] at hrand
        omega
      refine ⟨fun rand hrand => ?_, fun other hother => ⟨0, ⟨hzero, ?_⟩, fun rand hrand => ?_⟩⟩
      · rw [hdrawn rand hrand]
        simp
      · rw [hunique other hother]
        rfl
      · exact hdrawn rand hrand.1

/-- The random choice is right exactly when no more inputs are excluded than masternodes are enabled, and
either no masternode is eligible, or only one is and the others are as many as the excluded inputs. -/
theorem picksEvery_iff (n : Node) (vecToExclude : List CTxIn) (protocolVersion : ℤ) :
    PicksEvery ctx env n vecToExclude protocolVersion ↔
      ∃ nCountEnabled n', CountEnabled ctx env (wantedProtocol env protocolVersion) n
          = (.ok nCountEnabled, n') ∧
        vecToExclude.length ≤ nCountEnabled ∧
        ((∀ place, ¬EligibleAt (wantedProtocol env protocolVersion) vecToExclude
            n'.mnodeman.vFloatingcities place) ∨
          nCountEnabled = vecToExclude.length + 1 ∧
            ∃! place, EligibleAt (wantedProtocol env protocolVersion) vecToExclude
              n'.mnodeman.vFloatingcities place) := by
  apply exists_congr
  intro nCountEnabled
  apply exists_congr
  intro n'
  apply and_congr_right
  intro hcount
  apply and_congr_right
  intro hsize
  have hdiff : sizeDifference nCountEnabled vecToExclude.length
      = nCountEnabled - vecToExclude.length := if_pos hsize
  have hone : nCountEnabled = vecToExclude.length + 1 ↔
      nCountEnabled - vecToExclude.length = 1 := by omega
  -- The eligible masternodes are known by their places.
  have hchosen : ∀ rand (r : Option ℕ),
      (FindRandomNotInVec ctx env vecToExclude protocolVersion rand n).1 = .ok r ↔
        (if nCountEnabled - vecToExclude.length < 1 then none
          else (eligiblePlaces (wantedProtocol env protocolVersion) vecToExclude
            n'.mnodeman.vFloatingcities 0)[(rand - 1).toNat]?) = r := by
    intro rand r
    rw [findRandomNotInVec_eq hcount, hdiff, Except.ok.injEq]
  simp only [hchosen, hdiff, hone, ← mem_eligiblePlaces, ← List.eq_nil_iff_forall_not_mem]
  exact draws_iff (nodup_eligiblePlaces _) _

end

def lockedEnv : FcEnv := { fundedEnv with lockMain := fun _ => false }

def pairNode : Node :=
  { fundedNode with
    mnodeman :=
      { fundedNode.mnodeman with
        vFloatingcities :=
          [CFloatingcity.new fundedEnv (fundedDsee 0), CFloatingcity.new fundedEnv (fundedDsee 1)] } }

/-- Of two masternodes the first one is chosen for both numbers that can be drawn. -/
theorem pairNode_picks_first : ¬PicksEvery fundingContext lockedEnv pairNode [] (-1) := by
  rintro ⟨nCountEnabled, n', hcount, -, -, hone⟩
  obtain ⟨hsize, rfl⟩ := Prod.mk.inj hcount
  cases hsize
  have heligible : EligibleAt (wantedProtocol lockedEnv (-1)) [] pairNode.mnodeman.vFloatingcities 0 :=
    ⟨_, rfl, rfl, fun _ h => nomatch h⟩
  obtain ⟨rand, -, hunique⟩ := hone 0 heligible
  have h0 := hunique 0 ⟨⟨by decide, Or.inr rfl⟩, rfl⟩
  have h1 := hunique 1 ⟨⟨by decide, Or.inl (by decide)⟩, rfl⟩
  omega

/-! ## Removal -/

/-- The loop of `Remove`, for a number of rounds; none when it is still running then. A round that does
not remove the entry leaves the iterator where it is. -/
def removeLoop (vin : CTxIn) (it : ℕ) : ℕ → List CFloatingcity → Option (List CFloatingcity)
  | 0, _ => none
  | rounds + 1, vFloatingcities =>
    match vFloatingcities[it]? with
    | none => some vFloatingcities
    | some mn =>
      if mn.vin = vin then some (vFloatingcities.eraseIdx it)
      else removeLoop vin it rounds vFloatingcities

def CFloatingcityMan.Remove (man : CFloatingcityMan) (vin : CTxIn) (rounds : ℕ) :
    Option CFloatingcityMan :=
  (removeLoop vin 0 rounds man.vFloatingcities).map fun vFloatingcities =>
    { man with vFloatingcities := vFloatingcities }

def RemovesFirst (man : CFloatingcityMan) (vin : CTxIn) : Prop :=
  ∃ rounds, man.Remove vin rounds
    = some { man with
        vFloatingcities := man.vFloatingcities.eraseP fun mn => decide (mn.vin = vin) }

theorem removeLoop_of_ne {vin : CTxIn} {mn : CFloatingcity} (h : mn.vin ≠ vin) (rounds : ℕ)
    (rest : List CFloatingcity) : removeLoop vin 0 rounds (mn :: rest) = none := by
  induction rounds with
  | zero => rfl
  | succ rounds ih =>
    unfold removeLoop
    dsimp only [List.getElem?_cons_zero]
    rw [if_neg h, ih]

/-- The removal does what it is for exactly when the list is empty or starts with the entry of the
input. -/
theorem removesFirst_iff (man : CFloatingcityMan) (vin : CTxIn) :
    RemovesFirst man vin ↔ ∀ mn ∈ man.vFloatingcities.head?, mn.vin = vin := by
  unfold RemovesFirst CFloatingcityMan.Remove
  rcases man.vFloatingcities with _ | ⟨mn, rest⟩
  · exact ⟨fun _ mn hmn => (nomatch hmn), fun _ => ⟨1, rfl⟩⟩
  · constructor
    · rintro ⟨rounds, hrun⟩ mn' hmn'
      cases hmn'
      by_contra hother
      rw [removeLoop_of_ne hother] at hrun
      exact nomatch hrun
    · intro h
      have hvin := h mn rfl
      refine ⟨1, ?_⟩
      unfold removeLoop
      dsimp only [List.getElem?_cons_zero]
      rw [if_pos hvin, List.eraseP_cons_of_pos (by simpa using hvin)]
      rfl

/-- The entry of the second one of two masternodes is never removed. -/
theorem pairNode_not_removed : ¬RemovesFirst pairNode.mnodeman (inputOf 11 1) := by
  rintro ⟨rounds, hrun⟩
  unfold CFloatingcityMan.Remove at hrun
  rw [show pairNode.mnodeman.vFloatingcities = CFloatingcity.new fundedEnv (fundedDsee 0) ::
    [CFloatingcity.new fundedEnv (fundedDsee 1)] from rfl, removeLoop_of_ne (by decide)] at hrun
  exact nomatch hrun

end ZalemCoin.Floatingcity
