import ZalemCoin.Chain.OrphanTxs

/-!
# Alerts

An alert cancels others by their ids, while it is in effect. `ProcessAlert` drops what a new alert cancels
and what has expired before it looks whether the new one is cancelled itself, so that no contained alert
cancels another. But the order lets an alert drop the final one, and drop others and then be rejected.
-/

namespace ZalemCoin.Network

open Lib (SortedMap)
open Chain (UInt256)

attribute [local instance] Chain.instLinearOrderUInt256

/-- What the alert key signs. -/
structure CUnsignedAlert where
  nExpiration : ℤ
  nID : ℤ
  nCancel : ℤ
  setCancel : List ℤ
  nMinVer : ℤ
  nMaxVer : ℤ
  setSubVer : List String
  nPriority : ℤ
  strStatusBar : String
deriving DecidableEq

structure CAlert extends CUnsignedAlert where
  vchMsg : List UInt8
  vchSig : List UInt8
deriving DecidableEq

/-- The signatures of the alert key, the hash, and how the signed bytes are read. -/
structure AlertLibrary where
  Verify : UInt256 → List UInt8 → Bool
  Hash_bmw512 : List UInt8 → UInt256
  /-- Nothing when the bytes do not have the format, on which the reader throws. -/
  unserialize : List UInt8 → Option CUnsignedAlert

abbrev AlertMap := SortedMap UInt256 CAlert

/-- `std::numeric_limits<int>::max()`. -/
def maxInt : ℤ := 2147483647

namespace CAlert

variable (lib : AlertLibrary) (now : ℤ) (alert : CAlert)

def GetHash : UInt256 := lib.Hash_bmw512 alert.vchMsg

def IsInEffect : Prop := now < alert.nExpiration

instance : Decidable (alert.IsInEffect now) := inferInstanceAs (Decidable (now < alert.nExpiration))

def Names (other : CAlert) : Prop := other.nID ≤ alert.nCancel ∨ other.nID ∈ alert.setCancel

instance (other : CAlert) : Decidable (alert.Names other) :=
  inferInstanceAs (Decidable (other.nID ≤ alert.nCancel ∨ other.nID ∈ alert.setCancel))

def Cancels (other : CAlert) : Prop := alert.IsInEffect now ∧ alert.Names other

instance (other : CAlert) : Decidable (alert.Cancels now other) :=
  inferInstanceAs (Decidable (alert.IsInEffect now ∧ alert.Names other))

/-- The alert with its data, when the signature is right; the first `none` is that the reader throws. -/
def CheckSignature : Option (Option CAlert) :=
  if lib.Verify (lib.Hash_bmw512 alert.vchMsg) alert.vchSig then
    (lib.unserialize alert.vchMsg).map fun unsigned => some { alert with toCUnsignedAlert := unsigned }
  else some none

/-- An alert has the text that is fixed for the largest id. -/
def IsFinal : Prop :=
  alert.nExpiration = maxInt ∧ alert.nCancel = maxInt - 1 ∧ alert.nMinVer = 0 ∧ alert.nMaxVer = maxInt ∧
    alert.setSubVer = [] ∧ alert.nPriority = maxInt ∧
    alert.strStatusBar = "URGENT: Alert key compromised, upgrade required"

instance : Decidable alert.IsFinal := inferInstanceAs (Decidable (_ ∧ _))

/-- The alerts that stay: those that are in effect and that the new one does not cancel. -/
def remaining (mapAlerts : AlertMap) : AlertMap :=
  mapAlerts.filter fun item => ¬ alert.Cancels now item ∧ item.IsInEffect now

/-- What is done with an alert after its own checks. -/
def updateAlerts (mapAlerts : AlertMap) : Bool × AlertMap :=
  let kept := alert.remaining now mapAlerts
  if ∃ item ∈ kept.entries, item.2.Cancels now alert then (false, kept)
  else
    match kept.find (alert.GetHash lib) with
    | some _ => (true, kept)
    | none => (true, kept.insert (alert.GetHash lib) alert)

/-- The result, which is none when the reader throws, and the alerts afterwards. -/
def ProcessAlert (mapAlerts : AlertMap) : Option Bool × AlertMap :=
  match alert.CheckSignature lib with
  | none => (none, mapAlerts)
  | some none => (some false, mapAlerts)
  | some (some alert) =>
    if ¬ alert.IsInEffect now then (some false, mapAlerts)
    else if alert.nID = maxInt ∧ ¬ alert.IsFinal then (some false, mapAlerts)
    else ((alert.updateAlerts lib now mapAlerts).map some id)

/-! ## What processing keeps -/

/-- No contained alert names another one. -/
def Quiet (mapAlerts : AlertMap) : Prop :=
  ∀ k k' a b, mapAlerts.find k = some a → mapAlerts.find k' = some b → k ≠ k' → ¬ a.Names b

def KeepsFinal (mapAlerts : AlertMap) : Prop :=
  ∀ k final, mapAlerts.find k = some final → final.nID = maxInt → final.IsInEffect now →
    k ≠ alert.GetHash lib → (alert.ProcessAlert lib now mapAlerts).2.find k = some final

def RejectedUnchanged (mapAlerts : AlertMap) : Prop :=
  (alert.ProcessAlert lib now mapAlerts).1 = some false → ∀ k a, a.IsInEffect now →
    ((alert.ProcessAlert lib now mapAlerts).2.find k = some a ↔ mapAlerts.find k = some a)

/-- A call keeps the final alert and the alerts in effect, and at no time does a contained alert cancel
another one after it. -/
structure Meets (mapAlerts : AlertMap) : Prop where
  quiet : ∀ time k k' a b, (alert.ProcessAlert lib now mapAlerts).2.find k = some a →
    (alert.ProcessAlert lib now mapAlerts).2.find k' = some b → k ≠ k' → ¬ a.Cancels time b
  final : alert.KeepsFinal lib now mapAlerts
  rejected : alert.RejectedUnchanged lib now mapAlerts

def Passes (checked : CAlert) : Prop :=
  alert.CheckSignature lib = some (some checked) ∧ checked.IsInEffect now ∧
    (checked.nID = maxInt → checked.IsFinal)

/-- An alert that passes its own checks does not name a final one in effect, and when one that stays
cancels it, it names no alert in effect. -/
def Harmless (mapAlerts : AlertMap) : Prop :=
  ∀ checked, alert.Passes lib now checked →
    (∀ k final, mapAlerts.find k = some final → final.nID = maxInt → final.IsInEffect now →
      k ≠ alert.GetHash lib → ¬ checked.Names final) ∧
    ((∃ k a, mapAlerts.find k = some a ∧ a.Cancels now checked ∧ ¬ checked.Names a) →
      ∀ k b, mapAlerts.find k = some b → b.IsInEffect now → ¬ checked.Names b)

def Along (P : ℤ → CAlert → AlertMap → Prop) : List (ℤ × CAlert) → AlertMap → Prop
  | [], _ => True
  | (now, alert) :: calls, mapAlerts =>
    P now alert mapAlerts ∧ Along P calls (alert.ProcessAlert lib now mapAlerts).2

/-! ## One alert -/

variable {lib : AlertLibrary} {now : ℤ} {alert checked : CAlert} {mapAlerts : AlertMap}
  {k : UInt256} {a : CAlert}

theorem processAlert_of_not_passes (h : ∀ checked, ¬ alert.Passes lib now checked) :
    (alert.ProcessAlert lib now mapAlerts).2 = mapAlerts := by
  unfold ProcessAlert
  split
  · rfl
  · rfl
  · rename_i checked hchk
    split_ifs with heffect hfinal
    · rfl
    · refine absurd ⟨hchk, heffect, fun hid => ?_⟩ (h checked)
      by_contra hnot
      exact hfinal ⟨hid, hnot⟩
    · rfl

theorem processAlert_of_passes (h : alert.Passes lib now checked) :
    alert.ProcessAlert lib now mapAlerts = ((checked.updateAlerts lib now mapAlerts).map some id) := by
  unfold ProcessAlert
  rw [h.1]
  dsimp only
  rw [if_neg (not_not.mpr h.2.1), if_neg fun hand => hand.2 (h.2.2 hand.1)]

/-- Reading the data does not change what is hashed. -/
theorem Passes.getHash (h : alert.Passes lib now checked) : checked.GetHash lib = alert.GetHash lib := by
  have hchk := h.1
  unfold CheckSignature at hchk
  split at hchk
  · obtain ⟨unsigned, -, hsome⟩ := Option.map_eq_some_iff.mp hchk
    rw [← Option.some.inj hsome]
    rfl
  · exact absurd (Option.some.inj hchk) (Option.some_ne_none checked).symm

theorem find_remaining :
    (alert.remaining now mapAlerts).find k = some a
      ↔ mapAlerts.find k = some a ∧ ¬ alert.Cancels now a ∧ a.IsInEffect now := by
  rw [remaining, SortedMap.find_filter, decide_eq_true_iff]

/-- What is contained afterwards is what remains, and the alert itself when it is not rejected. -/
theorem find_updateAlerts (h : (alert.updateAlerts lib now mapAlerts).2.find k = some a) :
    (alert.remaining now mapAlerts).find k = some a ∨ k = alert.GetHash lib ∧ a = alert ∧
      ∀ k' b, (alert.remaining now mapAlerts).find k' = some b → ¬ b.Cancels now alert := by
  unfold updateAlerts at h
  dsimp only at h
  split at h
  · exact .inl h
  · rename_i hcancelled
    have hnone : ∀ k' b, (alert.remaining now mapAlerts).find k' = some b → ¬ b.Cancels now alert :=
      fun k' b hb hcancels => hcancelled ⟨(k', b), SortedMap.find_eq_some.mp hb, hcancels⟩
    split at h
    · exact .inl h
    · rw [SortedMap.find_insert] at h
      split at h
      · rename_i heq
        exact .inr ⟨heq, (Option.some.inj h).symm, hnone⟩
      · exact .inl h

/-- What remains is contained afterwards. -/
theorem find_updateAlerts_of_remaining (h : (alert.remaining now mapAlerts).find k = some a) :
    (alert.updateAlerts lib now mapAlerts).2.find k = some a := by
  unfold updateAlerts
  dsimp only
  split
  · exact h
  · split
    · exact h
    · rename_i hfind
      rw [SortedMap.find_insert, if_neg, h]
      rintro rfl
      rw [h] at hfind
      exact absurd hfind (Option.some_ne_none a)

theorem quiet_processAlert (h : Quiet mapAlerts) : Quiet (alert.ProcessAlert lib now mapAlerts).2 := by
  by_cases hpass : ∃ checked, alert.Passes lib now checked
  · obtain ⟨checked, hpass⟩ := hpass
    rw [processAlert_of_passes hpass]
    intro k k' a b ha hb hne hnames
    rcases find_updateAlerts ha with ha | ⟨rfl, rfl, hfree⟩
    · obtain ⟨hfa, -, heffect⟩ := find_remaining.mp ha
      rcases find_updateAlerts hb with hb | ⟨rfl, rfl, hfree⟩
      · exact h k k' a b hfa (find_remaining.mp hb).1 hne hnames
      · exact hfree k a ha ⟨heffect, hnames⟩
    · rcases find_updateAlerts hb with hb | ⟨rfl, -⟩
      · exact (find_remaining.mp hb).2.1 ⟨hpass.2.1, hnames⟩
      · exact hne rfl
  · rw [processAlert_of_not_passes (not_exists.mp hpass)]
    exact h

/-- The final alert stays exactly when it is not named. -/
theorem keepsFinal_iff (hpass : alert.Passes lib now checked) :
    alert.KeepsFinal lib now mapAlerts ↔ ∀ k final, mapAlerts.find k = some final →
      final.nID = maxInt → final.IsInEffect now → k ≠ alert.GetHash lib → ¬ checked.Names final := by
  unfold KeepsFinal
  rw [processAlert_of_passes hpass]
  refine forall₂_congr fun k final => forall₄_congr fun hfind hid heffect hother => ?_
  constructor
  · intro haft hnames
    rcases find_updateAlerts haft with hremains | ⟨hhash, -⟩
    · exact (find_remaining.mp hremains).2.1 ⟨hpass.2.1, hnames⟩
    · exact hother (hhash.trans hpass.getHash)
  · intro hfree
    exact find_updateAlerts_of_remaining
      (find_remaining.mpr ⟨hfind, fun hcancels => hfree hcancels.2, heffect⟩)

/-- An alert is rejected after its own checks when one that remains cancels it. -/
theorem updateAlerts_rejects_iff : (alert.updateAlerts lib now mapAlerts).1 = false ↔
    ∃ k a, (alert.remaining now mapAlerts).find k = some a ∧ a.Cancels now alert := by
  unfold updateAlerts
  dsimp only
  split
  · rename_i hcancelled
    obtain ⟨⟨k, a⟩, hmem, hcancels⟩ := hcancelled
    exact iff_of_true rfl ⟨k, a, SortedMap.find_eq_some.mpr hmem, hcancels⟩
  · rename_i hfree
    refine iff_of_false ?_ ?_
    · split <;> exact Bool.noConfusion
    · rintro ⟨k, a, hfind, hcancels⟩
      exact hfree ⟨(k, a), SortedMap.find_eq_some.mp hfind, hcancels⟩

/-- The alerts in effect are the same after a rejection exactly when none of them is named. -/
theorem rejectedUnchanged_iff (hpass : alert.Passes lib now checked) :
    alert.RejectedUnchanged lib now mapAlerts ↔
      ((∃ k a, mapAlerts.find k = some a ∧ a.Cancels now checked ∧ ¬ checked.Names a) →
        ∀ k b, mapAlerts.find k = some b → b.IsInEffect now → ¬ checked.Names b) := by
  have hremains : (∃ k a, (checked.remaining now mapAlerts).find k = some a ∧ a.Cancels now checked)
      ↔ ∃ k a, mapAlerts.find k = some a ∧ a.Cancels now checked ∧ ¬ checked.Names a := by
    refine exists₂_congr fun k a => ?_
    rw [find_remaining]
    constructor
    · rintro ⟨⟨hfind, hfree, -⟩, hcancels⟩
      exact ⟨hfind, hcancels, fun hnames => hfree ⟨hpass.2.1, hnames⟩⟩
    · rintro ⟨hfind, hcancels, hfree⟩
      exact ⟨⟨hfind, fun h => hfree h.2, hcancels.1⟩, hcancels⟩
  unfold RejectedUnchanged
  rw [processAlert_of_passes hpass, ← hremains, ← @updateAlerts_rejects_iff lib]
  have hsome : ∀ b : Bool, some b = some false ↔ b = false := fun b => Option.some_inj
  rw [Prod.map_fst, hsome]
  refine forall_congr' fun hrej => ?_
  have hkept : (checked.updateAlerts lib now mapAlerts).2 = checked.remaining now mapAlerts := by
    obtain ⟨k, a, hfind, hcancels⟩ := updateAlerts_rejects_iff.mp hrej
    exact congrArg Prod.snd (if_pos ⟨(k, a), SortedMap.find_eq_some.mp hfind, hcancels⟩)
  rw [Prod.map_snd, id_eq, hkept]
  constructor
  · intro hsame k b hfind heffect hnames
    exact (find_remaining.mp ((hsame k b heffect).mpr hfind)).2.1 ⟨hpass.2.1, hnames⟩
  · intro hfree k a heffect
    rw [find_remaining]
    exact ⟨And.left, fun hfind => ⟨hfind, fun h => hfree k a hfind heffect h.2, heffect⟩⟩

/-- With alerts that do not name each other, a call is right exactly when it is harmless. -/
theorem meets_iff (h : Quiet mapAlerts) :
    alert.Meets lib now mapAlerts ↔ alert.Harmless lib now mapAlerts := by
  have hquiet : ∀ time k k' a b, (alert.ProcessAlert lib now mapAlerts).2.find k = some a →
      (alert.ProcessAlert lib now mapAlerts).2.find k' = some b → k ≠ k' → ¬ a.Cancels time b :=
    fun _ k k' a b ha hb hne hcancels => quiet_processAlert h k k' a b ha hb hne hcancels.2
  constructor
  · intro hmeets checked hpass
    exact ⟨(keepsFinal_iff hpass).mp hmeets.final, (rejectedUnchanged_iff hpass).mp hmeets.rejected⟩
  · intro hharmless
    by_cases hpass : ∃ checked, alert.Passes lib now checked
    · obtain ⟨checked, hpass⟩ := hpass
      obtain ⟨hfinal, hrej⟩ := hharmless checked hpass
      exact ⟨hquiet, (keepsFinal_iff hpass).mpr hfinal, (rejectedUnchanged_iff hpass).mpr hrej⟩
    · have hsame : (alert.ProcessAlert lib now mapAlerts).2 = mapAlerts :=
        processAlert_of_not_passes (not_exists.mp hpass)
      refine ⟨hquiet, fun k final hfind _ _ _ => ?_, fun _ k a _ => ?_⟩
      · rw [hsame]
        exact hfind
      · rw [hsame]

/-! ## Runs -/

theorem quiet_empty : Quiet SortedMap.empty := by
  intro k _ a _ ha
  rw [SortedMap.find_empty] at ha
  exact absurd ha (Option.some_ne_none a).symm

theorem along_meets_iff (h : Quiet mapAlerts) (calls : List (ℤ × CAlert)) :
    Along lib (fun now alert => alert.Meets lib now) calls mapAlerts
      ↔ Along lib (fun now alert => alert.Harmless lib now) calls mapAlerts := by
  induction calls generalizing mapAlerts with
  | nil => exact Iff.rfl
  | cons call calls ih => exact and_congr (meets_iff h) (ih (quiet_processAlert h))

/-- Every alert of a run is processed as it is meant to be exactly when each is harmless when it comes. -/
theorem processAlerts_meet_iff (lib : AlertLibrary) (calls : List (ℤ × CAlert)) :
    Along lib (fun now alert => alert.Meets lib now) calls SortedMap.empty
      ↔ Along lib (fun now alert => alert.Harmless lib now) calls SortedMap.empty :=
  along_meets_iff quiet_empty calls

/-! ## The final alert is overridden -/

def finalText : CUnsignedAlert :=
  ⟨maxInt, maxInt, maxInt - 1, [], 0, maxInt, [], maxInt, "URGENT: Alert key compromised, upgrade required"⟩

/-- An alert that names every id. -/
def overridingText : CUnsignedAlert := ⟨200, 5, maxInt, [], 0, maxInt, [], 0, ""⟩

/-- A library in which the empty message is the final alert, and any other one the overriding one. -/
def twoTexts : AlertLibrary where
  Verify _ _ := true
  Hash_bmw512 bytes := BitVec.ofNat 256 bytes.length
  unserialize bytes := some (if bytes = [] then finalText else overridingText)

def messageOf (vchMsg : List UInt8) : CAlert := ⟨overridingText, vchMsg, []⟩

theorem final_overridden : ¬ ∀ (lib : AlertLibrary) (calls : List (ℤ × CAlert)),
    Along lib (fun now alert => alert.Meets lib now) calls SortedMap.empty := by
  intro h
  have hstays := (h twoTexts [(100, messageOf []), (100, messageOf [0])]).2.1.final 0 ⟨finalText, [], []⟩
    (by decide) rfl (by decide) (by decide)
  exact absurd hstays (by decide)

end CAlert

end ZalemCoin.Network
