import ZalemCoin.Chain.Primitives

/-!
# Sporks

A spork message switches a rule of the network on or off from a time on. `ProcessSpork` keeps one
message for each spork, and takes another one when it is signed at a later time. Which of several
messages that are signed at the same time is kept depends on the order in which they arrive.
-/

namespace ZalemCoin.Network

open Chain

def SPORK_1_FLOATINGCITY_PAYMENTS_ENFORCEMENT : ℤ := 10000
def SPORK_2_INSTANTX : ℤ := 10001
def SPORK_3_INSTANTX_BLOCK_FILTERING : ℤ := 10002
def SPORK_5_MAX_VALUE : ℤ := 10004
def SPORK_6_REPLAY_BLOCKS : ℤ := 10005
def SPORK_7_FLOATINGCITY_SCANNING : ℤ := 10006
def SPORK_8_FLOATINGCITY_PAYMENT_ENFORCEMENT : ℤ := 10007
def SPORK_9_FLOATINGCITY_BUDGET_ENFORCEMENT : ℤ := 10008
def SPORK_10_FLOATINGCITY_PAY_UPDATED_NODES : ℤ := 10009
def SPORK_11_RESET_BUDGET : ℤ := 10010
def SPORK_12_RECONSIDER_BLOCKS : ℤ := 10011
def SPORK_13_ENABLE_SUPERBLOCKS : ℤ := 10012

/-- The values of the sporks without a message. The seventh has its identifier for its value. -/
def sporkDefaults : List (ℤ × ℤ) :=
  [(SPORK_1_FLOATINGCITY_PAYMENTS_ENFORCEMENT, 4070908800),
    (SPORK_2_INSTANTX, 0),
    (SPORK_3_INSTANTX_BLOCK_FILTERING, 0),
    (SPORK_5_MAX_VALUE, 3000000),
    (SPORK_6_REPLAY_BLOCKS, 0),
    (SPORK_7_FLOATINGCITY_SCANNING, SPORK_7_FLOATINGCITY_SCANNING),
    (SPORK_8_FLOATINGCITY_PAYMENT_ENFORCEMENT, 4070908800),
    (SPORK_9_FLOATINGCITY_BUDGET_ENFORCEMENT, 4070908800),
    (SPORK_10_FLOATINGCITY_PAY_UPDATED_NODES, 4070908800),
    (SPORK_11_RESET_BUDGET, 0),
    (SPORK_12_RECONSIDER_BLOCKS, 0),
    (SPORK_13_ENABLE_SUPERBLOCKS, 4070908800)]

structure CSporkMessage where
  vchSig : List UInt8
  nSporkID : ℤ
  nValue : ℤ
  nTimeSigned : ℤ
deriving DecidableEq

structure SporkContext where
  GetHash : CSporkMessage → UInt256
  /-- `VerifyMessage` with the public key of the sporks. -/
  VerifyMessage : List UInt8 → String → Bool
  /-- `SignMessage` with a private key, which fails for a key that is not one. -/
  SignMessage : String → String → Option (List UInt8)

/-- The text that is signed. -/
def CSporkMessage.strMessage (spork : CSporkMessage) : String :=
  toString spork.nSporkID ++ toString spork.nValue ++ toString spork.nTimeSigned

def CheckSignature (ctx : SporkContext) (spork : CSporkMessage) : Bool :=
  ctx.VerifyMessage spork.vchSig spork.strMessage

/-- The part of a node that deals with sporks. -/
structure SporkState where
  fLiteMode : Bool
  /-- Whether the node has a best block. -/
  hasBest : Bool
  mapSporks : UInt256 → Option CSporkMessage
  mapSporksActive : ℤ → Option CSporkMessage

def SporkState.store (ctx : SporkContext) (s : SporkState) (spork : CSporkMessage) : SporkState :=
  { s with
    mapSporks := Function.update s.mapSporks (ctx.GetHash spork) (some spork)
    mapSporksActive := Function.update s.mapSporksActive spork.nSporkID (some spork) }

def ProcessSpork (ctx : SporkContext) (s : SporkState) (spork : CSporkMessage) : SporkState :=
  if s.fLiteMode then s
  else if s.hasBest = false then s
  else if ∃ active ∈ s.mapSporksActive spork.nSporkID, spork.nTimeSigned ≤ active.nTimeSigned then s
  else if CheckSignature ctx spork then s.store ctx spork
  else s

def UpdateSpork (ctx : SporkContext) (strMasterPrivKey : String) (s : SporkState)
    (nSporkID nValue time : ℤ) : Bool × SporkState :=
  let msg : CSporkMessage := ⟨[], nSporkID, nValue, time⟩
  match ctx.SignMessage strMasterPrivKey msg.strMessage with
  | none => (false, s)
  | some vchSig => (true, s.store ctx { msg with vchSig := vchSig })

def GetSporkValue (s : SporkState) (nSporkID : ℤ) : ℤ :=
  match s.mapSporksActive nSporkID with
  | some active => active.nValue
  | none => (sporkDefaults.lookup nSporkID).getD (-1)

def IsSporkActive (s : SporkState) (time nSporkID : ℤ) : Bool :=
  let r := GetSporkValue s nSporkID
  decide ((if r = -1 then 4070908800 else r) < time)

def receive (ctx : SporkContext) (s : SporkState) (msgs : List CSporkMessage) : SporkState :=
  msgs.foldl (ProcessSpork ctx) s

/-- A node that takes spork messages. -/
structure SporkState.Listens (s : SporkState) : Prop where
  full : s.fLiteMode = false
  synced : s.hasBest = true

def SporkState.timeSigned (s : SporkState) (nSporkID : ℤ) : Option ℤ :=
  (s.mapSporksActive nSporkID).map CSporkMessage.nTimeSigned

def Agreed (msgs : List CSporkMessage) (nSporkID : ℤ) : Prop :=
  ∀ m ∈ msgs, ∀ m' ∈ msgs, m.nSporkID = nSporkID → m'.nSporkID = nSporkID →
    (∀ x ∈ msgs, x.nSporkID = nSporkID → x.nTimeSigned ≤ m.nTimeSigned) →
    (∀ x ∈ msgs, x.nSporkID = nSporkID → x.nTimeSigned ≤ m'.nTimeSigned) →
      m.nValue = m'.nValue

section

variable {ctx : SporkContext} {s t : SporkState} {msgs msgs' : List CSporkMessage} {nSporkID : ℤ}

theorem processSpork_listens (h : s.Listens) (spork : CSporkMessage) :
    (ProcessSpork ctx s spork).Listens := by
  unfold ProcessSpork
  split
  · exact h
  · split
    · exact h
    · split
      · exact h
      · split
        · exact ⟨h.full, h.synced⟩
        · exact h

theorem processSpork_active (h : s.Listens) {spork : CSporkMessage}
    (hsig : CheckSignature ctx spork = true) :
    (ProcessSpork ctx s spork).mapSporksActive nSporkID
      = if nSporkID = spork.nSporkID ∧ ∀ active, s.mapSporksActive nSporkID = some active →
          active.nTimeSigned < spork.nTimeSigned then some spork
        else s.mapSporksActive nSporkID := by
  unfold ProcessSpork
  rw [h.full, h.synced, if_neg Bool.false_ne_true, if_neg (by simp)]
  by_cases hid : nSporkID = spork.nSporkID
  · subst hid
    by_cases hold : ∃ active ∈ s.mapSporksActive spork.nSporkID,
        spork.nTimeSigned ≤ active.nTimeSigned
    · rw [if_pos hold, if_neg]
      rintro ⟨-, hlater⟩
      obtain ⟨active, hact, hle⟩ := hold
      have hlt := hlater active hact
      omega
    · have hlater : ∀ active, s.mapSporksActive spork.nSporkID = some active →
          active.nTimeSigned < spork.nTimeSigned := by
        intro active hact
        by_contra hle
        exact hold ⟨active, hact, by omega⟩
      rw [if_neg hold, if_pos hsig, if_pos ⟨rfl, hlater⟩]
      exact Function.update_self ..
  · have hright : (if nSporkID = spork.nSporkID ∧ ∀ active,
        s.mapSporksActive nSporkID = some active → active.nTimeSigned < spork.nTimeSigned
        then some spork else s.mapSporksActive nSporkID) = s.mapSporksActive nSporkID :=
      if_neg fun hboth => hid hboth.1
    rw [hright, if_pos hsig]
    by_cases hold : ∃ active ∈ s.mapSporksActive spork.nSporkID,
        spork.nTimeSigned ≤ active.nTimeSigned
    · rw [if_pos hold]
    · rw [if_neg hold]
      exact Function.update_of_ne hid ..

/-- What the active message of a spork is after some messages: one of those that were signed last,
but the first one stays while none is signed later. -/
structure Newest (start : Option CSporkMessage) (msgs : List CSporkMessage) (nSporkID : ℤ)
    (active : Option CSporkMessage) : Prop where
  origin : ∀ a, active = some a → start = some a ∨ a ∈ msgs ∧ a.nSporkID = nSporkID ∧
    ∀ b, start = some b → b.nTimeSigned < a.nTimeSigned
  newest : ∀ m ∈ msgs, m.nSporkID = nSporkID → ∃ a, active = some a ∧ m.nTimeSigned ≤ a.nTimeSigned
  later : ∀ b, start = some b → ∃ a, active = some a ∧ b.nTimeSigned ≤ a.nTimeSigned

variable {start active active' : Option CSporkMessage} {a : CSporkMessage}

theorem Newest.processSpork (hs : s.Listens)
    (h : Newest start msgs nSporkID (s.mapSporksActive nSporkID)) {spork : CSporkMessage}
    (hsig : CheckSignature ctx spork = true) :
    Newest start (msgs ++ [spork]) nSporkID
      ((ProcessSpork ctx s spork).mapSporksActive nSporkID) := by
  rw [processSpork_active hs hsig]
  split
  · rename_i hnew
    obtain ⟨hid, hlater⟩ := hnew
    -- The message replaces one that is older, or comes first.
    have hbef : ∀ a, s.mapSporksActive nSporkID = some a → ∀ n, n ≤ a.nTimeSigned →
        n ≤ spork.nTimeSigned := by
      intro a ha n hn
      have hlt := hlater a ha
      omega
    refine ⟨fun a ha => ?_, fun m hm hmid => ?_, fun b hb => ?_⟩
    · cases ha
      refine .inr ⟨by simp, hid.symm, fun b hb => ?_⟩
      obtain ⟨a, ha, hle⟩ := h.later b hb
      have hlt := hlater a ha
      omega
    · refine ⟨spork, rfl, ?_⟩
      rcases List.mem_append.mp hm with hm | hm
      · obtain ⟨a, ha, hle⟩ := h.newest m hm hmid
        exact hbef a ha _ hle
      · rw [List.mem_singleton.mp hm]
    · obtain ⟨a, ha, hle⟩ := h.later b hb
      exact ⟨spork, rfl, hbef a ha _ hle⟩
  · rename_i hold
    refine ⟨fun a ha => ?_, fun m hm hmid => ?_, h.later⟩
    · rcases h.origin a ha with hstart | ⟨hmem, hid, hlater⟩
      · exact .inl hstart
      · exact .inr ⟨List.mem_append_left _ hmem, hid, hlater⟩
    · rcases List.mem_append.mp hm with hm | hm
      · exact h.newest m hm hmid
      · obtain rfl := List.mem_singleton.mp hm
        by_contra hnone
        refine hold ⟨hmid.symm, fun active hact => ?_⟩
        by_contra hle
        exact hnone ⟨active, hact, by omega⟩

theorem receive_newest (hs : s.Listens) (hsig : ∀ m ∈ msgs, CheckSignature ctx m = true) :
    (receive ctx s msgs).Listens ∧ Newest (s.mapSporksActive nSporkID) msgs nSporkID
      ((receive ctx s msgs).mapSporksActive nSporkID) := by
  induction msgs using List.reverseRecOn with
  | nil => exact ⟨hs, fun a ha => .inl ha, by simp, fun b hb => ⟨b, hb, le_rfl⟩⟩
  | append_singleton msgs spork ih =>
    obtain ⟨hlis, hnewest⟩ := ih fun m hm => hsig m (List.mem_append_left _ hm)
    have hreceive : receive ctx s (msgs ++ [spork]) = ProcessSpork ctx (receive ctx s msgs) spork := by
      unfold receive
      rw [List.foldl_append]
      rfl
    rw [hreceive]
    exact ⟨processSpork_listens hlis spork,
      hnewest.processSpork hlis (hsig spork (by simp))⟩

variable (h : Newest start msgs nSporkID active)
include h

variable (h' : Newest start msgs' nSporkID active')
include h'

theorem Newest.le (hmem : ∀ m, m ∈ msgs → m ∈ msgs') (ha : active = some a) :
    ∃ a', active' = some a' ∧ a.nTimeSigned ≤ a'.nTimeSigned := by
  rcases h.origin a ha with hstart | ⟨hm, hid, -⟩
  · exact h'.later a hstart
  · exact h'.newest a (hmem a hm) hid

theorem Newest.time_eq (hmem : ∀ m, m ∈ msgs ↔ m ∈ msgs') :
    active.map CSporkMessage.nTimeSigned = active'.map CSporkMessage.nTimeSigned := by
  rcases ha : active with _ | a
  · rcases ha' : active' with _ | a'
    · rfl
    · obtain ⟨a, hsome, -⟩ := h'.le h (fun m => (hmem m).mpr) ha'
      rw [ha] at hsome
      simp at hsome
  · obtain ⟨a', ha', hle⟩ := h.le h' (fun m => (hmem m).mp) ha
    obtain ⟨b, hb, hle'⟩ := h'.le h (fun m => (hmem m).mpr) ha'
    rw [ha] at hb
    cases hb
    rw [ha', Option.map_some, Option.map_some, Option.some.injEq]
    omega

theorem Newest.value_eq {a' : CSporkMessage} (hmem : ∀ m, m ∈ msgs ↔ m ∈ msgs')
    (hagreed : Agreed msgs nSporkID) (ha : active = some a) (ha' : active' = some a') :
    a.nValue = a'.nValue := by
  have htime := h.time_eq h' hmem
  rw [ha, ha', Option.map_some, Option.map_some, Option.some.injEq] at htime
  have hlast : ∀ x ∈ msgs, x.nSporkID = nSporkID → x.nTimeSigned ≤ a.nTimeSigned := by
    intro x hx hid
    obtain ⟨b, hb, hle⟩ := h.newest x hx hid
    rw [ha] at hb
    rwa [Option.some.inj hb]
  rcases h.origin a ha with hstart | ⟨hm, hid, hlater⟩
  · rcases h'.origin a' ha' with hstart' | ⟨-, -, hlater'⟩
    · rw [hstart] at hstart'
      rw [Option.some.inj hstart']
    · have hlt := hlater' a hstart
      omega
  · rcases h'.origin a' ha' with hstart' | ⟨hm', hid', -⟩
    · have hlt := hlater a' hstart'
      omega
    · exact hagreed a hm a' ((hmem a').mpr hm') hid hid' hlast (htime ▸ hlast)

omit h'

omit h

theorem processSpork_time (s : SporkState) (spork : CSporkMessage) {a : CSporkMessage}
    (ha : s.mapSporksActive nSporkID = some a) :
    ∃ a', (ProcessSpork ctx s spork).mapSporksActive nSporkID = some a' ∧
      a.nTimeSigned ≤ a'.nTimeSigned := by
  unfold ProcessSpork
  split
  · exact ⟨a, ha, le_rfl⟩
  · split
    · exact ⟨a, ha, le_rfl⟩
    · split
      · exact ⟨a, ha, le_rfl⟩
      · rename_i hnew
        split
        · by_cases hid : nSporkID = spork.nSporkID
          · subst hid
            refine ⟨spork, ?_, ?_⟩
            · exact Function.update_self ..
            · by_contra hlt
              exact hnew ⟨a, ha, by omega⟩
          · refine ⟨a, ?_, le_rfl⟩
            rw [← ha]
            exact Function.update_of_ne hid ..
        · exact ⟨a, ha, le_rfl⟩

theorem receive_time (s : SporkState) (before after : List CSporkMessage)
    (ha : (receive ctx s before).mapSporksActive nSporkID = some a) :
    ∃ a', (receive ctx s (before ++ after)).mapSporksActive nSporkID = some a' ∧
      a.nTimeSigned ≤ a'.nTimeSigned := by
  induction after using List.reverseRecOn with
  | nil => exact ⟨a, by rwa [List.append_nil], le_rfl⟩
  | append_singleton after spork ih =>
    obtain ⟨b, hb, hle⟩ := ih
    obtain ⟨a', ha', hle'⟩ := @processSpork_time ctx nSporkID _ spork b hb
    refine ⟨a', ?_, hle.trans hle'⟩
    rw [← List.append_assoc]
    unfold receive at ha' ⊢
    rw [List.foldl_append]
    exact ha'

/-- Setting a spork stores what was signed, whatever was active before: the stored time goes back
exactly when the clock is behind it. -/
theorem updateSpork_time {strMasterPrivKey : String} {nValue time : ℤ}
    (h : UpdateSpork ctx strMasterPrivKey s nSporkID nValue time = (true, t)) :
    t.timeSigned nSporkID = some time ∧ GetSporkValue t nSporkID = nValue := by
  unfold UpdateSpork at h
  dsimp only at h
  split at h
  · simp at h
  · cases h
    unfold SporkState.timeSigned GetSporkValue SporkState.store
    simp

/-- Two nodes that take spork messages, have the same active ones, and receive the same signed
messages in any order and number have for every spork active messages that were signed at the same
time. They have the same value of every spork for which the messages that were signed last agree. On
both nodes the time of the active message of a spork never goes back. -/
theorem sporks_converge (hs : s.Listens) (ht : t.Listens)
    (hsame : s.mapSporksActive = t.mapSporksActive)
    (hsigned : ∀ m ∈ msgs, CheckSignature ctx m = true) (hmem : ∀ m, m ∈ msgs ↔ m ∈ msgs') :
    (∀ id, (receive ctx s msgs).timeSigned id = (receive ctx t msgs').timeSigned id) ∧
      (∀ id, Agreed msgs id →
        GetSporkValue (receive ctx s msgs) id = GetSporkValue (receive ctx t msgs') id) ∧
      (∀ before after, msgs = before ++ after → ∀ id a,
        (receive ctx s before).mapSporksActive id = some a →
          ∃ a', (receive ctx s msgs).mapSporksActive id = some a' ∧ a.nTimeSigned ≤ a'.nTimeSigned) ∧
      (∀ before after, msgs' = before ++ after → ∀ id a,
        (receive ctx t before).mapSporksActive id = some a →
          ∃ a', (receive ctx t msgs').mapSporksActive id = some a' ∧
            a.nTimeSigned ≤ a'.nTimeSigned) := by
  have hnewest : ∀ id, Newest (s.mapSporksActive id) msgs id
      ((receive ctx s msgs).mapSporksActive id) := fun id => (receive_newest hs hsigned).2
  have hnewest' : ∀ id, Newest (s.mapSporksActive id) msgs' id
      ((receive ctx t msgs').mapSporksActive id) := by
    intro id
    rw [hsame]
    exact (receive_newest ht fun m hm => hsigned m ((hmem m).mpr hm)).2
  refine ⟨fun id => (hnewest id).time_eq (hnewest' id) hmem, fun id hagreed => ?_, ?_, ?_⟩
  · have htime := (hnewest id).time_eq (hnewest' id) hmem
    unfold GetSporkValue
    cases ha : (receive ctx s msgs).mapSporksActive id with
    | none =>
      cases ha' : (receive ctx t msgs').mapSporksActive id with
      | none => rfl
      | some a' => simp [ha, ha'] at htime
    | some a =>
      cases ha' : (receive ctx t msgs').mapSporksActive id with
      | none => simp [ha, ha'] at htime
      | some a' => exact (hnewest id).value_eq (hnewest' id) hmem hagreed ha ha'
  · rintro before after rfl id a ha
    exact receive_time s before after ha
  · rintro before after rfl id a ha
    exact receive_time t before after ha

end

/-! ## Two messages that are signed at the same time -/

def trustingContext : SporkContext where
  GetHash m := BitVec.ofInt 256 m.nValue
  VerifyMessage _ _ := true
  SignMessage _ _ := some []

def sporklessNode : SporkState := ⟨false, true, fun _ => none, fun _ => none⟩

/-- Such nodes agree on the spork whose messages are signed at different times. -/
theorem sporklessNode_converges :
    GetSporkValue (receive trustingContext sporklessNode
        [⟨[], 10001, 1, 5⟩, ⟨[], 10001, 2, 6⟩]) 10001
      = GetSporkValue (receive trustingContext sporklessNode
        [⟨[], 10001, 2, 6⟩, ⟨[], 10001, 1, 5⟩, ⟨[], 10001, 2, 6⟩]) 10001 :=
  (@sporks_converge trustingContext sporklessNode sporklessNode _ _ ⟨rfl, rfl⟩ ⟨rfl, rfl⟩ rfl
    (fun _ _ => rfl) (by simp)).2.1 10001 (by
      intro m hm m' hm' _ _ hlast hlast'
      simp at hm hm' hlast hlast'
      rcases hm with rfl | rfl <;> rcases hm' with rfl | rfl <;> simp at hlast hlast' ⊢)

/-- The order of two messages that are signed at the same time decides the value of the spork. -/
theorem sporks_depend_on_order :
    GetSporkValue (receive trustingContext sporklessNode
        [⟨[], 10001, 1, 5⟩, ⟨[], 10001, 2, 5⟩]) 10001
      ≠ GetSporkValue (receive trustingContext sporklessNode
        [⟨[], 10001, 2, 5⟩, ⟨[], 10001, 1, 5⟩]) 10001 := by
  decide

end ZalemCoin.Network
