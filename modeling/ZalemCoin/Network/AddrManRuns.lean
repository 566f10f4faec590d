import ZalemCoin.Network.AddrManMoves

/-!
# Runs of the address manager

A run is any list of calls of the address manager, each with the numbers that it draws and the
adjusted time. No assertion fails in a run, and every state is sound: the tables are consistent and
the buckets fit. The times of the entries are in order as long as the times that are passed in are.
-/

namespace ZalemCoin.Network

open Lib Storage
open CAddrInfo (GetTriedBucket GetNewBucket)

/-- The times of an entry: none is negative, and a tried entry has had a success. -/
def dated (r : CAddrRecord) (fInTried : Bool) : Prop :=
  0 ≤ r.nLastTry.toInt ∧ 0 ≤ r.nLastSuccess.toInt ∧ (fInTried = true → r.nLastSuccess ≠ 0)

inductive AddrCall where
  | Add (addr : CAddress) (source : CNetAddr) (nTimePenalty : Int64)
  | AddAll (vAddr : List CAddress) (source : CNetAddr) (nTimePenalty : Int64)
  | Good (addr : CService) (nTime : Int64)
  | Attempt (addr : CService) (nTime : Int64)
  | Connected (addr : CService) (nTime : Int64)
  | Select (fTried : Bool) (rounds : List CAddrMan.SelectRound)
  | GetAddr

/-- What a call is made with: the adjusted time, and the numbers that it draws. -/
structure AddrChance where
  nNow : Int64
  draws : ℕ → ℕ

/-- The times that a call passes in are positive, or not negative for an attempt. -/
def AddrCall.Timely : AddrCall → Prop
  | Good _ nTime => 0 < nTime.toInt
  | Attempt _ nTime => 0 ≤ nTime.toInt
  | _ => True

namespace CAddrMan

/-- Adds several addresses, each with five numbers of those that are drawn. -/
def AddAll_ (env : AddrEnv) (am : CAddrMan) (chance : AddrChance) (source : CNetAddr)
    (nTimePenalty : Int64) (vAddr : List CAddress) : Option CAddrMan :=
  vAddr.zipIdx.foldlM (fun am addr =>
    (am.Add_ env chance.nNow (fun i => chance.draws (5 * addr.2 + i)) addr.1 source
      nTimePenalty).map Prod.fst) am

def call (env : AddrEnv) (am : CAddrMan) (chance : AddrChance) : AddrCall → Option CAddrMan
  | .Add addr source nTimePenalty =>
    (am.Add_ env chance.nNow chance.draws addr source nTimePenalty).map Prod.fst
  | .AddAll vAddr source nTimePenalty => am.AddAll_ env chance source nTimePenalty vAddr
  | .Good addr nTime => am.Good_ env chance.draws addr nTime
  | .Attempt addr nTime => some (am.Attempt_ addr nTime)
  | .Connected addr nTime => some (am.Connected_ addr nTime)
  | .Select fTried rounds => (am.Select_ fTried rounds).map fun _ => am
  | .GetAddr => (am.GetAddr_ chance.draws).map Prod.fst

def run (env : AddrEnv) (am : CAddrMan) (calls : List (AddrCall × AddrChance)) :
    Option CAddrMan :=
  calls.foldlM (fun am c => am.call env c.2 c.1) am

/-- The tables are consistent and the buckets fit. -/
structure Sound (env : AddrEnv) (am : CAddrMan) : Prop where
  consistent : am.Consistent env none
  fits : am.Fits

/-- What a step keeps: the state is sound, the key is the same, and the times stay in order when the
step is given times that are. -/
structure Keeps (env : AddrEnv) (am : CAddrMan) (timely : Prop) (am' : CAddrMan) : Prop where
  sound : am'.Sound env
  nKey : am'.nKey = am.nKey
  dated : timely → am.tables.All dated → am'.tables.All dated

variable {env : AddrEnv} {am : CAddrMan} {nId : ℕ}

theorem Keeps.refl (h : am.Sound env) (timely : Prop) :
    Keeps env am timely am :=
  ⟨h, rfl, fun _ => id⟩

theorem Keeps.trans {am₁ am₂ : CAddrMan} {timely : Prop} (h₁ : Keeps env am timely am₁)
    (h₂ : Keeps env am₁ timely am₂) : Keeps env am timely am₂ :=
  ⟨h₂.sound, h₂.nKey.trans h₁.nKey, fun ht hd => h₂.dated ht (h₁.dated ht hd)⟩

theorem sound_init (env : AddrEnv) (nKey : List UInt8) : (init nKey).Sound env := by
  have hfind : ∀ nId, (init nKey).mapInfo.find nId = none := SortedMap.find_empty
  have hent : ∀ nId, (init nKey).tables.entry nId = none := by
    intro nId
    change ((init nKey).mapInfo.find nId).map CAddrInfo.tierEntry = none
    rw [hfind]
    rfl
  refine ⟨⟨⟨?_, ?_, ?_, ?_, ?_, ?_, rfl, rfl⟩, fun _ => List.nodup_nil, ?_, ?_⟩, ⟨?_, ?_⟩⟩
  · intro nId e he
    rw [hent] at he
    exact absurd he (by simp)
  · intro a nId
    constructor
    · intro hnone
      exact absurd hnone (by simp [tables, init])
    · rintro ⟨e, he, -⟩
      rw [hent] at he
      exact absurd he (by simp)
  · intro b nId
    constructor
    · intro hmem
      exact absurd hmem (by simp [tables, init])
    · rintro ⟨e, he, -⟩
      rw [hent] at he
      exact absurd he (by simp)
  · intro b nId hmem
    exact absurd hmem (by simp [tables, init])
  · intro nId e he
    rw [hent] at he
    exact absurd he (by simp)
  · intro nId e he
    rw [hent] at he
    exact absurd he (by simp)
  · apply Indexed.nil.congr
    intro nId
    unfold position
    rw [hfind]
    rfl
  · intro nId info hinfo
    rw [hfind] at hinfo
    exact absurd hinfo (by simp)
  · intro b
    exact Nat.zero_le _
  · intro b
    exact Nat.zero_le _

theorem find_eq_some {addr : CNetAddr} {nId : ℕ} {info : CAddrInfo}
    (h : am.Find addr = some (nId, info)) : am.mapInfo.find nId = some info := by
  obtain ⟨nFound, -, hrest⟩ := Option.bind_eq_some_iff.mp h
  obtain ⟨infoFound, hfind, heq⟩ := Option.bind_eq_some_iff.mp hrest
  cases heq
  exact hfind

theorem mapAddr_eq_none (h : am.Sound env) {addr : CNetAddr} (hfind : am.Find addr = none) :
    am.mapAddr addr = none := by
  cases hidx : am.mapAddr addr with
  | none => rfl
  | some nId =>
    obtain ⟨e, he, -⟩ := (h.consistent.valid.index_iff addr nId).mp hidx
    obtain ⟨info, hinfo, -⟩ := exists_info he
    unfold Find at hfind
    rw [hidx] at hfind
    change (am.mapInfo.find nId).bind _ = none at hfind
    rw [hinfo] at hfind
    exact absurd hfind (by simp)

theorem keeps_modifyInfo (h : am.Sound env) {nId : ℕ} {f : CAddrInfo → CAddrInfo}
    {g : CAddrRecord → CAddrRecord}
    (hf : ∀ info, (f info).tierEntry = { info.tierEntry with item := g info.toCAddrRecord })
    (hpos : ∀ info, (f info).nRandomPos = info.nRandomPos)
    (hg : ∀ r, (g r).toCService = r.toCService) {timely : Prop}
    (hdated : timely → ∀ info, am.mapInfo.find nId = some info →
      dated info.toCAddrRecord info.fInTried → dated (g info.toCAddrRecord) info.fInTried) :
    Keeps env am timely (am.modifyInfo nId f) := by
  have htables : (am.modifyInfo nId f).tables = am.tables.mapItem nId g := tables_modifyInfo hf
  refine ⟨⟨⟨?_, h.consistent.nodup, h.consistent.ordered.modifyInfo hpos⟩,
    ⟨h.fits.tried, h.fits.new⟩⟩, rfl, ?_⟩
  · rw [htables]
    apply h.consistent.valid.mapItem
    · intro r
      exact congrArg CService.toCNetAddr (hg r)
    · intro r
      exact congrArg (GetTriedBucket env am.nKey) (hg r)
  · intro ht hd
    rw [htables]
    apply hd.mapItem
    intro e he
    obtain ⟨info, hinfo, rfl⟩ := exists_info he
    exact hdated ht info hinfo (hd nId _ he)

theorem keeps_attempt (h : am.Sound env) (addr : CService) (nTime : Int64) :
    Keeps env am (0 ≤ nTime.toInt) (am.Attempt_ addr nTime) := by
  unfold Attempt_
  split
  · exact Keeps.refl h _
  · split
    · exact Keeps.refl h _
    · apply @keeps_modifyInfo env am h _ _
        (fun r => { r with nLastTry := nTime, nAttempts := r.nAttempts + 1 })
      · intro info
        rfl
      · intro info
        rfl
      · intro r
        rfl
      · intro ht info _ hd
        exact ⟨ht, hd.2⟩

theorem keeps_connected (h : am.Sound env) (addr : CService) (nTime : Int64) :
    Keeps env am True (am.Connected_ addr nTime) := by
  unfold Connected_
  split
  · exact Keeps.refl h _
  · split
    · exact Keeps.refl h _
    · split
      · apply @keeps_modifyInfo env am h _ _
          (fun r => { r with nTime := UInt32.ofInt nTime.toInt })
        · intro info
          rfl
        · intro info
          rfl
        · intro r
          rfl
        · intro _ info _ hd
          exact hd
      · exact Keeps.refl h _

theorem mem_of_findBucket {nRnd : ℕ} {b : NewBucket} (h : am.findBucket nId nRnd = some b) :
    nId ∈ am.vvNew b := by
  exact of_decide_eq_true
    (@List.find?_some _ (fun nB => decide (nId ∈ am.vvNew nB)) b _ h)

/-- `Good_` never fails and keeps the tables sound. -/
theorem keeps_good (h : am.Sound env) (draws : ℕ → ℕ) (addr : CService) (nTime : Int64) :
    ∃ am', am.Good_ env draws addr nTime = some am' ∧ Keeps env am (0 < nTime.toInt) am' := by
  unfold Good_
  split
  · exact ⟨am, rfl, Keeps.refl h _⟩
  · rename_i nId info hFind
    have hinfo := find_eq_some hFind
    split
    · exact ⟨am, rfl, Keeps.refl h _⟩
    · obtain ⟨g, hg⟩ : ∃ g : CAddrRecord → CAddrRecord, g = fun r =>
          { r with
            nLastSuccess := nTime, nLastTry := nTime, nTime := UInt32.ofInt nTime.toInt,
            nAttempts := 0 } := ⟨_, rfl⟩
      obtain ⟨am₁, ham₁⟩ : ∃ am₁, (am.modifyInfo nId fun info =>
          { info with
            nLastSuccess := nTime, nLastTry := nTime, nTime := UInt32.ofInt nTime.toInt,
            nAttempts := 0 }) = am₁ := ⟨_, rfl⟩
      have hgood : 0 < nTime.toInt → ∀ (r : CAddrRecord) (tier : Bool), dated (g r) tier := by
        intro ht r tier
        have hne : nTime ≠ 0 := by
          rintro rfl
          exact absurd ht (by decide)
        rw [hg]
        exact ⟨le_of_lt ht, le_of_lt ht, fun _ => hne⟩
      have hkeeps : Keeps env am (0 < nTime.toInt) am₁ := by
        rw [← ham₁]
        apply @keeps_modifyInfo env am h nId _ g
        · intro info
          rw [hg]
          rfl
        · intro info
          rfl
        · intro r
          rw [hg]
        · intro ht info _ _
          exact hgood ht _ _
      have hinfo₁ : am₁.mapInfo.find nId = some
          { info with
            nLastSuccess := nTime, nLastTry := nTime, nTime := UInt32.ofInt nTime.toInt,
            nAttempts := 0 } := by
        rw [← ham₁, find_modifyInfo, if_pos rfl, hinfo]
        rfl
      dsimp only
      rw [ham₁]
      split
      · exact ⟨am₁, rfl, hkeeps⟩
      · split
        · exact ⟨am₁, rfl, hkeeps⟩
        · rename_i nUBucket hbucket
          obtain ⟨am₂, hmake, hmoved⟩ := makeTried_spec hkeeps.sound.consistent hkeeps.sound.fits
            hinfo₁ (mem_of_findBucket hbucket) fun i => draws (i + 1)
          refine ⟨am₂, hmake, ⟨hmoved.consistent, hmoved.fits⟩, hmoved.nKey.trans hkeeps.nKey, ?_⟩
          intro ht hd
          apply hmoved.all dated (hkeeps.dated ht hd)
          · have := hgood ht info.toCAddrRecord true
            rw [hg] at this
            exact this
          · intro r hr
            exact ⟨hr.1, hr.2.1, by simp⟩

theorem Consistent.owe (h : am.Consistent env none) {info : CAddrInfo}
    (hinfo : am.mapInfo.find nId = some info) (hnew : info.fInTried = false)
    (hrefs : info.nRefCount < ADDRMAN_NEW_BUCKETS_PER_ADDRESS) :
    (am.modifyInfo nId fun info =>
      { info with nRefCount := info.nRefCount + 1 }).Consistent env (some nId) := by
  have htables : (am.modifyInfo nId fun info =>
      { info with nRefCount := info.nRefCount + 1 }).tables = am.tables.owe nId :=
    tables_modifyInfo fun _ => rfl
  refine ⟨?_, h.nodup, h.ordered.modifyInfo fun _ => rfl⟩
  rw [htables]
  exact h.valid.owe (entry_eq_some hinfo) hnew hrefs

theorem keeps_addToNew (h : am.Sound env) {info : CAddrInfo}
    (hinfo : am.mapInfo.find nId = some info) (hnew : info.fInTried = false)
    (hrefs : info.nRefCount < ADDRMAN_NEW_BUCKETS_PER_ADDRESS) (nNow : Int64) (draws : ℕ → ℕ)
    (addr source : CNetAddr) (timely : Prop) :
    ∃ am', am.addToNew env nNow draws nId addr source = some am' ∧ Keeps env am timely am' := by
  by_cases hin : nId ∈ am.vvNew (GetNewBucket env am.nKey addr source)
  · refine ⟨am, ?_, Keeps.refl h _⟩
    exact if_pos hin
  · obtain ⟨am', hadd, hcons, hfits, hnKey, hall⟩ := addToNew_spec hinfo hnew
      (h.consistent.owe hinfo hnew hrefs) h.fits nNow draws hin
    exact ⟨am', hadd, ⟨hcons, hfits⟩, hnKey, fun _ => hall dated⟩

/-- The state in which a new address has its entry, before it is put into a bucket. -/
def created (am : CAddrMan) (addr : CAddress) (source : CNetAddr) (nTimePenalty : Int64) :
    CAddrMan :=
  { (am.Create addr source).modifyInfo am.nIdCount fun info =>
      { info with nTime := UInt32.ofInt (max 0 (info.nTime.toNat - nTimePenalty.toInt)) } with
    nNew := am.nNew + 1 }

def newEntry (am : CAddrMan) (addr : CAddress) (source : CNetAddr) (nTimePenalty : Int64) :
    CAddrInfo :=
  { CAddrInfo.init addr source with
    nRandomPos := am.vRandom.length
    nTime := UInt32.ofInt (max 0 (addr.nTime.toNat - nTimePenalty.toInt)) }

theorem find_created (am : CAddrMan) (addr : CAddress) (source : CNetAddr) (nTimePenalty : Int64)
    (k : ℕ) :
    (am.created addr source nTimePenalty).mapInfo.find k
      = if k = am.nIdCount then some (am.newEntry addr source nTimePenalty)
        else am.mapInfo.find k := by
  change ((am.Create addr source).modifyInfo am.nIdCount _).mapInfo.find k = _
  rw [find_modifyInfo]
  change (if k = am.nIdCount then ((am.mapInfo.insert am.nIdCount _).find am.nIdCount).map _
    else (am.mapInfo.insert am.nIdCount _).find k) = _
  rw [SortedMap.find_insert_self]
  split
  · rfl
  · rename_i hne
    exact SortedMap.find_insert_of_ne hne

/-- A created entry is owed its first bucket; all else is consistent. -/
theorem consistent_created (h : am.Sound env) {addr : CAddress}
    (hidx : am.mapAddr addr.toCNetAddr = none) (source : CNetAddr) (nTimePenalty : Int64) :
    ((am.created addr source nTimePenalty).modifyInfo am.nIdCount fun info =>
      { info with nRefCount := info.nRefCount + 1 }).Consistent env (some am.nIdCount) := by
  obtain ⟨info, hinfo⟩ : ∃ info, am.newEntry addr source nTimePenalty = info := ⟨_, rfl⟩
  have hnext := h.consistent.valid.entry_next
  have hnone : am.mapInfo.find am.nIdCount = none := Option.map_eq_none_iff.mp hnext
  have hposition : am.position am.nIdCount = none := by
    unfold position
    rw [hnone]
    rfl
  have htables : ((am.created addr source nTimePenalty).modifyInfo am.nIdCount fun info =>
      { info with nRefCount := info.nRefCount + 1 }).tables
      = am.tables.enter (addrRules env am.nKey) info.toCAddrRecord := by
    rw [@tables_modifyInfo _ am.nIdCount (fun info =>
      { info with nRefCount := info.nRefCount + 1 }) (fun e => { e with refs := e.refs + 1 })
      fun _ => rfl]
    have hent : (am.created addr source nTimePenalty).tables.entry
        = Function.update am.tables.entry am.nIdCount (some info.tierEntry) := by
      funext k
      change ((am.created addr source nTimePenalty).mapInfo.find k).map CAddrInfo.tierEntry = _
      rw [find_created, Function.update_apply, hinfo]
      split
      · rfl
      · rfl
    apply TierTable.ext
    · rw [hent, Function.update_self]
      rw [Function.update_idem, ← hinfo]
      rfl
    · rw [← hinfo]
      rfl
    · rfl
    · rfl
    · rfl
    · rfl
    · rfl
  have hcre : (am.created addr source nTimePenalty).Ordered := by
    constructor
    · apply (h.consistent.ordered.indexed.push hposition).congr
      intro k
      unfold position
      rw [find_created, Function.update_apply]
      split
      · rfl
      · rfl
    · intro k info' hk
      rw [find_created] at hk
      split at hk
      · rw [← Option.some.inj hk]
        exact Int.natCast_nonneg _
      · exact h.consistent.ordered.placed k info' hk
  refine ⟨?_, h.consistent.nodup, hcre.modifyInfo fun _ => rfl⟩
  rw [htables]
  apply h.consistent.valid.enter
  · rw [← hinfo]
    exact hidx
  · exact show (1 : ℤ) ≤ 4 by decide

/-- `Add_` never fails and keeps the tables sound. -/
theorem keeps_add (h : am.Sound env) (nNow : Int64) (draws : ℕ → ℕ) (addr : CAddress)
    (source : CNetAddr) (nTimePenalty : Int64) :
    ∃ am' fNew, am.Add_ env nNow draws addr source nTimePenalty = some (am', fNew)
      ∧ Keeps env am True am' := by
  unfold Add_
  split
  · exact ⟨am, false, rfl, Keeps.refl h _⟩
  · split
    · exact ⟨am, false, rfl, Keeps.refl h _⟩
    · split
      · rename_i nId info hFind
        have hinfo := find_eq_some hFind
        obtain ⟨nTime, hnTime⟩ : ∃ nTime,
            updatedTime nNow info.nTime addr.nTime nTimePenalty = nTime := ⟨_, rfl⟩
        obtain ⟨am₁, ham₁⟩ : ∃ am₁, (am.modifyInfo nId fun info =>
            { info with nTime := nTime, nServices := info.nServices ||| addr.nServices }) = am₁ :=
          ⟨_, rfl⟩
        have hkeeps : Keeps env am True am₁ := by
          rw [← ham₁]
          apply @keeps_modifyInfo env am h nId _
            (fun r => { r with nTime := nTime, nServices := r.nServices ||| addr.nServices })
          · intro info
            rfl
          · intro info
            rfl
          · intro r
            rfl
          · intro _ info _ hd
            exact hd
        have hinfo₁ : am₁.mapInfo.find nId = some
            { info with nTime := nTime, nServices := info.nServices ||| addr.nServices } := by
          rw [← ham₁, find_modifyInfo, if_pos rfl, hinfo]
          rfl
        dsimp only
        rw [hnTime, ham₁]
        split
        · exact ⟨am₁, false, rfl, hkeeps⟩
        · split
          · exact ⟨am₁, false, rfl, hkeeps⟩
          · rename_i hnew
            split
            · exact ⟨am₁, false, rfl, hkeeps⟩
            · rename_i hlim
              split
              · exact ⟨am₁, false, rfl, hkeeps⟩
              · have hnewFalse : info.fInTried = false := Bool.eq_false_iff.mpr hnew
                obtain ⟨-, hle⟩ := h.consistent.valid.refs_pos nId _ (entry_eq_some hinfo)
                  hnewFalse
                have hlt : info.nRefCount < ADDRMAN_NEW_BUCKETS_PER_ADDRESS :=
                  lt_of_le_of_ne hle hlim
                obtain ⟨am₂, hadd, hkeeps₂⟩ := keeps_addToNew hkeeps.sound hinfo₁ hnewFalse hlt
                  nNow (fun i => draws (i + 1)) info.toCNetAddr source True
                refine ⟨am₂, false, ?_, hkeeps.trans hkeeps₂⟩
                rw [hadd]
                rfl
      · rename_i hFind
        have hidx := mapAddr_eq_none h hFind
        have hfind : (am.created addr source nTimePenalty).mapInfo.find am.nIdCount
            = some (am.newEntry addr source nTimePenalty) := by
          rw [find_created, if_pos rfl]
        have hnot : am.nIdCount ∉ (am.created addr source nTimePenalty).vvNew
            (GetNewBucket env (am.created addr source nTimePenalty).nKey addr.toCNetAddr source) :=
          h.consistent.valid.notMem_pending h.consistent.valid.entry_next _
        obtain ⟨am', hadd, hcons, hfits, hnKey, hall⟩ := addToNew_spec hfind rfl
          (consistent_created h hidx source nTimePenalty) ⟨h.fits.tried, h.fits.new⟩ nNow
          (fun i => draws (i + 1)) hnot
        refine ⟨am', true, ?_, ⟨hcons, hfits⟩, hnKey, ?_⟩
        · change ((am.created addr source nTimePenalty).addToNew env nNow _ am.nIdCount
            addr.toCNetAddr source).bind _ = _
          rw [hadd]
          rfl
        · intro _ hd
          apply hall
          intro k e he
          obtain ⟨info, hinfo, rfl⟩ := exists_info he
          rw [find_created] at hinfo
          split at hinfo
          · rw [← Option.some.inj hinfo]
            exact ⟨le_refl _, le_refl _, by simp [CAddrInfo.tierEntry, newEntry, CAddrInfo.init]⟩
          · exact hd k _ (entry_eq_some hinfo)

theorem keeps_addAll (h : am.Sound env) (chance : AddrChance) (source : CNetAddr)
    (nTimePenalty : Int64) (vAddr : List CAddress) :
    ∃ am', am.AddAll_ env chance source nTimePenalty vAddr = some am'
      ∧ Keeps env am True am' := by
  unfold AddAll_
  generalize vAddr.zipIdx = addrs
  induction addrs generalizing am with
  | nil => exact ⟨am, rfl, Keeps.refl h _⟩
  | cons addr addrs ih =>
    obtain ⟨am₁, fNew, hadd, hkeeps⟩ := keeps_add h chance.nNow
      (fun i => chance.draws (5 * addr.2 + i)) addr.1 source nTimePenalty
    obtain ⟨am₂, hrest, hkeeps₂⟩ := ih hkeeps.sound
    refine ⟨am₂, ?_, hkeeps.trans hkeeps₂⟩
    rw [List.foldlM_cons, hadd]
    exact hrest

theorem keeps_getAddrStep {st : CAddrMan × List CAddress} (h : st.1.Sound env) (draws : ℕ → ℕ)
    {n : ℕ} (hn : n < st.1.vRandom.length) :
    ∃ st', getAddrStep draws st n = some st' ∧ Keeps env st.1 True st'.1
      ∧ st'.1.vRandom.length = st.1.vRandom.length := by
  have hdraw := getRandInt_lt (draws n) (show 0 < st.1.vRandom.length - n by omega)
  obtain ⟨am₁, hswap, hbecomes, hlen, -⟩ := swapRandom_spec h.consistent.ordered hn
    (show GetRandInt (draws n) (st.1.vRandom.length - n) + n < st.1.vRandom.length by omega)
  obtain ⟨nId, hnId⟩ : ∃ nId, am₁.vRandom[n]? = some nId :=
    ⟨_, List.getElem?_eq_getElem (by rw [hlen]; exact hn)⟩
  obtain ⟨info, hinfo, -⟩ := hbecomes.ordered.exists_info hnId
  have hpend : am₁.vvNew = st.1.vvNew := congrArg TierTable.pending hbecomes.tables
  refine ⟨(am₁, st.2 ++ [info.toCAddress]), ?_, ⟨⟨?_, ?_⟩, hbecomes.nKey, ?_⟩, hlen⟩
  · unfold getAddrStep
    dsimp only [Option.bind_eq_bind]
    rw [hswap, Option.bind_some, hnId, Option.bind_some, hinfo]
    rfl
  · exact hbecomes.consistent h.consistent.nodup h.consistent.valid
  · constructor
    · rw [hbecomes.vvTried]
      exact h.fits.tried
    · rw [hpend]
      exact h.fits.new
  · intro _ hd
    rw [hbecomes.tables]
    exact hd

theorem keeps_getAddr (h : am.Sound env) (draws : ℕ → ℕ) :
    ∃ r, am.GetAddr_ draws = some r ∧ Keeps env am True r.1 := by
  -- The rounds over any positions of the vector.
  have hrnds : ∀ rounds : List ℕ, ∀ st : CAddrMan × List CAddress, st.1.Sound env →
      (∀ n ∈ rounds, n < st.1.vRandom.length) →
      ∃ st', rounds.foldlM (getAddrStep draws) st = some st' ∧ Keeps env st.1 True st'.1 := by
    intro rounds
    induction rounds with
    | nil => exact fun st hst _ => ⟨st, rfl, Keeps.refl hst _⟩
    | cons n rounds ih =>
      intro st hst hlt
      obtain ⟨st₁, hst₁, hkeeps, hlen⟩ := keeps_getAddrStep hst draws (hlt n List.mem_cons_self)
      obtain ⟨st₂, hst₂, hkeeps₂⟩ := ih st₁ hkeeps.sound fun k hk => by
        rw [hlen]
        exact hlt k (List.mem_cons_of_mem n hk)
      refine ⟨st₂, ?_, hkeeps.trans hkeeps₂⟩
      rw [List.foldlM_cons, hst₁]
      exact hst₂
  apply hrnds _ (am, []) h
  intro n hn
  have hlt := List.mem_range.mp hn
  have hpct : ADDRMAN_GETADDR_MAX_PCT * am.vRandom.length / 100 ≤ am.vRandom.length := by
    change 23 * am.vRandom.length / 100 ≤ _
    omega
  dsimp only at hlt ⊢
  omega

theorem selectLoop_spec {n : ℕ} [NeZero n] {table : Fin n → List ℕ}
    (hknown : ∀ b, ∀ nId ∈ table b, ∃ info, am.mapInfo.find nId = some info)
    (rounds : List SelectRound) : ∃ r, am.selectLoop table rounds = some r := by
  induction rounds with
  | nil => exact ⟨none, rfl⟩
  | cons r rounds ih =>
    unfold selectLoop
    dsimp only
    split
    · exact ih
    · rename_i hne
      have hlt := getRandInt_lt r.posDraw (Nat.pos_of_ne_zero hne)
      obtain ⟨info, hinfo⟩ := hknown _ _ (List.getElem_mem hlt)
      dsimp only [Option.bind_eq_bind]
      rw [List.getElem?_eq_getElem hlt, Option.bind_some, hinfo, Option.bind_some]
      split
      · exact ⟨_, rfl⟩
      · exact ih

theorem select_spec (h : am.Sound env) (fTried : Bool) (rounds : List SelectRound) :
    ∃ r, am.Select_ fTried rounds = some r := by
  unfold Select_
  split
  · exact ⟨_, rfl⟩
  · split
    · apply selectLoop_spec
      intro b nId hmem
      obtain ⟨e, he, -⟩ := (h.consistent.valid.mem_settled b nId).mp (List.mem_toFinset.mpr hmem)
      obtain ⟨info, hinfo, -⟩ := exists_info he
      exact ⟨info, hinfo⟩
    · apply selectLoop_spec
      intro b nId hmem
      obtain ⟨e, he, -⟩ := h.consistent.valid.of_mem_pending b nId ((Finset.mem_sort _).mp hmem)
      obtain ⟨info, hinfo, -⟩ := exists_info he
      exact ⟨info, hinfo⟩

theorem keeps_call (h : am.Sound env) (chance : AddrChance) (c : AddrCall) :
    ∃ am', am.call env chance c = some am' ∧ Keeps env am c.Timely am' := by
  cases c with
  | Add addr source nTimePenalty =>
    obtain ⟨am', fNew, hadd, hkeeps⟩ := keeps_add h chance.nNow chance.draws addr source nTimePenalty
    refine ⟨am', ?_, hkeeps⟩
    change (am.Add_ env chance.nNow chance.draws addr source nTimePenalty).map Prod.fst = _
    rw [hadd]
    rfl
  | AddAll vAddr source nTimePenalty => exact keeps_addAll h chance source nTimePenalty vAddr
  | Good addr nTime => exact keeps_good h chance.draws addr nTime
  | Attempt addr nTime => exact ⟨_, rfl, keeps_attempt h addr nTime⟩
  | Connected addr nTime => exact ⟨_, rfl, keeps_connected h addr nTime⟩
  | Select fTried rounds =>
    obtain ⟨r, hsel⟩ := select_spec h fTried rounds
    refine ⟨am, ?_, Keeps.refl h _⟩
    change (am.Select_ fTried rounds).map (fun _ => am) = _
    rw [hsel]
    rfl
  | GetAddr =>
    obtain ⟨r, hget, hkeeps⟩ := keeps_getAddr h chance.draws
    refine ⟨r.1, ?_, hkeeps⟩
    change (am.GetAddr_ chance.draws).map Prod.fst = _
    rw [hget]
    rfl

theorem keeps_run (h : am.Sound env) (calls : List (AddrCall × AddrChance)) :
    ∃ am', am.run env calls = some am' ∧ Keeps env am (∀ c ∈ calls, c.1.Timely) am' := by
  unfold run
  induction calls generalizing am with
  | nil => exact ⟨am, rfl, Keeps.refl h _⟩
  | cons c calls ih =>
    obtain ⟨am₁, hcall, hkeeps⟩ := keeps_call h c.2 c.1
    obtain ⟨am₂, hrest, hkeeps₂⟩ := ih hkeeps.sound
    refine ⟨am₂, ?_, hkeeps₂.sound, hkeeps₂.nKey.trans hkeeps.nKey, ?_⟩
    · rw [List.foldlM_cons, hcall]
      exact hrest
    · intro ht hd
      apply hkeeps₂.dated fun c' hc' => ht c' (List.mem_cons_of_mem c hc')
      exact hkeeps.dated (ht c List.mem_cons_self) hd

end CAddrMan

end ZalemCoin.Network
