import ZalemCoin.Lib.Positions
import ZalemCoin.Lib.TierTable
import ZalemCoin.Network.AddrMan

/-!
# The tables of the address manager

The "tried" and "new" buckets of an address manager with its index are a table with two tiers, and
its random order is a list with the positions of its members. Each function is shown to be steps of
these two: what `SwapRandom` does is seen in the order only, `ShrinkNew` takes one place from one
entry, `MakeTried` settles an entry and may send another one back.
-/

namespace ZalemCoin.Network

open Lib Storage
open Function (update)
open Option (some.inj bind_eq_bind bind_some)

def CAddrInfo.tierEntry (info : CAddrInfo) : TierEntry CAddrRecord :=
  ⟨info.toCAddrRecord, info.fInTried, info.nRefCount⟩

def addrRules (env : AddrEnv) (nKey : List UInt8) : TierRules CNetAddr CAddrRecord TriedBucket where
  key := fun r => r.toCNetAddr
  home := fun r => CAddrInfo.GetTriedBucket env nKey r.toCService
  limit := ADDRMAN_NEW_BUCKETS_PER_ADDRESS

theorem getRandInt_lt (draw : ℕ) {nMax : ℕ} (h : 0 < nMax) : GetRandInt draw nMax < nMax := by
  unfold GetRandInt
  rw [if_neg (by omega)]
  exact Nat.mod_lt draw h

namespace CAddrMan

variable (am : CAddrMan)

/-- The buckets and the index, without the random order. -/
def tables : TierTable CNetAddr CAddrRecord TriedBucket NewBucket where
  entry := fun nId => (am.mapInfo.find nId).map CAddrInfo.tierEntry
  index := am.mapAddr
  next := am.nIdCount
  nSettled := am.nTried
  nPending := am.nNew
  settled := fun b => (am.vvTried b).toFinset
  pending := am.vvNew

def position (nId : ℕ) : Option ℕ :=
  (am.mapInfo.find nId).map fun info => info.nRandomPos.toNat

/-- `vRandom` is an order of the entries, and each entry gives its position in it. -/
structure Ordered : Prop where
  indexed : Indexed am.vRandom am.position
  placed : ∀ nId info, am.mapInfo.find nId = some info → 0 ≤ info.nRandomPos

/-- The tables and the random order are those of the entries, but for one place in the "new" table
that an entry is owed. -/
structure Consistent (env : AddrEnv) (owed : Option ℕ) (am : CAddrMan) : Prop where
  valid : am.tables.Valid (addrRules env am.nKey) owed
  nodup : ∀ b, (am.vvTried b).Nodup
  ordered : am.Ordered

/-- No bucket exceeds its size. -/
structure Fits : Prop where
  tried : ∀ b, (am.vvTried b).length ≤ ADDRMAN_TRIED_BUCKET_SIZE
  new : ∀ b, (am.vvNew b).card ≤ ADDRMAN_NEW_BUCKET_SIZE

structure Becomes (t : TierTable CNetAddr CAddrRecord TriedBucket NewBucket)
    (am' : CAddrMan) : Prop where
  tables : am'.tables = t
  ordered : am'.Ordered
  vvTried : am'.vvTried = am.vvTried
  nKey : am'.nKey = am.nKey

variable {info : CAddrInfo} {env : AddrEnv} {owed : Option ℕ} {b : NewBucket} {nId : ℕ}

theorem entry_eq_some {am : CAddrMan} (h : am.mapInfo.find nId = some info) :
    am.tables.entry nId = some info.tierEntry := by
  change (am.mapInfo.find nId).map CAddrInfo.tierEntry = _
  rw [h]
  rfl

theorem exists_info {am : CAddrMan} {e : TierEntry CAddrRecord} (h : am.tables.entry nId = some e) :
    ∃ info, am.mapInfo.find nId = some info ∧ info.tierEntry = e :=
  Option.map_eq_some_iff.mp h

theorem Becomes.consistent {am am' : CAddrMan}
    {t : TierTable CNetAddr CAddrRecord TriedBucket NewBucket} (h : am.Becomes t am')
    (hnd : ∀ b, (am.vvTried b).Nodup) (hvalid : t.Valid (addrRules env am.nKey) owed) :
    am'.Consistent env owed := by
  refine ⟨?_, ?_, h.ordered⟩
  · rw [h.tables, h.nKey]
    exact hvalid
  · rw [h.vvTried]
    exact hnd

theorem Ordered.congr {am am' : CAddrMan} (h : am.Ordered) (hrandom : am'.vRandom = am.vRandom)
    (hinfo : am'.mapInfo = am.mapInfo) : am'.Ordered := by
  obtain ⟨hindexed, hplaced⟩ := h
  refine ⟨?_, ?_⟩
  · unfold position at hindexed ⊢
    rw [hrandom, hinfo]
    exact hindexed
  · rw [hinfo]
    exact hplaced

section

variable {am : CAddrMan} {nId : ℕ} {f : CAddrInfo → CAddrInfo}

theorem find_modifyInfo (am : CAddrMan) (nId k : ℕ) (f : CAddrInfo → CAddrInfo) :
    (am.modifyInfo nId f).mapInfo.find k
      = if k = nId then (am.mapInfo.find nId).map f else am.mapInfo.find k :=
  SortedMap.find_modify am.mapInfo nId k f

theorem tables_modifyInfo {g : TierEntry CAddrRecord → TierEntry CAddrRecord}
    (hf : ∀ info, (f info).tierEntry = g info.tierEntry) :
    (am.modifyInfo nId f).tables
      = { am.tables with
          entry := update am.tables.entry nId ((am.tables.entry nId).map g) } := by
  have hent : (am.modifyInfo nId f).tables.entry
      = update am.tables.entry nId ((am.tables.entry nId).map g) := by
    funext k
    change ((am.modifyInfo nId f).mapInfo.find k).map CAddrInfo.tierEntry = _
    rw [find_modifyInfo, Function.update_apply]
    split
    · change _ = ((am.mapInfo.find nId).map CAddrInfo.tierEntry).map g
      cases am.mapInfo.find nId with
      | none => rfl
      | some info => exact congrArg some (hf info)
    · rfl
  rw [← hent]
  rfl

theorem tables_modifyInfo_same (hf : ∀ info, (f info).tierEntry = info.tierEntry) :
    (am.modifyInfo nId f).tables = am.tables := by
  have hsame : update am.tables.entry nId ((am.tables.entry nId).map fun e => e)
      = am.tables.entry := by
    rw [Option.map_id', Function.update_eq_self]
  have htables := @tables_modifyInfo am nId f (fun e => e) hf
  rw [hsame] at htables
  exact htables

theorem Ordered.modifyInfo (h : am.Ordered)
    (hf : ∀ info, (f info).nRandomPos = info.nRandomPos) : (am.modifyInfo nId f).Ordered := by
  have hfind : ∀ k info, (am.modifyInfo nId f).mapInfo.find k = some info →
      ∃ info', am.mapInfo.find k = some info' ∧ info.nRandomPos = info'.nRandomPos := by
    intro k info hk
    rw [find_modifyInfo] at hk
    split at hk
    · rename_i heq
      subst heq
      obtain ⟨info', hinfo', rfl⟩ := Option.map_eq_some_iff.mp hk
      exact ⟨info', hinfo', hf info'⟩
    · exact ⟨info, hk, rfl⟩
  constructor
  · apply h.indexed.congr
    intro k
    unfold position
    rw [find_modifyInfo]
    split
    · rename_i heq
      subst heq
      cases am.mapInfo.find k with
      | none => rfl
      | some info => exact congrArg (fun p : ℤ => some p.toNat) (hf info)
    · rfl
  · intro k info hk
    obtain ⟨info', hinfo', heq⟩ := hfind k info hk
    rw [heq]
    exact h.placed k info' hinfo'

end

theorem Ordered.exists_info {am : CAddrMan} (h : am.Ordered) {i : ℕ}
    (hi : am.vRandom[i]? = some nId) :
    ∃ info, am.mapInfo.find nId = some info ∧ info.nRandomPos = i := by
  obtain ⟨info, hinfo, hpos⟩ := Option.map_eq_some_iff.mp ((h.indexed i nId).mp hi)
  refine ⟨info, hinfo, ?_⟩
  have := h.placed nId info hinfo
  omega

theorem swapRandom_spec {am : CAddrMan} (h : am.Ordered) {i j : ℕ} (hi : i < am.vRandom.length)
    (hj : j < am.vRandom.length) :
    ∃ am', am.SwapRandom i j = some am' ∧ am.Becomes am.tables am'
      ∧ am'.vRandom.length = am.vRandom.length ∧ am'.vRandom[j]? = am.vRandom[i]? := by
  by_cases hij : i = j
  · subst hij
    refine ⟨am, ?_, ⟨rfl, h, rfl, rfl⟩, rfl, rfl⟩
    unfold SwapRandom
    rw [if_pos rfl]
  · obtain ⟨nId1, h1⟩ : ∃ nId1, am.vRandom[i]? = some nId1 := ⟨_, List.getElem?_eq_getElem hi⟩
    obtain ⟨nId2, h2⟩ : ∃ nId2, am.vRandom[j]? = some nId2 := ⟨_, List.getElem?_eq_getElem hj⟩
    obtain ⟨info1, hinfo1, hpos1⟩ := h.exists_info h1
    obtain ⟨info2, hinfo2, hpos2⟩ := h.exists_info h2
    have hne : nId1 ≠ nId2 := by
      rintro rfl
      rw [hinfo1] at hinfo2
      have := some.inj hinfo2
      rw [this, hpos2] at hpos1
      omega
    -- The entries after both writes.
    have hfind : ∀ k, (((am.modifyInfo nId1 fun info => { info with nRandomPos := j }).modifyInfo
        nId2 fun info => { info with nRandomPos := i }).mapInfo.find k)
        = if k = nId2 then some { info2 with nRandomPos := i }
          else if k = nId1 then some { info1 with nRandomPos := j } else am.mapInfo.find k := by
      intro k
      rw [find_modifyInfo, find_modifyInfo, find_modifyInfo, if_neg (Ne.symm hne), hinfo1, hinfo2]
      rfl
    refine ⟨{ ((am.modifyInfo nId1 fun info => { info with nRandomPos := j }).modifyInfo
        nId2 fun info => { info with nRandomPos := i }) with
        vRandom := (am.vRandom.set i nId2).set j nId1 }, ?_, ⟨?_, ⟨?_, ?_⟩, rfl, rfl⟩, ?_, ?_⟩
    · unfold SwapRandom
      rw [if_neg hij, h1, h2]
      dsimp only [bind_eq_bind, bind_some]
      rw [hinfo1, hinfo2]
      rfl
    · change ((am.modifyInfo nId1 fun info => { info with nRandomPos := j }).modifyInfo
        nId2 fun info => { info with nRandomPos := i }).tables = am.tables
      rw [tables_modifyInfo_same, tables_modifyInfo_same]
      · intro info
        rfl
      · intro info
        rfl
    · apply (h.indexed.swap h1 h2).congr
      intro k
      unfold position
      rw [hfind, Function.update_apply, Function.update_apply]
      split
      · rfl
      · split
        · rfl
        · rfl
    · intro k info hk
      rw [hfind] at hk
      split at hk
      · rw [← some.inj hk]
        exact Int.natCast_nonneg i
      · split at hk
        · rw [← some.inj hk]
          exact Int.natCast_nonneg j
        · exact h.placed k info hk
    · dsimp only
      rw [List.length_set, List.length_set]
    · dsimp only
      rw [List.getElem?_set_self (by rwa [List.length_set]), h1]

/-- Deleting an entry takes it out of the map and out of the index. -/
theorem deleteEntry_spec {am : CAddrMan} (h : am.Ordered)
    (hinfo : am.mapInfo.find nId = some info) :
    ∃ am', am.deleteEntry nId = some am' ∧ am.Becomes
      { am.tables with
        entry := update am.tables.entry nId none
        index := update am.tables.index info.toCNetAddr none
        nPending := am.tables.nPending - 1 } am' := by
  have hposition : am.position nId = some info.nRandomPos.toNat := by
    unfold position
    rw [hinfo]
    rfl
  have hlt := h.indexed.lt_length hposition
  have hat : am.vRandom[info.nRandomPos.toNat]? = some nId := (h.indexed _ _).mpr hposition
  obtain ⟨am₁, hswap, hbecomes, hlen, hlast⟩ :=
    swapRandom_spec h hlt (show am.vRandom.length - 1 < am.vRandom.length by omega)
  rw [hat, ← hlen] at hlast
  have hlastPos := (hbecomes.ordered.indexed _ _).mp hlast
  have hfind : ∀ k, (am₁.mapInfo.erase nId).find k
      = if k = nId then none else am₁.mapInfo.find k := SortedMap.find_erase am₁.mapInfo nId
  refine ⟨{ am₁ with
      vRandom := am₁.vRandom.dropLast
      mapAddr := update am₁.mapAddr info.toCNetAddr none
      mapInfo := am₁.mapInfo.erase nId
      nNew := am₁.nNew - 1 }, ?_, ?_, ⟨?_, ?_⟩, hbecomes.vvTried, hbecomes.nKey⟩
  · unfold deleteEntry
    rw [hinfo]
    dsimp only [bind_eq_bind, bind_some]
    rw [hswap]
    rfl
  · have hent : (fun k => ((am₁.mapInfo.erase nId).find k).map CAddrInfo.tierEntry)
        = update am₁.tables.entry nId none := by
      funext k
      rw [hfind, Function.update_apply]
      split
      · rfl
      · rfl
    rw [← hbecomes.tables, ← hent]
    rfl
  · apply (hbecomes.ordered.indexed.dropLast hlastPos).congr
    intro k
    unfold position
    rw [hfind, Function.update_apply]
    split
    · rfl
    · rfl
  · intro k info' hk
    rw [hfind] at hk
    split at hk
    · exact absurd hk (by simp)
    · exact hbecomes.ordered.placed k info' hk

theorem removeFromNew_spec {am : CAddrMan} (h : am.Consistent env owed) (hb : nId ∈ am.vvNew b) :
    ∃ am', am.removeFromNew b nId = some am'
      ∧ am.Becomes (am.tables.unshelve (addrRules env am.nKey) nId b) am' := by
  obtain ⟨e, he, -⟩ := h.valid.of_mem_pending b nId hb
  obtain ⟨info, hinfo, rfl⟩ := exists_info he
  unfold removeFromNew
  rw [hinfo]
  dsimp only [bind_eq_bind, bind_some]
  -- The entry with one place less.
  have htables := @tables_modifyInfo am nId
    (fun info => { info with nRefCount := info.nRefCount - 1 })
    (fun e => { e with refs := e.refs - 1 }) fun _ => rfl
  have hordered : (am.modifyInfo nId fun info =>
      { info with nRefCount := info.nRefCount - 1 }).Ordered := h.ordered.modifyInfo fun _ => rfl
  have hfind : (am.modifyInfo nId fun info =>
      { info with nRefCount := info.nRefCount - 1 }).mapInfo.find nId
      = some { info with nRefCount := info.nRefCount - 1 } := by
    rw [find_modifyInfo, if_pos rfl, hinfo]
    rfl
  unfold TierTable.unshelve
  rw [he]
  dsimp only [CAddrInfo.tierEntry]
  by_cases hlast : info.nRefCount - 1 = 0
  · rw [if_pos hlast, if_pos hlast]
    obtain ⟨am₁, hdelete, hbecomes⟩ := deleteEntry_spec hordered hfind
    rw [hdelete]
    refine ⟨_, rfl, ?_, hbecomes.ordered.congr rfl rfl, hbecomes.vvTried, hbecomes.nKey⟩
    have hrest := hbecomes.tables
    rw [htables] at hrest
    dsimp only at hrest
    rw [Function.update_idem] at hrest
    change { am₁.tables with
      pending := update am₁.tables.pending b ((am₁.tables.pending b).erase nId) } = _
    rw [hrest]
    rfl
  · rw [if_neg hlast, if_neg hlast]
    refine ⟨_, rfl, ?_, hordered.congr rfl rfl, rfl, rfl⟩
    change { (am.modifyInfo nId fun info => { info with nRefCount := info.nRefCount - 1 }).tables with
      pending := update am.tables.pending b ((am.tables.pending b).erase nId) } = _
    rw [htables, he]
    rfl

theorem findTerrible_spec {am : CAddrMan} {nNow : Int64} {vNew : List ℕ}
    (hknown : ∀ nId ∈ vNew, ∃ info, am.mapInfo.find nId = some info) :
    ∃ r, am.findTerrible nNow vNew = some r ∧ ∀ nId, r = some nId → nId ∈ vNew := by
  induction vNew with
  | nil => exact ⟨none, rfl, by simp⟩
  | cons nId vNew ih =>
    obtain ⟨info, hinfo⟩ := hknown nId List.mem_cons_self
    unfold findTerrible
    rw [hinfo]
    dsimp only [bind_eq_bind, bind_some]
    split
    · refine ⟨some nId, rfl, ?_⟩
      intro k hk
      rw [← some.inj hk]
      exact List.mem_cons_self
    · obtain ⟨r, hr, hmem⟩ := ih fun k hk => hknown k (List.mem_cons_of_mem nId hk)
      exact ⟨r, hr, fun k hk => List.mem_cons_of_mem nId (hmem k hk)⟩

theorem findOldest_spec {am : CAddrMan} (n : List ℕ) {vNew : List ℕ}
    (hknown : ∀ nId ∈ vNew, ∃ info, am.mapInfo.find nId = some info) (nI : ℕ)
    {nOldest : Option ℕ} (hold : ∀ nId, nOldest = some nId →
      ∃ info, am.mapInfo.find nId = some info) :
    ∃ r, am.findOldest n nI nOldest vNew = some r
      ∧ (∀ nId, r = some nId → nId ∈ vNew ∨ nOldest = some nId)
      ∧ ((nOldest ≠ none ∨ ∃ p ∈ n, nI ≤ p ∧ p < nI + vNew.length) → r ≠ none) := by
  induction vNew generalizing nI nOldest with
  | nil =>
    refine ⟨nOldest, rfl, fun nId hnId => .inr hnId, ?_⟩
    rintro (hsome | ⟨p, -, hle, hlt⟩)
    · exact hsome
    · rw [List.length_nil] at hlt
      omega
  | cons nId vNew ih =>
    have hrest : ∀ k ∈ vNew, ∃ info, am.mapInfo.find k = some info :=
      fun k hk => hknown k (List.mem_cons_of_mem nId hk)
    have hnId := hknown nId List.mem_cons_self
    -- The search goes on with the item or with the one kept so far.
    have hnext : ∀ nKept : ℕ, nKept = nId ∨ nOldest = some nKept →
        ∃ r, am.findOldest n (nI + 1) (some nKept) vNew = some r
          ∧ (∀ k, r = some k → k ∈ nId :: vNew ∨ nOldest = some k) ∧ r ≠ none := by
      intro nKept hkept
      have hkeptInfo : ∀ k, some nKept = some k → ∃ info, am.mapInfo.find k = some info := by
        intro k hk
        rw [← some.inj hk]
        rcases hkept with rfl | hkept
        · exact hnId
        · exact hold nKept hkept
      obtain ⟨r, hr, hmem, hsome⟩ := ih hrest (nI + 1) hkeptInfo
      refine ⟨r, hr, ?_, hsome (.inl (by simp))⟩
      intro k hk
      rcases hmem k hk with hmem | heq
      · exact .inl (List.mem_cons_of_mem nId hmem)
      · rw [← some.inj heq]
        apply hkept.imp_left
        intro hid
        rw [hid]
        exact List.mem_cons_self
    unfold findOldest
    split
    · cases hcase : nOldest with
      | none =>
        obtain ⟨r, hr, hmem, hsome⟩ := hnext nId (.inl rfl)
        rw [hcase] at hmem
        exact ⟨r, hr, hmem, fun _ => hsome⟩
      | some nOld =>
        obtain ⟨info, hinfo⟩ := hnId
        obtain ⟨infoOld, hinfoOld⟩ := hold nOld hcase
        dsimp only
        rw [hinfo, hinfoOld]
        dsimp only [bind_eq_bind, bind_some]
        split
        · obtain ⟨r, hr, hmem, hsome⟩ := hnext nId (.inl rfl)
          rw [hcase] at hmem
          exact ⟨r, hr, hmem, fun _ => hsome⟩
        · obtain ⟨r, hr, hmem, hsome⟩ := hnext nOld (.inr hcase)
          rw [hcase] at hmem
          exact ⟨r, hr, hmem, fun _ => hsome⟩
    · rename_i hnotin
      obtain ⟨r, hr, hmem, hsome⟩ := ih hrest (nI + 1) hold
      refine ⟨r, hr, ?_, ?_⟩
      · intro k hk
        exact (hmem k hk).imp_left fun hin => List.mem_cons_of_mem nId hin
      · intro hor
        apply hsome
        apply hor.imp_right
        rintro ⟨p, hp, hle, hlt⟩
        have hne : p ≠ nI := fun heq => hnotin (heq ▸ hp)
        rw [List.length_cons] at hlt
        exact ⟨p, hp, by omega, by omega⟩

theorem shrinkNew_spec {am : CAddrMan} (h : am.Consistent env owed) (hb : (am.vvNew b).Nonempty)
    (nNow : Int64) (draws : ℕ → ℕ) :
    ∃ nId ∈ am.vvNew b, am.ShrinkNew nNow draws b = am.removeFromNew b nId := by
  have hknown : ∀ nId ∈ (am.vvNew b).sort (· ≤ ·), ∃ info, am.mapInfo.find nId = some info := by
    intro nId hmem
    obtain ⟨e, he, -⟩ := h.valid.of_mem_pending b nId ((Finset.mem_sort _).mp hmem)
    obtain ⟨info, hinfo, -⟩ := exists_info he
    exact ⟨info, hinfo⟩
  obtain ⟨r, hterrible, hmem⟩ := @findTerrible_spec am nNow _ hknown
  unfold ShrinkNew
  dsimp only [bind_eq_bind]
  rw [hterrible, bind_some]
  cases r with
  | some nId => exact ⟨nId, (Finset.mem_sort _).mp (hmem nId rfl), rfl⟩
  | none =>
    have hpos : 0 < ((am.vvNew b).sort (· ≤ ·)).length := by
      rw [Finset.length_sort]
      exact hb.card_pos
    obtain ⟨r, holdest, hmem, hsome⟩ := @findOldest_spec am
      ((List.range 4).map fun i => GetRandInt (draws i) ((am.vvNew b).sort (· ≤ ·)).length) _ hknown
      0 none (by simp)
    have hfound : r ≠ none := by
      apply hsome
      refine .inr ⟨_, List.mem_map_of_mem (List.mem_range.mpr (by decide : 0 < 4)),
        Nat.zero_le _, ?_⟩
      rw [Nat.zero_add]
      exact getRandInt_lt _ hpos
    obtain ⟨nId, rfl⟩ := Option.ne_none_iff_exists'.mp hfound
    rw [holdest, bind_some, bind_some]
    refine ⟨nId, ?_, rfl⟩
    rcases hmem nId rfl with hin | hnone
    · exact (Finset.mem_sort _).mp hin
    · exact absurd hnone (by simp)

end CAddrMan

end ZalemCoin.Network
