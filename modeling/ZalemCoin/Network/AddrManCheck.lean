import ZalemCoin.Network.AddrManRuns
import Mathlib.Algebra.BigOperators.Fin

/-!
# The consistency check of the address manager

`Check_`, which is compiled in debug builds, goes through the entries and then counts off the elements
of the buckets against them. It finds no error in a sound state whose times are in order.
-/

namespace ZalemCoin.Network

open Lib Storage

namespace CAddrMan

/-- Counts off an element of a "tried" bucket. -/
def visitTried (setTried : List ℕ) (nId : ℕ) : Except ℤ (List ℕ) :=
  if nId ∈ setTried then .ok (setTried.erase nId) else .error (-11)

/-- Counts off an element of a "new" bucket, which is left until its count is zero. -/
def visitNew (mapNew : List (ℕ × ℤ)) (nId : ℕ) : Except ℤ (List (ℕ × ℤ)) :=
  match mapNew.find? fun e => decide (e.1 = nId) with
  | none => .error (-12)
  | some e =>
    if e.2 - 1 = 0 then .ok (mapNew.filter fun e => decide (e.1 ≠ nId))
    else .ok (mapNew.map fun e => if e.1 = nId then (e.1, e.2 - 1) else e)

variable (am : CAddrMan)

/-- The checks of an entry that do not depend on its table. An address that is not in `mapAddr` counts
as zero there. -/
def checkLinks (n : ℕ) (info : CAddrInfo) : Except ℤ Unit :=
  if (am.mapAddr info.toCNetAddr).getD 0 ≠ n then .error (-5)
  else if info.nRandomPos < 0 ∨ info.nRandomPos ≥ am.vRandom.length
      ∨ am.vRandom[info.nRandomPos.toNat]? ≠ some n then .error (-14)
  else if info.nLastTry.toInt < 0 then .error (-6)
  else if info.nLastSuccess.toInt < 0 then .error (-8)
  else .ok ()

def checkEntry (e : ℕ × CAddrInfo) : Except ℤ Unit :=
  if e.2.fInTried then
    if e.2.nLastSuccess = 0 then .error (-1)
    else if e.2.nRefCount ≠ 0 then .error (-2)
    else am.checkLinks e.1 e.2
  else if e.2.nRefCount < 0 ∨ e.2.nRefCount > ADDRMAN_NEW_BUCKETS_PER_ADDRESS then .error (-3)
  else if e.2.nRefCount = 0 then .error (-4)
  else am.checkLinks e.1 e.2

/-- The entries of the two tables, as the check collects them. -/
def setTried : List ℕ :=
  (am.mapInfo.entries.filter fun e => e.2.fInTried).map Prod.fst

def mapNew : List (ℕ × ℤ) :=
  (am.mapInfo.entries.filter fun e => !e.2.fInTried).map fun e => (e.1, e.2.nRefCount)

/-- The elements of all buckets of a table, one bucket after the other. -/
def allTried : List ℕ :=
  (List.finRange ADDRMAN_TRIED_BUCKET_COUNT).flatMap am.vvTried

def allNew : List ℕ :=
  (List.finRange ADDRMAN_NEW_BUCKET_COUNT).flatMap fun b => (am.vvNew b).sort (· ≤ ·)

/-- The consistency check, up to its first error. -/
def check : Except ℤ Unit := do
  if (am.vRandom.length : ℤ) ≠ am.nTried + am.nNew then .error (-7)
  am.mapInfo.entries.forM am.checkEntry
  if (am.setTried.length : ℤ) ≠ am.nTried then .error (-9)
  if (am.mapNew.length : ℤ) ≠ am.nNew then .error (-10)
  let setTried ← am.allTried.foldlM visitTried am.setTried
  let mapNew ← am.allNew.foldlM visitNew am.mapNew
  if setTried.length ≠ 0 then .error (-13)
  if mapNew.length ≠ 0 then .error (-15)

/-- Performs the consistency check. Returns an error code or zero. -/
def Check_ : ℤ :=
  match am.check with
  | .ok _ => 0
  | .error err => err

theorem visitTried_all {elements setTried : List ℕ} (helements : elements.Nodup)
    (hset : setTried.Nodup) (hsame : ∀ nId, nId ∈ setTried ↔ nId ∈ elements) :
    elements.foldlM visitTried setTried = .ok [] := by
  induction elements generalizing setTried with
  | nil =>
    have hnil : setTried = [] := by
      apply List.eq_nil_iff_forall_not_mem.mpr
      intro nId hmem
      exact absurd ((hsame nId).mp hmem) (by simp)
    rw [hnil]
    rfl
  | cons nId elements ih =>
    obtain ⟨hnot, hrest⟩ := List.nodup_cons.mp helements
    have hmem : nId ∈ setTried := (hsame nId).mpr List.mem_cons_self
    have hstep : visitTried setTried nId = .ok (setTried.erase nId) := if_pos hmem
    rw [List.foldlM_cons, hstep]
    apply ih hrest (hset.erase nId)
    intro k
    rw [hset.mem_erase_iff, hsame, List.mem_cons]
    constructor
    · rintro ⟨hne, rfl | hin⟩
      · exact absurd rfl hne
      · exact hin
    · intro hin
      exact ⟨fun heq => hnot (heq ▸ hin), .inr hin⟩

/-- Each entry is crossed off as often as it is in the buckets, so none is left. -/
theorem visitNew_all {elements : List ℕ} {mapNew : List (ℕ × ℤ)}
    (hkeys : (mapNew.map Prod.fst).Nodup)
    (hcnt : ∀ e ∈ mapNew, 1 ≤ e.2 ∧ (elements.count e.1 : ℤ) = e.2)
    (hknown : ∀ nId ∈ elements, nId ∈ mapNew.map Prod.fst) :
    elements.foldlM visitNew mapNew = .ok [] := by
  induction elements generalizing mapNew with
  | nil =>
    have hnil : mapNew = [] := by
      apply List.eq_nil_iff_forall_not_mem.mpr
      intro e he
      obtain ⟨hone, hzero⟩ := hcnt e he
      rw [List.count_nil] at hzero
      omega
    rw [hnil]
    rfl
  | cons nId elements ih =>
    obtain ⟨e, he, hkey⟩ := List.mem_map.mp (hknown nId List.mem_cons_self)
    obtain ⟨-, hcountId⟩ := hcnt e he
    rw [hkey, List.count_cons_self] at hcountId
    have hunique : ∀ e' ∈ mapNew, e'.1 = nId → e' = e := by
      intro e' he' hkey'
      exact List.inj_on_of_nodup_map hkeys he' he (hkey'.trans hkey.symm)
    have hfind : mapNew.find? (fun e => decide (e.1 = nId)) = some e := by
      cases hcase : mapNew.find? fun e => decide (e.1 = nId) with
      | none => exact absurd (List.find?_eq_none.mp hcase e he) (by simp [hkey])
      | some e' =>
        have hkey' := of_decide_eq_true
          (@List.find?_some _ (fun e : ℕ × ℤ => decide (e.1 = nId)) e' _ hcase)
        rw [hunique e' (List.mem_of_find?_eq_some hcase) hkey']
    have hother : ∀ k, k ≠ nId → (nId :: elements).count k = elements.count k := by
      intro k hne
      exact List.count_cons_of_ne (Ne.symm hne)
    rw [List.foldlM_cons]
    by_cases hlast : e.2 - 1 = 0
    · have hstep : visitNew mapNew nId = .ok (mapNew.filter fun e => decide (e.1 ≠ nId)) := by
        unfold visitNew
        rw [hfind]
        exact if_pos hlast
      have hgone : nId ∉ elements := List.count_eq_zero.mp (by omega)
      rw [hstep]
      apply ih
      · exact hkeys.sublist (List.filter_sublist.map Prod.fst)
      · intro e' he'
        obtain ⟨hin, hne⟩ := List.mem_filter.mp he'
        have hcnt' := hcnt e' hin
        rwa [hother e'.1 (of_decide_eq_true hne)] at hcnt'
      · intro k hk
        obtain ⟨e', he', rfl⟩ := List.mem_map.mp (hknown k (List.mem_cons_of_mem nId hk))
        apply List.mem_map_of_mem
        apply List.mem_filter.mpr
        exact ⟨he', decide_eq_true fun heq => hgone (heq ▸ hk)⟩
    · have hstep : visitNew mapNew nId
          = .ok (mapNew.map fun e => if e.1 = nId then (e.1, e.2 - 1) else e) := by
        unfold visitNew
        rw [hfind]
        exact if_neg hlast
      have hsame : (mapNew.map fun e => if e.1 = nId then (e.1, e.2 - 1) else e).map Prod.fst
          = mapNew.map Prod.fst := by
        rw [List.map_map]
        apply List.map_congr_left
        intro e' _
        change (if e'.1 = nId then (e'.1, e'.2 - 1) else e').1 = e'.1
        split
        · rfl
        · rfl
      rw [hstep]
      apply ih
      · rw [hsame]
        exact hkeys
      · intro e' he'
        obtain ⟨e'', he'', rfl⟩ := List.mem_map.mp he'
        split
        · rename_i hk
          have := hunique e'' he'' hk
          subst this
          rw [hk]
          omega
        · rename_i hk
          have hcnt' := hcnt e'' he''
          rwa [hother e''.1 hk] at hcnt'
      · intro k hk
        rw [hsame]
        exact hknown k (List.mem_cons_of_mem nId hk)

/-- The laws of the address manager. -/
structure Lawful : Prop where
  /-- `vRandom` is a permutation of the numbers of the entries. -/
  random : am.vRandom.Perm am.mapInfo.keys
  /-- Each entry has its position in it. -/
  randomPos : ∀ nId info, am.mapInfo.find nId = some info →
    0 ≤ info.nRandomPos ∧ am.vRandom[info.nRandomPos.toNat]? = some nId
  /-- `mapAddr` is the inverse of the address. -/
  mapAddr : ∀ addr nId, am.mapAddr addr = some nId ↔
    ∃ info, am.mapInfo.find nId = some info ∧ info.toCNetAddr = addr
  /-- A tried entry stands once in exactly one "tried" bucket, and in no "new" one. -/
  tried : ∀ nId info, am.mapInfo.find nId = some info → info.fInTried = true →
    info.nRefCount = 0 ∧ am.allTried.count nId = 1 ∧ (∃! b, nId ∈ am.vvTried b)
      ∧ ∀ b, nId ∉ am.vvNew b
  /-- Another entry stands in as many "new" buckets as it counts, which is at least one, and in no
  "tried" one. -/
  new : ∀ nId info, am.mapInfo.find nId = some info → info.fInTried = false →
    1 ≤ info.nRefCount ∧ info.nRefCount ≤ ADDRMAN_NEW_BUCKETS_PER_ADDRESS
      ∧ info.nRefCount = (am.newBucketsOf nId).card ∧ ∀ b, nId ∉ am.vvTried b
  /-- The buckets hold entries. -/
  known : ∀ nId, (∃ b, nId ∈ am.vvTried b) ∨ (∃ b, nId ∈ am.vvNew b) →
    ∃ info, am.mapInfo.find nId = some info
  /-- `nTried` and `nNew` count the entries. -/
  nTried : (am.setTried.length : ℤ) = am.nTried
  nNew : (am.mapNew.length : ℤ) = am.nNew
  /-- No bucket exceeds its size. -/
  fits : am.Fits

variable {env : AddrEnv} {am : CAddrMan}

theorem mem_entries {nId : ℕ} {info : CAddrInfo} :
    (nId, info) ∈ am.mapInfo.entries ↔ am.mapInfo.find nId = some info :=
  SortedMap.find_eq_some.symm

theorem mem_setTried {nId : ℕ} :
    nId ∈ am.setTried ↔ ∃ info, am.mapInfo.find nId = some info ∧ info.fInTried = true := by
  unfold setTried
  rw [List.mem_map]
  constructor
  · rintro ⟨⟨k, info⟩, hmem, rfl⟩
    obtain ⟨hin, htried⟩ := List.mem_filter.mp hmem
    exact ⟨info, mem_entries.mp hin, htried⟩
  · rintro ⟨info, hinfo, htried⟩
    exact ⟨(nId, info), List.mem_filter.mpr ⟨mem_entries.mpr hinfo, htried⟩, rfl⟩

theorem mem_mapNew {e : ℕ × ℤ} :
    e ∈ am.mapNew ↔
      ∃ info, am.mapInfo.find e.1 = some info ∧ info.fInTried = false ∧ info.nRefCount = e.2 := by
  unfold mapNew
  rw [List.mem_map]
  constructor
  · rintro ⟨⟨k, info⟩, hmem, rfl⟩
    obtain ⟨hin, hnew⟩ := List.mem_filter.mp hmem
    exact ⟨info, mem_entries.mp hin, Bool.not_eq_true' _ ▸ hnew, rfl⟩
  · rintro ⟨info, hinfo, hnew, hrefs⟩
    refine ⟨(e.1, info), List.mem_filter.mpr ⟨mem_entries.mpr hinfo, ?_⟩, ?_⟩
    · dsimp only
      rw [hnew]
      rfl
    · dsimp only
      rw [hrefs]

theorem setTried_nodup : am.setTried.Nodup :=
  am.mapInfo.keys_nodup.sublist (List.filter_sublist.map Prod.fst)

theorem mapNew_keys_nodup : (am.mapNew.map Prod.fst).Nodup := by
  have hkeys : am.mapNew.map Prod.fst
      = (am.mapInfo.entries.filter fun e => !e.2.fInTried).map Prod.fst := by
    unfold mapNew
    rw [List.map_map]
    rfl
  rw [hkeys]
  exact am.mapInfo.keys_nodup.sublist (List.filter_sublist.map Prod.fst)

theorem mem_allTried (h : am.Consistent env none) {nId : ℕ} :
    nId ∈ am.allTried ↔ ∃ info, am.mapInfo.find nId = some info ∧ info.fInTried = true := by
  unfold allTried
  rw [List.mem_flatMap]
  constructor
  · rintro ⟨b, -, hmem⟩
    obtain ⟨e, he, hset, -⟩ := (h.valid.mem_settled b nId).mp (List.mem_toFinset.mpr hmem)
    obtain ⟨info, hinfo, rfl⟩ := exists_info he
    exact ⟨info, hinfo, hset⟩
  · rintro ⟨info, hinfo, hset⟩
    have hmem := (h.valid.mem_settled _ nId).mpr ⟨info.tierEntry, entry_eq_some hinfo, hset, rfl⟩
    exact ⟨_, List.mem_finRange _, List.mem_toFinset.mp hmem⟩

theorem allTried_nodup (h : am.Consistent env none) : am.allTried.Nodup := by
  apply List.nodup_flatMap.mpr
  refine ⟨fun b _ => h.nodup b, ?_⟩
  apply (List.nodup_finRange _).imp
  intro b b' hne nId hmem hmem'
  obtain ⟨e, he, -, hhome⟩ := (h.valid.mem_settled b nId).mp (List.mem_toFinset.mpr hmem)
  obtain ⟨e', he', -, hhome'⟩ := (h.valid.mem_settled b' nId).mp (List.mem_toFinset.mpr hmem')
  rw [he] at he'
  rw [← Option.some.inj he'] at hhome'
  exact hne (hhome.symm.trans hhome')

theorem count_allNew (nId : ℕ) : am.allNew.count nId = (am.newBucketsOf nId).card := by
  have hcnt : ∀ b : NewBucket, ((am.vvNew b).sort (· ≤ ·)).count nId
      = if nId ∈ am.vvNew b then 1 else 0 := by
    intro b
    rw [(Finset.sort_nodup (am.vvNew b) (· ≤ ·)).count]
    simp only [Finset.mem_sort]
  unfold allNew newBucketsOf
  rw [List.count_flatMap, Finset.card_filter, Fin.sum_univ_def]
  congr 1
  apply List.map_congr_left
  intro b _
  exact hcnt b

theorem Sound.lawful (h : am.Sound env) : am.Lawful := by
  obtain ⟨hvalid, hnd, hordered⟩ := h.consistent
  have hcnt : ∀ tier (ids : List ℕ), ids.Nodup →
      (∀ nId, nId ∈ ids ↔ ∃ info, am.mapInfo.find nId = some info ∧ info.fInTried = tier) →
      ids.length = (am.tables.idsWith tier).card := by
    intro tier ids hids hmem
    rw [← List.toFinset_card_of_nodup hids]
    congr 1
    ext nId
    rw [List.mem_toFinset, hmem, TierTable.Valid.mem_idsWith hvalid.known]
    constructor
    · rintro ⟨info, hinfo, htier⟩
      exact ⟨info.tierEntry, entry_eq_some hinfo, htier⟩
    · rintro ⟨e, he, htier⟩
      obtain ⟨info, hinfo, rfl⟩ := exists_info he
      exact ⟨info, hinfo, htier⟩
  constructor
  · apply (List.perm_ext_iff_of_nodup hordered.indexed.nodup am.mapInfo.keys_nodup).mpr
    intro nId
    rw [hordered.indexed.mem_iff]
    unfold position
    rw [Option.isSome_map, Option.isSome_iff_ne_none, Ne, SortedMap.find_eq_none, not_not]
  · intro nId info hinfo
    refine ⟨hordered.placed nId info hinfo, (hordered.indexed _ nId).mpr ?_⟩
    unfold position
    rw [hinfo]
    rfl
  · intro addr nId
    refine (hvalid.index_iff addr nId).trans ?_
    constructor
    · rintro ⟨e, he, hkey⟩
      obtain ⟨info, hinfo, rfl⟩ := exists_info he
      exact ⟨info, hinfo, hkey⟩
    · rintro ⟨info, hinfo, hkey⟩
      exact ⟨info.tierEntry, entry_eq_some hinfo, hkey⟩
  · intro nId info hinfo htried
    have he := entry_eq_some hinfo
    have hnone := hvalid.notMem_pending_of_settled he htried
    refine ⟨?_, ?_, ?_, hnone⟩
    · have hrefs := hvalid.refs_eq nId _ he
      rw [TierTable.Valid.shelvesOf_eq_empty hnone, if_neg (by simp)] at hrefs
      exact hrefs
    · exact List.count_eq_one_of_mem (allTried_nodup h.consistent)
        ((mem_allTried h.consistent).mpr ⟨info, hinfo, htried⟩)
    · refine ⟨_, List.mem_toFinset.mp ((hvalid.mem_settled _ nId).mpr ⟨_, he, htried, rfl⟩), ?_⟩
      intro b hb
      obtain ⟨e, he', -, hhome⟩ := (hvalid.mem_settled b nId).mp (List.mem_toFinset.mpr hb)
      rw [he] at he'
      rw [← Option.some.inj he'] at hhome
      exact hhome.symm
  · intro nId info hinfo hnew
    have he := entry_eq_some hinfo
    obtain ⟨hone, hlim⟩ := hvalid.refs_pos nId _ he hnew
    refine ⟨hone, hlim, ?_, ?_⟩
    · have hrefs := hvalid.refs_eq nId _ he
      exact hrefs
    · intro b hb
      exact hvalid.notMem_settled he hnew b (List.mem_toFinset.mpr hb)
  · rintro nId (⟨b, hb⟩ | ⟨b, hb⟩)
    · obtain ⟨e, he, -⟩ := (hvalid.mem_settled b nId).mp (List.mem_toFinset.mpr hb)
      obtain ⟨info, hinfo, -⟩ := exists_info he
      exact ⟨info, hinfo⟩
    · obtain ⟨e, he, -⟩ := hvalid.of_mem_pending b nId hb
      obtain ⟨info, hinfo, -⟩ := exists_info he
      exact ⟨info, hinfo⟩
  · rw [hcnt true am.setTried setTried_nodup fun nId => mem_setTried]
    exact hvalid.settled_count
  · have hlen : am.mapNew.length = (am.mapNew.map Prod.fst).length :=
      (List.length_map Prod.fst).symm
    rw [hlen, hcnt false _ mapNew_keys_nodup]
    · exact hvalid.pending_count
    · intro nId
      rw [List.mem_map]
      constructor
      · rintro ⟨e, he, rfl⟩
        obtain ⟨info, hinfo, hnew, -⟩ := mem_mapNew.mp he
        exact ⟨info, hinfo, hnew⟩
      · rintro ⟨info, hinfo, hnew⟩
        exact ⟨(nId, info.nRefCount), mem_mapNew.mpr ⟨info, hinfo, hnew, rfl⟩, rfl⟩
  · exact h.fits

theorem Lawful.length_vRandom (h : am.Lawful) :
    (am.vRandom.length : ℤ) = am.nTried + am.nNew := by
  rw [h.random.length_eq, ← h.nTried, ← h.nNew]
  unfold SortedMap.keys setTried mapNew
  rw [List.length_map, List.length_map, List.length_map]
  have hsplit := List.length_eq_length_filter_add (l := am.mapInfo.entries)
    fun e => e.2.fInTried
  rw [hsplit]
  push_cast
  rfl

/-- `Check_` finds nothing wrong in sound tables whose entries have a date. -/
theorem Sound.check_eq_zero (h : am.Sound env) (hdated : am.tables.All dated) :
    am.Check_ = 0 := by
  have hlaws := h.lawful
  have hlinks : ∀ nId info, am.mapInfo.find nId = some info → am.checkLinks nId info = .ok () := by
    intro nId info hinfo
    obtain ⟨hpos, hat⟩ := hlaws.randomPos nId info hinfo
    have hidx := (hlaws.mapAddr info.toCNetAddr nId).mpr ⟨info, hinfo, rfl⟩
    have hlt := (List.getElem?_eq_some_iff.mp hat).1
    obtain ⟨htry, hsuccess, -⟩ : dated info.toCAddrRecord info.fInTried :=
      hdated nId _ (entry_eq_some hinfo)
    unfold checkLinks
    rw [hidx, if_neg (by simp), if_neg, if_neg (not_lt.mpr htry), if_neg (not_lt.mpr hsuccess)]
    rintro (hneg | hge | hne)
    · omega
    · omega
    · exact hne hat
  have hent : ∀ e ∈ am.mapInfo.entries, am.checkEntry e = .ok () := by
    rintro ⟨nId, info⟩ hmem
    have hinfo := mem_entries.mp hmem
    unfold checkEntry
    dsimp only
    split
    · rename_i htried
      obtain ⟨hrefs, -⟩ := hlaws.tried nId info hinfo htried
      obtain ⟨-, -, hsuccess⟩ : dated info.toCAddrRecord info.fInTried :=
        hdated nId _ (entry_eq_some hinfo)
      rw [if_neg (hsuccess htried), if_neg (by simp [hrefs])]
      exact hlinks nId info hinfo
    · rename_i hnew
      obtain ⟨hone, hlim, -⟩ := hlaws.new nId info hinfo (Bool.eq_false_iff.mpr hnew)
      rw [if_neg (by omega), if_neg (by omega)]
      exact hlinks nId info hinfo
  have hents : ∀ entries : List (ℕ × CAddrInfo), (∀ e ∈ entries, am.checkEntry e = .ok ()) →
      entries.forM am.checkEntry = .ok () := by
    intro entries
    induction entries with
    | nil => exact fun _ => rfl
    | cons e entries ih =>
      intro hall
      have hrest := ih fun e' he' => hall e' (List.mem_cons_of_mem e he')
      change (am.checkEntry e >>= fun _ => entries.forM am.checkEntry) = _
      rw [hall e List.mem_cons_self, hrest]
      rfl
  have htried : am.allTried.foldlM visitTried am.setTried = .ok [] :=
    visitTried_all (allTried_nodup h.consistent) setTried_nodup fun nId =>
      mem_setTried.trans (mem_allTried h.consistent).symm
  have hnew : am.allNew.foldlM visitNew am.mapNew = .ok [] := by
    apply visitNew_all mapNew_keys_nodup
    · intro e he
      obtain ⟨info, hinfo, hfalse, hrefs⟩ := mem_mapNew.mp he
      obtain ⟨hone, -, hcard, -⟩ := hlaws.new e.1 info hinfo hfalse
      rw [count_allNew, ← hcard, ← hrefs]
      exact ⟨hone, rfl⟩
    · intro nId hmem
      obtain ⟨b, -, hb⟩ := List.mem_flatMap.mp hmem
      obtain ⟨e, he, hpend⟩ := h.consistent.valid.of_mem_pending b nId ((Finset.mem_sort _).mp hb)
      obtain ⟨info, hinfo, rfl⟩ := exists_info he
      exact List.mem_map.mpr
        ⟨(nId, info.nRefCount), mem_mapNew.mpr ⟨info, hinfo, hpend, rfl⟩, rfl⟩
  have hok : am.check = .ok () := by
    unfold check
    rw [if_neg (not_not.mpr hlaws.length_vRandom), hents _ hent,
      if_neg (not_not.mpr hlaws.nTried), if_neg (not_not.mpr hlaws.nNew), htried, hnew]
    rfl
  unfold Check_
  rw [hok]

end CAddrMan

end ZalemCoin.Network
