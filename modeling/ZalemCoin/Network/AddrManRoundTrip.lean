import ZalemCoin.Lib.TierNumbers
import ZalemCoin.Network.AddrManReload

/-!
# Saving and reading the address manager

The file holds the "new" entries before the "tried" ones, and an entry has its place in this order for
its number when it is read again. The tables that are read are those that were saved, under these
numbers and without the times of the last tries, so they are sound again.
-/

namespace ZalemCoin.Network

open Lib Storage
open CAddrInfo (GetTriedBucket)
open List (length_map mem_of_getElem)
open Option (some.inj map_map)
open TierTable (shelvesOf)

namespace CAddrMan

def newEntries (am : CAddrMan) : List (ℕ × CAddrInfo) := am.mapInfo.entries.filter savedAsNew
def triedEntries (am : CAddrMan) : List (ℕ × CAddrInfo) := am.mapInfo.entries.filter savedAsTried
def saved (am : CAddrMan) : List (ℕ × CAddrInfo) := am.newEntries ++ am.triedEntries

/-- The number that an entry has when it is read. -/
def savedIndex (am : CAddrMan) (nId : ℕ) : ℕ := (am.saved.map Prod.fst).idxOf nId

def savedIds (am : CAddrMan) (b : NewBucket) : List ℕ :=
  ((am.vvNew b).sort (· ≤ ·)).map am.savedIndex

variable {env : AddrEnv} {am : CAddrMan}

section

variable {e : ℕ × CAddrInfo} {nId k : ℕ} {info : CAddrInfo}

variable (h : am.Lawful)
include h

theorem Lawful.savedAsNew_eq (he : e ∈ am.mapInfo.entries) : savedAsNew e = !e.2.fInTried := by
  have hinfo : am.mapInfo.find e.1 = some e.2 := mem_entries.mp he
  cases htried : e.2.fInTried with
  | true =>
    have hrefs := (h.tried e.1 e.2 hinfo htried).1
    exact decide_eq_false (not_not.mpr hrefs)
  | false =>
    have hrefs := (h.new e.1 e.2 hinfo htried).1
    exact decide_eq_true (by omega)

theorem Lawful.newEntries_eq : am.newEntries = am.mapInfo.entries.filter fun e => !e.2.fInTried :=
  List.filter_congr fun _ he => h.savedAsNew_eq he

theorem Lawful.length_newEntries : (am.newEntries.length : ℤ) = am.nNew := by
  rw [← h.nNew, h.newEntries_eq]
  unfold mapNew
  rw [length_map]

theorem Lawful.length_triedEntries : (am.triedEntries.length : ℤ) = am.nTried := by
  rw [← h.nTried]
  unfold setTried
  rw [length_map]
  rfl

theorem Lawful.saved_perm : am.saved.Perm am.mapInfo.entries := by
  unfold saved
  rw [h.newEntries_eq]
  exact List.perm_append_comm.trans
    (List.filter_append_perm (fun e : ℕ × CAddrInfo => e.2.fInTried) am.mapInfo.entries)

theorem Lawful.mem_saved : e ∈ am.saved ↔ am.mapInfo.find e.1 = some e.2 :=
  h.saved_perm.mem_iff.trans mem_entries

theorem Lawful.saved_keys_nodup : (am.saved.map Prod.fst).Nodup :=
  (h.saved_perm.map Prod.fst).nodup_iff.mpr am.mapInfo.keys_nodup

theorem Lawful.saved_addrs_nodup : (am.saved.map fun e => e.2.toCNetAddr).Nodup := by
  apply List.Nodup.map_on _ (List.Nodup.of_map _ h.saved_keys_nodup)
  intro e he e' he' heq
  have hid := (h.mapAddr e.2.toCNetAddr e.1).mpr ⟨e.2, h.mem_saved.mp he, rfl⟩
  have hid' := (h.mapAddr e'.2.toCNetAddr e'.1).mpr ⟨e'.2, h.mem_saved.mp he', rfl⟩
  rw [heq, hid'] at hid
  have hkey := some.inj hid
  have hinfo := h.mem_saved.mp he
  rw [← hkey, h.mem_saved.mp he'] at hinfo
  exact Prod.ext hkey.symm (some.inj hinfo).symm

theorem Lawful.getElem?_savedIndex (hinfo : am.mapInfo.find nId = some info) :
    am.saved[am.savedIndex nId]? = some (nId, info) := by
  have hmem : nId ∈ am.saved.map Prod.fst :=
    List.mem_map.mpr ⟨(nId, info), h.mem_saved.mpr hinfo, rfl⟩
  have hat : (am.saved.map Prod.fst)[am.savedIndex nId]? = some nId := List.getElem?_idxOf hmem
  rw [List.getElem?_map] at hat
  obtain ⟨e, he, rfl⟩ := Option.map_eq_some_iff.mp hat
  have hsame := h.mem_saved.mp (List.mem_of_getElem? he)
  rw [hinfo] at hsame
  rw [he, some.inj hsame]

theorem Lawful.savedIndex_eq (hk : am.saved[k]? = some e) : am.savedIndex e.1 = k := by
  have hkey : (am.saved.map Prod.fst)[k]? = some e.1 := by
    rw [List.getElem?_map, hk]
    rfl
  obtain ⟨hlt, hval⟩ := List.getElem?_eq_some_iff.mp hkey
  rw [← hval]
  exact h.saved_keys_nodup.idxOf_getElem k hlt

theorem Lawful.fInTried_iff (hk : am.saved[k]? = some e) :
    e.2.fInTried = decide (am.newEntries.length ≤ k) := by
  unfold saved at hk
  by_cases hlt : k < am.newEntries.length
  · rw [List.getElem?_append_left hlt] at hk
    have hmem := List.mem_of_getElem? hk
    rw [h.newEntries_eq] at hmem
    have hnew := (List.mem_filter.mp hmem).2
    rw [decide_eq_false (by omega)]
    exact (Bool.not_eq_true' _).mp hnew
  · rw [List.getElem?_append_right (by omega)] at hk
    have htried := (List.mem_filter.mp (List.mem_of_getElem? hk)).2
    rw [decide_eq_true (by omega)]
    exact htried

theorem Lawful.serialize_eq :
    am.Serialize = littleEndian 1 0 ++ (writeBytes am.nKey
      ++ (writeInt 4 am.newEntries.length ++ (writeInt 4 am.triedEntries.length
      ++ (writeInt 4 ADDRMAN_NEW_BUCKET_COUNT
      ++ ((am.newEntries.flatMap fun e => writeInfo e.2.toCAddrRecord)
      ++ ((am.triedEntries.flatMap fun e => writeInfo e.2.toCAddrRecord)
      ++ (List.finRange ADDRMAN_NEW_BUCKET_COUNT).flatMap fun b =>
          writeInt 4 (am.savedIds b).length
            ++ (am.savedIds b).flatMap fun k : ℕ => writeInt 4 k)))))) := by
  obtain ⟨indices, hwrite, hidx, -⟩ := @writeNewEntries_spec am.nNew am.mapInfo.entries 0
    (fun _ => 0) am.mapInfo.keys_nodup (by rw [Int.zero_add]; exact h.length_newEntries)
  have htried := @writeTriedEntries_spec am.nTried am.mapInfo.entries 0
    (by rw [Int.zero_add]; exact h.length_triedEntries)
  have hbucket : ∀ b, writeBucket indices (am.vvNew b)
      = writeInt 4 (am.savedIds b).length
        ++ (am.savedIds b).flatMap fun k : ℕ => writeInt 4 k := by
    intro b
    unfold writeBucket savedIds
    rw [length_map, Finset.length_sort, List.flatMap_map]
    congr 1
    apply List.flatMap_congr
    intro nId hmem
    obtain ⟨info, hinfo⟩ := h.known nId (.inr ⟨b, (Finset.mem_sort _).mp hmem⟩)
    have hat := h.getElem?_savedIndex hinfo
    have hnew : info.fInTried = false := by
      cases hcase : info.fInTried with
      | false => rfl
      | true =>
        obtain ⟨-, -, -, hnone⟩ := h.tried nId info hinfo hcase
        exact absurd ((Finset.mem_sort _).mp hmem) (hnone b)
    have hflag := h.fInTried_iff hat
    rw [hnew] at hflag
    have hlt : am.savedIndex nId < am.newEntries.length := by
      have := of_decide_eq_false hflag.symm
      omega
    unfold saved at hat
    rw [List.getElem?_append_left hlt] at hat
    have hval := hidx _ _ hat
    rw [Int.zero_add] at hval
    exact congrArg (writeInt 4) hval
  unfold Serialize
  rw [hwrite, htried, ← h.length_newEntries, ← h.length_triedEntries]
  simp only [hbucket]
  rfl

theorem Lawful.savedIndex_inj {nId' : ℕ} {info' : CAddrInfo}
    (hinfo : am.mapInfo.find nId = some info) (hinfo' : am.mapInfo.find nId' = some info')
    (heq : am.savedIndex nId = am.savedIndex nId') : nId = nId' := by
  have hat := h.getElem?_savedIndex hinfo
  rw [heq, h.getElem?_savedIndex hinfo'] at hat
  exact (congrArg Prod.fst (some.inj hat)).symm

omit h

theorem mem_savedIds {b : NewBucket} :
    k ∈ am.savedIds b ↔ ∃ nId ∈ am.vvNew b, am.savedIndex nId = k := by
  unfold savedIds
  rw [List.mem_map]
  simp only [Finset.mem_sort]

theorem Lawful.savedIds_nodup (h : am.Lawful) (b : NewBucket) : (am.savedIds b).Nodup := by
  apply List.Nodup.map_on _ (Finset.sort_nodup (am.vvNew b) (· ≤ ·))
  intro nId hmem nId' hmem' heq
  obtain ⟨info, hinfo⟩ := h.known nId (.inr ⟨b, (Finset.mem_sort _).mp hmem⟩)
  obtain ⟨info', hinfo'⟩ := h.known nId' (.inr ⟨b, (Finset.mem_sort _).mp hmem'⟩)
  exact h.savedIndex_inj hinfo hinfo' heq

theorem Lawful.shelvesOf_savedIndex (h : am.Lawful) (hinfo : am.mapInfo.find nId = some info) :
    shelvesOf (fun b => (am.savedIds b).toFinset) (am.savedIndex nId)
      = am.newBucketsOf nId := by
  apply TierTable.shelvesOf_renumber
  · intro b k
    rw [List.mem_toFinset]
    exact mem_savedIds
  · intro b nId' hmem heq
    obtain ⟨info', hinfo'⟩ := h.known nId' (.inr ⟨b, hmem⟩)
    exact h.savedIndex_inj hinfo' hinfo heq

theorem Lawful.card_shelvesOf (h : am.Lawful) (hk : am.saved[k]? = some e) :
    ((shelvesOf (fun b => (am.savedIds b).toFinset) k).card : ℤ)
      = e.2.nRefCount := by
  have hinfo := h.mem_saved.mp (List.mem_of_getElem? hk)
  have hshelves := h.shelvesOf_savedIndex hinfo
  rw [h.savedIndex_eq hk] at hshelves
  rw [hshelves]
  cases htried : e.2.fInTried with
  | true =>
    obtain ⟨hrefs, -, -, hnone⟩ := h.tried e.1 e.2 hinfo htried
    have hemp : am.newBucketsOf e.1 = ∅ := TierTable.Valid.shelvesOf_eq_empty hnone
    rw [hemp, hrefs]
    rfl
  | false => exact (h.new e.1 e.2 hinfo htried).2.2.1.symm

theorem Lawful.shelves_le (h : am.Lawful) (k : ℕ) :
    ((shelvesOf (fun b => (am.savedIds b).toFinset) k).card : ℤ)
      ≤ ADDRMAN_NEW_BUCKETS_PER_ADDRESS := by
  by_cases hused : ∃ b, k ∈ am.savedIds b
  · obtain ⟨b, hb⟩ := hused
    obtain ⟨nId, hmem, rfl⟩ := mem_savedIds.mp hb
    obtain ⟨info, hinfo⟩ := h.known nId (.inr ⟨b, hmem⟩)
    rw [h.card_shelvesOf (h.getElem?_savedIndex hinfo)]
    cases htried : info.fInTried with
    | true => exact absurd hmem ((h.tried nId info hinfo htried).2.2.2 b)
    | false => exact (h.new nId info hinfo htried).2.1
  · have hemp : shelvesOf (fun b => (am.savedIds b).toFinset) k = ∅ := by
      apply TierTable.Valid.shelvesOf_eq_empty
      intro b hmem
      exact hused ⟨b, List.mem_toFinset.mp hmem⟩
    rw [hemp]
    decide

theorem Sound.tried_fits (h : am.Sound env) (b : TriedBucket) :
    (am.triedEntries.filter fun e =>
      decide (GetTriedBucket env am.nKey e.2.toCService = b)).length
      ≤ ADDRMAN_TRIED_BUCKET_SIZE := by
  have hnd : ((am.triedEntries.filter fun e =>
      decide (GetTriedBucket env am.nKey e.2.toCService = b)).map Prod.fst).Nodup :=
    am.mapInfo.keys_nodup.sublist
      ((List.filter_sublist.trans List.filter_sublist).map Prod.fst)
  have hsub : ((am.triedEntries.filter fun e =>
      decide (GetTriedBucket env am.nKey e.2.toCService = b)).map Prod.fst) ⊆ am.vvTried b := by
    intro nId hmem
    obtain ⟨e, he, rfl⟩ := List.mem_map.mp hmem
    obtain ⟨hin, hhome⟩ := List.mem_filter.mp he
    obtain ⟨hent, htried⟩ := List.mem_filter.mp hin
    have hsettled := (h.consistent.valid.mem_settled b e.1).mpr
      ⟨_, entry_eq_some (mem_entries.mp hent), htried, of_decide_eq_true hhome⟩
    exact List.mem_toFinset.mp hsettled
  have hle := (List.subperm_of_subset hnd hsub).length_le
  rw [length_map] at hle
  exact hle.trans (h.fits.tried b)

theorem Sound.length_saved_lt (h : am.Sound env) : am.saved.length < 2 ^ 31 := by
  have hpend : ∀ b, (am.tables.pending b).card ≤ ADDRMAN_NEW_BUCKET_SIZE := h.fits.new
  have hsettled : ∀ b, (am.tables.settled b).card ≤ ADDRMAN_TRIED_BUCKET_SIZE := by
    intro b
    exact (List.toFinset_card_le (am.vvTried b)).trans (h.fits.tried b)
  have hnew := h.consistent.valid.nPending_le hpend
  have htried := h.consistent.valid.nSettled_le hsettled
  have hbuckets : Fintype.card NewBucket = ADDRMAN_NEW_BUCKET_COUNT := Fintype.card_fin _
  have hbuckets' : Fintype.card TriedBucket = ADDRMAN_TRIED_BUCKET_COUNT := Fintype.card_fin _
  change am.nNew ≤ _ at hnew
  change am.nTried ≤ _ at htried
  rw [← h.lawful.length_newEntries, hbuckets] at hnew
  rw [← h.lawful.length_triedEntries, hbuckets'] at htried
  have hsize : ADDRMAN_NEW_BUCKET_COUNT * ADDRMAN_NEW_BUCKET_SIZE
      + ADDRMAN_TRIED_BUCKET_COUNT * ADDRMAN_TRIED_BUCKET_SIZE < 2 ^ 31 := by decide
  unfold saved
  rw [List.length_append]
  omega

end

/-- The address manager that is read from the file of another one. -/
structure Reloaded (env : AddrEnv) (am am' : CAddrMan) : Prop where
  nKey : am'.nKey = am.nKey
  nIdCount : am'.nIdCount = am.saved.length
  find : ∀ k, am'.mapInfo.find k
    = am.saved[k]?.map fun e => { e.2 with nLastTry := 0, nRandomPos := k }
  mapAddr : ∀ a k, am'.mapAddr a = some k ↔ ∃ e, am.saved[k]? = some e ∧ e.2.toCNetAddr = a
  vRandom : am'.vRandom = List.range am.saved.length
  nTried : am'.nTried = am.nTried
  nNew : am'.nNew = am.nNew
  mem_vvTried : ∀ b k, k ∈ am'.vvTried b ↔ ∃ e, am.saved[k]? = some e ∧ e.2.fInTried = true
    ∧ GetTriedBucket env am.nKey e.2.toCService = b
  vvTried_nodup : ∀ b, (am'.vvTried b).Nodup
  vvTried_length : ∀ b, (am'.vvTried b).length ≤ ADDRMAN_TRIED_BUCKET_SIZE
  vvNew : ∀ b, am'.vvNew b = (am.savedIds b).toFinset

theorem reads_file (h : am.Sound env) (hkey : am.nKey.length ≤ MAX_SIZE) :
    ∃ am', Reads (Unserialize env) am.Serialize am' ∧ Reloaded env am am' := by
  have hlaws := h.lawful
  have hlt := h.length_saved_lt
  have hlen : am.saved.length = am.newEntries.length + am.triedEntries.length := List.length_append
  -- The first loop stores the "new" entries in an empty state with the counts.
  obtain ⟨am₁, hreads₁, hloaded₁, hframe₁⟩ := reads_newEntries env
    ((List.nodup_append.mp (List.map_append ▸ hlaws.saved_addrs_nodup)).1)
    { init am.nKey with nNew := am.newEntries.length, nTried := am.triedEntries.length }
    ⟨fun _ => rfl, by simp [init], rfl⟩
  have hvvTried₁ : am₁.vvTried = fun _ => [] := by rw [hframe₁]; rfl
  have hvvNew₁ : am₁.vvNew = fun _ => ∅ := by rw [hframe₁]; rfl
  have hnKey₁ : am₁.nKey = am.nKey := by rw [hframe₁]; rfl
  have hnNew₁ : am₁.nNew = am.newEntries.length := by rw [hframe₁]
  have hnTried₁ : am₁.nTried = am.triedEntries.length := by rw [hframe₁]
  -- The second one adds the "tried" entries, none of which is lost.
  have hstart : LoadedTried env am.newEntries []
      { am₁ with nIdCount := am.newEntries.length } := by
    constructor
    · rw [List.append_nil]
      exact ⟨hloaded₁.find, hloaded₁.index, hloaded₁.random⟩
    · rfl
    · intro b k
      rw [hvvTried₁, List.append_nil]
      constructor
      · intro hmem
        exact absurd hmem List.not_mem_nil
      · rintro ⟨e, hle, he, -⟩
        have := (List.getElem?_eq_some_iff.mp he).1
        omega
    · intro b
      rw [hvvTried₁]
      exact List.nodup_nil
    · intro b
      rw [hvvTried₁]
      rfl
  obtain ⟨am₃, hreads₃, hloaded₃, hframe₃⟩ := reads_triedEntries env
    hlaws.saved_addrs_nodup (by
      intro b
      rw [hnKey₁]
      exact h.tried_fits b) hstart
  have hvvNew₃ : am₃.vvNew = fun _ => ∅ := by rw [hframe₃, ← hvvNew₁]
  have hnKey₃ : am₃.nKey = am.nKey := by rw [hframe₃, ← hnKey₁]
  have hnNew₃ : am₃.nNew = am.newEntries.length := by rw [hframe₃, ← hnNew₁]
  have hnTried₃ : am₃.nTried = am.triedEntries.length := by rw [hframe₃, ← hnTried₁]
  -- The third one fills the "new" buckets, where no entry counts a place before.
  have hemp : Filled { am₃ with nTried := am₃.nTried - 0 } (fun _ => ∅)
      { am₃ with nTried := am₃.nTried - 0 } := by
    constructor
    · rw [← hvvNew₃]
    · intro k
      have hnone : shelvesOf (fun _ : NewBucket => (∅ : Finset ℕ)) k = ∅ :=
        TierTable.Valid.shelvesOf_eq_empty fun _ => Finset.notMem_empty k
      rw [hloaded₃.loaded.find, hnone, map_map]
      rfl
  obtain ⟨am₅, hreads₅, hfilled⟩ := reads_buckets hemp hlaws.savedIds_nodup
    (by
      intro b k hmem hnone
      obtain ⟨nId, hb, rfl⟩ := mem_savedIds.mp hmem
      obtain ⟨info, hinfo⟩ := hlaws.known nId (.inr ⟨b, hb⟩)
      have hat := hlaws.getElem?_savedIndex hinfo
      unfold saved at hat
      rw [hloaded₃.loaded.find, hat] at hnone
      exact absurd hnone (by simp))
    (by
      intro b k hmem
      obtain ⟨nId, hb, rfl⟩ := mem_savedIds.mp hmem
      obtain ⟨info, hinfo⟩ := hlaws.known nId (.inr ⟨b, hb⟩)
      have := (List.getElem?_eq_some_iff.mp (hlaws.getElem?_savedIndex hinfo)).1
      omega)
    (by
      intro b
      have hcard : (am.savedIds b).length ≤ ADDRMAN_NEW_BUCKET_SIZE := by
        unfold savedIds
        rw [length_map, Finset.length_sort]
        exact h.fits.new b
      exact lt_of_le_of_lt hcard (by decide))
    hlaws.shelves_le
  refine ⟨am₅, ?_, ?_⟩
  · rw [hlaws.serialize_eq]
    apply Reads.bind (Reads.takeNat (show 0 < 256 ^ 1 by norm_num))
    apply Reads.bind (reads_bytes hkey)
    apply Reads.bind (@reads_int 4 (am.newEntries.length : ℤ) (by omega) (by omega))
    apply Reads.bind (@reads_int 4 (am.triedEntries.length : ℤ) (by omega) (by omega))
    apply Reads.bind (@reads_int 4 (ADDRMAN_NEW_BUCKET_COUNT : ℤ) (by decide) (by decide))
    apply Reads.bind hreads₁
    apply Reads.bind hreads₃
    exact hreads₅
  · have hframe₅ := hfilled.frame
    constructor
    · rw [hframe₅, ← hnKey₃]
    · rw [hframe₅, hlen, ← hloaded₃.nIdCount]
    · intro k
      rw [hfilled.find]
      rw [hloaded₃.loaded.find, map_map]
      change (am.saved[k]?).map _ = _
      apply Option.map_congr
      intro e he
      have hrefs := hlaws.card_shelvesOf he
      unfold loadedInfo
      rw [hrefs, ← hlaws.fInTried_iff he]
      rfl
    · intro a k
      rw [hframe₅]
      exact hloaded₃.loaded.index a k
    · rw [hframe₅]
      exact hloaded₃.loaded.random
    · rw [hframe₅]
      rw [hnTried₃, Int.sub_zero]
      exact hlaws.length_triedEntries
    · rw [hframe₅]
      rw [hnNew₃]
      exact hlaws.length_newEntries
    · intro b k
      rw [hframe₅]
      rw [hloaded₃.mem, hnKey₃]
      constructor
      · rintro ⟨e, hle, he, hhome⟩
        exact ⟨e, he, (hlaws.fInTried_iff he).trans (decide_eq_true hle), hhome⟩
      · rintro ⟨e, he, htried, hhome⟩
        rw [hlaws.fInTried_iff he] at htried
        exact ⟨e, of_decide_eq_true htried, he, hhome⟩
    · intro b
      rw [hframe₅]
      exact hloaded₃.nodup b
    · intro b
      rw [hframe₅]
      rw [hloaded₃.length, hnKey₃]
      exact h.tried_fits b
    · intro b
      rw [hframe₅]

section

variable {am' : CAddrMan}

variable (h : Reloaded env am am')
include h

/-- What is loaded is what was saved, under other numbers. -/
theorem Reloaded.renumbers (hlaws : am.Lawful) (hsound : am.Sound env) :
    TierTable.Renumbers (addrRules env am.nKey) am.savedIndex (fun r => { r with nLastTry := 0 })
      am.tables am'.tables := by
  constructor
  case key => exact fun _ => rfl
  case home => exact fun _ => rfl
  case injective =>
    intro id id' e e' he he' heq
    obtain ⟨info, hinfo, -⟩ := exists_info he
    obtain ⟨info', hinfo', -⟩ := exists_info he'
    exact hlaws.savedIndex_inj hinfo hinfo' heq
  case known =>
    intro id e he
    obtain ⟨info, hinfo, -⟩ := exists_info he
    have hlt := (List.getElem?_eq_some_iff.mp (hlaws.getElem?_savedIndex hinfo)).1
    rw [← h.nIdCount] at hlt
    exact hlt
  case entry =>
    intro k e'
    change (am'.mapInfo.find k).map CAddrInfo.tierEntry = some e' ↔ _
    rw [h.find]
    constructor
    · intro he'
      obtain ⟨info', hinfo', rfl⟩ := Option.map_eq_some_iff.mp he'
      obtain ⟨e, he, rfl⟩ := Option.map_eq_some_iff.mp hinfo'
      have hinfo := hlaws.mem_saved.mp (List.mem_of_getElem? he)
      exact ⟨e.1, e.2.tierEntry, entry_eq_some hinfo, hlaws.savedIndex_eq he, rfl⟩
    · rintro ⟨id, e, he, rfl, rfl⟩
      obtain ⟨info, hinfo, rfl⟩ := exists_info he
      rw [hlaws.getElem?_savedIndex hinfo]
      rfl
  case index =>
    intro a k
    change am'.mapAddr a = some k ↔ ∃ id, am.mapAddr a = some id ∧ _
    rw [h.mapAddr]
    constructor
    · rintro ⟨e, he, hkey⟩
      have hinfo := hlaws.mem_saved.mp (List.mem_of_getElem? he)
      exact ⟨e.1, (hlaws.mapAddr a e.1).mpr ⟨e.2, hinfo, hkey⟩, hlaws.savedIndex_eq he⟩
    · rintro ⟨id, hid, rfl⟩
      obtain ⟨info, hinfo, hkey⟩ := (hlaws.mapAddr a id).mp hid
      exact ⟨_, hlaws.getElem?_savedIndex hinfo, hkey⟩
  case settled =>
    intro b k
    change k ∈ (am'.vvTried b).toFinset ↔ _
    rw [List.mem_toFinset, h.mem_vvTried]
    constructor
    · rintro ⟨e, he, htried, hhome⟩
      have hinfo := hlaws.mem_saved.mp (List.mem_of_getElem? he)
      exact ⟨e.1, (hsound.consistent.valid.mem_settled b e.1).mpr
        ⟨_, entry_eq_some hinfo, htried, hhome⟩, hlaws.savedIndex_eq he⟩
    · rintro ⟨id, hid, rfl⟩
      obtain ⟨e, he, htried, hhome⟩ := (hsound.consistent.valid.mem_settled b id).mp hid
      obtain ⟨info, hinfo, rfl⟩ := exists_info he
      exact ⟨_, hlaws.getElem?_savedIndex hinfo, htried, hhome⟩
  case pending =>
    intro b k
    change k ∈ am'.vvNew b ↔ _
    rw [h.vvNew, List.mem_toFinset]
    exact mem_savedIds
  case nSettled => exact h.nTried
  case nPending => exact h.nNew

theorem Reloaded.ordered : am'.Ordered := by
  constructor
  · intro i k
    unfold position
    rw [h.vRandom, h.find, map_map]
    by_cases hk : k < am.saved.length
    · rw [List.getElem?_eq_getElem hk]
      constructor
      · intro hi
        obtain ⟨hlt, hval⟩ := List.getElem?_eq_some_iff.mp hi
        rw [List.getElem_range] at hval
        rw [hval]
        rfl
      · intro hi
        have hik : k = i := some.inj hi
        rw [← hik, List.getElem?_range hk]
    · rw [List.getElem?_eq_none (not_lt.mp hk)]
      constructor
      · intro hi
        have hmem := List.mem_range.mp (List.mem_of_getElem? hi)
        omega
      · intro hi
        exact absurd hi (by simp)
  · intro k info hinfo
    rw [h.find] at hinfo
    obtain ⟨e, -, rfl⟩ := Option.map_eq_some_iff.mp hinfo
    exact Int.natCast_nonneg k

theorem Reloaded.sound (hsound : am.Sound env) : am'.Sound env := by
  have hvalid := (h.renumbers hsound.lawful hsound).valid hsound.consistent.valid
  constructor
  · refine ⟨?_, h.vvTried_nodup, h.ordered⟩
    rw [h.nKey]
    exact hvalid
  · refine ⟨h.vvTried_length, ?_⟩
    intro b
    rw [h.vvNew]
    apply (List.toFinset_card_le _).trans
    unfold savedIds
    rw [length_map, Finset.length_sort]
    exact hsound.fits.new b

theorem Reloaded.dated (hsound : am.Sound env) (hdated : am.tables.All dated) :
    am'.tables.All dated := by
  apply (h.renumbers hsound.lawful hsound).all hdated
  rintro r tier ⟨-, hsuccess, htried⟩
  exact ⟨le_refl _, hsuccess, htried⟩

end

/-- What the file keeps of an entry: everything but its last try and its position. -/
def kept (e : ℕ × CAddrInfo) : CAddrInfo := { e.2 with nLastTry := 0, nRandomPos := 0 }

/-- Two address managers know the same addresses, with the same tables, reference counts and
statistics. -/
def SameBook (am am' : CAddrMan) : Prop := ∀ addr, (am'.Find addr).map kept = (am.Find addr).map kept

theorem Reloaded.sameBook {am' : CAddrMan} (h : Reloaded env am am') (hlaws : am.Lawful) :
    SameBook am am' := by
  intro addr
  unfold Find
  cases hid : am.mapAddr addr with
  | none =>
    cases hk : am'.mapAddr addr with
    | none => rfl
    | some k =>
      -- An address that is read was written.
      obtain ⟨e, he, hkey⟩ := (h.mapAddr addr k).mp hk
      have hinfo := hlaws.mem_saved.mp (List.mem_of_getElem? he)
      have hsome := (hlaws.mapAddr addr e.1).mpr ⟨e.2, hinfo, hkey⟩
      rw [hid] at hsome
      exact absurd hsome (by simp)
  | some id =>
    obtain ⟨info, hinfo, hkey⟩ := (hlaws.mapAddr addr id).mp hid
    have hat := hlaws.getElem?_savedIndex hinfo
    have hk : am'.mapAddr addr = some (am.savedIndex id) := (h.mapAddr addr _).mpr ⟨_, hat, hkey⟩
    have hfind := h.find (am.savedIndex id)
    rw [hat] at hfind
    rw [hk]
    dsimp only [Option.bind_eq_bind, Option.bind_some]
    rw [hfind, hinfo]
    rfl

/-- For every sequence of calls on an address manager that was empty, whatever is drawn and whatever
the hashes are, the laws hold afterwards, and the consistency check finds no error when the times that
were passed in are in order. Saving and reading the state gives one with the laws again, which has the
same addresses in the same tables with the same reference counts. -/
theorem run_lawful (env : AddrEnv) (nKey : { bytes : List UInt8 // bytes.length = 32 })
    (calls : List (AddrCall × AddrChance)) :
    ∃ am, (init nKey.val).run env calls = some am
      ∧ am.Lawful ∧ ((∀ c ∈ calls, c.1.Timely) → am.Check_ = 0)
      ∧ ∃ am', (Unserialize env).run am.Serialize = some (am', [])
        ∧ am'.Lawful ∧ ((∀ c ∈ calls, c.1.Timely) → am'.Check_ = 0) ∧ SameBook am am' := by
  obtain ⟨am, hrun, hkeeps⟩ := keeps_run (sound_init env nKey.val) calls
  have hsound := hkeeps.sound
  have hdated : (∀ c ∈ calls, c.1.Timely) → am.tables.All dated := by
    intro htimely
    apply hkeeps.dated htimely
    intro id e he
    exact absurd he (by simp [tables, init])
  have hkey : am.nKey.length ≤ MAX_SIZE := by
    rw [hkeeps.nKey]
    change nKey.val.length ≤ MAX_SIZE
    rw [nKey.property]
    decide
  obtain ⟨am', hreads, hreloaded⟩ := reads_file hsound hkey
  have hsound' := hreloaded.sound hsound
  refine ⟨am, hrun, hsound.lawful, ?_, am', hreads.run, hsound'.lawful, ?_,
    hreloaded.sameBook hsound.lawful⟩
  · intro htimely
    exact hsound.check_eq_zero (hdated htimely)
  · intro htimely
    exact hsound'.check_eq_zero (hreloaded.dated hsound (hdated htimely))

def exampleAddress : CAddress where
  ip := pchIPv4 ++ [8, 8, 8, 8]
  length_ip := rfl
  port := 20740
  nServices := 1
  nTime := 1000
  nLastTry := 0

def exampleCalls (nTime : Int64) : List (AddrCall × AddrChance) :=
  [(.Add exampleAddress exampleAddress.toCNetAddr 0, ⟨1000, fun _ => 0⟩),
    (.Good exampleAddress.toCService nTime, ⟨1000, fun _ => 0⟩)]

def exampleKey : { bytes : List UInt8 // bytes.length = 32 } := ⟨List.replicate 32 0, rfl⟩

/-- At the time one the check finds no error. -/
theorem run_lawful_at_one :
    ∃ am, (init exampleKey.val).run ⟨fun _ => 0⟩ (exampleCalls 1) = some am ∧ am.Check_ = 0 := by
  obtain ⟨am, hrun, -, hcheck, -⟩ := run_lawful ⟨fun _ => 0⟩ exampleKey (exampleCalls 1)
  refine ⟨am, hrun, hcheck ?_⟩
  intro c hc
  rcases List.mem_pair.mp hc with rfl | rfl
  · exact trivial
  · exact (by decide : (0 : ℤ) < (1 : Int64).toInt)

/-- At the time zero it finds a tried entry without a success. -/
theorem check_fails_at_zero :
    ((init exampleKey.val).run ⟨fun _ => 0⟩ (exampleCalls 0)).map Check_ = some (-1) := by
  decide

end CAddrMan

end ZalemCoin.Network
