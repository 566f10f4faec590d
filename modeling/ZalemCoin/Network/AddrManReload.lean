import ZalemCoin.Network.AddrManCheck
import ZalemCoin.Network.AddrManFile

/-!
# Reading the file of the address manager

The three loops of `Unserialize` over the bytes that `Serialize` wrote: the first stores the "new"
entries under the numbers from zero on, the second the "tried" ones after them, each in the bucket of
its hash, in which there was room before, and the third puts the "new" entries in their buckets again
and counts their places.
-/

namespace ZalemCoin.Network

open Lib Storage
open Function (update update_apply update_self)
open CAddrInfo (GetTriedBucket GetNewBucket)
open TierTable (shelvesOf mem_shelvesOf)

namespace CAddrMan

/-- The entry with number `k` after reading, when the first `nNew` are "new" ones. -/
def loadedInfo (nNew k : ℕ) (e : ℕ × CAddrInfo) : CAddrInfo :=
  { e.2.toCAddrRecord.unsaved with nRandomPos := k, fInTried := decide (nNew ≤ k) }

/-- These entries have been read, and have their indices for numbers. -/
structure Loaded (nNew : ℕ) (entries : List (ℕ × CAddrInfo)) (am : CAddrMan) : Prop where
  find : ∀ k, am.mapInfo.find k = entries[k]?.map (loadedInfo nNew k)
  index : ∀ a k, am.mapAddr a = some k ↔ ∃ e, entries[k]? = some e ∧ e.2.toCNetAddr = a
  random : am.vRandom = List.range entries.length

variable {am am₀ : CAddrMan} {e : ℕ × CAddrInfo} {news : List (ℕ × CAddrInfo)}
  {vvNew : NewBucket → Finset ℕ} {b : NewBucket}

/-- The next "new" entry is loaded under the next number. -/
theorem Loaded.push {nNew : ℕ} {entries : List (ℕ × CAddrInfo)} {am' : CAddrMan}
    (h : Loaded nNew entries am) (hnew : ∀ e' ∈ entries, e'.2.toCNetAddr ≠ e.2.toCNetAddr)
    (hinfo : am'.mapInfo = am.mapInfo.insert entries.length (loadedInfo nNew entries.length e))
    (haddr : am'.mapAddr = update am.mapAddr e.2.toCNetAddr (some entries.length))
    (hrandom : am'.vRandom = am.vRandom ++ [entries.length]) :
    Loaded nNew (entries ++ [e]) am' := by
  have hget : ∀ k, (entries ++ [e])[k]? = if k = entries.length then some e else entries[k]? := by
    intro k
    rw [List.getElem?_append]
    split
    · rw [if_neg (by omega)]
    · rw [List.getElem?_singleton]
      by_cases hk : k = entries.length
      · rw [if_pos (by omega), if_pos hk]
      · rw [if_neg (by omega), if_neg hk, List.getElem?_eq_none (by omega)]
  constructor
  · intro k
    rw [hinfo, SortedMap.find_insert, hget]
    split
    · rename_i hk
      rw [hk]
      rfl
    · exact h.find k
  · intro a k
    rw [haddr, update_apply, hget]
    by_cases ha : a = e.2.toCNetAddr
    · rw [if_pos ha]
      constructor
      · intro hk
        refine ⟨e, ?_, ha.symm⟩
        rw [if_pos (Option.some.inj hk).symm]
      · rintro ⟨e', he', hkey⟩
        split at he'
        · rename_i hk
          rw [hk]
        · exact absurd (hkey.trans ha) (hnew e' (List.mem_of_getElem? he'))
    · rw [if_neg ha, h.index]
      constructor
      · rintro ⟨e', he', hkey⟩
        have hlt := (List.getElem?_eq_some_iff.mp he').1
        exact ⟨e', by rw [if_neg (by omega)]; exact he', hkey⟩
      · rintro ⟨e', he', hkey⟩
        split at he'
        · rw [← Option.some.inj he'] at hkey
          exact absurd hkey.symm ha
        · exact ⟨e', he', hkey⟩
  · rw [hrandom, h.random, List.length_append, List.length_singleton, List.range_succ]

theorem reads_newEntries (env : AddrEnv) (hdist : (news.map fun e => e.2.toCNetAddr).Nodup)
    (am : CAddrMan) (hemp : Loaded news.length [] am) :
    ∃ am', Reads (Reader.loop (fun n am => loadNew env ADDRMAN_NEW_BUCKET_COUNT n am <$> readInfo) 0
        news.length am) (news.flatMap fun e => writeInfo e.2.toCAddrRecord) am'
      ∧ Loaded news.length news am'
      ∧ am' = { am with
          mapInfo := am'.mapInfo, mapAddr := am'.mapAddr, vRandom := am'.vRandom } := by
  apply @Reads.loop _ _ _ (fun e : ℕ × CAddrInfo => writeInfo e.2.toCAddrRecord)
    (fun done s => Loaded news.length done s
      ∧ s = { am with mapInfo := s.mapInfo, mapAddr := s.mapAddr, vRandom := s.vRandom })
  · rintro done e rest hnews s ⟨hloaded, hframe⟩
    refine ⟨_, (reads_info e.2.toCAddrRecord).map _, ?_, ?_⟩
    · unfold loadNew
      rw [if_neg (not_not.mpr rfl)]
      apply hloaded.push
      · intro e' he' heq
        rw [hnews, List.map_append, List.map_cons] at hdist
        have hnot := (List.nodup_middle.mp hdist).notMem
        apply hnot
        rw [← heq]
        exact List.mem_append_left _ (List.mem_map_of_mem he')
      · have hflag : decide (news.length ≤ done.length) = false := by
          apply decide_eq_false
          have := congrArg List.length hnews
          rw [List.length_append, List.length_cons] at this
          omega
        unfold loadedInfo
        rw [hflag, hloaded.random, List.length_range]
        rfl
      · rfl
      · rfl
    · unfold loadNew
      rw [if_neg (not_not.mpr rfl)]
      conv_lhs => rw [hframe]
  · exact ⟨hemp, rfl⟩

/-- The state of the second loop: the "tried" entries that have been read are in the buckets of their
hashes, each of which has one element for each of them. -/
structure LoadedTried (env : AddrEnv) (news done : List (ℕ × CAddrInfo)) (am : CAddrMan) :
    Prop where
  loaded : Loaded news.length (news ++ done) am
  nIdCount : am.nIdCount = news.length + done.length
  mem : ∀ b k, k ∈ am.vvTried b ↔
    ∃ e, news.length ≤ k ∧ (news ++ done)[k]? = some e
      ∧ GetTriedBucket env am.nKey e.2.toCService = b
  nodup : ∀ b, (am.vvTried b).Nodup
  length : ∀ b, (am.vvTried b).length
    = (done.filter fun e => decide (GetTriedBucket env am.nKey e.2.toCService = b)).length

/-- A saved "tried" entry whose bucket has room is loaded next. -/
theorem LoadedTried.push {env : AddrEnv} {done : List (ℕ × CAddrInfo)}
    (h : LoadedTried env news done am)
    (hnew : ∀ e' ∈ news ++ done, e'.2.toCNetAddr ≠ e.2.toCNetAddr)
    (hroom : (done.filter fun e' => decide (GetTriedBucket env am.nKey e'.2.toCService
      = GetTriedBucket env am.nKey e.2.toCService)).length < ADDRMAN_TRIED_BUCKET_SIZE) :
    ∃ am', loadTried env (am, 0) e.2.toCAddrRecord.unsaved = (am', 0)
      ∧ LoadedTried env news (done ++ [e]) am'
      ∧ am' = { am with
          mapInfo := am'.mapInfo, mapAddr := am'.mapAddr, vRandom := am'.vRandom
          vvTried := am'.vvTried, nIdCount := am'.nIdCount } := by
  obtain ⟨b, hb⟩ : ∃ b, GetTriedBucket env am.nKey e.2.toCService = b := ⟨_, rfl⟩
  have hlast : (news ++ done).length = am.nIdCount := by
    rw [h.nIdCount, List.length_append]
  have hfresh : am.nIdCount ∉ am.vvTried b := by
    intro hmem
    obtain ⟨e', -, he', -⟩ := (h.mem b am.nIdCount).mp hmem
    have hlt := (List.getElem?_eq_some_iff.mp he').1
    omega
  have hload : loadTried env (am, 0) e.2.toCAddrRecord.unsaved
      = ({ am with
          vRandom := am.vRandom ++ [am.nIdCount]
          mapInfo := am.mapInfo.insert am.nIdCount
            { e.2.toCAddrRecord.unsaved with nRandomPos := am.vRandom.length, fInTried := true }
          mapAddr := update am.mapAddr e.2.toCNetAddr (some am.nIdCount)
          vvTried := update am.vvTried b (am.vvTried b ++ [am.nIdCount])
          nIdCount := am.nIdCount + 1 }, 0) := by
    unfold loadTried
    dsimp only
    rw [show GetTriedBucket env am.nKey e.2.toCAddrRecord.unsaved.toCService = b from hb,
      if_pos (by rw [h.length, ← hb]; exact hroom)]
    rfl
  refine ⟨_, hload, ?_, rfl⟩
  constructor
  · rw [← List.append_assoc]
    apply h.loaded.push hnew
    · have hflag : decide (news.length ≤ (news ++ done).length) = true := by
        apply decide_eq_true
        rw [List.length_append]
        omega
      unfold loadedInfo
      rw [hflag, h.loaded.random, List.length_range, hlast]
    · dsimp only
      rw [hlast]
    · dsimp only
      rw [hlast]
  · dsimp only
    rw [h.nIdCount, List.length_append, List.length_singleton]
    omega
  · intro b' k
    have hget : (news ++ (done ++ [e]))[k]?
        = if k = am.nIdCount then some e else (news ++ done)[k]? := by
      rw [← List.append_assoc, List.getElem?_append]
      split
      · rw [if_neg (by omega)]
      · rw [List.getElem?_singleton]
        by_cases hk : k = am.nIdCount
        · rw [if_pos (by omega), if_pos hk]
        · rw [if_neg (by omega), if_neg hk, List.getElem?_eq_none (by omega)]
    have hstep : k ∈ update am.vvTried b (am.vvTried b ++ [am.nIdCount]) b'
        ↔ k ∈ am.vvTried b' ∨ b' = b ∧ k = am.nIdCount := by
      rw [update_apply]
      split
      · rename_i heq
        simp [heq]
      · rename_i hne
        simp [hne]
    rw [hstep, h.mem, hget]
    constructor
    · rintro (⟨e', hle, he', hhome⟩ | ⟨rfl, rfl⟩)
      · have hlt := (List.getElem?_eq_some_iff.mp he').1
        exact ⟨e', hle, by rw [if_neg (by omega)]; exact he', hhome⟩
      · refine ⟨e, ?_, if_pos rfl, hb⟩
        rw [h.nIdCount]
        omega
    · rintro ⟨e', hle, he', hhome⟩
      split at he'
      · rename_i hk
        rw [← Option.some.inj he', hb] at hhome
        exact .inr ⟨hhome.symm, hk⟩
      · exact .inl ⟨e', hle, he', hhome⟩
  · intro b'
    dsimp only
    rw [update_apply]
    split
    · apply List.nodup_append.mpr
      refine ⟨h.nodup b, List.nodup_singleton _, ?_⟩
      intro x hx y hy heq
      rw [List.mem_singleton.mp hy] at heq
      exact hfresh (heq ▸ hx)
    · exact h.nodup b'
  · intro b'
    dsimp only
    rw [update_apply, List.filter_append, List.length_append]
    split
    · rename_i heq
      rw [heq, List.length_append, h.length, List.length_singleton,
        List.filter_cons_of_pos (by simpa using hb)]
      rfl
    · rename_i hne
      rw [h.length, List.filter_cons_of_neg (by simpa [hb] using Ne.symm hne)]
      rfl

/-- All "tried" entries are loaded when no bucket has too many. -/
theorem reads_triedEntries (env : AddrEnv) {trieds : List (ℕ × CAddrInfo)}
    (hdist : ((news ++ trieds).map fun e => e.2.toCNetAddr).Nodup)
    (hfits : ∀ b, (trieds.filter fun e => decide (GetTriedBucket env am.nKey e.2.toCService = b)).length
      ≤ ADDRMAN_TRIED_BUCKET_SIZE)
    (hstart : LoadedTried env news [] am) :
    ∃ am', Reads (Reader.loop (fun _ st => loadTried env st <$> readInfo) 0 trieds.length (am, 0))
        (trieds.flatMap fun e => writeInfo e.2.toCAddrRecord) (am', 0)
      ∧ LoadedTried env news trieds am'
      ∧ am' = { am with
          mapInfo := am'.mapInfo, mapAddr := am'.mapAddr, vRandom := am'.vRandom
          vvTried := am'.vvTried, nIdCount := am'.nIdCount } := by
  obtain ⟨⟨am', nLost⟩, hreads, hloaded, hframe, hzero⟩ := @Reads.loop _ _
    (fun _ st => loadTried env st <$> readInfo)
    (fun e : ℕ × CAddrInfo => writeInfo e.2.toCAddrRecord)
    (fun done st => LoadedTried env news done st.1
      ∧ st.1 = { am with
          mapInfo := st.1.mapInfo, mapAddr := st.1.mapAddr, vRandom := st.1.vRandom
          vvTried := st.1.vvTried, nIdCount := st.1.nIdCount }
      ∧ st.2 = 0) trieds (by
    rintro done e rest htrieds ⟨s, nLost⟩ ⟨hloaded, hframe, hzero⟩
    dsimp only at hloaded hframe hzero
    have hkey : s.nKey = am.nKey := by rw [hframe]
    have hnew : ∀ e' ∈ news ++ done, e'.2.toCNetAddr ≠ e.2.toCNetAddr := by
      intro e' he' heq
      rw [htrieds, ← List.append_assoc, List.map_append, List.map_cons] at hdist
      have hnot := (List.nodup_middle.mp hdist).notMem
      apply hnot
      rw [← heq]
      exact List.mem_append_left _ (List.mem_map_of_mem he')
    have hroom : (done.filter fun e' => decide (GetTriedBucket env s.nKey e'.2.toCService
        = GetTriedBucket env s.nKey e.2.toCService)).length < ADDRMAN_TRIED_BUCKET_SIZE := by
      have hall := hfits (GetTriedBucket env am.nKey e.2.toCService)
      rw [htrieds, List.filter_append, List.filter_cons_of_pos (by simp), List.length_append,
        List.length_cons] at hall
      rw [hkey]
      omega
    obtain ⟨s', hload, hpush, hframe'⟩ := hloaded.push hnew hroom
    refine ⟨(s', 0), ?_, hpush, ?_, rfl⟩
    · rw [hzero, ← hload]
      exact (reads_info e.2.toCAddrRecord).map _
    · conv_lhs => rw [hframe', hframe]) (am, 0) ⟨hstart, rfl, rfl⟩
  dsimp only at hloaded hframe hzero
  rw [hzero] at hreads
  exact ⟨am', hreads, hloaded, hframe⟩

/-- The state of the third loop: the "new" buckets are filled so far, and the entries count them. -/
structure Filled (am₀ : CAddrMan) (vvNew : NewBucket → Finset ℕ) (am : CAddrMan) : Prop where
  frame : am = { am₀ with mapInfo := am.mapInfo, vvNew := vvNew }
  find : ∀ k, am.mapInfo.find k = (am₀.mapInfo.find k).map fun info =>
    { info with nRefCount := (TierTable.shelvesOf vvNew k).card }

theorem Filled.loadIndex (h : Filled am₀ vvNew am) {k : ℕ} (hk : am₀.mapInfo.find k ≠ none)
    (hnot : k ∉ vvNew b)
    (hroom : ((shelvesOf vvNew k).card : ℤ) < ADDRMAN_NEW_BUCKETS_PER_ADDRESS) :
    Filled am₀ (update vvNew b (insert k (vvNew b)))
      (CAddrMan.loadIndex ADDRMAN_NEW_BUCKET_COUNT b am k) := by
  obtain ⟨info, hinfo⟩ := Option.ne_none_iff_exists'.mp hk
  have hfind : am.mapInfo.find k
      = some { info with nRefCount := (shelvesOf vvNew k).card } := by
    rw [h.find, hinfo]
    rfl
  have hcard : (shelvesOf (update vvNew b (insert k (vvNew b))) k).card
      = (shelvesOf vvNew k).card + 1 := by
    rw [TierTable.shelvesOf_insert_self, Finset.card_insert_of_notMem]
    rwa [mem_shelvesOf]
  unfold CAddrMan.loadIndex
  rw [hfind]
  rw [if_pos ⟨rfl, hroom⟩]
  constructor
  · dsimp only
    conv_lhs => rw [h.frame]
  · intro k'
    rw [SortedMap.find_insert]
    split
    · rename_i heq
      rw [heq, hinfo, hcard]
      push_cast
      rfl
    · rename_i hne
      rw [h.find, TierTable.shelvesOf_insert_of_ne _ _ hne]

/-- A bucket that is read gets the entries that were written for it. -/
theorem reads_bucket (h : Filled am₀ vvNew am) (hb : vvNew b = ∅) {ids : List ℕ} (hids : ids.Nodup)
    (hknown : ∀ k ∈ ids, am₀.mapInfo.find k ≠ none) (hsmall : ∀ k ∈ ids, k < 2 ^ 31)
    (hlen : ids.length < 2 ^ 31)
    (hroom : ∀ k ∈ ids, ((shelvesOf vvNew k).card : ℤ) < ADDRMAN_NEW_BUCKETS_PER_ADDRESS) :
    ∃ am', Reads (readBucket ADDRMAN_NEW_BUCKET_COUNT b am)
        (writeInt 4 ids.length ++ ids.flatMap fun k : ℕ => writeInt 4 k) am'
      ∧ Filled am₀ (update vvNew b ids.toFinset) am' := by
  obtain ⟨am', hreads, hfilled⟩ := @Reads.loop _ _
    (fun _ am => (fun nIndex : ℤ => CAddrMan.loadIndex ADDRMAN_NEW_BUCKET_COUNT b am nIndex.toNat)
      <$> readInt 4)
    (fun k : ℕ => writeInt 4 k)
    (fun done s => Filled am₀ (update vvNew b done.toFinset) s) ids (by
      intro done k rest hdone s hs
      have hin : k ∈ ids := by
        rw [hdone]
        exact List.mem_append_right _ List.mem_cons_self
      have hnot : k ∉ done := by
        rw [hdone] at hids
        exact fun hmem => (List.nodup_middle.mp hids).notMem (List.mem_append_left _ hmem)
      have hshelves : shelvesOf (update vvNew b done.toFinset) k
          = shelvesOf vvNew k := by
        ext b'
        rw [mem_shelvesOf, mem_shelvesOf, update_apply]
        split
        · rename_i heq
          rw [heq, hb, List.mem_toFinset]
          exact iff_of_false hnot (Finset.notMem_empty k)
        · rfl
      have hsmallK := hsmall k hin
      have hstep := hs.loadIndex (b := b) (hknown k hin)
        (by rwa [update_self, List.mem_toFinset]) (by
          rw [hshelves]
          exact hroom k hin)
      rw [update_self, Function.update_idem] at hstep
      have hread := (@reads_int 4 (k : ℤ) (by omega) (by norm_num; omega)).map
        fun nIndex : ℤ => CAddrMan.loadIndex ADDRMAN_NEW_BUCKET_COUNT b s nIndex.toNat
      rw [Int.toNat_natCast] at hread
      refine ⟨_, hread, ?_⟩
      have hinsert : (done ++ [k]).toFinset = insert k done.toFinset := by
        ext x
        simp
      rw [hinsert]
      exact hstep) am (by
      rw [List.toFinset_nil, ← hb, Function.update_eq_self]
      exact h)
  refine ⟨am', ?_, hfilled⟩
  unfold readBucket
  rw [dif_pos b.isLt]
  apply Reads.bind (@reads_int 4 (ids.length : ℤ) (by omega) (by norm_num; omega))
  rw [Int.toNat_natCast]
  exact hreads

theorem reads_buckets (hemp : Filled am₀ (fun _ => ∅) am₀) {ids : NewBucket → List ℕ}
    (hids : ∀ b, (ids b).Nodup) (hknown : ∀ b, ∀ k ∈ ids b, am₀.mapInfo.find k ≠ none)
    (hsmall : ∀ b, ∀ k ∈ ids b, k < 2 ^ 31) (hlen : ∀ b, (ids b).length < 2 ^ 31)
    (hroom : ∀ k, ((shelvesOf (fun b => (ids b).toFinset) k).card : ℤ) ≤ ADDRMAN_NEW_BUCKETS_PER_ADDRESS) :
    ∃ am', Reads (Reader.loop (readBucket ADDRMAN_NEW_BUCKET_COUNT) 0 ADDRMAN_NEW_BUCKET_COUNT am₀)
        ((List.finRange ADDRMAN_NEW_BUCKET_COUNT).flatMap fun b =>
          writeInt 4 (ids b).length ++ (ids b).flatMap fun k : ℕ => writeInt 4 k) am'
      ∧ Filled am₀ (fun b => (ids b).toFinset) am' := by
  obtain ⟨am', hreads, hfilled⟩ := @Reads.loop _ _ (readBucket ADDRMAN_NEW_BUCKET_COUNT)
    (fun b : NewBucket => writeInt 4 (ids b).length ++ (ids b).flatMap fun k : ℕ => writeInt 4 k)
    (fun done s => Filled am₀ (fun b => if b ∈ done then (ids b).toFinset else ∅) s)
    (List.finRange ADDRMAN_NEW_BUCKET_COUNT) (by
      intro done b rest hdone s hs
      -- The loop counts the buckets.
      have hb : b.val = done.length := by
        have hget : (List.finRange ADDRMAN_NEW_BUCKET_COUNT)[done.length]? = some b := by
          rw [hdone, List.getElem?_append_right (le_refl _), Nat.sub_self, List.getElem?_cons_zero]
        obtain ⟨hlt, hval⟩ := List.getElem?_eq_some_iff.mp hget
        rw [← hval, List.getElem_finRange]
        rfl
      have hnot : b ∉ done := by
        have hnd := List.nodup_finRange ADDRMAN_NEW_BUCKET_COUNT
        rw [hdone] at hnd
        exact fun hmem => (List.nodup_middle.mp hnd).notMem (List.mem_append_left _ hmem)
      obtain ⟨s', hread, hs'⟩ := reads_bucket hs (b := b) (if_neg hnot) (hids b) (hknown b)
        (hsmall b) (hlen b) (by
          intro k hk
          apply lt_of_lt_of_le _ (hroom k)
          apply Int.ofNat_lt.mpr
          apply Finset.card_lt_card
          refine Finset.ssubset_iff_subset_ne.mpr ⟨?_, ?_⟩
          · intro b' hb'
            rw [mem_shelvesOf] at hb' ⊢
            split at hb'
            · exact hb'
            · exact absurd hb' (Finset.notMem_empty k)
          · intro heq
            have hin : b ∈ shelvesOf (fun b => (ids b).toFinset) k := by
              rw [mem_shelvesOf, List.mem_toFinset]
              exact hk
            rw [← heq, mem_shelvesOf, if_neg hnot] at hin
            exact Finset.notMem_empty k hin)
      refine ⟨s', hb ▸ hread, ?_⟩
      have hupdate : update (fun b => if b ∈ done then (ids b).toFinset else ∅) b
          (ids b).toFinset = fun b' => if b' ∈ done ++ [b] then (ids b').toFinset else ∅ := by
        funext b'
        rw [update_apply]
        by_cases hb' : b' = b
        · subst hb'
          simp
        · simp [hb']
      rw [← hupdate]
      exact hs') am₀ (by simpa using hemp)
  refine ⟨am', ?_, ?_⟩
  · rwa [List.length_finRange] at hreads
  · simpa using hfilled

end CAddrMan

end ZalemCoin.Network
