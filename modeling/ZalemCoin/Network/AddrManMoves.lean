import ZalemCoin.Network.AddrManTables

/-!
# Moves between the tables of the address manager

`addToNew` gives an entry a place in a "new" bucket, from which another entry may have to go first.
`MakeTried` takes an entry out of all its "new" buckets and puts it in its "tried" bucket; when that
is full, an entry of it goes back to a "new" bucket in which there is a place. Both keep the tables
consistent and the buckets within their sizes.
-/

namespace ZalemCoin.Network

open Lib Storage
open Function (update update_apply update_comm update_idem update_of_ne update_self)
open CAddrInfo (GetTriedBucket GetNewBucket)
open Option (bind_eq_bind bind_some some.inj)

namespace CAddrMan

variable {env : AddrEnv} {am : CAddrMan} {nId : ℕ} {info : CAddrInfo} {k : TriedBucket}

theorem Consistent.shelve (h : am.Consistent env (some nId)) {e : TierEntry CAddrRecord}
    (he : am.tables.entry nId = some e) (hpend : e.settled = false) {b : NewBucket}
    (hb : nId ∉ am.vvNew b) :
    Consistent env none
      { am with vvNew := update am.vvNew b (insert nId (am.vvNew b)) } := by
  refine ⟨?_, h.nodup, h.ordered.congr rfl rfl⟩
  exact h.valid.shelve he hpend hb

/-- An entry that is owed a "new" bucket gets it, and the tables are consistent again. -/
theorem addToNew_spec (hinfo : am.mapInfo.find nId = some info) (hnew : info.fInTried = false)
    (h : (am.modifyInfo nId fun info =>
      { info with nRefCount := info.nRefCount + 1 }).Consistent env (some nId)) (hfits : am.Fits)
    (nNow : Int64) (draws : ℕ → ℕ) {addr source : CNetAddr}
    (hnot : nId ∉ am.vvNew (GetNewBucket env am.nKey addr source)) :
    ∃ am', am.addToNew env nNow draws nId addr source = some am' ∧ am'.Consistent env none
      ∧ am'.Fits ∧ am'.nKey = am.nKey
      ∧ ∀ P, am.tables.All P → am'.tables.All P := by
  obtain ⟨b, hbucket⟩ : ∃ b, GetNewBucket env am.nKey addr source = b := ⟨_, rfl⟩
  obtain ⟨am₁, ham₁⟩ : ∃ am₁, (am.modifyInfo nId fun info =>
      { info with nRefCount := info.nRefCount + 1 }) = am₁ := ⟨_, rfl⟩
  rw [hbucket] at hnot
  rw [ham₁] at h
  have howe : am₁.tables = am.tables.owe nId := by
    rw [← ham₁]
    exact tables_modifyInfo fun _ => rfl
  have hent : am₁.tables.entry nId = some ⟨info.toCAddrRecord, false, info.nRefCount + 1⟩ := by
    rw [howe]
    change update am.tables.entry nId _ nId = _
    rw [update_self, entry_eq_some hinfo]
    change some (TierEntry.mk info.toCAddrRecord info.fInTried _) = _
    rw [hnew]
    rfl
  have hvvNew : am₁.vvNew = am.vvNew := by
    rw [← ham₁]
    rfl
  have hvvTried : am₁.vvTried = am.vvTried := by
    rw [← ham₁]
    rfl
  have hnKey : am₁.nKey = am.nKey := by
    rw [← ham₁]
    rfl
  unfold addToNew
  rw [hbucket, if_neg hnot, ham₁]
  by_cases hfull : (am.vvNew b).card = ADDRMAN_NEW_BUCKET_SIZE
  · -- Another entry of the bucket has to go.
    have hnonempty : (am₁.vvNew b).Nonempty := by
      rw [hvvNew]
      exact Finset.card_pos.mp (by rw [hfull]; decide)
    obtain ⟨nOut, hout, hshrink⟩ := shrinkNew_spec h hnonempty nNow draws
    obtain ⟨am₂, hremove, hbecomes⟩ := removeFromNew_spec h hout
    have hne : nId ≠ nOut := by
      rintro rfl
      rw [hvvNew] at hout
      exact hnot hout
    have hcons : am₂.Consistent env (some nId) :=
      hbecomes.consistent h.nodup (h.valid.unshelve hout (by simpa using hne))
    have hent₂ : am₂.tables.entry nId
        = some ⟨info.toCAddrRecord, false, info.nRefCount + 1⟩ := by
      rw [hbecomes.tables, TierTable.entry_unshelve_of_ne _ _ _ hne]
      exact hent
    have hpend : am₂.vvNew = update am.vvNew b ((am.vvNew b).erase nOut) := by
      have hout' : am₁.tables.entry nOut ≠ none := by
        obtain ⟨e, he, -⟩ := h.valid.of_mem_pending b nOut hout
        rw [he]
        exact Option.some_ne_none e
      have := (congrArg TierTable.pending hbecomes.tables).trans
        (TierTable.pending_unshelve _ hout')
      rw [← hvvNew]
      exact this
    have hbucket₂ : am₂.vvNew b = (am.vvNew b).erase nOut := by
      rw [hpend, update_self]
    have hnot₂ : nId ∉ am₂.vvNew b := by
      rw [hbucket₂]
      exact fun hin => hnot (Finset.mem_of_mem_erase hin)
    refine ⟨_, ?_, hcons.shelve hent₂ rfl hnot₂, ⟨?_, ?_⟩, hbecomes.nKey.trans hnKey, ?_⟩
    · rw [if_pos (by rw [hvvNew]; exact hfull), hshrink, hremove]
      rfl
    · dsimp only
      rw [hbecomes.vvTried, hvvTried]
      exact hfits.tried
    · intro b'
      dsimp only
      rw [update_apply]
      split
      · rw [Finset.card_insert_of_notMem hnot₂, hbucket₂]
        rw [hvvNew] at hout
        rw [Finset.card_erase_add_one hout]
        exact hfits.new b
      · rename_i hb'
        rw [hpend, update_of_ne hb']
        exact hfits.new b'
    · intro P hP
      have hP₂ : am₂.tables.All P := by
        rw [hbecomes.tables, howe]
        exact (hP.owe nId).unshelve nOut b
      exact hP₂
  · have hnot₁ : nId ∉ am₁.vvNew b := by
      rw [hvvNew]
      exact hnot
    refine ⟨_, ?_, h.shelve hent rfl hnot₁, ⟨?_, ?_⟩, hnKey, ?_⟩
    · rw [if_neg (by rw [hvvNew]; exact hfull)]
      rfl
    · dsimp only
      rw [hvvTried]
      exact hfits.tried
    · intro b'
      dsimp only
      rw [update_apply]
      split
      · have := hfits.new b
        rw [Finset.card_insert_of_notMem hnot₁, hvvNew]
        omega
      · rw [hvvNew]
        exact hfits.new b'
    · intro P hP
      have hP₁ : am₁.tables.All P := by
        rw [howe]
        exact hP.owe nId
      exact hP₁

theorem inspectTried_spec (draws : ℕ → ℕ) {bucket : List ℕ}
    (hknown : ∀ nId ∈ bucket, ∃ info, am.mapInfo.find nId = some info)
    {st : List ℕ × Option (ℕ × ℕ)} (hperm : st.1.Perm bucket)
    (hold : ∀ o, st.2 = some o → o.1 ∈ bucket ∧ o.2 < bucket.length) {i : ℕ}
    (hi : i < bucket.length) :
    ∃ st', am.inspectTried draws st i = some st' ∧ st'.1.Perm bucket
      ∧ ∃ o, st'.2 = some o ∧ o.1 ∈ bucket ∧ o.2 < bucket.length := by
  have hlen := hperm.length_eq
  have hist : i < st.1.length := by omega
  have hdraw := getRandInt_lt (draws i) (show 0 < st.1.length - i by omega)
  have hpos : GetRandInt (draws i) (st.1.length - i) + i < st.1.length := by omega
  have hTemp : st.1[GetRandInt (draws i) (st.1.length - i) + i] ∈ bucket :=
    hperm.subset (List.getElem_mem hpos)
  obtain ⟨info, hinfo⟩ := hknown _ hTemp
  have hswap : ((st.1.set (GetRandInt (draws i) (st.1.length - i) + i) st.1[i]).set i
      st.1[GetRandInt (draws i) (st.1.length - i) + i]).Perm bucket :=
    (List.set_set_perm hpos hist).trans hperm
  unfold inspectTried
  dsimp only [bind_eq_bind]
  rw [List.getElem?_eq_getElem hpos, List.getElem?_eq_getElem hist, bind_some, bind_some]
  cases hcase : st.2 with
  | none => exact ⟨_, rfl, hswap, _, rfl, hTemp, by dsimp only; omega⟩
  | some o =>
    obtain ⟨hmem, hlt⟩ := hold o hcase
    obtain ⟨infoOld, hinfoOld⟩ := hknown o.1 hmem
    dsimp only
    rw [hinfo, hinfoOld, bind_some, bind_some]
    split
    · exact ⟨_, rfl, hswap, _, rfl, hTemp, by dsimp only; omega⟩
    · exact ⟨_, rfl, hswap, _, rfl, hmem, hlt⟩

theorem selectTried_spec {am : CAddrMan} (draws : ℕ → ℕ) {bucket : List ℕ}
    (hknown : ∀ nId ∈ bucket, ∃ info, am.mapInfo.find nId = some info) (hne : 0 < bucket.length) :
    ∃ vTried nPos, am.SelectTried draws bucket = some (vTried, some nPos)
      ∧ vTried.Perm bucket ∧ nPos < bucket.length := by
  -- The rounds over any positions of the bucket.
  have hrnds : ∀ (rounds : List ℕ), (∀ i ∈ rounds, i < bucket.length) →
      ∀ st : List ℕ × Option (ℕ × ℕ), st.1.Perm bucket →
      (∀ o, st.2 = some o → o.1 ∈ bucket ∧ o.2 < bucket.length) →
      ∃ st', rounds.foldlM (am.inspectTried draws) st = some st' ∧ st'.1.Perm bucket
        ∧ (∀ o, st'.2 = some o → o.1 ∈ bucket ∧ o.2 < bucket.length)
        ∧ (st.2 ≠ none ∨ rounds ≠ [] → st'.2 ≠ none) := by
    intro rounds
    induction rounds with
    | nil =>
      intro _ st hperm hold
      exact ⟨st, rfl, hperm, hold, fun hor => hor.elim id (absurd rfl)⟩
    | cons i rounds ih =>
      intro hlt st hperm hold
      obtain ⟨st₁, hst₁, hperm₁, o, ho, hin⟩ :=
        inspectTried_spec draws hknown hperm hold (hlt i List.mem_cons_self)
      obtain ⟨st₂, hst₂, hperm₂, hold₂, hsome₂⟩ := ih
        (fun k hk => hlt k (List.mem_cons_of_mem i hk)) st₁ hperm₁ (by
          intro o' ho'
          rw [ho] at ho'
          rw [← some.inj ho']
          exact hin)
      refine ⟨st₂, ?_, hperm₂, hold₂, fun _ => hsome₂ (.inl (by rw [ho]; simp))⟩
      rw [List.foldlM_cons, hst₁]
      exact hst₂
  have hmin : ADDRMAN_TRIED_ENTRIES_INSPECT_ON_EVICT = 4 := rfl
  obtain ⟨st, hst, hperm, hold, hsome⟩ := hrnds
    (List.range (min ADDRMAN_TRIED_ENTRIES_INSPECT_ON_EVICT bucket.length)) (by
      intro i hi
      have := List.mem_range.mp hi
      omega) (bucket, none) (List.Perm.refl bucket) (by simp)
  have hfound : st.2 ≠ none := by
    apply hsome
    right
    intro hnil
    have := congrArg List.length hnil
    rw [List.length_range, List.length_nil] at this
    omega
  obtain ⟨o, ho⟩ := Option.ne_none_iff_exists'.mp hfound
  refine ⟨st.1, o.2, ?_, hperm, (hold o ho).2⟩
  unfold SelectTried
  rw [hst]
  change some (st.1, st.2.map Prod.snd) = _
  rw [ho]
  rfl

theorem set_replaced {l : List ℕ} (hnd : l.Nodup) {i nOld nNew : ℕ} (hi : l[i]? = some nOld)
    (hnew : nNew ∉ l) :
    (l.set i nNew).Nodup ∧ (l.set i nNew).toFinset = (insert nNew l.toFinset).erase nOld := by
  obtain ⟨hlt, hget⟩ := List.getElem?_eq_some_iff.mp hi
  obtain ⟨l₁, l₂, hl, -, hset⟩ := @List.exists_of_set _ i nNew l hlt
  rw [hget] at hl
  rw [hset]
  have hperm : (nOld :: (l₁ ++ l₂)).Perm l := by
    rw [hl]
    exact List.perm_middle.symm
  have hnodupOld := hperm.nodup_iff.mpr hnd
  obtain ⟨hnotOld, hrest⟩ := List.nodup_cons.mp hnodupOld
  have hnotNew : nNew ∉ nOld :: (l₁ ++ l₂) := fun hin => hnew (hperm.subset hin)
  rw [List.mem_cons, not_or] at hnotNew
  have hpermNew : (l₁ ++ nNew :: l₂).Perm (nNew :: (l₁ ++ l₂)) := List.perm_middle
  constructor
  · exact hpermNew.nodup_iff.mpr (List.nodup_cons.mpr ⟨hnotNew.2, hrest⟩)
  · ext x
    rw [List.mem_toFinset, hpermNew.mem_iff, Finset.mem_erase, Finset.mem_insert,
      List.mem_toFinset, ← hperm.mem_iff, List.mem_cons, List.mem_cons]
    constructor
    · rintro (rfl | hin)
      · exact ⟨hnotNew.1, .inl rfl⟩
      · exact ⟨fun heq => hnotOld (heq ▸ hin), .inr (.inr hin)⟩
    · rintro ⟨hne, rfl | rfl | hin⟩
      · exact .inl rfl
      · exact absurd rfl hne
      · exact .inr hin

/-- What moving an entry to the "tried" table keeps: the tables are consistent, the buckets fit, and
a property of the entries that an evicted one keeps holds when it holds of the moved one. -/
structure Moved (env : AddrEnv) (am : CAddrMan) (r : CAddrRecord) (am' : CAddrMan) : Prop where
  consistent : am'.Consistent env none
  fits : am'.Fits
  nKey : am'.nKey = am.nKey
  all : ∀ P : CAddrRecord → Bool → Prop, am.tables.All P → P r true →
    (∀ x, P x true → P x false) → am'.tables.All P

def leftNew (am : CAddrMan) (nId : ℕ) : CAddrMan :=
  { am.modifyInfo nId (fun info => { info with nRefCount := 0 }) with
    vvNew := fun b => (am.vvNew b).erase nId
    nNew := am.nNew - 1 }

variable (h : am.Consistent env none)
include h

/-- An entry that has left the "new" buckets is moved to a "tried" bucket that has room. -/
theorem pushTried_spec (hfits : am.Fits)
    (hinfo : am.mapInfo.find nId = some info) (hnew : info.fInTried = false)
    (hk : GetTriedBucket env am.nKey info.toCService = k)
    (hroom : (am.vvTried k).length < ADDRMAN_TRIED_BUCKET_SIZE) :
    Moved env am info.toCAddrRecord
      (modifyInfo { am.leftNew nId with
        vvTried := update am.vvTried k (am.vvTried k ++ [nId])
        nTried := am.nTried + 1 } nId fun info => { info with fInTried := true }) := by
  have he := entry_eq_some hinfo
  have hnot : nId ∉ am.vvTried k := by
    rw [← List.mem_toFinset]
    exact h.valid.notMem_settled he hnew k
  have htables : (modifyInfo { am.leftNew nId with
        vvTried := update am.vvTried k (am.vvTried k ++ [nId])
        nTried := am.nTried + 1 } nId fun info => { info with fInTried := true }).tables
      = am.tables.settle (addrRules env am.nKey) nId := by
    rw [@tables_modifyInfo _ nId (fun info => { info with fInTried := true })
      (fun e => { e with settled := true }) fun _ => rfl]
    have hleft := @tables_modifyInfo am nId (fun info => { info with nRefCount := 0 })
      (fun e => { e with refs := 0 }) fun _ => rfl
    have hent : ({ am.leftNew nId with
        vvTried := update am.vvTried k (am.vvTried k ++ [nId])
        nTried := am.nTried + 1 } : CAddrMan).tables.entry
        = update am.tables.entry nId (some { info.tierEntry with refs := 0 }) := by
      have := congrArg TierTable.entry hleft
      rw [he] at this
      exact this
    unfold TierTable.settle
    rw [he]
    apply TierTable.ext
    · rw [hent, update_self]
      rw [update_idem]
      rfl
    · rfl
    · rfl
    · rfl
    · rfl
    · funext b
      change (update am.vvTried k (am.vvTried k ++ [nId]) b).toFinset
        = update am.tables.settled ((addrRules env am.nKey).home info.toCAddrRecord)
          (insert nId (am.tables.settled ((addrRules env am.nKey).home info.toCAddrRecord))) b
      rw [show (addrRules env am.nKey).home info.toCAddrRecord = k from hk, update_apply,
        update_apply]
      split
      · rw [List.toFinset_append]
        ext x
        simp [tables]
      · rfl
    · rfl
  refine ⟨⟨?_, ?_, ?_⟩, ⟨?_, ?_⟩, rfl, ?_⟩
  · rw [htables]
    exact h.valid.settle he hnew
  · intro b
    change (update am.vvTried k (am.vvTried k ++ [nId]) b).Nodup
    rw [update_apply]
    split
    · apply List.nodup_append.mpr
      refine ⟨h.nodup k, List.nodup_singleton nId, ?_⟩
      intro x hx y hy heq
      rw [List.mem_singleton.mp hy] at heq
      exact hnot (heq ▸ hx)
    · exact h.nodup b
  · apply Ordered.modifyInfo
    · exact (h.ordered.modifyInfo (f := fun info => { info with nRefCount := 0 })
        fun _ => rfl).congr rfl rfl
    · intro info
      rfl
  · intro b
    change (update am.vvTried k (am.vvTried k ++ [nId]) b).length ≤ _
    rw [update_apply]
    split
    · rw [List.length_append, List.length_singleton]
      omega
    · exact hfits.tried b
  · intro b
    exact (Finset.card_erase_le).trans (hfits.new b)
  · intro P hP hr _
    rw [htables]
    apply hP.settle
    intro e' he'
    rw [he] at he'
    rw [← some.inj he']
    exact hr

theorem exists_tried (hinfo : am.mapInfo.find nId = some info)
    (hnew : info.fInTried = false) {nOld : ℕ} (hold : nOld ∈ am.vvTried k) :
    nOld ≠ nId ∧ ∃ infoOld, am.mapInfo.find nOld = some infoOld
      ∧ (am.leftNew nId).mapInfo.find nOld = some infoOld ∧ infoOld.fInTried = true
      ∧ GetTriedBucket env am.nKey infoOld.toCService = k := by
  obtain ⟨e, he, hset, hhome⟩ := (h.valid.mem_settled k nOld).mp (List.mem_toFinset.mpr hold)
  obtain ⟨infoOld, hinfoOld, rfl⟩ := exists_info he
  have hne : nOld ≠ nId := by
    rintro rfl
    rw [hinfo] at hinfoOld
    rw [← some.inj hinfoOld] at hset
    exact absurd (hnew.symm.trans hset) (by decide)
  refine ⟨hne, infoOld, hinfoOld, ?_, hset, hhome⟩
  change (am.modifyInfo nId fun info => { info with nRefCount := 0 }).mapInfo.find nOld = _
  rw [find_modifyInfo, if_neg hne]
  exact hinfoOld

theorem evictTried_spec (hfits : am.Fits)
    (hinfo : am.mapInfo.find nId = some info) (hnew : info.fInTried = false) {nOrigin : NewBucket}
    (horigin : nId ∈ am.vvNew nOrigin) (hk : GetTriedBucket env am.nKey info.toCService = k)
    (hfull : 0 < (am.vvTried k).length) (draws : ℕ → ℕ) :
    ∃ am', (am.leftNew nId).evictTried env draws nId nOrigin k = some am'
      ∧ Moved env am info.toCAddrRecord am' := by
  have he := entry_eq_some hinfo
  have hnot : ∀ b, nId ∉ am.vvTried b := by
    intro b
    rw [← List.mem_toFinset]
    exact h.valid.notMem_settled he hnew b
  obtain ⟨vTried, nPos, hsel, hperm, hpos⟩ := @selectTried_spec (am.leftNew nId) draws
    (am.vvTried k) (by
      intro nOld hold
      obtain ⟨-, infoOld, -, hfind, -⟩ := exists_tried h hinfo hnew hold
      exact ⟨infoOld, hfind⟩) hfull
  obtain ⟨nOld, hget⟩ : ∃ nOld, vTried[nPos]? = some nOld :=
    ⟨_, List.getElem?_eq_getElem (by rw [hperm.length_eq]; exact hpos)⟩
  have hold : nOld ∈ am.vvTried k := hperm.subset (List.mem_of_getElem? hget)
  obtain ⟨hne, infoOld, hinfoOld, hfindOld, hset, hhome⟩ := exists_tried h hinfo hnew hold
  have heOld := entry_eq_some hinfoOld
  obtain ⟨hsetNodup, hsetFinset⟩ := set_replaced (hperm.nodup_iff.mpr (h.nodup k)) hget
    (fun hin => hnot k (hperm.subset hin))
  -- The bucket that the old entry goes to has a place, and the old entry is in no bucket.
  obtain ⟨nTarget, htgt⟩ : ∃ nTarget,
      (if ((am.leftNew nId).vvNew (GetNewBucket env am.nKey infoOld.toCNetAddr
          infoOld.source)).card < ADDRMAN_NEW_BUCKET_SIZE
        then GetNewBucket env am.nKey infoOld.toCNetAddr infoOld.source else nOrigin) = nTarget :=
    ⟨_, rfl⟩
  have hplace : ((am.leftNew nId).vvNew nTarget).card < ADDRMAN_NEW_BUCKET_SIZE := by
    split at htgt
    · rename_i hsmall
      rw [← htgt]
      exact hsmall
    · rw [← htgt]
      have hcard := Finset.card_erase_add_one horigin
      have hsize := hfits.new nOrigin
      change ((am.vvNew nOrigin).erase nId).card < _
      omega
  have hsettled := h.valid.settle he hnew
  have hsettledOld : (am.tables.settle (addrRules env am.nKey) nId).entry nOld
      = some infoOld.tierEntry := by
    unfold TierTable.settle
    rw [he]
    exact (update_of_ne hne _ _).trans heOld
  -- The entries after both moves.
  obtain ⟨am', ham'⟩ : ∃ am', modifyInfo
      { (am.leftNew nId).modifyInfo nOld (fun info =>
          { info with fInTried := false, nRefCount := 1 }) with
        vvNew := update (am.leftNew nId).vvNew nTarget
          (insert nOld ((am.leftNew nId).vvNew nTarget))
        nNew := (am.leftNew nId).nNew + 1
        vvTried := update am.vvTried k (vTried.set nPos nId) } nId
      (fun info => { info with fInTried := true }) = am' := ⟨_, rfl⟩
  have htables : am'.tables
      = (am.tables.settle (addrRules env am.nKey) nId).unsettle (addrRules env am.nKey) nOld
          nTarget := by
    rw [← ham', @tables_modifyInfo _ nId (fun info => { info with fInTried := true })
      (fun e => { e with settled := true }) fun _ => rfl]
    have hleft := @tables_modifyInfo am nId (fun info => { info with nRefCount := 0 })
      (fun e => { e with refs := 0 }) fun _ => rfl
    have hmoved := @tables_modifyInfo (am.leftNew nId) nOld
      (fun info => { info with fInTried := false, nRefCount := 1 })
      (fun e => { e with settled := false, refs := 1 }) fun _ => rfl
    have hentryLeft : (am.leftNew nId).tables.entry
        = update am.tables.entry nId (some { info.tierEntry with refs := 0 }) := by
      have := congrArg TierTable.entry hleft
      rw [he] at this
      exact this
    have hent : ((am.leftNew nId).modifyInfo nOld fun info =>
        { info with fInTried := false, nRefCount := 1 }).tables.entry
        = update (update am.tables.entry nId
            (some { info.tierEntry with refs := 0 })) nOld
            (some { infoOld.tierEntry with settled := false, refs := 1 }) := by
      have := congrArg TierTable.entry hmoved
      rw [hentryLeft, update_of_ne hne, heOld] at this
      exact this
    unfold TierTable.unsettle
    rw [hsettledOld]
    unfold TierTable.settle
    rw [he]
    apply TierTable.ext
    · change update ((am.leftNew nId).modifyInfo nOld _).tables.entry nId
        ((((am.leftNew nId).modifyInfo nOld _).tables.entry nId).map _) = _
      rw [hent, update_of_ne (Ne.symm hne), update_self, update_comm (Ne.symm hne), update_idem]
      rw [update_comm hne]
      rfl
    · rfl
    · rfl
    · change am.nTried = am.nTried + 1 - 1
      omega
    · rfl
    · funext b
      change (update am.vvTried k (vTried.set nPos nId) b).toFinset
        = update (update am.tables.settled
            ((addrRules env am.nKey).home info.toCAddrRecord) _)
          ((addrRules env am.nKey).home infoOld.toCAddrRecord) _ b
      rw [show (addrRules env am.nKey).home info.toCAddrRecord = k from hk,
        show (addrRules env am.nKey).home infoOld.toCAddrRecord = k from hhome,
        update_idem, update_apply, update_apply]
      split
      · rw [hsetFinset]
        dsimp only [CAddrInfo.tierEntry]
        rw [show (addrRules env am.nKey).home infoOld.toCAddrRecord = k from hhome,
          show (addrRules env am.nKey).home info.toCAddrRecord = k from hk,
          update_self, List.toFinset_eq_of_perm _ _ hperm]
        rfl
      · rfl
    · rfl
  refine ⟨am', ?_, ⟨⟨?_, ?_, ?_⟩, ⟨?_, ?_⟩, ?_, ?_⟩⟩
  · unfold evictTried
    change ((am.leftNew nId).SelectTried draws (am.vvTried k)).bind _ = _
    dsimp only [bind_eq_bind]
    rw [hsel, bind_some]
    dsimp only
    rw [bind_some, hget, bind_some, hfindOld, bind_some, ← ham', ← htgt]
    rfl
  · have hkey : am'.nKey = am.nKey := by
      rw [← ham']
      rfl
    rw [htables, hkey]
    exact hsettled.unsettle hsettledOld hset (show (1 : ℤ) ≤ 4 by decide) nTarget
  · intro b
    rw [← ham']
    change (update am.vvTried k (vTried.set nPos nId) b).Nodup
    rw [update_apply]
    split
    · exact hsetNodup
    · exact h.nodup b
  · rw [← ham']
    apply Ordered.modifyInfo
    · have hleft : (am.leftNew nId).Ordered :=
        (h.ordered.modifyInfo (f := fun info => { info with nRefCount := 0 })
          fun _ => rfl).congr rfl rfl
      exact (@Ordered.modifyInfo _ nOld
        (fun info => { info with fInTried := false, nRefCount := 1 }) hleft
        fun _ => rfl).congr rfl rfl
    · intro info
      rfl
  · intro b
    rw [← ham']
    change (update am.vvTried k (vTried.set nPos nId) b).length ≤ _
    rw [update_apply]
    split
    · rw [List.length_set, hperm.length_eq]
      exact hfits.tried k
    · exact hfits.tried b
  · intro b
    rw [← ham']
    change (update (am.leftNew nId).vvNew nTarget
      (insert nOld ((am.leftNew nId).vvNew nTarget)) b).card ≤ _
    rw [update_apply]
    split
    · have := Finset.card_insert_le nOld ((am.leftNew nId).vvNew nTarget)
      omega
    · exact (Finset.card_erase_le).trans (hfits.new b)
  · rw [← ham']
    rfl
  · intro P hP hr hback
    rw [htables]
    have hP₁ : (am.tables.settle (addrRules env am.nKey) nId).All P := by
      apply hP.settle
      intro e' he'
      rw [he] at he'
      rw [← some.inj he']
      exact hr
    apply hP₁.unsettle
    intro e' he'
    rw [hsettledOld] at he'
    rw [← some.inj he']
    apply hback
    have := hP nOld _ heOld
    rwa [show infoOld.tierEntry.settled = true from hset] at this

theorem makeTried_spec (hfits : am.Fits)
    (hinfo : am.mapInfo.find nId = some info) {nOrigin : NewBucket}
    (horigin : nId ∈ am.vvNew nOrigin) (draws : ℕ → ℕ) :
    ∃ am', am.MakeTried env draws nId nOrigin = some am'
      ∧ Moved env am info.toCAddrRecord am' := by
  have he := entry_eq_some hinfo
  have hnew : info.fInTried = false := by
    obtain ⟨e, he', hpend⟩ := h.valid.of_mem_pending nOrigin nId horigin
    rw [he] at he'
    rw [← some.inj he'] at hpend
    exact hpend
  -- The entry counts its buckets, so its count is zero when it has left them.
  have hrefs : info.nRefCount = (am.newBucketsOf nId).card := by
    have := h.valid.refs_eq nId _ he
    exact this
  have hleft : am.leaveNew nId = am.leftNew nId := by
    have hmodify : am.mapInfo.modify nId (fun info =>
        { info with nRefCount := info.nRefCount - ((am.newBucketsOf nId).card : ℤ) })
        = am.mapInfo.modify nId fun info => { info with nRefCount := 0 } := by
      unfold SortedMap.modify
      rw [hinfo]
      dsimp only
      rw [hrefs, Int.sub_self]
    unfold leaveNew leftNew modifyInfo
    dsimp only
    rw [hmodify]
  have hfind : (am.leftNew nId).mapInfo.find nId = some { info with nRefCount := 0 } := by
    change (am.modifyInfo nId fun info => { info with nRefCount := 0 }).mapInfo.find nId = _
    rw [find_modifyInfo, if_pos rfl, hinfo]
    rfl
  unfold MakeTried
  rw [if_neg (not_not.mpr horigin)]
  dsimp only
  rw [hleft, hfind]
  dsimp only [bind_eq_bind, bind_some]
  rw [if_neg (not_not.mpr rfl)]
  split
  · rename_i hroom
    exact ⟨_, rfl, pushTried_spec h hfits hinfo hnew rfl hroom⟩
  · rename_i hfull
    have hpos : 0 < (am.vvTried (GetTriedBucket env am.nKey info.toCService)).length := by
      have hsize : ADDRMAN_TRIED_BUCKET_SIZE = 64 := rfl
      change ¬(am.vvTried (GetTriedBucket env am.nKey info.toCService)).length < _ at hfull
      omega
    exact evictTried_spec h hfits hinfo hnew horigin rfl hpos draws

end CAddrMan

end ZalemCoin.Network
