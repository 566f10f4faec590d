import ZalemCoin.Network.AddrManMoves
import Mathlib.Data.List.GetD

/-!
# The entry that leaves a full "tried" bucket

`SelectTried` draws up to four entries of the bucket to its front, one in each round, and remembers
the one with the oldest last success. The position that it remembers is the one that the entry was
drawn from, where the swap of the same round has put another one: the position is right only when
the entry did not move, or when a later round happened to put an equally old one there.
-/

namespace ZalemCoin.Network

open Lib
open CAddrInfo (GetTriedBucket)

/-- The position that round `i` draws an entry from. -/
def drawnFrom (draws : ℕ → ℕ) (nSize i : ℕ) : ℕ := GetRandInt (draws i) (nSize - i) + i

def shuffleRound (draws : ℕ → ℕ) (vTried : List ℕ) (i : ℕ) : List ℕ :=
  (vTried.set (drawnFrom draws vTried.length i) (vTried.getD i 0)).set i
    (vTried.getD (drawnFrom draws vTried.length i) 0)

/-- The bucket after the swaps of `n` rounds, which leave the entry of round `i` at position `i`. -/
def shuffled (draws : ℕ → ℕ) (bucket : List ℕ) (n : ℕ) : List ℕ :=
  (List.range n).foldl (shuffleRound draws) bucket

namespace CAddrMan

variable (am : CAddrMan)

def lastSuccess (nId : ℕ) : ℤ :=
  ((am.mapInfo.find nId).map fun info => info.nLastSuccess.toInt).getD 0

/-- A position of the shuffled bucket holds an inspected entry, and no inspected one is older. -/
def HoldsOldest (vTried : List ℕ) (nPos : ℕ) : Prop :=
  ∃ nId ∈ vTried.take ADDRMAN_TRIED_ENTRIES_INSPECT_ON_EVICT, vTried[nPos]? = some nId
    ∧ ∀ nOther ∈ vTried.take ADDRMAN_TRIED_ENTRIES_INSPECT_ON_EVICT,
      am.lastSuccess nId ≤ am.lastSuccess nOther

instance (am : CAddrMan) (vTried : List ℕ) (nPos : ℕ) : Decidable (am.HoldsOldest vTried nPos) :=
  inferInstanceAs (Decidable (∃ nId ∈ vTried.take _, _))

/-- Of `n` rounds, `r` is the first with an entry that is as old as any of them. -/
structure FirstOldest (vTried : List ℕ) (n r : ℕ) : Prop where
  lt : r < n
  before : ∀ j < r, am.lastSuccess (vTried.getD r 0) < am.lastSuccess (vTried.getD j 0)
  all : ∀ j < n, am.lastSuccess (vTried.getD r 0) ≤ am.lastSuccess (vTried.getD j 0)

/-- The position that the first oldest entry is drawn from is one of those that end with an inspected
entry, and the one that ends there is as old: it was drawn from its own position, or replaced. -/
def OldestStays (draws : ℕ → ℕ) (bucket : List ℕ) : Prop :=
  let nRounds := min ADDRMAN_TRIED_ENTRIES_INSPECT_ON_EVICT bucket.length
  let vTried := shuffled draws bucket nRounds
  ∃ r, am.FirstOldest vTried nRounds r ∧ drawnFrom draws bucket.length r < nRounds
    ∧ am.lastSuccess (vTried.getD (drawnFrom draws bucket.length r) 0)
      = am.lastSuccess (vTried.getD r 0)

end CAddrMan

variable (draws : ℕ → ℕ)
include draws

theorem drawnFrom_lt {nSize i : ℕ} (h : i < nSize) :
    i ≤ drawnFrom draws nSize i ∧ drawnFrom draws nSize i < nSize := by
  have := getRandInt_lt (draws i) (show 0 < nSize - i by omega)
  unfold drawnFrom
  omega

theorem shuffled_succ (bucket : List ℕ) (n : ℕ) :
    shuffled draws bucket (n + 1) = shuffleRound draws (shuffled draws bucket n) n := by
  unfold shuffled
  rw [List.range_succ, List.foldl_append]
  rfl

variable {vTried : List ℕ} {i : ℕ}

theorem shuffleRound_before {j : ℕ} (hi : i < vTried.length) (hj : j < i) :
    (shuffleRound draws vTried i).getD j 0 = vTried.getD j 0 := by
  have hfrom := drawnFrom_lt draws hi
  unfold shuffleRound
  rw [List.getD_eq_getElem?_getD, List.getElem?_set_ne (by omega), List.getElem?_set_ne (by omega),
    ← List.getD_eq_getElem?_getD]

theorem shuffleRound_self (hi : i < vTried.length) :
    (shuffleRound draws vTried i).getD i 0 = vTried.getD (drawnFrom draws vTried.length i) 0 := by
  unfold shuffleRound
  rw [List.getD_eq_getElem?_getD, List.getElem?_set_self (by rw [List.length_set]; exact hi)]
  rfl

omit draws

namespace CAddrMan

variable {am am' : CAddrMan} {vTried bucket : List ℕ} {nId : ℕ} {info : CAddrInfo} {draws : ℕ → ℕ}

theorem FirstOldest.unique {n r r' : ℕ} (h : am.FirstOldest vTried n r)
    (h' : am.FirstOldest vTried n r') : r = r' := by
  rcases Nat.lt_trichotomy r r' with hlt | heq | hlt
  · exact absurd (h.all r' h'.lt) (not_le.mpr (h'.before r hlt))
  · exact heq
  · exact absurd (h'.all r h.lt) (not_le.mpr (h.before r' hlt))

/-- What the loop knows after `n` rounds: the entry of the first oldest round, and the position that
this round drew it from. -/
structure Inspected (am : CAddrMan) (draws : ℕ → ℕ) (bucket : List ℕ) (n : ℕ)
    (st : List ℕ × Option (ℕ × ℕ)) : Prop where
  vTried : st.1 = shuffled draws bucket n
  perm : st.1.Perm bucket
  fresh : n = 0 → st.2 = none
  oldest : 0 < n → ∃ r, am.FirstOldest st.1 n r
    ∧ st.2 = some (st.1.getD r 0, drawnFrom draws bucket.length r)

theorem lastSuccess_eq (h : am.mapInfo.find nId = some info) :
    am.lastSuccess nId = info.nLastSuccess.toInt := by
  unfold lastSuccess
  rw [h]
  rfl

theorem inspectTried_inspected (hknown : ∀ nId ∈ bucket, (am.mapInfo.find nId).isSome)
    {st : List ℕ × Option (ℕ × ℕ)} (hi : i < bucket.length) (h : am.Inspected draws bucket i st) :
    ∃ st', am.inspectTried draws st i = some st' ∧ am.Inspected draws bucket (i + 1) st' := by
  obtain ⟨vTried, kept⟩ := st
  obtain ⟨hvTried, hperm, hfresh, holdest⟩ := h
  dsimp only at hvTried hperm hfresh holdest
  have hlen : vTried.length = bucket.length := hperm.length_eq
  have hist : i < vTried.length := by omega
  obtain ⟨-, hfrom⟩ := drawnFrom_lt draws hist
  have hset : shuffleRound draws vTried i
      = (vTried.set (drawnFrom draws vTried.length i) vTried[i]).set i
        vTried[drawnFrom draws vTried.length i] := by
    unfold shuffleRound
    rw [List.getD_eq_getElem _ _ hist, List.getD_eq_getElem _ _ hfrom]
  have hperm' : (shuffleRound draws vTried i).Perm bucket := by
    rw [hset]
    exact (List.set_set_perm hfrom hist).trans hperm
  have hnext : shuffleRound draws vTried i = shuffled draws bucket (i + 1) := by
    rw [shuffled_succ, hvTried]
  have hself := shuffleRound_self draws hist
  have hbef := fun j (hj : j < i) => shuffleRound_before draws hist hj
  -- The round's entry, drawn from its position.
  obtain ⟨nTemp, hTemp⟩ : ∃ nTemp, vTried[drawnFrom draws vTried.length i] = nTemp := ⟨_, rfl⟩
  have hgetD : (shuffleRound draws vTried i).getD i 0 = nTemp := by
    rw [hself, List.getD_eq_getElem _ _ hfrom, hTemp]
  have hmemTemp : nTemp ∈ bucket := by
    rw [← hTemp]
    exact hperm.subset (List.getElem_mem hfrom)
  obtain ⟨info, hinfo⟩ := Option.isSome_iff_exists.mp (hknown nTemp hmemTemp)
  change ∃ st', ((vTried[drawnFrom draws vTried.length i]?).bind fun nTemp =>
    (vTried[i]?).bind fun nFirst => _) = some st' ∧ _
  rw [List.getElem?_eq_getElem hfrom, List.getElem?_eq_getElem hist, Option.bind_some,
    Option.bind_some, hTemp]
  rw [hTemp] at hset
  have hdrawn : GetRandInt (draws i) (vTried.length - i) + i = drawnFrom draws vTried.length i := rfl
  dsimp only [Option.bind_eq_bind]
  rw [hdrawn, ← hset, hinfo, hlen]
  rcases Nat.eq_zero_or_pos i with rfl | hpos
  · rw [hfresh rfl]
    refine ⟨_, rfl, hnext, hperm', fun h0 => absurd h0 (by omega), fun _ => ⟨0, ⟨?_, ?_, ?_⟩, ?_⟩⟩
    · omega
    · omega
    · intro j hj
      rw [show j = 0 by omega]
    · rw [hgetD]
  · obtain ⟨r, hr, hkept⟩ := holdest hpos
    have hmemOld : vTried.getD r 0 ∈ bucket := by
      have hrlt := hr.lt
      rw [List.getD_eq_getElem _ _ (show r < vTried.length by omega)]
      exact hperm.subset (List.getElem_mem _)
    obtain ⟨infoOld, hinfoOld⟩ := Option.isSome_iff_exists.mp (hknown _ hmemOld)
    have hr' := hbef r hr.lt
    have hcompare : info.nLastSuccess < infoOld.nLastSuccess
        ↔ am.lastSuccess nTemp < am.lastSuccess (vTried.getD r 0) := by
      rw [lastSuccess_eq hinfo, lastSuccess_eq hinfoOld, Int64.lt_iff_toInt_lt]
    rw [hkept]
    dsimp only [Option.bind_some]
    rw [hinfoOld, Option.bind_some]
    by_cases hlt : info.nLastSuccess < infoOld.nLastSuccess
    · rw [if_pos hlt]
      have hlt' := hcompare.mp hlt
      refine ⟨_, rfl, hnext, hperm', fun h0 => absurd h0 (by omega), fun _ =>
        ⟨i, ⟨by omega, ?_, ?_⟩, by rw [hgetD]⟩⟩
      · intro j hj
        rw [hgetD, hbef j hj]
        exact hlt'.trans_le (hr.all j hj)
      · intro j hj
        rcases Nat.lt_succ_iff_lt_or_eq.mp hj with hj | rfl
        · rw [hgetD, hbef j hj]
          exact (hlt'.trans_le (hr.all j hj)).le
        · exact le_refl _
    · rw [if_neg hlt]
      have hle := not_lt.mp (hcompare.not.mp hlt)
      have hrlt := hr.lt
      refine ⟨_, rfl, hnext, hperm', fun h0 => absurd h0 (by omega), fun _ =>
        ⟨r, ⟨by omega, ?_, ?_⟩, by rw [hr']⟩⟩
      · intro j hj
        rw [hr', hbef j (by omega)]
        exact hr.before j hj
      · intro j hj
        rcases Nat.lt_succ_iff_lt_or_eq.mp hj with hj | rfl
        · rw [hr', hbef j hj]
          exact hr.all j hj
        · rw [hr', hgetD]
          exact hle

theorem selectTried_inspected (draws : ℕ → ℕ)
    (hknown : ∀ nId ∈ bucket, (am.mapInfo.find nId).isSome) (n : ℕ) (hn : n ≤ bucket.length) :
    ∃ st, (List.range n).foldlM (am.inspectTried draws) (bucket, none) = some st
      ∧ am.Inspected draws bucket n st := by
  induction n with
  | zero => exact ⟨_, rfl, rfl, List.Perm.refl _, fun _ => rfl, fun h => absurd h (by omega)⟩
  | succ n ih =>
    obtain ⟨st, hst, hinspected⟩ := ih (by omega)
    obtain ⟨st', hst', hinspected'⟩ := inspectTried_inspected hknown hn hinspected
    refine ⟨st', ?_, hinspected'⟩
    rw [List.range_succ, List.foldlM_append, hst]
    change [n].foldlM (am.inspectTried draws) st = some st'
    rw [List.foldlM_cons, hst']
    rfl

theorem selectTried_congr
    (h : ∀ nId, (am'.mapInfo.find nId).map (fun info => info.nLastSuccess)
      = (am.mapInfo.find nId).map fun info => info.nLastSuccess)
    (draws : ℕ → ℕ) (bucket : List ℕ) :
    am'.SelectTried draws bucket = am.SelectTried draws bucket := by
  have hrnd : am'.inspectTried draws = am.inspectTried draws := by
    funext st i
    unfold inspectTried
    dsimp only [Option.bind_eq_bind]
    congr 1
    funext nTemp
    congr 1
    funext nFirst
    split
    · rfl
    · rename_i nOldest nOldestPos _
      have hTemp := h nTemp
      have hOldest := h nOldest
      cases h₁ : am'.mapInfo.find nTemp <;> cases h₂ : am.mapInfo.find nTemp <;>
        cases h₃ : am'.mapInfo.find nOldest <;> cases h₄ : am.mapInfo.find nOldest <;>
        simp_all
  unfold SelectTried
  rw [hrnd]

theorem makeTried_replaces {env : AddrEnv} {k : TriedBucket} {nPos : ℕ}
    (hsel : am.SelectTried draws (am.vvTried k) = some (vTried, some nPos)) {nOrigin : NewBucket}
    (hinfo : am.mapInfo.find nId = some info) (hk : GetTriedBucket env am.nKey info.toCService = k)
    (hfull : ADDRMAN_TRIED_BUCKET_SIZE ≤ (am.vvTried k).length)
    (h : am.MakeTried env draws nId nOrigin = some am') : am'.vvTried k = vTried.set nPos nId := by
  have hsel' : (am.leaveNew nId).SelectTried draws (am.vvTried k)
      = some (vTried, some nPos) := by
    rw [← hsel]
    apply selectTried_congr
    intro nOther
    unfold leaveNew
    rw [find_modifyInfo]
    split
    · rename_i heq
      rw [heq]
      cases am.mapInfo.find nId <;> rfl
    · rfl
  unfold MakeTried at h
  split at h
  · exact absurd h (by simp)
  · obtain ⟨info', hinfo', h⟩ := Option.bind_eq_some_iff.mp h
    have hbucket : GetTriedBucket env (am.leaveNew nId).nKey info'.toCService = k := by
      change (am.modifyInfo nId _).mapInfo.find nId = _ at hinfo'
      rw [find_modifyInfo, if_pos rfl, hinfo] at hinfo'
      rw [← Option.some.inj hinfo']
      exact hk
    split at h
    · exact absurd h (by simp)
    · dsimp only at h
      rw [hbucket, if_neg (show ¬((am.leaveNew nId).vvTried k).length < _ from not_lt.mpr hfull)] at h
      unfold evictTried at h
      rw [show (am.leaveNew nId).vvTried k = am.vvTried k from rfl, hsel'] at h
      dsimp only [Option.bind_eq_bind, Option.bind_some] at h
      obtain ⟨nOld, -, h⟩ := Option.bind_eq_some_iff.mp h
      obtain ⟨infoOld, -, h⟩ := Option.bind_eq_some_iff.mp h
      rw [← Option.some.inj h]
      change Function.update am.vvTried k (vTried.set nPos nId) k = _
      rw [Function.update_self]

/-- The position that is selected, and that adding to the full bucket replaces, holds the oldest of
the inspected entries exactly when that entry stays where it was drawn from. -/
theorem selectTried_holdsOldest_iff (env : AddrEnv) {am : CAddrMan} (draws : ℕ → ℕ)
    {k : TriedBucket} (hnodup : (am.vvTried k).Nodup)
    (hknown : ∀ nId ∈ am.vvTried k, (am.mapInfo.find nId).isSome) (hne : am.vvTried k ≠ []) :
    ∃ vTried nPos, am.SelectTried draws (am.vvTried k) = some (vTried, some nPos)
      ∧ (am.HoldsOldest vTried nPos ↔ am.OldestStays draws (am.vvTried k))
      ∧ ∀ nId nOrigin info am', am.mapInfo.find nId = some info →
        GetTriedBucket env am.nKey info.toCService = k →
        ADDRMAN_TRIED_BUCKET_SIZE ≤ (am.vvTried k).length →
        am.MakeTried env draws nId nOrigin = some am' → am'.vvTried k = vTried.set nPos nId := by
  have hpos : 0 < (am.vvTried k).length := List.length_pos_iff.mpr hne
  obtain ⟨nRounds, hnRounds⟩ : ∃ n, min ADDRMAN_TRIED_ENTRIES_INSPECT_ON_EVICT
    (am.vvTried k).length = n := ⟨_, rfl⟩
  have hinspect : ADDRMAN_TRIED_ENTRIES_INSPECT_ON_EVICT = 4 := rfl
  obtain ⟨⟨vTried, kept⟩, hst, hinspected⟩ :=
    selectTried_inspected draws hknown nRounds (by omega)
  obtain ⟨r, hr, hkept⟩ := hinspected.oldest (by omega)
  obtain ⟨hvTried, hperm, -, -⟩ := hinspected
  dsimp only at hvTried hperm hr hkept
  have hselect : am.SelectTried draws (am.vvTried k)
      = some (vTried, some (drawnFrom draws (am.vvTried k).length r)) := by
    unfold SelectTried
    rw [hnRounds, hst, hkept]
    rfl
  refine ⟨vTried, _, hselect, ?_, fun nId nOrigin info am' hinfo hk hfull hmake =>
    makeTried_replaces hselect hinfo hk hfull hmake⟩
  have hlength : vTried.length = (am.vvTried k).length := hperm.length_eq
  have hnodup' : vTried.Nodup := hperm.nodup_iff.mpr hnodup
  -- The inspected entries are those at the positions of the rounds.
  have hfront : ∀ nId, nId ∈ vTried.take ADDRMAN_TRIED_ENTRIES_INSPECT_ON_EVICT
      ↔ ∃ j < nRounds, vTried.getD j 0 = nId := by
    intro nId
    rw [List.mem_take_iff_getElem]
    constructor
    · rintro ⟨j, hj, rfl⟩
      exact ⟨j, by omega, List.getD_eq_getElem _ _ _⟩
    · rintro ⟨j, hj, rfl⟩
      exact ⟨j, by omega, (List.getD_eq_getElem _ _ _).symm⟩
  obtain ⟨hle, hlt⟩ := @drawnFrom_lt draws (am.vvTried k).length r
    (by have := hr.lt; omega)
  unfold OldestStays HoldsOldest
  dsimp only
  rw [hnRounds, ← hvTried]
  constructor
  · rintro ⟨nId, hmem, hget, hmin⟩
    obtain ⟨j, hj, hjget⟩ := (hfront nId).mp hmem
    have hjpos : j = drawnFrom draws (am.vvTried k).length r := by
      apply (List.getElem?_inj (by omega) hnodup').mp
      rw [hget, ← hjget, List.getD_eq_getElem _ _ (by omega), List.getElem?_eq_getElem]
    refine ⟨r, hr, by omega, le_antisymm ?_ (hr.all _ (by omega))⟩
    rw [← hjpos, hjget]
    exact hmin _ ((hfront _).mpr ⟨r, hr.lt, rfl⟩)
  · rintro ⟨r', hr', hlt', heq⟩
    rw [hr.unique hr'] at *
    refine ⟨_, (hfront _).mpr ⟨_, hlt', rfl⟩, ?_, ?_⟩
    · rw [List.getD_eq_getElem _ _ (by omega), List.getElem?_eq_getElem]
    · intro nOther hother
      obtain ⟨j, hj, rfl⟩ := (hfront nOther).mp hother
      rw [heq]
      exact hr'.all j hj

def fullManager : CAddrMan :=
  { CAddrMan.init [] with
    nIdCount := 64
    mapInfo := (List.range 64).foldl (fun mapInfo nId => mapInfo.insert nId
      { CAddrInfo.init { noAddress with
          ip := List.replicate 15 0 ++ [UInt8.ofNat nId], length_ip := by simp } noAddress.toCNetAddr with
        nLastSuccess := 1600000000 - Int64.ofNat nId, fInTried := true }) SortedMap.empty
    nTried := 64
    vvTried := fun b => if b = 0 then List.range 64 else [] }

/-- No round moves an entry: the oldest of the first four stays. -/
theorem fullManager_holdsOldest : ∃ vTried nPos,
    fullManager.SelectTried (fun _ => 0) (fullManager.vvTried 0) = some (vTried, some nPos)
      ∧ (fullManager.HoldsOldest vTried nPos
        ↔ fullManager.OldestStays (fun _ => 0) (fullManager.vvTried 0)) := by
  obtain ⟨vTried, nPos, hselect, hiff, -⟩ := @selectTried_holdsOldest_iff ⟨fun _ => 0⟩
    fullManager (fun _ => 0) 0 (by decide +kernel) (by decide +kernel) (by decide +kernel)
  exact ⟨vTried, nPos, hselect, hiff⟩

/-- The first round draws entry 40 from position 40, and leaves entry 0 there, which is fresher than
all others. -/
theorem fullManager_evictsFreshest : ∃ vTried nPos,
    fullManager.SelectTried (fun i => if i = 0 then 40 else 0) (fullManager.vvTried 0)
      = some (vTried, some nPos)
      ∧ vTried[nPos]? = some 0 ∧ ¬fullManager.HoldsOldest vTried nPos :=
  ⟨((List.range 64).set 40 0).set 0 40, 40, by decide +kernel, by decide +kernel, by decide +kernel⟩

end CAddrMan

end ZalemCoin.Network
