import Mathlib.Data.List.Sort
import ZalemCoin.Lib.SortedMap

/-!
# Maps that keep their highest values

A `limitedmap` has its entries in a map, and in a multimap by their values whose first entry is the next
one to drop. `insert` makes room once the map is full with the new entry, which is not in the multimap yet,
so a limit is only kept to while no insertion reaches it.
-/

namespace ZalemCoin.Network

open Lib (SortedMap)

variable {K V : Type} [LinearOrder K] [LinearOrder V]

/-- What the operations can run into. -/
inductive LimitedMapFault where
  /-- `rmap.begin()` is dereferenced, and there is nothing in it. -/
  | emptyIndex
  /-- `assert(0)`. -/
  | assertion
deriving DecidableEq

structure limitedmap (K V : Type) [LT K] where
  map : SortedMap K V
  /-- The values with the keys of their entries, the lowest value first. -/
  rmap : List (V × K)
  /-- The limit, which is none when it is zero. -/
  nMaxSize : ℕ

namespace limitedmap

def new (nMaxSizeIn : ℕ) : limitedmap K V := ⟨SortedMap.empty, [], nMaxSizeIn⟩

/-- Inserts into the multimap, after the entries of the same value. -/
def insertReverse (v : V) (k : K) (rmap : List (V × K)) : List (V × K) :=
  rmap.orderedInsert (fun a b => a.1 < b.1) (v, k)

def insert (m : limitedmap K V) (x : K × V) : Except LimitedMapFault (limitedmap K V) :=
  match m.map.find x.1 with
  | some _ => .ok m
  | none =>
    let map := m.map.insert x.1 x.2
    if m.nMaxSize ≠ 0 ∧ map.size = m.nMaxSize then
      match m.rmap with
      | [] => .error .emptyIndex
      | begin :: rmap => .ok { m with map := map.erase begin.2, rmap := insertReverse x.2 x.1 rmap }
    else .ok { m with map, rmap := insertReverse x.2 x.1 m.rmap }

def erase (m : limitedmap K V) (k : K) : Except LimitedMapFault (limitedmap K V) :=
  match m.map.find k with
  | none => .ok m
  | some v =>
    if (v, k) ∈ m.rmap then .ok { m with map := m.map.erase k, rmap := m.rmap.erase (v, k) }
    else .error .assertion

/-- Gives the entry of an iterator, which is that of a key, another value. -/
def update (m : limitedmap K V) (k : K) (v : V) : Except LimitedMapFault (limitedmap K V) :=
  match m.map.find k with
  | none => .ok m
  | some old =>
    if (old, k) ∈ m.rmap then
      .ok { m with map := m.map.insert k v, rmap := insertReverse v k (m.rmap.erase (old, k)) }
    else .error .assertion

/-- Drops the lowest values while there are more than `s`. -/
def shrink (s : ℕ) : SortedMap K V → List (V × K) →
    Except LimitedMapFault (SortedMap K V × List (V × K))
  | map, [] => if s < map.size then .error .emptyIndex else .ok (map, [])
  | map, begin :: rmap =>
    if s < map.size then shrink s (map.erase begin.2) rmap else .ok (map, begin :: rmap)

def max_size (m : limitedmap K V) (s : ℕ) : Except LimitedMapFault (limitedmap K V) := do
  let (map, rmap) ← if s ≠ 0 then shrink s m.map m.rmap else .ok (m.map, m.rmap)
  return ⟨map, rmap, s⟩

/-- A call of one of the operations. -/
inductive Op (K V : Type) where
  | insert (x : K × V)
  | erase (k : K)
  | update (k : K) (v : V)
  | max_size (s : ℕ)

def perform (m : limitedmap K V) : Op K V → Except LimitedMapFault (limitedmap K V)
  | .insert x => m.insert x
  | .erase k => m.erase k
  | .update k v => m.update k v
  | .max_size s => m.max_size s

/-! ## What the calls are meant to keep -/

/-- The multimap has exactly one entry for each entry of the map, under its value. -/
structure Coherent (map : SortedMap K V) (rmap : List (V × K)) : Prop where
  nodup : rmap.Nodup
  mem_iff : ∀ v k, (v, k) ∈ rmap ↔ map.find k = some v

structure Kept (m : limitedmap K V) : Prop where
  coherent : Coherent m.map m.rmap
  limit : m.nMaxSize ≠ 0 → m.map.size ≤ m.nMaxSize

/-- An insertion removes an entry only when there would be too many, and then the lowest one. -/
def DropsLowest (m m' : limitedmap K V) : Prop :=
  ∀ k v, m.map.find k = some v → m'.map.find k = none →
    m.nMaxSize < m.map.size + 1 ∧ ∀ k' v', m.map.find k' = some v' → v ≤ v'

/-- A call does nothing undefined, and does what it is meant to. -/
def Meets (m : limitedmap K V) (op : Op K V) : Prop :=
  ∃ m', m.perform op = .ok m' ∧ Kept m' ∧ ∀ x, op = .insert x → DropsLowest m m'

/-- A call has room: one that inserts a new key does not reach the limit. -/
def HasRoom (m : limitedmap K V) (op : Op K V) : Prop :=
  ∀ x, op = .insert x → m.map.find x.1 = none → m.nMaxSize = 0 ∨ m.map.size + 1 < m.nMaxSize

/-- Each call of a run, in the state before it. -/
def Along (P : limitedmap K V → Op K V → Prop) : limitedmap K V → List (Op K V) → Prop
  | _, [] => True
  | m, op :: ops => P m op ∧ ∀ m', m.perform op = .ok m' → Along P m' ops

/-! ## The containers -/

section

variable {map : SortedMap K V} {rmap : List (V × K)} {k : K} {v v' : V} {x : K × V}

omit [LinearOrder K] in
theorem insertReverse_perm (v : V) (k : K) (rmap : List (V × K)) :
    (insertReverse v k rmap).Perm ((v, k) :: rmap) :=
  List.perm_orderedInsert _ _ _

variable (h : Coherent map rmap)
include h

omit [LinearOrder V] in
theorem Coherent.size : rmap.length = map.size := by
  have hperm : (rmap.map Prod.swap).Perm map.entries := by
    refine (List.perm_ext_iff_of_nodup (h.nodup.map Prod.swap_injective)
      (List.Nodup.of_map _ map.keys_nodup)).mpr fun e => ?_
    rw [← SortedMap.find_eq_some, ← h.mem_iff, List.mem_map]
    constructor
    · rintro ⟨e, he, rfl⟩
      exact he
    · exact fun he => ⟨(e.2, e.1), he, rfl⟩
  calc rmap.length = (rmap.map Prod.swap).length := (List.length_map _).symm
    _ = map.size := hperm.length_eq

theorem Coherent.insert (hk : map.find k = none) :
    Coherent (map.insert k v) (insertReverse v k rmap) := by
  have hperm := insertReverse_perm v k rmap
  have hnew : ∀ v, (v, k) ∉ rmap := by
    intro v hmem
    rw [h.mem_iff, hk] at hmem
    exact absurd hmem (Option.some_ne_none v).symm
  constructor
  · exact hperm.nodup_iff.mpr (List.nodup_cons.mpr ⟨hnew v, h.nodup⟩)
  · intro v' k'
    rw [hperm.mem_iff, List.mem_cons, h.mem_iff, SortedMap.find_insert, Prod.mk.injEq]
    by_cases heq : k' = k
    · subst heq
      simp [hk, eq_comm]
    · simp [heq]

theorem Coherent.erase (hk : map.find k = some v) : Coherent (map.erase k) (rmap.erase (v, k)) := by
  constructor
  · exact h.nodup.erase _
  · intro v' k'
    rw [h.nodup.mem_erase_iff, h.mem_iff, SortedMap.find_erase, ne_eq, Prod.mk.injEq]
    by_cases heq : k' = k
    · subst heq
      rw [hk, if_pos rfl]
      simp [eq_comm]
    · simp [heq]

/-- An entry is given another value by taking it out and putting it back. -/
theorem Coherent.update (hk : map.find k = some v) :
    Coherent (map.insert k v') (insertReverse v' k (rmap.erase (v, k))) := by
  have hsame : (map.erase k).insert k v' = map.insert k v' := by
    apply SortedMap.ext_find
    intro k'
    rw [SortedMap.find_insert, SortedMap.find_insert, SortedMap.find_erase]
    split_ifs <;> rfl
  rw [← hsame]
  apply (h.erase hk).insert
  rw [SortedMap.find_erase, if_pos rfl]

omit h

/-- The first entry of the multimap is taken out. -/
theorem Coherent.tail {begin : V × K} (h : Coherent map (begin :: rmap)) :
    Coherent (map.erase begin.2) rmap := by
  have hfst := (h.mem_iff begin.1 begin.2).mp List.mem_cons_self
  have herase := h.erase hfst
  rwa [List.erase_cons_head] at herase

theorem Coherent.size_insert (h : Coherent map rmap) (hk : map.find k = none) (v : V) :
    (map.insert k v).size = map.size + 1 := by
  rw [← (h.insert hk).size, ← h.size]
  exact (insertReverse_perm v k rmap).length_eq

/-- There are enough entries to drop, since the multimap has as many as the map. -/
theorem Coherent.shrink (h : Coherent map rmap) (s : ℕ) :
    ∃ map' rmap', limitedmap.shrink s map rmap = .ok (map', rmap') ∧ Coherent map' rmap' ∧
      map'.size ≤ s := by
  induction rmap generalizing map with
  | nil =>
    have hsize : map.size = 0 := h.size.symm
    exact ⟨map, [], if_neg (by omega), h, by omega⟩
  | cons begin rmap ih =>
    unfold limitedmap.shrink
    split
    · exact ih h.tail
    · exact ⟨map, begin :: rmap, rfl, h, by omega⟩

end

/-! ## The calls -/

variable {m m' : limitedmap K V} {op : Op K V}

variable (h : Kept m)
include h

/-- A new key is put in beside the other entries while that does not reach the limit. -/
theorem insert_of_room {x : K × V} (hnew : m.map.find x.1 = none)
    (hroom : m.nMaxSize = 0 ∨ m.map.size + 1 < m.nMaxSize) :
    m.insert x = .ok { m with map := m.map.insert x.1 x.2, rmap := insertReverse x.2 x.1 m.rmap } := by
  unfold insert
  rw [hnew]
  dsimp only
  rw [h.coherent.size_insert hnew, if_neg]
  omega

theorem meets_insert {x : K × V} (hroom : HasRoom m (.insert x)) : Meets m (.insert x) := by
  cases hfind : m.map.find x.1 with
  | some v =>
    refine ⟨m, ?_, h, fun _ _ k v hk hnone => ?_⟩
    · change m.insert x = _
      rw [insert, hfind]
    · rw [hk] at hnone
      exact absurd hnone (Option.some_ne_none _)
  | none =>
    have hfits := hroom x rfl hfind
    refine ⟨_, insert_of_room h hfind hfits, ⟨h.coherent.insert hfind, ?_⟩, ?_⟩
    · intro hlim
      dsimp only at hlim ⊢
      rw [h.coherent.size_insert hfind]
      omega
    · -- Every entry of before is still there.
      intro _ _ k v hk hnone
      rw [SortedMap.find_insert] at hnone
      split at hnone
      · exact absurd hnone (Option.some_ne_none _)
      · rw [hk] at hnone
        exact absurd hnone (Option.some_ne_none _)

/-- At the limit an entry is dropped too early, or there is none to drop; past it, none is dropped. -/
theorem not_meets_insert {x : K × V} (hnew : m.map.find x.1 = none)
    (hlim : m.nMaxSize ≠ 0) (hfull : m.nMaxSize ≤ m.map.size + 1) : ¬ Meets m (.insert x) := by
  rintro ⟨m', hperform, hkept, hdrops⟩
  change m.insert x = .ok m' at hperform
  unfold insert at hperform
  rw [hnew] at hperform
  dsimp only at hperform
  rw [h.coherent.size_insert hnew] at hperform
  split at hperform
  · rename_i hreached
    cases hrmap : m.rmap with
    | nil =>
      rw [hrmap] at hperform
      exact absurd hperform nofun
    | cons begin rmap =>
      rw [hrmap] at hperform
      cases hperform
      have hfst : m.map.find begin.2 = some begin.1 := by
        rw [← h.coherent.mem_iff, hrmap]
        exact List.mem_cons_self
      have hdropped : ((m.map.insert x.1 x.2).erase begin.2).find begin.2 = none := by
        rw [SortedMap.find_erase, if_pos rfl]
      have hover := (hdrops x rfl begin.2 begin.1 hfst hdropped).1
      omega
  · rename_i hpassed
    cases hperform
    have hsize := hkept.limit hlim
    dsimp only at hsize
    rw [h.coherent.size_insert hnew] at hsize
    exact hpassed ⟨hlim, by omega⟩

theorem meets_erase (k : K) : Meets m (.erase k) := by
  cases hfind : m.map.find k with
  | none =>
    refine ⟨m, ?_, h, nofun⟩
    change m.erase k = _
    rw [erase, hfind]
  | some v =>
    refine ⟨{ m with map := m.map.erase k, rmap := m.rmap.erase (v, k) }, ?_, ?_, nofun⟩
    · change m.erase k = _
      unfold erase
      rw [hfind]
      exact if_pos ((h.coherent.mem_iff v k).mpr hfind)
    · refine ⟨h.coherent.erase hfind, fun hlim => ?_⟩
      exact (SortedMap.size_erase_lt hfind).le.trans (h.limit hlim)

theorem meets_update (k : K) (v : V) : Meets m (.update k v) := by
  cases hfind : m.map.find k with
  | none =>
    refine ⟨m, ?_, h, nofun⟩
    change m.update k v = _
    rw [update, hfind]
  | some old =>
    have hmem := (h.coherent.mem_iff old k).mpr hfind
    have hcoherent : Coherent (m.map.insert k v) _ := h.coherent.update hfind
    refine ⟨{ m with map := m.map.insert k v, rmap := insertReverse v k (m.rmap.erase (old, k)) }, ?_,
      ⟨hcoherent, fun hlim => ?_⟩, nofun⟩
    · change m.update k v = _
      unfold update
      rw [hfind]
      exact if_pos hmem
    · have hlen : (insertReverse v k (m.rmap.erase (old, k))).length = m.rmap.length := by
        rw [(insertReverse_perm _ _ _).length_eq, List.length_cons, List.length_erase_of_mem hmem]
        exact Nat.sub_add_cancel (List.length_pos_of_mem hmem)
      rw [← hcoherent.size, hlen, h.coherent.size]
      exact h.limit hlim

theorem meets_max_size (s : ℕ) : Meets m (.max_size s) := by
  by_cases hs : s = 0
  · subst hs
    exact ⟨⟨m.map, m.rmap, 0⟩, rfl, ⟨h.coherent, fun hlim => absurd rfl hlim⟩, nofun⟩
  · obtain ⟨map, rmap, hshrink, hcoherent, hsize⟩ := h.coherent.shrink s
    refine ⟨⟨map, rmap, s⟩, ?_, ⟨hcoherent, fun _ => hsize⟩, nofun⟩
    change m.max_size s = _
    rw [max_size, if_pos hs, hshrink]
    rfl

/-- A call does what it is meant to exactly when it has room. -/
theorem meets_iff : Meets m op ↔ HasRoom m op := by
  constructor
  · rintro hmeets x rfl hnew
    by_contra hfull
    push Not at hfull
    exact not_meets_insert h hnew hfull.1 hfull.2 hmeets
  · intro hroom
    cases op with
    | insert x => exact meets_insert h hroom
    | erase k => exact meets_erase h k
    | update k v => exact meets_update h k v
    | max_size s => exact meets_max_size h s

theorem along_meets_iff (ops : List (Op K V)) : Along Meets m ops ↔ Along HasRoom m ops := by
  induction ops generalizing m with
  | nil => exact Iff.rfl
  | cons op ops ih =>
    rw [Along, Along, meets_iff h]
    refine and_congr_right fun hroom => forall_congr' fun m' => forall_congr' fun hperform => ?_
    obtain ⟨m'', hperform', hkept, -⟩ := (meets_iff h).mpr hroom
    rw [hperform] at hperform'
    cases hperform'
    exact ih hkept

omit h

omit [LinearOrder V] in
theorem kept_new (nMaxSizeIn : ℕ) : Kept (new nMaxSizeIn : limitedmap K V) :=
  ⟨⟨List.nodup_nil, fun _ _ => ⟨nofun, nofun⟩⟩, fun _ => Nat.zero_le _⟩

/-- From the empty map, every call of a run does what it is meant to exactly when every insertion of a new
key leaves a place free. -/
theorem new_meets_iff (nMaxSizeIn : ℕ) (ops : List (Op K V)) :
    Along Meets (new nMaxSizeIn) ops ↔ Along HasRoom (new nMaxSizeIn) ops :=
  along_meets_iff (kept_new nMaxSizeIn) ops

/-- With a limit of one, the first insertion finds nothing to drop. -/
theorem first_insert_fails : ¬ ∀ (nMaxSizeIn : ℕ) (ops : List (Op ℕ ℕ)), 1 ≤ nMaxSizeIn →
    Along Meets (new nMaxSizeIn) ops := by
  intro h
  obtain ⟨m', hperform, -⟩ := (h 1 [.insert (0, 0)] le_rfl).1
  exact absurd hperform nofun

end limitedmap

end ZalemCoin.Network
