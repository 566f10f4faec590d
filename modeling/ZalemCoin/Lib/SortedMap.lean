import Mathlib.Data.List.Nodup
import Mathlib.Order.Lattice

/-!
# Sorted maps

A map whose entries are kept in the order of their keys. Its first entry is the one with the least
key, and a loop over the map visits the entries in the order of the keys. A lookup says which value
a key has; every operation is described by what it does to the lookups and to the first entry.
-/

namespace ZalemCoin.Lib

/-- Bytes have the order of their numbers, and texts the order of a dictionary. -/
instance instLinearOrderUInt8 : LinearOrder UInt8 where
  le_refl := UInt8.le_refl
  le_trans _ _ _ := UInt8.le_trans
  lt_iff_le_not_ge a b := by
    rw [UInt8.not_le]
    exact ⟨fun h => ⟨UInt8.le_of_lt h, h⟩, And.right⟩
  le_antisymm _ _ := UInt8.le_antisymm
  le_total := UInt8.le_total
  toDecidableLE := inferInstance

/-- A map with its entries in the order of their keys. -/
structure SortedMap (κ ν : Type*) [LT κ] where
  /-- The entries, the least key first. -/
  entries : List (κ × ν)
  /-- No key stands twice, and each stands before the larger ones. -/
  sorted : entries.Pairwise fun a b => a.1 < b.1

namespace SortedMap

variable {κ ν : Type*} [LinearOrder κ]

def empty : SortedMap κ ν := ⟨[], List.Pairwise.nil⟩

/-- The value of a key. -/
def find (m : SortedMap κ ν) (k : κ) : Option ν :=
  (m.entries.find? fun e => decide (e.1 = k)).map Prod.snd

def first (m : SortedMap κ ν) : Option (κ × ν) := m.entries.head?

def keys (m : SortedMap κ ν) : List κ := m.entries.map Prod.fst

/-- Sets the value of a key in a list of entries. -/
def insertEntry (k : κ) (v : ν) : List (κ × ν) → List (κ × ν)
  | [] => [(k, v)]
  | e :: entries =>
    if k < e.1 then (k, v) :: e :: entries
    else if k = e.1 then (k, v) :: entries
    else e :: insertEntry k v entries

variable {k : κ} {v : ν} {entries : List (κ × ν)} {m : SortedMap κ ν}

theorem mem_insertEntry {e : κ × ν} (h : e ∈ insertEntry k v entries) :
    e = (k, v) ∨ e ∈ entries := by
  induction entries with
  | nil => exact .inl (List.mem_singleton.mp h)
  | cons a entries ih =>
    unfold insertEntry at h
    split at h
    · exact List.mem_cons.mp h
    · split at h
      · rcases List.mem_cons.mp h with h | h
        · exact .inl h
        · exact .inr (List.mem_cons_of_mem _ h)
      · rcases List.mem_cons.mp h with h | h
        · exact .inr (h ▸ List.mem_cons_self)
        · exact (ih h).imp_right (List.mem_cons_of_mem _)

theorem insertEntry_sorted (h : entries.Pairwise fun a b => a.1 < b.1) :
    (insertEntry k v entries).Pairwise fun a b => a.1 < b.1 := by
  induction entries with
  | nil => exact List.pairwise_singleton _ _
  | cons e entries ih =>
    obtain ⟨hfst, hrest⟩ := List.pairwise_cons.mp h
    unfold insertEntry
    split
    · rename_i hlt
      refine List.pairwise_cons.mpr ⟨fun b hb => ?_, h⟩
      rcases List.mem_cons.mp hb with rfl | hb
      · exact hlt
      · exact hlt.trans (hfst b hb)
    · rename_i hge
      split
      · rename_i heq
        exact List.pairwise_cons.mpr ⟨fun b hb => heq ▸ hfst b hb, hrest⟩
      · rename_i hne
        refine List.pairwise_cons.mpr ⟨fun b hb => ?_, ih hrest⟩
        rcases mem_insertEntry hb with rfl | hb
        · exact lt_of_le_of_ne (not_lt.mp hge) (Ne.symm hne)
        · exact hfst b hb

/-- Sets the value of a key. -/
def insert (m : SortedMap κ ν) (k : κ) (v : ν) : SortedMap κ ν :=
  ⟨insertEntry k v m.entries, insertEntry_sorted m.sorted⟩

@[simp]
theorem find_empty (k : κ) : (empty : SortedMap κ ν).find k = none := rfl

theorem keys_nodup (m : SortedMap κ ν) : m.keys.Nodup :=
  List.pairwise_map.mpr (m.sorted.imp fun hlt => ne_of_lt hlt)

theorem find_eq_some {m : SortedMap κ ν} {k : κ} {v : ν} :
    m.find k = some v ↔ (k, v) ∈ m.entries := by
  constructor
  · intro h
    obtain ⟨e, he, rfl⟩ := Option.map_eq_some_iff.mp h
    have hkey : decide (e.1 = k) = true :=
      @List.find?_some _ (fun e : κ × ν => decide (e.1 = k)) _ _ he
    rw [← of_decide_eq_true hkey]
    exact List.mem_of_find?_eq_some he
  · intro h
    unfold find
    cases hfound : m.entries.find? fun e => decide (e.1 = k) with
    | none => exact absurd (List.find?_eq_none.mp hfound _ h) (by simp)
    | some e =>
      -- Both entries have the key, and a key stands once.
      have hkey : decide (e.1 = k) = true :=
        @List.find?_some _ (fun e : κ × ν => decide (e.1 = k)) _ _ hfound
      have hmem := List.mem_of_find?_eq_some hfound
      rw [List.inj_on_of_nodup_map m.keys_nodup hmem h (of_decide_eq_true hkey)]
      rfl

theorem ext_find {m' : SortedMap κ ν} (h : ∀ k, m.find k = m'.find k) : m = m' := by
  have hnd (m : SortedMap κ ν) : m.entries.Nodup := m.sorted.imp fun hlt heq => hlt.ne (by rw [heq])
  have hperm : m.entries.Perm m'.entries := by
    refine (List.perm_ext_iff_of_nodup (hnd m) (hnd m')).mpr fun e => ?_
    rw [← find_eq_some, ← find_eq_some, h]
  have hents : m.entries = m'.entries :=
    hperm.eq_of_pairwise (fun _ _ _ _ hlt hgt => absurd hgt hlt.asymm) m.sorted m'.sorted
  cases m
  cases m'
  congr

theorem insertEntry_of_lt (h : ∀ e ∈ entries, e.1 < k) :
    insertEntry k v entries = entries ++ [(k, v)] := by
  induction entries with
  | nil => rfl
  | cons e entries ih =>
    obtain ⟨hlt, hrest⟩ := List.forall_mem_cons.mp h
    rw [insertEntry, if_neg hlt.asymm, if_neg hlt.ne', ih hrest]
    rfl

theorem find_eq_none : m.find k = none ↔ k ∉ m.keys := by
  constructor
  · intro h hmem
    obtain ⟨⟨k', v⟩, he, rfl⟩ := List.mem_map.mp hmem
    rw [find_eq_some.mpr he] at h
    exact Option.some_ne_none v h
  · intro h
    cases hv : m.find k with
    | none => rfl
    | some v => exact absurd (List.mem_map_of_mem (f := Prod.fst) (find_eq_some.mp hv)) h

theorem mem_insertEntry_iff (h : entries.Pairwise fun a b => a.1 < b.1) (e : κ × ν) :
    e ∈ insertEntry k v entries ↔ e = (k, v) ∨ e ∈ entries ∧ e.1 ≠ k := by
  induction entries with
  | nil => simp [insertEntry]
  | cons a entries ih =>
    obtain ⟨hfst, hrest⟩ := List.pairwise_cons.mp h
    unfold insertEntry
    split
    · rename_i hlt
      have hother : ∀ b ∈ a :: entries, b.1 ≠ k := by
        intro b hb
        rcases List.mem_cons.mp hb with rfl | hb
        · exact ne_of_gt hlt
        · exact ne_of_gt (hlt.trans (hfst b hb))
      rw [List.mem_cons]
      exact or_congr_right ⟨fun hmem => ⟨hmem, hother e hmem⟩, And.left⟩
    · split
      · rename_i heq
        have hother : ∀ b ∈ entries, b.1 ≠ k := fun b hb => heq ▸ ne_of_gt (hfst b hb)
        rw [List.mem_cons, List.mem_cons]
        apply or_congr_right
        constructor
        · intro hmem
          exact ⟨.inr hmem, hother e hmem⟩
        · rintro ⟨rfl | hmem, hne⟩
          · exact absurd heq.symm hne
          · exact hmem
      · rename_i hne
        rw [List.mem_cons, ih hrest, List.mem_cons]
        constructor
        · rintro (rfl | rfl | ⟨hmem, hk⟩)
          · exact .inr ⟨.inl rfl, Ne.symm hne⟩
          · exact .inl rfl
          · exact .inr ⟨.inr hmem, hk⟩
        · rintro (rfl | ⟨rfl | hmem, hk⟩)
          · exact .inr (.inl rfl)
          · exact .inl rfl
          · exact .inr (.inr ⟨hmem, hk⟩)

theorem find_insert (m : SortedMap κ ν) (k k' : κ) (v : ν) :
    (m.insert k v).find k' = if k' = k then some v else m.find k' := by
  apply Option.ext
  intro w
  rw [find_eq_some]
  change (k', w) ∈ insertEntry k v m.entries ↔ _
  rw [mem_insertEntry_iff m.sorted, Prod.mk.injEq]
  split
  · rename_i heq
    simp [heq, eq_comm]
  · rename_i hne
    simp [hne, find_eq_some]

@[simp]
theorem find_insert_self (m : SortedMap κ ν) (k : κ) (v : ν) : (m.insert k v).find k = some v := by
  rw [find_insert, if_pos rfl]

theorem find_insert_of_ne {k' : κ} (h : k' ≠ k) : (m.insert k v).find k' = m.find k' := by
  rw [find_insert, if_neg h]

def erase (m : SortedMap κ ν) (k : κ) : SortedMap κ ν :=
  ⟨m.entries.filter fun e => decide (e.1 ≠ k), m.sorted.filter _⟩

theorem find_erase (m : SortedMap κ ν) (k k' : κ) :
    (m.erase k).find k' = if k' = k then none else m.find k' := by
  apply Option.ext
  intro w
  rw [find_eq_some]
  change (k', w) ∈ m.entries.filter _ ↔ _
  rw [List.mem_filter]
  split
  · rename_i heq
    simp [heq]
  · rename_i hne
    simp [hne, find_eq_some]

/-- The entries whose values meet a condition. -/
def filter (m : SortedMap κ ν) (p : ν → Bool) : SortedMap κ ν :=
  ⟨m.entries.filter fun e => p e.2, m.sorted.filter _⟩

theorem find_filter {p : ν → Bool} : (m.filter p).find k = some v ↔ m.find k = some v ∧ p v = true := by
  rw [find_eq_some, find_eq_some]
  exact List.mem_filter

/-- Changes the value of a key that has one. -/
def modify (m : SortedMap κ ν) (k : κ) (f : ν → ν) : SortedMap κ ν :=
  match m.find k with
  | none => m
  | some v => m.insert k (f v)

theorem find_modify (m : SortedMap κ ν) (k k' : κ) (f : ν → ν) :
    (m.modify k f).find k' = if k' = k then (m.find k).map f else m.find k' := by
  unfold modify
  cases hk : m.find k with
  | none =>
    change m.find k' = if k' = k then none else m.find k'
    split
    · rename_i heq
      rw [heq, hk]
    · rfl
  | some v => exact find_insert m k k' (f v)

theorem first_eq_some (h : m.first = some (k, v)) :
    m.find k = some v ∧ ∀ k' v', m.find k' = some v' → k ≤ k' := by
  obtain ⟨rest, hents⟩ : ∃ rest, m.entries = (k, v) :: rest := List.head?_eq_some_iff.mp h
  have hsort := m.sorted
  rw [hents] at hsort
  refine ⟨find_eq_some.mpr (hents ▸ List.mem_cons_self), fun k' v' hfind => ?_⟩
  have hmem := find_eq_some.mp hfind
  rw [hents] at hmem
  rcases List.mem_cons.mp hmem with heq | hmem
  · exact le_of_eq (congrArg Prod.fst heq).symm
  · exact le_of_lt ((List.pairwise_cons.mp hsort).1 _ hmem)

/-- The first entry whose key is not less than a given one. -/
def lowerBound (m : SortedMap κ ν) (k : κ) : Option (κ × ν) :=
  m.entries.find? fun e => decide (k ≤ e.1)

/-- The number of entries. -/
def size (m : SortedMap κ ν) : ℕ := m.entries.length

theorem mem_keys : k ∈ m.keys ↔ ∃ v, m.find k = some v := by
  rw [← Option.ne_none_iff_exists', ne_eq, find_eq_none, not_not]

theorem find_of_lowerBound {e : κ × ν} (h : m.lowerBound k = some e) : m.find e.1 = some e.2 :=
  find_eq_some.mpr (List.mem_of_find?_eq_some h)

theorem size_eq_zero : m.size = 0 ↔ m = empty := by
  constructor
  · intro h
    obtain ⟨entries, sorted⟩ := m
    obtain rfl : entries = [] := List.length_eq_zero_iff.mp h
    rfl
  · rintro rfl
    rfl

theorem size_erase_lt (h : m.find k = some v) : (m.erase k).size < m.size :=
  List.length_filter_lt_length_iff_exists.mpr ⟨(k, v), find_eq_some.mp h, by simp⟩

end SortedMap

end ZalemCoin.Lib
