import Mathlib.Data.List.Nodup

/-!
# Lists with iterators

Every element of a list has an iterator, which stays with it while others come and go and is not used
again. Several owners may have lists of their own, and a map that leads from the key of an element to its
owner and its iterator indexes all of them. The rules below say how a list and the index change
together.
-/

namespace ZalemCoin.Lib

open Function (update_of_ne update_self)
open Option (mem_unique some.inj)

/-- A list whose elements have iterators. -/
structure StableList (α : Type*) where
  /-- The elements with their iterators, the first one first. -/
  nodes : List (ℕ × α)
  /-- The iterator of the element that comes next. -/
  next : ℕ
  /-- No iterator stands for two elements. -/
  distinct : (nodes.map Prod.fst).Nodup
  fresh : ∀ node ∈ nodes, node.1 < next

variable {α : Type*} {l : StableList α} {a : α} {it : ℕ}

namespace StableList

def empty : StableList α := ⟨[], 0, List.nodup_nil, fun _ h => nomatch h⟩

/-- The number of elements. -/
def length (l : StableList α) : ℕ := l.nodes.length

/-- The elements, the first one first. -/
def values (l : StableList α) : List α := l.nodes.map Prod.snd

/-- The first element. -/
def front (l : StableList α) : Option α := l.values.head?

/-- The element that an iterator stands for. -/
def get (l : StableList α) (it : ℕ) : Option α :=
  (l.nodes.find? fun node => node.1 == it).map Prod.snd

/-- Inserts an element at the end; its iterator is the one that comes next. -/
def pushBack (l : StableList α) (a : α) : StableList α where
  nodes := l.nodes ++ [(l.next, a)]
  next := l.next + 1
  distinct := by
    rw [List.map_append, List.map_singleton, List.nodup_append]
    refine ⟨l.distinct, List.nodup_singleton _, ?_⟩
    intro it hit it' hit' heq
    obtain ⟨node, hnode, rfl⟩ := List.mem_map.mp hit
    have hless := l.fresh node hnode
    rw [List.mem_singleton.mp hit'] at heq
    omega
  fresh := by
    intro node hnode
    rcases List.mem_append.mp hnode with hold | hnew
    · exact Nat.lt_succ_of_lt (l.fresh node hold)
    · rw [List.mem_singleton.mp hnew]
      exact Nat.lt_succ_self _

def erase (l : StableList α) (it : ℕ) : StableList α where
  nodes := l.nodes.filter fun node => node.1 ≠ it
  next := l.next
  distinct := (List.filter_sublist.map Prod.fst).nodup l.distinct
  fresh node hnode := l.fresh node (List.mem_of_mem_filter hnode)

variable {it' : ℕ}

theorem get_eq_some : l.get it = some a ↔ (it, a) ∈ l.nodes := by
  unfold get
  rw [Option.map_eq_some_iff]
  constructor
  · rintro ⟨⟨it', a'⟩, hfind, rfl⟩
    have hit : it' = it := by simpa using List.find?_some hfind
    rw [← hit]
    exact List.mem_of_find?_eq_some hfind
  · intro hmem
    obtain ⟨node, hfind⟩ : ∃ node, l.nodes.find? (fun node => node.1 == it) = some node := by
      rw [← Option.isSome_iff_exists, List.find?_isSome]
      exact ⟨(it, a), hmem, by simp⟩
    have hit : node.1 = (it, a).1 := by simpa using List.find?_some hfind
    rw [List.inj_on_of_nodup_map l.distinct (List.mem_of_find?_eq_some hfind) hmem hit] at hfind
    exact ⟨(it, a), hfind, rfl⟩

@[simp]
theorem get_empty (it : ℕ) : (empty : StableList α).get it = none := rfl

theorem mem_values : a ∈ l.values ↔ ∃ it, l.get it = some a := by
  unfold values
  rw [List.mem_map]
  constructor
  · rintro ⟨node, hnode, rfl⟩
    exact ⟨node.1, get_eq_some.mpr hnode⟩
  · rintro ⟨it, hget⟩
    exact ⟨(it, a), get_eq_some.mp hget, rfl⟩

theorem get_pushBack (l : StableList α) (a : α) (it : ℕ) :
    (l.pushBack a).get it = if it = l.next then some a else l.get it := by
  ext b
  rw [get_eq_some]
  change (it, b) ∈ l.nodes ++ [(l.next, a)] ↔ _
  rw [List.mem_append, List.mem_singleton, Prod.mk.injEq]
  by_cases hit : it = l.next
  · have hold : (it, b) ∉ l.nodes := fun hmem => by
      have hless := l.fresh _ hmem
      omega
    rw [hit] at hold ⊢
    simp [hold, eq_comm]
  · simp [hit, get_eq_some]

theorem get_erase (l : StableList α) (it it' : ℕ) :
    (l.erase it).get it' = if it' = it then none else l.get it' := by
  ext b
  rw [get_eq_some]
  change (it', b) ∈ l.nodes.filter _ ↔ _
  rw [List.mem_filter]
  by_cases hit : it' = it
  · simp [hit]
  · simp [hit, get_eq_some]

theorem length_pushBack (l : StableList α) (a : α) : (l.pushBack a).length = l.length + 1 := by
  change (l.nodes ++ [(l.next, a)]).length = _
  rw [List.length_append, List.length_singleton]
  rfl

theorem length_erase (h : l.get it = some a) : (l.erase it).length + 1 = l.length := by
  obtain ⟨before, after, hsplit⟩ := List.append_of_mem (get_eq_some.mp h)
  have hdist := l.distinct
  rw [hsplit, List.map_append, List.map_cons] at hdist
  have hbef : ∀ node ∈ before, node.1 ≠ it := by
    intro node hnode hit
    exact (List.nodup_append.mp hdist).2.2 it (List.mem_map.mpr ⟨node, hnode, hit⟩) it
      List.mem_cons_self rfl
  have haft : ∀ node ∈ after, node.1 ≠ it := by
    intro node hnode hit
    exact (List.nodup_cons.mp (List.nodup_append.mp hdist).2.1).1
      (List.mem_map.mpr ⟨node, hnode, hit⟩)
  change (l.nodes.filter fun node => node.1 ≠ it).length + 1 = l.nodes.length
  rw [hsplit, List.filter_append, List.filter_cons_of_neg (by simp),
    List.filter_eq_self.mpr (by simpa using hbef),
    List.filter_eq_self.mpr (by simpa using haft), List.length_append, List.length_append,
    List.length_cons, Nat.add_assoc]

theorem front_eq_none : l.front = none ↔ l.length = 0 := by
  unfold front values length
  rw [List.head?_eq_none_iff, List.map_eq_nil_iff, List.length_eq_zero_iff]

theorem get_of_front (h : l.front = some a) : ∃ it, l.get it = some a :=
  mem_values.mp (List.mem_of_head? h)

end StableList

/-! ## Indexes of several lists -/

variable {ι κ ν : Type*}

/-- A map indexes the lists of some owners: it leads from a key to an owner and an iterator exactly when
the owner has an element with the key there. -/
def Indexes (key : α → κ) (lists : ι → Option (StableList α)) (map : κ → Option (ι × ℕ)) : Prop :=
  ∀ k o it, map k = some (o, it) ↔ ∃ l a, lists o = some l ∧ l.get it = some a ∧ key a = k

def eraseKeys [DecidableEq κ] (keys : List κ) (map : κ → Option ν) : κ → Option ν :=
  keys.foldl (fun map k => Function.update map k none) map

theorem eraseKeys_apply [DecidableEq κ] (keys : List κ) (map : κ → Option ν) (k : κ) :
    eraseKeys keys map k = if k ∈ keys then none else map k := by
  induction keys generalizing map with
  | nil => simp [eraseKeys]
  | cons k' keys ih =>
    change eraseKeys keys (Function.update map k' none) k = _
    rw [ih]
    by_cases hk : k = k'
    · simp [hk]
    · simp [hk]

namespace Indexes

variable {key : α → κ} {lists : ι → Option (StableList α)} {map : κ → Option (ι × ℕ)} {k : κ}
  {o : ι}

theorem entry (h : Indexes key lists map) (hlist : lists o = some l) (hget : l.get it = some a) :
    map (key a) = some (o, it) :=
  (h _ _ _).mpr ⟨l, a, hlist, hget, rfl⟩

theorem element (h : Indexes key lists map) (hmap : map k = some (o, it)) :
    ∃ l a, lists o = some l ∧ l.get it = some a ∧ key a = k :=
  (h _ _ _).mp hmap

theorem noLists : Indexes key (fun _ : ι => none) (fun _ => none) := by
  simp [Indexes]

variable [DecidableEq ι] [DecidableEq κ]

variable (h : Indexes key lists map)
include h

theorem pushBack (hlist : lists o = some l) (hmap : map (key a) = none) :
    Indexes key (Function.update lists o (some (l.pushBack a)))
      (Function.update map (key a) (some (o, l.next))) := by
  intro k o' it
  by_cases ho : o' = o
  · subst ho
    rw [update_self]
    by_cases hk : k = key a
    · subst hk
      rw [update_self]
      constructor
      · rintro heq
        cases heq
        exact ⟨_, a, rfl, by rw [StableList.get_pushBack, if_pos rfl], rfl⟩
      · rintro ⟨_, b, ⟨⟩, hget, hkey⟩
        rw [StableList.get_pushBack] at hget
        split at hget
        · rename_i hit
          rw [hit]
        · rw [← hkey, entry h hlist hget] at hmap
          exact absurd hmap (by simp)
    · rw [update_of_ne hk, h]
      constructor
      · rintro ⟨l', b, hl', hget, hkey⟩
        obtain rfl := mem_unique hlist hl'
        refine ⟨_, b, rfl, ?_, hkey⟩
        rw [StableList.get_pushBack, if_neg, hget]
        have hless := l.fresh _ (StableList.get_eq_some.mp hget)
        exact Nat.ne_of_lt hless
      · rintro ⟨_, b, ⟨⟩, hget, hkey⟩
        rw [StableList.get_pushBack] at hget
        split at hget
        · exact absurd (hkey ▸ congrArg key (some.inj hget).symm) hk
        · exact ⟨l, b, hlist, hget, hkey⟩
  · rw [update_of_ne ho]
    by_cases hk : k = key a
    · subst hk
      rw [update_self, ← h, hmap]
      simp [Ne.symm ho]
    · rw [update_of_ne hk]
      exact h k o' it

/-- Erasing an element and its key keeps the index right. -/
theorem erase (hlist : lists o = some l) (hmap : map k = some (o, it)) :
    Indexes key (Function.update lists o (some (l.erase it)))
      (Function.update map k none) := by
  intro k' o' it'
  obtain ⟨l₀, a, hl₀, hget, hkey⟩ := element h hmap
  obtain rfl := mem_unique hlist hl₀
  by_cases hk : k' = k
  · -- The one element with the key is gone.
    subst hk
    rw [update_self]
    simp only [reduceCtorEq, false_iff]
    rintro ⟨l', b, hl', hget', hkey'⟩
    by_cases ho : o' = o
    · subst ho
      rw [update_self] at hl'
      cases hl'
      rw [StableList.get_erase] at hget'
      split at hget'
      · simp at hget'
      · rename_i hit
        have hent := entry h hlist hget'
        rw [hkey', hmap] at hent
        exact hit (Prod.mk.inj (some.inj hent)).2.symm
    · rw [update_of_ne ho] at hl'
      have hent := entry h hl' hget'
      rw [hkey', hmap] at hent
      exact ho (Prod.mk.inj (some.inj hent)).1.symm
  · rw [update_of_ne hk, h]
    by_cases ho : o' = o
    · subst ho
      rw [update_self]
      constructor
      · rintro ⟨l', b, hl', hget', hkey'⟩
        obtain rfl := mem_unique hlist hl'
        refine ⟨_, b, rfl, ?_, hkey'⟩
        rw [StableList.get_erase, if_neg, hget']
        rintro rfl
        rw [hget] at hget'
        exact hk (by rw [← hkey', ← hkey, some.inj hget'])
      · rintro ⟨_, b, ⟨⟩, hget', hkey'⟩
        rw [StableList.get_erase] at hget'
        split at hget'
        · simp at hget'
        · exact ⟨l, b, hlist, hget', hkey'⟩
    · rw [update_of_ne ho]

theorem removeOwner (hlist : lists o = some l) :
    Indexes key (Function.update lists o none) (eraseKeys (l.values.map key) map) := by
  intro k o' it
  rw [eraseKeys_apply]
  by_cases hk : k ∈ l.values.map key
  · rw [if_pos hk]
    simp only [reduceCtorEq, false_iff]
    rintro ⟨l', b, hl', hget, hkey⟩
    obtain ⟨a, hmem, hkeya⟩ := List.mem_map.mp hk
    obtain ⟨it', hget'⟩ := StableList.mem_values.mp hmem
    by_cases ho : o' = o
    · rw [ho, update_self] at hl'
      exact absurd hl' (by simp)
    · rw [update_of_ne ho] at hl'
      have hent := entry h hlist hget'
      rw [hkeya, ← hkey, entry h hl' hget] at hent
      exact ho (Prod.mk.inj (some.inj hent)).1
  · rw [if_neg hk, h]
    by_cases ho : o' = o
    · subst ho
      rw [update_self]
      simp only [reduceCtorEq, false_and, exists_false, iff_false]
      rintro ⟨l', b, hl', hget, hkey⟩
      obtain rfl := mem_unique hlist hl'
      exact hk (List.mem_map.mpr ⟨b, StableList.mem_values.mpr ⟨it, hget⟩, hkey⟩)
    · rw [update_of_ne ho]

omit [DecidableEq κ] in
theorem addOwner (hlist : lists o = none) :
    Indexes key (Function.update lists o (some StableList.empty)) map := by
  intro k o' it
  rw [h]
  by_cases ho : o' = o
  · subst ho
    rw [update_self, hlist]
    simp
  · rw [update_of_ne ho]

end Indexes

end ZalemCoin.Lib
