import Mathlib.Data.Fintype.Card
import Mathlib.Data.Int.Init

/-!
# Tables with two tiers

A table gives each of its entries a number. An entry is either settled, and then it stands in the
one bucket of the settled tier that is its home, or pending, and then it stands in one or more
buckets of the pending tier and counts them. An index finds the number of an entry from its key.

`Valid` says that the numbers, the index, the buckets and the counts agree. While an entry is being
put into a bucket of the pending tier it is counted there before it is there: the table then owes
the entry a place.
-/

namespace ZalemCoin.Lib

open Function (update update_apply update_of_ne)

structure TierEntry (β : Type*) where
  item : β
  settled : Bool
  refs : ℤ

/-- A table of entries in two tiers of buckets. -/
@[ext]
structure TierTable (α β τ ν : Type*) where
  entry : ℕ → Option (TierEntry β)
  index : α → Option ℕ
  /-- The number of the next entry. -/
  next : ℕ
  nSettled : ℤ
  nPending : ℤ
  settled : τ → Finset ℕ
  pending : ν → Finset ℕ

/-- How a table arranges its entries. -/
structure TierRules (α β τ : Type*) where
  /-- What an entry is found by. -/
  key : β → α
  /-- The bucket of a settled entry. -/
  home : β → τ
  /-- The largest number of places that a pending entry has. -/
  limit : ℤ

namespace TierTable

variable {α β τ ν : Type*}

def idsWith (t : TierTable α β τ ν) (tier : Bool) : Finset ℕ :=
  (Finset.range t.next).filter fun id => (t.entry id).any fun e => e.settled == tier

/-- The buckets that an entry stands in. -/
def shelvesOf [Fintype ν] (pending : ν → Finset ℕ) (id : ℕ) : Finset ν :=
  Finset.univ.filter fun b => id ∈ pending b

/-- The numbers, the index, the buckets and the counts agree, but for one place that an entry is
still owed. -/
structure Valid [Fintype ν] (R : TierRules α β τ) (owed : Option ℕ) (t : TierTable α β τ ν) :
    Prop where
  /-- The numbers have been given out. -/
  known : ∀ id e, t.entry id = some e → id < t.next
  index_iff : ∀ a id, t.index a = some id ↔ ∃ e, t.entry id = some e ∧ R.key e.item = a
  /-- The buckets of the settled tier hold the settled entries, each at its home. -/
  mem_settled : ∀ b id,
    id ∈ t.settled b ↔ ∃ e, t.entry id = some e ∧ e.settled = true ∧ R.home e.item = b
  /-- The buckets of the pending tier hold pending entries. -/
  of_mem_pending : ∀ b id, id ∈ t.pending b → ∃ e, t.entry id = some e ∧ e.settled = false
  /-- An entry counts its places. -/
  refs_eq : ∀ id e, t.entry id = some e →
    e.refs = (shelvesOf t.pending id).card + if owed = some id then 1 else 0
  /-- A pending entry has a place, and not too many. -/
  refs_pos : ∀ id e, t.entry id = some e → e.settled = false → 1 ≤ e.refs ∧ e.refs ≤ R.limit
  settled_count : ((t.idsWith true).card : ℤ) = t.nSettled
  pending_count : ((t.idsWith false).card : ℤ) = t.nPending

/-- Every entry has the property, which is about its item and its tier. -/
def All (P : β → Bool → Prop) (t : TierTable α β τ ν) : Prop :=
  ∀ id e, t.entry id = some e → P e.item e.settled

variable {id : ℕ}

section

variable [Fintype ν]

@[simp]
theorem mem_shelvesOf {pending : ν → Finset ℕ} {b : ν} :
    b ∈ shelvesOf pending id ↔ id ∈ pending b := by
  unfold shelvesOf
  rw [Finset.mem_filter]
  exact and_iff_right (Finset.mem_univ b)

variable [DecidableEq ν]

variable (pending : ν → Finset ℕ)

theorem shelvesOf_update_of_iff {b : ν} {s : Finset ℕ} (h : id ∈ s ↔ id ∈ pending b) :
    shelvesOf (update pending b s) id = shelvesOf pending id := by
  ext b'
  rw [mem_shelvesOf, mem_shelvesOf, update_apply]
  split
  · rename_i hb
    rw [h, hb]
  · rfl

theorem shelvesOf_insert_self (id : ℕ) (b : ν) :
    shelvesOf (update pending b (insert id (pending b))) id
      = insert b (shelvesOf pending id) := by
  ext b'
  rw [mem_shelvesOf, Finset.mem_insert, mem_shelvesOf, update_apply]
  split
  · rename_i h
    simp [h]
  · rename_i h
    simp [h]

theorem shelvesOf_insert_of_ne {id' : ℕ} (b : ν) (h : id' ≠ id) :
    shelvesOf (update pending b (insert id (pending b))) id' = shelvesOf pending id' :=
  shelvesOf_update_of_iff pending (Finset.mem_insert.trans (or_iff_right h))

theorem shelvesOf_erase_self (id : ℕ) (b : ν) :
    shelvesOf (update pending b ((pending b).erase id)) id
      = (shelvesOf pending id).erase b := by
  ext b'
  rw [mem_shelvesOf, Finset.mem_erase, mem_shelvesOf, update_apply]
  split
  · rename_i h
    simp [h]
  · rename_i h
    simp [h]

theorem shelvesOf_erase_of_ne {id' : ℕ} (b : ν) (h : id' ≠ id) :
    shelvesOf (update pending b ((pending b).erase id)) id' = shelvesOf pending id' :=
  shelvesOf_update_of_iff pending (Finset.mem_erase.trans (and_iff_right h))

end

section

variable [DecidableEq α] [DecidableEq ν] [DecidableEq τ]

/-- A new pending entry, which is owed its first place. -/
def enter (R : TierRules α β τ) (t : TierTable α β τ ν) (x : β) : TierTable α β τ ν :=
  { t with
    entry := Function.update t.entry t.next (some ⟨x, false, 1⟩)
    index := Function.update t.index (R.key x) (some t.next)
    next := t.next + 1
    nPending := t.nPending + 1 }

/-- One more place for an entry, which it is owed. -/
def owe (t : TierTable α β τ ν) (id : ℕ) : TierTable α β τ ν :=
  { t with
    entry := Function.update t.entry id
      ((t.entry id).map fun e => { e with refs := e.refs + 1 }) }

def mapItem (t : TierTable α β τ ν) (id : ℕ) (f : β → β) : TierTable α β τ ν :=
  { t with
    entry := Function.update t.entry id
      ((t.entry id).map fun e => { e with item := f e.item }) }

/-- The place that an entry is owed. -/
def shelve (t : TierTable α β τ ν) (id : ℕ) (b : ν) : TierTable α β τ ν :=
  { t with pending := Function.update t.pending b (insert id (t.pending b)) }

/-- An entry loses a place, and leaves the table with its last one. -/
def unshelve (R : TierRules α β τ) (t : TierTable α β τ ν) (id : ℕ) (b : ν) :
    TierTable α β τ ν :=
  match t.entry id with
  | none => t
  | some e =>
    if e.refs - 1 = 0 then
      { t with
        entry := Function.update t.entry id none
        index := Function.update t.index (R.key e.item) none
        nPending := t.nPending - 1
        pending := Function.update t.pending b ((t.pending b).erase id) }
    else
      { t with
        entry := Function.update t.entry id (some { e with refs := e.refs - 1 })
        pending := Function.update t.pending b ((t.pending b).erase id) }

def settle (R : TierRules α β τ) (t : TierTable α β τ ν) (id : ℕ) : TierTable α β τ ν :=
  match t.entry id with
  | none => t
  | some e =>
    { t with
      entry := Function.update t.entry id (some { e with settled := true, refs := 0 })
      nSettled := t.nSettled + 1
      nPending := t.nPending - 1
      settled := Function.update t.settled (R.home e.item) (insert id (t.settled (R.home e.item)))
      pending := fun b => (t.pending b).erase id }

/-- A settled entry moves to one bucket of the pending tier. -/
def unsettle (R : TierRules α β τ) (t : TierTable α β τ ν) (id : ℕ) (b : ν) :
    TierTable α β τ ν :=
  match t.entry id with
  | none => t
  | some e =>
    { t with
      entry := Function.update t.entry id (some { e with settled := false, refs := 1 })
      nSettled := t.nSettled - 1
      nPending := t.nPending + 1
      settled := Function.update t.settled (R.home e.item)
        ((t.settled (R.home e.item)).erase id)
      pending := Function.update t.pending b (insert id (t.pending b)) }

end

theorem entry_unshelve_of_ne [DecidableEq α] [DecidableEq ν] (R : TierRules α β τ)
    (t : TierTable α β τ ν) {k : ℕ} (b : ν) (h : k ≠ id) :
    (t.unshelve R id b).entry k = t.entry k := by
  unfold unshelve
  split
  · rfl
  · split
    · exact update_of_ne h _ _
    · exact update_of_ne h _ _

theorem pending_unshelve [DecidableEq α] [DecidableEq ν] (R : TierRules α β τ)
    {t : TierTable α β τ ν} {b : ν} (h : t.entry id ≠ none) :
    (t.unshelve R id b).pending = update t.pending b ((t.pending b).erase id) := by
  unfold unshelve
  split
  · rename_i hnone
    exact absurd hnone h
  · split
    · rfl
    · rfl

section

variable {γ : Type*} {f : ℕ → Option γ}

variable {k : ℕ} {x y : γ} {P : γ → Prop}

theorem update_some_iff :
    update f id (some x) k = some y ↔ k = id ∧ x = y ∨ k ≠ id ∧ f k = some y := by
  rw [update_apply]
  split
  · rename_i h
    simp [h]
  · rename_i h
    simp [h]

theorem update_none_iff : update f id none k = some y ↔ k ≠ id ∧ f k = some y := by
  rw [update_apply]
  split
  · rename_i h
    simp [h]
  · rename_i h
    simp [h]

theorem exists_update_some (k : ℕ) :
    (∃ y, update f id (some x) k = some y ∧ P y)
      ↔ k = id ∧ P x ∨ k ≠ id ∧ ∃ y, f k = some y ∧ P y := by
  rw [update_apply]
  split
  · rename_i h
    simp [h]
  · rename_i h
    simp [h]

theorem exists_update_none (k : ℕ) :
    (∃ y, update f id none k = some y ∧ P y) ↔ k ≠ id ∧ ∃ y, f k = some y ∧ P y := by
  rw [update_apply]
  split
  · rename_i h
    simp [h]
  · rename_i h
    simp [h]

/-- What an entry is replaced by makes no difference where the two agree. -/
theorem exists_update_same {z : γ} (hz : f id = some z) (k : ℕ) (hP : P x ↔ P z := by rfl) :
    (∃ y, update f id (some x) k = some y ∧ P y) ↔ ∃ y, f k = some y ∧ P y := by
  by_cases hk : k = id
  · subst hk
    simp [hz, hP]
  · simp [hk]

end

variable {t : TierTable α β τ ν} {R : TierRules α β τ}

namespace Valid

theorem mem_idsWith (known : ∀ id e, t.entry id = some e → id < t.next) {tier : Bool} :
    id ∈ t.idsWith tier ↔ ∃ e, t.entry id = some e ∧ e.settled = tier := by
  unfold idsWith
  rw [Finset.mem_filter, Finset.mem_range]
  cases he : t.entry id with
  | none => simp
  | some e =>
    have hlt := known id e he
    simp [hlt]

variable {e : TierEntry β}

section

variable {t' : TierTable α β τ ν} (known : ∀ id e, t.entry id = some e → id < t.next)

include known

theorem known_update (he : t.entry id = some e) (e' : TierEntry β) :
    ∀ k x, update t.entry id (some e') k = some x → k < t.next := by
  intro k x hk
  rcases update_some_iff.mp hk with ⟨rfl, -⟩ | ⟨-, hk⟩
  · exact known k e he
  · exact known k x hk

variable (known' : ∀ id e, t'.entry id = some e → id < t'.next)

include known'

theorem card_idsWith {tier : Bool} (h : ∀ k, (∃ e, t'.entry k = some e ∧ e.settled = tier) ↔
    ∃ e, t.entry k = some e ∧ e.settled = tier) :
    (t'.idsWith tier).card = (t.idsWith tier).card := by
  congr 1
  ext k
  rw [mem_idsWith known', mem_idsWith known]
  exact h k

theorem card_idsWith_succ (id : ℕ) (tier : Bool) (hid : ¬∃ e, t.entry id = some e ∧ e.settled = tier)
    (h : ∀ k, (∃ e, t'.entry k = some e ∧ e.settled = tier) ↔
      k = id ∨ ∃ e, t.entry k = some e ∧ e.settled = tier) :
    (t'.idsWith tier).card = (t.idsWith tier).card + 1 := by
  rw [← mem_idsWith known] at hid
  rw [← Finset.card_insert_of_notMem hid]
  congr 1
  ext k
  rw [mem_idsWith known', Finset.mem_insert, mem_idsWith known]
  exact h k

/-- An entry that changes its tier is counted in the one that it comes to, and not any more in the one
that it leaves. -/
theorem card_moved {e' : TierEntry β} (he : t.entry id = some e) (tier : Bool)
    (hfrom : e.settled = !tier) (hto : e'.settled = tier)
    (hent : t'.entry = update t.entry id (some e')) :
    (t'.idsWith tier).card = (t.idsWith tier).card + 1 ∧
      (t.idsWith !tier).card = (t'.idsWith !tier).card + 1 := by
  constructor
  · apply card_idsWith_succ known known' id
    · simp [he, hfrom]
    · intro k
      rw [hent, exists_update_some]
      by_cases hk : k = id <;> simp [hk, hto]
  · apply card_idsWith_succ known' known id
    · simp [hent, hto]
    · intro k
      rw [hent, exists_update_some]
      by_cases hk : k = id <;> simp [hk, he, hfrom, hto]

end

theorem tier_eq {tier : Bool} (he : t.entry id = some e)
    (h : ∃ e, t.entry id = some e ∧ e.settled = tier) :
    e.settled = tier := by
  obtain ⟨e', he', htier⟩ := h
  rw [Option.mem_unique he he']
  exact htier

variable {owed : Option ℕ}

section

variable [Fintype ν]

variable (h : Valid R owed t)
include h

theorem entry_next : t.entry t.next = none := by
  cases he : t.entry t.next with
  | none => rfl
  | some e => exact absurd (h.known _ _ he) (lt_irrefl _)

theorem notMem_pending (he : t.entry id = none) (b : ν) :
    id ∉ t.pending b := by
  intro hmem
  obtain ⟨e, hsome, -⟩ := h.of_mem_pending b id hmem
  exact absurd (he.symm.trans hsome) (by simp)

variable (he : t.entry id = some e)
include he

theorem notMem_pending_of_settled (hset : e.settled = true) (b : ν) :
    id ∉ t.pending b := by
  intro hmem
  have hpend := tier_eq he (h.of_mem_pending b id hmem)
  exact absurd (hset.symm.trans hpend) (by decide)

theorem notMem_settled (hpend : e.settled = false) (b : τ) :
    id ∉ t.settled b := by
  intro hmem
  obtain ⟨e', hsome, hset, -⟩ := (h.mem_settled b id).mp hmem
  exact absurd (hpend.symm.trans (tier_eq he ⟨e', hsome, hset⟩)) (by decide)

theorem id_unique {id' : ℕ} {e' : TierEntry β} (he' : t.entry id' = some e')
    (hkey : R.key e.item = R.key e'.item) : id = id' := by
  have hid := (h.index_iff (R.key e'.item) id).mpr ⟨e, he, hkey⟩
  have hid' := (h.index_iff (R.key e'.item) id').mpr ⟨e', he', rfl⟩
  exact Option.mem_unique hid hid'

end

theorem shelvesOf_eq_empty [Fintype ν] {pending : ν → Finset ℕ} (hnone : ∀ b, id ∉ pending b) :
    shelvesOf pending id = ∅ := by
  ext b
  simp [hnone b]

variable [Fintype ν]

/-- A new item can be entered, and is owed a shelf then. -/
theorem enter [DecidableEq α] (h : Valid R none t) {x : β} (hnew : t.index (R.key x) = none)
    (hlim : 1 ≤ R.limit) : Valid R (some t.next) (t.enter R x) := by
  have hnext := h.entry_next
  have hold : ∀ {k e}, t.entry k = some e → k ≠ t.next := fun he => ne_of_lt (h.known _ _ he)
  have hknown : ∀ id e, (t.enter R x).entry id = some e → id < t.next + 1 := by
    intro id e he
    rcases update_some_iff.mp he with ⟨rfl, -⟩ | ⟨-, he⟩
    · exact Nat.lt_succ_self _
    · exact Nat.lt_succ_of_lt (h.known id e he)
  refine ⟨hknown, ?_, ?_, ?_, ?_, ?_, ?_, ?_⟩
  · intro a id
    change update t.index (R.key x) (some t.next) a = some id ↔
      ∃ e, update t.entry t.next (some ⟨x, false, 1⟩) id = some e ∧ R.key e.item = a
    rw [exists_update_some, update_apply]
    by_cases ha : a = R.key x
    · subst ha
      rw [if_pos rfl]
      constructor
      · intro hid
        exact .inl ⟨(Option.some.inj hid).symm, rfl⟩
      · rintro (⟨rfl, -⟩ | ⟨-, hex⟩)
        · rfl
        · exact absurd (hnew.symm.trans ((h.index_iff _ id).mpr hex)) (by simp)
    · rw [if_neg ha, h.index_iff]
      constructor
      · rintro ⟨e, he, hkey⟩
        exact .inr ⟨hold he, e, he, hkey⟩
      · rintro (⟨-, hkey⟩ | ⟨-, hex⟩)
        · exact absurd hkey.symm ha
        · exact hex
  · intro b id
    change id ∈ t.settled b ↔
      ∃ e, update t.entry t.next (some ⟨x, false, 1⟩) id = some e
        ∧ e.settled = true ∧ R.home e.item = b
    rw [exists_update_some, h.mem_settled]
    constructor
    · rintro ⟨e, he, hset⟩
      exact .inr ⟨hold he, e, he, hset⟩
    · rintro (⟨-, hset, -⟩ | ⟨-, hex⟩)
      · cases hset
      · exact hex
  · intro b id hmem
    obtain ⟨e, he, hpend⟩ := h.of_mem_pending b id hmem
    exact ⟨e, update_some_iff.mpr (.inr ⟨hold he, he⟩), hpend⟩
  · intro id e he
    change e.refs = ((shelvesOf t.pending id).card : ℤ) + _
    rcases update_some_iff.mp he with ⟨rfl, rfl⟩ | ⟨hne, he⟩
    · rw [shelvesOf_eq_empty (h.notMem_pending hnext), if_pos rfl]
      rfl
    · rw [h.refs_eq id e he, if_neg (by simp), if_neg (by simpa using Ne.symm hne)]
  · intro id e he hpend
    rcases update_some_iff.mp he with ⟨-, rfl⟩ | ⟨-, he⟩
    · exact ⟨le_refl 1, hlim⟩
    · exact h.refs_pos id e he hpend
  · rw [card_idsWith h.known hknown fun k => (exists_update_some k).trans ⟨?_, ?_⟩]
    · exact h.settled_count
    · rintro (⟨-, hset⟩ | ⟨-, hex⟩)
      · cases hset
      · exact hex
    · rintro ⟨e, he, hset⟩
      exact .inr ⟨hold he, e, he, hset⟩
  · have hnew : ¬∃ e, t.entry t.next = some e ∧ e.settled = false := by
      rintro ⟨e, he, -⟩
      exact hold he rfl
    have hcard := card_idsWith_succ h.known hknown t.next false hnew fun k =>
      (exists_update_some k).trans (by by_cases hk : k = t.next <;> simp [hk])
    have hcnt := h.pending_count
    change _ = t.nPending + 1
    omega

variable {b : ν}

/-- A pending item that is on few shelves may be owed one more. -/
theorem owe (h : Valid R none t) (he : t.entry id = some e) (hpend : e.settled = false)
    (hlim : e.refs < R.limit) : Valid R (some id) (t.owe id) := by
  have hent : (t.owe id).entry
      = update t.entry id (some { e with refs := e.refs + 1 }) := by
    unfold TierTable.owe
    rw [he]
    rfl
  have hknown := known_update h.known he { e with refs := e.refs + 1 }
  rw [← hent] at hknown
  have hids : ∀ tier, ((t.owe id).idsWith tier).card = (t.idsWith tier).card := by
    intro tier
    refine card_idsWith h.known hknown fun k => ?_
    rw [hent]
    exact exists_update_same he k
  refine ⟨hknown, ?_, ?_, ?_, ?_, ?_, ?_, ?_⟩
  · intro a k
    rw [show (t.owe id).index = t.index from rfl, h.index_iff, hent]
    exact (exists_update_same he k).symm
  · intro b k
    rw [show (t.owe id).settled = t.settled from rfl, h.mem_settled, hent]
    exact (exists_update_same he k).symm
  · intro b k hmem
    rw [hent]
    exact (exists_update_same he k).mpr (h.of_mem_pending b k hmem)
  · intro k e' hk
    rw [hent] at hk
    change e'.refs = ((shelvesOf t.pending k).card : ℤ) + _
    rcases update_some_iff.mp hk with ⟨rfl, rfl⟩ | ⟨hne, hk⟩
    · have hrefs := h.refs_eq k e he
      rw [if_neg (by simp)] at hrefs
      rw [if_pos rfl]
      dsimp only
      omega
    · rw [h.refs_eq k e' hk, if_neg (by simp), if_neg (by simpa using Ne.symm hne)]
  · intro k e' hk hpend'
    rw [hent] at hk
    rcases update_some_iff.mp hk with ⟨-, rfl⟩ | ⟨-, hk⟩
    · obtain ⟨hone, -⟩ := h.refs_pos id e he hpend
      dsimp only
      omega
    · exact h.refs_pos k e' hk hpend'
  · rw [hids]
    exact h.settled_count
  · rw [hids]
    exact h.pending_count

theorem mapItem (h : Valid R owed t) (id : ℕ) {f : β → β} (hkey : ∀ x, R.key (f x) = R.key x)
    (hhome : ∀ x, R.home (f x) = R.home x) : Valid R owed (t.mapItem id f) := by
  -- An entry after the change is one before it, of the same tier, key, home and places.
  have hent : ∀ k (P : Bool → α → τ → ℤ → Prop),
      (∃ e, (t.mapItem id f).entry k = some e ∧ P e.settled (R.key e.item) (R.home e.item) e.refs)
        ↔ ∃ e, t.entry k = some e ∧ P e.settled (R.key e.item) (R.home e.item) e.refs := by
    intro k P
    unfold TierTable.mapItem
    dsimp only
    rw [update_apply]
    split
    · rename_i hk
      subst hk
      cases he : t.entry k with
      | none => simp
      | some e => simp [hkey, hhome]
    · rfl
  have hold : ∀ k e, (t.mapItem id f).entry k = some e →
      ∃ e', t.entry k = some e' ∧ e'.settled = e.settled ∧ e'.refs = e.refs := by
    intro k e he
    exact (hent k fun settled _ _ refs => settled = e.settled ∧ refs = e.refs).mp
      ⟨e, he, rfl, rfl⟩
  have hknown : ∀ k e, (t.mapItem id f).entry k = some e → k < t.next := by
    intro k e he
    obtain ⟨e', he', -⟩ := hold k e he
    exact h.known k e' he'
  have hids : ∀ tier, ((t.mapItem id f).idsWith tier).card = (t.idsWith tier).card :=
    fun tier => card_idsWith h.known hknown fun k => hent k fun settled _ _ _ => settled = tier
  refine ⟨hknown, ?_, ?_, ?_, ?_, ?_, ?_, ?_⟩
  · intro a k
    exact (h.index_iff a k).trans (hent k fun _ key _ _ => key = a).symm
  · intro b k
    exact (h.mem_settled b k).trans
      (hent k fun settled _ home _ => settled = true ∧ home = b).symm
  · intro b k hk
    exact (hent k fun settled _ _ _ => settled = false).mpr (h.of_mem_pending b k hk)
  · intro k e he
    obtain ⟨e', he', -, hrefs⟩ := hold k e he
    rw [← hrefs]
    exact h.refs_eq k e' he'
  · intro k e he hpend
    obtain ⟨e', he', hset, hrefs⟩ := hold k e he
    rw [← hrefs]
    exact h.refs_pos k e' he' (hset.trans hpend)
  · rw [hids]
    exact h.settled_count
  · rw [hids]
    exact h.pending_count

theorem shelve [DecidableEq ν] (h : Valid R (some id) t) (he : t.entry id = some e)
    (hpend : e.settled = false) (hb : id ∉ t.pending b) : Valid R none (t.shelve id b) := by
  refine ⟨h.known, h.index_iff, h.mem_settled, ?_, ?_, h.refs_pos, h.settled_count, h.pending_count⟩
  · intro b' k hmem
    change k ∈ update t.pending b (insert id (t.pending b)) b' at hmem
    rw [← mem_shelvesOf] at hmem
    by_cases hk : k = id
    · subst hk
      exact ⟨e, he, hpend⟩
    · rw [shelvesOf_insert_of_ne _ _ hk, mem_shelvesOf] at hmem
      exact h.of_mem_pending b' k hmem
  · intro k e' hk
    change e'.refs
      = ((shelvesOf (update t.pending b (insert id (t.pending b))) k).card : ℤ) + _
    have hrefs := h.refs_eq k e' hk
    rw [if_neg (by simp)]
    by_cases hkid : k = id
    · subst hkid
      have hnot : b ∉ shelvesOf t.pending k := by rwa [mem_shelvesOf]
      rw [if_pos rfl] at hrefs
      rw [shelvesOf_insert_self, Finset.card_insert_of_notMem hnot]
      omega
    · rw [if_neg (by simpa using Ne.symm hkid)] at hrefs
      rw [shelvesOf_insert_of_ne _ _ hkid]
      exact hrefs

/-- Taking a pending item from a shelf keeps the table valid. -/
theorem unshelve [DecidableEq α] [DecidableEq ν] (h : Valid R owed t) (hb : id ∈ t.pending b)
    (howed : owed ≠ some id) : Valid R owed (t.unshelve R id b) := by
  obtain ⟨e, he, hpend⟩ := h.of_mem_pending b id hb
  have hmem : b ∈ shelvesOf t.pending id := mem_shelvesOf.mpr hb
  have hrefs : e.refs = (shelvesOf t.pending id).card := by
    rw [h.refs_eq id e he, if_neg howed, Int.add_zero]
  have hcard : ((shelvesOf t.pending id).erase b).card + 1 = (shelvesOf t.pending id).card :=
    Finset.card_erase_add_one hmem
  have hother : ∀ k, k ≠ id → shelvesOf (update t.pending b ((t.pending b).erase id)) k
      = shelvesOf t.pending k := fun k hk => shelvesOf_erase_of_ne _ _ hk
  have hpending : ∀ b' k, k ∈ update t.pending b ((t.pending b).erase id) b' →
      k ≠ id → k ∈ t.pending b' := by
    intro b' k hk hne
    rwa [← mem_shelvesOf, hother k hne, mem_shelvesOf] at hk
  unfold TierTable.unshelve
  rw [he]
  dsimp only
  split
  · -- It was the last place, so the entry leaves the table.
    rename_i hlast
    have hemp : ((shelvesOf t.pending id).erase b) = ∅ := by
      apply Finset.card_eq_zero.mp
      omega
    have hgone : ∀ b', id ∉ update t.pending b ((t.pending b).erase id) b' := by
      intro b' hin
      rw [← mem_shelvesOf, shelvesOf_erase_self, hemp] at hin
      exact Finset.notMem_empty _ hin
    have hknown : ∀ k e', update t.entry id none k = some e' → k < t.next := by
      intro k e' hk
      exact h.known k e' (update_none_iff.mp hk).2
    refine ⟨hknown, ?_, ?_, ?_, ?_, ?_, ?_, ?_⟩
    · intro a k
      change update t.index (R.key e.item) none a = some k ↔ _
      rw [exists_update_none, update_apply]
      by_cases ha : a = R.key e.item
      · rw [if_pos ha]
        constructor
        · intro hnone
          exact absurd hnone (by simp)
        · rintro ⟨hne, e', hk, hkey⟩
          exact absurd (h.id_unique hk he (hkey.trans ha)) hne
      · rw [if_neg ha, h.index_iff]
        constructor
        · rintro ⟨e', hk, hkey⟩
          refine ⟨?_, e', hk, hkey⟩
          rintro rfl
          have hsame := Option.mem_unique he hk
          exact ha (by rw [← hkey, hsame])
        · exact And.right
    · intro b' k
      change k ∈ t.settled b' ↔ _
      rw [exists_update_none, ← h.mem_settled, iff_and_self]
      rintro hk rfl
      exact h.notMem_settled he hpend b' hk
    · intro b' k hk
      have hne : k ≠ id := fun heq => hgone b' (heq ▸ hk)
      obtain ⟨e', he', hpend'⟩ := h.of_mem_pending b' k (hpending b' k hk hne)
      exact ⟨e', update_none_iff.mpr ⟨hne, he'⟩, hpend'⟩
    · intro k e' hk
      obtain ⟨hne, hk⟩ := update_none_iff.mp hk
      rw [h.refs_eq k e' hk]
      dsimp only
      rw [hother k hne]
    · intro k e' hk
      exact h.refs_pos k e' (update_none_iff.mp hk).2
    · refine (congrArg Nat.cast (card_idsWith h.known hknown fun k => ?_)).trans h.settled_count
      refine (exists_update_none k).trans (and_iff_right_iff_imp.mpr ?_)
      rintro hk rfl
      exact absurd (hpend.symm.trans (tier_eq he hk)) (by decide)
    · rw [← h.pending_count, eq_comm, Int.sub_eq_iff_eq_add]
      refine congrArg Nat.cast (card_idsWith_succ ?_ h.known id false ?_ fun k => ?_)
      · exact hknown
      · simp
      · rw [exists_update_none]
        by_cases hk : k = id <;> simp [hk, he, hpend]
  · -- Other places are left.
    rename_i hlast
    have hknown := known_update h.known he { e with refs := e.refs - 1 }
    refine ⟨hknown, ?_, ?_, ?_, ?_, ?_, ?_, ?_⟩
    · intro a k
      exact (h.index_iff a k).trans (exists_update_same he k).symm
    · intro b' k
      exact (h.mem_settled b' k).trans (exists_update_same he k).symm
    · intro b' k hk
      apply (exists_update_same he k).mpr
      by_cases hkid : k = id
      · subst hkid
        exact ⟨e, he, hpend⟩
      · exact h.of_mem_pending b' k (hpending b' k hk hkid)
    · intro k e' hk
      rcases update_some_iff.mp hk with ⟨rfl, rfl⟩ | ⟨hne, hk⟩
      · dsimp only
        rw [shelvesOf_erase_self, if_neg howed]
        omega
      · dsimp only
        rw [hother k hne]
        exact h.refs_eq k e' hk
    · intro k e' hk hpend'
      rcases update_some_iff.mp hk with ⟨rfl, rfl⟩ | ⟨-, hk⟩
      · obtain ⟨hone, hlim⟩ := h.refs_pos k e he hpend
        dsimp only at hlast ⊢
        omega
      · exact h.refs_pos k e' hk hpend'
    · rw [card_idsWith h.known hknown fun k => exists_update_same he k]
      exact h.settled_count
    · rw [card_idsWith h.known hknown fun k => exists_update_same he k]
      exact h.pending_count

/-- An entry that changes its tier has the places of the tier that it comes to, and those of the others
stay as they are. -/
theorem change {t' : TierTable α β τ ν} {tier : Bool} {refs : ℤ}
    (h : Valid R none t) (he : t.entry id = some e)
    (hent : t'.entry = update t.entry id (some { e with settled := tier, refs := refs }))
    (hfrom : e.settled = !tier)
    (hindex : t'.index = t.index) (hnext : t'.next = t.next)
    (hhome : ∀ b k, k ∈ t'.settled b ↔
      k = id ∧ tier = true ∧ R.home e.item = b ∨ k ≠ id ∧ k ∈ t.settled b)
    (hshelves : ∀ k ≠ id, shelvesOf t'.pending k = shelvesOf t.pending k)
    (hrefs : refs = (shelvesOf t'.pending id).card)
    (hplaces : if tier then refs = 0 else 1 ≤ refs ∧ refs ≤ R.limit)
    (hcnts : if tier then t'.nSettled = t.nSettled + 1 ∧ t'.nPending = t.nPending - 1
      else t'.nSettled = t.nSettled - 1 ∧ t'.nPending = t.nPending + 1) : Valid R none t' := by
  have hknown : ∀ k x, t'.entry k = some x → k < t'.next := by
    rw [hent, hnext]
    exact known_update h.known he _
  have hcard := card_moved h.known hknown he tier hfrom rfl hent
  have hsettled := h.settled_count
  have hpending := h.pending_count
  refine ⟨hknown, ?_, ?_, ?_, ?_, ?_, ?_, ?_⟩
  · intro a k
    rw [hindex, hent]
    exact (h.index_iff a k).trans (exists_update_same he k).symm
  · intro b k
    rw [hent, exists_update_some, hhome, h.mem_settled]
  · intro b k hk
    by_cases hkid : k = id
    · -- It stands in the other tier only when it is pending there.
      subst hkid
      refine ⟨_, by rw [hent, Function.update_self], Bool.eq_false_of_not_eq_true fun htier => ?_⟩
      obtain rfl : tier = true := htier
      have hpos := Finset.card_pos.mpr ⟨b, mem_shelvesOf.mpr hk⟩
      rw [if_pos rfl] at hplaces
      omega
    · rw [← mem_shelvesOf, hshelves k hkid, mem_shelvesOf] at hk
      obtain ⟨e', he', hpend⟩ := h.of_mem_pending b k hk
      exact ⟨e', by rw [hent, update_of_ne hkid, he'], hpend⟩
  · intro k e' hk
    rw [if_neg (by simp)]
    rw [hent] at hk
    rcases update_some_iff.mp hk with ⟨rfl, rfl⟩ | ⟨hne, hk⟩
    · exact hrefs.trans (Int.add_zero _).symm
    · rw [hshelves k hne, h.refs_eq k e' hk, if_neg (by simp)]
  · intro k e' hk hpend
    rw [hent] at hk
    rcases update_some_iff.mp hk with ⟨rfl, rfl⟩ | ⟨-, hk⟩
    · rwa [show tier = false from hpend] at hplaces
    · exact h.refs_pos k e' hk hpend
  · cases tier <;> simp at hcard hcnts <;> omega
  · cases tier <;> simp at hcard hcnts <;> omega

theorem settle [DecidableEq τ] (h : Valid R none t) (he : t.entry id = some e)
    (hpend : e.settled = false) : Valid R none (t.settle R id) := by
  unfold TierTable.settle
  rw [he]
  refine h.change he rfl hpend rfl rfl ?_ ?_ ?_ rfl ⟨rfl, rfl⟩
  · intro b k
    have hnot := h.notMem_settled he hpend b
    dsimp only
    rw [update_apply]
    split <;> grind
  · intro k hk
    ext b
    simp [hk]
  · rw [shelvesOf_eq_empty fun b => Finset.notMem_erase id (t.pending b)]
    rfl

theorem unsettle [DecidableEq ν] [DecidableEq τ] (h : Valid R none t) (he : t.entry id = some e)
    (hset : e.settled = true) (hlim : 1 ≤ R.limit) (b : ν) :
    Valid R none (t.unsettle R id b) := by
  unfold TierTable.unsettle
  rw [he]
  refine h.change he rfl hset rfl rfl ?_ (fun k hk => shelvesOf_insert_of_ne _ _ hk)
    ?_ ⟨le_rfl, hlim⟩ ⟨rfl, rfl⟩
  · intro b' k
    have hmem := h.mem_settled b' id
    dsimp only
    rw [update_apply]
    split <;> grind
  · rw [shelvesOf_insert_self, shelvesOf_eq_empty (h.notMem_pending_of_settled he hset)]
    rfl

end Valid

namespace All

variable {P : β → Bool → Prop}

variable (h : All P t)
include h

theorem owe (id : ℕ) : All P (t.owe id) := by
  intro k e he
  change update t.entry id _ k = some e at he
  rw [update_apply] at he
  split at he
  · obtain ⟨e', he', rfl⟩ := Option.map_eq_some_iff.mp he
    exact h id e' he'
  · exact h k e he

theorem mapItem {f : β → β} (hf : ∀ e, t.entry id = some e → P (f e.item) e.settled) :
    All P (t.mapItem id f) := by
  intro k e he
  change update t.entry id _ k = some e at he
  rw [update_apply] at he
  split at he
  · obtain ⟨e', he', rfl⟩ := Option.map_eq_some_iff.mp he
    exact hf e' he'
  · exact h k e he

theorem update {t' : TierTable α β τ ν} {x : β} {tier : Bool} {refs : ℤ} (hx : P x tier)
    (ht : t'.entry = update t.entry id (some ⟨x, tier, refs⟩)) :
    All P t' := by
  intro k e' hk
  rw [ht] at hk
  rcases update_some_iff.mp hk with ⟨-, rfl⟩ | ⟨-, hk⟩
  · exact hx
  · exact h k e' hk

theorem unshelve [DecidableEq α] [DecidableEq ν] (id : ℕ) (b : ν) :
    All P (t.unshelve R id b) := by
  unfold TierTable.unshelve
  split
  · exact h
  · rename_i e he
    split
    · intro k e' hk
      exact h k e' (update_none_iff.mp hk).2
    · exact h.update (h id e he) rfl

theorem settle [DecidableEq τ] (hid : ∀ e, t.entry id = some e → P e.item true) :
    All P (t.settle R id) := by
  unfold TierTable.settle
  split
  · exact h
  · rename_i e he
    exact h.update (hid e he) rfl

theorem unsettle [DecidableEq ν] [DecidableEq τ] {b : ν}
    (hid : ∀ e, t.entry id = some e → P e.item false) : All P (t.unsettle R id b) := by
  unfold TierTable.unsettle
  split
  · exact h
  · rename_i e he
    exact h.update (hid e he) rfl

end All

end TierTable

end ZalemCoin.Lib
