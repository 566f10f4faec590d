import ZalemCoin.Lib.TierTable
import Mathlib.Algebra.Order.BigOperators.Group.Finset

/-!
# The numbers of the entries

The buckets bound the number of the entries of each tier. The numbers themselves do not matter: a table
with the same entries under other numbers, in the same buckets, is valid when the first one is.
-/

namespace ZalemCoin.Lib

namespace TierTable

variable {α β τ ν : Type*}

variable {R : TierRules α β τ} {t : TierTable α β τ ν}

section

variable [Fintype ν]

theorem Valid.nPending_le (h : Valid R none t) {n : ℕ} (hn : ∀ b, (t.pending b).card ≤ n) :
    t.nPending ≤ (Fintype.card ν * n : ℕ) := by
  have hsub : t.idsWith false ⊆ Finset.univ.biUnion t.pending := by
    intro id hid
    obtain ⟨e, he, hpend⟩ := (Valid.mem_idsWith h.known).mp hid
    have hrefs := h.refs_eq id e he
    rw [if_neg (by simp), Int.add_zero] at hrefs
    have hpos : 0 < (shelvesOf t.pending id).card := by
      have := (h.refs_pos id e he hpend).1
      omega
    obtain ⟨b, hb⟩ := Finset.card_pos.mp hpos
    exact Finset.mem_biUnion.mpr ⟨b, Finset.mem_univ b, mem_shelvesOf.mp hb⟩
  rw [← h.pending_count]
  apply Int.ofNat_le.mpr
  calc (t.idsWith false).card
      ≤ (Finset.univ.biUnion t.pending).card := Finset.card_le_card hsub
    _ ≤ Fintype.card ν * n := Finset.card_biUnion_le_card_mul _ _ _ fun b _ => hn b

theorem Valid.nSettled_le [Fintype τ] (h : Valid R none t) {n : ℕ}
    (hn : ∀ b, (t.settled b).card ≤ n) : t.nSettled ≤ (Fintype.card τ * n : ℕ) := by
  have hsub : t.idsWith true ⊆ Finset.univ.biUnion t.settled := by
    intro id hid
    obtain ⟨e, he, hset⟩ := (Valid.mem_idsWith h.known).mp hid
    exact Finset.mem_biUnion.mpr
      ⟨_, Finset.mem_univ _, (h.mem_settled _ id).mpr ⟨e, he, hset, rfl⟩⟩
  rw [← h.settled_count]
  apply Int.ofNat_le.mpr
  calc (t.idsWith true).card
      ≤ (Finset.univ.biUnion t.settled).card := Finset.card_le_card hsub
    _ ≤ Fintype.card τ * n := Finset.card_biUnion_le_card_mul _ _ _ fun b _ => hn b

end

theorem shelvesOf_renumber [Fintype ν] {pending pending' : ν → Finset ℕ} {f : ℕ → ℕ} {id : ℕ}
    (h : ∀ b k, k ∈ pending' b ↔ ∃ id ∈ pending b, f id = k)
    (honly : ∀ b, ∀ id' ∈ pending b, f id' = f id → id' = id) :
    shelvesOf pending' (f id) = shelvesOf pending id := by
  ext b
  rw [mem_shelvesOf, mem_shelvesOf, h]
  constructor
  · rintro ⟨id', hmem, heq⟩
    rw [← honly b id' hmem heq]
    exact hmem
  · intro hmem
    exact ⟨id, hmem, rfl⟩

/-- The second table has the entries of the first one under other numbers, with items that have the
same key and home. -/
structure Renumbers (R : TierRules α β τ) (f : ℕ → ℕ) (g : β → β) (t t' : TierTable α β τ ν) :
    Prop where
  key : ∀ x, R.key (g x) = R.key x
  home : ∀ x, R.home (g x) = R.home x
  /-- No two entries get one number. -/
  injective : ∀ id id' e e', t.entry id = some e → t.entry id' = some e' → f id = f id' → id = id'
  known : ∀ id e, t.entry id = some e → f id < t'.next
  entry : ∀ k e', t'.entry k = some e' ↔
    ∃ id e, t.entry id = some e ∧ f id = k ∧ { e with item := g e.item } = e'
  index : ∀ a k, t'.index a = some k ↔ ∃ id, t.index a = some id ∧ f id = k
  settled : ∀ b k, k ∈ t'.settled b ↔ ∃ id ∈ t.settled b, f id = k
  pending : ∀ b k, k ∈ t'.pending b ↔ ∃ id ∈ t.pending b, f id = k
  nSettled : t'.nSettled = t.nSettled
  nPending : t'.nPending = t.nPending

namespace Renumbers

variable {f : ℕ → ℕ} {g : β → β} {t' : TierTable α β τ ν}

variable (h : Renumbers R f g t t')
include h

theorem card_idsWith (known : ∀ id e, t.entry id = some e → id < t.next)
    (known' : ∀ k e, t'.entry k = some e → k < t'.next) (tier : Bool) :
    (t'.idsWith tier).card = (t.idsWith tier).card := by
  have himage : t'.idsWith tier = (t.idsWith tier).image f := by
    ext k
    rw [Valid.mem_idsWith known', Finset.mem_image]
    constructor
    · rintro ⟨e', he', htier⟩
      obtain ⟨id, e, he, hk, rfl⟩ := (h.entry k e').mp he'
      exact ⟨id, (Valid.mem_idsWith known).mpr ⟨e, he, htier⟩, hk⟩
    · rintro ⟨id, hid, hk⟩
      obtain ⟨e, he, htier⟩ := (Valid.mem_idsWith known).mp hid
      exact ⟨{ e with item := g e.item }, (h.entry k _).mpr ⟨id, e, he, hk, rfl⟩, htier⟩
  rw [himage]
  apply Finset.card_image_of_injOn
  intro id hid id' hid' heq
  obtain ⟨e, he, -⟩ := (Valid.mem_idsWith known).mp hid
  obtain ⟨e', he', -⟩ := (Valid.mem_idsWith known).mp hid'
  exact h.injective id id' e e' he he' heq

theorem valid [Fintype ν] (hvalid : Valid R none t) :
    Valid R none t' := by
  have hknown : ∀ k e, t'.entry k = some e → k < t'.next := by
    intro k e' he'
    obtain ⟨id, e, he, rfl, -⟩ := (h.entry k e').mp he'
    exact h.known id e he
  constructor
  case known => exact hknown
  case index_iff =>
    intro a k
    rw [h.index]
    constructor
    · rintro ⟨id, hid, hk⟩
      obtain ⟨e, he, hkey⟩ := (hvalid.index_iff a id).mp hid
      exact ⟨_, (h.entry k _).mpr ⟨id, e, he, hk, rfl⟩, (h.key e.item).trans hkey⟩
    · rintro ⟨e', he', hkey⟩
      obtain ⟨id, e, he, hk, rfl⟩ := (h.entry k e').mp he'
      exact ⟨id, (hvalid.index_iff a id).mpr ⟨e, he, (h.key e.item).symm.trans hkey⟩, hk⟩
  case mem_settled =>
    intro b k
    rw [h.settled]
    constructor
    · rintro ⟨id, hid, hk⟩
      obtain ⟨e, he, hset, hhome⟩ := (hvalid.mem_settled b id).mp hid
      exact ⟨_, (h.entry k _).mpr ⟨id, e, he, hk, rfl⟩, hset, (h.home e.item).trans hhome⟩
    · rintro ⟨e', he', hset, hhome⟩
      obtain ⟨id, e, he, hk, rfl⟩ := (h.entry k e').mp he'
      have hmem := (hvalid.mem_settled b id).mpr
        ⟨e, he, hset, (h.home e.item).symm.trans hhome⟩
      exact ⟨id, hmem, hk⟩
  case of_mem_pending =>
    intro b k hk
    obtain ⟨id, hid, heq⟩ := (h.pending b k).mp hk
    obtain ⟨e, he, hpend⟩ := hvalid.of_mem_pending b id hid
    exact ⟨_, (h.entry k _).mpr ⟨id, e, he, heq, rfl⟩, hpend⟩
  case refs_eq =>
    intro k e' he'
    obtain ⟨id, e, he, rfl, rfl⟩ := (h.entry k e').mp he'
    rw [shelvesOf_renumber h.pending]
    · exact hvalid.refs_eq id e he
    · intro b id' hmem heq
      obtain ⟨e', he', -⟩ := hvalid.of_mem_pending b id' hmem
      exact h.injective id' id e' e he' he heq
  case refs_pos =>
    intro k e' he' hpend
    obtain ⟨id, e, he, -, rfl⟩ := (h.entry k e').mp he'
    exact hvalid.refs_pos id e he hpend
  case settled_count =>
    rw [h.card_idsWith hvalid.known hknown, h.nSettled]
    exact hvalid.settled_count
  case pending_count =>
    rw [h.card_idsWith hvalid.known hknown, h.nPending]
    exact hvalid.pending_count

theorem all {P : β → Bool → Prop} (hall : All P t) (hP : ∀ x tier, P x tier → P (g x) tier) :
    All P t' := by
  intro k e' he'
  obtain ⟨id, e, he, -, rfl⟩ := (h.entry k e').mp he'
  exact hP e.item e.settled (hall id e he)

end Renumbers

end TierTable

end ZalemCoin.Lib
