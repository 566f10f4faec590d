import Mathlib.Algebra.BigOperators.Group.Finset.Piecewise
import Mathlib.Algebra.Order.BigOperators.Group.Finset
import Mathlib.Algebra.Order.Group.Defs
import Mathlib.Tactic.Abel

/-!
# A ledger of spendable slots

Each entry of the ledger stands for a connected transaction: where it is stored, and one slot for
each of its outputs, which holds the position of the transaction that spends the output and a
distinguished position `free` while nobody does. Connecting a transaction marks the slots that it
spends and adds its own entry; disconnecting it frees these slots and removes the entry. Two facts
carry everything else: disconnecting undoes connecting, and the value of the unspent slots changes
by what a transaction creates less what it spends.
-/

namespace ZalemCoin.Lib

open Function (update_of_ne update_self)
open List (foldl_cons mem_append mem_singleton mem_map mem_toFinset sum_toFinset)

/-- A ledger entry: the position of a transaction, and a slot for each of its outputs. -/
@[ext]
structure Entry (P : Type*) where
  /-- Where the transaction is stored. -/
  pos : P
  /-- The position of the spender of each output. -/
  slots : List P
deriving DecidableEq

/-- A ledger: the entries of the connected transactions by their identifiers. -/
abbrev Ledger (ι P : Type*) := ι → Option (Entry P)

/-- A transaction as a ledger sees it. -/
structure Spend (ι P : Type*) where
  /-- The identifier of the transaction. -/
  id : ι
  /-- Where the transaction is stored. -/
  pos : P
  /-- The number of its outputs. -/
  width : ℕ
  /-- The slots that it spends, by the identifier of their transaction and their number. -/
  inputs : List (ι × ℕ)

/-- The slots that a transaction creates. -/
def Spend.outputs {ι P : Type*} (t : Spend ι P) : List (ι × ℕ) :=
  (List.range t.width).map fun n => (t.id, n)

variable {ι P : Type*} {L : Ledger ι P} {free : P}

namespace Ledger

def slot (L : Ledger ι P) (k : ι × ℕ) : Option P :=
  (L k.1).bind fun e => e.slots[k.2]?

variable {t : Spend ι P} {k : ι × ℕ} {ts : List (Spend ι P)}

theorem ext_slot {L' : Ledger ι P} (hpos : ∀ i, (L i).map Entry.pos = (L' i).map Entry.pos)
    (hslot : ∀ k, slot L k = slot L' k) : L = L' := by
  funext i
  have hp := hpos i
  have hs : ∀ n, slot L (i, n) = slot L' (i, n) := fun n => hslot (i, n)
  simp only [slot] at hs
  rcases h : L i with _ | e <;> rcases h' : L' i with _ | e' <;> simp only [h, h'] at hp hs
  · rfl
  · simp at hp
  · simp at hp
  · congr 1
    refine Entry.ext (by simpa using hp) (List.ext_getElem? ?_)
    simpa using hs

variable [DecidableEq ι]

/-- Writes a position into a slot that the ledger has. -/
def mark (p : P) (L : Ledger ι P) (k : ι × ℕ) : Ledger ι P :=
  Function.update L k.1 ((L k.1).map fun e => { e with slots := e.slots.set k.2 p })

/-- Connects a transaction: marks the slots that it spends, and adds its own entry. -/
def connect (free : P) (L : Ledger ι P) (t : Spend ι P) : Ledger ι P :=
  Function.update (t.inputs.foldl (mark t.pos) L) t.id
    (some ⟨t.pos, List.replicate t.width free⟩)

def disconnect (free : P) (L : Ledger ι P) (t : Spend ι P) : Ledger ι P :=
  Function.update (t.inputs.foldl (mark free) L) t.id none

/-- A transaction that a ledger can connect: its identifier is new, and it spends distinct free
slots. -/
structure Enabled (free : P) (L : Ledger ι P) (t : Spend ι P) : Prop where
  /-- The ledger has no entry under the identifier. -/
  fresh : L t.id = none
  unspent : ∀ k ∈ t.inputs, slot L k = some free
  /-- It spends no slot twice. -/
  nodup : t.inputs.Nodup

def Connects (free : P) : Ledger ι P → List (Spend ι P) → Prop
  | _, [] => True
  | L, t :: ts => Enabled free L t ∧ Connects free (connect free L t) ts

theorem slot_mark (p : P) (L : Ledger ι P) (k k' : ι × ℕ) :
    slot (mark p L k) k' = if k' = k then (slot L k').map fun _ => p else slot L k' := by
  rcases k with ⟨i, n⟩
  rcases k' with ⟨i', n'⟩
  by_cases hi : i' = i
  · subst hi
    simp only [slot, mark, update_self, Prod.mk.injEq, true_and]
    rcases L i' with _ | e
    · simp
    · by_cases hn : n' = n
      · subst hn
        simp only [Option.map_some, Option.bind_some, if_pos]
        rcases h : e.slots[n']? with _ | q
        · simp [List.getElem?_eq_none_iff.mp h]
        · simp [(List.getElem?_eq_some_iff.mp h).1]
      · simp [List.getElem?_set_ne (Ne.symm hn), hn]
  · simp [slot, mark, hi]

theorem map_pos_mark (p : P) (L : Ledger ι P) (k : ι × ℕ) (i : ι) :
    (mark p L k i).map Entry.pos = (L i).map Entry.pos := by
  by_cases hi : i = k.1
  · subst hi
    simp only [mark, update_self]
    cases L k.1 <;> rfl
  · simp [mark, update_of_ne hi]

theorem map_length_mark (p : P) (L : Ledger ι P) (k : ι × ℕ) (i : ι) :
    (mark p L k i).map (fun e => e.slots.length) = (L i).map fun e => e.slots.length := by
  by_cases hi : i = k.1
  · subst hi
    simp only [mark, update_self]
    cases L k.1 <;> simp
  · simp [mark, update_of_ne hi]

theorem slot_foldl_mark (p : P) (L : Ledger ι P) (ks : List (ι × ℕ)) (k : ι × ℕ) :
    slot (ks.foldl (mark p) L) k = if k ∈ ks then (slot L k).map fun _ => p else slot L k := by
  induction ks generalizing L with
  | nil => simp
  | cons k' ks ih =>
    rw [foldl_cons, ih, slot_mark]
    by_cases h : k = k' <;> by_cases h' : k ∈ ks <;> simp [h, h', Function.comp_def]

theorem map_pos_foldl_mark (p : P) (L : Ledger ι P) (ks : List (ι × ℕ)) (i : ι) :
    (ks.foldl (mark p) L i).map Entry.pos = (L i).map Entry.pos := by
  induction ks generalizing L with
  | nil => rfl
  | cons k ks ih => rw [foldl_cons, ih, map_pos_mark]

theorem map_length_foldl_mark (p : P) (L : Ledger ι P) (ks : List (ι × ℕ)) (i : ι) :
    (ks.foldl (mark p) L i).map (fun e => e.slots.length)
      = (L i).map fun e => e.slots.length := by
  induction ks generalizing L with
  | nil => rfl
  | cons k ks ih => rw [foldl_cons, ih, map_length_mark]

omit [DecidableEq ι] in
theorem slot_eq_none {i : ι} (h : L i = none) (n : ℕ) : slot L (i, n) = none := by
  simp [slot, h]

omit [DecidableEq ι] in
theorem Enabled.ne_id (h : Enabled free L t) (hk : k ∈ t.inputs) : k.1 ≠ t.id := by
  rintro heq
  have hs := h.unspent k hk
  rw [slot, heq, h.fresh] at hs
  simp at hs

theorem slot_connect (free : P) (L : Ledger ι P) (t : Spend ι P) (k : ι × ℕ) :
    slot (connect free L t) k = if k.1 = t.id then (if k.2 < t.width then some free else none)
      else if k ∈ t.inputs then (slot L k).map fun _ => t.pos else slot L k := by
  by_cases hid : k.1 = t.id
  · simp only [slot, connect, hid, update_self, Option.bind_some, if_pos]
    by_cases hw : k.2 < t.width <;> simp [hw]
  · rw [if_neg hid, ← slot_foldl_mark]
    simp [slot, connect, update_of_ne hid]

theorem map_pos_connect (free : P) (L : Ledger ι P) (t : Spend ι P) (i : ι) :
    (connect free L t i).map Entry.pos = if i = t.id then some t.pos else (L i).map Entry.pos := by
  by_cases h : i = t.id
  · simp [connect, h]
  · simp [connect, h, map_pos_foldl_mark]

theorem map_length_connect (free : P) (L : Ledger ι P) (t : Spend ι P) (i : ι) :
    (connect free L t i).map (fun e => e.slots.length)
      = if i = t.id then some t.width else (L i).map fun e => e.slots.length := by
  by_cases h : i = t.id
  · simp [connect, h]
  · simp [connect, h, map_length_foldl_mark]

theorem disconnect_connect (h : Enabled free L t) : disconnect free (connect free L t) t = L := by
  refine ext_slot (fun i => ?_) fun k => ?_
  · by_cases hi : i = t.id
    · simp [disconnect, hi, h.fresh]
    · rw [disconnect, update_of_ne hi, map_pos_foldl_mark, map_pos_connect, if_neg hi]
  · by_cases hid : k.1 = t.id
    · rw [slot, slot, disconnect, hid, update_self, h.fresh]
    · have hd : slot (disconnect free (connect free L t) t) k
          = slot (t.inputs.foldl (mark free) (connect free L t)) k := by
        simp [slot, disconnect, update_of_ne hid]
      rw [hd, slot_foldl_mark, slot_connect, if_neg hid]
      by_cases hk : k ∈ t.inputs
      · simp [hk, h.unspent k hk]
      · simp [hk]

theorem foldl_connect_eq_none {i : ι} :
    ts.foldl (connect free) L i = none ↔ L i = none ∧ ∀ t ∈ ts, t.id ≠ i := by
  induction ts generalizing L with
  | nil => simp
  | cons t ts ih =>
    have hmap := map_pos_connect free L t i
    have hiff : connect free L t i = none ↔ L i = none ∧ t.id ≠ i := by
      rw [← @Option.map_eq_none_iff _ _ _ Entry.pos, hmap]
      by_cases hi : i = t.id
      · simp [hi]
      · simp [hi, Ne.symm hi]
    rw [foldl_cons, ih, hiff, List.forall_mem_cons, and_assoc]

theorem connects_append {us : List (Spend ι P)} :
    Connects free L (ts ++ us) ↔
      Connects free L ts ∧ Connects free (ts.foldl (connect free) L) us := by
  induction ts generalizing L with
  | nil => simp [Connects]
  | cons t ts ih => simp [Connects, ih, and_assoc]

theorem foldl_disconnect_foldl_connect (h : Connects free L ts) :
    ts.reverse.foldl (disconnect free) (ts.foldl (connect free) L) = L := by
  induction ts generalizing L with
  | nil => rfl
  | cons t ts ih =>
    have hundo := ih h.2
    simp only [List.reverse_cons, List.foldl_append, foldl_cons, List.foldl_nil, hundo]
    exact disconnect_connect h.1

def ledgerOf (free : P) (ts : List (Spend ι P)) : Ledger ι P :=
  ts.foldl (connect free) fun _ => none

structure Recorded (free : P) (ts : List (Spend ι P)) (L : Ledger ι P) : Prop where
  /-- It has an entry for each of them and no other. -/
  absent : ∀ i, L i = none ↔ ∀ t ∈ ts, t.id ≠ i
  distinct : ts.Pairwise fun t u => t.id ≠ u.id
  /-- Each entry has the position of its transaction. -/
  pos : ∀ t ∈ ts, (L t.id).map Entry.pos = some t.pos
  /-- Each entry has a slot for each output of its transaction. -/
  width : ∀ t ∈ ts, (L t.id).map (fun e => e.slots.length) = some t.width
  spent : ∀ t ∈ ts, ∀ k ∈ t.inputs, slot L k = some t.pos
  unspent : ∀ k, slot L k ≠ none → (∀ t ∈ ts, k ∉ t.inputs) → slot L k = some free
  /-- No slot has two spenders. -/
  exclusive : ts.Pairwise fun t u => ∀ k ∈ t.inputs, k ∉ u.inputs

theorem Recorded.connect (h : Recorded free ts L) (hpos : ∀ u ∈ ts, u.pos ≠ free)
    (ht : Enabled free L t) : Recorded free (ts ++ [t]) (connect free L t) := by
  have hne : ∀ u ∈ ts, u.id ≠ t.id := (h.absent t.id).mp ht.fresh
  -- A slot that an earlier transaction spends is not free, so the new one does not spend it.
  have hex : ∀ u ∈ ts, ∀ k ∈ u.inputs, k ∉ t.inputs := by
    intro u hu k hk hkt
    have hs := (h.spent u hu k hk).symm.trans (ht.unspent k hkt)
    exact hpos u hu (Option.some.inj hs)
  have hspent : ∀ u ∈ ts, ∀ k ∈ u.inputs, k.1 ≠ t.id := by
    rintro u hu k hk heq
    have hs := h.spent u hu k hk
    rw [slot, heq, ht.fresh] at hs
    simp at hs
  refine ⟨fun i => ?_, ?_, ?_, ?_, ?_, ?_, ?_⟩
  · have hmap := map_pos_connect free L t i
    by_cases hi : i = t.id
    · subst hi
      simp only [mem_append, mem_singleton]
      constructor
      · intro hn
        simp [hn] at hmap
      · intro hn
        exact absurd rfl (hn t (.inr rfl))
    · rw [if_neg hi] at hmap
      have hiff : Ledger.connect free L t i = none ↔ L i = none := by
        rw [← @Option.map_eq_none_iff _ _ _ Entry.pos, hmap, Option.map_eq_none_iff]
      rw [hiff, h.absent i]
      simp only [mem_append, mem_singleton]
      constructor
      · rintro hn u (hu | rfl)
        · exact hn u hu
        · exact Ne.symm hi
      · exact fun hn u hu => hn u (.inl hu)
  · rw [List.pairwise_append]
    exact ⟨h.distinct, List.pairwise_singleton _ _, by simpa using hne⟩
  · simp only [mem_append, mem_singleton]
    rintro u (hu | rfl)
    · rw [map_pos_connect, if_neg (hne u hu), h.pos u hu]
    · rw [map_pos_connect, if_pos rfl]
  · simp only [mem_append, mem_singleton]
    rintro u (hu | rfl)
    · rw [map_length_connect, if_neg (hne u hu), h.width u hu]
    · rw [map_length_connect, if_pos rfl]
  · simp only [mem_append, mem_singleton]
    rintro u (hu | rfl) k hk
    · rw [slot_connect, if_neg (hspent u hu k hk), if_neg (hex u hu k hk), h.spent u hu k hk]
    · rw [slot_connect, if_neg (ht.ne_id hk), if_pos hk, ht.unspent k hk]
      rfl
  · intro k hsome hall
    have hkt : k ∉ t.inputs := hall t (by simp)
    have hts : ∀ u ∈ ts, k ∉ u.inputs := fun u hu => hall u (by simp [hu])
    rw [slot_connect] at hsome ⊢
    by_cases hid : k.1 = t.id
    · rw [if_pos hid] at hsome ⊢
      by_cases hw : k.2 < t.width
      · rw [if_pos hw]
      · exact absurd (if_neg hw) hsome
    · rw [if_neg hid, if_neg hkt] at hsome ⊢
      exact h.unspent k hsome hts
  · rw [List.pairwise_append]
    exact ⟨h.exclusive, List.pairwise_singleton _ _, by simpa using hex⟩

theorem recorded_ledgerOf (hpos : ∀ t ∈ ts, t.pos ≠ free) (h : Connects free (fun _ => none) ts) :
    Recorded free ts (ledgerOf free ts) := by
  induction ts using List.reverseRecOn with
  | nil =>
    refine ⟨?_, List.Pairwise.nil, ?_, ?_, ?_, ?_, List.Pairwise.nil⟩ <;> simp [ledgerOf, slot]
  | append_singleton ts t ih =>
    obtain ⟨hts, ht, -⟩ := connects_append.mp h
    rw [ledgerOf, List.foldl_append]
    exact (ih (fun u hu => hpos u (by simp [hu])) hts).connect (fun u hu => hpos u (by simp [hu])) ht

theorem Recorded.slot_ne_free_iff (h : Recorded free ts L) (hpos : ∀ t ∈ ts, t.pos ≠ free) {p : P}
    (hk : slot L k = some p) : p ≠ free ↔ ∃ t ∈ ts, k ∈ t.inputs := by
  constructor
  · intro hp
    by_contra hn
    push Not at hn
    have hfree := h.unspent k (by simp [hk]) hn
    exact hp (Option.mem_unique hk hfree)
  · rintro ⟨t, ht, hkt⟩
    have hs := hk.symm.trans (h.spent t ht k hkt)
    rw [Option.some.inj hs]
    exact hpos t ht

omit [DecidableEq ι] in
theorem Recorded.slot_ne_none_iff (h : Recorded free ts L) (k : ι × ℕ) :
    slot L k ≠ none ↔ k ∈ ts.flatMap Spend.outputs := by
  simp only [List.mem_flatMap, Spend.outputs, mem_map, List.mem_range]
  constructor
  · intro hs
    rcases hL : L k.1 with _ | e
    · exact absurd (slot_eq_none hL k.2) hs
    · have hex : ¬∀ t ∈ ts, t.id ≠ k.1 := fun hn => by simp [(h.absent k.1).mpr hn] at hL
      push Not at hex
      obtain ⟨t, ht, hid⟩ := hex
      have hw := h.width t ht
      rw [hid, hL, Option.map_some, Option.some.injEq] at hw
      simp only [slot, hL, Option.bind_some, ne_eq, List.getElem?_eq_none_iff, not_le, hw] at hs
      exact ⟨t, ht, k.2, hs, by rw [hid]⟩
  · rintro ⟨t, ht, n, hn, rfl⟩
    have hw := h.width t ht
    rcases hL : L t.id with _ | e
    · simp [hL] at hw
    · rw [hL, Option.map_some, Option.some.injEq] at hw
      simp [slot, hL, hw, hn]

/-- A slot is free when a transaction has created it and none has spent it, wherever they are stored. -/
theorem Recorded.slot_eq_free_iff (h : Recorded free ts L) (hpos : ∀ t ∈ ts, t.pos ≠ free)
    (k : ι × ℕ) :
    slot L k = some free ↔ (∃ t ∈ ts, k ∈ t.outputs) ∧ ∀ t ∈ ts, k ∉ t.inputs := by
  rw [← List.mem_flatMap, ← h.slot_ne_none_iff]
  constructor
  · intro hk
    exact ⟨by simp [hk], fun t ht hkt => (h.slot_ne_free_iff hpos hk).mpr ⟨t, ht, hkt⟩ rfl⟩
  · rintro ⟨hcre, hunspent⟩
    exact h.unspent k hcre hunspent

variable [DecidableEq P]

def unspentOutputs (free : P) (ts : List (Spend ι P)) (L : Ledger ι P) : Finset (ι × ℕ) :=
  (ts.flatMap Spend.outputs).toFinset.filter fun k => slot L k = some free

theorem Recorded.mem_unspentOutputs (h : Recorded free ts L) :
    k ∈ unspentOutputs free ts L ↔ slot L k = some free := by
  rw [unspentOutputs, Finset.mem_filter, mem_toFinset, ← h.slot_ne_none_iff]
  constructor
  · exact And.right
  · exact fun hs => ⟨by simp [hs], hs⟩

omit [DecidableEq ι] [DecidableEq P] in
theorem nodup_outputs (t : Spend ι P) : t.outputs.Nodup :=
  List.nodup_range.map fun _ _ h => (Prod.mk.inj h).2

theorem unspentOutputs_connect (h : Recorded free ts L) (hpos : ∀ u ∈ ts ++ [t], u.pos ≠ free)
    (ht : Enabled free L t) :
    unspentOutputs free (ts ++ [t]) (connect free L t)
      = (unspentOutputs free ts L \ t.inputs.toFinset) ∪ t.outputs.toFinset := by
  have h' := h.connect (fun u hu => hpos u (by simp [hu])) ht
  ext k
  rw [h'.mem_unspentOutputs, Finset.mem_union, Finset.mem_sdiff, h.mem_unspentOutputs,
    mem_toFinset, mem_toFinset, slot_connect]
  have hout : k ∈ t.outputs ↔ k.1 = t.id ∧ k.2 < t.width := by
    rcases k with ⟨i, n⟩
    simp only [Spend.outputs, mem_map, List.mem_range, Prod.mk.injEq]
    constructor
    · rintro ⟨m, hm, rfl, rfl⟩
      exact ⟨rfl, hm⟩
    · rintro ⟨rfl, hn⟩
      exact ⟨n, hn, rfl, rfl⟩
  rw [hout]
  by_cases hid : k.1 = t.id
  · have hnone : slot L k = none := by rw [slot, hid, ht.fresh, Option.bind_none]
    by_cases hw : k.2 < t.width <;> simp [hid, hw, hnone]
  · by_cases hk : k ∈ t.inputs
    · have hp : t.pos ≠ free := hpos t (by simp)
      simp [hid, hk, ht.unspent k hk, hp]
    · simp [hid, hk]

theorem sum_unspentOutputs_connect {M : Type*} [AddCommGroup M] (val : ι × ℕ → M)
    (h : Recorded free ts L) (hpos : ∀ u ∈ ts ++ [t], u.pos ≠ free) (ht : Enabled free L t) :
    ∑ k ∈ unspentOutputs free (ts ++ [t]) (connect free L t), val k
      = ∑ k ∈ unspentOutputs free ts L, val k - (t.inputs.map val).sum
        + (t.outputs.map val).sum := by
  have hsub : t.inputs.toFinset ⊆ unspentOutputs free ts L := fun k hk =>
    h.mem_unspentOutputs.mpr (ht.unspent k (List.mem_toFinset.mp hk))
  have hdisj : Disjoint (unspentOutputs free ts L \ t.inputs.toFinset) t.outputs.toFinset := by
    rw [Finset.disjoint_right]
    intro k hk hmem
    have hs := h.mem_unspentOutputs.mp (Finset.mem_sdiff.mp hmem).1
    obtain ⟨n, -, rfl⟩ := List.mem_map.mp (List.mem_toFinset.mp hk)
    rw [slot_eq_none ht.fresh] at hs
    simp at hs
  rw [unspentOutputs_connect h hpos ht, Finset.sum_union hdisj,
    sum_toFinset val (nodup_outputs t), ← sum_toFinset val ht.nodup,
    ← Finset.sum_sdiff hsub]
  abel

end Ledger

/-! ## Ledgers that back an amount

An identifier may come again: connecting then replaces the entry, and the free slots of the old one
are lost. What a ledger is worth is no longer known exactly, but it stays bounded by what has been
created less what has been spent. -/

namespace Ledger

variable {M : Type*} [AddCommGroup M]

def slotValue (value : P → ℕ → M) (L : Ledger ι P) (k : ι × ℕ) : M :=
  ((L k.1).map fun e => value e.pos k.2).getD 0

variable {value : P → ℕ → M}

theorem slotValue_congr {L' : Ledger ι P} {k : ι × ℕ}
    (h : (L' k.1).map Entry.pos = (L k.1).map Entry.pos) :
    slotValue value L' k = slotValue value L k := by
  have hpos (m : Option (Entry P)) :
      (m.map fun e => value e.pos k.2) = (m.map Entry.pos).map fun p => value p k.2 := by
    cases m <;> rfl
  unfold slotValue
  rw [hpos, hpos, h]

variable [PartialOrder M]

/-- No set of free slots is worth more than an amount. -/
def BackedBy (free : P) (value : P → ℕ → M) (L : Ledger ι P) (total : M) : Prop :=
  ∀ S : Finset (ι × ℕ), (∀ k ∈ S, slot L k = some free) → ∑ k ∈ S, slotValue value L k ≤ total

theorem backedBy_empty : BackedBy free value (fun _ : ι => none) 0 := by
  intro S hS
  have hemp : S = ∅ := Finset.eq_empty_of_forall_notMem fun k hk => by
    have hslot := hS k hk
    simp [slot] at hslot
  rw [hemp, Finset.sum_empty]

theorem BackedBy.nonneg {total : M} (h : BackedBy free value L total) : 0 ≤ total := by
  simpa using h ∅ (by simp)

variable [DecidableEq ι] [IsOrderedAddMonoid M]

theorem BackedBy.connect {total : M} {t : Spend ι P} (h : BackedBy free value L total)
    (hpos : t.pos ≠ free) (hfree : ∀ k ∈ t.inputs, slot L k = some free) (hnd : t.inputs.Nodup)
    (hnn : ∀ n, 0 ≤ value t.pos n) :
    BackedBy free value (connect free L t)
      (total - (t.inputs.map (slotValue value L)).sum
        + ((List.range t.width).map (value t.pos)).sum) := by
  intro S hS
  -- The free slots of the new entry, and those of the old ones, which the transaction has left.
  rw [← Finset.sum_filter_add_sum_filter_not S (fun k => k.1 ≠ t.id)]
  have hold : ∑ k ∈ S.filter (fun k => k.1 ≠ t.id), slotValue value (Ledger.connect free L t) k
      ≤ total - (t.inputs.map (slotValue value L)).sum := by
    have hslots : ∀ k ∈ S.filter (fun k => k.1 ≠ t.id), k ∉ t.inputs ∧ slot L k = some free := by
      intro k hk
      obtain ⟨hkS, hid⟩ := Finset.mem_filter.mp hk
      have hslot := hS k hkS
      rw [slot_connect, if_neg hid] at hslot
      by_cases hin : k ∈ t.inputs
      · rw [if_pos hin, hfree k hin] at hslot
        exact absurd (Option.some.inj hslot) hpos
      · rw [if_neg hin] at hslot
        exact ⟨hin, hslot⟩
    have hdisj : Disjoint (S.filter fun k => k.1 ≠ t.id) t.inputs.toFinset := by
      rw [Finset.disjoint_left]
      intro k hk hin
      exact (hslots k hk).1 (List.mem_toFinset.mp hin)
    have hvalues : ∑ k ∈ S.filter (fun k => k.1 ≠ t.id),
        slotValue value (Ledger.connect free L t) k
          = ∑ k ∈ S.filter (fun k => k.1 ≠ t.id), slotValue value L k := by
      refine Finset.sum_congr rfl fun k hk => slotValue_congr ?_
      rw [map_pos_connect, if_neg (Finset.mem_filter.mp hk).2]
    have hunion := h ((S.filter fun k => k.1 ≠ t.id) ∪ t.inputs.toFinset) (fun k hk => by
      rcases Finset.mem_union.mp hk with hk | hk
      · exact (hslots k hk).2
      · exact hfree k (List.mem_toFinset.mp hk))
    rw [Finset.sum_union hdisj, sum_toFinset _ hnd] at hunion
    rw [hvalues]
    exact le_sub_iff_add_le.mpr hunion
  have hnew : ∑ k ∈ S.filter (fun k => ¬k.1 ≠ t.id), slotValue value (Ledger.connect free L t) k
      ≤ ((List.range t.width).map (value t.pos)).sum := by
    have hsub : (S.filter fun k => ¬k.1 ≠ t.id) ⊆ t.outputs.toFinset := by
      intro k hk
      obtain ⟨hkS, hid⟩ := Finset.mem_filter.mp hk
      have hslot := hS k hkS
      rw [slot_connect, if_pos (not_not.mp hid)] at hslot
      have hwidth : k.2 < t.width := by
        by_contra hge
        rw [if_neg hge] at hslot
        simp at hslot
      rw [mem_toFinset, Spend.outputs, mem_map]
      exact ⟨k.2, List.mem_range.mpr hwidth, Prod.ext (not_not.mp hid).symm rfl⟩
    have hval (n : ℕ) : slotValue value (Ledger.connect free L t) (t.id, n) = value t.pos n := by
      simp [slotValue, Ledger.connect]
    calc ∑ k ∈ S.filter (fun k => ¬k.1 ≠ t.id), slotValue value (Ledger.connect free L t) k
        ≤ ∑ k ∈ t.outputs.toFinset, slotValue value (Ledger.connect free L t) k := by
          refine Finset.sum_le_sum_of_subset_of_nonneg hsub fun k hk _ => ?_
          obtain ⟨n, -, rfl⟩ := List.mem_map.mp (List.mem_toFinset.mp hk)
          rw [hval]
          exact hnn n
      _ = (t.outputs.map (slotValue value (Ledger.connect free L t))).sum :=
          sum_toFinset _ (nodup_outputs t)
      _ = ((List.range t.width).map (value t.pos)).sum := by
          rw [Spend.outputs, List.map_map]
          exact congrArg List.sum (List.map_congr_left fun n _ => hval n)
  exact add_le_add hold hnew

end Ledger

end ZalemCoin.Lib
