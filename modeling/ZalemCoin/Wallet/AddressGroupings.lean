import Mathlib.Data.Prod.Lex
import ZalemCoin.Lib.Classes
import ZalemCoin.Lib.SortedSet
import ZalemCoin.Lib.Yields
import ZalemCoin.Wallet.CommitTransaction

/-!
# Address groupings

The addresses of a wallet that have been made public as belonging together: those that are inputs of one
transaction, and the change of it. The groups of the single transactions are merged when they have an
address in common, with a pointer from each address to the set that it is in, and the sets that have been
merged are deleted.
-/

namespace ZalemCoin.Wallet

open Chain Lib Script
open SortedSet (notMem_empty mem_insert)
open Yields (foldlM)

/-- The order of `boost::variant`: keys before scripts. -/
def CTxDestination.rank : CTxDestination → ℕ ×ₗ Fin (2 ^ 160)
  | .keyID id => toLex (0, id)
  | .scriptID id => toLex (1, id)

theorem CTxDestination.rank_injective : Function.Injective CTxDestination.rank := by
  rintro (a | a) (b | b) h
  · rw [(Prod.mk.inj (toLex.injective h)).2]
  · exact absurd (Prod.mk.inj (toLex.injective h)).1 Nat.zero_ne_one
  · exact absurd (Prod.mk.inj (toLex.injective h)).1 Nat.one_ne_zero
  · rw [(Prod.mk.inj (toLex.injective h)).2]

instance : LinearOrder CTxDestination :=
  LinearOrder.lift' CTxDestination.rank CTxDestination.rank_injective

/-! ## Merging sets that meet -/

section

variable {α : Type} [LinearOrder α]

structure MergedSets (α : Type) [LinearOrder α] where
  heap : ℕ → Option (SortedSet α)
  nNext : ℕ
  uniqueGroupings : SortedSet ℕ
  setmap : α → Option ℕ

namespace MergedSets

def empty : MergedSets α := ⟨fun _ => none, 0, ∅, fun _ => none⟩

def deref (m : MergedSets α) (p : ℕ) : Except Failure (SortedSet α) :=
  match m.heap p with
  | none => .error (.crash "dangling pointer")
  | some s => .ok s

def hits (m : MergedSets α) (grouping : SortedSet α) : SortedSet ℕ :=
  grouping.elems.foldl (fun hits address =>
    match m.setmap address with
    | none => hits
    | some it => hits.insert it) ∅

def absorb (st : SortedSet α × MergedSets α) (hit : ℕ) :
    Except Failure (SortedSet α × MergedSets α) := do
  let s ← st.2.deref hit
  pure (st.1.union s,
    { st.2 with
      heap := Function.update st.2.heap hit none
      uniqueGroupings := st.2.uniqueGroupings.erase hit })

def allocate (merged : SortedSet α) (m : MergedSets α) : MergedSets α where
  heap := Function.update m.heap m.nNext (some merged)
  nNext := m.nNext + 1
  uniqueGroupings := m.uniqueGroupings.insert m.nNext
  setmap := merged.elems.foldl (fun setmap element => Function.update setmap element (some m.nNext))
    m.setmap

def add (m : MergedSets α) (grouping : SortedSet α) : Except Failure (MergedSets α) := do
  let (merged, m) ← (m.hits grouping).elems.foldlM absorb (grouping, m)
  pure (allocate merged m)

def result (m : MergedSets α) : Except Failure (SortedSet (SortedSet α)) :=
  m.uniqueGroupings.elems.foldlM (fun ret uniqueGrouping => do
    let s ← m.deref uniqueGrouping
    pure (ret.insert s)) ∅

def sets (m : MergedSets α) : Set (Set α) := {t | ∃ p s, m.heap p = some s ∧ s.toSet = t}

/-- The sets are the classes of a family, and each element points to the set that it is in. -/
structure Holds (m : MergedSets α) (F : Set (Set α)) : Prop where
  live : ∀ p, p ∈ m.uniqueGroupings ↔ ∃ s, m.heap p = some s
  fresh : ∀ p ∈ m.uniqueGroupings, p < m.nNext
  points : ∀ a p, m.setmap a = some p ↔ ∃ s, m.heap p = some s ∧ a ∈ s
  classes : IsClasses m.sets F

variable {m m' : MergedSets α} {F : Set (Set α)} {grouping merged : SortedSet α}

theorem holds_empty : (empty : MergedSets α).Holds ∅ where
  live p := by simp [empty]
  fresh p hp := absurd hp (notMem_empty p)
  points a p := by simp [empty]
  classes := by
    have hsets : (empty : MergedSets α).sets = ∅ := by
      ext t
      simp [sets, empty]
    rw [hsets]
    exact IsClasses.empty

theorem mem_hits {p : ℕ} : p ∈ m.hits grouping ↔ ∃ a ∈ grouping, m.setmap a = some p := by
  have hloop : ∀ (l : List α) (hits : SortedSet ℕ),
      p ∈ l.foldl (fun hits address =>
        match m.setmap address with
        | none => hits
        | some it => hits.insert it) hits ↔ p ∈ hits ∨ ∃ a ∈ l, m.setmap a = some p := by
    intro l
    induction l with
    | nil => simp
    | cons a l ih =>
      intro hits
      rw [List.foldl_cons, ih, List.exists_mem_cons_iff, ← or_assoc]
      cases hmap : m.setmap a with
      | none => simp
      | some it => simp [or_comm, eq_comm]
  refine (hloop grouping.elems ∅).trans ?_
  rw [or_iff_right (notMem_empty p)]
  rfl

structure Absorbed (m : MergedSets α) (grouping : SortedSet α) (done : List ℕ)
    (st : SortedSet α × MergedSets α) : Prop where
  merged : ∀ a, a ∈ st.1 ↔ a ∈ grouping ∨ ∃ p ∈ done, ∃ s, m.heap p = some s ∧ a ∈ s
  heap : ∀ p, st.2.heap p = if p ∈ done then none else m.heap p
  unique : ∀ p, p ∈ st.2.uniqueGroupings ↔ p ∈ m.uniqueGroupings ∧ p ∉ done
  rest : st.2.nNext = m.nNext ∧ st.2.setmap = m.setmap

theorem Absorbed.step {done : List ℕ} {st : SortedSet α × MergedSets α} {hit : ℕ} {s : SortedSet α}
    (h : Absorbed m grouping done st) (hnew : hit ∉ done) (hs : m.heap hit = some s) :
    Yields (fun _ => False) (absorb st hit) (Absorbed m grouping (done ++ [hit])) := by
  have hderef : st.2.deref hit = .ok s := by
    unfold deref
    rw [h.heap, if_neg hnew, hs]
  unfold absorb
  rw [hderef]
  refine ⟨fun a => ?_, fun p => ?_, fun p => ?_, h.rest⟩
  · dsimp only
    rw [SortedSet.mem_union, h.merged, or_assoc]
    simp [or_and_right, exists_or, hs]
  · dsimp only
    rw [Function.update_apply, h.heap]
    by_cases heq : p = hit
    · simp [heq]
    · simp [heq]
  · dsimp only
    rw [SortedSet.mem_erase, h.unique]
    simp only [List.mem_append, List.mem_singleton]
    tauto

theorem Holds.absorbed (h : m.Holds F) (grouping : SortedSet α) :
    Yields (fun _ => False) ((m.hits grouping).elems.foldlM absorb (grouping, m))
      (Absorbed m grouping (m.hits grouping).elems) := by
  refine foldlM (Absorbed m grouping) ?_ fun done hit rest st hl hst => ?_
  · exact ⟨by simp, by simp, by simp, rfl, rfl⟩
  · have hmem : hit ∈ m.hits grouping := by
      change hit ∈ (m.hits grouping).elems
      rw [hl]
      simp
    obtain ⟨a, -, ha⟩ := mem_hits.mp hmem
    obtain ⟨s, hs, -⟩ := (h.points a hit).mp ha
    have hnd := (m.hits grouping).nodup_elems
    rw [hl] at hnd
    refine hst.step (fun hdone => ?_) hs
    exact (List.nodup_append.mp hnd).2.2 hit hdone hit List.mem_cons_self rfl

theorem foldl_update (l : List α) (setmap : α → Option ℕ) (p : ℕ) (a : α) :
    l.foldl (fun setmap element => Function.update setmap element (some p)) setmap a
      = if a ∈ l then some p else setmap a := by
  induction l generalizing setmap with
  | nil => simp
  | cons b l ih =>
    rw [List.foldl_cons, ih, Function.update_apply]
    by_cases hl : a ∈ l
    · simp [hl]
    · simp [hl]

/-- After a grouping is added, the map holds the classes of the larger family. -/
theorem Holds.add (h : m.Holds F) (hgrouping : ∃ a, a ∈ grouping) :
    Yields (fun _ => False) (m.add grouping) (Holds · (insert grouping.toSet F)) := by
  refine Yields.bind (h.absorbed grouping) ?_
  rintro ⟨merged, m'⟩ hm'
  obtain ⟨hnext, hsetmap⟩ := hm'.rest
  have hmerged : ∀ a, a ∈ merged ↔ a ∈ grouping ∨
      ∃ p ∈ m.hits grouping, ∃ s, m.heap p = some s ∧ a ∈ s := hm'.merged
  have hheap : ∀ p, m'.heap p = if p ∈ m.hits grouping then none else m.heap p := hm'.heap
  have hfree : m.heap m.nNext = none := by
    cases hp : m.heap m.nNext with
    | none => rfl
    | some s => exact absurd (h.fresh _ ((h.live _).mpr ⟨s, hp⟩)) (lt_irrefl _)
  have hheap' : ∀ p s, (allocate merged m').heap p = some s ↔
      (p = m.nNext ∧ s = merged) ∨ (p ∉ m.hits grouping ∧ m.heap p = some s) := by
    intro p s
    change Function.update m'.heap m'.nNext (some merged) p = some s ↔ _
    rw [Function.update_apply, hnext, hheap]
    split_ifs with hp hhit
    · subst hp
      simp [hfree, eq_comm]
    · simp [hp, hhit]
    · simp [hp, hhit]
  have hhits : ∀ p s, m.heap p = some s → (p ∈ m.hits grouping ↔ (s.toSet ∩ grouping.toSet).Nonempty) := by
    intro p s hp
    rw [mem_hits]
    constructor
    · rintro ⟨a, ha, hmap⟩
      obtain ⟨s', hs', has'⟩ := (h.points a p).mp hmap
      obtain rfl := Option.mem_unique hp hs'
      exact ⟨a, has', ha⟩
    · rintro ⟨a, has, ha⟩
      exact ⟨a, ha, (h.points a p).mpr ⟨s, hp, has⟩⟩
  refine ⟨fun p => ?_, fun p hp => ?_, fun a p => ?_, ?_⟩
  · change p ∈ m'.uniqueGroupings.insert m'.nNext ↔ _
    rw [mem_insert, hm'.unique, hnext, h.live]
    simp only [hheap']
    constructor
    · rintro (rfl | ⟨⟨s, hs⟩, hnot⟩)
      · exact ⟨merged, .inl ⟨rfl, rfl⟩⟩
      · exact ⟨s, .inr ⟨hnot, hs⟩⟩
    · rintro ⟨s, ⟨hp, -⟩ | ⟨hnot, hs⟩⟩
      · exact .inl hp
      · exact .inr ⟨⟨s, hs⟩, hnot⟩
  · change p < m'.nNext + 1
    rw [hnext]
    rcases SortedSet.mem_insert.mp hp with rfl | hp
    · rw [hnext]
      exact Nat.lt_succ_self _
    · exact Nat.lt_succ_of_lt (h.fresh p ((hm'.unique p).mp hp).1)
  · change merged.elems.foldl _ m'.setmap a = some p ↔ _
    rw [foldl_update, hnext, hsetmap]
    simp only [hheap']
    change (if a ∈ merged then _ else _) = _ ↔ _
    split_ifs with ha
    · constructor
      · intro heq
        exact ⟨merged, .inl ⟨(Option.some.inj heq).symm, rfl⟩, ha⟩
      · rintro ⟨s, ⟨rfl, -⟩ | ⟨hnot, hs⟩, has⟩
        · rfl
        · -- The set of an element that has been merged was hit.
          have hmap := (h.points a p).mpr ⟨s, hs, has⟩
          rcases (hmerged a).mp ha with hag | ⟨p', hp', s', hs', has'⟩
          · exact absurd (mem_hits.mpr ⟨a, hag, hmap⟩) hnot
          · have hmap' := (h.points a p').mpr ⟨s', hs', has'⟩
            rw [Option.mem_unique hmap hmap'] at hnot
            exact absurd hp' hnot
    · rw [h.points]
      constructor
      · rintro ⟨s, hs, has⟩
        exact ⟨s, .inr ⟨fun hp => ha ((hmerged a).mpr (.inr ⟨p, hp, s, hs, has⟩)), hs⟩, has⟩
      · rintro ⟨s, ⟨-, rfl⟩ | ⟨-, hs⟩, has⟩
        · exact absurd has ha
        · exact ⟨s, hs, has⟩
  · have hunion : merged.toSet
        = grouping.toSet ∪ ⋃₀ {t ∈ m.sets | (t ∩ grouping.toSet).Nonempty} := by
      ext a
      change a ∈ merged ↔ _
      rw [hmerged]
      apply or_congr_right
      constructor
      · rintro ⟨p, hp, s, hs, has⟩
        exact ⟨s.toSet, ⟨⟨p, s, hs, rfl⟩, (hhits p s hs).mp hp⟩, has⟩
      · rintro ⟨-, ⟨⟨p, s, hs, rfl⟩, hmeets⟩, has⟩
        exact ⟨p, (hhits p s hs).mpr hmeets, s, hs, has⟩
    have hsets : (allocate merged m').sets
        = insert merged.toSet {t ∈ m.sets | ¬(t ∩ grouping.toSet).Nonempty} := by
      ext t
      constructor
      · rintro ⟨p, s, hs, rfl⟩
        rcases (hheap' p s).mp hs with ⟨-, rfl⟩ | ⟨hnot, hs⟩
        · exact .inl rfl
        · exact .inr ⟨⟨p, s, hs, rfl⟩, mt (hhits p s hs).mpr hnot⟩
      · rintro (rfl | ⟨⟨p, s, hs, rfl⟩, hmiss⟩)
        · exact ⟨m.nNext, merged, (hheap' _ _).mpr (.inl ⟨rfl, rfl⟩), rfl⟩
        · exact ⟨p, s, (hheap' p s).mpr (.inr ⟨mt (hhits p s hs).mp hmiss, hs⟩), rfl⟩
    rw [hsets, hunion]
    exact h.classes.insert hgrouping

theorem Holds.result (h : m.Holds F) :
    Yields (fun _ => False) m.result fun ret => ∀ s, s ∈ ret ↔ ∃ p, m.heap p = some s := by
  have hloop : Yields (fun _ => False) m.result fun ret => ∀ s, s ∈ ret ↔
      ∃ p ∈ m.uniqueGroupings.elems, m.heap p = some s := by
    refine foldlM (fun done (ret : SortedSet (SortedSet α)) =>
      ∀ s, s ∈ ret ↔ ∃ p ∈ done, m.heap p = some s) (by simp) fun done p rest ret hl hret => ?_
    have hmem : p ∈ m.uniqueGroupings := by
      change p ∈ m.uniqueGroupings.elems
      rw [hl]
      simp
    obtain ⟨s, hs⟩ := (h.live p).mp hmem
    have hderef : m.deref p = .ok s := by
      unfold deref
      rw [hs]
    rw [hderef]
    intro t
    rw [mem_insert, hret]
    simp [or_and_right, exists_or, hs, or_comm, eq_comm]
  refine hloop.mono (fun _ => id) fun ret hret s => (hret s).trans ?_
  constructor
  · rintro ⟨p, -, hs⟩
    exact ⟨p, hs⟩
  · rintro ⟨p, hs⟩
    exact ⟨p, (h.live p).mpr ⟨s, hs⟩, hs⟩

theorem merge_spec (groupings : SortedSet (SortedSet α)) (hne : ∀ g ∈ groupings, ∃ a, a ∈ g) :
    Yields (fun _ => False) (do
        let m ← groupings.elems.foldlM add empty
        m.result)
      fun ret => IsClasses {t | ∃ s ∈ ret, s.toSet = t} {t | ∃ g ∈ groupings, g.toSet = t} := by
  have hloop : Yields (fun _ => False) (groupings.elems.foldlM add empty)
      (Holds · {t | ∃ g ∈ groupings.elems, g.toSet = t}) := by
    refine foldlM (fun (done : List (SortedSet α)) m => Holds m {t | ∃ g ∈ done, g.toSet = t}) ?_
      fun done g rest m hl hm => ?_
    · have hnone : {t : Set α | ∃ g ∈ ([] : List (SortedSet α)), g.toSet = t} = ∅ := by
        ext t
        simp
      rw [hnone]
      exact holds_empty
    · have hmem : g ∈ groupings := by
        change g ∈ groupings.elems
        rw [hl]
        simp
      have hmore : {t : Set α | ∃ g' ∈ done ++ [g], g'.toSet = t}
          = insert g.toSet {t | ∃ g' ∈ done, g'.toSet = t} := by
        ext t
        simp [or_and_right, exists_or, or_comm, eq_comm]
      rw [hmore]
      exact hm.add (hne g hmem)
  refine Yields.bind hloop fun m hm => hm.result.mono (fun _ => id) fun ret hret => ?_
  have hsets : {t : Set α | ∃ s ∈ ret, s.toSet = t} = m.sets := by
    ext t
    constructor
    · rintro ⟨s, hs, rfl⟩
      obtain ⟨p, hp⟩ := (hret s).mp hs
      exact ⟨p, s, hp, rfl⟩
    · rintro ⟨p, s, hp, rfl⟩
      exact ⟨s, (hret s).mpr ⟨p, hp⟩, rfl⟩
  rw [hsets]
  exact hm.classes

end MergedSets

end

/-! ## The groups of a wallet -/

structure AddressWallet extends CoinWallet where
  mapAddressBook : CTxDestination → Option String

namespace AddressWallet

variable (ctx : WalletContext) (w : AddressWallet)

def addressOf (txout : CTxOut) : Option CTxDestination :=
  ExtractDestination ctx.keyContext.Hash160 txout.scriptPubKey

def IsChange (txout : CTxOut) : Except Failure Bool := do
  let mine ← w.IsMine ctx txout
  if mine = .ISMINE_NO then pure false
  else
    match addressOf ctx txout with
    | none => pure true
    | some address => pure (w.mapAddressBook address).isNone

def spentOutput (txin : CTxIn) : Option CTxOut :=
  (w.outputsOf txin.prevout.hash).bind fun vout => vout[txin.prevout.n.toNat]?

def inputIsMine (txin : CTxIn) : Except Failure isminetype :=
  match w.spentOutput txin with
  | none => pure .ISMINE_NO
  | some txout => w.IsMine ctx txout

/-- Adds the address of an input, and whether any was added. -/
def groupInput (st : SortedSet CTxDestination × Bool) (txin : CTxIn) :
    Except Failure (SortedSet CTxDestination × Bool) := do
  let mine ← w.inputIsMine ctx txin
  if mine = .ISMINE_NO then pure st
  else
    match w.spentOutput txin with
    | none => .error (.crash "vout out of range")
    | some txout =>
      match addressOf ctx txout with
      | none => pure st
      | some address => pure (st.1.insert address, true)

def groupChange (grouping : SortedSet CTxDestination) (txout : CTxOut) :
    Except Failure (SortedSet CTxDestination) := do
  let fChange ← w.IsChange ctx txout
  if fChange then
    match addressOf ctx txout with
    | none => pure grouping
    | some txoutAddr => pure (grouping.insert txoutAddr)
  else pure grouping

/-- The addresses of the inputs of a transaction and of its change, when its first input belongs to the
wallet. -/
def groupTransaction (tx : CTransaction) : Except Failure (SortedSet CTxDestination) :=
  match tx.vin with
  | [] => pure ∅
  | first :: _ => do
    let mine ← w.inputIsMine ctx first
    if mine = .ISMINE_NO then pure ∅
    else do
      let (grouping, any_mine) ← tx.vin.foldlM (w.groupInput ctx) (∅, false)
      if any_mine then tx.vout.foldlM (w.groupChange ctx) grouping else pure grouping

/-- Adds the address of an output that belongs to the wallet as a group of its own. -/
def groupOutput (groupings : SortedSet (SortedSet CTxDestination)) (txout : CTxOut) :
    Except Failure (SortedSet (SortedSet CTxDestination)) := do
  let mine ← w.IsMine ctx txout
  if mine = .ISMINE_NO then pure groupings
  else
    match addressOf ctx txout with
    | none => pure groupings
    | some address => pure (groupings.insert ((∅ : SortedSet CTxDestination).insert address))

def groupEntry (groupings : SortedSet (SortedSet CTxDestination)) (wtx : OwnedTx) :
    Except Failure (SortedSet (SortedSet CTxDestination)) := do
  let grouping ← w.groupTransaction ctx wtx.tx
  let groupings := if grouping = ∅ then groupings else groupings.insert grouping
  wtx.tx.vout.foldlM (w.groupOutput ctx) groupings

def GetAddressGroupings : Except Failure (SortedSet (SortedSet CTxDestination)) := do
  let groupings ← w.mapWallet.entries.foldlM (fun groupings e => w.groupEntry ctx groupings e.2) ∅
  let m ← groupings.elems.foldlM MergedSets.add MergedSets.empty
  m.result

/-! ## What belongs together -/

def Mine (txout : CTxOut) : Prop := ∃ mine, w.IsMine ctx txout = .ok mine ∧ mine ≠ .ISMINE_NO

/-- An address is that of an output of the wallet that a transaction spends. -/
def OwnInput (tx : CTransaction) (a : CTxDestination) : Prop :=
  ∃ txin ∈ tx.vin, ∃ txout, w.spentOutput txin = some txout ∧ w.Mine ctx txout ∧
    addressOf ctx txout = some a

def OwnOutput (tx : CTransaction) (a : CTxDestination) : Prop :=
  ∃ txout ∈ tx.vout, w.Mine ctx txout ∧ addressOf ctx txout = some a

/-- An address is that of the change of a transaction: it belongs to the wallet, and is not in the
address book. -/
def OwnChange (tx : CTransaction) (a : CTxDestination) : Prop :=
  w.OwnOutput ctx tx a ∧ w.mapAddressBook a = none

def FirstIsMine (tx : CTransaction) : Prop :=
  ∃ first ∈ tx.vin.head?, ∃ txout, w.spentOutput first = some txout ∧ w.Mine ctx txout

/-- A transaction shows that two addresses belong together: both are those of inputs, or one is that of
an input and the other that of the change. -/
def Exposes (tx : CTransaction) (a b : CTxDestination) : Prop :=
  w.OwnInput ctx tx a ∧ (w.OwnInput ctx tx b ∨ w.OwnChange ctx tx b) ∨
    w.OwnChange ctx tx a ∧ w.OwnInput ctx tx b

def txs : Set CTransaction := {tx | ∃ e ∈ w.mapWallet.entries, e.2.tx = tx}

def Occurs (a : CTxDestination) : Prop :=
  ∃ tx ∈ w.txs, w.OwnOutput ctx tx a ∨ w.OwnInput ctx tx a

/-- Two addresses are connected by a chain of transactions of the wallet, of those that are told apart by
`counts`, each of which shows that two addresses belong together. -/
def Connected (counts : CTransaction → Prop) : CTxDestination → CTxDestination → Prop :=
  Relation.ReflTransGen fun a b => ∃ tx ∈ w.txs, counts tx ∧ w.Exposes ctx tx a b

/-- Sets of addresses are those of the addresses that occur in the wallet, by what connects them. -/
structure Groups (counts : CTransaction → Prop) (ret : SortedSet (SortedSet CTxDestination)) : Prop where
  nonempty : ∀ s ∈ ret, ∃ a, a ∈ s
  disjoint : ∀ s ∈ ret, ∀ t ∈ ret, ∀ a, a ∈ s → a ∈ t → s = t
  union : ∀ a, (∃ s ∈ ret, a ∈ s) ↔ w.Occurs ctx a
  grouped : ∀ a, w.Occurs ctx a → ∀ b, (∃ s ∈ ret, a ∈ s ∧ b ∈ s) ↔ w.Connected ctx counts a b

end AddressWallet

/-! ## What the loops collect -/

namespace AddressWallet

variable {ctx : WalletContext} {w : AddressWallet} {tx : CTransaction}

/-- `IsMine` has run out of stack for an output. -/
def OutOfStack (ctx : WalletContext) (w : AddressWallet) (e : Failure) : Prop :=
  ∃ txout, w.IsMine ctx txout = .error e

theorem isMine_yields (txout : CTxOut) :
    Yields (OutOfStack ctx w) (w.IsMine ctx txout) fun mine => mine ≠ .ISMINE_NO ↔ w.Mine ctx txout := by
  cases h : w.IsMine ctx txout with
  | ok mine =>
    constructor
    · intro hmine
      exact ⟨mine, h, hmine⟩
    · rintro ⟨mine', h', hmine⟩
      rw [h] at h'
      rwa [Except.ok.inj h']
  | error e => exact ⟨txout, h⟩

theorem inputIsMine_yields (txin : CTxIn) :
    Yields (OutOfStack ctx w) (w.inputIsMine ctx txin) fun mine => mine ≠ .ISMINE_NO ↔
      ∃ txout, w.spentOutput txin = some txout ∧ w.Mine ctx txout := by
  unfold inputIsMine
  cases h : w.spentOutput txin with
  | none =>
    constructor
    · exact fun hne => absurd rfl hne
    · rintro ⟨txout, htxout, -⟩
      cases htxout
  | some txout =>
    refine (isMine_yields txout).mono (fun _ => id) fun mine hmine => hmine.trans ?_
    simp

theorem isChange_yields (txout : CTxOut) :
    Yields (OutOfStack ctx w) (w.IsChange ctx txout) fun fChange => ∀ a, addressOf ctx txout = some a →
      (fChange = true ↔ w.Mine ctx txout ∧ w.mapAddressBook a = none) := by
  refine Yields.bind (isMine_yields txout) fun mine hmine => ?_
  split_ifs with hno
  · intro a _
    simp [← hmine, hno]
  · cases haddress : addressOf ctx txout with
    | none => exact fun a ha => nomatch ha
    | some address =>
      intro a ha
      cases ha
      rw [Option.isNone_iff_eq_none]
      exact (and_iff_right (hmine.mp hno)).symm

theorem groupInputs_yields (tx : CTransaction) :
    Yields (OutOfStack ctx w) (tx.vin.foldlM (w.groupInput ctx) (∅, false)) fun st =>
      (∀ a, a ∈ st.1 ↔ w.OwnInput ctx tx a) ∧ (st.2 = true ↔ ∃ a, w.OwnInput ctx tx a) := by
  have hloop : Yields (OutOfStack ctx w) (tx.vin.foldlM (w.groupInput ctx) (∅, false)) fun st =>
      (∀ a, a ∈ st.1 ↔ ∃ txin ∈ tx.vin, ∃ txout, w.spentOutput txin = some txout ∧
        w.Mine ctx txout ∧ addressOf ctx txout = some a) ∧ (st.2 = true ↔ ∃ a, a ∈ st.1) := by
    refine foldlM (fun (done : List CTxIn) (st : SortedSet CTxDestination × Bool) =>
      (∀ a, a ∈ st.1 ↔ ∃ txin ∈ done, ∃ txout, w.spentOutput txin = some txout ∧
        w.Mine ctx txout ∧ addressOf ctx txout = some a) ∧ (st.2 = true ↔ ∃ a, a ∈ st.1))
      (by simp) fun done txin rest st _ hst => ?_
    obtain ⟨hmem, hany⟩ := hst
    refine Yields.bind (inputIsMine_yields txin) fun mine hmine => ?_
    have hmore : ∀ a, (∃ txin' ∈ done ++ [txin], ∃ txout, w.spentOutput txin' = some txout ∧
        w.Mine ctx txout ∧ addressOf ctx txout = some a) ↔ a ∈ st.1 ∨ ∃ txout,
          w.spentOutput txin = some txout ∧ w.Mine ctx txout ∧ addressOf ctx txout = some a := by
      intro a
      rw [hmem]
      simp [or_and_right, exists_or]
    simp only [hmore]
    split_ifs with hno
    · -- The input adds nothing.
      refine ⟨fun a => (or_iff_left ?_).symm, hany⟩
      rintro ⟨txout, htxout, hown, -⟩
      exact hmine.mpr ⟨txout, htxout, hown⟩ hno
    · obtain ⟨txout, htxout, hown⟩ := hmine.mp hno
      rw [htxout]
      dsimp only
      cases haddress : addressOf ctx txout with
      | none =>
        refine Yields.pure ⟨fun a => (or_iff_left ?_).symm, hany⟩
        rintro ⟨txout', htxout', -, ha⟩
        cases htxout'
        exact nomatch haddress.symm.trans ha
      | some address =>
        refine Yields.pure ⟨fun a => ?_, iff_of_true rfl ⟨address, SortedSet.mem_insert.mpr (.inl rfl)⟩⟩
        rw [mem_insert, or_comm]
        apply or_congr_right
        constructor
        · rintro rfl
          exact ⟨txout, rfl, hown, haddress⟩
        · rintro ⟨txout', htxout', -, ha⟩
          cases htxout'
          exact (Option.mem_unique haddress ha).symm
  refine hloop.mono (fun _ => id) ?_
  rintro st ⟨hmem, hany⟩
  refine ⟨hmem, hany.trans ?_⟩
  simp only [hmem]
  rfl

/-- The change outputs of the wallet join the grouping. -/
theorem groupChanges_yields (tx : CTransaction) (grouping : SortedSet CTxDestination) :
    Yields (OutOfStack ctx w) (tx.vout.foldlM (w.groupChange ctx) grouping) fun grouping' =>
      ∀ a, a ∈ grouping' ↔ a ∈ grouping ∨ w.OwnChange ctx tx a := by
  have hloop : Yields (OutOfStack ctx w) (tx.vout.foldlM (w.groupChange ctx) grouping) fun grouping' =>
      ∀ a, a ∈ grouping' ↔ a ∈ grouping ∨ ∃ txout ∈ tx.vout, addressOf ctx txout = some a ∧
        w.Mine ctx txout ∧ w.mapAddressBook a = none := by
    refine foldlM (fun (done : List CTxOut) (grouping' : SortedSet CTxDestination) =>
      ∀ a, a ∈ grouping' ↔ a ∈ grouping ∨ ∃ txout ∈ done, addressOf ctx txout = some a ∧
        w.Mine ctx txout ∧ w.mapAddressBook a = none)
      (by simp) fun done txout rest grouping' _ hmem => ?_
    have hmore : ∀ a, (a ∈ grouping ∨ ∃ txout' ∈ done ++ [txout], addressOf ctx txout' = some a ∧
        w.Mine ctx txout' ∧ w.mapAddressBook a = none) ↔ a ∈ grouping' ∨
          addressOf ctx txout = some a ∧ w.Mine ctx txout ∧ w.mapAddressBook a = none := by
      intro a
      rw [hmem]
      simp [or_and_right, exists_or, or_assoc]
    refine Yields.bind (isChange_yields txout) fun fChange hchange => ?_
    suffices hnew : Yields (OutOfStack ctx w) _ fun grouping'' : SortedSet CTxDestination =>
        ∀ a, a ∈ grouping'' ↔ a ∈ grouping' ∨
          addressOf ctx txout = some a ∧ w.Mine ctx txout ∧ w.mapAddressBook a = none from
      hnew.mono (fun _ => id) fun grouping'' h a => (h a).trans (hmore a).symm
    cases haddress : addressOf ctx txout with
    | none =>
      have hnone : ∀ a, a ∈ grouping' ↔ a ∈ grouping' ∨
          none = some a ∧ w.Mine ctx txout ∧ w.mapAddressBook a = none := fun a =>
        (or_iff_left fun h => nomatch h.1).symm
      cases fChange with
      | true => exact Yields.pure hnone
      | false => exact Yields.pure hnone
    | some address =>
      have hfact := hchange address haddress
      split_ifs with hc
      · obtain ⟨hown, hbook⟩ := hfact.mp hc
        intro a
        rw [mem_insert]
        constructor
        · rintro (rfl | ha)
          · exact .inr ⟨rfl, hown, hbook⟩
          · exact .inl ha
        · rintro (ha | ⟨ha, -⟩)
          · exact .inr ha
          · exact .inl (Option.some.inj ha).symm
      · intro a
        refine (or_iff_left ?_).symm
        rintro ⟨ha, hown⟩
        cases ha
        exact hc (hfact.mpr hown)
  refine hloop.mono (fun _ => id) fun grouping' hmem a => (hmem a).trans (or_congr_right ?_)
  constructor
  · rintro ⟨txout, htxout, ha, hown, hbook⟩
    exact ⟨⟨txout, htxout, hown, ha⟩, hbook⟩
  · rintro ⟨⟨txout, htxout, hown, ha⟩, hbook⟩
    exact ⟨txout, htxout, ha, hown, hbook⟩

theorem groupTransaction_yields (tx : CTransaction) :
    Yields (OutOfStack ctx w) (w.groupTransaction ctx tx) fun grouping => ∀ a, a ∈ grouping ↔
      w.FirstIsMine ctx tx ∧ (∃ b, w.OwnInput ctx tx b) ∧
        (w.OwnInput ctx tx a ∨ w.OwnChange ctx tx a) := by
  unfold groupTransaction
  cases hvin : tx.vin with
  | nil =>
    intro a
    simp [FirstIsMine, hvin]
  | cons first vin =>
    have hfst : (∃ txout, w.spentOutput first = some txout ∧ w.Mine ctx txout)
        ↔ w.FirstIsMine ctx tx := by
      simp [FirstIsMine, hvin]
    refine Yields.bind (inputIsMine_yields first) fun mine hmine => ?_
    rw [hfst] at hmine
    split_ifs with hno
    · intro a
      simp [← hmine, hno]
    · rw [← hvin]
      refine Yields.bind (groupInputs_yields tx) ?_
      rintro ⟨grouping, any_mine⟩ ⟨hmem, hany⟩
      dsimp only at hmem hany ⊢
      split_ifs with hsome
      · refine (groupChanges_yields tx grouping).mono (fun _ => id) fun grouping' hmem' a => ?_
        rw [hmem', hmem]
        exact ⟨fun h => ⟨hmine.mp hno, hany.mp hsome, h⟩, fun h => h.2.2⟩
      · intro a
        rw [hmem]
        constructor
        · intro ha
          exact absurd (hany.mpr ⟨a, ha⟩) hsome
        · rintro ⟨-, hinput, -⟩
          exact absurd (hany.mpr hinput) hsome

theorem groupOutputs_yields (tx : CTransaction) (groupings : SortedSet (SortedSet CTxDestination)) :
    Yields (OutOfStack ctx w) (tx.vout.foldlM (w.groupOutput ctx) groupings) fun groupings' =>
      ∀ s, s ∈ groupings' ↔ s ∈ groupings ∨
        ∃ a, w.OwnOutput ctx tx a ∧ s = (∅ : SortedSet CTxDestination).insert a := by
  have hloop : Yields (OutOfStack ctx w) (tx.vout.foldlM (w.groupOutput ctx) groupings) fun groupings' =>
      ∀ s, s ∈ groupings' ↔ s ∈ groupings ∨ ∃ txout ∈ tx.vout, ∃ a, w.Mine ctx txout ∧
        addressOf ctx txout = some a ∧ s = (∅ : SortedSet CTxDestination).insert a := by
    refine foldlM
      (fun (done : List CTxOut) (groupings' : SortedSet (SortedSet CTxDestination)) =>
        ∀ s, s ∈ groupings' ↔ s ∈ groupings ∨ ∃ txout ∈ done, ∃ a, w.Mine ctx txout ∧
          addressOf ctx txout = some a ∧ s = (∅ : SortedSet CTxDestination).insert a)
      (by simp) fun done txout rest groupings' _ hmem => ?_
    have hmore : ∀ s, (s ∈ groupings ∨ ∃ txout' ∈ done ++ [txout], ∃ a, w.Mine ctx txout' ∧
        addressOf ctx txout' = some a ∧ s = (∅ : SortedSet CTxDestination).insert a) ↔
          s ∈ groupings' ∨ ∃ a, w.Mine ctx txout ∧ addressOf ctx txout = some a ∧
            s = (∅ : SortedSet CTxDestination).insert a := by
      intro s
      rw [hmem]
      simp [or_and_right, exists_or, or_assoc]
    refine Yields.bind (isMine_yields txout) fun mine hmine => ?_
    simp only [hmore]
    split_ifs with hno
    · refine fun s => (or_iff_left ?_).symm
      rintro ⟨a, hown, -⟩
      exact hmine.mpr hown hno
    · cases haddress : addressOf ctx txout with
      | none =>
        refine fun s => (or_iff_left ?_).symm
        rintro ⟨a, -, ha, -⟩
        cases ha
      | some address =>
        intro s
        rw [mem_insert, or_comm]
        apply or_congr_right
        constructor
        · rintro rfl
          exact ⟨address, hmine.mp hno, rfl, rfl⟩
        · rintro ⟨a, -, ha, hs⟩
          rw [hs, Option.some.inj ha]
  refine hloop.mono (fun _ => id) fun groupings' hmem s => (hmem s).trans (or_congr_right ?_)
  constructor
  · rintro ⟨txout, htxout, a, hown, ha, hs⟩
    exact ⟨a, ⟨txout, htxout, hown, ha⟩, hs⟩
  · rintro ⟨a, ⟨txout, htxout, hown, ha⟩, hs⟩
    exact ⟨txout, htxout, a, hown, ha, hs⟩

def GroupOf (ctx : WalletContext) (w : AddressWallet) (tx : CTransaction) (s : SortedSet CTxDestination) :
    Prop :=
  (w.FirstIsMine ctx tx ∧ (∃ b, w.OwnInput ctx tx b) ∧
    ∀ a, a ∈ s ↔ w.OwnInput ctx tx a ∨ w.OwnChange ctx tx a) ∨
  ∃ a, w.OwnOutput ctx tx a ∧ s = (∅ : SortedSet CTxDestination).insert a

theorem groupEntry_yields (wtx : OwnedTx) (groupings : SortedSet (SortedSet CTxDestination)) :
    Yields (OutOfStack ctx w) (w.groupEntry ctx groupings wtx) fun groupings' =>
      ∀ s, s ∈ groupings' ↔ s ∈ groupings ∨ GroupOf ctx w wtx.tx s := by
  refine Yields.bind (groupTransaction_yields wtx.tx) fun grouping hgrouping => ?_
  have hgroup : ∀ s, s ∈ (if grouping = ∅ then groupings else groupings.insert grouping) ↔
      s ∈ groupings ∨ w.FirstIsMine ctx wtx.tx ∧ (∃ b, w.OwnInput ctx wtx.tx b) ∧
        ∀ a, a ∈ s ↔ w.OwnInput ctx wtx.tx a ∨ w.OwnChange ctx wtx.tx a := by
    intro s
    split_ifs with hemp
    · refine (or_iff_left ?_).symm
      rintro ⟨hfst, ⟨b, hb⟩, -⟩
      have hmem := (hgrouping b).mpr ⟨hfst, ⟨b, hb⟩, .inl hb⟩
      rw [hemp] at hmem
      exact notMem_empty b hmem
    · rw [mem_insert, or_comm]
      apply or_congr_right
      obtain ⟨b, hb⟩ := (grouping.eq_empty_or_mem).resolve_left hemp
      obtain ⟨hfst, hinput, -⟩ := (hgrouping b).mp hb
      constructor
      · rintro rfl
        refine ⟨hfst, hinput, fun a => (hgrouping a).trans ?_⟩
        exact ⟨fun h => h.2.2, fun h => ⟨hfst, hinput, h⟩⟩
      · rintro ⟨-, -, hs⟩
        refine SortedSet.ext_mem fun a => (hs a).trans ?_
        rw [hgrouping]
        exact ⟨fun h => ⟨hfst, hinput, h⟩, fun h => h.2.2⟩
  refine (groupOutputs_yields wtx.tx _).mono (fun _ => id) fun groupings' hmem s => ?_
  rw [hmem, hgroup, or_assoc]
  rfl

theorem groupings_yield :
    Yields (OutOfStack ctx w) (w.mapWallet.entries.foldlM (fun groupings e => w.groupEntry ctx groupings e.2) ∅)
      fun groupings => ∀ s, s ∈ groupings ↔ ∃ tx ∈ w.txs, GroupOf ctx w tx s := by
  have hloop : Yields (OutOfStack ctx w)
      (w.mapWallet.entries.foldlM (fun groupings e => w.groupEntry ctx groupings e.2) ∅)
      fun groupings => ∀ s, s ∈ groupings ↔ ∃ e ∈ w.mapWallet.entries, GroupOf ctx w e.2.tx s := by
    refine foldlM (fun (done : List ((_ : UInt256) × OwnedTx))
      (groupings : SortedSet (SortedSet CTxDestination)) =>
        ∀ s, s ∈ groupings ↔ ∃ e ∈ done, GroupOf ctx w e.2.tx s)
      (by simp) fun done e rest groupings _ hmem => ?_
    refine (groupEntry_yields e.2 groupings).mono (fun _ => id) fun groupings' hmem' s => ?_
    rw [hmem', hmem]
    simp [or_and_right, exists_or]
  refine hloop.mono (fun _ => id) fun groupings hmem s => (hmem s).trans ?_
  constructor
  · rintro ⟨e, he, hs⟩
    exact ⟨e.2.tx, ⟨e, he, rfl⟩, hs⟩
  · rintro ⟨-, ⟨e, he, rfl⟩, hs⟩
    exact ⟨e, he, hs⟩

/-! ## The classes -/

theorem GroupOf.nonempty {s : SortedSet CTxDestination} (h : GroupOf ctx w tx s) : ∃ a, a ∈ s := by
  rcases h with ⟨-, ⟨b, hb⟩, hs⟩ | ⟨a, -, rfl⟩
  · exact ⟨b, (hs b).mpr (.inl hb)⟩
  · exact ⟨a, SortedSet.mem_insert.mpr (.inl rfl)⟩

theorem OwnInput.ownOutput {a : CTxDestination} (h : w.OwnInput ctx tx a) :
    ∃ tx' ∈ w.txs, w.OwnOutput ctx tx' a := by
  obtain ⟨txin, -, txout, hspent, hown, ha⟩ := h
  obtain ⟨vout, hvout, hget⟩ := Option.bind_eq_some_iff.mp hspent
  obtain ⟨wtx, hwtx, rfl⟩ := Option.map_eq_some_iff.mp hvout
  exact ⟨wtx.tx, ⟨_, AList.mem_lookup_iff.mp hwtx, rfl⟩, txout, List.mem_of_getElem? hget, hown, ha⟩

theorem exists_groupOf_iff {a : CTxDestination} :
    (∃ s : SortedSet CTxDestination, (∃ tx ∈ w.txs, GroupOf ctx w tx s) ∧ a ∈ s) ↔
      w.Occurs ctx a := by
  constructor
  · rintro ⟨s, ⟨tx, htx, ⟨-, -, hs⟩ | ⟨b, hb, rfl⟩⟩, ha⟩
    · rcases (hs a).mp ha with hinput | ⟨hout, -⟩
      · exact ⟨tx, htx, .inr hinput⟩
      · exact ⟨tx, htx, .inl hout⟩
    · rcases SortedSet.mem_insert.mp ha with rfl | hnone
      · exact ⟨tx, htx, .inl hb⟩
      · exact absurd hnone (notMem_empty a)
  · rintro ⟨tx, htx, hout | hinput⟩
    · exact ⟨_, ⟨tx, htx, .inr ⟨a, hout, rfl⟩⟩, SortedSet.mem_insert.mpr (.inl rfl)⟩
    · obtain ⟨tx', htx', hout⟩ := hinput.ownOutput
      exact ⟨_, ⟨tx', htx', .inr ⟨a, hout, rfl⟩⟩, SortedSet.mem_insert.mpr (.inl rfl)⟩

theorem exists_group : ∃ s : SortedSet CTxDestination,
    ∀ a, a ∈ s ↔ w.OwnInput ctx tx a ∨ w.OwnChange ctx tx a := by
  classical
  let all := tx.vin.filterMap (fun txin => (w.spentOutput txin).bind (addressOf ctx))
    ++ tx.vout.filterMap (addressOf ctx)
  refine ⟨(all.filter fun a => w.OwnInput ctx tx a ∨ w.OwnChange ctx tx a).foldl SortedSet.insert ∅,
    fun a => ?_⟩
  rw [SortedSet.mem_foldl_insert, or_iff_right (notMem_empty a), List.mem_filter,
    decide_eq_true_iff, and_iff_right_iff_imp, List.mem_append, List.mem_filterMap,
    List.mem_filterMap]
  rintro (⟨txin, htxin, txout, hspent, -, ha⟩ | ⟨⟨txout, htxout, -, ha⟩, -⟩)
  · exact .inl ⟨txin, htxin, Option.bind_eq_some_iff.mpr ⟨txout, hspent, ha⟩⟩
  · exact .inr ⟨txout, htxout, ha⟩

theorem linked_iff {F : Set (Set CTxDestination)}
    (hF : F = {t | ∃ s : SortedSet CTxDestination, (∃ tx ∈ w.txs, GroupOf ctx w tx s) ∧ s.toSet = t})
    {a b : CTxDestination} : Linked F a b ↔ w.Connected ctx (w.FirstIsMine ctx) a b := by
  subst hF
  constructor
  · intro h
    induction h with
    | refl => exact Relation.ReflTransGen.refl
    | @tail b c _ hlast ih =>
      obtain ⟨-, ⟨s, ⟨tx, htx, ⟨hfst, ⟨d, hd⟩, hs⟩ | ⟨e, -, rfl⟩⟩, rfl⟩, hb, hc⟩ := hlast
      · -- Both are connected to an input.
        have hto : w.Exposes ctx tx b d := by
          rcases (hs b).mp hb with hb | hb
          · exact .inl ⟨hb, .inl hd⟩
          · exact .inr ⟨hb, hd⟩
        have hfrom : w.Exposes ctx tx d c := .inl ⟨hd, (hs c).mp hc⟩
        exact (ih.tail ⟨tx, htx, hfst, hto⟩).tail ⟨tx, htx, hfst, hfrom⟩
      · have hbe : b = e := (SortedSet.mem_insert.mp hb).resolve_right (notMem_empty b)
        have hce : c = e := (SortedSet.mem_insert.mp hc).resolve_right (notMem_empty c)
        rwa [hce, ← hbe]
  · intro h
    induction h with
    | refl => exact Relation.ReflTransGen.refl
    | @tail b c _ hlast ih =>
      obtain ⟨tx, htx, hfst, hexposes⟩ := hlast
      -- The group of the transaction is not empty, and has both.
      obtain ⟨s, hs⟩ := @exists_group ctx w tx
      have hinput : ∃ d, w.OwnInput ctx tx d := by
        rcases hexposes with ⟨hb, -⟩ | ⟨-, hc⟩
        · exact ⟨b, hb⟩
        · exact ⟨c, hc⟩
      have hb : b ∈ s := (hs b).mpr (hexposes.imp And.left And.left)
      have hc : c ∈ s := by
        rw [hs]
        rcases hexposes with ⟨-, hc⟩ | ⟨-, hc⟩
        · exact hc
        · exact .inl hc
      exact ih.tail ⟨s.toSet, ⟨s, ⟨tx, htx, .inl ⟨hfst, hinput, hs⟩⟩, rfl⟩, hb, hc⟩

theorem getAddressGroupings_yields (ctx : WalletContext) (w : AddressWallet) :
    Yields (OutOfStack ctx w) (w.GetAddressGroupings ctx) (w.Groups ctx (w.FirstIsMine ctx)) := by
  refine Yields.bind groupings_yield fun groupings hgroupings => ?_
  have hne : ∀ g ∈ groupings, ∃ a, a ∈ g := by
    intro g hg
    obtain ⟨tx, -, hgroup⟩ := (hgroupings g).mp hg
    exact hgroup.nonempty
  refine (MergedSets.merge_spec groupings hne).mono (fun _ => False.elim) fun ret hret => ?_
  have hF : {t | ∃ g ∈ groupings, g.toSet = t}
      = {t | ∃ s : SortedSet CTxDestination, (∃ tx ∈ w.txs, GroupOf ctx w tx s) ∧ s.toSet = t} := by
    ext t
    simp only [Set.mem_ofPred_eq, hgroupings]
  rw [hF] at hret
  have hunion : ∀ a, (∃ s ∈ ret, a ∈ s) ↔ w.Occurs ctx a := by
    intro a
    rw [← exists_groupOf_iff]
    have hcover := Set.ext_iff.mp hret.covers a
    simp only [Set.mem_sUnion, Set.mem_ofPred_eq] at hcover
    constructor
    · rintro ⟨s, hs, ha⟩
      obtain ⟨-, ⟨s', hs', rfl⟩, ha'⟩ := hcover.mp ⟨_, ⟨s, hs, rfl⟩, ha⟩
      exact ⟨s', hs', ha'⟩
    · rintro ⟨s, hs, ha⟩
      obtain ⟨-, ⟨s', hs', rfl⟩, ha'⟩ := hcover.mpr ⟨_, ⟨s, hs, rfl⟩, ha⟩
      exact ⟨s', hs', ha'⟩
  refine ⟨fun s hs => hret.nonempty _ ⟨s, hs, rfl⟩, fun s hs t ht a has hat => ?_, hunion,
    fun a ha b => ?_⟩
  · have hsets := hret.eq_of_mem ⟨s, hs, rfl⟩ ⟨t, ht, rfl⟩ has hat
    exact SortedSet.ext_mem fun c => Set.ext_iff.mp hsets c
  · obtain ⟨s, hs, has⟩ := (hunion a).mpr ha
    rw [← linked_iff rfl, ← hret.linked _ ⟨s, hs, rfl⟩ a has b]
    constructor
    · rintro ⟨t, ht, hat, hbt⟩
      rwa [hret.eq_of_mem ⟨s, hs, rfl⟩ ⟨t, ht, rfl⟩ has hat]
    · exact fun hb => ⟨s, hs, has, hb⟩

end AddressWallet

/-! ## A transaction whose first input is not of the wallet -/

def payToKey (n : UInt8) : CScript :=
  [OP_DUP, OP_HASH160, 20] ++ List.replicate 20 n ++ [OP_EQUALVERIFY, OP_CHECKSIG]

def keyAddress (n : UInt8) : CTxDestination := .keyID (uint160 (List.replicate 20 n))

def receivedTx : CTransaction :=
  plainTx 11 [inputOf 5 0] [⟨20 * COIN, payToKey 1⟩, ⟨30 * COIN, payToKey 2⟩]

def jointTx : CTransaction := plainTx 12 [inputOf 6 0, inputOf 11 0, inputOf 11 1] [payTo (60 * COIN)]

def jointWallet : AddressWallet :=
  { copiedWallet with
    setWatchOnly := fun script => decide (script = payToKey 1 ∨ script = payToKey 2)
    mapWallet := (AList.singleton 11 { OwnedTx.Init copiedEnv with tx := receivedTx }).insert 12
      { OwnedTx.Init copiedEnv with tx := jointTx }
    mapAddressBook := fun _ => none }

theorem jointTx_ownInput {n : UInt8} (hn : n = 1 ∨ n = 2) :
    jointWallet.OwnInput copiedContext jointTx (keyAddress n) := by
  rcases hn with rfl | rfl
  · exact ⟨inputOf 11 0, by decide, ⟨20 * COIN, payToKey 1⟩, rfl,
      ⟨.ISMINE_WATCH_ONLY, rfl, by decide⟩, rfl⟩
  · exact ⟨inputOf 11 1, by decide, ⟨30 * COIN, payToKey 2⟩, rfl,
      ⟨.ISMINE_WATCH_ONLY, rfl, by decide⟩, rfl⟩

/-- A wallet with a script under its hash, and an output that pays to the hash. -/
def scriptWallet : AddressWallet :=
  { jointWallet with
    mapScripts := fun hash => if hash = uint160 (copiedContext.lib.Hash160 (payToKey 1)) then
      some (payToKey 1) else none
    mapWallet := AList.singleton 13 { OwnedTx.Init copiedEnv with
      tx := plainTx 13 [inputOf 5 0] [⟨COIN, [OP_HASH160, 20] ++ List.replicate 20 0 ++ [OP_EQUAL]⟩] } }

end ZalemCoin.Wallet
