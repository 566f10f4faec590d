import ZalemCoin.Chain.MissingInputs
import ZalemCoin.Lib.SortedMap

/-!
# Orphan transactions

A transaction that is refused because of a missing input is kept until its previous transactions have
come. A transaction that is accepted starts a queue: the orphans that spend from it are tried again,
and those that are accepted then are queued in turn. The orphans are found by their hash and by the
hashes of their previous transactions; the second map has what the first one says.
-/

namespace ZalemCoin.Chain

open Lib

def MAX_ORPHAN_TRANSACTIONS : ℕ := 20512000 / 100

/-- The order of hashes: as numbers. -/
local instance : LinearOrder UInt256 where
  le_refl a := Nat.le_refl a.toNat
  le_trans a b c hab hbc := show a.toNat ≤ c.toNat from Nat.le_trans hab hbc
  lt_iff_le_not_ge a b := show a.toNat < b.toNat ↔ a.toNat ≤ b.toNat ∧ ¬b.toNat ≤ a.toNat by omega
  le_antisymm a b hab hba := BitVec.eq_of_toNat_eq (Nat.le_antisymm hab hba)
  le_total a b := Nat.le_total a.toNat b.toNat
  toDecidableLE a b := inferInstanceAs (Decidable (a.toNat ≤ b.toNat))
  toDecidableEq := instDecidableEqBitVec

/-- The sets of hashes that the orphans are found by. -/
abbrev ByPrev := UInt256 → SortedMap UInt256 Unit

def changeSets (f : SortedMap UInt256 Unit → SortedMap UInt256 Unit) (vin : List CTxIn)
    (byPrev : ByPrev) : ByPrev :=
  vin.foldl (fun byPrev txin => Function.update byPrev txin.prevout.hash
    (f (byPrev txin.prevout.hash))) byPrev

theorem find_changeSets {f : SortedMap UInt256 Unit → SortedMap UInt256 Unit} {hash : UInt256}
    {v : Option Unit} (hf : ∀ m h, (f m).find h = if h = hash then v else m.find h)
    (vin : List CTxIn) (byPrev : ByPrev) (prev h : UInt256) :
    (changeSets f vin byPrev prev).find h
      = if h = hash ∧ ∃ txin ∈ vin, txin.prevout.hash = prev then v else (byPrev prev).find h := by
  induction vin generalizing byPrev with
  | nil => simp [changeSets]
  | cons txin vin ih =>
    change (changeSets f vin (Function.update byPrev txin.prevout.hash
      (f (byPrev txin.prevout.hash))) prev).find h = _
    rw [ih]
    by_cases hh : h = hash
    · by_cases hvin : ∃ txin ∈ vin, txin.prevout.hash = prev
      · rw [if_pos ⟨hh, hvin⟩, if_pos ⟨hh, hvin.imp fun _ => And.imp_left (List.mem_cons_of_mem _)⟩]
      · rw [if_neg fun h => hvin h.2]
        by_cases hprev : txin.prevout.hash = prev
        · subst hprev
          rw [Function.update_self, hf, if_pos hh, if_pos ⟨hh, txin, List.mem_cons_self, rfl⟩]
        · rw [Function.update_of_ne (Ne.symm hprev), if_neg]
          rintro ⟨-, txin', htxin', heq⟩
          rcases List.mem_cons.mp htxin' with rfl | hmem
          · exact hprev heq
          · exact hvin ⟨txin', hmem, heq⟩
    · rw [if_neg fun h => hh h.1, if_neg fun h => hh h.1]
      by_cases hprev : prev = txin.prevout.hash
      · subst hprev
        rw [Function.update_self, hf, if_neg hh]
      · rw [Function.update_of_ne hprev]

structure OrphanTxs (ctx : Context) where
  mapOrphanTransactions : SortedMap UInt256 CTransaction
  mapOrphanTransactionsByPrev : ByPrev
  keyed : ∀ hash tx, mapOrphanTransactions.find hash = some tx → ctx.hashTx tx = hash
  byPrev : ∀ prev hash, (mapOrphanTransactionsByPrev prev).find hash = some () ↔
    ∃ tx, mapOrphanTransactions.find hash = some tx ∧ ∃ txin ∈ tx.vin, txin.prevout.hash = prev

namespace OrphanTxs

variable {ctx : Context}

def find (orphans : OrphanTxs ctx) (hash : UInt256) : Option CTransaction :=
  orphans.mapOrphanTransactions.find hash

def size (orphans : OrphanTxs ctx) : ℕ := orphans.mapOrphanTransactions.size

def waiting (orphans : OrphanTxs ctx) (prev : UInt256) : List UInt256 :=
  (orphans.mapOrphanTransactionsByPrev prev).keys

def empty : OrphanTxs ctx where
  mapOrphanTransactions := SortedMap.empty
  mapOrphanTransactionsByPrev _ := SortedMap.empty
  keyed _ _ h := by simp at h
  byPrev _ _ := by simp

/-- Keeps a transaction as an orphan, unless it is kept already or too large. -/
def AddOrphanTx (orphans : OrphanTxs ctx) (tx : CTransaction) : OrphanTxs ctx :=
  if hkept : (orphans.find (ctx.hashTx tx)).isSome then orphans
  else if 5000 < tx.GetSerializeSize then orphans
  else
    { mapOrphanTransactions := orphans.mapOrphanTransactions.insert (ctx.hashTx tx) tx
      mapOrphanTransactionsByPrev := changeSets (fun m => m.insert (ctx.hashTx tx) ()) tx.vin
        orphans.mapOrphanTransactionsByPrev
      keyed := by
        intro hash tx' h
        rw [SortedMap.find_insert] at h
        split at h
        · rename_i heq
          rw [heq, ← Option.some.inj h]
        · exact orphans.keyed hash tx' h
      byPrev := by
        intro prev hash
        have hnone := Option.not_isSome_iff_eq_none.mp hkept
        rw [find_changeSets (fun m h => SortedMap.find_insert m _ h ()), SortedMap.find_insert]
        by_cases heq : hash = ctx.hashTx tx
        · by_cases hprev : ∃ txin ∈ tx.vin, txin.prevout.hash = prev
          · simp [heq, hprev]
          · have hold := orphans.byPrev prev hash
            rw [heq] at hold
            simp [heq, hprev, hold, show orphans.mapOrphanTransactions.find _ = none from hnone]
        · simp [heq, orphans.byPrev prev hash] }

def EraseOrphanTx (orphans : OrphanTxs ctx) (hash : UInt256) : OrphanTxs ctx :=
  match hfind : orphans.mapOrphanTransactions.find hash with
  | none => orphans
  | some tx =>
    { mapOrphanTransactions := orphans.mapOrphanTransactions.erase hash
      mapOrphanTransactionsByPrev := changeSets (fun m => m.erase hash) tx.vin
        orphans.mapOrphanTransactionsByPrev
      keyed := by
        intro hash' tx' h
        rw [SortedMap.find_erase] at h
        split at h
        · simp at h
        · exact orphans.keyed hash' tx' h
      byPrev := by
        intro prev hash'
        rw [find_changeSets (fun m h => SortedMap.find_erase m hash h), SortedMap.find_erase]
        by_cases heq : hash' = hash
        · by_cases hprev : ∃ txin ∈ tx.vin, txin.prevout.hash = prev
          · simp [heq, hprev]
          · have hold := orphans.byPrev prev hash
            simp [heq, hprev, hold, hfind]
        · simp [heq, orphans.byPrev prev hash'] }

/-- Evicts random orphans until no more than the maximum are left: each time the first one whose hash is
not less than the random one, or else the first one of all. Every step drops one, so there are not more
steps than orphans. -/
def limitLoop (nMaxOrphans : ℕ) (randHash : ℕ → UInt256) : ℕ → OrphanTxs ctx → OrphanTxs ctx
  | 0, orphans => orphans
  | fuel + 1, orphans =>
    if nMaxOrphans < orphans.size then
      match (orphans.mapOrphanTransactions.lowerBound (randHash fuel)).or
          orphans.mapOrphanTransactions.first with
      | some it => limitLoop nMaxOrphans randHash fuel (orphans.EraseOrphanTx it.1)
      | none => orphans
    else orphans

/-- Evicts random orphans until no more than the maximum are left. -/
def LimitOrphanTxSize (nMaxOrphans : ℕ) (randHash : ℕ → UInt256) (orphans : OrphanTxs ctx) :
    OrphanTxs ctx :=
  limitLoop nMaxOrphans randHash orphans.size orphans

variable {orphans : OrphanTxs ctx}

variable {hash : UInt256} {tx : CTransaction} {nMaxOrphans : ℕ} {randHash : ℕ → UInt256}

theorem mem_waiting {prev : UInt256} : hash ∈ orphans.waiting prev ↔
    ∃ tx, orphans.find hash = some tx ∧ ∃ txin ∈ tx.vin, txin.prevout.hash = prev := by
  unfold waiting
  rw [SortedMap.mem_keys]
  constructor
  · rintro ⟨⟨⟩, h⟩
    exact (orphans.byPrev prev hash).mp h
  · exact fun h => ⟨(), (orphans.byPrev prev hash).mpr h⟩

@[simp]
theorem find_empty (hash : UInt256) : (empty : OrphanTxs ctx).find hash = none := rfl

theorem find_of_addOrphanTx {tx' : CTransaction} (h : (orphans.AddOrphanTx tx).find hash = some tx') :
    tx' = tx ∨ orphans.find hash = some tx' := by
  unfold AddOrphanTx at h
  split_ifs at h
  · exact .inr h
  · exact .inr h
  · unfold find at h
    rw [SortedMap.find_insert] at h
    split at h
    · exact .inl (Option.some.inj h).symm
    · exact .inr h

theorem find_eraseOrphanTx (orphans : OrphanTxs ctx) (hash hash' : UInt256) :
    (orphans.EraseOrphanTx hash).find hash' = if hash' = hash then none else orphans.find hash' := by
  unfold EraseOrphanTx
  split
  · rename_i hnone
    split
    · rename_i heq
      rw [heq]
      exact hnone
    · rfl
  · exact SortedMap.find_erase orphans.mapOrphanTransactions hash hash'

theorem find_foldl_eraseOrphanTx (l : List UInt256) (orphans : OrphanTxs ctx) (hash : UInt256) :
    (l.foldl EraseOrphanTx orphans).find hash = if hash ∈ l then none else orphans.find hash := by
  induction l generalizing orphans with
  | nil => simp
  | cons a l ih =>
    rw [List.foldl_cons, ih, find_eraseOrphanTx]
    by_cases ha : hash = a
    · simp [ha]
    · simp [ha]

theorem find_of_limitLoop (fuel : ℕ)
    (h : (limitLoop nMaxOrphans randHash fuel orphans).find hash = some tx) :
    orphans.find hash = some tx := by
  induction fuel generalizing orphans with
  | zero => exact h
  | succ fuel ih =>
    unfold limitLoop at h
    split_ifs at h
    · split at h
      · have hleft := ih h
        rw [find_eraseOrphanTx] at hleft
        split at hleft
        · simp at hleft
        · exact hleft
      · exact h
    · exact h

theorem size_limitLoop (fuel : ℕ) (h : orphans.size ≤ fuel) :
    (limitLoop nMaxOrphans randHash fuel orphans).size ≤ nMaxOrphans := by
  induction fuel generalizing orphans with
  | zero => exact h.trans (Nat.zero_le _)
  | succ fuel ih =>
    unfold limitLoop
    split_ifs with hmany
    · split
      · rename_i it hit
        apply ih
        -- Either way an orphan is found, and one fewer is left without it.
        have hfind : orphans.mapOrphanTransactions.find it.1 = some it.2 := by
          rcases Option.or_eq_some_iff.mp hit with hlower | ⟨-, hfst⟩
          · exact SortedMap.find_of_lowerBound hlower
          · exact (SortedMap.first_eq_some hfst).1
        have hless := SortedMap.size_erase_lt hfind
        have hsize : (orphans.EraseOrphanTx it.1).mapOrphanTransactions
            = orphans.mapOrphanTransactions.erase it.1 := by
          unfold EraseOrphanTx
          split
          · rename_i hnone
            rw [hfind] at hnone
            simp at hnone
          · rfl
        unfold size at h ⊢
        rw [hsize]
        omega
      · rename_i hnone
        have hfst := (Option.or_eq_none_iff.mp hnone).2
        unfold size SortedMap.size at hmany
        rw [List.head?_eq_none_iff.mp hfst] at hmany
        simp at hmany
    · omega

theorem limitOrphanTxSize_spec (nMaxOrphans : ℕ) (randHash : ℕ → UInt256) (orphans : OrphanTxs ctx) :
    (LimitOrphanTxSize nMaxOrphans randHash orphans).size ≤ nMaxOrphans ∧
      ∀ hash tx, (LimitOrphanTxSize nMaxOrphans randHash orphans).find hash = some tx →
        orphans.find hash = some tx :=
  ⟨size_limitLoop _ le_rfl, fun _ _ h => find_of_limitLoop _ h⟩

end OrphanTxs

end ZalemCoin.Chain
