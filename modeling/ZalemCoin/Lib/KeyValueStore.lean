import Mathlib.Data.List.AList
import Mathlib.Data.List.Induction

/-!
# A key-value store with a write batch

A store holds its committed content and, while a transaction is open, the list of the writes and
deletes that the transaction has made so far. A read that finds its key in the batch answers from
the batch, and otherwise reads the committed content. The `view` of a store is the content that
its reads see; every lemma below says what an operation does to the view and to the disk, so that
a proof about a program over the store never looks into a batch.
-/

namespace ZalemCoin.Lib

/-- One operation of a batch: a write, or a delete when the value is absent. -/
structure BatchOp {κ : Type*} (Val : κ → Type*) where
  /-- The key that the operation is about. -/
  key : κ
  /-- The value that it writes, and none when it deletes. -/
  val : Option (Val key)

/-- The content of a store: a partial map from keys to the values of their own type. -/
abbrev Content {κ : Type*} (Val : κ → Type*) := (k : κ) → Option (Val k)

/-- A store: its committed content, and the batch of the open transaction if there is one. -/
structure Store {κ : Type*} (Val : κ → Type*) where
  disk : Content Val
  /-- The operations of the open transaction, oldest first. -/
  activeBatch : Option (List (BatchOp Val))

variable {κ : Type*} {Val : κ → Type*} [DecidableEq κ]

def BatchOp.apply (m : Content Val) (op : BatchOp Val) : Content Val :=
  Function.update m op.key op.val

/-- What a batch says about a key: the value of the last operation on it, if there is one. -/
def scanBatch (ops : List (BatchOp Val)) (k : κ) : Option (Option (Val k)) :=
  ops.foldl (fun found op => if h : op.key = k then some (h ▸ op.val) else found) none

namespace Store

/-- Reads a key: from the batch when the batch mentions it, and from the disk otherwise. -/
def read (s : Store Val) (k : κ) : Option (Val k) :=
  match s.activeBatch with
  | none => s.disk k
  | some ops =>
    match scanBatch ops k with
    | some found => found
    | none => s.disk k

/-- Performs an operation: in the batch of the open transaction, or at once on the disk. -/
def perform (s : Store Val) (op : BatchOp Val) : Store Val :=
  match s.activeBatch with
  | some ops => { s with activeBatch := some (ops ++ [op]) }
  | none => { s with disk := op.apply s.disk }

def write (s : Store Val) (k : κ) (v : Val k) : Store Val :=
  s.perform ⟨k, some v⟩

/-- Deletes a key. -/
def erase (s : Store Val) (k : κ) : Store Val :=
  s.perform ⟨k, none⟩

/-- Opens a transaction; a store that has one open already refuses. -/
def txnBegin (s : Store Val) : Option (Store Val) :=
  match s.activeBatch with
  | none => some { s with activeBatch := some [] }
  | some _ => none

/-- Commits the open transaction; a store that has none open refuses. -/
def txnCommit (s : Store Val) : Option (Store Val) :=
  match s.activeBatch with
  | some ops => some ⟨ops.foldl BatchOp.apply s.disk, none⟩
  | none => none

/-- Drops the open transaction, if there is one. -/
def txnAbort (s : Store Val) : Store Val :=
  { s with activeBatch := none }

def view (s : Store Val) : Content Val :=
  match s.activeBatch with
  | none => s.disk
  | some ops => ops.foldl BatchOp.apply s.disk

end Store

theorem foldl_apply_eq (ops : List (BatchOp Val)) (m : Content Val) (k : κ) :
    ops.foldl BatchOp.apply m k = (scanBatch ops k).getD (m k) := by
  induction ops using List.reverseRecOn with
  | nil => rfl
  | append_singleton ops op ih =>
    rw [List.foldl_append, scanBatch, List.foldl_append]
    simp only [List.foldl_cons, List.foldl_nil]
    change BatchOp.apply _ op k = Option.getD (if h : op.key = k then _ else scanBatch ops k) _
    by_cases h : op.key = k
    · subst h
      simp [BatchOp.apply]
    · rw [dif_neg h, ← ih]
      exact Function.update_of_ne (Ne.symm h) _ _

namespace Store

variable (s : Store Val)

theorem read_eq_view (k : κ) : s.read k = s.view k := by
  rcases s with ⟨disk, _ | ops⟩
  · rfl
  · simp only [read, view, foldl_apply_eq]
    cases scanBatch ops k <;> rfl

theorem view_perform (op : BatchOp Val) :
    (s.perform op).view = Function.update s.view op.key op.val := by
  rcases s with ⟨disk, _ | ops⟩
  · rfl
  · simp only [perform, view, List.foldl_append, List.foldl_cons, List.foldl_nil]
    rfl

@[simp]
theorem view_write (k : κ) (v : Val k) :
    (s.write k v).view = Function.update s.view k (some v) := view_perform s _

@[simp]
theorem view_erase (k : κ) : (s.erase k).view = Function.update s.view k none := view_perform s _

theorem perform_of_open {s : Store Val} (h : s.activeBatch.isSome) (op : BatchOp Val) :
    (s.perform op).disk = s.disk ∧ (s.perform op).activeBatch.isSome := by
  rcases s with ⟨disk, _ | ops⟩
  · simp at h
  · exact ⟨rfl, rfl⟩

theorem perform_of_closed {s : Store Val} (h : s.activeBatch = none) (op : BatchOp Val) :
    s.perform op = ⟨Function.update s.disk op.key op.val, none⟩ := by
  rcases s with ⟨disk, _ | ops⟩
  · rfl
  · simp at h

theorem view_of_closed {s : Store Val} (h : s.activeBatch = none) : s.view = s.disk := by
  simp only [view, h]

omit [DecidableEq κ] in
theorem txnBegin_eq_some {s s' : Store Val} :
    s.txnBegin = some s' ↔ s.activeBatch = none ∧ s' = ⟨s.disk, some []⟩ := by
  rcases s with ⟨disk, _ | ops⟩ <;> simp [txnBegin, eq_comm]

theorem txnCommit_eq_some {s s' : Store Val} :
    s.txnCommit = some s' ↔ s.activeBatch.isSome ∧ s' = ⟨s.view, none⟩ := by
  rcases s with ⟨disk, _ | ops⟩ <;> simp [txnCommit, view, eq_comm]

@[simp]
theorem view_txnAbort : s.txnAbort.view = s.disk := rfl

end Store

/-- The value that an association list laid over a map gives a key. -/
def overlay {ι ν : Type*} [DecidableEq ι] (queue : AList fun _ : ι => ν) (base : ι → Option ν)
    (k : ι) : Option ν :=
  (queue.lookup k).or (base k)

@[simp]
theorem overlay_empty {ι ν : Type*} [DecidableEq ι] (base : ι → Option ν) :
    overlay (∅ : AList fun _ : ι => ν) base = base := by
  funext k
  simp [overlay]

theorem overlay_insert {ι ν : Type*} [DecidableEq ι] (queue : AList fun _ : ι => ν)
    (base : ι → Option ν) (k : ι) (v : ν) :
    overlay (queue.insert k v) base = Function.update (overlay queue base) k (some v) := by
  funext k'
  by_cases h : k' = k
  · subst h
    simp [overlay]
  · simp [overlay, Function.update_of_ne h, AList.lookup_insert_ne h]

end ZalemCoin.Lib
