import ZalemCoin.Lib.Action
import ZalemCoin.Lib.KeyValueStore

/-!
# The database and its open batch

`CTxDB` collects the writes and erasures of a transaction in a batch, and answers `Read` and `Exists`
from the batch before it asks the disk. The batch has no index: a scanner replays it and remembers the
last operation on the key. `Read` sees an erasure that the scanner has found; `Exists` takes it for no
finding, and asks the disk.
-/

namespace ZalemCoin.Storage

open Lib

/-- A key or a value as it is serialised. -/
abbrev Bytes := List UInt8

abbrev LevelDB := Bytes → Option Bytes

/-- An operation of a LevelDB `WriteBatch`. -/
inductive WriteOp where
  | Put (key value : Bytes)
  | Delete (key : Bytes)
deriving DecidableEq

def WriteOp.apply (content : LevelDB) : WriteOp → LevelDB
  | Put key value => Function.update content key (some value)
  | Delete key => Function.update content key none

/-- The handler that searches a batch for a key. -/
structure CBatchScanner where
  needle : Bytes
  deleted : Bool
  foundValue : Bytes
  foundEntry : Bool
deriving DecidableEq

namespace CBatchScanner

/-- The handler meets a write. -/
def Put (scanner : CBatchScanner) (key value : Bytes) : CBatchScanner :=
  if key = scanner.needle then
    { scanner with foundEntry := true, deleted := false, foundValue := value }
  else scanner

/-- The handler meets an erasure. -/
def Delete (scanner : CBatchScanner) (key : Bytes) : CBatchScanner :=
  if key = scanner.needle then { scanner with foundEntry := true, deleted := true } else scanner

def meet (scanner : CBatchScanner) : WriteOp → CBatchScanner
  | .Put key value => scanner.Put key value
  | .Delete key => scanner.Delete key

end CBatchScanner

/-- Searches a batch for a key: the handler after it has met all operations in their order. -/
def ScanBatch (batch : List WriteOp) (key : Bytes) : CBatchScanner :=
  batch.foldl CBatchScanner.meet ⟨key, false, [], false⟩

/-- The database object: the database itself, the batch of the open transaction, and whether it was
opened for reading only. -/
structure CTxDB where
  pdb : LevelDB
  activeBatch : Option (List WriteOp)
  fReadOnly : Bool

namespace CTxDB

/-- Opens a batch. -/
def TxnBegin (db : CTxDB) : Except String CTxDB := do
  ensure (db.activeBatch = none) "!activeBatch"
  pure { db with activeBatch := some [] }

/-- Writes the batch to the disk: all its operations in their order. -/
def TxnCommit (db : CTxDB) : Except String CTxDB :=
  match db.activeBatch with
  | some batch => .ok { db with pdb := batch.foldl WriteOp.apply db.pdb, activeBatch := none }
  | none => .error "activeBatch"

/-- Drops the batch. -/
def TxnAbort (db : CTxDB) : CTxDB := { db with activeBatch := none }

def ReadBytes (db : CTxDB) (key : Bytes) : Option Bytes :=
  match db.activeBatch with
  | some batch =>
    let scanner := ScanBatch batch key
    if scanner.deleted then none
    else if scanner.foundEntry then some scanner.foundValue
    else db.pdb key
  | none => db.pdb key

def Read {T : Type} (unserialize : Bytes → Option T) (db : CTxDB) (key : Bytes) : Option T :=
  (db.ReadBytes key).bind unserialize

/-- Performs an operation: in the batch when one is open, and otherwise on the disk. -/
def perform (db : CTxDB) (op : WriteOp) : CTxDB :=
  match db.activeBatch with
  | some batch => { db with activeBatch := some (batch ++ [op]) }
  | none => { db with pdb := op.apply db.pdb }

def Write (db : CTxDB) (key value : Bytes) : Except String CTxDB := do
  ensure (db.fReadOnly = false) "Write called on database in read-only mode"
  pure (db.perform (.Put key value))

def Erase (db : CTxDB) (key : Bytes) : Except String CTxDB := do
  ensure (db.fReadOnly = false) "Erase called on database in read-only mode"
  pure (db.perform (.Delete key))

def Exists (db : CTxDB) (key : Bytes) : Bool :=
  match db.activeBatch with
  | some batch =>
    let scanner := ScanBatch batch key
    if scanner.foundEntry && !scanner.deleted then true else (db.pdb key).isSome
  | none => (db.pdb key).isSome

end CTxDB

/-- A call of one of the four functions. -/
inductive Call where
  | Read (key : Bytes)
  | Write (key value : Bytes)
  | Erase (key : Bytes)
  | Exists (key : Bytes)
deriving DecidableEq

/-- What a call returns. -/
inductive Answer where
  | value (found : Option Bytes)
  | result (r : Bool)
deriving DecidableEq

def CTxDB.call (db : CTxDB) : Call → Except String (Answer × CTxDB)
  | .Read key => .ok (.value (db.ReadBytes key), db)
  | .Write key value => do
    let db ← db.Write key value
    pure (.result true, db)
  | .Erase key => do
    let db ← db.Erase key
    pure (.result true, db)
  | .Exists key => .ok (.result (db.Exists key), db)

def CTxDB.run (db : CTxDB) : List Call → Except String (List Answer × CTxDB)
  | [] => .ok ([], db)
  | call :: calls => do
    let made ← db.call call
    let rest ← made.2.run calls
    pure (made.1 :: rest.1, rest.2)

def applyCall (content : LevelDB) : Call → Answer × LevelDB
  | .Read key => (.value (content key), content)
  | .Write key value => (.result true, Function.update content key (some value))
  | .Erase key => (.result true, Function.update content key none)
  | .Exists key => (.result (content key).isSome, content)

def applyCalls (content : LevelDB) : List Call → List Answer × LevelDB
  | [] => ([], content)
  | call :: calls =>
    let made := applyCall content call
    let rest := applyCalls made.2 calls
    (made.1 :: rest.1, rest.2)

/-- Calls on a database answer as if they acted on it directly, whether a batch is open or not; with
one, committing leaves what they would have left, and aborting leaves the database as it was. -/
structure Overlays (db : CTxDB) (calls : List Call) : Prop where
  batched : ∃ opened final, db.TxnBegin = .ok opened ∧
    opened.run calls = .ok ((applyCalls db.pdb calls).1, final) ∧
    final.TxnCommit = .ok { db with pdb := (applyCalls db.pdb calls).2 } ∧ final.TxnAbort = db
  direct : db.run calls = .ok ((applyCalls db.pdb calls).1,
    { db with pdb := (applyCalls db.pdb calls).2 })

def LastErased (calls : List Call) (key : Bytes) : Prop :=
  ∃ before after, calls = before ++ .Erase key :: after ∧ ∀ value, .Write key value ∉ after

section

variable {db : CTxDB} {calls : List Call}

/-! ## What the scanner finds -/

/-- The scan of a batch says of a key what applying the batch does to it. -/
theorem scanBatch_spec (batch : List WriteOp) (key : Bytes) :
    (ScanBatch batch key).needle = key ∧
      ((ScanBatch batch key).deleted = true → (ScanBatch batch key).foundEntry = true) ∧
      ∀ content : LevelDB, batch.foldl WriteOp.apply content key
        = if (ScanBatch batch key).deleted then none
          else if (ScanBatch batch key).foundEntry then some (ScanBatch batch key).foundValue
          else content key := by
  induction batch using List.reverseRecOn with
  | nil => exact ⟨rfl, by simp [ScanBatch], fun _ => rfl⟩
  | append_singleton batch op ih =>
    obtain ⟨hneedle, hfound, hcontent⟩ := ih
    have hscanner : ScanBatch (batch ++ [op]) key = (ScanBatch batch key).meet op := by
      unfold ScanBatch
      rw [List.foldl_append]
      rfl
    have hfold : ∀ content : LevelDB, (batch ++ [op]).foldl WriteOp.apply content
        = op.apply (batch.foldl WriteOp.apply content) := by
      intro content
      rw [List.foldl_append]
      rfl
    rw [hscanner]
    simp only [hfold]
    cases op with
    | Put k value =>
      unfold CBatchScanner.meet CBatchScanner.Put WriteOp.apply
      by_cases hk : k = key
      · subst hk
        simp [hneedle]
      · have hne : k ≠ (ScanBatch batch key).needle := by
          rw [hneedle]
          exact hk
        simp only [if_neg hne]
        refine ⟨hneedle, hfound, fun content => ?_⟩
        rw [Function.update_of_ne (Ne.symm hk)]
        exact hcontent content
    | Delete k =>
      unfold CBatchScanner.meet CBatchScanner.Delete WriteOp.apply
      by_cases hk : k = key
      · subst hk
        simp [hneedle]
      · have hne : k ≠ (ScanBatch batch key).needle := by
          rw [hneedle]
          exact hk
        simp only [if_neg hne]
        refine ⟨hneedle, hfound, fun content => ?_⟩
        rw [Function.update_of_ne (Ne.symm hk)]
        exact hcontent content

/-- The operation that a call puts into the batch, if it puts one. -/
def Call.op : Call → Option WriteOp
  | .Write key value => some (.Put key value)
  | .Erase key => some (.Delete key)
  | _ => none

theorem lastErased_concat (calls : List Call) (call : Call) (key : Bytes) :
    LastErased (calls ++ [call]) key ↔
      call = .Erase key ∨ LastErased calls key ∧ ∀ value, call ≠ .Write key value := by
  constructor
  · rintro ⟨before, after, h, haft⟩
    rcases List.eq_nil_or_concat after with rfl | ⟨after, last, rfl⟩
    · obtain ⟨-, hlast⟩ := List.append_inj' h rfl
      exact .inl (List.singleton_inj.mp hlast)
    · rw [List.concat_eq_append] at h haft
      have hsplit : before ++ .Erase key :: (after ++ [last])
          = (before ++ .Erase key :: after) ++ [last] := by simp
      rw [hsplit] at h
      obtain ⟨hcalls, hlast⟩ := List.append_inj' h rfl
      obtain rfl := List.singleton_inj.mp hlast
      refine .inr ⟨⟨before, after, hcalls, fun value hmem => ?_⟩, fun value heq => ?_⟩
      · exact haft value (List.mem_append_left _ hmem)
      · exact haft value (by simp [heq])
  · rintro (rfl | ⟨⟨before, after, rfl, haft⟩, hwrite⟩)
    · exact ⟨calls, [], rfl, by simp⟩
    · refine ⟨before, after ++ [call], by simp, fun value hmem => ?_⟩
      rcases List.mem_append.mp hmem with hmem | hmem
      · exact haft value hmem
      · exact hwrite value (List.mem_singleton.mp hmem).symm

theorem scanBatch_deleted_iff (calls : List Call) (key : Bytes) :
    (ScanBatch (calls.filterMap Call.op) key).deleted = true ↔ LastErased calls key := by
  induction calls using List.reverseRecOn with
  | nil =>
    apply iff_of_false
    · simp [ScanBatch]
    · rintro ⟨before, after, h, -⟩
      simp at h
  | append_singleton calls call ih =>
    have hneedle := (scanBatch_spec (calls.filterMap Call.op) key).1
    have hscan : ScanBatch ((calls ++ [call]).filterMap Call.op) key
        = ([call].filterMap Call.op).foldl CBatchScanner.meet
            (ScanBatch (calls.filterMap Call.op) key) := by
      unfold ScanBatch
      rw [List.filterMap_append, List.foldl_append]
    rw [hscan, lastErased_concat, ← ih]
    cases call with
    | Read k =>
      change (ScanBatch (calls.filterMap Call.op) key).deleted = true ↔ _
      simp
    | Exists k =>
      change (ScanBatch (calls.filterMap Call.op) key).deleted = true ↔ _
      simp
    | Write k value =>
      change ((ScanBatch (calls.filterMap Call.op) key).Put k value).deleted = true ↔ _
      unfold CBatchScanner.Put
      rw [hneedle]
      by_cases hk : k = key
      · simp [hk]
      · simp [hk]
    | Erase k =>
      change ((ScanBatch (calls.filterMap Call.op) key).Delete k).deleted = true ↔ _
      unfold CBatchScanner.Delete
      rw [hneedle]
      by_cases hk : k = key
      · simp [hk]
      · simp [hk]

/-! ## Calls in a transaction -/

def CTxDB.after (db : CTxDB) (calls : List Call) : CTxDB :=
  { db with activeBatch := some (calls.filterMap Call.op) }

theorem foldl_filterMap_op (content : LevelDB) (calls : List Call) :
    (calls.filterMap Call.op).foldl WriteOp.apply content = (applyCalls content calls).2 := by
  induction calls generalizing content with
  | nil => rfl
  | cons call calls ih =>
    cases call with
    | Read key => exact ih content
    | Exists key => exact ih content
    | Write key value => exact ih (Function.update content key (some value))
    | Erase key => exact ih (Function.update content key none)

theorem applyCalls_append (content : LevelDB) (before calls : List Call) :
    applyCalls content (before ++ calls)
      = ((applyCalls content before).1 ++ (applyCalls (applyCalls content before).2 calls).1,
          (applyCalls (applyCalls content before).2 calls).2) := by
  have hcons : ∀ (content : LevelDB) (call : Call) (calls : List Call),
      applyCalls content (call :: calls)
        = ((applyCall content call).1 :: (applyCalls (applyCall content call).2 calls).1,
            (applyCalls (applyCall content call).2 calls).2) := fun _ _ _ => rfl
  induction before generalizing content with
  | nil => rfl
  | cons call before ih => rw [List.cons_append, hcons, ih, hcons, List.cons_append]

theorem readBytes_after (db : CTxDB) (before : List Call) (key : Bytes) :
    (db.after before).ReadBytes key = (applyCalls db.pdb before).2 key := by
  obtain ⟨-, -, hcontent⟩ := scanBatch_spec (before.filterMap Call.op) key
  rw [← foldl_filterMap_op, hcontent]
  rfl

theorem exists_after_iff (db : CTxDB) (before : List Call) (key : Bytes) :
    (db.after before).Exists key = ((applyCalls db.pdb before).2 key).isSome ↔
      ¬(LastErased before key ∧ (db.pdb key).isSome = true) := by
  obtain ⟨-, hfound, hcontent⟩ := scanBatch_spec (before.filterMap Call.op) key
  have hexists : (db.after before).Exists key
      = if ((ScanBatch (before.filterMap Call.op) key).foundEntry &&
          !(ScanBatch (before.filterMap Call.op) key).deleted) = true
        then true else (db.pdb key).isSome := rfl
  rw [hexists, ← foldl_filterMap_op, hcontent, ← scanBatch_deleted_iff]
  rcases hdeleted : (ScanBatch (before.filterMap Call.op) key).deleted with _ | _
  · rcases (ScanBatch (before.filterMap Call.op) key).foundEntry with _ | _ <;> simp
  · rw [hfound hdeleted]
    simp

/-- A call answers as the overlay, unless `Exists` asks for a key that was erased. -/
theorem call_after (hwrite : db.fReadOnly = false) (before : List Call) (call : Call) :
    ∃ answer, (db.after before).call call = .ok (answer, db.after (before ++ [call])) ∧
      (answer = (applyCall (applyCalls db.pdb before).2 call).1 ↔
        ∀ key, call = .Exists key → ¬(LastErased before key ∧ (db.pdb key).isSome = true)) := by
  have hread : ∀ call : Call, call.op = none → db.after before = db.after (before ++ [call]) := by
    intro call hop
    unfold CTxDB.after
    rw [List.filterMap_append, List.filterMap_cons_none hop, List.filterMap_nil, List.append_nil]
  have hperform : ∀ (call : Call) (op : WriteOp), call.op = some op →
      (db.after before).perform op = db.after (before ++ [call]) := by
    intro call op hop
    unfold CTxDB.after CTxDB.perform
    rw [List.filterMap_append, List.filterMap_cons_some hop]
    rfl
  have hwritable : (db.after before).fReadOnly = false := hwrite
  cases call with
  | Read key =>
    refine ⟨.value ((db.after before).ReadBytes key), ?_, iff_of_true ?_ (by simp)⟩
    · rw [← hread (.Read key) rfl]
      rfl
    · rw [readBytes_after]
      rfl
  | Exists key =>
    refine ⟨.result ((db.after before).Exists key), ?_, ?_⟩
    · rw [← hread (.Exists key) rfl]
      rfl
    · rw [show applyCall (applyCalls db.pdb before).2 (.Exists key)
        = (.result ((applyCalls db.pdb before).2 key).isSome, (applyCalls db.pdb before).2) from rfl]
      rw [Answer.result.injEq, exists_after_iff]
      simp
  | Write key value =>
    refine ⟨.result true, ?_, iff_of_true rfl (by simp)⟩
    rw [← hperform (.Write key value) (.Put key value) rfl]
    unfold CTxDB.call CTxDB.Write
    rw [hwritable]
    rfl
  | Erase key =>
    refine ⟨.result true, ?_, iff_of_true rfl (by simp)⟩
    rw [← hperform (.Erase key) (.Delete key) rfl]
    unfold CTxDB.call CTxDB.Erase
    rw [hwritable]
    rfl

theorem run_after (hwrite : db.fReadOnly = false) (before calls : List Call) :
    ∃ answers, (db.after before).run calls = .ok (answers, db.after (before ++ calls)) ∧
      (answers = (applyCalls (applyCalls db.pdb before).2 calls).1 ↔
        ∀ done key rest, calls = done ++ .Exists key :: rest →
          ¬(LastErased (before ++ done) key ∧ (db.pdb key).isSome = true)) := by
  induction calls generalizing before with
  | nil =>
    refine ⟨[], ?_, iff_of_true rfl (by simp)⟩
    rw [List.append_nil]
    rfl
  | cons call calls ih =>
    obtain ⟨answer, hcall, hanswer⟩ := call_after hwrite before call
    obtain ⟨answers, hrun, hanswers⟩ := ih (before ++ [call])
    have hcontent : (applyCalls db.pdb (before ++ [call])).2
        = (applyCall (applyCalls db.pdb before).2 call).2 := by
      rw [applyCalls_append]
      rfl
    refine ⟨answer :: answers, ?_, ?_⟩
    · rw [List.append_assoc] at hrun
      unfold CTxDB.run
      rw [hcall]
      change (do
        let rest ← (db.after (before ++ [call])).run calls
        pure (answer :: rest.1, rest.2)) = _
      rw [hrun]
      rfl
    · change answer :: answers = (applyCall (applyCalls db.pdb before).2 call).1
          :: (applyCalls (applyCall (applyCalls db.pdb before).2 call).2 calls).1 ↔ _
      rw [List.cons.injEq, hanswer, ← hcontent, hanswers]
      -- The first call is asked about with nothing done, and the others after it.
      constructor
      · rintro ⟨hfst, hrest⟩ done key rest h
        rcases done with _ | ⟨first, done⟩
        · obtain ⟨rfl, -⟩ := List.cons.inj h
          rw [List.append_nil]
          exact hfst key rfl
        · obtain ⟨rfl, hcalls⟩ := List.cons.inj h
          have hnot := hrest done key rest hcalls
          rwa [List.append_assoc] at hnot
      · intro hall
        refine ⟨fun key hkey => ?_, fun done key rest h => ?_⟩
        · have hnot := hall [] key calls (by rw [hkey]; rfl)
          rwa [List.append_nil] at hnot
        · rw [List.append_assoc]
          exact hall (call :: done) key rest (by rw [h]; rfl)

theorem run_direct (hclosed : db.activeBatch = none) (hwrite : db.fReadOnly = false)
    (calls : List Call) :
    db.run calls = .ok ((applyCalls db.pdb calls).1,
      { db with pdb := (applyCalls db.pdb calls).2 }) := by
  induction calls generalizing db with
  | nil => rfl
  | cons call calls ih =>
    have hcall : db.call call = .ok ((applyCall db.pdb call).1,
        { db with pdb := (applyCall db.pdb call).2 }) := by
      rcases db with ⟨pdb, batch, readOnly⟩
      obtain rfl : batch = none := hclosed
      obtain rfl : readOnly = false := hwrite
      cases call <;> rfl
    unfold CTxDB.run
    rw [hcall]
    change (do
      let rest ← CTxDB.run { db with pdb := (applyCall db.pdb call).2 } calls
      pure ((applyCall db.pdb call).1 :: rest.1, rest.2)) = _
    rw [@ih { db with pdb := (applyCall db.pdb call).2 } hclosed hwrite]
    rfl

/-- On a database without an open batch that was not opened for reading only, calls answer as if they
acted on it directly, with a batch and without, and commit and abort as they should, exactly when none
of them asks `Exists` for a key that it has and that the calls before have erased last. -/
theorem overlays_iff (hclosed : db.activeBatch = none) (hwrite : db.fReadOnly = false) :
    Overlays db calls ↔ ∀ before key after, calls = before ++ .Exists key :: after →
      ¬(LastErased before key ∧ (db.pdb key).isSome = true) := by
  obtain ⟨answers, hrun, hanswers⟩ := run_after hwrite [] calls
  have hbegin : db.TxnBegin = .ok (db.after []) := by
    unfold CTxDB.TxnBegin
    rw [hclosed]
    rfl
  have hiff : answers = (applyCalls db.pdb calls).1 ↔ ∀ before key after,
      calls = before ++ .Exists key :: after →
        ¬(LastErased before key ∧ (db.pdb key).isSome = true) := hanswers
  rw [← hiff]
  constructor
  · rintro ⟨⟨opened, final, hopened, hmade, -⟩, -⟩
    obtain rfl := Except.ok.inj (hbegin.symm.trans hopened)
    exact (Prod.mk.inj (Except.ok.inj (hrun.symm.trans hmade))).1
  · rintro rfl
    refine ⟨⟨_, _, hbegin, hrun, ?_, ?_⟩, run_direct hclosed hwrite calls⟩
    · have hcommit : (db.after ([] ++ calls)).TxnCommit = .ok { db with
          pdb := (calls.filterMap Call.op).foldl WriteOp.apply db.pdb, activeBatch := none } := rfl
      rw [hcommit, foldl_filterMap_op, ← hclosed]
    · change { db with activeBatch := none } = db
      rw [← hclosed]

/-! ## The store that the chain works on -/

/-- An operation as the general store knows it. -/
def WriteOp.toBatchOp : WriteOp → BatchOp fun _ : Bytes => Bytes
  | Put key value => ⟨key, some value⟩
  | Delete key => ⟨key, none⟩

def CTxDB.toStore (db : CTxDB) : Store fun _ : Bytes => Bytes :=
  ⟨db.pdb, db.activeBatch.map fun batch => batch.map WriteOp.toBatchOp⟩

theorem foldl_toBatchOp (batch : List WriteOp) (content : LevelDB) :
    (batch.map WriteOp.toBatchOp).foldl BatchOp.apply content
      = batch.foldl WriteOp.apply content := by
  rw [List.foldl_map]
  congr 1
  funext content op
  cases op <;> rfl

theorem readBytes_eq_read (db : CTxDB) (key : Bytes) : db.ReadBytes key = db.toStore.read key := by
  rw [Store.read_eq_view]
  rcases hbatch : db.activeBatch with _ | batch
  · unfold CTxDB.ReadBytes CTxDB.toStore Store.view
    rw [hbatch]
    rfl
  · obtain ⟨-, -, hcontent⟩ := scanBatch_spec batch key
    unfold CTxDB.ReadBytes CTxDB.toStore Store.view
    rw [hbatch]
    change _ = (batch.map WriteOp.toBatchOp).foldl BatchOp.apply db.pdb key
    rw [foldl_toBatchOp, hcontent]

theorem toStore_perform (db : CTxDB) (op : WriteOp) :
    (db.perform op).toStore = db.toStore.perform op.toBatchOp := by
  rcases db with ⟨pdb, _ | batch, readOnly⟩
  · cases op <;> rfl
  · unfold CTxDB.perform CTxDB.toStore Store.perform
    simp

theorem toStore_txnCommit {db' : CTxDB} (h : db.TxnCommit = .ok db') :
    db.toStore.txnCommit = some db'.toStore := by
  rcases db with ⟨pdb, _ | batch, readOnly⟩
  · simp [CTxDB.TxnCommit] at h
  · cases h
    unfold CTxDB.toStore Store.txnCommit
    simp only [Option.map_some, foldl_toBatchOp, Option.map_none]

/-- A call that changes the database object. -/
inductive DbStep where
  | TxnBegin | TxnCommit | TxnAbort
  | Write (key value : Bytes)
  | Erase (key : Bytes)

def DbStep.run (db : CTxDB) : DbStep → Except String CTxDB
  | TxnBegin => db.TxnBegin
  | TxnCommit => db.TxnCommit
  | TxnAbort => .ok db.TxnAbort
  | Write key value => db.Write key value
  | Erase key => db.Erase key

/-- The call as one on the general store. -/
def DbStep.onStore (store : Store fun _ : Bytes => Bytes) :
    DbStep → Option (Store fun _ : Bytes => Bytes)
  | TxnBegin => store.txnBegin
  | TxnCommit => store.txnCommit
  | TxnAbort => some store.txnAbort
  | Write key value => some (store.write key value)
  | Erase key => some (store.erase key)

theorem DbStep.toStore_run (hwrite : db.fReadOnly = false) (step : DbStep) :
    (step.run db).toOption.map CTxDB.toStore = step.onStore db.toStore ∧
      ∀ db', step.run db = .ok db' → db'.fReadOnly = false := by
  rcases db with ⟨pdb, batch, readOnly⟩
  obtain rfl : readOnly = false := hwrite
  constructor
  · cases step with
    | TxnBegin => rcases batch with _ | batch <;> rfl
    | TxnCommit =>
      rcases batch with _ | batch
      · rfl
      · exact (@toStore_txnCommit ⟨pdb, some batch, false⟩ _ rfl).symm
    | TxnAbort => rfl
    | Write key value => exact congrArg some (toStore_perform ⟨pdb, batch, false⟩ (.Put key value))
    | Erase key => exact congrArg some (toStore_perform ⟨pdb, batch, false⟩ (.Delete key))
  · intro db' h
    cases step <;> rcases batch with _ | batch <;> cases h <;> rfl

/-- Along all calls, the database object does what the store does that the chain works on: the same
calls fail, and a read finds what it finds there. -/
theorem run_toStore (hwrite : db.fReadOnly = false) (steps : List DbStep) :
    (steps.foldlM DbStep.run db).toOption.map CTxDB.toStore
        = steps.foldlM DbStep.onStore db.toStore ∧
      ∀ db', steps.foldlM DbStep.run db = .ok db' → ∀ key, db'.ReadBytes key = db'.toStore.view key := by
  refine ⟨?_, fun db' _ key => (readBytes_eq_read db' key).trans (Store.read_eq_view _ key)⟩
  induction steps generalizing db with
  | nil => rfl
  | cons step steps ih =>
    obtain ⟨hstep, hkept⟩ := step.toStore_run hwrite
    rw [List.foldlM_cons, List.foldlM_cons, ← hstep]
    rcases hrun : step.run db with e | db₁
    · rfl
    · exact ih (hkept db₁ hrun)

end

/-! ## A key that is erased and asked for -/

def oneKeyDb : CTxDB := ⟨fun key => if key = [1] then some [7] else none, none, false⟩

/-- In a transaction one key is erased and another one written: both are read from the batch. -/
theorem oneKeyDb_run_toStore :
    ∃ db, [.TxnBegin, .Erase [1], .Write [2] [8]].foldlM DbStep.run oneKeyDb = .ok db ∧
      [.TxnBegin, .Erase [1], .Write [2] [8]].foldlM DbStep.onStore oneKeyDb.toStore
        = some db.toStore ∧
      db.ReadBytes [1] = none ∧ db.ReadBytes [2] = some [8] := by
  obtain ⟨hstore, hread⟩ :=
    @run_toStore oneKeyDb rfl [.TxnBegin, .Erase [1], .Write [2] [8]]
  exact ⟨_, rfl, hstore.symm, (hread _ rfl [1]).trans (by decide), (hread _ rfl [2]).trans (by decide)⟩

/-- A transaction that erases the key, reads it and asks for another one. -/
theorem oneKeyDb_overlays : Overlays oneKeyDb [.Erase [1], .Read [1], .Exists [2]] := by
  refine (overlays_iff rfl rfl).mpr fun before key after h => ?_
  have hmem : Call.Exists key ∈ [.Erase [1], .Read [1], .Exists [2]] := by
    rw [h]
    simp
  obtain rfl : key = [2] := by simpa using hmem
  rintro ⟨-, hsome⟩
  exact absurd hsome (by decide)

/-- A key of the database still exists for a transaction that has erased it. -/
theorem oneKeyDb_not_overlays : ¬Overlays oneKeyDb [.Erase [1], .Exists [1]] := by
  rintro ⟨⟨opened, final, hopened, hmade, -⟩, -⟩
  obtain rfl := Except.ok.inj (hopened.symm.trans rfl)
  exact absurd (Prod.mk.inj (Except.ok.inj hmade)).1 (by decide)

end ZalemCoin.Storage
