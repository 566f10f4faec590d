import Mathlib.Algebra.Group.Nat.Defs
import Mathlib.Data.List.Basic

/-!
# Data streams as byte queues

`CDataStream` keeps its bytes in a vector with a read position, and gives the bytes before the position up
when that is convenient: it clears the vector when everything has been read, and an insertion at the front
overwrites them. The unread bytes are those of a queue all the same, and what `Rewind` takes back are the
bytes in front that are left. The position has 32 bits, and nothing outside the vector is touched while
positions stay below that.
-/

namespace ZalemCoin.Storage

structure CDataStream where
  vch : List UInt8
  nReadPos : ℕ
deriving DecidableEq

/-- A call; a position counts from `begin()`. -/
inductive StreamOp where
  | write (bytes : List UInt8)
  | read (nSize : ℕ)
  | ignore (nSize : ℕ)
  | insert (i : ℕ) (bytes : List UInt8)
  | insertFill (i n : ℕ) (x : UInt8)
  | erase (i : ℕ)
  | eraseRange (i j : ℕ)
  | Rewind (n : ℕ)
  | Compact

inductive StreamReply where
  | done
  | bytes (bytes : List UInt8)
  | flag (b : Bool)
  /-- `std::ios_base::failure` is thrown. -/
  | endOfData
deriving DecidableEq

/-! ## The stream

A call that would touch memory outside the vector has no result. -/

/-- `memcpy` from the vector. -/
def copyOut (vch : List UInt8) (pos n : ℕ) : Option (List UInt8) :=
  if pos + n ≤ vch.length then some ((vch.drop pos).take n) else none

/-- `memcpy` into the vector. -/
def overwrite (vch : List UInt8) (pos : ℕ) (bytes : List UInt8) : Option (List UInt8) :=
  if pos + bytes.length ≤ vch.length then
    some (vch.take pos ++ bytes ++ vch.drop (pos + bytes.length))
  else none

def vectorInsert (vch : List UInt8) (it : ℕ) (bytes : List UInt8) : Option (List UInt8) :=
  if it ≤ vch.length then some (vch.take it ++ bytes ++ vch.drop it) else none

def vectorErase (vch : List UInt8) (first last : ℕ) : Option (List UInt8) :=
  if first ≤ last ∧ last ≤ vch.length then some (vch.take first ++ vch.drop last) else none

namespace CDataStream

variable (s : CDataStream)

def read (nSize : ℕ) : Option (StreamReply × CDataStream) :=
  let nReadPosNext := (s.nReadPos + nSize) % 2 ^ 32
  if s.vch.length ≤ nReadPosNext then
    if s.vch.length < nReadPosNext then some (.endOfData, s)
    else (copyOut s.vch s.nReadPos nSize).map fun bytes => (.bytes bytes, ⟨[], 0⟩)
  else (copyOut s.vch s.nReadPos nSize).map fun bytes =>
    (.bytes bytes, { s with nReadPos := nReadPosNext })

def ignore (nSize : ℕ) : Option (StreamReply × CDataStream) :=
  let nReadPosNext := (s.nReadPos + nSize) % 2 ^ 32
  if s.vch.length ≤ nReadPosNext then
    if s.vch.length < nReadPosNext then some (.endOfData, s)
    else some (.done, ⟨[], 0⟩)
  else some (.done, { s with nReadPos := nReadPosNext })

def insert (it : ℕ) (bytes : List UInt8) : Option (StreamReply × CDataStream) :=
  if it = s.nReadPos ∧ bytes.length % 2 ^ 32 ≤ s.nReadPos then
    -- There is room in front.
    let nReadPos := s.nReadPos - bytes.length % 2 ^ 32
    (overwrite s.vch nReadPos bytes).map fun vch => (.done, ⟨vch, nReadPos⟩)
  else (vectorInsert s.vch it bytes).map fun vch => (.done, { s with vch })

def insertFill (it n : ℕ) (x : UInt8) : Option (StreamReply × CDataStream) :=
  (vectorInsert s.vch it (List.replicate n x)).map fun vch => (.done, { s with vch })

def erase (it : ℕ) : Option (StreamReply × CDataStream) :=
  if it = s.nReadPos then
    let nReadPos := (s.nReadPos + 1) % 2 ^ 32
    if s.vch.length ≤ nReadPos then some (.done, ⟨[], 0⟩) else some (.done, { s with nReadPos })
  else (vectorErase s.vch it (it + 1)).map fun vch => (.done, { s with vch })

def eraseRange (first last : ℕ) : Option (StreamReply × CDataStream) :=
  if first = s.nReadPos then
    if last = s.vch.length then some (.done, ⟨[], 0⟩)
    else some (.done, { s with nReadPos := last % 2 ^ 32 })
  else (vectorErase s.vch first last).map fun vch => (.done, { s with vch })

def Compact : Option (StreamReply × CDataStream) :=
  (vectorErase s.vch 0 s.nReadPos).map fun vch => (.done, ⟨vch, 0⟩)

def Rewind (n : ℕ) : StreamReply × CDataStream :=
  if s.nReadPos < n then (.flag false, s) else (.flag true, { s with nReadPos := s.nReadPos - n })

def perform : StreamOp → Option (StreamReply × CDataStream)
  | .write bytes => some (.done, { s with vch := s.vch ++ bytes })
  | .read nSize => s.read nSize
  | .ignore nSize => s.ignore nSize
  | .insert i bytes => s.insert (s.nReadPos + i) bytes
  | .insertFill i n x => s.insertFill (s.nReadPos + i) n x
  | .erase i => s.erase (s.nReadPos + i)
  | .eraseRange i j => s.eraseRange (s.nReadPos + i) (s.nReadPos + j)
  | .Rewind n => some (s.Rewind n)
  | .Compact => s.Compact

/-- The replies of a run, each with the unread bytes after it. -/
def run (s : CDataStream) : List StreamOp → Option (List (StreamReply × List UInt8))
  | [] => some []
  | op :: ops => (s.perform op).bind fun result =>
    (run result.2 ops).map fun trace => (result.1, result.2.vch.drop result.2.nReadPos) :: trace

end CDataStream

/-! ## The queue -/

/-- The unread bytes, and those before them that can be taken back. -/
structure ByteQueue where
  past : List UInt8
  unread : List UInt8
deriving DecidableEq

namespace ByteQueue

variable (q : ByteQueue)

def reply : StreamOp → StreamReply
  | .read n => if n ≤ q.unread.length then .bytes (q.unread.take n) else .endOfData
  | .ignore n => if n ≤ q.unread.length then .done else .endOfData
  | .Rewind n => .flag (decide (n ≤ q.past.length))
  | _ => .done

/-- A call does to the unread bytes what it says. -/
def unreadAfter : StreamOp → List UInt8
  | .write bytes => q.unread ++ bytes
  | .read n | .ignore n => if n ≤ q.unread.length then q.unread.drop n else q.unread
  | .insert i bytes => q.unread.take i ++ bytes ++ q.unread.drop i
  | .insertFill i n x => q.unread.take i ++ List.replicate n x ++ q.unread.drop i
  | .erase i => q.unread.take i ++ q.unread.drop (i + 1)
  | .eraseRange i j => q.unread.take i ++ q.unread.drop j
  | .Rewind n => if n ≤ q.past.length then q.past.drop (q.past.length - n) ++ q.unread else q.unread
  | .Compact => q.unread

/-- A number of bytes go past the reader; when they are all that is left, nothing is kept of them. -/
def passed (n : ℕ) : List UInt8 :=
  if q.unread.length = n then [] else q.past ++ q.unread.take n

/-- What can be taken back from a stream after a call. -/
def pastAfter : StreamOp → List UInt8
  | .read n | .ignore n => if n ≤ q.unread.length then q.passed n else q.past
  | .insert i bytes =>
    if i = 0 ∧ bytes.length ≤ q.past.length then q.past.take (q.past.length - bytes.length) else q.past
  | .erase i => if i = 0 then q.passed 1 else q.past
  | .eraseRange i j => if i = 0 then q.passed j else q.past
  | .Rewind n => if n ≤ q.past.length then q.past.take (q.past.length - n) else q.past
  | .Compact => []
  | _ => q.past

/-- What can be taken back from a list of bytes with a position in it. -/
def plainPast : StreamOp → List UInt8
  | .read n | .ignore n => if n ≤ q.unread.length then q.past ++ q.unread.take n else q.past
  | .Rewind n => if n ≤ q.past.length then q.past.take (q.past.length - n) else q.past
  | .Compact => []
  | _ => q.past

def after (op : StreamOp) : ByteQueue := ⟨q.pastAfter op, q.unreadAfter op⟩

def plainAfter (op : StreamOp) : ByteQueue := ⟨q.plainPast op, q.unreadAfter op⟩

def run (next : ByteQueue → StreamOp → ByteQueue) (q : ByteQueue) :
    List StreamOp → List (StreamReply × List UInt8)
  | [] => []
  | op :: ops => (q.reply op, (next q op).unread) :: run next (next q op) ops

/-- The iterators are those of unread bytes, and positions fit into 32 bits. -/
def Fits : StreamOp → Prop
  | .read n | .ignore n => q.past.length + n < 2 ^ 32
  | .insert i bytes => i ≤ q.unread.length ∧ bytes.length < 2 ^ 32
  | .insertFill i _ _ => i ≤ q.unread.length
  | .erase i => i < q.unread.length ∧ q.past.length + 1 < 2 ^ 32
  | .eraseRange i j => i ≤ j ∧ j ≤ q.unread.length ∧ q.past.length + j < 2 ^ 32
  | _ => True

def FitsAll (q : ByteQueue) : List StreamOp → Prop
  | [] => True
  | op :: ops => q.Fits op ∧ FitsAll (q.after op) ops

/-- The stream that a queue stands for. -/
def toStream : CDataStream := ⟨q.past ++ q.unread, q.past.length⟩

/-! ## Each call -/

variable {q : ByteQueue}

theorem read_toStream {n : ℕ} (h : q.Fits (.read n)) :
    q.toStream.read n = some (q.reply (.read n), (q.after (.read n)).toStream) := by
  obtain ⟨past, unread⟩ := q
  have hnext : (past.length + n) % 2 ^ 32 = past.length + n := Nat.mod_eq_of_lt h
  have hlen : (past ++ unread).length = past.length + unread.length := List.length_append
  change CDataStream.read ⟨past ++ unread, past.length⟩ n = _
  unfold CDataStream.read
  dsimp only
  rw [hnext]
  rcases Nat.lt_trichotomy n unread.length with hlt | rfl | hgt
  · have hcopy : copyOut (past ++ unread) past.length n = some (unread.take n) := by
      rw [copyOut, if_pos (by omega), List.drop_left]
    rw [if_neg (by omega), hcopy]
    simp [reply, after, pastAfter, unreadAfter, passed, toStream, Nat.le_of_lt hlt, Nat.ne_of_gt hlt]
  · have hcopy : copyOut (past ++ unread) past.length unread.length = some unread := by
      rw [copyOut, if_pos (by omega), List.drop_left, List.take_length]
    rw [if_pos (by omega), if_neg (by omega), hcopy]
    simp [reply, after, pastAfter, unreadAfter, passed, toStream]
  · rw [if_pos (by omega), if_pos (by omega)]
    simp [reply, after, pastAfter, unreadAfter, toStream, Nat.not_le.mpr hgt]

/-- Ignoring bytes is reading them without looking at them. -/
theorem ignore_toStream {n : ℕ} (h : q.Fits (.ignore n)) :
    q.toStream.ignore n = some (q.reply (.ignore n), (q.after (.ignore n)).toStream) := by
  have hread := @read_toStream q n h
  unfold CDataStream.read at hread
  unfold CDataStream.ignore
  dsimp only [reply, after, pastAfter, unreadAfter] at hread ⊢
  split_ifs at hread ⊢ <;> simp_all

theorem vectorInsert_append {past unread bytes : List UInt8} {i : ℕ} (h : i ≤ unread.length) :
    vectorInsert (past ++ unread) (past.length + i) bytes
      = some (past ++ (unread.take i ++ bytes ++ unread.drop i)) := by
  rw [vectorInsert, if_pos (by rw [List.length_append]; omega), List.take_length_add_append,
    List.drop_length_add_append]
  simp only [List.append_assoc]

theorem vectorErase_append {past unread : List UInt8} {i j : ℕ} (hij : i ≤ j) (h : j ≤ unread.length) :
    vectorErase (past ++ unread) (past.length + i) (past.length + j)
      = some (past ++ (unread.take i ++ unread.drop j)) := by
  rw [vectorErase, if_pos (by rw [List.length_append]; omega), List.take_length_add_append,
    List.drop_length_add_append, List.append_assoc]

/-- An insertion at the front goes over the last bytes that were read, when there are enough of them. -/
theorem insert_toStream {i : ℕ} {bytes : List UInt8} (h : q.Fits (.insert i bytes)) :
    q.toStream.insert (q.toStream.nReadPos + i) bytes
      = some (.done, (q.after (.insert i bytes)).toStream) := by
  obtain ⟨past, unread⟩ := q
  obtain ⟨hi, hbytes⟩ := h
  change CDataStream.insert ⟨past ++ unread, past.length⟩ (past.length + i) bytes = _
  unfold CDataStream.insert
  dsimp only [toStream, after, pastAfter, unreadAfter] at hi ⊢
  rw [Nat.mod_eq_of_lt hbytes]
  by_cases hfront : i = 0 ∧ bytes.length ≤ past.length
  · obtain ⟨rfl, hroom⟩ := hfront
    have htake : (past ++ unread).take (past.length - bytes.length)
        = past.take (past.length - bytes.length) :=
      List.take_append_of_le_length (Nat.sub_le _ _)
    rw [if_pos ⟨rfl, hroom⟩, if_pos ⟨Nat.add_zero _, hroom⟩, overwrite,
      if_pos (by rw [List.length_append]; omega), Nat.sub_add_cancel hroom, List.drop_left, htake]
    simp
  · rw [if_neg hfront, if_neg (by omega), vectorInsert_append hi]
    rfl

theorem eraseRange_toStream {i j : ℕ} (h : q.Fits (.eraseRange i j)) :
    q.toStream.eraseRange (q.toStream.nReadPos + i) (q.toStream.nReadPos + j)
      = some (.done, (q.after (.eraseRange i j)).toStream) := by
  obtain ⟨past, unread⟩ := q
  obtain ⟨hij, hj, hsize⟩ := h
  change CDataStream.eraseRange ⟨past ++ unread, past.length⟩ (past.length + i) (past.length + j) = _
  unfold CDataStream.eraseRange
  have hlen : (past ++ unread).length = past.length + unread.length := List.length_append
  dsimp only [toStream, after, pastAfter, unreadAfter, passed] at hij hj hsize ⊢
  rw [Nat.mod_eq_of_lt hsize]
  by_cases hfront : i = 0
  · subst hfront
    rw [if_pos (Nat.add_zero _), if_pos rfl]
    by_cases hall : unread.length = j
    · subst hall
      simp
    · rw [if_neg (by omega), if_neg hall]
      simp [Nat.min_eq_left hj]
  · rw [if_neg (by omega), if_neg hfront, vectorErase_append hij hj]
    rfl

theorem erase_toStream {i : ℕ} (h : q.Fits (.erase i)) :
    q.toStream.erase (q.toStream.nReadPos + i) = some (.done, (q.after (.erase i)).toStream) := by
  obtain ⟨past, unread⟩ := q
  obtain ⟨hi, hsize⟩ := h
  change CDataStream.erase ⟨past ++ unread, past.length⟩ (past.length + i) = _
  unfold CDataStream.erase
  have hlen : (past ++ unread).length = past.length + unread.length := List.length_append
  dsimp only [toStream, after, pastAfter, unreadAfter, passed] at hi hsize ⊢
  rw [Nat.mod_eq_of_lt hsize]
  by_cases hfront : i = 0
  · subst hfront
    rw [if_pos (Nat.add_zero _), if_pos rfl]
    by_cases hall : unread.length = 1
    · rw [if_pos (by omega), if_pos hall]
      simp [-List.drop_one, hall]
    · rw [if_neg (by omega), if_neg hall]
      simp [-List.drop_one, Nat.min_eq_left (Nat.succ_le_of_lt hi)]
  · rw [if_neg (by omega), if_neg hfront, Nat.add_assoc, vectorErase_append (Nat.le_succ i) hi]
    rfl

theorem rewind_toStream (q : ByteQueue) (n : ℕ) :
    q.toStream.Rewind n = (q.reply (.Rewind n), (q.after (.Rewind n)).toStream) := by
  obtain ⟨past, unread⟩ := q
  change CDataStream.Rewind ⟨past ++ unread, past.length⟩ n = _
  unfold CDataStream.Rewind
  dsimp only [toStream, reply, after, pastAfter, unreadAfter]
  by_cases hn : n ≤ past.length
  · rw [if_neg (Nat.not_lt.mpr hn), if_pos hn, if_pos hn, ← List.append_assoc, List.take_append_drop]
    simp [hn]
  · rw [if_pos (Nat.not_le.mp hn), if_neg hn, if_neg hn]
    simp [hn]

/-- A call that fits does to the stream what it does to the queue. -/
theorem perform_toStream {op : StreamOp} (h : q.Fits op) :
    q.toStream.perform op = some (q.reply op, (q.after op).toStream) := by
  cases op with
  | write bytes => simp [CDataStream.perform, reply, after, pastAfter, unreadAfter, toStream]
  | read n => exact read_toStream h
  | ignore n => exact ignore_toStream h
  | insert i bytes => exact insert_toStream h
  | insertFill i n x =>
    change (vectorInsert (q.past ++ q.unread) (q.past.length + i) _).map _ = _
    rw [vectorInsert_append h]
    rfl
  | erase i => exact erase_toStream h
  | eraseRange i j => exact eraseRange_toStream h
  | Rewind n => exact congrArg some (rewind_toStream q n)
  | Compact =>
    have herase := @vectorErase_append [] (q.past ++ q.unread) 0 q.past.length (Nat.zero_le _)
      (List.length_append.symm ▸ Nat.le_add_right _ _ : q.past.length ≤ (q.past ++ q.unread).length)
    change (vectorErase (q.past ++ q.unread) 0 q.past.length).map _ = _
    simp at herase
    rw [herase]
    rfl

/-- In a run of calls that fit, a stream replies as the queue does, and has its unread bytes after each. -/
theorem run_toStream (q : ByteQueue) (ops : List StreamOp) (h : q.FitsAll ops) :
    q.toStream.run ops = some (q.run after ops) := by
  induction ops generalizing q with
  | nil => rfl
  | cons op ops ih =>
    obtain ⟨hop, hops⟩ := h
    rw [CDataStream.run, perform_toStream hop, Option.bind_some, ih _ hops, Option.map_some, run]
    dsimp only [toStream]
    rw [List.drop_left]

theorem overwritten_run : (⟨[], [1, 2, 3]⟩ : ByteQueue).toStream.run [.read 2, .insert 0 [9], .Rewind 1]
    = some [(.bytes [1, 2], [3]), (.done, [9, 3]), (.flag true, [1, 9, 3])] :=
  run_toStream ⟨[], [1, 2, 3]⟩ [.read 2, .insert 0 [9], .Rewind 1]
    ⟨(by decide : 0 + 2 < 2 ^ 32), ⟨Nat.zero_le _, by decide⟩, trivial, trivial⟩

/-- A list with a position gives the last byte back, and a stream has been cleared. -/
theorem cleared_run : ¬ ∀ (q : ByteQueue) (ops : List StreamOp), q.FitsAll ops →
    q.toStream.run ops = some (q.run plainAfter ops) := by
  intro h
  have hrun := h ⟨[], [1]⟩ [.read 1, .Rewind 1] ⟨(by decide : 0 + 1 < 2 ^ 32), trivial, trivial⟩
  exact absurd hrun (by decide)

end ByteQueue

end ZalemCoin.Storage
