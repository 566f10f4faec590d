import ZalemCoin.Chain.State
import ZalemCoin.Lib.Rounds
import ZalemCoin.Storage.BlockFormat

/-!
# Importing a file of blocks

`LoadExternalBlockFile` scans a file for the message start, and passes the blocks that it can read after
it to `ProcessBlock`. It goes on behind the message start, or behind the block when it is accepted. An
exception ends the import. The position is a 32-bit number; it does not wrap around in a file that is
short enough.
-/

namespace ZalemCoin.Storage

open Lib Chain

def MessageStart : Network → List UInt8
  | .main => [0xc9, 0xb9, 0xa3, 0xf0]
  | .testnet => [0xc8, 0xb8, 0xf3, 0xe0]
  | .regtest => [0xc7, 0xb7, 0x03, 0x00]

def MESSAGE_START_SIZE : ℕ := 4

def pchDataSize : ℕ := 65536

/-- The node that imports: its network, the largest block at a time, and what processing a block does to
it. `ProcessBlock` returns a Boolean or throws. -/
structure Importer (σ : Type) where
  network : Network
  MAX_BLOCK_SIZE : σ → UInt32
  ProcessBlock : CBlock → σ → Option Bool × σ

/-- What comes of a message start. -/
inductive Outcome
  /-- Reading the size throws. -/
  | truncated
  | badSize (nSize limit : UInt32)
  /-- Reading the block throws. -/
  | malformed (nSize : UInt32)
  /-- The block is passed to `ProcessBlock`, with what that returns. -/
  | passed (nSize : UInt32) (block : CBlock) (fAccepted : Option Bool)
deriving DecidableEq

/-- A message start that the scan has found, and what has come of it. -/
structure Visit where
  nPos : ℕ
  outcome : Outcome
deriving DecidableEq

/-- The variables of the import. The visits are not kept by the source. -/
structure Import (σ : Type) where
  nPos : UInt32
  /-- Whether the inner loop goes on. -/
  fSearching : Bool
  nLoaded : ℤ
  node : σ
  visits : List Visit

/-- What a search of the buffer comes to. -/
inductive Search
  | ended
  | found (nPos : UInt32)
  | next (nPos : UInt32)

def searchAt (start file : List UInt8) (nPos : UInt32) : Search :=
  let pchData := (file.drop nPos.toNat).take pchDataSize
  let nRead := pchData.length
  if nRead ≤ 8 then .ended
  else
    match (pchData.take (nRead + 1 - MESSAGE_START_SIZE)).findIdx? (· == start.headD 0) with
    | some nFind =>
      if (pchData.drop nFind).take MESSAGE_START_SIZE = start then
        .found (nPos + UInt32.ofNat (nFind + MESSAGE_START_SIZE))
      else .next (nPos + UInt32.ofNat (nFind + 1))
    | none => .next (nPos + UInt32.ofNat (pchDataSize - MESSAGE_START_SIZE + 1))

variable {σ : Type}

/-- Reads the size and the block behind a message start, and processes the block. -/
def readRecord (p : Importer σ) (file : List UInt8) (s : Import σ) (nPos : UInt32) :
    Round (Import σ) (Import σ) :=
  let visited (outcome : Outcome) : List Visit :=
    s.visits ++ [⟨nPos.toNat - MESSAGE_START_SIZE, outcome⟩]
  match readUInt32.run (file.drop nPos.toNat) with
  | none => .done { s with nPos := nPos, visits := visited .truncated }
  | some (nSize, rest) =>
    let limit := p.MAX_BLOCK_SIZE s.node
    if 0 < nSize ∧ nSize ≤ limit then
      match readBlock.run rest with
      | none => .done { s with nPos := nPos, visits := visited (.malformed nSize) }
      | some (block, _) =>
        match p.ProcessBlock block s.node with
        | (none, node) =>
          .done { s with nPos := nPos, node := node, visits := visited (.passed nSize block none) }
        | (some true, node) =>
          .next ⟨nPos + (4 + nSize), false, s.nLoaded + 1, node,
            visited (.passed nSize block (some true))⟩
        | (some false, node) =>
          .next ⟨nPos, false, s.nLoaded, node, visited (.passed nSize block (some false))⟩
    else .next ⟨nPos, false, s.nLoaded, s.node, visited (.badSize nSize limit)⟩

def importRound (p : Importer σ) (file : List UInt8) (s : Import σ) : Round (Import σ) (Import σ) :=
  if s.fSearching = false ∧ s.nPos = 0xffffffff then .done s
  else
    match searchAt (MessageStart p.network) file s.nPos with
    | .ended => .done { s with nPos := 0xffffffff }
    | .next nPos => .next { s with nPos := nPos, fSearching := true }
    | .found nPos =>
      if nPos = 0xffffffff then .done { s with nPos := nPos } else readRecord p file s nPos

/-- Imports a file: whether a block was loaded, and what the import has left. There is no result within
too few rounds. -/
def LoadExternalBlockFile (p : Importer σ) (file : List UInt8) (rounds : ℕ) (node : σ) :
    Option (Bool × Import σ) :=
  (runLoop (importRound p file) rounds ⟨0, false, 0, node, []⟩).map fun r => (decide (0 < r.nLoaded), r)

/-! ## Searching the buffer -/

def StartsAt (start file : List UInt8) (r : ℕ) : Prop :=
  (file.drop r).take MESSAGE_START_SIZE = start

theorem messageStart_eq (network : Network) : ∃ a b c d, MessageStart network = [a, b, c, d] ∧
    a ≠ b ∧ a ≠ c ∧ a ≠ d := by
  cases network with
  | main => exact ⟨_, _, _, _, rfl, by decide, by decide, by decide⟩
  | testnet => exact ⟨_, _, _, _, rfl, by decide, by decide, by decide⟩
  | regtest => exact ⟨_, _, _, _, rfl, by decide, by decide, by decide⟩

variable {file : List UInt8} {nPos nPos' : UInt32} {network : Network}

section

variable {start : List UInt8} {r : ℕ}

theorem StartsAt.getElem? (h : StartsAt start file r) {k : ℕ} (hk : k < MESSAGE_START_SIZE) :
    file[r + k]? = start[k]? := by
  rw [← h, List.getElem?_take_of_lt hk, List.getElem?_drop]

theorem StartsAt.apart (h : StartsAt (MessageStart network) file r) {q : ℕ}
    (hq : StartsAt (MessageStart network) file q) (hlt : q < r) : q + MESSAGE_START_SIZE ≤ r := by
  obtain ⟨a, b, c, d, hstart, hab, hac, had⟩ := messageStart_eq network
  by_contra hnear
  have hsize : MESSAGE_START_SIZE = 4 := rfl
  have hfst := h.getElem? (show 0 < MESSAGE_START_SIZE by decide)
  have hinside := hq.getElem? (show r - q < MESSAGE_START_SIZE by omega)
  rw [show q + (r - q) = r + 0 by omega, hfst, hstart] at hinside
  -- the first byte would be the second, the third or the fourth one
  have hcases : r - q = 1 ∨ r - q = 2 ∨ r - q = 3 := by omega
  rcases hcases with hd | hd | hd
  · rw [hd] at hinside
    exact hab (Option.some.inj hinside)
  · rw [hd] at hinside
    exact hac (Option.some.inj hinside)
  · rw [hd] at hinside
    exact had (Option.some.inj hinside)

theorem length_pchData (file : List UInt8) (n : ℕ) :
    ((file.drop n).take pchDataSize).length = min pchDataSize (file.length - n) := by
  rw [List.length_take, List.length_drop]

theorem getElem?_pchData (file : List UInt8) (n k j : ℕ) (hj : j < k) (hk : k ≤ pchDataSize) :
    (((file.drop n).take pchDataSize).take k)[j]? = file[n + j]? := by
  rw [List.getElem?_take_of_lt hj, List.getElem?_take_of_lt (by omega), List.getElem?_drop]

theorem take_pchData (file : List UInt8) (n j : ℕ) (hj : j + MESSAGE_START_SIZE ≤ pchDataSize) :
    (((file.drop n).take pchDataSize).drop j).take MESSAGE_START_SIZE
      = (file.drop (n + j)).take MESSAGE_START_SIZE := by
  rw [List.drop_take, List.take_take, List.drop_drop, min_eq_left (by omega)]

theorem StartsAt.first (h : StartsAt (MessageStart network) file r) :
    file[r]? = some ((MessageStart network).headD 0) := by
  obtain ⟨a, b, c, d, hstart, -, -, -⟩ := messageStart_eq network
  have hfst := h.getElem? (show 0 < MESSAGE_START_SIZE by decide)
  rw [hstart] at hfst ⊢
  exact hfst

variable {n m : ℕ}

theorem not_startsAt_of_none (hm : m ≤ pchDataSize)
    (h : (((file.drop n).take pchDataSize).take m).findIdx? (· == (MessageStart network).headD 0) = none)
    (hr : StartsAt (MessageStart network) file r) (hn : n ≤ r) : n + m ≤ r := by
  by_contra hin
  rw [List.findIdx?_eq_none_iff] at h
  have hbyte := getElem?_pchData file n m (r - n) (by omega) hm
  rw [show n + (r - n) = r by omega, hr.first] at hbyte
  have hfalse := h _ (List.mem_of_getElem? hbyte)
  rw [beq_self_eq_true] at hfalse
  cases hfalse

theorem startsAt_of_some {nFind : ℕ} (hm : m ≤ pchDataSize)
    (h : (((file.drop n).take pchDataSize).take m).findIdx? (· == (MessageStart network).headD 0)
      = some nFind) :
    nFind < m ∧ ∀ r, StartsAt (MessageStart network) file r → n ≤ r → n + nFind ≤ r := by
  rw [List.findIdx?_eq_some_iff_getElem] at h
  obtain ⟨hlt, -, hbef⟩ := h
  have hin : nFind < m := lt_of_lt_of_le hlt (List.length_take_le _ _)
  use hin
  intro r hr hn
  by_contra hless
  have hbyte := getElem?_pchData file n m (r - n) (by omega) hm
  rw [show n + (r - n) = r by omega, hr.first] at hbyte
  have hj : r - n < (((file.drop n).take pchDataSize).take m).length := by omega
  rw [List.getElem?_eq_getElem hj] at hbyte
  apply hbef (r - n) (by omega)
  rw [Option.some.inj hbyte, beq_self_eq_true]

end

theorem toNat_add_ofNat {k : ℕ} (h : nPos.toNat + k < 2 ^ 32) :
    (nPos + UInt32.ofNat k).toNat = nPos.toNat + k := by
  rw [UInt32.toNat_add, UInt32.toNat_ofNat', Nat.mod_eq_of_lt (show k < 2 ^ 32 by omega),
    Nat.mod_eq_of_lt h]

theorem searchAt_ended (h : searchAt (MessageStart network) file nPos = .ended) :
    file.length ≤ nPos.toNat + 8 := by
  unfold searchAt at h
  dsimp only at h
  rw [length_pchData] at h
  split at h
  · rename_i hshort
    unfold pchDataSize at hshort
    omega
  · split at h
    · split at h <;> cases h
    · cases h

/-- The search goes on to a later position, and leaves no message start behind that has more than eight
bytes. -/
theorem searchAt_next (hfits : file.length + pchDataSize < 2 ^ 32)
    (h : searchAt (MessageStart network) file nPos = .next nPos') :
    nPos.toNat + 8 < file.length ∧ nPos.toNat < nPos'.toNat ∧
      ∀ r, StartsAt (MessageStart network) file r → nPos.toNat ≤ r → r + 8 < file.length →
        nPos'.toNat ≤ r := by
  have hbuffer : pchDataSize = 65536 := rfl
  have hsize : MESSAGE_START_SIZE = 4 := rfl
  unfold searchAt at h
  dsimp only at h
  rw [length_pchData] at h
  split at h
  · cases h
  · rename_i hlong
    have hin : nPos.toNat + 8 < file.length := by omega
    use hin
    split at h
    · rename_i nFind hfind
      obtain ⟨hlt, hbef⟩ := startsAt_of_some (by omega) hfind
      split at h
      · cases h
      · rename_i hother
        obtain rfl := Search.next.inj h
        rw [toNat_add_ofNat (by omega)]
        constructor
        · omega
        · intro r hr hn _
          have haft := hbef r hr hn
          -- the bytes at the first byte are not the message start
          have hne : r ≠ nPos.toNat + nFind := by
            rintro rfl
            rw [take_pchData file _ _ (by omega)] at hother
            exact hother hr
          omega
    · rename_i hnone
      obtain rfl := Search.next.inj h
      rw [toNat_add_ofNat (by omega)]
      constructor
      · omega
      · intro r hr hn hleft
        have haft := not_startsAt_of_none (by omega) hnone hr hn
        omega

theorem searchAt_found (hfits : file.length + pchDataSize < 2 ^ 32)
    (h : searchAt (MessageStart network) file nPos = .found nPos') :
    nPos.toNat + 8 < file.length ∧ ∃ q, nPos'.toNat = q + MESSAGE_START_SIZE ∧ nPos.toNat ≤ q ∧
      q + MESSAGE_START_SIZE ≤ file.length ∧ StartsAt (MessageStart network) file q ∧
      ∀ r, StartsAt (MessageStart network) file r → nPos.toNat ≤ r → q ≤ r := by
  have hbuffer : pchDataSize = 65536 := rfl
  have hsize : MESSAGE_START_SIZE = 4 := rfl
  unfold searchAt at h
  dsimp only at h
  rw [length_pchData] at h
  split at h
  · cases h
  · rename_i hlong
    have hin : nPos.toNat + 8 < file.length := by omega
    use hin
    split at h
    · rename_i nFind hfind
      obtain ⟨hlt, hbef⟩ := startsAt_of_some (by omega) hfind
      split at h
      · rename_i hsame
        obtain rfl := Search.found.inj h
        rw [take_pchData file _ _ (by omega)] at hsame
        use nPos.toNat + nFind
        rw [toNat_add_ofNat (by omega)]
        refine ⟨by omega, by omega, by omega, hsame, hbef⟩
      · cases h
    · cases h

/-! ## Reading a record -/

def ReadsRecord (bytes : List UInt8) (nSize : UInt32) (block : CBlock) : Prop :=
  ∃ rest after, readUInt32.run bytes = some (nSize, rest) ∧ readBlock.run rest = some (block, after)

/-- Reading the record or processing its block throws. -/
def Outcome.Threw : Outcome → Prop
  | .truncated => True
  | .badSize _ _ => False
  | .malformed _ => True
  | .passed _ _ fAccepted => fAccepted = none

/-- The block is passed to `ProcessBlock`, unless its size is above the limit. -/
def Outcome.Handles (outcome : Outcome) (nSize : UInt32) (block : CBlock) : Prop :=
  (∃ fAccepted, outcome = .passed nSize block fAccepted) ∨
    ∃ limit, limit < nSize ∧ outcome = .badSize nSize limit

variable {p : Importer σ} {s t : Import σ}

/-- A record that can be read is visited once, with what was done with it. -/
theorem readRecord_handles {nSize : UInt32} {block : CBlock} (hsize : nSize ≠ 0)
    (hreads : ReadsRecord (file.drop nPos.toNat) nSize block) :
    ∃ outcome, outcome.Handles nSize block ∧
      ∀ t, readRecord p file s nPos = .next t ∨ readRecord p file s nPos = .done t →
        t.visits = s.visits ++ [⟨nPos.toNat - MESSAGE_START_SIZE, outcome⟩] := by
  obtain ⟨rest, after, hnSize, hblock⟩ := hreads
  have hpos : 0 < nSize := UInt32.pos_iff_ne_zero.mpr hsize
  unfold readRecord
  rw [hnSize]
  dsimp only
  by_cases hlim : nSize ≤ p.MAX_BLOCK_SIZE s.node
  · rw [if_pos ⟨hpos, hlim⟩, hblock]
    dsimp only
    use .passed nSize block (p.ProcessBlock block s.node).1
    constructor
    · exact .inl ⟨_, rfl⟩
    · rcases p.ProcessBlock block s.node with ⟨fAccepted, node⟩
      cases fAccepted with
      | none =>
        rintro t (h | h)
        · cases h
        · cases h
          rfl
      | some accepted =>
        cases accepted with
        | true =>
          rintro t (h | h)
          · cases h
            rfl
          · cases h
        | false =>
          rintro t (h | h)
          · cases h
            rfl
          · cases h
  · rw [if_neg fun h => hlim h.2]
    use .badSize nSize (p.MAX_BLOCK_SIZE s.node)
    constructor
    · exact .inr ⟨_, UInt32.not_le.mp hlim, rfl⟩
    · rintro t (h | h)
      · cases h
        rfl
      · cases h

theorem readRecord_next (h : readRecord p file s nPos = .next t) :
    ∃ outcome, t.visits = s.visits ++ [⟨nPos.toNat - MESSAGE_START_SIZE, outcome⟩] ∧
      (t.nPos = nPos ∨ ∃ nSize block, outcome = .passed nSize block (some true) ∧
        nSize ≤ p.MAX_BLOCK_SIZE s.node ∧ t.nPos = nPos + (4 + nSize)) := by
  unfold readRecord at h
  dsimp only at h
  split at h
  · cases h
  · split at h
    · rename_i hlim
      split at h
      · cases h
      · split at h
        · cases h
        · cases h
          exact ⟨_, rfl, .inr ⟨_, _, rfl, hlim.2, rfl⟩⟩
        · cases h
          exact ⟨_, rfl, .inl rfl⟩
    · cases h
      exact ⟨_, rfl, .inl rfl⟩

theorem readRecord_done (h : readRecord p file s nPos = .done t) :
    ∃ outcome, t.visits = s.visits ++ [⟨nPos.toNat - MESSAGE_START_SIZE, outcome⟩] ∧
      outcome.Threw := by
  unfold readRecord at h
  dsimp only at h
  split at h
  · cases h
    exact ⟨_, rfl, trivial⟩
  · split at h
    · split at h
      · cases h
        exact ⟨_, rfl, trivial⟩
      · split at h
        · cases h
          exact ⟨_, rfl, rfl⟩
        · cases h
        · cases h
    · cases h

/-! ## The rounds -/

structure RecordAt (network : Network) (file : List UInt8) (pos : ℕ) (nSize : UInt32) (block : CBlock) :
    Prop where
  start : StartsAt (MessageStart network) file pos
  size : nSize ≠ 0
  reads : ReadsRecord (file.drop (pos + MESSAGE_START_SIZE)) nSize block

variable {block : CBlock}

theorem RecordAt.lt_length {pos : ℕ} {nSize : UInt32} (h : RecordAt network file pos nSize block) :
    pos + 8 < file.length := by
  obtain ⟨rest, after, hnSize, hblock⟩ := h.reads
  by_contra hshort
  have hbytes : (file.drop (pos + MESSAGE_START_SIZE)).length ≤ 4 := by
    rw [List.length_drop]
    unfold MESSAGE_START_SIZE
    omega
  generalize file.drop (pos + MESSAGE_START_SIZE) = bytes at hnSize hbytes
  unfold readUInt32 at hnSize
  rw [StateT.run_map, Reader.run_takeNat] at hnSize
  split at hnSize
  · cases hnSize
  · have hrest : bytes.drop 4 = rest := congrArg Prod.snd (Option.some.inj hnSize)
    rw [List.drop_eq_nil_of_le hbytes] at hrest
    rw [← hrest] at hblock
    cases hblock

/-- What the import has done about a record: it has handled it, or an earlier one has thrown, or it is in
the span of an earlier one that is accepted. -/
def Import.Settles (r : Import σ) (pos : ℕ) (nSize : UInt32) (block : CBlock) : Prop :=
  (∃ v ∈ r.visits, v.nPos = pos ∧ v.outcome.Handles nSize block) ∨
  (∃ v ∈ r.visits, v.nPos < pos ∧ v.outcome.Threw) ∨
  ∃ v ∈ r.visits, v.nPos < pos ∧ ∃ n b, v.outcome = .passed n b (some true) ∧ pos < v.nPos + 8 + n.toNat

section

variable {r : Import σ}

theorem importRound_next (h : importRound p file s = .next t) :
    (searchAt (MessageStart p.network) file s.nPos = .next t.nPos ∧ t.visits = s.visits) ∨
    ∃ nPos, searchAt (MessageStart p.network) file s.nPos = .found nPos ∧
      readRecord p file s nPos = .next t := by
  unfold importRound at h
  split at h
  · cases h
  · split at h
    · cases h
    · rename_i nPos hsearch
      cases h
      exact .inl ⟨hsearch, rfl⟩
    · rename_i nPos hsearch
      split at h
      · cases h
      · exact .inr ⟨nPos, hsearch, h⟩

theorem importRound_done (h : importRound p file s = .done r) :
    (s.nPos = 0xffffffff ∧ r.visits = s.visits) ∨
    (searchAt (MessageStart p.network) file s.nPos = .ended ∧ r.visits = s.visits) ∨
    ∃ nPos, searchAt (MessageStart p.network) file s.nPos = .found nPos ∧
      ((nPos = 0xffffffff ∧ r.visits = s.visits) ∨ readRecord p file s nPos = .done r) := by
  unfold importRound at h
  split at h
  · rename_i hlast
    cases h
    exact .inl ⟨hlast.2, rfl⟩
  · split at h
    · rename_i hsearch
      cases h
      exact .inr (.inl ⟨hsearch, rfl⟩)
    · cases h
    · rename_i nPos hsearch
      split at h
      · rename_i hlast
        cases h
        exact .inr (.inr ⟨nPos, hsearch, .inl ⟨hlast, rfl⟩⟩)
      · exact .inr (.inr ⟨nPos, hsearch, .inr h⟩)

theorem importRound_visits (h : importRound p file s = .next t ∨ importRound p file s = .done t) :
    ∀ v ∈ s.visits, v ∈ t.visits := by
  intro v hv
  rcases h with h | h
  · rcases importRound_next h with ⟨-, hvis⟩ | ⟨nPos, -, hread⟩
    · rwa [hvis]
    · obtain ⟨outcome, hvis, -⟩ := readRecord_next hread
      rw [hvis]
      exact List.mem_append_left _ hv
  · rcases importRound_done h with ⟨-, hvis⟩ | ⟨-, hvis⟩ | ⟨nPos, -, ⟨-, hvis⟩ | hread⟩
    · rwa [hvis]
    · rwa [hvis]
    · rwa [hvis]
    · obtain ⟨outcome, hvis, -⟩ := readRecord_done hread
      rw [hvis]
      exact List.mem_append_left _ hv

end

/-! ## Records that are written -/

def frame (network : Network) (block : CBlock) : List UInt8 :=
  MessageStart network ++ (writeUInt32 (UInt32.ofNat (writeBlock block).length) ++ writeBlock block)

theorem length_messageStart (network : Network) :
    (MessageStart network).length = MESSAGE_START_SIZE := by
  obtain ⟨a, b, c, d, hstart, -, -, -⟩ := messageStart_eq network
  rw [hstart]
  rfl

theorem writeBlock_ne_nil (h : Writable.Block block) : writeBlock block ≠ [] := by
  intro hnil
  have hread := (reads_block h).run
  rw [hnil] at hread
  cases hread

theorem recordAt_frame {network : Network} {block : CBlock} (h : Writable.Block block)
    (hlen : (writeBlock block).length < 2 ^ 32) (before after : List UInt8) :
    RecordAt network (before ++ (frame network block ++ after)) before.length
      (UInt32.ofNat (writeBlock block).length) block := by
  have hstart := length_messageStart network
  constructor
  · unfold StartsAt frame
    rw [List.drop_left, List.append_assoc, ← hstart, List.take_left]
  · intro hzero
    have hne := List.length_pos_of_ne_nil (writeBlock_ne_nil h)
    have htoNat := congrArg UInt32.toNat hzero
    rw [UInt32.toNat_ofNat_of_lt' hlen, UInt32.toNat_zero] at htoNat
    omega
  · use writeBlock block ++ after, after
    constructor
    · unfold frame
      rw [← List.drop_drop, List.drop_left, List.append_assoc, ← hstart, List.drop_left,
        List.append_assoc]
      exact reads_uint32 _ _
    · exact reads_block h after

/-! ## The whole import -/

/-- The file is so short that the position does not wrap around, neither behind the buffer nor behind a
block. -/
def Fits (p : Importer σ) (file : List UInt8) : Prop :=
  ∀ node, file.length + pchDataSize + (p.MAX_BLOCK_SIZE node).toNat < 2 ^ 32

section

variable {r : Import σ}

variable (hfits : Fits p file)
include hfits

theorem Fits.buffer (node : σ) : file.length + pchDataSize < 2 ^ 32 := by
  have := hfits node
  omega

variable {nSize : UInt32} {pos : ℕ}

theorem Fits.toNat_behind {node : σ} (hnPos : nPos.toNat ≤ file.length)
    (hlim : nSize ≤ p.MAX_BLOCK_SIZE node) :
    (nPos + (4 + nSize)).toNat = nPos.toNat + 4 + nSize.toNat := by
  have hbuffer : pchDataSize = 65536 := rfl
  have hfour : (4 : UInt32).toNat = 4 := rfl
  have hsize : nSize.toNat ≤ (p.MAX_BLOCK_SIZE node).toNat := UInt32.le_iff_toNat_le.mp hlim
  have hnode := hfits node
  rw [UInt32.toNat_add, UInt32.toNat_add, hfour, Nat.mod_eq_of_lt (show 4 + nSize.toNat < 2 ^ 32 by omega),
    Nat.mod_eq_of_lt (by omega), Nat.add_assoc]

theorem importRound_advances (h : importRound p file s = .next t) :
    s.nPos.toNat + 8 < file.length ∧ s.nPos.toNat < t.nPos.toNat := by
  have hsize : MESSAGE_START_SIZE = 4 := rfl
  rcases importRound_next h with ⟨hsearch, -⟩ | ⟨nPos, hsearch, hread⟩
  · obtain ⟨hin, hlt, -⟩ := searchAt_next (hfits.buffer s.node) hsearch
    exact ⟨hin, hlt⟩
  · obtain ⟨hin, q, hq, hle, hend, -, -⟩ := searchAt_found (hfits.buffer s.node) hsearch
    obtain ⟨outcome, -, hnPos | ⟨nSize, block, -, hlim, hnPos⟩⟩ := readRecord_next hread
    · rw [hnPos]
      omega
    · rw [hnPos, hfits.toNat_behind (by omega) hlim]
      omega

theorem runLoop_import {rounds : ℕ} (hrnds : file.length < rounds) :
    ∃ r, runLoop (importRound p file) rounds s = some r := by
  have hdecr : ∀ s t, True → importRound p file s = .next t →
      True ∧ file.length - t.nPos.toNat < file.length - s.nPos.toNat := by
    intro s t _ hrnd
    have hadvances := importRound_advances hfits hrnd
    exact ⟨trivial, by omega⟩
  exact runLoop_of_decreasing hdecr trivial (by omega)

theorem importRound_settles (h : importRound p file s = .next t)
    (hrec : RecordAt p.network file pos nSize block) (hpos : s.nPos.toNat ≤ pos) :
    t.nPos.toNat ≤ pos ∨ t.Settles pos nSize block := by
  have hlen := hrec.lt_length
  have hsize : MESSAGE_START_SIZE = 4 := rfl
  rcases importRound_next h with ⟨hsearch, -⟩ | ⟨nPos, hsearch, hread⟩
  · obtain ⟨-, -, hbehind⟩ := searchAt_next (hfits.buffer s.node) hsearch
    exact .inl (hbehind pos hrec.start hpos hlen)
  · obtain ⟨-, q, hq, -, hend, hstart, hfst⟩ := searchAt_found (hfits.buffer s.node) hsearch
    have hvisit : nPos.toNat - MESSAGE_START_SIZE = q := by omega
    rcases Nat.eq_or_lt_of_le (hfst pos hrec.start hpos) with rfl | hlt
    · -- it is the record that is read
      have hreads := hrec.reads
      rw [← hq] at hreads
      obtain ⟨outcome, hhandles, hvis⟩ := readRecord_handles (p := p) (s := s) hrec.size hreads
      refine .inr (.inl ⟨⟨q, outcome⟩, ?_, rfl, hhandles⟩)
      rw [hvis t (.inl hread), hvisit]
      exact List.mem_append_right _ List.mem_cons_self
    · have hapart := hrec.start.apart hstart hlt
      obtain ⟨outcome, hvis, hnPos | ⟨n, b, houtcome, hlim, hnPos⟩⟩ := readRecord_next hread
      · left
        rw [hnPos]
        omega
      · by_cases hspan : pos < q + 8 + n.toNat
        · refine .inr (.inr (.inr ⟨⟨q, outcome⟩, ?_, hlt, n, b, houtcome, hspan⟩))
          rw [hvis, hvisit]
          exact List.mem_append_right _ List.mem_cons_self
        · left
          rw [hnPos, hfits.toNat_behind (by omega) hlim]
          omega

omit hfits

theorem importRound_done_settles (hfits : file.length + pchDataSize < 2 ^ 32)
    (h : importRound p file s = .done r) (hrec : RecordAt p.network file pos nSize block)
    (hpos : s.nPos.toNat ≤ pos) : r.Settles pos nSize block := by
  have hlen := hrec.lt_length
  have hsize : MESSAGE_START_SIZE = 4 := rfl
  have hlast : (0xffffffff : UInt32).toNat = 2 ^ 32 - 1 := rfl
  have hbuffer : pchDataSize = 65536 := rfl
  rcases importRound_done h with ⟨hnPos, -⟩ | ⟨hsearch, -⟩ | ⟨nPos, hsearch, hfound⟩
  · rw [hnPos, hlast] at hpos
    omega
  · have hended := searchAt_ended hsearch
    omega
  · obtain ⟨-, q, hq, -, hend, hstart, hfst⟩ := searchAt_found hfits hsearch
    have hvisit : nPos.toNat - MESSAGE_START_SIZE = q := by omega
    rcases hfound with ⟨hnPos, -⟩ | hread
    · rw [hnPos, hlast] at hq
      omega
    · rcases Nat.eq_or_lt_of_le (hfst pos hrec.start hpos) with rfl | hlt
      · have hreads := hrec.reads
        rw [← hq] at hreads
        obtain ⟨outcome, hhandles, hvis⟩ := readRecord_handles (p := p) (s := s) hrec.size hreads
        refine .inl ⟨⟨q, outcome⟩, ?_, rfl, hhandles⟩
        rw [hvis r (.inr hread), hvisit]
        exact List.mem_append_right _ List.mem_cons_self
      · obtain ⟨outcome, hvis, hthrew⟩ := readRecord_done hread
        refine .inr (.inl ⟨⟨q, outcome⟩, ?_, hlt, hthrew⟩)
        rw [hvis, hvisit]
        exact List.mem_append_right _ List.mem_cons_self

theorem Import.Settles.mono (h : s.Settles pos nSize block) (hvis : ∀ v ∈ s.visits, v ∈ r.visits) :
    r.Settles pos nSize block := by
  rcases h with ⟨v, hv, h⟩ | ⟨v, hv, h⟩ | ⟨v, hv, h⟩
  · exact .inl ⟨v, hvis v hv, h⟩
  · exact .inr (.inl ⟨v, hvis v hv, h⟩)
  · exact .inr (.inr ⟨v, hvis v hv, h⟩)

theorem runLoop_settles (hfits : Fits p file) {rounds : ℕ}
    (h : runLoop (importRound p file) rounds s = some r) :
    (∀ v ∈ s.visits, v ∈ r.visits) ∧ ∀ pos nSize block, RecordAt p.network file pos nSize block →
      s.nPos.toNat ≤ pos → r.Settles pos nSize block := by
  apply runLoop_spec (P := fun s r => (∀ v ∈ s.visits, v ∈ r.visits) ∧
    ∀ pos nSize block, RecordAt p.network file pos nSize block →
      s.nPos.toNat ≤ pos → r.Settles pos nSize block) ?_ ?_ h
  · intro s r hrnd
    constructor
    · exact importRound_visits (.inr hrnd)
    · intro pos nSize block hrec hpos
      exact importRound_done_settles (hfits.buffer s.node) hrnd hrec hpos
  · intro s t r hrnd ⟨hvis, hlater⟩
    constructor
    · intro v hv
      exact hvis v (importRound_visits (.inl hrnd) v hv)
    · intro pos nSize block hrec hpos
      rcases importRound_settles hfits hrnd hrec hpos with hle | hsettles
      · exact hlater pos nSize block hrec hle
      · exact hsettles.mono hvis

end

/-- Importing a file that is short enough for its position comes to an end: each round that goes on does
so at a later position, and each record is passed to `ProcessBlock` or above the size limit, unless an
earlier one throws or it lies in the span of an earlier one that is accepted. -/
theorem LoadExternalBlockFile_settles (p : Importer σ) (file : List UInt8)
    (hfits : Fits p file)
    (rounds : ℕ) (hrounds : file.length < rounds) (node : σ) :
    (∀ s t, importRound p file s = .next t → s.nPos < t.nPos) ∧
    ∃ fLoaded r, LoadExternalBlockFile p file rounds node = some (fLoaded, r) ∧
      ∀ pos nSize block, RecordAt p.network file pos nSize block → r.Settles pos nSize block := by
  constructor
  · intro s t hround
    exact UInt32.lt_iff_toNat_lt.mpr (importRound_advances hfits hround).2
  · obtain ⟨r, hr⟩ := @runLoop_import σ file p ⟨0, false, 0, node, []⟩ hfits rounds hrounds
    have hsettles := (runLoop_settles hfits hr).2
    unfold LoadExternalBlockFile
    rw [hr]
    refine ⟨_, _, rfl, ?_⟩
    intro pos nSize block hrecord
    exact hsettles pos nSize block hrecord (Nat.zero_le pos)

def recorder : Importer (List CBlock) where
  network := .main
  MAX_BLOCK_SIZE := fun _ => 20512000
  ProcessBlock := fun block blocks => (some false, blocks ++ [block])

def emptyBlock : CBlock := ⟨⟨1, 0, 0, 0, 0, 0⟩, [], []⟩

theorem writable_emptyBlock : Writable.Block emptyBlock :=
  ⟨by unfold FitsBytes; decide, ⟨by decide, fun _ htx => absurd htx List.not_mem_nil⟩, by decide⟩

def resumedFile : List UInt8 := MessageStart .main ++ frame .main emptyBlock

theorem resumedFile_settles : Fits recorder resumedFile ∧ resumedFile.length < 100 ∧
    RecordAt .main resumedFile 4 82 emptyBlock ∧
    ∃ fLoaded r, LoadExternalBlockFile recorder resumedFile 100 [] = some (fLoaded, r) ∧
      r.Settles 4 82 emptyBlock := by
  have hfits : Fits recorder resumedFile := by
    intro _
    change resumedFile.length + pchDataSize + 20512000 < 2 ^ 32
    decide
  have hlength : resumedFile.length < 100 := by decide
  have hrecord : RecordAt .main resumedFile 4 82 emptyBlock := by
    have hframe := @recordAt_frame .main emptyBlock writable_emptyBlock (by decide)
      (MessageStart .main) []
    exact hframe
  obtain ⟨-, fLoaded, r, hr, hsettles⟩ :=
    LoadExternalBlockFile_settles recorder resumedFile hfits 100 hlength []
  exact ⟨hfits, hlength, hrecord, fLoaded, r, hr, hsettles 4 82 emptyBlock hrecord⟩

/-! ## A file that is too long -/

/-- A file without the first byte of the message start that is longer than the position can count is
searched for ever. -/
theorem LoadExternalBlockFile_long (p : Importer σ) (hlong : 2 ^ 32 + 8 ≤ file.length)
    (hnone : ∀ b ∈ file, b ≠ (MessageStart p.network).headD 0) (rounds : ℕ) (node : σ) :
    LoadExternalBlockFile p file rounds node = none := by
  have hgo : ∀ s : Import σ, ¬(s.fSearching = false ∧ s.nPos = 0xffffffff) →
      ∃ t, importRound p file s = .next t ∧ ¬(t.fSearching = false ∧ t.nPos = 0xffffffff) := by
    intro s hs
    have hbuffer : pchDataSize = 65536 := rfl
    have hnPos := s.nPos.toNat_lt
    have hsearch : searchAt (MessageStart p.network) file s.nPos
        = .next (s.nPos + UInt32.ofNat (pchDataSize - MESSAGE_START_SIZE + 1)) := by
      unfold searchAt
      dsimp only
      rw [length_pchData, if_neg (by omega), List.findIdx?_eq_none_iff.mpr]
      intro b hb
      have hmem : b ∈ file := List.mem_of_mem_drop (List.mem_of_mem_take (List.mem_of_mem_take hb))
      exact beq_false_of_ne (hnone b hmem)
    use { s with nPos := s.nPos + UInt32.ofNat (pchDataSize - MESSAGE_START_SIZE + 1), fSearching := true }
    constructor
    · unfold importRound
      rw [if_neg hs, hsearch]
    · rintro ⟨hfalse, -⟩
      cases hfalse
  unfold LoadExternalBlockFile
  rw [runLoop_eq_none hgo (by rintro ⟨-, hzero⟩; cases hzero)]
  rfl

/-! ## Where the import gives up -/

def brokenFile : List UInt8 :=
  MessageStart .main ++ (writeUInt32 89 ++ (List.replicate 80 0 ++ (List.replicate 9 255
    ++ frame .main emptyBlock)))

/-- The frame behind the malformed record is not passed to `ProcessBlock`; and a long file of zeros is
searched for ever. -/
theorem brokenFile_not_resumed :
    (RecordAt .main brokenFile 97 82 emptyBlock ∧
      ∃ fLoaded r, LoadExternalBlockFile recorder brokenFile 10 [] = some (fLoaded, r) ∧
        r.node = []) ∧
    ∀ rounds, LoadExternalBlockFile recorder (List.replicate (2 ^ 33) 0) rounds [] = none := by
  have hrecord : RecordAt .main brokenFile 97 82 emptyBlock := by
    have hframe := @recordAt_frame .main emptyBlock writable_emptyBlock (by decide)
      (MessageStart .main ++ (writeUInt32 89 ++ (List.replicate 80 0 ++ List.replicate 9 255))) []
    exact hframe
  have hrun : (LoadExternalBlockFile recorder brokenFile 10 []).map (fun result => result.2.node)
      = some [] := by decide +kernel
  constructor
  · obtain ⟨⟨fLoaded, r⟩, hr, hnode⟩ := Option.map_eq_some_iff.mp hrun
    exact ⟨hrecord, fLoaded, r, hr, hnode⟩
  · intro rounds
    apply LoadExternalBlockFile_long
    · rw [List.length_replicate]
      norm_num
    · intro b hb
      rw [List.eq_of_mem_replicate hb]
      decide

end ZalemCoin.Storage
