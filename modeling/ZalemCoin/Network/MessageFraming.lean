import ZalemCoin.Storage.Serialize

/-!
# Cutting a stream into messages

`ReceiveMsgBytes` takes the bytes of a peer as they arrive. Each message is a header of 24 bytes, which
tells the size of the data that follow it. The bytes are copied into the header's buffer and into one
for the data that grows with them. `takeByte` says what a single byte does to the messages: a call is
the bytes of its chunk one after the other, so it does not matter where a stream is cut into chunks.
-/

namespace ZalemCoin.Network

open Lib Storage
open List (length_take append_nil length_append foldlM_cons append_assoc length_take_of_le)

/-- Differences and sums of 32-bit positions. -/
def sub32 (a b : ℕ) : ℕ := (a + 2 ^ 32 - b) % 2 ^ 32
def add32 (a b : ℕ) : ℕ := (a + b) % 2 ^ 32

structure CMessageHeader where
  pchMessageStart : List UInt8
  pchCommand : List UInt8
  nMessageSize : ℕ
  nChecksum : ℕ
deriving DecidableEq

namespace CMessageHeader

def ofBytes (hdrbuf : List UInt8) : CMessageHeader where
  pchMessageStart := hdrbuf.take 4
  pchCommand := (hdrbuf.drop 4).take 12
  nMessageSize := ofLittleEndian ((hdrbuf.drop 16).take 4)
  nChecksum := ofLittleEndian ((hdrbuf.drop 20).take 4)

def bytes (hdr : CMessageHeader) : List UInt8 :=
  hdr.pchMessageStart ++ hdr.pchCommand ++ littleEndian 4 hdr.nMessageSize
    ++ littleEndian 4 hdr.nChecksum

theorem bytes_ofBytes {hdrbuf : List UInt8} (h : hdrbuf.length = 24) :
    (ofBytes hdrbuf).bytes = hdrbuf := by
  have hnum : ∀ k, k + 4 ≤ 24 →
      littleEndian 4 (ofLittleEndian ((hdrbuf.drop k).take 4)) = (hdrbuf.drop k).take 4 := by
    intro k hk
    have hlen : ((hdrbuf.drop k).take 4).length = 4 := by
      rw [length_take, List.length_drop]
      omega
    have := littleEndian_ofLittleEndian ((hdrbuf.drop k).take 4)
    rwa [hlen] at this
  have hjoin : ∀ k n, (hdrbuf.take k) ++ (hdrbuf.drop k).take n = hdrbuf.take (k + n) :=
    fun k n => List.take_add.symm
  unfold bytes ofBytes
  rw [hnum 16 (by decide), hnum 20 (by decide), hjoin, hjoin, hjoin]
  exact List.take_of_length_le h.le

end CMessageHeader

structure CNetMessage where
  in_data : Bool
  hdrbuf : List UInt8
  hdr : CMessageHeader
  nHdrPos : ℕ
  vRecv : List UInt8
  nDataPos : ℕ

/-- Copies bytes into a buffer, or `none` when they do not all fit behind the position. -/
def memcpy (buf : List UInt8) (pos : ℕ) (src : List UInt8) : Option (List UInt8) :=
  if pos + src.length ≤ buf.length then
    some (buf.take pos ++ src ++ buf.drop (pos + src.length))
  else none

/-- A buffer of another size. -/
def resize (buf : List UInt8) (n : ℕ) : List UInt8 := buf.take n ++ List.replicate (n - buf.length) 0

def currentMessage {M : Type} (new : M) (complete : M → Bool) : List M → M × List M
  | [] => (new, [])
  | msg :: msgs => if complete msg then (new, msg :: msgs) else (msg, msgs)

variable {M : Type} {hdr : CMessageHeader} {payload d : List UInt8} {vRecvMsg : List CNetMessage}

theorem currentMessage_open {new msg : M} {complete : M → Bool} (h : complete msg = false)
    (msgs : List M) : currentMessage new complete (msg :: msgs) = (msg, msgs) := by
  dsimp only [currentMessage]
  rw [h, if_neg Bool.false_ne_true]

theorem complete_currentMessage {new : M} {complete : M → Bool} (hnew : complete new = false)
    (msgs : List M) : complete (currentMessage new complete msgs).1 = false := by
  cases msgs with
  | nil => exact hnew
  | cons msg msgs =>
    dsimp only [currentMessage]
    split
    · exact hnew
    · rename_i h
      exact Bool.eq_false_of_not_eq_true h

namespace CNetMessage

def init : CNetMessage where
  in_data := false
  hdrbuf := List.replicate 24 0
  hdr := CMessageHeader.ofBytes []
  nHdrPos := 0
  vRecv := []
  nDataPos := 0

def complete (msg : CNetMessage) : Bool := msg.in_data && msg.hdr.nMessageSize == msg.nDataPos

/-- Takes the bytes of a header: how many it took, or `none` when the message is too large. The
header is read from the buffer's 24 bytes, which is not used again. -/
def readHeader (msg : CNetMessage) (pch : List UInt8) : Option (Option ℕ × CNetMessage) := do
  let nCopy := min (sub32 24 msg.nHdrPos) pch.length
  let hdrbuf ← memcpy msg.hdrbuf msg.nHdrPos (pch.take nCopy)
  let msg := { msg with hdrbuf := hdrbuf, nHdrPos := add32 msg.nHdrPos nCopy }
  if msg.nHdrPos < 24 then some (some nCopy, msg)
  else
    let msg := { msg with hdr := CMessageHeader.ofBytes msg.hdrbuf }
    if msg.hdr.nMessageSize > MAX_SIZE then some (none, msg)
    else some (some nCopy, { msg with in_data := true })

def readData (msg : CNetMessage) (pch : List UInt8) : Option (Option ℕ × CNetMessage) := do
  let nCopy := min (sub32 msg.hdr.nMessageSize msg.nDataPos) pch.length
  let nEnd := add32 msg.nDataPos nCopy
  -- The buffer grows up to 256 KiB ahead, but never beyond the size of the message.
  let vRecv := if msg.vRecv.length < nEnd then
      resize msg.vRecv (min msg.hdr.nMessageSize (add32 nEnd (256 * 1024)))
    else msg.vRecv
  let vRecv ← memcpy vRecv msg.nDataPos (pch.take nCopy)
  some (some nCopy, { msg with vRecv := vRecv, nDataPos := nEnd })

def absorb (msg : CNetMessage) (pch : List UInt8) : Option (Option ℕ × CNetMessage) :=
  if msg.in_data then msg.readData pch else msg.readHeader pch

end CNetMessage

open CNetMessage (init)

/-- The loop of a call, for the given number of passes. The messages have the newest one in front. The
result says whether the call succeeds; it is `none` for a write outside a buffer, or when the passes
are used up. -/
def receiveLoop : ℕ → List CNetMessage → List UInt8 → Option (Bool × List CNetMessage)
  | _, vRecvMsg, [] => some (true, vRecvMsg)
  | 0, _, _ :: _ => none
  | n + 1, vRecvMsg, b :: pch => do
    let (msg, msgs) := currentMessage init CNetMessage.complete vRecvMsg
    match ← msg.absorb (b :: pch) with
    | (none, msg) => some (false, msg :: msgs)
    | (some handled, msg) => receiveLoop n (msg :: msgs) ((b :: pch).drop handled)

/-- Takes a chunk of the stream. -/
def ReceiveMsgBytes (vRecvMsg : List CNetMessage) (pch : List UInt8) :
    Option (Bool × List CNetMessage) :=
  receiveLoop pch.length vRecvMsg pch

/-- Takes chunk after chunk, until a call fails and the connection is closed. -/
def receiveChunks : List CNetMessage → List (List UInt8) → Option (Bool × List CNetMessage)
  | vRecvMsg, [] => some (true, vRecvMsg)
  | vRecvMsg, pch :: chunks => do
    let (fOk, vRecvMsg) ← ReceiveMsgBytes vRecvMsg pch
    if fOk then receiveChunks vRecvMsg chunks else some (false, vRecvMsg)

/-! ## One byte after the other -/

/-- What has been received of a message: bytes of a header, or a header and bytes of data. -/
inductive Received
  | header (bytes : List UInt8)
  | data (hdr : CMessageHeader) (payload : List UInt8)

namespace Received

def complete : Received → Bool
  | header _ => false
  | data hdr payload => hdr.nMessageSize == payload.length

def bytes : Received → List UInt8
  | header bytes => bytes
  | data hdr payload => hdr.bytes ++ payload

end Received

open Received (header data)

/-- What a byte does to the messages; the error has the header that is refused. -/
def takeByte (msgs : List Received) (b : UInt8) : Except (List Received) (List Received) :=
  match currentMessage (header []) Received.complete msgs with
  | (header bytes, msgs) =>
    if (bytes ++ [b]).length < 24 then .ok (header (bytes ++ [b]) :: msgs)
    else if (CMessageHeader.ofBytes (bytes ++ [b])).nMessageSize > MAX_SIZE then
      .error (header (bytes ++ [b]) :: msgs)
    else .ok (data (CMessageHeader.ofBytes (bytes ++ [b])) [] :: msgs)
  | (data hdr payload, msgs) => .ok (data hdr (payload ++ [b]) :: msgs)

theorem takeByte_header (h : List UInt8) (msgs : List Received) (b : UInt8) :
    takeByte (header h :: msgs) b = if (h ++ [b]).length < 24 then .ok (header (h ++ [b]) :: msgs)
      else if (CMessageHeader.ofBytes (h ++ [b])).nMessageSize > MAX_SIZE then
        .error (header (h ++ [b]) :: msgs)
      else .ok (data (CMessageHeader.ofBytes (h ++ [b])) [] :: msgs) := rfl

theorem takeByte_data (h : payload.length < hdr.nMessageSize) (msgs : List Received) (b : UInt8) :
    takeByte (data hdr payload :: msgs) b = .ok (data hdr (payload ++ [b]) :: msgs) := by
  have hnot : (data hdr payload).complete = false := beq_false_of_ne (by omega)
  unfold takeByte
  rw [currentMessage_open hnot]

theorem takeBytes_header {h : List UInt8} (hlt : h.length + d.length < 24) (msgs : List Received) :
    d.foldlM takeByte (header h :: msgs) = .ok (header (h ++ d) :: msgs) := by
  induction d generalizing h with
  | nil => rw [append_nil]; rfl
  | cons b d ih =>
    rw [List.length_cons] at hlt
    have hnext : (h ++ [b]).length + d.length < 24 := by
      rw [length_append, List.length_singleton]
      omega
    rw [foldlM_cons, takeByte_header, if_pos (by omega)]
    exact (ih hnext).trans (by rw [append_assoc, List.singleton_append])

theorem takeBytes_header_full {h d : List UInt8} (hlt : h.length < 24)
    (hfull : h.length + d.length = 24) (msgs : List Received) :
    d.foldlM takeByte (header h :: msgs)
      = if (CMessageHeader.ofBytes (h ++ d)).nMessageSize > MAX_SIZE then
          .error (header (h ++ d) :: msgs)
        else .ok (data (CMessageHeader.ofBytes (h ++ d)) [] :: msgs) := by
  have hne : d ≠ [] := by
    rintro rfl
    rw [List.length_nil] at hfull
    omega
  obtain ⟨d, b, rfl⟩ : ∃ d' b, d = d' ++ [b] := ⟨_, _, (List.dropLast_append_getLast hne).symm⟩
  rw [length_append, List.length_singleton] at hfull
  rw [List.foldlM_append, takeBytes_header (by omega)]
  change [b].foldlM takeByte (header (h ++ d) :: msgs) = _
  rw [foldlM_cons, takeByte_header, if_neg (by simp; omega), append_assoc]
  split <;> rfl

theorem takeBytes_data (hle : payload.length + d.length ≤ hdr.nMessageSize) (msgs : List Received) :
    d.foldlM takeByte (data hdr payload :: msgs) = .ok (data hdr (payload ++ d) :: msgs) := by
  induction d generalizing payload with
  | nil => rw [append_nil]; rfl
  | cons b d ih =>
    rw [List.length_cons] at hle
    have hnext : (payload ++ [b]).length + d.length ≤ hdr.nMessageSize := by
      rw [length_append, List.length_singleton]
      omega
    rw [foldlM_cons, takeByte_data (by omega)]
    exact (ih hnext).trans (by rw [append_assoc, List.singleton_append])

theorem takeBytes_current (msgs : List Received) (hd : d ≠ []) :
    d.foldlM takeByte msgs = d.foldlM takeByte
      ((currentMessage (header []) Received.complete msgs).1
        :: (currentMessage (header []) Received.complete msgs).2) := by
  obtain ⟨b, d, rfl⟩ := List.exists_cons_of_ne_nil hd
  rw [foldlM_cons, foldlM_cons]
  congr 1
  unfold takeByte
  rw [currentMessage_open (complete_currentMessage rfl msgs)]

/-! ## The copies -/

namespace CNetMessage

def received (msg : CNetMessage) : Received :=
  if msg.in_data then data msg.hdr (msg.vRecv.take msg.nDataPos)
  else header (msg.hdrbuf.take msg.nHdrPos)

/-- The positions are within the buffers, and the data's buffer within the size of the message. -/
structure Fits (msg : CNetMessage) : Prop where
  hdrbuf : msg.hdrbuf.length = 24
  nHdrPos : msg.nHdrPos ≤ 24
  nDataPos : msg.in_data → msg.nDataPos ≤ msg.vRecv.length
  vRecv : msg.in_data → msg.vRecv.length ≤ msg.hdr.nMessageSize
  size : msg.in_data → msg.hdr.nMessageSize ≤ MAX_SIZE
  fresh : msg.in_data = false → msg.vRecv = [] ∧ msg.nDataPos = 0

variable {msg : CNetMessage} {pch : List UInt8}

theorem Fits.complete_received (h : msg.Fits) : msg.received.complete = msg.complete := by
  unfold received complete
  cases hin : msg.in_data with
  | false => rfl
  | true =>
    rw [if_pos rfl]
    dsimp only [Received.complete]
    rw [length_take, Nat.min_eq_left (h.nDataPos hin), Bool.true_and]

theorem init_fits : init.Fits :=
  ⟨rfl, by decide, by decide, by decide, by decide, fun _ => ⟨rfl, rfl⟩⟩

theorem take_memcpy {buf src : List UInt8} {pos : ℕ} (h : pos + src.length ≤ buf.length) :
    ∃ buf', memcpy buf pos src = some buf' ∧ buf'.length = buf.length
      ∧ buf'.take (pos + src.length) = buf.take pos ++ src := by
  have htake : (buf.take pos).length = pos := length_take_of_le (by omega)
  unfold memcpy
  rw [if_pos h]
  refine ⟨_, rfl, ?_, ?_⟩
  · rw [length_append, length_append, htake, List.length_drop]
    omega
  · exact List.take_left' (by rw [length_append, htake])

/-- What a pass does with the bytes that it takes from the front. -/
def Takes (msg : CNetMessage) (pch : List UInt8) (r : Option (Option ℕ × CNetMessage)) : Prop :=
  ∃ n msg', 0 < n ∧ n ≤ pch.length ∧ msg'.Fits
    ∧ ((r = some (some n, msg') ∧ (msg'.in_data = false → msg'.nHdrPos < 24)
        ∧ ∀ msgs, (pch.take n).foldlM takeByte (msg.received :: msgs) = .ok (msg'.received :: msgs))
      ∨ (r = some (none, msg')
        ∧ ∀ msgs, (pch.take n).foldlM takeByte (msg.received :: msgs) = .error (msg'.received :: msgs)))

/-- Reading a header takes bytes and keeps within the buffer. -/
theorem Fits.readHeader (h : msg.Fits) (hin : msg.in_data = false) (hpos : msg.nHdrPos < 24)
    (hne : pch ≠ []) : msg.Takes pch (msg.readHeader pch) := by
  have hlen : 0 < pch.length := List.length_pos_iff.mpr hne
  obtain ⟨nCopy, hnCopy⟩ : ∃ n, min (sub32 24 msg.nHdrPos) pch.length = n := ⟨_, rfl⟩
  have hcopy : nCopy = min (24 - msg.nHdrPos) pch.length := by
    rw [← hnCopy]
    unfold sub32
    omega
  have hsum : add32 msg.nHdrPos nCopy = msg.nHdrPos + nCopy := by
    unfold add32
    omega
  have htake : (pch.take nCopy).length = nCopy := length_take_of_le (by omega)
  have hbuf := h.hdrbuf
  obtain ⟨buf, hmemcpy, hlength, hfront⟩ :=
    @take_memcpy msg.hdrbuf (pch.take nCopy) msg.nHdrPos (by omega)
  rw [htake] at hfront
  have hreceived : msg.received = header (msg.hdrbuf.take msg.nHdrPos) := by
    unfold received
    rw [hin]
    rfl
  have hbef : (msg.hdrbuf.take msg.nHdrPos).length = msg.nHdrPos := length_take_of_le (by omega)
  obtain ⟨hvRecv, hnDataPos⟩ := h.fresh hin
  unfold CNetMessage.readHeader
  dsimp only [Option.bind_eq_bind]
  rw [hnCopy, hmemcpy, Option.bind_some, hsum]
  unfold Takes
  rw [hreceived]
  by_cases hshort : msg.nHdrPos + nCopy < 24
  · rw [if_pos hshort]
    refine ⟨nCopy, { msg with hdrbuf := buf, nHdrPos := msg.nHdrPos + nCopy }, by omega, by omega,
      ⟨hlength.trans hbuf, hshort.le, h.nDataPos, h.vRecv, h.size, h.fresh⟩,
      .inl ⟨rfl, fun _ => hshort, fun msgs => ?_⟩⟩
    rw [takeBytes_header (by omega), ← hfront]
    unfold received
    rw [if_neg (Bool.eq_false_iff.mp hin)]
  · rw [if_neg hshort]
    have hend : msg.nHdrPos + nCopy = 24 := by omega
    have hfull := @takeBytes_header_full (msg.hdrbuf.take msg.nHdrPos) (pch.take nCopy) (by omega)
      (by omega)
    rw [← hfront, hend, List.take_of_length_le (show buf.length ≤ 24 by omega)] at hfull
    by_cases hlarge : (CMessageHeader.ofBytes buf).nMessageSize > MAX_SIZE
    · rw [if_pos hlarge]
      refine ⟨nCopy, { msg with
        hdrbuf := buf, nHdrPos := msg.nHdrPos + nCopy, hdr := CMessageHeader.ofBytes buf }, by omega,
        by omega, ⟨hlength.trans hbuf, hend.le, ?_, ?_, ?_, h.fresh⟩, .inr ⟨rfl, fun msgs => ?_⟩⟩
      · exact h.nDataPos
      · exact fun htrue => absurd (hin.symm.trans htrue) Bool.false_ne_true
      · exact fun htrue => absurd (hin.symm.trans htrue) Bool.false_ne_true
      · rw [hfull, if_pos hlarge]
        unfold received
        rw [if_neg (Bool.eq_false_iff.mp hin), hend,
          List.take_of_length_le (show buf.length ≤ 24 by omega)]
    · rw [if_neg hlarge]
      refine ⟨nCopy, { msg with
        hdrbuf := buf, nHdrPos := msg.nHdrPos + nCopy, hdr := CMessageHeader.ofBytes buf,
        in_data := true }, by omega, by omega, ⟨hlength.trans hbuf, hend.le, ?_, ?_, ?_, ?_⟩,
        .inl ⟨rfl, fun hfalse => absurd hfalse.symm Bool.false_ne_true, fun msgs => ?_⟩⟩
      · exact fun _ => hnDataPos ▸ Nat.zero_le _
      · exact fun _ => hvRecv ▸ Nat.zero_le _
      · exact fun _ => not_lt.mp hlarge
      · exact fun hfalse => absurd hfalse.symm Bool.false_ne_true
      · rw [hfull, if_neg hlarge]
        unfold received
        rw [if_pos rfl, hnDataPos]
        rfl

theorem Fits.readData (h : msg.Fits) (hin : msg.in_data = true) (hnot : msg.complete = false)
    (hne : pch ≠ []) : msg.Takes pch (msg.readData pch) := by
  have hlen : 0 < pch.length := List.length_pos_iff.mpr hne
  have hle := h.nDataPos hin
  have hle' := h.vRecv hin
  have hmax := h.size hin
  have hmax' : MAX_SIZE = 0x02000000 := rfl
  have hroom : msg.nDataPos < msg.hdr.nMessageSize := by
    have hne : msg.hdr.nMessageSize ≠ msg.nDataPos := by
      unfold complete at hnot
      rw [hin, Bool.true_and] at hnot
      exact ne_of_beq_false hnot
    omega
  obtain ⟨nCopy, hnCopy⟩ : ∃ n, min (sub32 msg.hdr.nMessageSize msg.nDataPos) pch.length = n :=
    ⟨_, rfl⟩
  have hcopy : nCopy = min (msg.hdr.nMessageSize - msg.nDataPos) pch.length := by
    rw [← hnCopy]
    unfold sub32
    omega
  have hsum : add32 msg.nDataPos nCopy = msg.nDataPos + nCopy := by
    unfold add32
    omega
  have hahead : add32 (msg.nDataPos + nCopy) (256 * 1024) = msg.nDataPos + nCopy + 256 * 1024 := by
    unfold add32
    omega
  -- The grown buffer has room for the bytes, and begins with the ones before.
  obtain ⟨vRecv, hvRecv, hfit, hmost, hkept⟩ : ∃ vRecv, (if msg.vRecv.length < msg.nDataPos + nCopy
      then resize msg.vRecv (min msg.hdr.nMessageSize (msg.nDataPos + nCopy + 256 * 1024))
      else msg.vRecv) = vRecv ∧ msg.nDataPos + nCopy ≤ vRecv.length
        ∧ vRecv.length ≤ msg.hdr.nMessageSize
        ∧ vRecv.take msg.nDataPos = msg.vRecv.take msg.nDataPos := by
    refine ⟨_, rfl, ?_⟩
    split
    · rename_i hgrow
      unfold resize
      rw [length_append, length_take, List.length_replicate]
      refine ⟨by omega, by omega, ?_⟩
      rw [List.take_append_of_le_length (by rw [length_take]; omega), List.take_take,
        Nat.min_eq_left (by omega)]
    · exact ⟨by omega, by omega, rfl⟩
  have htake : (pch.take nCopy).length = nCopy := length_take_of_le (by omega)
  obtain ⟨buf, hmemcpy, hlength, hfront⟩ :=
    @take_memcpy vRecv (pch.take nCopy) msg.nDataPos (by omega)
  rw [htake, hkept] at hfront
  unfold CNetMessage.readData
  dsimp only [Option.bind_eq_bind]
  rw [hnCopy, hsum, hahead, hvRecv, hmemcpy, Option.bind_some]
  refine ⟨nCopy, { msg with vRecv := buf, nDataPos := msg.nDataPos + nCopy }, by omega, by omega,
    ⟨h.hdrbuf, h.nHdrPos, fun _ => show msg.nDataPos + nCopy ≤ buf.length by omega,
      fun _ => show buf.length ≤ msg.hdr.nMessageSize by omega, h.size, ?_⟩,
    .inl ⟨rfl, ?_, fun msgs => ?_⟩⟩
  · exact fun hfalse => absurd (hfalse.symm.trans hin) Bool.false_ne_true
  · exact fun hfalse => absurd (hfalse.symm.trans hin) Bool.false_ne_true
  · have hbef : (msg.vRecv.take msg.nDataPos).length = msg.nDataPos := length_take_of_le hle
    unfold received
    rw [if_pos hin, if_pos hin, takeBytes_data (by omega), hfront]

end CNetMessage

open CNetMessage (received Fits)

/-- The messages between two chunks: those before the newest one are complete. -/
structure Assembled (vRecvMsg : List CNetMessage) : Prop where
  fits : ∀ msg ∈ vRecvMsg, msg.Fits
  tail : ∀ msg ∈ vRecvMsg.tail, msg.complete = true

/-- Between two chunks, the newest message has room for a byte of its header, or has its header. -/
def Open (vRecvMsg : List CNetMessage) : Prop :=
  ∀ msg ∈ vRecvMsg.head?, msg.in_data = false → msg.nHdrPos < 24

theorem Assembled.current (h : Assembled vRecvMsg) (hopen : Open vRecvMsg) {msg : CNetMessage}
    {msgs : List CNetMessage}
    (hcur : currentMessage init CNetMessage.complete vRecvMsg = (msg, msgs)) :
    msg.Fits ∧ msg.complete = false ∧ (msg.in_data = false → msg.nHdrPos < 24)
      ∧ (∀ msg' ∈ msgs, msg'.Fits ∧ msg'.complete = true)
      ∧ currentMessage (header []) Received.complete (vRecvMsg.map received)
        = (msg.received, msgs.map received) := by
  have hincomplete := complete_currentMessage (show init.complete = false from rfl) vRecvMsg
  rw [hcur] at hincomplete
  cases vRecvMsg with
  | nil =>
    cases hcur
    exact ⟨CNetMessage.init_fits, rfl, fun _ => by decide, by simp, rfl⟩
  | cons newest older =>
    have hfits := h.fits newest List.mem_cons_self
    dsimp only [currentMessage] at hcur
    rw [List.map_cons]
    dsimp only [currentMessage]
    rw [hfits.complete_received]
    split at hcur
    · rename_i hcomp
      cases hcur
      refine ⟨CNetMessage.init_fits, rfl, fun _ => by decide, fun msg' hmem => ?_, by
        rw [if_pos hcomp]; rfl⟩
      refine ⟨h.fits msg' hmem, ?_⟩
      rcases List.mem_cons.mp hmem with rfl | hmem
      · exact hcomp
      · exact h.tail msg' hmem
    · rename_i hnot
      cases hcur
      exact ⟨hfits, hincomplete, hopen _ rfl, fun msg' hmem =>
        ⟨h.fits msg' (List.mem_cons_of_mem _ hmem), h.tail msg' hmem⟩, by rw [if_neg hnot]⟩

/-- What a call or a run of calls gives, for the bytes that it takes. -/
def Follows (vRecvMsg : List CNetMessage) (bytes : List UInt8)
    (r : Option (Bool × List CNetMessage)) : Prop :=
  ∃ fOk vRecvMsg', r = some (fOk, vRecvMsg') ∧ Assembled vRecvMsg' ∧ (fOk = true → Open vRecvMsg')
    ∧ bytes.foldlM takeByte (vRecvMsg.map received)
      = if fOk then .ok (vRecvMsg'.map received) else .error (vRecvMsg'.map received)

/-- A chunk is taken as its bytes are, one after the other. -/
theorem receiveLoop_follows (n : ℕ) {pch : List UInt8} (h : Assembled vRecvMsg)
    (hopen : Open vRecvMsg) (hn : pch.length ≤ n) :
    Follows vRecvMsg pch (receiveLoop n vRecvMsg pch) := by
  induction n generalizing vRecvMsg pch with
  | zero =>
    obtain rfl := List.length_eq_zero_iff.mp (Nat.le_zero.mp hn)
    exact ⟨true, vRecvMsg, rfl, h, fun _ => hopen, rfl⟩
  | succ n ih =>
    cases pch with
    | nil => exact ⟨true, vRecvMsg, rfl, h, fun _ => hopen, rfl⟩
    | cons b pch =>
      obtain ⟨msg, msgs, hcur⟩ : ∃ msg msgs,
          currentMessage init CNetMessage.complete vRecvMsg = (msg, msgs) := ⟨_, _, rfl⟩
      obtain ⟨hfits, hincomplete, hroom, hrest, hcurrent⟩ := h.current hopen hcur
      have hassembled : ∀ msg' : CNetMessage, msg'.Fits → Assembled (msg' :: msgs) :=
        fun msg' hfits' => ⟨by
          rintro m hm
          rcases List.mem_cons.mp hm with rfl | hm
          · exact hfits'
          · exact (hrest m hm).1, fun m hm => (hrest m hm).2⟩
      have htakes : msg.Takes (b :: pch) (msg.absorb (b :: pch)) := by
        unfold CNetMessage.absorb
        split
        · rename_i hin
          exact hfits.readData hin hincomplete (List.cons_ne_nil b pch)
        · rename_i hin
          have hin := Bool.eq_false_of_not_eq_true hin
          exact hfits.readHeader hin (hroom hin) (List.cons_ne_nil b pch)
      obtain ⟨k, msg', hpos, hle, hfits', hcase⟩ := htakes
      have hfront : ((b :: pch).take k).foldlM takeByte (vRecvMsg.map received)
          = ((b :: pch).take k).foldlM takeByte (msg.received :: msgs.map received) := by
        rw [takeBytes_current _ (by
          intro hnil
          have := congrArg List.length hnil
          rw [length_take, List.length_nil] at this
          omega), hcurrent]
      have hsplit := List.take_append_drop k (b :: pch)
      unfold receiveLoop Follows
      rw [hcur]
      dsimp only [Option.bind_eq_bind]
      rcases hcase with ⟨hread, hopen', htake⟩ | ⟨hread, htake⟩
      · rw [hread]
        obtain ⟨fOk, vRecvMsg', hrun, haft, hopen'', hfold⟩ :=
          @ih (msg' :: msgs) ((b :: pch).drop k) (hassembled msg' hfits')
            (fun m hm => by obtain rfl := Option.some.inj hm; exact hopen') (by
              rw [List.length_drop]
              omega)
        refine ⟨fOk, vRecvMsg', hrun, haft, hopen'', ?_⟩
        rw [← hsplit, List.foldlM_append, hfront, htake]
        exact hfold
      · rw [hread]
        refine ⟨false, msg' :: msgs, rfl, hassembled msg' hfits', nofun, ?_⟩
        rw [← hsplit, List.foldlM_append, hfront, htake]
        rfl

theorem receiveChunks_follows (chunks : List (List UInt8)) (h : Assembled vRecvMsg)
    (hopen : Open vRecvMsg) : Follows vRecvMsg chunks.flatten (receiveChunks vRecvMsg chunks) := by
  induction chunks generalizing vRecvMsg with
  | nil => exact ⟨true, vRecvMsg, rfl, h, fun _ => hopen, rfl⟩
  | cons pch chunks ih =>
    obtain ⟨fOk, vRecvMsg₁, hcall, h₁, hopen₁, hfold₁⟩ :=
      receiveLoop_follows pch.length h hopen le_rfl
    unfold receiveChunks Follows
    rw [show ReceiveMsgBytes vRecvMsg pch = some (fOk, vRecvMsg₁) from hcall, List.flatten_cons,
      List.foldlM_append, hfold₁]
    cases fOk with
    | true => exact ih h₁ (hopen₁ rfl)
    | false =>
      exact ⟨false, vRecvMsg₁, rfl, h₁, nofun, rfl⟩

/-- The bytes of messages, the oldest one first. -/
def bytesOf (msgs : List Received) : List UInt8 := msgs.reverse.flatMap Received.bytes

theorem bytesOf_cons (msg : Received) (msgs : List Received) :
    bytesOf (msg :: msgs) = bytesOf msgs ++ msg.bytes := by
  unfold bytesOf
  rw [List.reverse_cons, List.flatMap_append, List.flatMap_singleton]

/-- The newest header has room for a byte. -/
def Unfilled (msgs : List Received) : Prop := ∀ h, msgs.head? = some (header h) → h.length < 24

/-- A byte is kept, also when it fails. -/
theorem bytesOf_takeByte {msgs : List Received} (hopen : Unfilled msgs) (b : UInt8) :
    (∃ msgs', takeByte msgs b = .ok msgs' ∧ bytesOf msgs' = bytesOf msgs ++ [b] ∧ Unfilled msgs')
      ∨ ∃ msgs', takeByte msgs b = .error msgs' ∧ bytesOf msgs' = bytesOf msgs ++ [b] := by
  obtain ⟨msg, older, hcur⟩ : ∃ msg older,
      currentMessage (header []) Received.complete msgs = (msg, older) := ⟨_, _, rfl⟩
  have hbytes : bytesOf msgs = bytesOf older ++ msg.bytes ∧ ∀ h, msg = header h → h.length < 24 := by
    cases msgs with
    | nil =>
      obtain ⟨rfl, rfl⟩ := Prod.mk.inj hcur
      exact ⟨rfl, fun h heq => by obtain rfl := Received.header.inj heq; decide⟩
    | cons newest msgs =>
      dsimp only [currentMessage] at hcur
      split at hcur
      · obtain ⟨rfl, rfl⟩ := Prod.mk.inj hcur
        exact ⟨(append_nil _).symm, fun h heq => by obtain rfl := Received.header.inj heq; decide⟩
      · obtain ⟨rfl, rfl⟩ := Prod.mk.inj hcur
        exact ⟨bytesOf_cons newest msgs, fun h heq => hopen h (by rw [heq]; rfl)⟩
  unfold takeByte
  rw [hcur, hbytes.1, append_assoc]
  cases msg with
  | data hdr payload =>
    refine .inl ⟨_, rfl, ?_, fun h heq => by simp at heq⟩
    rw [bytesOf_cons]
    exact congrArg _ (append_assoc _ _ _).symm
  | header h =>
    have hlt := hbytes.2 h rfl
    dsimp only
    split
    · rename_i hshort
      refine .inl ⟨_, rfl, bytesOf_cons _ _, fun h' heq => ?_⟩
      obtain rfl := Received.header.inj (Option.some.inj heq)
      exact hshort
    · rename_i hfull
      split
      · exact .inr ⟨_, rfl, bytesOf_cons _ _⟩
      · refine .inl ⟨_, rfl, ?_, fun h heq => by simp at heq⟩
        have hlen : (h ++ [b]).length = 24 := by
          rw [length_append, List.length_singleton] at hfull ⊢
          omega
        rw [bytesOf_cons]
        dsimp only [Received.bytes]
        rw [append_nil, CMessageHeader.bytes_ofBytes hlen]

theorem bytesOf_takeBytes (bytes : List UInt8) {msgs : List Received} (hopen : Unfilled msgs) :
    (∃ msgs', bytes.foldlM takeByte msgs = .ok msgs' ∧ bytesOf msgs' = bytesOf msgs ++ bytes)
      ∨ ∃ msgs', bytes.foldlM takeByte msgs = .error msgs'
        ∧ bytesOf msgs' <+: bytesOf msgs ++ bytes := by
  induction bytes generalizing msgs with
  | nil => exact .inl ⟨msgs, rfl, (append_nil _).symm⟩
  | cons b bytes ih =>
    have hcons : bytesOf msgs ++ b :: bytes = bytesOf msgs ++ [b] ++ bytes := by
      rw [append_assoc, List.singleton_append]
    rw [foldlM_cons, hcons]
    rcases bytesOf_takeByte hopen b with ⟨msgs₁, htake, hbytes, hopen₁⟩ | ⟨msgs₁, htake, hbytes⟩
    · rw [htake, ← hbytes]
      exact ih hopen₁
    · rw [htake, ← hbytes]
      exact .inr ⟨msgs₁, rfl, List.prefix_append _ _⟩

/-- However a stream is cut into chunks, the calls end, write nothing outside the buffers, and give
the messages and the failure that the whole stream gives in one call, which are those of its bytes one
after the other. Each byte that is taken is one of one header or of the data of one message, every
message before the newest one is complete, a full header has been read, so that a message without
data is complete, and the data of a complete message are its buffer. -/
theorem receiveChunks_independent (chunks : List (List UInt8)) :
    ∃ fOk vRecvMsg vRecvMsg', receiveChunks [] chunks = some (fOk, vRecvMsg)
      ∧ ReceiveMsgBytes [] chunks.flatten = some (fOk, vRecvMsg')
      ∧ vRecvMsg.map received = vRecvMsg'.map received
      ∧ chunks.flatten.foldlM takeByte []
        = (if fOk then .ok (vRecvMsg.map received) else .error (vRecvMsg.map received))
      ∧ bytesOf (vRecvMsg.map received) <+: chunks.flatten
      ∧ (fOk = true → bytesOf (vRecvMsg.map received) = chunks.flatten)
      ∧ (∀ msg ∈ vRecvMsg.tail, msg.complete = true)
      ∧ ∀ msg ∈ vRecvMsg, (fOk = true ∧ msg.nHdrPos = 24 → msg.in_data = true)
        ∧ (msg.in_data = true ∧ msg.hdr.nMessageSize = 0 → msg.complete = true)
        ∧ (msg.complete = true → msg.vRecv.length = msg.hdr.nMessageSize) := by
  have hempty : Assembled [] := ⟨by simp, by simp⟩
  have hopen : Open [] := by simp [Open]
  obtain ⟨fOk, vRecvMsg, hchunks, hassembled, hafter, hfold⟩ :=
    receiveChunks_follows chunks hempty hopen
  obtain ⟨fOk', vRecvMsg', hcall, -, -, hfold'⟩ :=
    receiveLoop_follows chunks.flatten.length hempty hopen le_rfl
  rw [hfold] at hfold'
  have hbytes := @bytesOf_takeBytes chunks.flatten [] (fun h heq => by simp at heq)
  rw [show ([] : List CNetMessage).map received = [] from rfl] at hfold
  rw [hfold] at hbytes
  have hmap : fOk = fOk' ∧ vRecvMsg.map received = vRecvMsg'.map received := by
    cases fOk <;> cases fOk' <;> simp at hfold' <;> exact ⟨rfl, hfold'⟩
  obtain ⟨rfl, hmap⟩ := hmap
  refine ⟨fOk, vRecvMsg, vRecvMsg', hchunks, hcall, hmap, hfold, ?_, ?_, hassembled.tail,
    fun msg hmsg => ⟨fun ⟨hOk, hfull⟩ => ?_, fun ⟨hin, hzero⟩ => ?_, fun hcomplete => ?_⟩⟩
  · rcases hbytes with ⟨msgs, heq, hall⟩ | ⟨msgs, heq, hprefix⟩ <;> cases fOk <;> simp at heq
    · rw [heq, hall]
      exact List.prefix_rfl
    · rw [heq]
      exact hprefix
  · rintro rfl
    rcases hbytes with ⟨msgs, heq, hall⟩ | ⟨msgs, heq, -⟩ <;> simp at heq
    rw [heq]
    exact hall
  · by_contra hnot
    have hnot := Bool.eq_false_of_not_eq_true hnot
    cases vRecvMsg with
    | nil => cases hmsg
    | cons newest older =>
      rcases List.mem_cons.mp hmsg with rfl | hmsg
      · exact absurd hfull (hafter hOk msg rfl hnot).ne
      · -- An older message is complete, so its header has been read.
        have hcomplete := hassembled.tail msg hmsg
        unfold CNetMessage.complete at hcomplete
        rw [hnot, Bool.false_and] at hcomplete
        cases hcomplete
  · have hfits := hassembled.fits msg hmsg
    have := hfits.nDataPos hin
    have := hfits.vRecv hin
    unfold CNetMessage.complete
    rw [hin, Bool.true_and, beq_iff_eq]
    omega
  · have hfits := hassembled.fits msg hmsg
    unfold CNetMessage.complete at hcomplete
    rw [Bool.and_eq_true, beq_iff_eq] at hcomplete
    have := hfits.nDataPos hcomplete.1
    have := hfits.vRecv hcomplete.1
    omega

/-- A message without data, the header of which comes in two chunks. -/
def emptyMessage : List (List UInt8) :=
  [[0xf9, 0xbe, 0xb4, 0xd9, 0x76, 0x65, 0x72, 0x61, 0x63, 0x6b],
    [0, 0, 0, 0, 0, 0, 0, 0, 0, 0, 0x5d, 0xf6, 0xe0, 0xe2]]

theorem emptyMessage_completed : ∃ vRecvMsg, receiveChunks [] emptyMessage = some (true, vRecvMsg)
    ∧ vRecvMsg.map received = [data (CMessageHeader.ofBytes emptyMessage.flatten) []]
    ∧ ∀ msg ∈ vRecvMsg, msg.complete = true := by
  obtain ⟨fOk, vRecvMsg, -, hchunks, -, -, hfold, -, -, -, hmsg⟩ :=
    receiveChunks_independent emptyMessage
  rw [show emptyMessage.flatten.foldlM takeByte []
    = .ok [data (CMessageHeader.ofBytes emptyMessage.flatten) []] from rfl] at hfold
  cases fOk with
  | false => cases hfold
  | true =>
    have hreceived := (Except.ok.inj hfold).symm
    refine ⟨vRecvMsg, hchunks, hreceived, fun msg hmem => ?_⟩
    have hdata : msg.received ∈ vRecvMsg.map received := List.mem_map_of_mem hmem
    rw [hreceived, List.mem_singleton, CNetMessage.received] at hdata
    split at hdata
    · rename_i hin
      refine (hmsg msg hmem).2.1 ⟨hin, ?_⟩
      rw [(Received.data.inj hdata).1]
      rfl
    · cases hdata

end ZalemCoin.Network
