import Mathlib.Data.List.TakeWhile
import ZalemCoin.Lib.DecimalText
import ZalemCoin.Storage.IndexFormat
import ZalemCoin.Wallet.CommitTransaction

/-!
# Wallet records in the database

The `Serialize` and `Unserialize` functions of `CWalletTx` and `CAccountingEntry`. Their newer fields are
written under names of their own in the map of the user, which are erased again afterwards. An accounting
entry has its map behind its comment, after a zero byte: a comment with such a byte of its own is cut off.
-/

namespace ZalemCoin.Wallet

open Chain Lib Storage
open SortedMap (find_erase ext_find find_insert)

/-! ## Numbers as texts -/

/-- The text of a number. -/
def i64tostr (n : ℤ) : List UInt8 := textBytes (toString n)

/-- `isspace` and `isdigit`. -/
def isSpace (b : UInt8) : Bool := isspace (Char.ofUInt8 b)
def isDigit (b : UInt8) : Bool := 48 ≤ b && b ≤ 57

/-- The number that the digits at the start of a text stand for. -/
def leadingDigits (s : List UInt8) : ℕ :=
  (s.takeWhile isDigit).foldl (fun n b => 10 * n + (b.toNat - 48)) 0

/-- The number at the start of a text, as far as 64 bits go. -/
def atoi64 (s : List UInt8) : ℤ :=
  let n : ℤ := match s.dropWhile isSpace with
    | 45 :: s => -leadingDigits s
    | 43 :: s => leadingDigits s
    | s => leadingDigits s
  max (-2 ^ 63) (min n (2 ^ 63 - 1))

/-! ## Maps -/

def writePair (p : List UInt8 × List UInt8) : List UInt8 := writeBytes p.1 ++ writeBytes p.2
def readPair : Reader (List UInt8 × List UInt8) := do
  let first ← readBytes
  let second ← readBytes
  pure (first, second)

/-- A map. Of entries with the same key the first one is kept. -/
def writeMap (m : mapValue_t) : List UInt8 := writeVector writePair m.entries
def readMap : Reader mapValue_t := do
  let nSize ← ReadCompactSize
  Reader.loop (fun _ m => do
    let item ← readPair
    pure (if (m.find item.1).isSome then m else m.insert item.1 item.2)) 0 nSize SortedMap.empty

/-- The names under which fields are written. -/
def keyFromAccount : List UInt8 := textBytes "fromaccount"
def keyVersion : List UInt8 := textBytes "version"
def keySpent : List UInt8 := textBytes "spent"
def keyOrderPos : List UInt8 := textBytes "n"
def keyTimeSmart : List UInt8 := textBytes "timesmart"

/-- All of them. -/
def fieldKeys : List (List UInt8) := [keyFromAccount, keyVersion, keySpent, keyOrderPos, keyTimeSmart]

def ReadOrderPos (mapValue : mapValue_t) : ℤ := ((mapValue.find keyOrderPos).map atoi64).getD (-1)
def WriteOrderPos (nOrderPos : ℤ) (mapValue : mapValue_t) : mapValue_t :=
  if nOrderPos = -1 then mapValue else mapValue.insert keyOrderPos (i64tostr nOrderPos)

/-! ## Transactions -/

def writeMerkleTx (m : CMerkleTx) : List UInt8 :=
  writeTransaction m.tx ++ (writeHash m.hashBlock
    ++ (writeVector writeHash m.vMerkleBranch ++ writeInt 4 m.nIndex))
def readMerkleTx : Reader CMerkleTx := do
  let tx ← readTransaction
  let hashBlock ← readHash
  let vMerkleBranch ← readVector readHash
  let nIndex ← readInt 4
  pure ⟨tx, hashBlock, vMerkleBranch, nIndex, false⟩

/-- A `char` that holds a truth value. -/
def writeFlag (f : Bool) : List UInt8 := littleEndian 1 f.toNat
def readFlag : Reader Bool := (fun n => n != 0) <$> Reader.takeNat 1

namespace WalletRecord

/-- The map of a transaction while it is written. -/
def savedMap (wtx : WalletRecord) : mapValue_t :=
  let mapValue := (wtx.mapValue.insert keyFromAccount wtx.strFromAccount).insert keySpent
    (wtx.vfSpent.map fun f => if f then 49 else 48)
  let mapValue := WriteOrderPos wtx.nOrderPos mapValue
  if wtx.nTimeSmart ≠ 0 then mapValue.insert keyTimeSmart (i64tostr wtx.nTimeSmart.toNat) else mapValue

def eraseFields (mapValue : mapValue_t) : mapValue_t :=
  fieldKeys.foldl SortedMap.erase mapValue

/-- Writes a transaction, and what is left of it. -/
def Serialize (wtx : WalletRecord) : List UInt8 × WalletRecord :=
  (writeMerkleTx wtx.toCMerkleTx ++ (writeVector writeMerkleTx wtx.vtxPrev ++ (writeMap wtx.savedMap
    ++ (writeVector writePair wtx.vOrderForm ++ (writeUInt32 wtx.fTimeReceivedIsTxTime
    ++ (writeUInt32 wtx.nTimeReceived ++ (writeFlag wtx.fFromMe ++ writeFlag (wtx.vfSpent.contains true))))))),
  { wtx with mapValue := eraseFields wtx.savedMap })

/-- Reads a transaction. -/
def Unserialize : Reader WalletRecord := do
  let m ← readMerkleTx
  let vtxPrev ← readVector readMerkleTx
  let mapValue ← readMap
  let vOrderForm ← readVector readPair
  let fTimeReceivedIsTxTime ← readUInt32
  let nTimeReceived ← readUInt32
  let fFromMe ← readFlag
  let fSpent ← readFlag
  pure {
    toCMerkleTx := m
    vtxPrev := vtxPrev
    mapValue := eraseFields mapValue
    vOrderForm := vOrderForm
    fTimeReceivedIsTxTime := fTimeReceivedIsTxTime
    nTimeReceived := nTimeReceived
    nTimeSmart := ((mapValue.find keyTimeSmart).map fun s => UInt32.ofInt (atoi64 s)).getD 0
    fFromMe := fFromMe
    strFromAccount := (mapValue.find keyFromAccount).getD []
    vfSpent := ((mapValue.find keySpent).map fun s => s.map (· != 48)).getD
      (List.replicate m.tx.vout.length fSpent)
    nOrderPos := ReadOrderPos mapValue }

end WalletRecord

/-! ## Accounting entries -/

structure CAccountingEntry where
  strAccount : List UInt8
  nCreditDebit : ℤ
  nTime : ℤ
  strOtherAccount : List UInt8
  strComment : List UInt8
  mapValue : mapValue_t
  nOrderPos : ℤ
  nEntryNo : UInt64
  /-- Bytes behind the map that a later version has written. -/
  ssExtra : List UInt8

namespace CAccountingEntry

/-- The comment of an entry while it is written, with the map behind a zero byte. -/
def savedComment (e : CAccountingEntry) : List UInt8 :=
  let mapValue := WriteOrderPos e.nOrderPos e.mapValue
  if mapValue.entries = [] ∧ e.ssExtra = [] then e.strComment
  else e.strComment ++ 0 :: (writeMap mapValue ++ e.ssExtra)

def Serialize (nType : UInt32) (nVersion : Int32) (e : CAccountingEntry) :
    List UInt8 × CAccountingEntry :=
  (writeStreamVersion nType nVersion ++ (writeInt 8 e.nCreditDebit ++ (writeInt 8 e.nTime
    ++ (writeBytes e.strOtherAccount ++ writeBytes e.savedComment))),
  { e with
    strComment := e.savedComment.takeWhile (· != 0)
    mapValue := (WriteOrderPos e.nOrderPos e.mapValue).erase keyOrderPos })

def readSaved (strComment ssExtra : List UInt8) : Reader (mapValue_t × List UInt8) :=
  match strComment.dropWhile (· != 0) with
  | [] => pure (SortedMap.empty, ssExtra)
  | _ :: ss => StateT.lift (readMap.run ss)

def Unserialize (nType : UInt32) (me : CAccountingEntry) : Reader CAccountingEntry := do
  readStreamVersion nType
  let nCreditDebit ← readInt 8
  let nTime ← readInt 8
  let strOtherAccount ← readBytes
  let strComment ← readBytes
  let (mapValue, ssExtra) ← readSaved strComment me.ssExtra
  pure { me with
    nCreditDebit := nCreditDebit
    nTime := nTime
    strOtherAccount := strOtherAccount
    strComment := strComment.takeWhile (· != 0)
    mapValue := mapValue.erase keyOrderPos
    nOrderPos := ReadOrderPos mapValue
    ssExtra := ssExtra }

end CAccountingEntry

/-! ## What is written is read back -/

def digitBytes (k : ℕ) : List UInt8 := (Nat.toDigits 10 k).map fun c => UInt8.ofNat c.toNat

theorem toNat_digit {k : ℕ} {c : Char} (hc : c ∈ Nat.toDigits 10 k) :
    (UInt8.ofNat c.toNat).toNat = c.toNat ∧ isDigit (UInt8.ofNat c.toNat) = true := by
  have hdigit := Nat.isDigit_of_mem_toDigits (by omega) (by omega) hc
  rw [Char.isDigit, Bool.and_eq_true, decide_eq_true_eq, decide_eq_true_eq] at hdigit
  have hlow : 48 ≤ c.toNat := hdigit.1
  have hhigh : c.toNat ≤ 57 := hdigit.2
  have heq : (UInt8.ofNat c.toNat).toNat = c.toNat := by
    rw [UInt8.toNat_ofNat']
    omega
  refine ⟨heq, ?_⟩
  rw [isDigit, Bool.and_eq_true, decide_eq_true_eq, decide_eq_true_eq, UInt8.le_iff_toNat_le,
    UInt8.le_iff_toNat_le, heq]
  exact ⟨hlow, hhigh⟩

theorem isDigit_cases {b : UInt8} (h : isDigit b = true) : isSpace b = false ∧ b ≠ 45 ∧ b ≠ 43 := by
  obtain ⟨n, rfl⟩ : ∃ n : Fin 256, b = UInt8.ofFin n := ⟨b.toFin, rfl⟩
  revert n
  decide +kernel

theorem leadingDigits_digitBytes (k : ℕ) : leadingDigits (digitBytes k) = k := by
  have hall : (digitBytes k).takeWhile isDigit = digitBytes k := by
    rw [← List.append_nil (digitBytes k), List.takeWhile_append_of_pos, List.takeWhile_nil]
    intro b hb
    obtain ⟨c, hc, rfl⟩ := List.mem_map.mp hb
    exact (toNat_digit hc).2
  unfold leadingDigits
  rw [hall]
  unfold digitBytes
  rw [List.foldl_map]
  calc (Nat.toDigits 10 k).foldl (fun n c => 10 * n + ((UInt8.ofNat c.toNat).toNat - 48)) 0
      = (Nat.toDigits 10 k).foldl (fun n c => 10 * n + (c.toNat - '0'.toNat)) 0 :=
        List.foldl_ext _ _ _ fun n c hc => by rw [(toNat_digit hc).1]; rfl
    _ = Nat.ofDigitChars 10 (Nat.toDigits 10 k) 0 := Nat.ofDigitChars_eq_foldl.symm
    _ = k := Nat.ofDigitChars_toDigits (by omega) (by omega)

theorem isDigit_digitBytes {k : ℕ} : ∀ b ∈ digitBytes k, isDigit b = true := by
  intro b hb
  obtain ⟨c, hc, rfl⟩ := List.mem_map.mp hb
  exact (toNat_digit hc).2

theorem i64tostr_eq (n : ℤ) :
    i64tostr n = (if n < 0 then [45] else []) ++ digitBytes n.natAbs := by
  have hchars := Decimal.chars_eq n
  unfold Decimal.chars at hchars
  unfold i64tostr textBytes digitBytes
  rw [hchars, List.map_append]
  split_ifs <;> rfl

theorem atoi64_digits {s : List UInt8} (h : ∀ b ∈ s, isDigit b = true) :
    atoi64 s = max (-2 ^ 63) (min (leadingDigits s : ℤ) (2 ^ 63 - 1)) := by
  cases s with
  | nil => rfl
  | cons b s =>
    obtain ⟨hspace, hminus, hplus⟩ := isDigit_cases (h b List.mem_cons_self)
    unfold atoi64
    rw [List.dropWhile_cons_of_neg (by rw [hspace]; exact Bool.false_ne_true)]
    split
    · rename_i heq
      exact absurd (List.cons.inj heq).1 hminus
    · rename_i heq
      exact absurd (List.cons.inj heq).1 hplus
    · rfl

theorem atoi64_i64tostr {n : ℤ} (h : Fits64 n) : atoi64 (i64tostr n) = n := by
  obtain ⟨hlow, hhigh⟩ := h
  rw [i64tostr_eq]
  by_cases hn : n < 0
  · rw [if_pos hn]
    change max (-2 ^ 63) (min (-(leadingDigits (digitBytes n.natAbs) : ℤ)) (2 ^ 63 - 1)) = n
    rw [leadingDigits_digitBytes]
    omega
  · rw [if_neg hn, List.nil_append, atoi64_digits isDigit_digitBytes, leadingDigits_digitBytes]
    omega

theorem reads_flag (f : Bool) : Reads readFlag (writeFlag f) f := by
  have hfits : f.toNat < 256 ^ 1 := by cases f <;> decide
  have hread := (Reads.takeNat hfits).map fun n => n != 0
  cases f <;> exact hread

theorem reads_pair {p : List UInt8 × List UInt8} (h : p.1.length ≤ MAX_SIZE ∧ p.2.length ≤ MAX_SIZE) :
    Reads readPair (writePair p) p := by
  apply Reads.bind (reads_bytes h.1)
  exact reads_bind_pure (reads_bytes h.2) _

/-- A map that can be written: neither it nor its texts are too long. -/
def WritableMap (m : mapValue_t) : Prop :=
  m.entries.length ≤ MAX_SIZE ∧ ∀ e ∈ m.entries, e.1.length ≤ MAX_SIZE ∧ e.2.length ≤ MAX_SIZE

theorem reads_map {m : mapValue_t} (h : WritableMap m) : Reads readMap (writeMap m) m := by
  apply Reads.bind (reads_compactSize h.1)
  have hstep : ∀ done a rest, m.entries = done ++ a :: rest → ∀ s : mapValue_t, s.entries = done →
      ∃ s' : mapValue_t, Reads (readPair >>= fun item =>
        pure (if (s.find item.1).isSome then s else s.insert item.1 item.2)) (writePair a) s' ∧
        s'.entries = done ++ [a] := by
    rintro done a rest hents s rfl
    have hsort := m.sorted
    rw [hents, List.pairwise_append] at hsort
    have hlast : ∀ e ∈ s.entries, e.1 < a.1 := fun e he => hsort.2.2 e he a List.mem_cons_self
    have hnone : s.find a.1 = none := by
      refine SortedMap.find_eq_none.mpr fun hmem => ?_
      obtain ⟨e, he, heq⟩ := List.mem_map.mp hmem
      exact (hlast e he).ne heq
    have hmem : a ∈ m.entries := hents ▸ List.mem_append_right _ List.mem_cons_self
    have hread := reads_bind_pure (reads_pair (h.2 a hmem))
      fun item => if (s.find item.1).isSome then s else s.insert item.1 item.2
    refine ⟨_, hread, ?_⟩
    rw [hnone, if_neg (by simp)]
    exact SortedMap.insertEntry_of_lt hlast
  obtain ⟨m', hloop, hents⟩ := @Reads.loop _ mapValue_t (fun _ s => readPair >>= fun item =>
    pure (if (s.find item.1).isSome then s else s.insert item.1 item.2)) writePair
    (fun done s => s.entries = done) m.entries hstep SortedMap.empty rfl
  have heq : m' = m := by
    cases m
    cases m'
    congr
  exact heq ▸ hloop

/-! ### Transactions -/

/-- A transaction whose numbers fit their types and whose vectors are not too long. -/
structure WritableMerkleTx (m : CMerkleTx) : Prop where
  tx : Writable.Transaction m.tx
  branch : m.vMerkleBranch.length ≤ MAX_SIZE
  nIndex : FitsBytes 4 m.nIndex

/-- What is read back of a transaction: whether its branch has been checked is not written. -/
def unverified (m : CMerkleTx) : CMerkleTx := { m with fMerkleVerified := false }

theorem reads_merkleTx {m : CMerkleTx} (h : WritableMerkleTx m) :
    Reads readMerkleTx (writeMerkleTx m) (unverified m) := by
  apply Reads.bind (reads_transaction h.tx)
  apply Reads.bind (reads_hash m.hashBlock)
  apply Reads.bind (reads_vector h.branch fun hash _ => reads_hash hash)
  exact reads_bind_pure (reads_int h.nIndex.1 h.nIndex.2) _

namespace WalletRecord

/-- A transaction of the wallet that can be written. -/
structure Writable (wtx : WalletRecord) : Prop where
  merkleTx : WritableMerkleTx wtx.toCMerkleTx
  vtxPrev : wtx.vtxPrev.length ≤ MAX_SIZE ∧ ∀ m ∈ wtx.vtxPrev, WritableMerkleTx m
  map : WritableMap wtx.savedMap
  vOrderForm : wtx.vOrderForm.length ≤ MAX_SIZE ∧
    ∀ p ∈ wtx.vOrderForm, p.1.length ≤ MAX_SIZE ∧ p.2.length ≤ MAX_SIZE
  nOrderPos : Fits64 wtx.nOrderPos

def FieldsFree (wtx : WalletRecord) : Prop :=
  ∀ k ∈ fieldKeys, wtx.mapValue.find k = none

/-- Writing leaves the transaction alone, and reading what was written gives it back. -/
def RoundTrips (wtx : WalletRecord) : Prop :=
  wtx.Serialize.2 = wtx ∧
    Unserialize.run wtx.Serialize.1 = some ({ wtx with
      toCMerkleTx := unverified wtx.toCMerkleTx
      vtxPrev := wtx.vtxPrev.map unverified }, [])

variable {wtx : WalletRecord}

theorem find_foldl_erase (ks : List (List UInt8)) (m : mapValue_t) (k : List UInt8) :
    (ks.foldl SortedMap.erase m).find k = if k ∈ ks then none else m.find k := by
  induction ks generalizing m with
  | nil => rfl
  | cons k' ks ih =>
    rw [List.foldl_cons, ih, find_erase]
    grind

theorem eraseFields_savedMap (h : wtx.FieldsFree) : eraseFields wtx.savedMap = wtx.mapValue := by
  apply ext_find
  intro k
  rw [eraseFields, find_foldl_erase]
  by_cases hk : k ∈ fieldKeys
  · rw [if_pos hk, h k hk]
  · rw [if_neg hk]
    simp only [fieldKeys, List.mem_cons, List.not_mem_nil, or_false, not_or] at hk
    obtain ⟨haccount, -, hspent, hpos, htime⟩ := hk
    unfold savedMap WriteOrderPos
    split_ifs <;> simp only [find_insert, if_neg haccount, if_neg hspent, if_neg hpos, if_neg htime]

theorem find_savedMap (h : wtx.FieldsFree) (hpos : Fits64 wtx.nOrderPos) :
    wtx.savedMap.find keyFromAccount = some wtx.strFromAccount ∧
    wtx.savedMap.find keySpent = some (wtx.vfSpent.map fun f => if f then 49 else 48) ∧
    ReadOrderPos wtx.savedMap = wtx.nOrderPos ∧
    ((wtx.savedMap.find keyTimeSmart).map fun s => UInt32.ofInt (atoi64 s)).getD 0 = wtx.nTimeSmart := by
  have hkeys : fieldKeys.Nodup := by decide
  simp only [fieldKeys, List.nodup_cons, List.mem_cons, List.not_mem_nil, or_false, not_or] at hkeys
  have hnone := h keyOrderPos (by decide)
  have hnone' := h keyTimeSmart (by decide)
  have hsmart : UInt32.ofInt (atoi64 (i64tostr wtx.nTimeSmart.toNat)) = wtx.nTimeSmart := by
    have hlt := wtx.nTimeSmart.toNat_lt
    have hmod : ((wtx.nTimeSmart.toNat : ℤ) % 2 ^ 32).toNat = wtx.nTimeSmart.toNat := by omega
    rw [atoi64_i64tostr ⟨by omega, by omega⟩]
    calc UInt32.ofInt (wtx.nTimeSmart.toNat : ℤ)
        = UInt32.ofNat ((wtx.nTimeSmart.toNat : ℤ) % 2 ^ 32).toNat := rfl
      _ = wtx.nTimeSmart := by rw [hmod, UInt32.ofNat_toNat]
  refine ⟨?_, ?_, ?_, ?_⟩
  · unfold savedMap WriteOrderPos
    grind [find_insert]
  · unfold savedMap WriteOrderPos
    grind [find_insert]
  · have hback := atoi64_i64tostr hpos
    unfold ReadOrderPos savedMap WriteOrderPos
    grind [find_insert]
  · unfold savedMap WriteOrderPos
    grind [find_insert]

theorem roundTrips (h : wtx.Writable) (hfree : wtx.FieldsFree) : wtx.RoundTrips := by
  have hkept := eraseFields_savedMap hfree
  obtain ⟨haccount, hspent, hpos, htime⟩ := find_savedMap hfree h.nOrderPos
  have hmarks : (wtx.vfSpent.map fun f => if f then (49 : UInt8) else 48).map (· != 48) = wtx.vfSpent := by
    rw [List.map_map]
    exact (List.map_congr_left fun f _ => by cases f <;> rfl).trans (List.map_id _)
  constructor
  · unfold Serialize
    rw [hkept]
  · have hread : Reads Unserialize wtx.Serialize.1 { wtx with
        toCMerkleTx := unverified wtx.toCMerkleTx
        vtxPrev := wtx.vtxPrev.map unverified } := by
      have hprev : Reads (readVector readMerkleTx) (writeVector writeMerkleTx wtx.vtxPrev)
          (wtx.vtxPrev.map unverified) := by
        have hsame : writeVector writeMerkleTx wtx.vtxPrev
            = writeVector writeMerkleTx (wtx.vtxPrev.map unverified) := by
          rw [writeVector, writeVector, List.length_map, List.flatMap_map]
          rfl
        rw [hsame]
        refine reads_vector (by rw [List.length_map]; exact h.vtxPrev.1) fun m hm => ?_
        obtain ⟨m', hm', rfl⟩ := List.mem_map.mp hm
        have hm := h.vtxPrev.2 m' hm'
        exact @reads_merkleTx (unverified m') ⟨hm.tx, hm.branch, hm.nIndex⟩
      apply Reads.bind (reads_merkleTx h.merkleTx)
      apply Reads.bind hprev
      apply Reads.bind (reads_map h.map)
      apply Reads.bind (reads_vector h.vOrderForm.1 fun p hp => reads_pair (h.vOrderForm.2 p hp))
      apply Reads.bind (reads_uint32 wtx.fTimeReceivedIsTxTime)
      apply Reads.bind (reads_uint32 wtx.nTimeReceived)
      apply Reads.bind (reads_flag wtx.fFromMe)
      have hlast := reads_bind_pure (reads_flag (wtx.vfSpent.contains true)) fun _ : Bool =>
        ({ wtx with
          toCMerkleTx := unverified wtx.toCMerkleTx
          vtxPrev := wtx.vtxPrev.map unverified } : WalletRecord)
      rw [hkept, haccount, hspent, hpos, htime]
      simp only [Option.map_some, Option.getD_some, hmarks]
      exact hlast
    exact hread.run

end WalletRecord

/-! ### Accounting entries -/

namespace CAccountingEntry

def ofKey (strAccount : List UInt8) (nEntryNo : UInt64) : CAccountingEntry :=
  ⟨strAccount, 0, 0, [], [], SortedMap.empty, -1, nEntryNo, []⟩

/-- An entry that can be written. -/
structure Writable (e : CAccountingEntry) : Prop where
  nCreditDebit : FitsBytes 8 e.nCreditDebit
  nTime : FitsBytes 8 e.nTime
  strOtherAccount : e.strOtherAccount.length ≤ MAX_SIZE
  comment : e.savedComment.length ≤ MAX_SIZE
  map : WritableMap (WriteOrderPos e.nOrderPos e.mapValue)
  nOrderPos : Fits64 e.nOrderPos

/-- Writing leaves the entry alone, and reading what was written gives it back. -/
def RoundTrips (nType : UInt32) (nVersion : Int32) (e : CAccountingEntry) : Prop :=
  (e.Serialize nType nVersion).2 = e ∧
    ((ofKey e.strAccount e.nEntryNo).Unserialize nType).run (e.Serialize nType nVersion).1 = some (e, [])

variable {e : CAccountingEntry}

theorem split_at_zero {s t : List UInt8} (h : 0 ∉ s) :
    (s ++ 0 :: t).takeWhile (· != 0) = s ∧ (s ++ 0 :: t).dropWhile (· != 0) = 0 :: t ∧
      s.takeWhile (· != 0) = s ∧ s.dropWhile (· != 0) = [] := by
  induction s with
  | nil => exact ⟨rfl, rfl, rfl, rfl⟩
  | cons b s ih =>
    obtain ⟨hb, hs⟩ := not_or.mp (List.mem_cons.not.mp h)
    have hne : (b != 0) = true := bne_iff_ne.mpr (Ne.symm hb)
    simp only [List.cons_append, List.takeWhile_cons, List.dropWhile_cons, hne, if_true, ih hs, and_self]

theorem writeOrderPos_spec {nOrderPos : ℤ} {m : mapValue_t} (hfits : Fits64 nOrderPos)
    (hfree : m.find keyOrderPos = none) : (WriteOrderPos nOrderPos m).erase keyOrderPos = m ∧
      ReadOrderPos (WriteOrderPos nOrderPos m) = nOrderPos := by
  have hback := atoi64_i64tostr hfits
  constructor
  · apply ext_find
    unfold WriteOrderPos
    grind [find_insert, find_erase]
  · unfold ReadOrderPos WriteOrderPos
    grind [find_insert]

theorem readSaved_savedComment (h : e.Writable) (hzero : 0 ∉ e.strComment) :
    readSaved e.savedComment [] = pure (WriteOrderPos e.nOrderPos e.mapValue, e.ssExtra) := by
  obtain ⟨-, hdrop, -, hdrop'⟩ := @split_at_zero e.strComment
    (writeMap (WriteOrderPos e.nOrderPos e.mapValue) ++ e.ssExtra) hzero
  unfold readSaved savedComment
  dsimp only
  split_ifs with hemp
  · have hmap : SortedMap.empty = WriteOrderPos e.nOrderPos e.mapValue := by
      apply ext_find
      intro k
      unfold SortedMap.find
      rw [hemp.1]
      rfl
    rw [hdrop', hemp.2, hmap]
  · rw [hdrop]
    dsimp only
    rw [reads_map h.map]
    rfl

/-- An entry is read back exactly when its comment has no zero byte, and the name of the position is
free. -/
theorem roundTrips_iff (h : e.Writable) (nType : UInt32) (nVersion : Int32) :
    e.RoundTrips nType nVersion ↔ 0 ∉ e.strComment ∧ e.mapValue.find keyOrderPos = none := by
  constructor
  · rintro ⟨hkept, -⟩
    constructor
    · rw [← congrArg strComment hkept]
      intro hzero
      change 0 ∈ e.savedComment.takeWhile (· != 0) at hzero
      exact absurd (List.mem_takeWhile_imp hzero) (by decide)
    · rw [← congrArg mapValue hkept]
      change ((WriteOrderPos e.nOrderPos e.mapValue).erase keyOrderPos).find keyOrderPos = none
      rw [find_erase, if_pos rfl]
  · rintro ⟨hzero, hfree⟩
    obtain ⟨hmap, hpos⟩ := writeOrderPos_spec h.nOrderPos hfree
    obtain ⟨htake, hdrop, htake', hdrop'⟩ := @split_at_zero e.strComment
      (writeMap (WriteOrderPos e.nOrderPos e.mapValue) ++ e.ssExtra) hzero
    have hcomment : e.savedComment.takeWhile (· != 0) = e.strComment := by
      unfold savedComment
      dsimp only
      split_ifs
      · exact htake'
      · exact htake
    constructor
    · unfold Serialize
      rw [hcomment, hmap]
    · have hread : Reads ((ofKey e.strAccount e.nEntryNo).Unserialize nType)
          (e.Serialize nType nVersion).1 e := by
        apply Reads.bind (reads_streamVersion nType nVersion)
        apply Reads.bind (reads_int h.nCreditDebit.1 h.nCreditDebit.2)
        apply Reads.bind (reads_int h.nTime.1 h.nTime.2)
        apply Reads.bind (reads_bytes h.strOtherAccount)
        rw [← List.append_nil (writeBytes e.savedComment)]
        apply Reads.bind (reads_bytes h.comment)
        change Reads (readSaved e.savedComment [] >>= _) [] e
        rw [readSaved_savedComment h hzero, hcomment, pure_bind]
        dsimp only
        rw [hmap, hpos]
        exact Reads.pure e
      exact hread.run

end CAccountingEntry

/-- Every transaction of a wallet whose map leaves the names of the fields free is read back, and every
accounting entry is read back exactly when its comment has no zero byte and its map leaves the name of the
position free. -/
theorem records_roundTrip_iff {wtx : WalletRecord} (hwtx : wtx.Writable) (hfree : wtx.FieldsFree)
    {e : CAccountingEntry} (he : e.Writable) (nType : UInt32) (nVersion : Int32) :
    wtx.RoundTrips ∧
      (e.RoundTrips nType nVersion ↔ 0 ∉ e.strComment ∧ e.mapValue.find keyOrderPos = none) :=
  ⟨WalletRecord.roundTrips hwtx hfree, CAccountingEntry.roundTrips_iff he nType nVersion⟩

/-! ### A comment with a zero byte -/

def giftRecord : WalletRecord where
  toCMerkleTx := CMerkleTx.Init ⟨1, 1600000000, [], [], 0⟩
  vtxPrev := []
  mapValue := SortedMap.empty.insert (textBytes "comment") (textBytes "gift")
  vOrderForm := []
  fTimeReceivedIsTxTime := 1
  nTimeReceived := 1600000000
  nTimeSmart := 1600000001
  fFromMe := true
  strFromAccount := textBytes "savings"
  vfSpent := [true, false]
  nOrderPos := 7

def rentEntry (strComment : List UInt8) : CAccountingEntry :=
  { CAccountingEntry.ofKey (textBytes "savings") 1 with
    nCreditDebit := 5, nTime := 1600000000, strComment := strComment, nOrderPos := 8 }

/-- The transaction and an entry with an ordinary comment are read back. -/
theorem giftRecord_roundTrips : giftRecord.RoundTrips ∧
    ((rentEntry (textBytes "rent")).RoundTrips SER_DISK 60000 ↔ 0 ∉ textBytes "rent" ∧
      (rentEntry (textBytes "rent")).mapValue.find keyOrderPos = none) := by
  have hwtx : giftRecord.Writable :=
    ⟨⟨⟨⟨by decide, by decide⟩, ⟨by decide, nofun⟩, ⟨by decide, nofun⟩⟩, by decide, ⟨by decide, by decide⟩⟩,
      ⟨by decide, nofun⟩, ⟨by decide, by decide +kernel⟩, ⟨by decide, nofun⟩, ⟨by decide, by decide⟩⟩
  have he : (rentEntry (textBytes "rent")).Writable :=
    ⟨⟨by decide, by decide⟩, ⟨by decide, by decide⟩, by decide, by decide +kernel,
      ⟨by decide, by decide +kernel⟩, ⟨by decide, by decide⟩⟩
  exact records_roundTrip_iff hwtx (by unfold WalletRecord.FieldsFree; decide +kernel) he SER_DISK 60000

/-- An entry with a comment that has a zero byte is cut off when it is written. -/
theorem rentEntry_cutOff : ¬(rentEntry (textBytes "a" ++ 0 :: textBytes "b")).RoundTrips SER_DISK 60000 := by
  rintro ⟨hkept, -⟩
  have hcomment := congrArg CAccountingEntry.strComment hkept
  exact absurd hcomment (by decide +kernel)

end ZalemCoin.Wallet
