import ZalemCoin.Script.Standard
import ZalemCoin.Storage.VarInt

/-!
# Compressed scripts

`CScriptCompressor` writes the scripts of a few exact forms as one byte, which is below
`nSpecialScripts`, and the hash or the coordinate in them; any other script follows its length, which
is written as a number from `nSpecialScripts` on. A public key with two coordinates is compressed
when it is a point of the curve, and its second coordinate is computed again from the first.
-/

namespace ZalemCoin.Script

open Lib Storage Chain
open Option (some.inj)

def nSpecialScripts : ℕ := 6

/-- The curve's points: reading one from the bytes of a key, and writing one with both coordinates. -/
structure PointLibrary (Point : Type) where
  ec_pubkey_parse : List UInt8 → Option Point
  ec_pubkey_serialize : Point → List UInt8
  /-- A point that is read from both its coordinates is written so. -/
  serialize_parse : ∀ x y P, x.length = 32 → y.length = 32 →
    ec_pubkey_parse (0x04 :: (x ++ y)) = some P → ec_pubkey_serialize P = 0x04 :: (x ++ y)
  /-- It is the only point with its first coordinate and the parity of its second one. -/
  parse_compressed : ∀ x y P b, x.length = 32 → y.length = 32 → y.getLast? = some b →
    ec_pubkey_parse (0x04 :: (x ++ y)) = some P →
    ec_pubkey_parse ((if b &&& 0x01 = 0 then 0x02 else 0x03) :: x) = some P

section

variable {Point : Type} (lib : PointLibrary Point)

def CPubKey.IsFullyValid (pubkey : CPubKey) : Bool :=
  if pubkey.IsValid then (lib.ec_pubkey_parse pubkey.vch).isSome else false

/-- Writes a key with both coordinates. -/
def CPubKey.Decompress (pubkey : CPubKey) : Option CPubKey :=
  if pubkey.IsValid then
    (lib.ec_pubkey_parse pubkey.vch).map fun P => CPubKey.ofBytes (lib.ec_pubkey_serialize P)
  else none

namespace CScriptCompressor

def IsToKeyID (script : CScript) : Option (List UInt8) :=
  if script.length = 25 ∧ script.take 3 = [OP_DUP, OP_HASH160, 20]
      ∧ script.drop 23 = [OP_EQUALVERIFY, OP_CHECKSIG] then
    some ((script.drop 3).take 20)
  else none

def IsToScriptID (script : CScript) : Option (List UInt8) :=
  if script.length = 23 ∧ script.take 2 = [OP_HASH160, 20] ∧ script.drop 22 = [OP_EQUAL] then
    some ((script.drop 2).take 20)
  else none

def IsToPubKey (script : CScript) : Option CPubKey :=
  if script.length = 35 ∧ script[0]? = some 33 ∧ script.drop 34 = [OP_CHECKSIG]
      ∧ (script[1]? = some 0x02 ∨ script[1]? = some 0x03) then
    some (CPubKey.ofBytes ((script.drop 1).take 33))
  else if script.length = 67 ∧ script[0]? = some 65 ∧ script.drop 66 = [OP_CHECKSIG]
      ∧ script[1]? = some 0x04 then
    let pubkey := CPubKey.ofBytes ((script.drop 1).take 65)
    if pubkey.IsFullyValid lib then some pubkey else none
  else none

def Compress (script : CScript) : Option (List UInt8) :=
  match IsToKeyID script, IsToScriptID script, IsToPubKey lib script with
  | some keyID, _, _ => some (0x00 :: keyID)
  | none, some scriptID, _ => some (0x01 :: scriptID)
  | none, none, some pubkey =>
    match pubkey.vch.head? with
    | some header =>
      if header = 0x02 ∨ header = 0x03 then some (header :: (pubkey.vch.drop 1).take 32)
      else if header = 0x04 then
        some ((0x04 ||| ((pubkey.vch[64]?.getD 0) &&& 0x01)) :: (pubkey.vch.drop 1).take 32)
      else none
    | none => none
  | none, none, none => none

/-- The number of bytes after the first one of a short form. -/
def GetSpecialSize (nSize : ℕ) : ℕ :=
  if nSize = 0 ∨ nSize = 1 then 20
  else if nSize = 2 ∨ nSize = 3 ∨ nSize = 4 ∨ nSize = 5 then 32
  else 0

/-- The script of a short form, or `none` when it has none. -/
def Decompress (nSize : ℕ) (vch : List UInt8) : Option CScript :=
  if nSize = 0x00 then
    some ([OP_DUP, OP_HASH160, 20] ++ vch.take 20 ++ [OP_EQUALVERIFY, OP_CHECKSIG])
  else if nSize = 0x01 then some ([OP_HASH160, 20] ++ vch.take 20 ++ [OP_EQUAL])
  else if nSize = 0x02 ∨ nSize = 0x03 then
    some ([33, UInt8.ofNat nSize] ++ vch.take 32 ++ [OP_CHECKSIG])
  else if nSize = 0x04 ∨ nSize = 0x05 then
    ((CPubKey.ofBytes (UInt8.ofNat (nSize - 2) :: vch.take 32)).Decompress lib).map fun pubkey =>
      [65] ++ pubkey.vch ++ [OP_CHECKSIG]
  else none

def writtenSize (script : CScript) : IntegerType.unsigned_int.Value :=
  BitVec.ofNat IntegerType.unsigned_int.bits (script.length + nSpecialScripts)

def GetSerializeSize (script : CScript) : ℕ :=
  match Compress lib script with
  | some compr => compr.length
  | none => script.length + GetSizeOfVarInt .unsigned_int (writtenSize script)

def Serialize (script : CScript) : List UInt8 :=
  match Compress lib script with
  | some compr => compr
  | none => WriteVarInt .unsigned_int (writtenSize script) ++ script

/-- Reads a script into an object, whose script stays when a key cannot be decompressed. -/
def Unserialize (script : CScript) : Reader CScript := do
  let nSize ← ReadVarInt .unsigned_int
  if nSize.toNat < nSpecialScripts then
    let vch ← Reader.takeBytes (GetSpecialSize nSize.toNat)
    pure ((Decompress lib nSize.toNat vch).getD script)
  else Reader.takeBytes (nSize.toNat - nSpecialScripts)

theorem reads_special {b : UInt8} (h : b.toNat < nSpecialScripts) :
    Reads (ReadVarInt .unsigned_int) [b] (BitVec.ofNat IntegerType.unsigned_int.bits b.toNat) := by
  have hcases : b = 0 ∨ b = 1 ∨ b = 2 ∨ b = 3 ∨ b = 4 ∨ b = 5 := by
    unfold nSpecialScripts at h
    simp only [← UInt8.toNat_inj, UInt8.reduceToNat]
    omega
  rcases hcases with rfl | rfl | rfl | rfl | rfl | rfl <;> exact fun rest => rfl

variable {script : CScript} {header : UInt8}

theorem reads_short (before : CScript) {b : UInt8} {vch : List UInt8}
    (hb : b.toNat < nSpecialScripts) (hlen : vch.length = GetSpecialSize b.toNat)
    (h : Decompress lib b.toNat vch = some script) :
    Reads (Unserialize lib before) (b :: vch) script := by
  have hsmall : (BitVec.ofNat IntegerType.unsigned_int.bits b.toNat).toNat = b.toNat := by
    have := b.toNat_lt
    rw [BitVec.toNat_ofNat, show IntegerType.unsigned_int.bits = 32 from rfl]
    omega
  refine Reads.bind (reads_special hb) ?_
  rw [hsmall, if_pos hb, ← List.append_nil vch, ← hlen]
  refine Reads.bind (Reads.takeBytes vch) ?_
  rw [h]
  exact Reads.pure script

theorem isToKeyID_eq_some {keyID : List UInt8} (h : IsToKeyID script = some keyID) :
    keyID.length = 20
      ∧ script = [OP_DUP, OP_HASH160, 20] ++ keyID ++ [OP_EQUALVERIFY, OP_CHECKSIG] := by
  unfold IsToKeyID at h
  split at h
  · rename_i hform
    obtain ⟨hlen, hfront, hback⟩ := hform
    rw [← some.inj h, ← hfront, ← hback]
    refine ⟨by rw [List.length_take, List.length_drop]; omega, ?_⟩
    rw [List.append_assoc, ← @List.drop_drop _ 20 3, List.take_append_drop, List.take_append_drop]
  · simp at h

theorem isToScriptID_eq_some {scriptID : List UInt8} (h : IsToScriptID script = some scriptID) :
    scriptID.length = 20
      ∧ script = [OP_HASH160, 20] ++ scriptID ++ [OP_EQUAL] := by
  unfold IsToScriptID at h
  split at h
  · rename_i hform
    obtain ⟨hlen, hfront, hback⟩ := hform
    rw [← some.inj h, ← hfront, ← hback]
    refine ⟨by rw [List.length_take, List.length_drop]; omega, ?_⟩
    rw [List.append_assoc, ← @List.drop_drop _ 20 2, List.take_append_drop, List.take_append_drop]
  · simp at h

theorem exists_pushed {size : UInt8} {n : ℕ} (hlen : script.length = n + 3)
    (hsize : script[0]? = some size) (hback : script.drop (n + 2) = [OP_CHECKSIG])
    (hheader : script[1]? = some header) :
    ∃ key : List UInt8, key.length = n ∧ (script.drop 1).take (n + 1) = header :: key
      ∧ script = [size] ++ header :: key ++ [OP_CHECKSIG] := by
  obtain ⟨size', header', rest, rfl⟩ : ∃ size' header' rest, script = size' :: header' :: rest := by
    match script, hheader with
    | size' :: header' :: rest, _ => exact ⟨_, _, _, rfl⟩
  obtain rfl : size' = size := some.inj hsize
  obtain rfl : header' = header := some.inj hheader
  rw [List.drop_succ_cons, List.drop_succ_cons] at hback
  simp only [List.length_cons] at hlen
  refine ⟨rest.take n, by rw [List.length_take]; omega, by simp, ?_⟩
  rw [← hback]
  simp

theorem ofBytes_compressed (hheader : header = 0x02 ∨ header = 0x03) {x : List UInt8}
    (hx : x.length = 32) : (CPubKey.ofBytes (header :: x)).vch = header :: x := by
  unfold CPubKey.ofBytes
  rw [dif_pos]
  change x.length + 1 = GetLen header
  unfold GetLen
  rw [hx, if_pos hheader]

/-- The scripts that are compressed to a public key. -/
theorem isToPubKey_eq_some {pubkey : CPubKey} (h : IsToPubKey lib script = some pubkey) :
    (∃ header x, (header = 0x02 ∨ header = 0x03) ∧ x.length = 32 ∧ pubkey.vch = header :: x
        ∧ script = [33] ++ pubkey.vch ++ [OP_CHECKSIG])
      ∨ ∃ x y P, x.length = 32 ∧ y.length = 32 ∧ pubkey.vch = 0x04 :: (x ++ y)
        ∧ lib.ec_pubkey_parse pubkey.vch = some P ∧ script = [65] ++ pubkey.vch ++ [OP_CHECKSIG] := by
  unfold IsToPubKey at h
  split at h
  · rename_i hform
    obtain ⟨hlen, hsize, hback, hheader⟩ := hform
    obtain ⟨header, hget, hor⟩ : ∃ header, script[1]? = some header
        ∧ (header = 0x02 ∨ header = 0x03) :=
      hheader.elim (fun h => ⟨_, h, .inl rfl⟩) fun h => ⟨_, h, .inr rfl⟩
    obtain ⟨x, hx, htake, hscr⟩ := exists_pushed hlen hsize hback hget
    have hvch : pubkey.vch = header :: x := by
      rw [← some.inj h, htake, ofBytes_compressed hor hx]
    exact .inl ⟨header, x, hor, hx, hvch, by rw [hvch]; exact hscr⟩
  split at h
  · rename_i hform
    obtain ⟨hlen, hsize, hback, hheader⟩ := hform
    obtain ⟨key, hkey, htake, hscr⟩ := exists_pushed hlen hsize hback hheader
    dsimp only at h
    split at h
    · rename_i hvalid
      rw [some.inj h] at hvalid
      have hvch : pubkey.vch = 0x04 :: (key.take 32 ++ key.drop 32) := by
        rw [← some.inj h, htake, List.take_append_drop]
        unfold CPubKey.ofBytes
        rw [dif_pos]
        change key.length + 1 = GetLen 0x04
        rw [hkey]
        rfl
      unfold CPubKey.IsFullyValid at hvalid
      split at hvalid
      · obtain ⟨P, hP⟩ := Option.isSome_iff_exists.mp hvalid
        refine .inr ⟨key.take 32, key.drop 32, P, by simp [hkey], by simp [hkey], hvch, hP, ?_⟩
        rw [hvch, List.take_append_drop]
        exact hscr
      · simp at hvalid
    · simp at h
  · simp at h

theorem parity_byte (b : UInt8) : 0x04 ||| (b &&& 0x01) = if b &&& 0x01 = 0 then 0x04 else 0x05 := by
  obtain ⟨⟨b⟩⟩ := b
  revert b
  decide +kernel

theorem decompress_eq (hheader : header = 0x02 ∨ header = 0x03) {x : List UInt8}
    (hx : x.length = 32) {P : Point} (hP : lib.ec_pubkey_parse (header :: x) = some P)
    {pubkey : CPubKey} (hpubkey : lib.ec_pubkey_serialize P = pubkey.vch) :
    (CPubKey.ofBytes (header :: x)).Decompress lib = some pubkey := by
  unfold CPubKey.Decompress CPubKey.IsValid
  rw [ofBytes_compressed hheader hx, if_pos (show (!(header :: x).isEmpty) = true from rfl), hP,
    Option.map_some, hpubkey, CPubKey.ofBytes_vch]

/-- What is compressed has a header that says its size, and decompresses to the script. -/
theorem decompress_compress {compr : List UInt8} (h : Compress lib script = some compr) :
    ∃ b vch, compr = b :: vch
      ∧ b.toNat < nSpecialScripts ∧ vch.length = GetSpecialSize b.toNat
      ∧ Decompress lib b.toNat vch = some script := by
  unfold Compress at h
  cases hkey : IsToKeyID script with
  | some keyID =>
    rw [hkey] at h
    obtain ⟨hlen, hscr⟩ := isToKeyID_eq_some hkey
    refine ⟨_, _, (some.inj h).symm, by decide, hlen, ?_⟩
    change some (_ ++ keyID.take 20 ++ _) = _
    rw [List.take_of_length_le hlen.le, hscr]
  | none =>
    cases hid : IsToScriptID script with
    | some scriptID =>
      rw [hkey, hid] at h
      obtain ⟨hlen, hscr⟩ := isToScriptID_eq_some hid
      refine ⟨_, _, (some.inj h).symm, by decide, hlen, ?_⟩
      change some (_ ++ scriptID.take 20 ++ _) = _
      rw [List.take_of_length_le hlen.le, hscr]
    | none =>
      cases hpubkey : IsToPubKey lib script with
      | none => rw [hkey, hid, hpubkey] at h; simp at h
      | some pubkey =>
        rw [hkey, hid, hpubkey] at h
        dsimp only at h
        rcases isToPubKey_eq_some lib hpubkey with
          ⟨header, x, hheader, hx, hvch, hscr⟩ | ⟨x, y, P, hx, hy, hvch, hP, hscr⟩
        · rw [hvch] at h hscr
          dsimp only [List.head?_cons] at h
          rw [if_pos hheader, List.drop_one, List.tail_cons, List.take_of_length_le hx.le] at h
          refine ⟨_, _, (some.inj h).symm, ?_⟩
          rcases hheader with rfl | rfl
          · refine ⟨by decide, hx, ?_⟩
            change some (_ ++ x.take 32 ++ _) = _
            rw [List.take_of_length_le hx.le, hscr]
            rfl
          · refine ⟨by decide, hx, ?_⟩
            change some (_ ++ x.take 32 ++ _) = _
            rw [List.take_of_length_le hx.le, hscr]
            rfl
        · -- The last byte of the second coordinate has its parity.
          obtain ⟨b, hb⟩ : ∃ b, y[31]? = some b := ⟨_, List.getElem?_eq_getElem (by omega)⟩
          have hlast : y.getLast? = some b := by rw [List.getLast?_eq_getElem?, hy, hb]
          have hbyte : (0x04 :: (x ++ y))[64]?.getD 0 = b := by
            rw [List.getElem?_cons_succ, List.getElem?_append_right (by omega), hx, hb]
            rfl
          have hcompr : compr = (if b &&& 0x01 = 0 then 0x04 else 0x05) :: x := by
            rw [hvch] at h
            dsimp only [List.head?_cons] at h
            rw [if_neg (by decide), if_pos rfl, hbyte, parity_byte, List.drop_one, List.tail_cons,
              List.take_left' hx] at h
            exact (some.inj h).symm
          have hpoint := lib.parse_compressed x y P b hx hy hlast (by rw [← hvch]; exact hP)
          have hserialize := lib.serialize_parse x y P hx hy (by rw [← hvch]; exact hP)
          rw [← hvch] at hserialize
          refine ⟨_, _, hcompr, ?_⟩
          split_ifs at hpoint ⊢
          · refine ⟨by decide, hx, ?_⟩
            change ((CPubKey.ofBytes (0x02 :: x.take 32)).Decompress lib).map _ = _
            rw [List.take_of_length_le hx.le,
              decompress_eq lib (.inl rfl) hx hpoint hserialize, hscr]
            rfl
          · refine ⟨by decide, hx, ?_⟩
            change ((CPubKey.ofBytes (0x03 :: x.take 32)).Decompress lib).map _ = _
            rw [List.take_of_length_le hx.le,
              decompress_eq lib (.inr rfl) hx hpoint hserialize, hscr]
            rfl

theorem toNat_writtenSize (h : script.length ≤ MAX_SIZE) :
    (writtenSize script).toNat = script.length + nSpecialScripts := by
  unfold MAX_SIZE at h
  unfold writtenSize nSpecialScripts
  rw [BitVec.toNat_ofNat, show IntegerType.unsigned_int.bits = 32 from rfl]
  omega

theorem reads_writtenSize (script : CScript) :
    Reads (ReadVarInt .unsigned_int) (WriteVarInt .unsigned_int (writtenSize script)) (writtenSize script) :=
  reads_writeVarInt_iff.mpr (Int.natCast_nonneg _)

/-- A script is read back from what is written of it, whatever was in the object before; it takes as
many bytes as are announced; and what is written of a script without a short form begins with a number
that no special script has. -/
theorem reads_serialize (before : CScript) {script : CScript} (h : script.length ≤ MAX_SIZE) :
    Reads (Unserialize lib before) (Serialize lib script) script
      ∧ (Serialize lib script).length = GetSerializeSize lib script
      ∧ (Compress lib script = none → ∃ nSize rest,
        (ReadVarInt .unsigned_int).run (Serialize lib script) = some (nSize, rest)
          ∧ nSpecialScripts ≤ nSize.toNat) := by
  have hsize := toNat_writtenSize h
  unfold Serialize GetSerializeSize
  cases hcompress : Compress lib script with
  | some compr =>
    obtain ⟨b, vch, rfl, hb, hlength, hdecompress⟩ := decompress_compress lib hcompress
    exact ⟨reads_short lib before hb hlength hdecompress, rfl, fun hnone => by simp at hnone⟩
  | none =>
    refine ⟨?_, ?_, fun _ => ⟨_, _, reads_writtenSize script script, by omega⟩⟩
    · unfold Unserialize
      refine Reads.bind (reads_writtenSize script) ?_
      rw [if_neg (by omega), hsize, Nat.add_sub_cancel]
      exact Reads.takeBytes script
    · rw [List.length_append, length_writeVarInt, Nat.add_comm]

end CScriptCompressor

end

def generatorX : List UInt8 :=
  [0x79, 0xbe, 0x66, 0x7e, 0xf9, 0xdc, 0xbb, 0xac, 0x55, 0xa0, 0x62, 0x95, 0xce, 0x87, 0x0b, 0x07,
    0x02, 0x9b, 0xfc, 0xdb, 0x2d, 0xce, 0x28, 0xd9, 0x59, 0xf2, 0x81, 0x5b, 0x16, 0xf8, 0x17, 0x98]
def generatorY : List UInt8 :=
  [0x48, 0x3a, 0xda, 0x77, 0x26, 0xa3, 0xc4, 0x65, 0x5d, 0xa4, 0xfb, 0xfc, 0x0e, 0x11, 0x08, 0xa8,
    0xfd, 0x17, 0xb4, 0x48, 0xa6, 0x85, 0x54, 0x19, 0x9c, 0x47, 0xd0, 0x8f, 0xfb, 0x10, 0xd4, 0xb8]

def generatorLibrary : PointLibrary Unit where
  ec_pubkey_parse vch :=
    if vch = 0x04 :: (generatorX ++ generatorY) ∨ vch = 0x02 :: generatorX then some () else none
  ec_pubkey_serialize _ := 0x04 :: (generatorX ++ generatorY)
  serialize_parse x y P hx hy h := by
    split at h
    · rename_i hor
      exact (hor.resolve_right fun heq => absurd (List.cons.inj heq).1 (by decide)).symm
    · simp at h
  parse_compressed x y P b hx hy hb h := by
    split at h
    · rename_i hor
      have heq := (List.cons.inj (hor.resolve_right fun heq =>
        absurd (List.cons.inj heq).1 (by decide))).2
      obtain ⟨rfl, rfl⟩ := List.append_inj heq hx
      obtain rfl : (0xb8 : UInt8) = b := Option.some.inj hb
      rfl
    · simp at h

theorem generator_reads_serialize :
    Reads (CScriptCompressor.Unserialize generatorLibrary [])
      (CScriptCompressor.Serialize generatorLibrary
        ([65] ++ 0x04 :: (generatorX ++ generatorY) ++ [OP_CHECKSIG]))
      ([65] ++ 0x04 :: (generatorX ++ generatorY) ++ [OP_CHECKSIG]) :=
  (CScriptCompressor.reads_serialize generatorLibrary []
    (show ([65] ++ 0x04 :: (generatorX ++ generatorY) ++ [OP_CHECKSIG]).length ≤ MAX_SIZE by decide)).1

end ZalemCoin.Script
