import ZalemCoin.Chain.Script
import ZalemCoin.Lib.ByteReader

/-!
# Standard scripts

`Solver` recognises the scripts that outputs usually have, by comparing them with templates, and
returns the keys, hashes and counts that stand in them. `ExtractDestination` turns the ones that pay
to a single key or script into the identifier of what they pay to.
-/

namespace ZalemCoin.Script

open Chain Lib

def OP_0 : UInt8 := 0x00
def OP_RETURN : UInt8 := 0x6a
def OP_DUP : UInt8 := 0x76
def OP_EQUALVERIFY : UInt8 := 0x88

/-- The operations that stand for data in a template. -/
def OP_SMALLDATA : UInt8 := 0xf9
def OP_SMALLINTEGER : UInt8 := 0xfa
def OP_PUBKEYS : UInt8 := 0xfb
def OP_PUBKEYHASH : UInt8 := 0xfd
def OP_PUBKEY : UInt8 := 0xfe

/-- A data output carries at most this many bytes. -/
def MAX_OP_RETURN_RELAY : ℕ := 40

/-- The identifier of a public key: its 160-bit hash. -/
abbrev CKeyID := Fin (2 ^ 160)

instance instNeZeroKeyID : NeZero (2 ^ 160) := Nat.instNeZeroHPow

/-- The identifier of a script: its 160-bit hash. -/
abbrev CScriptID := Fin (2 ^ 160)

/-- The length of a public key with a given first byte. -/
def GetLen (chHeader : UInt8) : ℕ :=
  if chHeader = 2 ∨ chHeader = 3 then 33
  else if chHeader = 4 ∨ chHeader = 6 ∨ chHeader = 7 then 65
  else 0

/-- A public key: bytes whose number is the one that the first of them asks for. The invalid key has
no bytes. -/
structure CPubKey where
  vch : List UInt8
  /-- The first byte says how many there are. -/
  size_eq : vch.length = (vch.head?.map GetLen).getD 0
deriving DecidableEq

namespace CPubKey

def invalid : CPubKey := ⟨[], rfl⟩

def ofBytes (vch : List UInt8) : CPubKey :=
  if h : vch.length = (vch.head?.map GetLen).getD 0 then ⟨vch, h⟩ else invalid

def IsValid (pubkey : CPubKey) : Bool := !pubkey.vch.isEmpty

def IsCompressed (pubkey : CPubKey) : Bool := pubkey.vch.length == 33

@[simp]
theorem ofBytes_vch (pubkey : CPubKey) : ofBytes pubkey.vch = pubkey := dif_pos pubkey.size_eq

end CPubKey

/-- The kinds of scripts. -/
inductive txnouttype
  | TX_NONSTANDARD | TX_PUBKEY | TX_PUBKEYHASH | TX_SCRIPTHASH | TX_MULTISIG | TX_NULL_DATA
deriving DecidableEq

/-- What an output pays to. -/
inductive CTxDestination
  | keyID (id : CKeyID)
  | scriptID (id : CScriptID)
deriving DecidableEq

def mTemplates : List (txnouttype × CScript) :=
  [(.TX_PUBKEY, [OP_PUBKEY, OP_CHECKSIG]),
    (.TX_PUBKEYHASH, [OP_DUP, OP_HASH160, OP_PUBKEYHASH, OP_EQUALVERIFY, OP_CHECKSIG]),
    (.TX_MULTISIG, [OP_SMALLINTEGER, OP_PUBKEYS, OP_SMALLINTEGER, OP_CHECKMULTISIG]),
    (.TX_NULL_DATA, [OP_RETURN, OP_SMALLDATA]),
    (.TX_NULL_DATA, [OP_RETURN])]

/-- An operation that a script starts with, with its data and the rest of the script. -/
structure Instruction where
  opcode : UInt8
  vch : List UInt8
  rest : CScript

def readInstruction : CScript → Option Instruction
  | [] => none
  | byte :: script =>
    let op := GetOp byte script
    op.opcode.map fun opcode => ⟨opcode, op.data, op.rest⟩

theorem pushSize_eq_some {opcode : UInt8} {script rest : CScript} {nSize : ℕ}
    (h : pushSize opcode script = some (nSize, rest)) :
    ∃ sizes : CScript, script = sizes ++ rest ∧ sizes.length ≤ 4 ∧
      (opcode < OP_PUSHDATA1 → sizes = [] ∧ nSize = opcode.toNat) := by
  unfold pushSize at h
  by_cases hdirect : opcode < OP_PUSHDATA1
  · rw [if_pos hdirect] at h
    cases h
    exact ⟨[], rfl, Nat.zero_le _, fun _ => ⟨rfl, rfl⟩⟩
  · rw [if_neg hdirect] at h
    have hsizes : ∃ sizes : CScript, script = sizes ++ rest ∧ sizes.length ≤ 4 := by
      split_ifs at h
      · split at h
        · cases h
          exact ⟨[_], rfl, by simp⟩
        · simp at h
      · split at h
        · cases h
          exact ⟨[_, _], rfl, by simp⟩
        · simp at h
      · split at h
        · cases h
          exact ⟨[_, _, _, _], rfl, by simp⟩
        · simp at h
    obtain ⟨sizes, hsizes, hfew⟩ := hsizes
    exact ⟨sizes, hsizes, hfew, fun h => absurd h hdirect⟩

/-- The bytes of an instruction that has been read. -/
theorem readInstruction_eq_some {script : CScript} {op : Instruction}
    (h : readInstruction script = some op) :
    ∃ sizes : CScript, script = op.opcode :: (sizes ++ op.vch ++ op.rest) ∧ sizes.length ≤ 4 ∧
      (op.opcode < OP_PUSHDATA1 → sizes = [] ∧ op.vch.length = op.opcode.toNat) ∧
      (¬op.opcode ≤ OP_PUSHDATA4 → op.vch = []) := by
  rcases script with _ | ⟨byte, script⟩
  · simp [readInstruction] at h
  · obtain ⟨opcode, hop, rfl⟩ := Option.map_eq_some_iff.mp h
    unfold GetOp at hop ⊢
    by_cases hpush : byte ≤ OP_PUSHDATA4
    · rw [if_pos hpush] at hop ⊢
      rcases hsize : pushSize byte script with _ | ⟨nSize, rest⟩
      · rw [hsize] at hop
        simp at hop
      · rw [hsize] at hop
        obtain ⟨sizes, rfl, hfew, hdirect⟩ := pushSize_eq_some hsize
        dsimp only at hop ⊢
        by_cases hshort : rest.length < nSize
        · rw [if_pos hshort] at hop
          simp at hop
        · rw [if_neg hshort] at hop ⊢
          cases hop
          apply Exists.intro sizes
          constructor
          · rw [List.append_assoc, List.take_append_drop]
          constructor
          · exact hfew
          constructor
          · intro hlt
            obtain ⟨hsizes, rfl⟩ := hdirect hlt
            exact ⟨hsizes, List.length_take_of_le (by omega)⟩
          · exact fun h => absurd hpush h
    · rw [if_neg hpush] at hop ⊢
      cases hop
      have hlarge : ¬byte < OP_PUSHDATA1 := fun hlt =>
        hpush (UInt8.le_of_lt (UInt8.lt_trans hlt (by decide)))
      exact ⟨[], rfl, Nat.zero_le _, fun h => absurd h hlarge, fun _ => rfl⟩

theorem length_readInstruction {script : CScript} {op : Instruction}
    (h : readInstruction script = some op) : op.rest.length < script.length := by
  obtain ⟨sizes, rfl, -, -, -⟩ := readInstruction_eq_some h
  simp only [List.length_cons, List.length_append]
  omega

/-- The number that an operation for a small integer pushes. -/
def DecodeOP_N (opcode : UInt8) : UInt8 := if opcode = OP_0 then 0 else opcode - (OP_1 - 1)

def IsSmallInteger (opcode : UInt8) : Bool := opcode == OP_0 || (OP_1 ≤ opcode && opcode ≤ OP_16)

/-- The data of a script's operations from `op` on, for as long as it can be a public key, and the
operation after it. A read that fails leaves an operation that no template has. -/
def readPubkeys : ℕ → Instruction → List (List UInt8) × Instruction
  | 0, op => ([], op)
  | fuel + 1, op =>
    if 33 ≤ op.vch.length ∧ op.vch.length ≤ 120 then
      match readInstruction op.rest with
      | none => ([op.vch], ⟨OP_INVALIDOPCODE, [], op.rest⟩)
      | some next =>
        let (keys, last) := readPubkeys fuel next
        (op.vch :: keys, last)
    else ([], op)

/-- What one operation of a script adds to the solutions for an operation of the template, and none
when the two do not match. -/
def matchOp (opcode2 : UInt8) (op : Instruction) : Option (List (List UInt8)) :=
  if opcode2 = OP_PUBKEY then
    if op.vch.length < 33 ∨ 120 < op.vch.length then none else some [op.vch]
  else if opcode2 = OP_PUBKEYHASH then
    if op.vch.length ≠ 20 then none else some [op.vch]
  else if opcode2 = OP_SMALLINTEGER then
    if IsSmallInteger op.opcode then some [[DecodeOP_N op.opcode]] else none
  else if opcode2 = OP_SMALLDATA then
    if MAX_OP_RETURN_RELAY < op.vch.length then none else some []
  else if op.opcode ≠ opcode2 ∨ op.vch ≠ [] then none
  else some []

def matchTemplate : CScript → CScript → Option (List (List UInt8))
  | [], [] => some []
  | [], _ :: _ => none
  | opcode2 :: template, script =>
    match readInstruction script with
    | none => none
    | some op =>
      if opcode2 = OP_PUBKEYS then
        let (keys, last) := readPubkeys script.length op
        match template with
        | [] => none
        | opcode2' :: template' => do
          let found ← matchOp opcode2' last
          let solutions ← matchTemplate template' last.rest
          return keys ++ found ++ solutions
      else do
        let found ← matchOp opcode2 op
        let solutions ← matchTemplate template op.rest
        return found ++ solutions

def MultisigCounts (vSolutions : List (List UInt8)) : Bool :=
  let m := (vSolutions.head?.bind List.head?).getD 0
  let n := (vSolutions.getLast?.bind List.head?).getD 0
  1 ≤ m && 1 ≤ n && m ≤ n && vSolutions.length == n.toNat + 2

/-- Tries the templates one after the other. A multiple signature script whose counts are not in
order ends the search. -/
def scanTemplates (scriptPubKey : CScript) :
    List (txnouttype × CScript) → Option (txnouttype × List (List UInt8))
  | [] => none
  | (type, template) :: templates =>
    match matchTemplate template scriptPubKey with
    | none => scanTemplates scriptPubKey templates
    | some vSolutions =>
      if type = .TX_MULTISIG ∧ MultisigCounts vSolutions = false then none
      else some (type, vSolutions)

def Solver (scriptPubKey : CScript) : Option (txnouttype × List (List UInt8)) :=
  if scriptPubKey.IsPayToScriptHash then some (.TX_SCRIPTHASH, [(scriptPubKey.drop 2).take 20])
  else scanTemplates scriptPubKey mTemplates

/-- The 160-bit number with the given bytes. -/
def uint160 (vch : List UInt8) : Fin (2 ^ 160) := Fin.ofNat (2 ^ 160) (ofLittleEndian vch)

def GetScriptForDestination : CTxDestination → CScript
  | .keyID id => [OP_DUP, OP_HASH160, 20] ++ littleEndian 20 id ++ [OP_EQUALVERIFY, OP_CHECKSIG]
  | .scriptID id => [OP_HASH160, 20] ++ littleEndian 20 id ++ [OP_EQUAL]

def CPubKey.GetID (Hash160 : List UInt8 → CKeyID) (pubkey : CPubKey) : CKeyID := Hash160 pubkey.vch

def ExtractDestination (Hash160 : List UInt8 → CKeyID) (scriptPubKey : CScript) :
    Option CTxDestination :=
  match Solver scriptPubKey with
  | some (.TX_PUBKEY, vch :: _) => some (.keyID ((CPubKey.ofBytes vch).GetID Hash160))
  | some (.TX_PUBKEYHASH, vch :: _) => some (.keyID (uint160 vch))
  | some (.TX_SCRIPTHASH, vch :: _) => some (.scriptID (uint160 vch))
  | _ => none

end ZalemCoin.Script
