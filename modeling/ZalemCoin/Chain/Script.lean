import ZalemCoin.Chain.Primitives

/-!
# Reading scripts and counting their signature operations

The operations of a script are read one at a time. A read that runs off the end fails, but it has
consumed at least one byte, so every loop over a script ends within as many steps as it has bytes.
-/

namespace ZalemCoin.Chain

def OP_PUSHDATA1 : UInt8 := 0x4c
def OP_PUSHDATA2 : UInt8 := 0x4d
def OP_PUSHDATA4 : UInt8 := 0x4e
def OP_1 : UInt8 := 0x51
def OP_16 : UInt8 := 0x60
def OP_EQUAL : UInt8 := 0x87
def OP_HASH160 : UInt8 := 0xa9
def OP_CHECKSIG : UInt8 := 0xac
def OP_CHECKSIGVERIFY : UInt8 := 0xad
def OP_CHECKMULTISIG : UInt8 := 0xae
def OP_CHECKMULTISIGVERIFY : UInt8 := 0xaf
def OP_INVALIDOPCODE : UInt8 := 0xff

/-- The bytes of a number, the lowest one first, without superfluous ones. The first argument is
the number of bytes that there may be. -/
def leBytes : ℕ → ℕ → List UInt8
  | 0, _ => []
  | fuel + 1, n => if n = 0 then [] else UInt8.ofNat (n % 256) :: leBytes fuel (n / 256)

theorem length_leBytes {fuel n k : ℕ} (hn : n < 256 ^ k) : (leBytes fuel n).length ≤ k := by
  induction fuel generalizing n k with
  | zero => exact Nat.zero_le _
  | succ fuel ih =>
    unfold leBytes
    split
    · exact Nat.zero_le _
    · rename_i hne
      cases k with
      | zero => omega
      | succ k =>
        have hdiv : n / 256 < 256 ^ k := by
          apply Nat.div_lt_of_lt_mul
          calc n < 256 ^ (k + 1) := hn
            _ = 256 * 256 ^ k := by rw [pow_succ, Nat.mul_comm]
        exact Nat.succ_le_succ (ih hdiv)

/-- What a read of one operation leaves: the operation unless the read failed, its data, and the
rest of the script. -/
structure OpRead where
  opcode : Option UInt8
  data : List UInt8
  rest : CScript

/-- The number of bytes that a push reads, from the bytes after its operation; none when its
length is cut off. -/
def pushSize (opcode : UInt8) (script : CScript) : Option (ℕ × CScript) :=
  if opcode < OP_PUSHDATA1 then some (opcode.toNat, script)
  else if opcode = OP_PUSHDATA1 then
    match script with
    | b0 :: rest => some (b0.toNat, rest)
    | _ => none
  else if opcode = OP_PUSHDATA2 then
    match script with
    | b0 :: b1 :: rest => some (b0.toNat + 256 * b1.toNat, rest)
    | _ => none
  else
    match script with
    | b0 :: b1 :: b2 :: b3 :: rest =>
      some (b0.toNat + 256 * (b1.toNat + 256 * (b2.toNat + 256 * b3.toNat)), rest)
    | _ => none

def GetOp (opcode : UInt8) (script : CScript) : OpRead :=
  if opcode ≤ OP_PUSHDATA4 then
    match pushSize opcode script with
    | none => ⟨none, [], script⟩
    | some (nSize, rest) =>
      if rest.length < nSize then ⟨none, [], rest⟩
      else ⟨some opcode, rest.take nSize, rest.drop nSize⟩
  else ⟨some opcode, [], script⟩

/-- The signature operations that one operation counts for. A multiple check counts for its
number of keys when the count is to be accurate and that number is written before it, and for
twenty otherwise. -/
def sigOpsOf (fAccurate : Bool) (lastOpcode opcode : UInt8) : ℕ :=
  if opcode = OP_CHECKSIG ∨ opcode = OP_CHECKSIGVERIFY then 1
  else if opcode = OP_CHECKMULTISIG ∨ opcode = OP_CHECKMULTISIGVERIFY then
    if fAccurate ∧ OP_1 ≤ lastOpcode ∧ lastOpcode ≤ OP_16 then
      lastOpcode.toNat - (OP_1.toNat - 1)
    else 20
  else 0

/-- The loop of `GetSigOpCount`, with the number of steps that it may still take. -/
def sigOpCountLoop (fAccurate : Bool) : ℕ → UInt8 → CScript → ℕ
  | 0, _, _ => 0
  | _ + 1, _, [] => 0
  | fuel + 1, lastOpcode, byte :: script =>
    let op := GetOp byte script
    match op.opcode with
    | none => 0
    | some opcode =>
      sigOpsOf fAccurate lastOpcode opcode + sigOpCountLoop fAccurate fuel opcode op.rest

namespace CScript

/-- The number of signature operations of a script. -/
def GetSigOpCount (script : CScript) (fAccurate : Bool) : ℕ :=
  sigOpCountLoop fAccurate script.length OP_INVALIDOPCODE script

def IsPayToScriptHash (script : CScript) : Bool :=
  script.length == 23 && script[0]? == some OP_HASH160 && script[1]? == some 0x14 &&
    script[22]? == some OP_EQUAL

/-- The data of the last operation of a script that only pushes; none when the script does
anything else. -/
def lastPushLoop : ℕ → List UInt8 → CScript → Option (List UInt8)
  | _, data, [] => some data
  | 0, data, _ => some data
  | fuel + 1, _, byte :: script =>
    let op := GetOp byte script
    match op.opcode with
    | none => none
    | some opcode => if OP_16 < opcode then none else lastPushLoop fuel op.data op.rest

/-- The signature operations of the script that an input reveals for a pay-to-script-hash
output. -/
def GetSigOpCountWith (scriptPubKey scriptSig : CScript) : ℕ :=
  if IsPayToScriptHash scriptPubKey then
    match lastPushLoop scriptSig.length [] scriptSig with
    | none => 0
    | some data => GetSigOpCount data true
  else GetSigOpCount scriptPubKey true

end CScript

/-- The signature operations that a transaction's own scripts count for. -/
def GetLegacySigOpCount (tx : CTransaction) : ℕ :=
  (tx.vin.map fun txin => CScript.GetSigOpCount txin.scriptSig false).sum
    + (tx.vout.map fun txout => CScript.GetSigOpCount txout.scriptPubKey false).sum

end ZalemCoin.Chain
