import ZalemCoin.Script.Templates

/-!
# Scripts as text

The text of a script has a word for each of its operations. The words of two scripts can be the same
though the scripts are not: a small number reads alike whether an operation or a push puts it on the
stack.
-/

namespace ZalemCoin.Script

open Chain

/-- The digits of a byte. -/
def hexmap (n : ℕ) : Char := "0123456789abcdef".toList.getD n '0'

/-- Bytes as hexadecimal digits. -/
def HexStr (vch : List UInt8) : String :=
  String.ofList (vch.flatMap fun val : UInt8 => [hexmap (val >>> 4).toNat, hexmap (val &&& 15).toNat])

/-- A pushed value as text: a short one is read as a number. -/
def ValueString (vch : valtype) : String :=
  if vch.length ≤ 4 then toString (CBigNum.getint (CBigNum.setvch vch)) else HexStr vch

/-- The names of the operations from `OP_PUSHDATA1` to `OP_NOP10`, whose numbers follow one another. -/
def opNames : List String :=
  [ -- push value
    "OP_PUSHDATA1", "OP_PUSHDATA2", "OP_PUSHDATA4", "-1", "OP_RESERVED",
    "1", "2", "3", "4", "5", "6", "7", "8", "9", "10", "11", "12", "13", "14", "15", "16",
    -- control
    "OP_NOP", "OP_VER", "OP_IF", "OP_NOTIF", "OP_VERIF", "OP_VERNOTIF", "OP_ELSE", "OP_ENDIF",
    "OP_VERIFY", "OP_RETURN",
    -- stack ops
    "OP_TOALTSTACK", "OP_FROMALTSTACK", "OP_2DROP", "OP_2DUP", "OP_3DUP", "OP_2OVER", "OP_2ROT",
    "OP_2SWAP", "OP_IFDUP", "OP_DEPTH", "OP_DROP", "OP_DUP", "OP_NIP", "OP_OVER", "OP_PICK",
    "OP_ROLL", "OP_ROT", "OP_SWAP", "OP_TUCK",
    -- splice ops
    "OP_CAT", "OP_SUBSTR", "OP_LEFT", "OP_RIGHT", "OP_SIZE",
    -- bit logic
    "OP_INVERT", "OP_AND", "OP_OR", "OP_XOR", "OP_EQUAL", "OP_EQUALVERIFY", "OP_RESERVED1",
    "OP_RESERVED2",
    -- numeric
    "OP_1ADD", "OP_1SUB", "OP_2MUL", "OP_2DIV", "OP_NEGATE", "OP_ABS", "OP_NOT", "OP_0NOTEQUAL",
    "OP_ADD", "OP_SUB", "OP_MUL", "OP_DIV", "OP_MOD", "OP_LSHIFT", "OP_RSHIFT", "OP_BOOLAND",
    "OP_BOOLOR", "OP_NUMEQUAL", "OP_NUMEQUALVERIFY", "OP_NUMNOTEQUAL", "OP_LESSTHAN",
    "OP_GREATERTHAN", "OP_LESSTHANOREQUAL", "OP_GREATERTHANOREQUAL", "OP_MIN", "OP_MAX",
    "OP_WITHIN",
    -- crypto
    "OP_RIPEMD160", "OP_SHA1", "OP_SHA256", "OP_HASH160", "OP_HASH256", "OP_CODESEPARATOR",
    "OP_CHECKSIG", "OP_CHECKSIGVERIFY", "OP_CHECKMULTISIG", "OP_CHECKMULTISIGVERIFY",
    -- expansion
    "OP_NOP1", "OP_NOP2", "OP_NOP3", "OP_NOP4", "OP_NOP5", "OP_NOP6", "OP_NOP7", "OP_NOP8",
    "OP_NOP9", "OP_NOP10"]

def GetOpName (opcode : UInt8) : String :=
  if opcode = OP_0 then "0"
  else if opcode = OP_INVALIDOPCODE then "OP_INVALIDOPCODE"
  else if opcode < OP_PUSHDATA1 then "OP_UNKNOWN"
  else opNames.getD (opcode - OP_PUSHDATA1).toNat "OP_UNKNOWN"

example : GetOpName 0xb9 = "OP_NOP10" := by decide

def Instruction.word (op : Instruction) : String :=
  if op.opcode ≤ OP_PUSHDATA4 then ValueString op.vch else GetOpName op.opcode

/-- The loop of `ToString`, with the text so far. -/
def CScript.toStringLoop (script : CScript) (str : String) : String :=
  if script = [] then str
  else
    let str := if str = "" then str else str ++ " "
    match _h : readInstruction script with
    | none => str ++ "[error]"
    | some op => CScript.toStringLoop op.rest (str ++ op.word)
termination_by script.length
decreasing_by exact length_readInstruction ‹_›

def CScript.ToString (script : CScript) : String := CScript.toStringLoop script ""

/-- A script of one operation reads as its name. -/
theorem toString_single {opcode : UInt8} (h : OP_PUSHDATA4 < opcode) :
    CScript.ToString [opcode] = GetOpName opcode := by
  have hread : readInstruction [opcode] = some ⟨opcode, [], []⟩ := by
    simp [readInstruction, GetOp, UInt8.not_le.mpr h]
  unfold CScript.ToString CScript.toStringLoop
  rw [if_neg (List.cons_ne_nil _ _), if_pos rfl]
  split
  · rename_i hnone
    cases hread.symm.trans hnone
  · rename_i op hsome
    obtain rfl := Option.some.inj (hread.symm.trans hsome)
    unfold CScript.toStringLoop
    rw [if_pos rfl, Instruction.word, if_neg (UInt8.not_le.mpr h), String.empty_append]

end ZalemCoin.Script
