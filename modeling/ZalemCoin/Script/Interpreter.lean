import ZalemCoin.Chain.ConnectInputs
import ZalemCoin.Script.Numbers

/-!
# The interpreters of scripts

A script is a stack machine. There are two interpreters: `EvalScript` over `CBigNum`, which blocks are
judged by, and `EvalScript` over `CScriptNum` with a signature checker, by which the wallet tests what
it has signed. They are two copies of one loop that differ in the type of numbers, in one hash, and in
what they ask of the encodings of signatures and keys. The loop is written here once, for an
interpreter that is given by these.
-/

namespace ZalemCoin.Script

open Chain Lib

/-! ## Operations -/

def OP_1NEGATE : UInt8 := 0x4f
def OP_NOP : UInt8 := 0x61
def OP_IF : UInt8 := 0x63
def OP_NOTIF : UInt8 := 0x64
def OP_ELSE : UInt8 := 0x67
def OP_ENDIF : UInt8 := 0x68
def OP_VERIFY : UInt8 := 0x69
def OP_TOALTSTACK : UInt8 := 0x6b
def OP_FROMALTSTACK : UInt8 := 0x6c
def OP_2DROP : UInt8 := 0x6d
def OP_2DUP : UInt8 := 0x6e
def OP_3DUP : UInt8 := 0x6f
def OP_2OVER : UInt8 := 0x70
def OP_2ROT : UInt8 := 0x71
def OP_2SWAP : UInt8 := 0x72
def OP_IFDUP : UInt8 := 0x73
def OP_DEPTH : UInt8 := 0x74
def OP_DROP : UInt8 := 0x75
def OP_NIP : UInt8 := 0x77
def OP_OVER : UInt8 := 0x78
def OP_PICK : UInt8 := 0x79
def OP_ROLL : UInt8 := 0x7a
def OP_ROT : UInt8 := 0x7b
def OP_SWAP : UInt8 := 0x7c
def OP_TUCK : UInt8 := 0x7d
def OP_CAT : UInt8 := 0x7e
def OP_SUBSTR : UInt8 := 0x7f
def OP_LEFT : UInt8 := 0x80
def OP_RIGHT : UInt8 := 0x81
def OP_SIZE : UInt8 := 0x82
def OP_INVERT : UInt8 := 0x83
def OP_AND : UInt8 := 0x84
def OP_OR : UInt8 := 0x85
def OP_XOR : UInt8 := 0x86
def OP_1ADD : UInt8 := 0x8b
def OP_1SUB : UInt8 := 0x8c
def OP_2MUL : UInt8 := 0x8d
def OP_2DIV : UInt8 := 0x8e
def OP_NEGATE : UInt8 := 0x8f
def OP_ABS : UInt8 := 0x90
def OP_NOT : UInt8 := 0x91
def OP_0NOTEQUAL : UInt8 := 0x92
def OP_ADD : UInt8 := 0x93
def OP_SUB : UInt8 := 0x94
def OP_MUL : UInt8 := 0x95
def OP_DIV : UInt8 := 0x96
def OP_MOD : UInt8 := 0x97
def OP_LSHIFT : UInt8 := 0x98
def OP_RSHIFT : UInt8 := 0x99
def OP_BOOLAND : UInt8 := 0x9a
def OP_BOOLOR : UInt8 := 0x9b
def OP_NUMEQUAL : UInt8 := 0x9c
def OP_NUMEQUALVERIFY : UInt8 := 0x9d
def OP_NUMNOTEQUAL : UInt8 := 0x9e
def OP_LESSTHAN : UInt8 := 0x9f
def OP_GREATERTHAN : UInt8 := 0xa0
def OP_LESSTHANOREQUAL : UInt8 := 0xa1
def OP_GREATERTHANOREQUAL : UInt8 := 0xa2
def OP_MIN : UInt8 := 0xa3
def OP_MAX : UInt8 := 0xa4
def OP_WITHIN : UInt8 := 0xa5
def OP_RIPEMD160 : UInt8 := 0xa6
def OP_SHA1 : UInt8 := 0xa7
def OP_SHA256 : UInt8 := 0xa8
def OP_HASH256 : UInt8 := 0xaa
def OP_CODESEPARATOR : UInt8 := 0xab
def OP_NOP1 : UInt8 := 0xb0
def OP_NOP10 : UInt8 := 0xb9

def disabledOps : List UInt8 :=
  [OP_CAT, OP_SUBSTR, OP_LEFT, OP_RIGHT, OP_INVERT, OP_AND, OP_OR, OP_XOR, OP_2MUL, OP_2DIV, OP_MUL,
    OP_DIV, OP_MOD, OP_LSHIFT, OP_RSHIFT]

/-! ## Elements of the stack -/

def MAX_SCRIPT_ELEMENT_SIZE : ℕ := 520
def nMaxScriptSize : ℕ := 10000
def nMaxOpCount : ℕ := 201
def nMaxStackSize : ℕ := 1000

def vchFalse : valtype := []
def vchTrue : valtype := [1]

def vchBool (fValue : Bool) : valtype := if fValue then vchTrue else vchFalse

/-- The truth value of an element. A negative zero is false. -/
def CastToBool (vch : valtype) : Bool :=
  match vch.dropWhile (· == 0) with
  | [] => false
  | byte :: bytes => !(byte == 0x80 && bytes.isEmpty)

def pushData (b : valtype) : CScript :=
  if b.length < OP_PUSHDATA1.toNat then UInt8.ofNat b.length :: b
  else if b.length ≤ 0xff then OP_PUSHDATA1 :: UInt8.ofNat b.length :: b
  else if b.length ≤ 0xffff then OP_PUSHDATA2 :: littleEndian 2 b.length ++ b
  else OP_PUSHDATA4 :: littleEndian 4 b.length ++ b

/-- Removes a prefix as often as it stands there. The first argument is the number of times that it
may be removed. -/
def erasePrefix (b : CScript) : ℕ → CScript → CScript
  | 0, script => script
  | fuel + 1, script =>
    if b.isPrefixOf script then erasePrefix b fuel (script.drop b.length) else script

/-- The loop of `FindAndDelete`, with the number of operations that it may still read. -/
def findAndDeleteLoop (b : CScript) : ℕ → CScript → CScript
  | 0, script => script
  | fuel + 1, script =>
    let script := erasePrefix b script.length script
    match readInstruction script with
    | none => script
    | some op =>
      script.take (script.length - op.rest.length) ++ findAndDeleteLoop b fuel op.rest

/-- Removes a script where it stands before an operation or at the end. -/
def CScript.FindAndDelete (script b : CScript) : CScript :=
  if b = [] then script else findAndDeleteLoop b (script.length + 1) script

/-! ## Encodings -/

/-- The hash types. -/
def SIGHASH_ALL : UInt8 := 1
def SIGHASH_NONE : UInt8 := 2
def SIGHASH_SINGLE : UInt8 := 3
def SIGHASH_ANYONECANPAY : UInt8 := 0x80

def IsCompressedOrUncompressedPubKey (vchPubKey : valtype) : Bool :=
  match vchPubKey.head? with
  | none => false
  | some byte =>
    if vchPubKey.length < 33 then false
    else if byte = 4 then vchPubKey.length == 65
    else if byte = 2 ∨ byte = 3 then vchPubKey.length == 33
    else false

/-- Whether the bytes from a position on are a positive number without superfluous zeros, of a length
and with the mark of a number before it. -/
def isDERInteger (vchSig : valtype) (start length : ℕ) : Bool :=
  vchSig[start - 2]? == some 0x02 && length != 0 &&
    (vchSig[start]?.getD 0) &&& 0x80 == 0 &&
    !(decide (1 < length) && vchSig[start]?.getD 0 == 0 && (vchSig[start + 1]?.getD 0) &&& 0x80 == 0)

/-- Whether a signature is written as it should be, with its hash type or without one. -/
def IsDERSignature (vchSig : valtype) (haveHashType : Bool := true) : Bool :=
  let nLenR := (vchSig[3]?.getD 0).toNat
  let nLenS := (vchSig[5 + nLenR]?.getD 0).toNat
  decide (9 ≤ vchSig.length) && decide (vchSig.length ≤ 73) && vchSig[0]? == some 0x30 &&
    (vchSig[1]?.getD 0).toNat == vchSig.length - (if haveHashType then 3 else 2) &&
    decide (5 + nLenR < vchSig.length) &&
    nLenR + nLenS + (if haveHashType then 7 else 6) == vchSig.length &&
    isDERInteger vchSig 4 nLenR && isDERInteger vchSig (6 + nLenR) nLenS

/-- Whether the hash type of a signature is one of those that there are. -/
def IsDefinedHashtypeSignature (vchSig : valtype) : Bool :=
  match vchSig.getLast? with
  | none => false
  | some byte =>
    let nHashType := byte &&& ~~~SIGHASH_ANYONECANPAY
    decide (SIGHASH_ALL ≤ nHashType) && decide (nHashType ≤ SIGHASH_SINGLE)

/-! ## The loop -/

structure Interpreter where
  flags : UInt32
  /-- Whether an operation is fit to push some data. -/
  checkPush : valtype → UInt8 → Bool
  /-- The number that an element stands for. -/
  toNumber : valtype → Option ℤ
  /-- The number that is kept of a result. -/
  keep : ℤ → ℤ
  getint : ℤ → ℤ
  getvch : ℤ → valtype
  RIPEMD160 : valtype → valtype
  SHA1 : valtype → valtype
  SHA256 : valtype → valtype
  HASH160 : valtype → valtype
  HASH256 : valtype → valtype
  /-- Whether the script goes on with a signature and a key of these encodings. -/
  checkEncoding : valtype → valtype → Bool
  /-- Whether a signature is that of a key for a script. -/
  CheckSig : valtype → valtype → CScript → Bool

/-- The state of the loop. The stacks have their tops in front, and the conditions the innermost. -/
structure EvalState where
  stack : List valtype
  altstack : List valtype
  vfExec : List Bool
  nOpCount : ℕ
  /-- The script from the last separator on. -/
  pbegincodehash : CScript
deriving DecidableEq

/-- The operations that move elements of the stack. An operation that is not known fails. -/
def stackOp (opcode : UInt8) (stack : List valtype) : Option (List valtype) :=
  if opcode = OP_2DROP then
    match stack with
    | _ :: _ :: stack => some stack
    | _ => none
  else if opcode = OP_2DUP then
    match stack with
    | x2 :: x1 :: stack => some (x2 :: x1 :: x2 :: x1 :: stack)
    | _ => none
  else if opcode = OP_3DUP then
    match stack with
    | x3 :: x2 :: x1 :: stack => some (x3 :: x2 :: x1 :: x3 :: x2 :: x1 :: stack)
    | _ => none
  else if opcode = OP_2OVER then
    match stack with
    | x4 :: x3 :: x2 :: x1 :: stack => some (x2 :: x1 :: x4 :: x3 :: x2 :: x1 :: stack)
    | _ => none
  else if opcode = OP_2ROT then
    match stack with
    | x6 :: x5 :: x4 :: x3 :: x2 :: x1 :: stack => some (x2 :: x1 :: x6 :: x5 :: x4 :: x3 :: stack)
    | _ => none
  else if opcode = OP_2SWAP then
    match stack with
    | x4 :: x3 :: x2 :: x1 :: stack => some (x2 :: x1 :: x4 :: x3 :: stack)
    | _ => none
  else if opcode = OP_IFDUP then
    match stack with
    | x :: stack => some (if CastToBool x then x :: x :: stack else x :: stack)
    | _ => none
  else if opcode = OP_DROP then
    match stack with
    | _ :: stack => some stack
    | _ => none
  else if opcode = OP_DUP then
    match stack with
    | x :: stack => some (x :: x :: stack)
    | _ => none
  else if opcode = OP_NIP then
    match stack with
    | x2 :: _ :: stack => some (x2 :: stack)
    | _ => none
  else if opcode = OP_OVER then
    match stack with
    | x2 :: x1 :: stack => some (x1 :: x2 :: x1 :: stack)
    | _ => none
  else if opcode = OP_ROT then
    match stack with
    | x3 :: x2 :: x1 :: stack => some (x1 :: x3 :: x2 :: stack)
    | _ => none
  else if opcode = OP_SWAP then
    match stack with
    | x2 :: x1 :: stack => some (x1 :: x2 :: stack)
    | _ => none
  else if opcode = OP_TUCK then
    match stack with
    | x2 :: x1 :: stack => some (x2 :: x1 :: x2 :: stack)
    | _ => none
  else none

def bnBool (fValue : Bool) : ℤ := if fValue then 1 else 0

/-- The operations on one number. -/
def unaryOps : List UInt8 := [OP_1ADD, OP_1SUB, OP_NEGATE, OP_ABS, OP_NOT, OP_0NOTEQUAL]

def unaryResult (opcode : UInt8) (bn : ℤ) : ℤ :=
  if opcode = OP_1ADD then bn + 1
  else if opcode = OP_1SUB then bn - 1
  else if opcode = OP_NEGATE then -bn
  else if opcode = OP_ABS then if bn < 0 then -bn else bn
  else if opcode = OP_NOT then bnBool (bn == 0)
  else bnBool (bn != 0)

/-- The operations on two numbers. -/
def binaryOps : List UInt8 :=
  [OP_ADD, OP_SUB, OP_BOOLAND, OP_BOOLOR, OP_NUMEQUAL, OP_NUMEQUALVERIFY, OP_NUMNOTEQUAL, OP_LESSTHAN,
    OP_GREATERTHAN, OP_LESSTHANOREQUAL, OP_GREATERTHANOREQUAL, OP_MIN, OP_MAX]

def binaryResult (opcode : UInt8) (bn1 bn2 : ℤ) : ℤ :=
  if opcode = OP_ADD then bn1 + bn2
  else if opcode = OP_SUB then bn1 - bn2
  else if opcode = OP_BOOLAND then bnBool (bn1 != 0 && bn2 != 0)
  else if opcode = OP_BOOLOR then bnBool (bn1 != 0 || bn2 != 0)
  else if opcode = OP_NUMEQUAL ∨ opcode = OP_NUMEQUALVERIFY then bnBool (bn1 == bn2)
  else if opcode = OP_NUMNOTEQUAL then bnBool (bn1 != bn2)
  else if opcode = OP_LESSTHAN then bnBool (decide (bn1 < bn2))
  else if opcode = OP_GREATERTHAN then bnBool (decide (bn1 > bn2))
  else if opcode = OP_LESSTHANOREQUAL then bnBool (decide (bn1 ≤ bn2))
  else if opcode = OP_GREATERTHANOREQUAL then bnBool (decide (bn1 ≥ bn2))
  else if opcode = OP_MIN then if bn1 < bn2 then bn1 else bn2
  else if bn1 > bn2 then bn1 else bn2

/-- The operations that replace the top element by a hash. -/
def hashOps : List UInt8 := [OP_RIPEMD160, OP_SHA1, OP_SHA256, OP_HASH160, OP_HASH256]

/-- Takes the top element off the stack when it is true, and fails when it is not. -/
def popTrue : List valtype → Option (List valtype)
  | [] => none
  | vch :: stack => if CastToBool vch then some stack else none

/-- Puts a truth value on the stack, and takes it off again for an operation that verifies it. -/
def pushResult (fVerify fValue : Bool) (stack : List valtype) : Option (List valtype) :=
  if fVerify then popTrue (vchBool fValue :: stack) else some (vchBool fValue :: stack)

variable (d : Interpreter)

/-- The operations that number their operands. -/
def PICK_ROLL (opcode : UInt8) : List valtype → Option (List valtype)
  | vch :: x :: stack => do
    let n := d.getint (← d.toNumber vch)
    let stack := x :: stack
    if n < 0 ∨ (stack.length : ℤ) ≤ n then none
    else do
      let vch ← stack[n.toNat]?
      if opcode = OP_ROLL then some (vch :: stack.eraseIdx n.toNat) else some (vch :: stack)
  | _ => none

/-- The operations on numbers. -/
def numericOp (opcode : UInt8) (stack : List valtype) : Option (List valtype) :=
  if opcode ∈ unaryOps then
    match stack with
    | vch :: stack => do
      let bn ← d.toNumber vch
      some (d.getvch (d.keep (unaryResult opcode bn)) :: stack)
    | _ => none
  else if opcode ∈ binaryOps then
    match stack with
    | vch2 :: vch1 :: stack => do
      let bn1 ← d.toNumber vch1
      let bn2 ← d.toNumber vch2
      let stack := d.getvch (d.keep (binaryResult opcode bn1 bn2)) :: stack
      if opcode = OP_NUMEQUALVERIFY then popTrue stack else some stack
    | _ => none
  else
    match stack with
    | vch3 :: vch2 :: vch1 :: stack => do
      let bn1 ← d.toNumber vch1
      let bn2 ← d.toNumber vch2
      let bn3 ← d.toNumber vch3
      some (vchBool (decide (bn2 ≤ bn1) && decide (bn1 < bn3)) :: stack)
    | _ => none

def hashOf (opcode : UInt8) (vch : valtype) : valtype :=
  if opcode = OP_RIPEMD160 then d.RIPEMD160 vch
  else if opcode = OP_SHA1 then d.SHA1 vch
  else if opcode = OP_SHA256 then d.SHA256 vch
  else if opcode = OP_HASH160 then d.HASH160 vch
  else d.HASH256 vch

def CHECKSIG (opcode : UInt8) (scriptCode : CScript) :
    List valtype → Option (List valtype)
  | vchPubKey :: vchSig :: stack =>
    let scriptCode := CScript.FindAndDelete scriptCode (pushData vchSig)
    if d.checkEncoding vchSig vchPubKey then
      pushResult (opcode == OP_CHECKSIGVERIFY) (d.CheckSig vchSig vchPubKey scriptCode) stack
    else none
  | _ => none

/-- The loop over the signatures of a multiple check, each with the next key that it belongs to. There
is no result when the script does not go on. -/
def checkSigs (d : Interpreter) (scriptCode : CScript) :
    List valtype → List valtype → Option Bool
  | [], _ => some true
  | _ :: _, [] => some false
  | vchSig :: sigs, vchPubKey :: keys =>
    if d.checkEncoding vchSig vchPubKey then
      let left := if d.CheckSig vchSig vchPubKey scriptCode then sigs else vchSig :: sigs
      if keys.length < left.length then some false else checkSigs d scriptCode left keys
    else none
termination_by structural _ keys => keys

/-- The operands of a multiple check: the keys and the signatures, the last ones first, the element
below them, and the rest of the stack. -/
structure MultisigArgs where
  keys : List valtype
  sigs : List valtype
  dummy : valtype
  rest : List valtype

/-- Reads the operands of a multiple check. There are none when the counts are wrong, the stack is too
short, or the keys are too many operations. -/
def multisigArgs (nOpCount : ℕ) (stack : List valtype) : Option MultisigArgs := do
  let nKeysCount := d.getint (← d.toNumber (← stack[0]?))
  if nKeysCount < 0 ∨ 20 < nKeysCount ∨ nMaxOpCount < nOpCount + nKeysCount then none
  else do
    let nKeysCount := nKeysCount.toNat
    let nSigsCount := d.getint (← d.toNumber (← stack[1 + nKeysCount]?))
    if nSigsCount < 0 ∨ nKeysCount < nSigsCount then none
    else do
      let nSigsCount := nSigsCount.toNat
      let dummy ← stack[2 + nKeysCount + nSigsCount]?
      some
        { keys := (stack.drop 1).take nKeysCount
          sigs := (stack.drop (2 + nKeysCount)).take nSigsCount
          dummy := dummy
          rest := stack.drop (3 + nKeysCount + nSigsCount) }

/-- The check of several signatures. The number of operations grows by that of the keys. -/
def CHECKMULTISIG (opcode : UInt8) (s : EvalState) : Option EvalState := do
  let args ← multisigArgs d s.nOpCount s.stack
  let scriptCode := args.sigs.foldl
    (fun scriptCode vchSig => CScript.FindAndDelete scriptCode (pushData vchSig)) s.pbegincodehash
  let fSuccess ← checkSigs d scriptCode args.sigs args.keys
  if d.flags &&& SCRIPT_VERIFY_NULLDUMMY ≠ 0 ∧ args.dummy ≠ [] then none
  else do
    let stack ← pushResult (opcode == OP_CHECKMULTISIGVERIFY) fSuccess args.rest
    some { s with stack := stack, nOpCount := s.nOpCount + args.keys.length }

/-- The operations that only change the stack. -/
def plainOp (opcode : UInt8) (s : EvalState) : Option (List valtype) :=
  if opcode = OP_1NEGATE ∨ (OP_1 ≤ opcode ∧ opcode ≤ OP_16) then
    some (d.getvch (d.keep (opcode.toNat - (OP_1.toNat - 1 : ℕ))) :: s.stack)
  else if opcode = OP_NOP then some s.stack
  else if OP_NOP1 ≤ opcode ∧ opcode ≤ OP_NOP10 then
    if d.flags &&& SCRIPT_VERIFY_DISCOURAGE_UPGRADABLE_NOPS ≠ 0 then none else some s.stack
  else if opcode = OP_VERIFY then popTrue s.stack
  else if opcode = OP_DEPTH then some (d.getvch (d.keep s.stack.length) :: s.stack)
  else if opcode = OP_PICK ∨ opcode = OP_ROLL then PICK_ROLL d opcode s.stack
  else if opcode = OP_SIZE then
    match s.stack with
    | vch :: stack => some (d.getvch (d.keep vch.length) :: vch :: stack)
    | _ => none
  else if opcode = OP_EQUAL ∨ opcode = OP_EQUALVERIFY then
    match s.stack with
    | vch2 :: vch1 :: stack => pushResult (opcode == OP_EQUALVERIFY) (vch1 == vch2) stack
    | _ => none
  else if opcode ∈ unaryOps ∨ opcode ∈ binaryOps ∨ opcode = OP_WITHIN then numericOp d opcode s.stack
  else if opcode ∈ hashOps then
    match s.stack with
    | vch :: stack => some (hashOf d opcode vch :: stack)
    | _ => none
  else if opcode = OP_CHECKSIG ∨ opcode = OP_CHECKSIGVERIFY then
    CHECKSIG d opcode s.pbegincodehash s.stack
  else stackOp opcode s.stack

/-- Executes an operation. `fExec` says whether all conditions hold, and `script` is the rest of the
script. -/
def evalOp (fExec : Bool) (opcode : UInt8) (script : CScript) (s : EvalState) :
    Option EvalState :=
  if opcode = OP_IF ∨ opcode = OP_NOTIF then
    if fExec then
      match s.stack with
      | vch :: stack =>
        let fValue := if opcode = OP_NOTIF then !CastToBool vch else CastToBool vch
        some { s with stack := stack, vfExec := fValue :: s.vfExec }
      | [] => none
    else some { s with vfExec := false :: s.vfExec }
  else if opcode = OP_ELSE then
    match s.vfExec with
    | fValue :: vfExec => some { s with vfExec := (!fValue) :: vfExec }
    | [] => none
  else if opcode = OP_ENDIF then
    match s.vfExec with
    | _ :: vfExec => some { s with vfExec := vfExec }
    | [] => none
  else if opcode = OP_TOALTSTACK then
    match s.stack with
    | vch :: stack => some { s with stack := stack, altstack := vch :: s.altstack }
    | [] => none
  else if opcode = OP_FROMALTSTACK then
    match s.altstack with
    | vch :: altstack => some { s with stack := vch :: s.stack, altstack := altstack }
    | [] => none
  else if opcode = OP_CODESEPARATOR then some { s with pbegincodehash := script }
  else if opcode = OP_CHECKMULTISIG ∨ opcode = OP_CHECKMULTISIGVERIFY then CHECKMULTISIG d opcode s
  else (plainOp d opcode s).map fun stack => { s with stack := stack }

/-- Counts an operation, and fails when there are too many or it is disabled. -/
def countOp (opcode : UInt8) (vchPushValue : valtype) (s : EvalState) : Option EvalState :=
  if MAX_SCRIPT_ELEMENT_SIZE < vchPushValue.length then none
  else
    let s := if OP_16 < opcode then { s with nOpCount := s.nOpCount + 1 } else s
    if OP_16 < opcode ∧ nMaxOpCount < s.nOpCount then none
    else if opcode ∈ disabledOps then none
    else some s

/-- Pushes data or executes an operation, as far as the conditions hold. -/
def runOp (opcode : UInt8) (vchPushValue : valtype) (script : CScript)
    (s : EvalState) : Option EvalState :=
  let fExec := s.vfExec.all id
  if fExec ∧ opcode ≤ OP_PUSHDATA4 then
    if d.checkPush vchPushValue opcode then some { s with stack := vchPushValue :: s.stack } else none
  else if fExec ∨ (OP_IF ≤ opcode ∧ opcode ≤ OP_ENDIF) then evalOp d fExec opcode script s
  else some s

/-- One round of the loop, with the rest of the script after the operation. -/
def evalStep (opcode : UInt8) (vchPushValue : valtype) (script : CScript)
    (s : EvalState) : Option EvalState := do
  let s ← countOp opcode vchPushValue s
  let s ← runOp d opcode vchPushValue script s
  if nMaxStackSize < s.stack.length + s.altstack.length then none else some s

/-- The loop, with the number of operations that it may still read. -/
def evalLoop (d : Interpreter) : ℕ → EvalState → CScript → Option EvalState
  | _, s, [] => some s
  | 0, _, _ :: _ => none
  | fuel + 1, s, script => do
    let op ← readInstruction script
    let s ← evalStep d op.opcode op.vch op.rest s
    evalLoop d fuel s op.rest

/-- Evaluates a script. There is no result when it fails. -/
def evalScript (stack : List valtype) (script : CScript) : Option (List valtype) :=
  if nMaxScriptSize < script.length then none
  else do
    let s ← evalLoop d script.length ⟨stack, [], [], 0, script⟩ script
    if s.vfExec = [] then some s.stack else none

/-! ## The two interpreters -/

/-- The flags that only the functions below look at. -/
def SCRIPT_VERIFY_P2SH : UInt32 := 1
def SCRIPT_VERIFY_DERSIG : UInt32 := 4
def SCRIPT_VERIFY_LOW_S : UInt32 := 8
def SCRIPT_VERIFY_SIGPUSHONLY : UInt32 := 32
def SCRIPT_VERIFY_MINIMALDATA : UInt32 := 64

/-- The functions of the libraries: the hashes, of which the source has its own classes as well, and
whether a signature has the lower one of the two values that it can have. -/
structure ScriptLibrary where
  RIPEMD160 : valtype → valtype
  SHA1 : valtype → valtype
  SHA256 : valtype → valtype
  Hash_bmw512 : valtype → valtype
  CheckLowS : valtype → Bool

namespace ScriptLibrary

def Hash160 (lib : ScriptLibrary) (vch : valtype) : valtype := lib.RIPEMD160 (lib.SHA256 vch)

/-- The hash of `CHash256`. -/
def CHash256 (lib : ScriptLibrary) (vch : valtype) : valtype := lib.SHA256 (lib.SHA256 vch)

/-- Whether a signature is written as it should be, with the lower value. -/
def IsLowDERSignature (lib : ScriptLibrary) (vchSig : valtype) : Bool :=
  IsDERSignature vchSig && lib.CheckLowS vchSig.dropLast

end ScriptLibrary

/-- A check of a signature for a key and a script. -/
abbrev SigOracle := valtype → valtype → CScript → Bool

def hasFlag (flags flag : UInt32) : Bool := flags &&& flag != 0

namespace CBigNum

/-- The encoding that blocks ask for, whatever the flags are. -/
def CheckSignatureEncoding (lib : ScriptLibrary) (vchSig : valtype) : Bool :=
  lib.IsLowDERSignature vchSig && IsDefinedHashtypeSignature vchSig

/-- The interpreter over `CBigNum`. -/
def interpreter (lib : ScriptLibrary) (flags : UInt32) (CheckSig : SigOracle) : Interpreter where
  flags := flags
  checkPush _ _ := true
  toNumber := CastToBigNum
  keep := id
  getint := getint
  getvch := getvch
  RIPEMD160 := lib.RIPEMD160
  SHA1 := lib.SHA1
  SHA256 := lib.SHA256
  HASH160 := lib.Hash160
  HASH256 := lib.Hash_bmw512
  checkEncoding vchSig vchPubKey := !hasFlag flags SCRIPT_VERIFY_STRICTENC ||
    (CheckSignatureEncoding lib vchSig && IsCompressedOrUncompressedPubKey vchPubKey)
  CheckSig vchSig vchPubKey scriptCode := CheckSignatureEncoding lib vchSig &&
    IsCompressedOrUncompressedPubKey vchPubKey && CheckSig vchSig vchPubKey scriptCode

/-- The interpreter that blocks are judged by. -/
def EvalScript (lib : ScriptLibrary) (flags : UInt32) (CheckSig : SigOracle) :
    List valtype → CScript → Option (List valtype) :=
  evalScript (interpreter lib flags CheckSig)

end CBigNum

namespace CScriptNum

def CheckSignatureEncoding (lib : ScriptLibrary) (vchSig : valtype) (flags : UInt32) : Bool :=
  if hasFlag flags (SCRIPT_VERIFY_DERSIG ||| SCRIPT_VERIFY_LOW_S ||| SCRIPT_VERIFY_STRICTENC) ∧
      IsDERSignature vchSig = false then false
  else if hasFlag flags SCRIPT_VERIFY_LOW_S ∧ lib.IsLowDERSignature vchSig = false then false
  else if hasFlag flags SCRIPT_VERIFY_STRICTENC ∧ IsDefinedHashtypeSignature vchSig = false then false
  else true

def CheckPubKeyEncoding (vchPubKey : valtype) (flags : UInt32) : Bool :=
  !(hasFlag flags SCRIPT_VERIFY_STRICTENC && !IsCompressedOrUncompressedPubKey vchPubKey)

def CheckMinimalPush (data : valtype) (opcode : UInt8) : Bool :=
  match data with
  | [] => opcode == OP_0
  | [byte] =>
    if 1 ≤ byte ∧ byte ≤ 16 then opcode == OP_1 + (byte - 1)
    else if byte = 0x81 then opcode == OP_1NEGATE
    else opcode == 1
  | _ =>
    if data.length ≤ 75 then opcode.toNat == data.length
    else if data.length ≤ 255 then opcode == OP_PUSHDATA1
    else if data.length ≤ 65535 then opcode == OP_PUSHDATA2
    else true

/-- The interpreter over `CScriptNum`. -/
def interpreter (lib : ScriptLibrary) (flags : UInt32) (CheckSig : SigOracle) : Interpreter where
  flags := flags
  checkPush data opcode := !(hasFlag flags SCRIPT_VERIFY_MINIMALDATA && !CheckMinimalPush data opcode)
  toNumber vch := ofVch vch (hasFlag flags SCRIPT_VERIFY_MINIMALDATA)
  keep := wrap64
  getint := getint
  getvch := serialize
  RIPEMD160 := lib.RIPEMD160
  SHA1 := lib.SHA1
  SHA256 := lib.SHA256
  HASH160 vch := lib.RIPEMD160 (lib.SHA256 vch)
  HASH256 := lib.CHash256
  checkEncoding vchSig vchPubKey :=
    CheckSignatureEncoding lib vchSig flags && CheckPubKeyEncoding vchPubKey flags
  CheckSig := CheckSig

def EvalScript (lib : ScriptLibrary) (flags : UInt32) (CheckSig : SigOracle) :
    List valtype → CScript → Option (List valtype) :=
  evalScript (interpreter lib flags CheckSig)

end CScriptNum

/-! ## Verification -/

/-- The loop of `IsPushOnly`, with the number of operations that it may still read. -/
def isPushOnlyLoop : ℕ → CScript → Bool
  | _, [] => true
  | 0, _ :: _ => false
  | fuel + 1, script =>
    match readInstruction script with
    | none => false
    | some op => decide (op.opcode ≤ OP_16) && isPushOnlyLoop fuel op.rest

def CScript.IsPushOnly (script : CScript) : Bool := isPushOnlyLoop script.length script

def endsTrue : Option (List valtype) → Bool
  | some (vch :: _) => CastToBool vch
  | _ => false

/-- Whether the script that is revealed on top of the stack accepts the rest of the stack. -/
def acceptsRevealed (d : Interpreter) : List valtype → Bool
  | pubKeySerialized :: stackCopy => endsTrue (evalScript d stackCopy pubKeySerialized)
  | [] => false

/-- Verifies a script by another one. `fP2SH` says whether the scripts that inputs reveal are
evaluated. -/
def verifyScript (d : Interpreter) (fP2SH : Bool) (scriptSig scriptPubKey : CScript) : Bool :=
  match evalScript d [] scriptSig with
  | none => false
  | some stackCopy =>
    endsTrue (evalScript d stackCopy scriptPubKey) &&
      (!(fP2SH && scriptPubKey.IsPayToScriptHash) ||
        (CScript.IsPushOnly scriptSig && acceptsRevealed d stackCopy))

def CBigNum.VerifyScript (lib : ScriptLibrary) (flags : UInt32) (CheckSig : SigOracle)
    (scriptSig scriptPubKey : CScript) : Bool :=
  verifyScript (CBigNum.interpreter lib flags CheckSig) true scriptSig scriptPubKey

def CScriptNum.VerifyScript (lib : ScriptLibrary) (flags : UInt32) (CheckSig : SigOracle)
    (scriptSig scriptPubKey : CScript) : Bool :=
  !(hasFlag flags SCRIPT_VERIFY_SIGPUSHONLY && !CScript.IsPushOnly scriptSig) &&
    verifyScript (CScriptNum.interpreter lib flags CheckSig) (hasFlag flags SCRIPT_VERIFY_P2SH)
      scriptSig scriptPubKey

end ZalemCoin.Script
