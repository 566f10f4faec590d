import ZalemCoin.Chain.AcceptBlock
import ZalemCoin.Script.Signing

/-!
# Standard transactions

The memory pool takes only transactions of known forms. `IsStandardTx` judges a transaction on its own
and names the reason when it is refused; `AreInputsStandard` judges what its inputs spend, and how.
-/

namespace ZalemCoin.Script

open Chain Lib

variable {Key : Type}

/-! ## Scripts -/

/-- Whether an operation pushes its data in a longer form than there is. -/
def wastesBytes (op : Instruction) : Bool :=
  (op.opcode < OP_PUSHDATA1 && OP_0 < op.opcode && op.vch.length == 1 && op.vch.all (· ≤ 16)) ||
    (op.opcode == OP_PUSHDATA1 && op.vch.length < OP_PUSHDATA1.toNat) ||
    (op.opcode == OP_PUSHDATA2 && op.vch.length ≤ 0xff) ||
    (op.opcode == OP_PUSHDATA4 && op.vch.length ≤ 0xffff)

/-- The loop of `HasCanonicalPushes`, with the number of operations that it may still read. -/
def canonicalPushesLoop : ℕ → CScript → Bool
  | _, [] => true
  | 0, _ :: _ => false
  | fuel + 1, script =>
    match readInstruction script with
    | none => false
    | some op =>
      if OP_16 < op.opcode then canonicalPushesLoop fuel op.rest
      else !wastesBytes op && canonicalPushesLoop fuel op.rest

def HasCanonicalPushes (script : CScript) : Bool := canonicalPushesLoop script.length script

/-- The kind of a script that outputs may have: multiple signature scripts ask for at most three
keys. -/
def IsStandard (scriptPubKey : CScript) : Option txnouttype :=
  match Solver scriptPubKey with
  | none => none
  | some (whichType, vSolutions) =>
    let m := (vSolutions.head?.bind List.head?).getD 0
    let n := (vSolutions.getLast?.bind List.head?).getD 0
    if whichType = .TX_MULTISIG ∧ (n < 1 ∨ 3 < n ∨ m < 1 ∨ n < m) then none
    else if whichType = .TX_NONSTANDARD then none
    else some whichType

/-- How many elements a script leaves to the one that it satisfies; none when it cannot be
satisfied. -/
def ScriptSigArgsExpected (t : txnouttype) (vSolutions : List valtype) : Option ℕ :=
  match t with
  | .TX_NONSTANDARD | .TX_NULL_DATA => none
  | .TX_PUBKEY => some 1
  | .TX_PUBKEYHASH => some 2
  | .TX_MULTISIG => (vSolutions.head?.bind List.head?).map fun m => m.toNat + 1
  | .TX_SCRIPTHASH => some 1

/-! ## Transactions -/

def MAX_STANDARD_TX_SIZE : ℕ := 20512000 / 2 / 5

/-- The limit of the signature operations of a script that an input reveals. -/
def MAX_P2SH_SIGOPS : ℕ := 15

def checkStandardInput (txin : CTxIn) : Except String Unit := do
  ensure (txin.scriptSig.length ≤ 1650) "scriptsig-size"
  ensure (CScript.IsPushOnly txin.scriptSig) "scriptsig-not-pushonly"
  ensure (HasCanonicalPushes txin.scriptSig) "scriptsig-non-canonical-push"

def checkStandardOutput (nDataOut : ℕ) (txout : CTxOut) : Except String ℕ :=
  match IsStandard txout.scriptPubKey with
  | none => .error "scriptpubkey"
  | some whichType => do
    ensure (whichType = .TX_NULL_DATA ∨ txout.nValue ≠ 0) "dust"
    ensure (HasCanonicalPushes txout.scriptPubKey) "scriptpubkey-non-canonical-push"
    pure (if whichType = .TX_NULL_DATA then nDataOut + 1 else nDataOut)

def IsStandardTx (env : Env) (s : NodeState) (tx : CTransaction) : Except String Unit := do
  ensure (tx.nVersion ≤ 1 ∧ 1 ≤ tx.nVersion) "version"
  ensure (IsFinalTx env s tx (s.nBestHeight + 1) 0) "non-final"
  ensure ((tx.nTime.toNat : ℤ) ≤ env.adjustedTime + nDrift) "time-too-new"
  ensure (tx.GetSerializeSize < MAX_STANDARD_TX_SIZE) "tx-size"
  tx.vin.forM checkStandardInput
  let nDataOut ← tx.vout.foldlM checkStandardOutput 0
  ensure (¬(1 < nDataOut ∧ tx.vout.length / 2 < nDataOut)) "multi-op-return"

/-! ## Inputs -/

/-- What the loop over the inputs returns at one of them; none when it goes on. A revealed script of
no known form ends the loop, whatever the inputs that follow are. -/
def inputVerdict (lib : SignatureLibrary Key) (tx : CTransaction) (i : ℕ) (txin : CTxIn)
    (prevScript : CScript) : Option Bool :=
  match Solver prevScript with
  | none => some false
  | some (whichType, vSolutions) =>
    match ScriptSigArgsExpected whichType vSolutions,
        CBigNum.EvalScript lib.toScriptLibrary SCRIPT_VERIFY_NONE (CheckSig lib tx i 0) []
          txin.scriptSig with
    | some nArgsExpected, some stack =>
      if whichType = .TX_SCRIPTHASH then
        match stack with
        | [] => some false
        | subscript :: _ =>
          match Solver subscript with
          | none => some (decide (CScript.GetSigOpCount subscript true ≤ MAX_P2SH_SIGOPS))
          | some (whichType2, vSolutions2) =>
            match ScriptSigArgsExpected whichType2 vSolutions2 with
            | none => some false
            | some tmpExpected =>
              if whichType2 = .TX_SCRIPTHASH ∨ stack.length ≠ nArgsExpected + tmpExpected then
                some false
              else none
      else if stack.length ≠ nArgsExpected then some false
      else none
    | _, _ => some false

def standardInputsLoop (lib : SignatureLibrary Key) (tx : CTransaction)
    (GetOutputFor : CTxIn → Option CTxOut) : List (CTxIn × ℕ) → Bool
  | [] => true
  | (txin, i) :: vin =>
    match GetOutputFor txin with
    | none => false
    | some prev =>
      match inputVerdict lib tx i txin prev.scriptPubKey with
      | some standard => standard
      | none => standardInputsLoop lib tx GetOutputFor vin

/-- Whether the inputs of a transaction spend standard scripts in a standard way, by the transactions
that they spend from. -/
def AreInputsStandard (lib : SignatureLibrary Key) (tx : CTransaction)
    (mapInputs : UInt256 → Option CTransaction) : Bool :=
  tx.IsCoinBase || standardInputsLoop lib tx
    (fun txin => (mapInputs txin.prevout.hash).bind fun txPrev => txPrev.vout[txin.prevout.n.toNat]?)
    tx.vin.zipIdx

def withScripts (lib : SignatureLibrary Key) (ctx : Context) (env : Env) (s : NodeState) : Context :=
  { ctx with
    isStandardTx := fun tx => (IsStandardTx env s tx).isOk
    areInputsStandard := AreInputsStandard lib
    verifySignature := fun txFrom txTo nIn flags => VerifySignature lib txFrom txTo nIn flags 0 }

end ZalemCoin.Script
