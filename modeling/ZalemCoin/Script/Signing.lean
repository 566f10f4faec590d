import Mathlib.Data.Fintype.Card
import Mathlib.Data.Fintype.Order
import ZalemCoin.Script.Interpreter

/-!
# Signing inputs

`SignSignature` fills the script of an input with the signatures that the output it spends asks for,
made with the keys of a key store, and tests the result. For an output that pays to the hash of a
script it looks that script up, signs for it, and pushes it last. `VerifySignature` is the check that
blocks are judged by.
-/

namespace ZalemCoin.Script

open Chain

/-- The functions of the libraries that signing needs: those of keys and signatures, and the hashes of
serialised transactions. -/
structure SignatureLibrary (Key : Type) extends ScriptLibrary where
  GetPubKey : Key → CPubKey
  /-- The signature of a hash, which a key that is not valid does not have. -/
  Sign : Key → UInt256 → Option valtype
  Verify : CPubKey → UInt256 → valtype → Bool
  HashWriter : CTransaction → UInt32 → UInt256
  GetHash : CTransaction → UInt256

variable {Key : Type} {lib : SignatureLibrary Key}

def SignatureLibrary.GetID (lib : SignatureLibrary Key) (pubkey : CPubKey) : CKeyID :=
  pubkey.GetID fun vch => uint160 (lib.Hash160 vch)

/-- Keys and scripts, each under its identifier, and the scripts that are only watched. A script is
kept only when it can be pushed. -/
structure CKeyStore (lib : SignatureLibrary Key) where
  GetKey : CKeyID → Option Key
  GetCScript : CScriptID → Option CScript
  HaveWatchOnly : CScript → Bool
  id_eq : ∀ {address key}, GetKey address = some key → lib.GetID (lib.GetPubKey key) = address
  hash_eq : ∀ {hash script}, GetCScript hash = some script → uint160 (lib.Hash160 script) = hash
  size_le : ∀ {hash script}, GetCScript hash = some script → script.length ≤ MAX_SCRIPT_ELEMENT_SIZE

def CKeyStore.HaveKey (keystore : CKeyStore lib) (address : CKeyID) : Bool :=
  (keystore.GetKey address).isSome

def CKeyStore.GetPubKey (keystore : CKeyStore lib) (address : CKeyID) : Option CPubKey :=
  (keystore.GetKey address).map lib.GetPubKey

/-! ## The hash that is signed -/

def CTxOut.null : CTxOut := ⟨-1, []⟩

def blankScripts (scriptCode : CScript) (nIn : ℕ) (vin : List CTxIn) : List CTxIn :=
  vin.mapIdx fun i txin => { txin with scriptSig := if i = nIn then scriptCode else [] }

def freeSequences (nIn : ℕ) (vin : List CTxIn) : List CTxIn :=
  vin.mapIdx fun i txin => if i = nIn then txin else { txin with nSequence := 0 }

def SignatureHash (lib : SignatureLibrary Key) (scriptCode : CScript) (txTo : CTransaction) (nIn : ℕ)
    (nHashType : UInt32) : UInt256 :=
  if txTo.vin.length ≤ nIn then 1
  else
    let scriptCode := CScript.FindAndDelete scriptCode [OP_CODESEPARATOR]
    let vin := blankScripts scriptCode nIn txTo.vin
    let fSingle := nHashType &&& 0x1f = SIGHASH_SINGLE.toUInt32
    if fSingle ∧ txTo.vout.length ≤ nIn then 1
    else
      let txTmp : CTransaction :=
        if nHashType &&& 0x1f = SIGHASH_NONE.toUInt32 then
          { txTo with vin := freeSequences nIn vin, vout := [] }
        else if fSingle then
          { txTo with
            vin := freeSequences nIn vin
            vout := List.replicate nIn CTxOut.null ++ (txTo.vout.drop nIn).take 1 }
        else { txTo with vin := vin }
      let txTmp :=
        if nHashType &&& SIGHASH_ANYONECANPAY.toUInt32 ≠ 0 then
          { txTmp with vin := txTmp.vin[nIn]?.toList }
        else txTmp
      lib.HashWriter txTmp nHashType

/-! ## Checking a signature -/

def CheckSig (lib : SignatureLibrary Key) (txTo : CTransaction) (nIn : ℕ) (nHashType : UInt32) :
    SigOracle := fun vchSig vchPubKey scriptCode =>
  let pubkey := CPubKey.ofBytes vchPubKey
  if pubkey.IsValid = false then false
  else
    match vchSig.getLast? with
    | none => false
    | some byte =>
      if nHashType ≠ 0 ∧ nHashType ≠ byte.toUInt32 then false
      else lib.Verify pubkey (SignatureHash lib scriptCode txTo nIn byte.toUInt32) vchSig.dropLast

def SignatureChecker.CheckSig (lib : SignatureLibrary Key) (txTo : CTransaction) (nIn : ℕ) :
    SigOracle := fun vchSig vchPubKey scriptCode =>
  let pubkey := CPubKey.ofBytes vchPubKey
  if pubkey.IsValid = false then false
  else
    match vchSig.getLast? with
    | none => false
    | some byte =>
      lib.Verify pubkey (SignatureHash lib scriptCode txTo nIn byte.toUInt32) vchSig.dropLast

def VerifySignature (lib : SignatureLibrary Key) (txFrom txTo : CTransaction) (nIn : ℕ) (flags : UInt32)
    (nHashType : UInt32) : Bool :=
  match txTo.vin[nIn]? with
  | none => false
  | some txin =>
    match txFrom.vout[txin.prevout.n.toNat]? with
    | none => false
    | some txout =>
      if txin.prevout.hash ≠ lib.GetHash txFrom then false
      else
        CBigNum.VerifyScript lib.toScriptLibrary flags (CheckSig lib txTo nIn nHashType) txin.scriptSig
          txout.scriptPubKey

/-! ## Signing -/

def Sign1 (keystore : CKeyStore lib) (address : CKeyID) (hash : UInt256) (nHashType : UInt32)
    (scriptSigRet : CScript) : Bool × CScript :=
  match keystore.GetKey address with
  | none => (false, scriptSigRet)
  | some key =>
    match lib.Sign key hash with
    | none => (false, scriptSigRet)
    | some vchSig => (true, scriptSigRet ++ pushData (vchSig ++ [nHashType.toUInt8]))

/-- The loop of `SignN` over the public keys, with the number of signatures so far. -/
def signNLoop (keystore : CKeyStore lib) (hash : UInt256) (nHashType : UInt32) (nRequired : ℕ) :
    List valtype → ℕ → CScript → ℕ × CScript
  | [], nSigned, scriptSigRet => (nSigned, scriptSigRet)
  | pubkey :: pubkeys, nSigned, scriptSigRet =>
    if nSigned < nRequired then
      let (signed, scriptSigRet) :=
        Sign1 keystore (lib.GetID (CPubKey.ofBytes pubkey)) hash nHashType scriptSigRet
      signNLoop keystore hash nHashType nRequired pubkeys (if signed then nSigned + 1 else nSigned)
        scriptSigRet
    else (nSigned, scriptSigRet)

def SignN (keystore : CKeyStore lib) (multisigdata : List valtype) (hash : UInt256)
    (nHashType : UInt32) (scriptSigRet : CScript) : Bool × CScript :=
  let nRequired := ((multisigdata.head?.bind List.head?).getD 0).toNat
  let (nSigned, scriptSigRet) :=
    signNLoop keystore hash nHashType nRequired multisigdata.tail.dropLast 0 scriptSigRet
  (nSigned == nRequired, scriptSigRet)

/-- Signs for a script. The type of the script is returned when it could be signed for completely, and
for a script hash the script that has it in place of signatures. -/
def CKeyStore.Solver (keystore : CKeyStore lib) (scriptPubKey : CScript) (hash : UInt256)
    (nHashType : UInt32) : Option txnouttype × CScript :=
  match Script.Solver scriptPubKey with
  | none => (none, [])
  | some (whichType, vSolutions) =>
    let vch := vSolutions.headD []
    let (solved, scriptSigRet) : Bool × CScript :=
      match whichType with
      | .TX_NONSTANDARD | .TX_NULL_DATA => (false, [])
      | .TX_PUBKEY => Sign1 keystore (lib.GetID (CPubKey.ofBytes vch)) hash nHashType []
      | .TX_PUBKEYHASH =>
        let keyID := uint160 vch
        match Sign1 keystore keyID hash nHashType [] with
        | (false, scriptSigRet) => (false, scriptSigRet)
        | (true, scriptSigRet) =>
          let vch := (keystore.GetPubKey keyID).getD CPubKey.invalid
          (true, scriptSigRet ++ pushData vch.vch)
      | .TX_SCRIPTHASH =>
        match keystore.GetCScript (uint160 vch) with
        | none => (false, [])
        | some script => (true, script)
      | .TX_MULTISIG => SignN keystore vSolutions hash nHashType [OP_0]
    (if solved then some whichType else none, scriptSigRet)

def CTransaction.withScriptSig (txTo : CTransaction) (nIn : ℕ) (scriptSig : CScript) : CTransaction :=
  { txTo with vin := txTo.vin.modify nIn fun txin => { txin with scriptSig := scriptSig } }

/-- Signs an input for the script of the output that it spends. The result says whether the signed
input passes the test, and is the transaction as far as it has been signed. -/
def SignSignature (keystore : CKeyStore lib) (fromPubKey : CScript) (txTo : CTransaction) (nIn : ℕ)
    (nHashType : UInt32) : Bool × CTransaction :=
  let test (txTo : CTransaction) (scriptSig : CScript) : Bool :=
    CScriptNum.VerifyScript lib.toScriptLibrary STANDARD_SCRIPT_VERIFY_FLAGS
      (SignatureChecker.CheckSig lib txTo nIn) scriptSig fromPubKey
  let hash := SignatureHash lib fromPubKey txTo nIn nHashType
  let (whichType, scriptSig) := keystore.Solver fromPubKey hash nHashType
  let txTo := CTransaction.withScriptSig txTo nIn scriptSig
  match whichType with
  | none => (false, txTo)
  | some .TX_SCRIPTHASH =>
    -- what the solver returned is the script that has the hash
    let subscript := scriptSig
    let hash2 := SignatureHash lib subscript txTo nIn nHashType
    let (subType, scriptSig) := keystore.Solver subscript hash2 nHashType
    let scriptSig := scriptSig ++ pushData subscript
    let txTo := CTransaction.withScriptSig txTo nIn scriptSig
    if subType = none ∨ subType = some .TX_SCRIPTHASH then (false, txTo)
    else (test txTo scriptSig, txTo)
  | some _ => (test txTo scriptSig, txTo)

/-! ## Ownership -/

/-- What a wallet can do with an output. -/
inductive isminetype
  | ISMINE_NO | ISMINE_WATCH_ONLY | ISMINE_SPENDABLE
deriving DecidableEq

def HaveKeys (pubkeys : List valtype) (keystore : CKeyStore lib) : ℕ :=
  pubkeys.countP fun pubkey => keystore.HaveKey (lib.GetID (CPubKey.ofBytes pubkey))

/-- What the store can do with an output that has a script. The first argument is the number of scripts
that may be looked at, one inside the other; there is no result when there are more. -/
def IsMine (keystore : CKeyStore lib) : ℕ → CScript → Option isminetype
  | 0, _ => none
  | fuel + 1, scriptPubKey =>
    let otherwise : isminetype :=
      if keystore.HaveWatchOnly scriptPubKey then .ISMINE_WATCH_ONLY else .ISMINE_NO
    match Solver scriptPubKey with
    | none => some otherwise
    | some (whichType, vSolutions) =>
      let vch := vSolutions.headD []
      match whichType with
      | .TX_NONSTANDARD | .TX_NULL_DATA => some otherwise
      | .TX_PUBKEY =>
        if keystore.HaveKey (lib.GetID (CPubKey.ofBytes vch)) then some .ISMINE_SPENDABLE
        else some otherwise
      | .TX_PUBKEYHASH =>
        if keystore.HaveKey (uint160 vch) then some .ISMINE_SPENDABLE else some otherwise
      | .TX_SCRIPTHASH =>
        match keystore.GetCScript (uint160 vch) with
        | none => some otherwise
        | some subscript =>
          (IsMine keystore fuel subscript).map fun ret =>
            if ret = .ISMINE_SPENDABLE then ret else otherwise
      | .TX_MULTISIG =>
        let keys := vSolutions.tail.dropLast
        if HaveKeys keys keystore = keys.length then some .ISMINE_SPENDABLE else some otherwise

/-- The script that is stored under a hash stands for another one by its hash. -/
def CKeyStore.Reveals (keystore : CKeyStore lib) (hash hash' : CScriptID) : Prop :=
  ∃ script vSolutions, keystore.GetCScript hash = some script ∧
    Script.Solver script = some (.TX_SCRIPTHASH, vSolutions) ∧ uint160 (vSolutions.headD []) = hash'

/-- No stored script stands for itself, directly or through others. -/
def CKeyStore.NoHashCycle (keystore : CKeyStore lib) : Prop :=
  ∀ hash, ¬Relation.TransGen keystore.Reveals hash hash

theorem isSome_isMine_succ {keystore : CKeyStore lib} {fuel : ℕ} {script : CScript}
    (h : ∀ vSolutions subscript, Solver script = some (.TX_SCRIPTHASH, vSolutions) →
      keystore.GetCScript (uint160 (vSolutions.headD [])) = some subscript →
        (IsMine keystore fuel subscript).isSome = true) :
    (IsMine keystore (fuel + 1) script).isSome = true := by
  unfold IsMine
  rcases hsolver : Solver script with _ | ⟨_ | _ | _ | _ | _ | _, vSolutions⟩ <;> dsimp only
  · rfl
  · rfl
  · split <;> rfl
  · split <;> rfl
  · rcases hsub : keystore.GetCScript (uint160 (vSolutions.headD [])) with _ | subscript
    · rfl
    · rw [Option.isSome_map]
      exact h _ _ hsolver hsub
  · split <;> rfl
  · rfl

/-- Without a circle of hashes, some stack is enough for every script. -/
theorem exists_isMine {keystore : CKeyStore lib} (h : keystore.NoHashCycle) :
    ∃ n₀, ∀ fuel ≥ n₀, ∀ script, (IsMine keystore fuel script).isSome = true := by
  have hstack : ∀ hashes : Set CScriptID, ∀ depth : CScriptID → ℕ, (∀ hash ∈ hashes, ∀ fuel ≥ depth hash,
      ∀ script, keystore.GetCScript hash = some script → (IsMine keystore fuel script).isSome = true) →
      ∃ n, ∀ fuel ≥ n, ∀ script, (∀ vSolutions, Solver script = some (.TX_SCRIPTHASH, vSolutions) →
        uint160 (vSolutions.headD []) ∈ hashes) → (IsMine keystore fuel script).isSome = true := by
    intro hashes depth hdepth
    obtain ⟨n, hn⟩ := Finite.bddAbove_range depth
    refine ⟨n + 1, fun fuel hfuel script hscr => ?_⟩
    obtain ⟨fuel, rfl⟩ : ∃ k, fuel = k + 1 := ⟨fuel - 1, by omega⟩
    refine isSome_isMine_succ fun vSolutions subscript hsolver hsub =>
      hdepth _ (hscr vSolutions hsolver) fuel ?_ subscript hsub
    have := hn (Set.mem_range_self (uint160 (vSolutions.headD [])))
    omega
  have hirrefl : Std.Irrefl fun hash' hash => Relation.TransGen keystore.Reveals hash hash' := ⟨h⟩
  have htrans : IsTrans CScriptID fun hash' hash => Relation.TransGen keystore.Reveals hash hash' :=
    ⟨fun _ _ _ hab hbc => hbc.trans hab⟩
  -- by induction along the hashes, of which there are finitely many
  have hstor : ∀ hash, ∃ n, ∀ fuel ≥ n, ∀ script, keystore.GetCScript hash = some script →
      (IsMine keystore fuel script).isSome = true := by
    intro hash
    induction hash using (Finite.wellFounded_of_trans_of_irrefl
      fun hash' hash => Relation.TransGen keystore.Reveals hash hash').induction with
    | _ hash ih =>
      choose! depth hdepth using ih
      obtain ⟨n, hn⟩ := hstack {hash' | keystore.Reveals hash hash'} depth
        fun hash' hreveals => hdepth hash' (.single hreveals)
      exact ⟨n, fun fuel hfuel script hscr => hn fuel hfuel script
        fun vSolutions hsolver => ⟨script, vSolutions, hscr, hsolver, rfl⟩⟩
  choose depth hdepth using hstor
  obtain ⟨n, hn⟩ := hstack Set.univ depth fun hash _ => hdepth hash
  exact ⟨n, fun fuel hfuel script => hn fuel hfuel script fun _ _ => trivial⟩
/-- What an output adds to the balance of outputs that can be spent. There is no result when its value
is out of range. -/
def GetCredit (keystore : CKeyStore lib) (fuel : ℕ) (txout : CTxOut) : Option ℤ :=
  if MoneyRange txout.nValue then
    (IsMine keystore fuel txout.scriptPubKey).map fun mine =>
      if mine = .ISMINE_SPENDABLE then txout.nValue else 0
  else none

end ZalemCoin.Script
