import ZalemCoin.Chain.AcceptableInputs
import ZalemCoin.Script.Standard

/-!
# The list of masternodes

A node keeps a list of the masternodes, called floatingcities, that it has heard of. A message `dsee`
announces one, and adds it to the list when its collateral passes the checks, or updates its entry; a
message `dseep` is the ping of one. Entries that expire are removed from time to time.
-/

namespace ZalemCoin.Floatingcity

open Lib Chain Script

def MIN_POOL_PEER_PROTO_VERSION : ℤ := 62005

def PROTOCOL_VERSION : ℤ := 62006

/-- What the transaction that tries the collateral pays. -/
def MNengine_POOL_MAX : ℤ := 999 * COIN

/-- How old the collateral has to be, in blocks. -/
def FLOATINGCITY_MIN_CONFIRMATIONS : ℕ := 7

/-- How often a ping and an announcement are taken, in seconds. -/
def FLOATINGCITY_MIN_DSEEP_SECONDS : ℤ := 30 * 60
def FLOATINGCITY_MIN_DSEE_SECONDS : ℤ := 5 * 60

/-- How long a masternode may be silent, in seconds. -/
def FLOATINGCITY_EXPIRATION_SECONDS : ℤ := 65 * 60
def FLOATINGCITY_REMOVAL_SECONDS : ℤ := 70 * 60

def FloatingcityCollateral (_nHeight : ℕ) : ℤ := 100000

/-- A network address with a port. -/
structure CService where
  ip : BitVec 128
  port : UInt16
deriving DecidableEq

inductive ActiveState
  | FLOATINGCITY_ENABLED | FLOATINGCITY_EXPIRED | FLOATINGCITY_VIN_SPENT | FLOATINGCITY_REMOVE
deriving DecidableEq

/-- The entry of a masternode. -/
structure CFloatingcity where
  /-- The input that claims its collateral. -/
  vin : CTxIn
  addr : CService
  pubkey : CPubKey
  /-- The key that signs its pings. -/
  pubkey2 : CPubKey
  sig : List UInt8
  activeState : ActiveState
  sigTime : ℤ
  lastDseep : ℤ
  lastTimeSeen : ℤ
  protocolVersion : ℤ
  donationAddress : CScript
  donationPercentage : ℤ
  isPortOpen : Bool
deriving DecidableEq

/-- A message `dsee`. -/
structure Dsee where
  vin : CTxIn
  addr : CService
  vchSig : List UInt8
  sigTime : ℤ
  pubkey : CPubKey
  pubkey2 : CPubKey
  count : ℤ
  lastUpdated : ℤ
  protocolVersion : ℤ
  donationAddress : CScript
  donationPercentage : ℤ
deriving DecidableEq

/-- A message `dseep`. -/
structure Dseep where
  vin : CTxIn
  vchSig : List UInt8
  sigTime : ℤ
  stop : Bool
deriving DecidableEq

/-- The messages that concern the list. -/
inductive Message
  | dsee (m : Dsee)
  | dseep (m : Dseep)
deriving DecidableEq

/-- `VerifyMessage` on what the two messages sign. -/
structure CMNengineSigner where
  /-- The key and the signature, then the address, the time, both keys, the version and the
  donation. -/
  verifyDsee : CPubKey → List UInt8 → CService → ℤ → CPubKey → CPubKey → ℤ → CScript → ℤ → Bool
  /-- The key and the signature, then the address, the time and whether the masternode stops. -/
  verifyDseep : CPubKey → List UInt8 → CService → ℤ → Bool → Bool

/-- What a node reads from outside while it processes a message. -/
structure FcEnv extends Chain.Env where
  /-- `IsBlockchainSynced()`. -/
  fBlockchainSynced : Bool
  /-- Whether `cs_main` can be locked while an outpoint is looked at. -/
  lockMain : COutPoint → Bool
  shutdownRequested : Bool
  /-- Whether a node answers at an address. -/
  checkNode : CService → Bool
  /-- The keys of the block index, in their order. -/
  blocks : List UInt256
  /-- Whether the node is a masternode. -/
  fFloatingCity : Bool
  nFloatingcityMinProtocol : ℤ
  collateralPubKey : CScript

/-- The list, and when an entry may be asked for again. -/
structure CFloatingcityMan where
  vFloatingcities : List CFloatingcity
  mWeAskedForFloatingcityListEntry : COutPoint → Option ℤ

/-- The masternode that the node runs itself. -/
structure CActiveFloatingcity where
  vin : CTxIn
  service : CService
  pubKeyFloatingcity : CPubKey

/-- A node that keeps a list of masternodes. -/
structure Node where
  chain : NodeState
  mnodeman : CFloatingcityMan
  activeFloatingcity : CActiveFloatingcity

def CTxIn.null : CTxIn := ⟨COutPoint.null, [], 0xffffffff⟩

variable (ctx : Context)

def payee (pubkey : CPubKey) : CScript :=
  GetScriptForDestination (.keyID (pubkey.GetID fun vch => (ctx.hash160 vch).toFin))

/-! ## The collateral -/

def isCollateral (nHeight : ℕ) (pubkey : CPubKey) (out : CTxOut) : Bool :=
  out.nValue == FloatingcityCollateral nHeight * COIN && out.scriptPubKey == payee ctx pubkey

def IsVinAssociatedWithPubkey (s : NodeState) (blocks : List UInt256) (vin : CTxIn)
    (pubkey : CPubKey) : Except Failure Bool :=
  match GetTransaction ctx s blocks vin.prevout.hash with
  | none => .ok false
  | some (txVin, _) => do
    let best ← s.index s.pindexBest
    pure (txVin.vout.any (isCollateral ctx best.nHeight pubkey))

/-- The transaction that tries whether an outpoint can be spent. -/
def collateralTx (env : FcEnv) (vin : CTxIn) : CTransaction where
  nVersion := 1
  nTime := UInt32.ofNat env.adjustedTime.toNat
  vin := [vin]
  vout := [⟨MNengine_POOL_MAX, env.collateralPubKey⟩]
  nLockTime := 0

/-- Whether an outpoint can be spent. -/
def acceptableCollateral (env : FcEnv) (s : NodeState) (vin : CTxIn) :
    Except Failure Unit :=
  AcceptableInputs ctx env.toEnv s (collateralTx env vin) false false false

/-! ## Entries -/

namespace CFloatingcity

/-- Notes when a masternode has been seen; zero stands for now. -/
def UpdateLastSeen (env : FcEnv) (time : ℤ) (mn : CFloatingcity) : CFloatingcity :=
  { mn with lastTimeSeen := if time = 0 then env.adjustedTime else time }

/-- Whether a masternode has been seen in the last seconds. -/
def UpdatedWithin (env : FcEnv) (seconds : ℤ) (mn : CFloatingcity) : Bool :=
  decide (wrap64 (env.adjustedTime - mn.lastTimeSeen) < seconds)

/-- Whether a masternode counts. -/
def IsEnabled (mn : CFloatingcity) : Bool :=
  mn.isPortOpen && decide (mn.activeState = .FLOATINGCITY_ENABLED)

/-- Brings the state of an entry up to date. -/
def Check (ctx : Context) (env : FcEnv) (s : NodeState) (mn : CFloatingcity) :
    Except Failure CFloatingcity :=
  if env.shutdownRequested ∨ env.lockMain mn.vin.prevout = false then .ok mn
  else if mn.activeState = .FLOATINGCITY_VIN_SPENT then .ok mn
  else if mn.UpdatedWithin env FLOATINGCITY_REMOVAL_SECONDS = false then
    .ok { mn with activeState := .FLOATINGCITY_REMOVE }
  else if mn.UpdatedWithin env FLOATINGCITY_EXPIRATION_SECONDS = false then
    .ok { mn with activeState := .FLOATINGCITY_EXPIRED }
  else
    match acceptableCollateral ctx env s mn.vin with
    | .ok () => .ok { mn with activeState := .FLOATINGCITY_ENABLED }
    | .error (.crash msg) => .error (.crash msg)
    | .error _ => .ok { mn with activeState := .FLOATINGCITY_VIN_SPENT }

/-- The entry after another announcement. -/
def update (ctx : Context) (env : FcEnv) (s : NodeState) (m : Dsee) (mn : CFloatingcity) :
    Except Failure CFloatingcity :=
  if m.count = -1 ∧ mn.pubkey = m.pubkey ∧ mn.UpdatedWithin env FLOATINGCITY_MIN_DSEE_SECONDS = false
  then
    let mn := mn.UpdateLastSeen env 0
    if mn.sigTime < m.sigTime then
      Check ctx env s
        { mn with
          isPortOpen := env.checkNode m.addr
          pubkey2 := m.pubkey2
          sigTime := m.sigTime
          sig := m.vchSig
          protocolVersion := m.protocolVersion
          addr := m.addr
          donationAddress := m.donationAddress
          donationPercentage := m.donationPercentage }
    else .ok mn
  else .ok mn

def ping (ctx : Context) (signer : CMNengineSigner) (env : FcEnv) (s : NodeState) (m : Dseep)
    (mn : CFloatingcity) : Except Failure CFloatingcity :=
  if mn.lastDseep < m.sigTime then do
    ensure (signer.verifyDseep mn.pubkey2 m.vchSig mn.addr m.sigTime m.stop)
      (.error "dseep - Got bad floatingcity address signature")
    let mn := { mn with lastDseep := m.sigTime }
    if mn.UpdatedWithin env FLOATINGCITY_MIN_DSEEP_SECONDS then .ok mn
    else if m.stop then .ok { mn with lastTimeSeen := 0 }
    else Check ctx env s (mn.UpdateLastSeen env 0)
  else .ok mn

/-- The entry of a masternode that is announced for the first time. Donations to script hashes are
dropped. -/
def new (env : FcEnv) (m : Dsee) : CFloatingcity :=
  UpdateLastSeen env m.lastUpdated
    { vin := m.vin
      addr := m.addr
      pubkey := m.pubkey
      pubkey2 := m.pubkey2
      sig := m.vchSig
      activeState := .FLOATINGCITY_ENABLED
      sigTime := m.sigTime
      lastDseep := 0
      lastTimeSeen := 0
      protocolVersion := m.protocolVersion
      donationAddress := if m.donationAddress.IsPayToScriptHash then [] else m.donationAddress
      donationPercentage := if m.donationAddress.IsPayToScriptHash then 0 else m.donationPercentage
      isPortOpen := true }

end CFloatingcity

/-! ## The list -/

namespace CFloatingcityMan

/-- The place of the entry with an outpoint. -/
def Find (man : CFloatingcityMan) (vin : CTxIn) : Option ℕ :=
  man.vFloatingcities.findIdx? fun mn => mn.vin.prevout == vin.prevout

/-- Adds an entry, unless its outpoint has one. -/
def Add (man : CFloatingcityMan) (mn : CFloatingcity) : CFloatingcityMan :=
  if mn.IsEnabled = false then man
  else
    match man.Find mn.vin with
    | some _ => man
    | none => { man with vFloatingcities := man.vFloatingcities ++ [mn] }

def setEntry (man : CFloatingcityMan) (i : ℕ) (mn : CFloatingcity) : CFloatingcityMan :=
  { man with vFloatingcities := man.vFloatingcities.set i mn }

end CFloatingcityMan

def changeEntry (i : ℕ) (f : NodeState → CFloatingcity → Except Failure CFloatingcity) :
    Action Node Failure Unit := do
  let n ← Action.get
  match n.mnodeman.vFloatingcities[i]? with
  | none => pure ()
  | some mn => do
    let mn ← Action.reading fun n => f n.chain mn
    Action.modify fun n => { n with mnodeman := n.mnodeman.setEntry i mn }

/-- The masternode has been activated from somewhere else. -/
def EnableHotColdFloatingCity (env : FcEnv) (newVin : CTxIn) (newService : CService)
    (active : CActiveFloatingcity) : CActiveFloatingcity :=
  if env.fFloatingCity then { active with vin := newVin, service := newService } else active

def onChain {α : Type} (x : NodeM α) : Action Node Failure α := fun n =>
  ((x n.chain).1, { n with chain := (x n.chain).2 })

variable (ctx : Context)

/-- The announcement is not signed before its collateral had enough confirmations. -/
def checkSigTime (env : FcEnv) (m : Dsee) : Action Node Failure Unit := do
  let n ← Action.get
  match (GetTransaction ctx n.chain env.blocks m.vin.prevout.hash).bind
      fun found => n.chain.mapBlockIndex found.2 with
  | none => pure ()
  | some pMNIndex => do
    let pConfIndex ←
      onChain (FindBlockByHeight (pMNIndex.nHeight + FLOATINGCITY_MIN_CONFIRMATIONS - 1))
    let i ← Action.reading fun n => n.chain.index pConfIndex
    Action.check (i.GetBlockTime ≤ m.sigTime) (.error "dsee - Bad sigTime for floatingcity")

/-- Adds an entry for a masternode whose collateral passes the checks. -/
def acceptEntry (env : FcEnv) (m : Dsee) : Action Node Failure Unit := do
  let associated ← Action.reading fun n =>
    IsVinAssociatedWithPubkey ctx n.chain env.blocks m.vin m.pubkey
  Action.check associated (.reject 100 "dsee - Got mismatched pubkey and vin")
  Action.check (env.lockMain m.vin.prevout) (.error "dsee - cs_main is locked")
  Action.reading fun n => acceptableCollateral ctx env n.chain m.vin
  let age ← Action.reading fun n => GetInputAge ctx n.chain env.blocks m.vin
  Action.check ((FLOATINGCITY_MIN_CONFIRMATIONS : ℤ) ≤ age)
    (.reject 20 "dsee - Input must have least 7 confirmations")
  checkSigTime ctx env m
  Action.modify fun n => { n with mnodeman := n.mnodeman.Add (CFloatingcity.new env m) }
  Action.modify fun n =>
    if m.pubkey2 = n.activeFloatingcity.pubKeyFloatingcity ∧ m.protocolVersion = PROTOCOL_VERSION then
      { n with
        activeFloatingcity := EnableHotColdFloatingCity env m.vin m.addr n.activeFloatingcity }
    else n

def announcesSelf (env : FcEnv) (n : Node) (m : Dsee) : Prop :=
  env.fFloatingCity = true ∧ n.activeFloatingcity.vin = CTxIn.null ∧
    m.pubkey2 = n.activeFloatingcity.pubKeyFloatingcity

instance (env : FcEnv) (n : Node) (m : Dsee) : Decidable (announcesSelf env n m) :=
  inferInstanceAs (Decidable (_ ∧ _))

def processDsee (signer : CMNengineSigner) (env : FcEnv) (m : Dsee) :
    Action Node Failure Unit := do
  Action.check (m.sigTime ≤ env.adjustedTime + 60 * 60)
    (.error "dsee - Signature rejected, too far into the future")
  Action.check (0 ≤ m.donationPercentage ∧ m.donationPercentage ≤ 100)
    (.error "dsee - donation percentage out of range")
  Action.check (MIN_POOL_PEER_PROTO_VERSION ≤ m.protocolVersion)
    (.error "dsee - ignoring outdated floatingcity")
  Action.check ((payee ctx m.pubkey).length = 25) (.reject 100 "dsee - pubkey the wrong size")
  Action.check ((payee ctx m.pubkey2).length = 25) (.reject 100 "dsee - pubkey2 the wrong size")
  Action.check (m.vin.scriptSig = []) (.error "dsee - Ignore Not Empty ScriptSig")
  Action.check (signer.verifyDsee m.pubkey m.vchSig m.addr m.sigTime m.pubkey m.pubkey2
      m.protocolVersion m.donationAddress m.donationPercentage)
    (.reject 100 "dsee - Got bad floatingcity address signature")
  let n ← Action.get
  match n.mnodeman.Find m.vin with
  | some i =>
    if announcesSelf env n m then acceptEntry ctx env m
    else changeEntry i fun s mn => mn.update ctx env s m
  | none => acceptEntry ctx env m

def askForEntry (env : FcEnv) (vin : CTxIn) : Action Node Failure Unit := do
  let n ← Action.get
  match n.mnodeman.mWeAskedForFloatingcityListEntry vin.prevout with
  | some t => if env.time < t then pure () else ask
  | none => ask
where
  ask : Action Node Failure Unit :=
    Action.modify fun n =>
      { n with
        mnodeman :=
          { n.mnodeman with
            mWeAskedForFloatingcityListEntry :=
              Function.update n.mnodeman.mWeAskedForFloatingcityListEntry vin.prevout
                (some (env.time + FLOATINGCITY_MIN_DSEEP_SECONDS)) } }

def processDseep (signer : CMNengineSigner) (env : FcEnv) (m : Dseep) :
    Action Node Failure Unit := do
  Action.check (m.sigTime ≤ env.adjustedTime + 60 * 60)
    (.error "dseep - Signature rejected, too far into the future")
  Action.check (env.adjustedTime - 60 * 60 < m.sigTime)
    (.error "dseep - Signature rejected, too far into the past")
  let n ← Action.get
  match (n.mnodeman.Find m.vin).filter fun i =>
      n.mnodeman.vFloatingcities[i]?.any fun mn =>
        decide (MIN_POOL_PEER_PROTO_VERSION ≤ mn.protocolVersion) with
  | some i => changeEntry i fun s mn => mn.ping ctx signer env s m
  | none => askForEntry env m.vin

/-- A node receives a message about masternodes. Messages are not processed before the chain is
synchronised. -/
def ProcessMessage (signer : CMNengineSigner) (env : FcEnv) (message : Message) :
    Action Node Failure Unit := do
  Action.check env.fBlockchainSynced (.error "the chain is not synchronised")
  match message with
  | .dsee m => processDsee ctx signer env m
  | .dseep m => processDseep ctx signer env m

/-- Brings the entries up to date and removes those that have ended. -/
def CheckAndRemove (env : FcEnv) : Action Node Failure Unit := do
  let entries ← Action.reading fun n =>
    n.mnodeman.vFloatingcities.mapM (CFloatingcity.Check ctx env n.chain)
  Action.modify fun n =>
    { n with
      mnodeman :=
        { vFloatingcities := entries.filter fun mn =>
            mn.activeState ≠ .FLOATINGCITY_REMOVE ∧ mn.activeState ≠ .FLOATINGCITY_VIN_SPENT ∧
              env.nFloatingcityMinProtocol ≤ mn.protocolVersion
          mWeAskedForFloatingcityListEntry := fun prevout =>
            (n.mnodeman.mWeAskedForFloatingcityListEntry prevout).filter fun t => env.time ≤ t } }

end ZalemCoin.Floatingcity
