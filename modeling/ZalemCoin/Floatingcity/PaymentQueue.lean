import ZalemCoin.Floatingcity.Replay
import ZalemCoin.Lib.CopyingVector

/-!
# The times of the last payments

Every entry of the list of masternodes has the time of its last payment, and the masternode that has
waited longest is the next to be paid. The list is a vector, and its entries have a copy constructor that
sets this time to now.
-/

namespace ZalemCoin.Floatingcity

open Lib Chain

/-- What a node reads from outside, and what is in memory where an entry is built. -/
structure PaidEnv extends FcEnv where
  uninitialised : ℤ

/-- An entry with the time of its last payment, and the age of its input as of some height. -/
structure Entry extends CFloatingcity where
  nLastPaid : ℤ
  cacheInputAge : ℤ
  cacheInputAgeBlock : ℤ
deriving DecidableEq

namespace Entry

/-- The copy constructor: every field of the other entry, and then now as the time of the last payment. -/
def copy (env : FcEnv) (other : Entry) : Entry :=
  let mn := { other with nLastPaid := other.nLastPaid }
  { mn with nLastPaid := env.adjustedTime }

/-- The constructor for an announcement, which does not set the time of the last payment. -/
def new (env : PaidEnv) (mn : CFloatingcity) : Entry := ⟨mn, env.uninitialised, 0, 0⟩

def withFields (mn : CFloatingcity) (e : Entry) : Entry := { e with toCFloatingcity := mn }

def prevout (e : Entry) : COutPoint := e.vin.prevout

def Check (ctx : Context) (env : FcEnv) (s : NodeState) (e : Entry) : Except Failure Entry := do
  let mn ← e.toCFloatingcity.Check ctx env s
  pure (e.withFields mn)

/-- How long ago a time is. -/
def secondsSince (env : FcEnv) (t : ℤ) : ℤ := wrap64 (env.adjustedTime - t)

def SecondsSincePayment (env : FcEnv) (e : Entry) : ℤ := secondsSince env e.nLastPaid

def inputAge (nHeight : ℕ) (e : Entry) : ℤ := e.cacheInputAge + (nHeight - e.cacheInputAgeBlock)

def GetFloatingcityInputAge (ctx : Context) (env : FcEnv) (s : NodeState) (e : Entry) :
    Except Failure (ℤ × Entry) :=
  match s.pindexBest with
  | none => .ok (0, e)
  | some _ => do
    let best ← s.index s.pindexBest
    if e.cacheInputAge = 0 then do
      let age ← GetInputAge ctx s env.blocks e.vin
      let e := { e with cacheInputAge := age, cacheInputAgeBlock := best.nHeight }
      pure (e.inputAge best.nHeight, e)
    else pure (e.inputAge best.nHeight, e)

def inactive (env : FcEnv) (e : Entry) : Bool :=
  decide (e.activeState = .FLOATINGCITY_REMOVE ∨ e.activeState = .FLOATINGCITY_VIN_SPENT ∨
    e.protocolVersion < env.nFloatingcityMinProtocol)

/-! What a copy keeps, and what it does not. -/

@[simp] theorem prevout_copy (env : FcEnv) (e : Entry) : (e.copy env).prevout = e.prevout := rfl
@[simp] theorem inactive_copy (env : FcEnv) (e : Entry) : (e.copy env).inactive env = e.inactive env :=
  rfl
@[simp] theorem copy_copy (env : FcEnv) (e : Entry) : (e.copy env).copy env = e.copy env := rfl
end Entry

/-- A node whose list of masternodes has the times of their payments. -/
structure PaidNode where
  chain : NodeState
  vFloatingcities : CopyingVector Entry
  mWeAskedForFloatingcityListEntry : COutPoint → Option ℤ
  activeFloatingcity : CActiveFloatingcity

namespace PaidNode

def entries (p : PaidNode) : List Entry := p.vFloatingcities.elems

def outpoints (p : PaidNode) : List COutPoint := p.entries.map Entry.prevout

def node (p : PaidNode) : Node where
  chain := p.chain
  mnodeman := ⟨p.entries.map Entry.toCFloatingcity, p.mWeAskedForFloatingcityListEntry⟩
  activeFloatingcity := p.activeFloatingcity

def push (growth : Growth) (env : FcEnv) (mn : Entry) (p : PaidNode) : PaidNode :=
  { p with vFloatingcities := p.vFloatingcities.push_back (Entry.copy env) growth mn }

def Add (growth : Growth) (env : FcEnv) (mn : Entry) (p : PaidNode) : PaidNode :=
  if mn.IsEnabled = false then p
  else
    match p.node.mnodeman.Find mn.vin with
    | some _ => p
    | none => p.push growth env mn

/-- Removes the entry of an input. The loop looks at the first entry only, and never ends when this is
another one. -/
def Remove (env : FcEnv) (vin : CTxIn) (p : PaidNode) : Except Failure PaidNode :=
  match p.entries with
  | [] => .ok p
  | e :: _ =>
    if e.vin = vin then
      .ok { p with vFloatingcities := p.vFloatingcities.erase (Entry.copy env) 0 }
    else .error (.crash "Remove does not return")

/-- Brings the entries up to date and removes those that have ended. -/
def CheckAndRemove (ctx : Context) (env : FcEnv) (p : PaidNode) : Except Failure PaidNode := do
  let entries ← p.entries.mapM (Entry.Check ctx env p.chain)
  pure
    { p with
      vFloatingcities :=
        (p.vFloatingcities.write (fun e _ => e) entries).eraseIf (Entry.copy env)
          (Entry.inactive env)
      mWeAskedForFloatingcityListEntry := fun prevout =>
        (p.mWeAskedForFloatingcityListEntry prevout).filter fun t => env.time ≤ t }

/-- The node after a message. The message changes entries in place, and pushes back the one that it
adds. -/
def ProcessMessage (ctx : Context) (signer : CMNengineSigner) (growth : Growth) (env : PaidEnv)
    (message : Message) (p : PaidNode) : PaidNode :=
  let n := (Floatingcity.ProcessMessage ctx signer env.toFcEnv message p.node).2
  let written :=
    { chain := n.chain
      vFloatingcities := p.vFloatingcities.write Entry.withFields n.mnodeman.vFloatingcities
      mWeAskedForFloatingcityListEntry := n.mnodeman.mWeAskedForFloatingcityListEntry
      activeFloatingcity := n.activeFloatingcity }
  (n.mnodeman.vFloatingcities.drop p.entries.length).foldl
    (fun p mn => p.push growth env.toFcEnv (Entry.new env mn)) written

/-- `ProcessBlock` notes that the masternode of the best block has been paid. -/
def pay (env : FcEnv) (vin : CTxIn) (p : PaidNode) : PaidNode :=
  match p.node.mnodeman.Find vin with
  | some i =>
    { p with
      vFloatingcities :=
        p.vFloatingcities.modify (fun e => { e with nLastPaid := env.adjustedTime }) i }
  | none => p

/-- One step of the search for the entry that has waited longest: the entry as it is then, and the one
found so far. -/
def considerOldest (ctx : Context) (env : FcEnv) (s : NodeState) (vVins : List CTxIn)
    (nMinimumAge : ℤ) (found : List Entry × Option Entry) (mn : Entry) :
    Except Failure (List Entry × Option Entry) := do
  let mn ← mn.Check ctx env s
  if mn.IsEnabled = false then pure (found.1 ++ [mn], found.2)
  else do
    let (nAge, mn) ← mn.GetFloatingcityInputAge ctx env s
    if nAge < nMinimumAge then pure (found.1 ++ [mn], found.2)
    else if vVins.any fun vin => mn.prevout == vin.prevout then pure (found.1 ++ [mn], found.2)
    else if found.2.all fun oldest =>
        decide (oldest.SecondsSincePayment env < mn.SecondsSincePayment env) then
      pure (found.1 ++ [mn], some mn)
    else pure (found.1 ++ [mn], found.2)

/-- The entry that has waited longest for a payment, among those that are enabled, whose input is old
enough, and whose outpoint is not excluded. -/
def FindOldestNotInVec (ctx : Context) (env : FcEnv) (vVins : List CTxIn) (nMinimumAge : ℤ)
    (p : PaidNode) : Except Failure (Option Entry × PaidNode) := do
  let found ← p.entries.foldlM (considerOldest ctx env p.chain vVins nMinimumAge) ([], none)
  pure (found.2,
    { p with vFloatingcities := p.vFloatingcities.write (fun e _ => e) found.1 })

end PaidNode

/-- The operations on the list. -/
inductive Op
  | add (mn : Entry)
  | remove (vin : CTxIn)
  | checkAndRemove
  | message (message : Message)
  | pay (vin : CTxIn)
  | findOldest (vVins : List CTxIn) (nMinimumAge : ℤ)

/-- What an operation does. -/
def Op.perform (ctx : Context) (signer : CMNengineSigner) (growth : Growth) (env : PaidEnv) :
    Op → PaidNode → Except Failure PaidNode
  | .add mn, p => .ok (p.Add growth env.toFcEnv mn)
  | .remove vin, p => p.Remove env.toFcEnv vin
  | .checkAndRemove, p => p.CheckAndRemove ctx env.toFcEnv
  | .message m, p => .ok (p.ProcessMessage ctx signer growth env m)
  | .pay vin, p => .ok (p.pay env.toFcEnv vin)
  | .findOldest vVins nMinimumAge, p =>
    (p.FindOldestNotInVec ctx env.toFcEnv vVins nMinimumAge).map Prod.snd

end ZalemCoin.Floatingcity
