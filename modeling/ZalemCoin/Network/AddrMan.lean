import ZalemCoin.Lib.SortedMap
import ZalemCoin.Network.NetAddr
import Mathlib.Data.Finset.Sort

/-!
# The address manager

`CAddrMan` keeps the addresses of other nodes. An address that no connection was made to yet stands in
one to four of the "new" buckets; after a connection it moves to the "tried" bucket that its hash
gives. Full buckets give up an entry: a "new" one loses it, a "tried" one sends it back to a "new" one.
Beside the buckets there are an index by address, and a vector of all entries in random order, in
which each entry knows its position.

The functions take the numbers that `GetRandInt` draws and the adjusted time. `none` stands for an
assertion that fails, or for reading an element that is not there.
-/

namespace ZalemCoin.Network

open Lib Storage

/-- The sizes of the tables. -/
def ADDRMAN_TRIED_BUCKET_COUNT : ℕ := 64
def ADDRMAN_TRIED_BUCKET_SIZE : ℕ := 64
def ADDRMAN_NEW_BUCKET_COUNT : ℕ := 256
def ADDRMAN_NEW_BUCKET_SIZE : ℕ := 64
def ADDRMAN_TRIED_BUCKETS_PER_GROUP : UInt64 := 4
def ADDRMAN_NEW_BUCKETS_PER_SOURCE_GROUP : UInt64 := 32
def ADDRMAN_NEW_BUCKETS_PER_ADDRESS : ℤ := 4
def ADDRMAN_TRIED_ENTRIES_INSPECT_ON_EVICT : ℕ := 4

/-- The limits of an entry that can be deleted. -/
def ADDRMAN_HORIZON_DAYS : ℤ := 30
def ADDRMAN_RETRIES : ℤ := 3
def ADDRMAN_MAX_FAILURES : ℤ := 10
def ADDRMAN_MIN_FAIL_DAYS : ℤ := 7

/-- The limits of a `getaddr` answer. -/
def ADDRMAN_GETADDR_MAX_PCT : ℕ := 23
def ADDRMAN_GETADDR_MAX : ℕ := 2500

abbrev TriedBucket := Fin ADDRMAN_TRIED_BUCKET_COUNT
abbrev NewBucket := Fin ADDRMAN_NEW_BUCKET_COUNT

/-- What the address manager is computed with. -/
structure AddrEnv where
  /-- The first 64 bits of `Hash_bmw512` of some bytes. -/
  Hash : List UInt8 → UInt64

/-- `GetRandInt` below `nMax`, from the number that is drawn. -/
def GetRandInt (draw nMax : ℕ) : ℕ := if nMax = 0 then 0 else draw % nMax

/-- The part of `CAddrInfo` that is not memory only. -/
structure CAddrRecord extends CAddress where
  source : CNetAddr
  nLastSuccess : Int64
  nAttempts : Int32
deriving DecidableEq

structure CAddrInfo extends CAddrRecord where
  /-- The number of "new" buckets that it is in (memory only). -/
  nRefCount : ℤ
  /-- Whether it is in a "tried" bucket (memory only). -/
  fInTried : Bool
  /-- The position in `vRandom` (memory only). -/
  nRandomPos : ℤ
deriving DecidableEq

namespace CAddrInfo

/-- The entry of an address before it is put anywhere. -/
def init (addr : CAddress) (addrSource : CNetAddr) : CAddrInfo :=
  { addr with
    source := addrSource, nLastSuccess := 0, nLastTry := 0, nAttempts := 0, nRefCount := 0,
    fInTried := false, nRandomPos := -1 }

def GetTriedBucket (env : AddrEnv) (nKey : List UInt8) (s : CService) : TriedBucket :=
  let hash1 := env.Hash (writeBytes nKey ++ writeBytes s.GetKey)
  let hash2 := env.Hash (writeBytes nKey ++ (writeBytes s.GetGroup
    ++ writeUInt64 (hash1 % ADDRMAN_TRIED_BUCKETS_PER_GROUP)))
  ⟨hash2.toNat % ADDRMAN_TRIED_BUCKET_COUNT, Nat.mod_lt _ (by decide)⟩

def GetNewBucket (env : AddrEnv) (nKey : List UInt8) (a src : CNetAddr) : NewBucket :=
  let hash1 := env.Hash (writeBytes nKey ++ (writeBytes a.GetGroup ++ writeBytes src.GetGroup))
  let hash2 := env.Hash (writeBytes nKey ++ (writeBytes src.GetGroup
    ++ writeUInt64 (hash1 % ADDRMAN_NEW_BUCKETS_PER_SOURCE_GROUP)))
  ⟨hash2.toNat % ADDRMAN_NEW_BUCKET_COUNT, Nat.mod_lt _ (by decide)⟩

/-- Whether the statistics are so bad that the entry can just be deleted. -/
def IsTerrible (info : CAddrInfo) (nNow : Int64) : Bool :=
  if info.nLastTry ≠ 0 ∧ info.nLastTry.toInt ≥ nNow.toInt - 60 then false
  else if (info.nTime.toNat : ℤ) > nNow.toInt + 10 * 60 then true
  else if info.nTime = 0 ∨ nNow.toInt - info.nTime.toNat > ADDRMAN_HORIZON_DAYS * 86400 then true
  else if info.nLastSuccess = 0 ∧ info.nAttempts.toInt ≥ ADDRMAN_RETRIES then true
  else if nNow.toInt - info.nLastSuccess.toInt > ADDRMAN_MIN_FAIL_DAYS * 86400
      ∧ info.nAttempts.toInt ≥ ADDRMAN_MAX_FAILURES then true
  else false

end CAddrInfo

open CAddrInfo (GetTriedBucket GetNewBucket)

/-- The stochastic address manager. -/
structure CAddrMan where
  nKey : List UInt8
  nIdCount : ℕ
  mapInfo : SortedMap ℕ CAddrInfo
  mapAddr : CNetAddr → Option ℕ
  vRandom : List ℕ
  nTried : ℤ
  vvTried : TriedBucket → List ℕ
  nNew : ℤ
  vvNew : NewBucket → Finset ℕ

namespace CAddrMan

def init (nKey : List UInt8) : CAddrMan where
  nKey := nKey
  nIdCount := 0
  mapInfo := SortedMap.empty
  mapAddr := fun _ => none
  vRandom := []
  nTried := 0
  vvTried := fun _ => []
  nNew := 0
  vvNew := fun _ => ∅

variable (am : CAddrMan)

/-- Changes an entry where it is. -/
def modifyInfo (nId : ℕ) (f : CAddrInfo → CAddrInfo) : CAddrMan :=
  { am with mapInfo := am.mapInfo.modify nId f }

def Find (addr : CNetAddr) : Option (ℕ × CAddrInfo) := do
  let nId ← am.mapAddr addr
  let info ← am.mapInfo.find nId
  some (nId, info)

/-- Creates an entry, whose number is the count before. -/
def Create (addr : CAddress) (addrSource : CNetAddr) : CAddrMan :=
  { am with
    nIdCount := am.nIdCount + 1
    mapInfo := am.mapInfo.insert am.nIdCount
      { CAddrInfo.init addr addrSource with nRandomPos := am.vRandom.length }
    mapAddr := Function.update am.mapAddr addr.toCNetAddr (some am.nIdCount)
    vRandom := am.vRandom ++ [am.nIdCount] }

/-- Swaps two elements of `vRandom`. -/
def SwapRandom (nRndPos1 nRndPos2 : ℕ) : Option CAddrMan :=
  if nRndPos1 = nRndPos2 then some am
  else do
    let nId1 ← am.vRandom[nRndPos1]?
    let nId2 ← am.vRandom[nRndPos2]?
    let _ ← am.mapInfo.find nId1
    let _ ← am.mapInfo.find nId2
    let am := am.modifyInfo nId1 fun info => { info with nRandomPos := nRndPos2 }
    let am := am.modifyInfo nId2 fun info => { info with nRandomPos := nRndPos1 }
    some { am with vRandom := (am.vRandom.set nRndPos1 nId2).set nRndPos2 nId1 }

/-- One round of `SelectTried`: shuffles an element to position `i`, and keeps it when its last
success is older than that of the one kept so far. -/
def inspectTried (draws : ℕ → ℕ) (st : List ℕ × Option (ℕ × ℕ)) (i : ℕ) :
    Option (List ℕ × Option (ℕ × ℕ)) := do
  let vTried := st.1
  let nPos := GetRandInt (draws i) (vTried.length - i) + i
  let nTemp ← vTried[nPos]?
  let nFirst ← vTried[i]?
  let vTried := (vTried.set nPos nFirst).set i nTemp
  match st.2 with
  | none => some (vTried, some (nTemp, nPos))
  | some (nOldest, nOldestPos) => do
    let info ← am.mapInfo.find nTemp
    let infoOldest ← am.mapInfo.find nOldest
    if info.nLastSuccess < infoOldest.nLastSuccess then some (vTried, some (nTemp, nPos))
    else some (vTried, some (nOldest, nOldestPos))

/-- The "tried" bucket after shuffling its first elements, and the position in it to replace, which
is `none` for -1. -/
def SelectTried (draws : ℕ → ℕ) (vTried : List ℕ) :
    Option (List ℕ × Option ℕ) := do
  let r ← (List.range (min ADDRMAN_TRIED_ENTRIES_INSPECT_ON_EVICT vTried.length)).foldlM
    (am.inspectTried draws) (vTried, none)
  some (r.1, r.2.map Prod.snd)

/-- Deletes an entry from the maps and from `vRandom`. -/
def deleteEntry (nId : ℕ) : Option CAddrMan := do
  let info ← am.mapInfo.find nId
  let am ← am.SwapRandom info.nRandomPos.toNat (am.vRandom.length - 1)
  some { am with
    vRandom := am.vRandom.dropLast
    mapAddr := Function.update am.mapAddr info.toCNetAddr none
    mapInfo := am.mapInfo.erase nId
    nNew := am.nNew - 1 }

def removeFromNew (nUBucket : NewBucket) (nId : ℕ) : Option CAddrMan := do
  let info ← am.mapInfo.find nId
  let am := am.modifyInfo nId fun info => { info with nRefCount := info.nRefCount - 1 }
  let am ← if info.nRefCount - 1 = 0 then am.deleteEntry nId else some am
  some { am with
    vvNew := Function.update am.vvNew nUBucket ((am.vvNew nUBucket).erase nId) }

/-- The first deletable item of a "new" bucket. -/
def findTerrible (am : CAddrMan) (nNow : Int64) : List ℕ → Option (Option ℕ)
  | [] => some none
  | nId :: vNew => do
    let info ← am.mapInfo.find nId
    if info.IsTerrible nNow then some (some nId) else am.findTerrible nNow vNew

/-- The oldest of the items of a "new" bucket whose positions, counted from `nI` on, were drawn. -/
def findOldest (am : CAddrMan) (n : List ℕ) : ℕ → Option ℕ → List ℕ → Option (Option ℕ)
  | _, nOldest, [] => some nOldest
  | nI, nOldest, nId :: vNew =>
    if nI ∈ n then
      match nOldest with
      | none => am.findOldest n (nI + 1) (some nId) vNew
      | some nOld => do
        let info ← am.mapInfo.find nId
        let infoOld ← am.mapInfo.find nOld
        am.findOldest n (nI + 1) (if info.nTime < infoOld.nTime then some nId else some nOld) vNew
    else am.findOldest n (nI + 1) nOldest vNew

/-- Removes an element from a "new" bucket: a deletable one, or else the oldest of four that are
drawn. -/
def ShrinkNew (nNow : Int64) (draws : ℕ → ℕ) (nUBucket : NewBucket) :
    Option CAddrMan := do
  let vNew := (am.vvNew nUBucket).sort (· ≤ ·)
  match ← am.findTerrible nNow vNew with
  | some nId => am.removeFromNew nUBucket nId
  | none => do
    let n := (List.range 4).map fun i => GetRandInt (draws i) vNew.length
    let nOldest ← ← am.findOldest n 0 none vNew
    am.removeFromNew nUBucket nOldest

def newBucketsOf (nId : ℕ) : Finset NewBucket :=
  Finset.univ.filter fun b => nId ∈ am.vvNew b

/-- Puts an entry in the place of an old one in a full "tried" bucket, and the old one in its "new"
bucket, or when that is full in the one that the entry came from. -/
def evictTried (env : AddrEnv) (am : CAddrMan) (draws : ℕ → ℕ) (nId : ℕ) (nOrigin : NewBucket)
    (nKBucket : TriedBucket) : Option CAddrMan := do
  let (vTried, nSelected) ← am.SelectTried draws (am.vvTried nKBucket)
  let nPos ← nSelected
  let nOld ← vTried[nPos]?
  let infoOld ← am.mapInfo.find nOld
  let nUBucket := GetNewBucket env am.nKey infoOld.toCNetAddr infoOld.source
  let am := am.modifyInfo nOld fun info => { info with fInTried := false, nRefCount := 1 }
  let nTarget :=
    if (am.vvNew nUBucket).card < ADDRMAN_NEW_BUCKET_SIZE then nUBucket else nOrigin
  let am := { am with
    vvNew := Function.update am.vvNew nTarget (insert nOld (am.vvNew nTarget))
    nNew := am.nNew + 1
    vvTried := Function.update am.vvTried nKBucket (vTried.set nPos nId) }
  some (am.modifyInfo nId fun info => { info with fInTried := true })

/-- Removes an entry from all "new" buckets. -/
def leaveNew (nId : ℕ) : CAddrMan :=
  let nBuckets : ℤ := (am.newBucketsOf nId).card
  { am.modifyInfo nId (fun info => { info with nRefCount := info.nRefCount - nBuckets }) with
    vvNew := fun b => (am.vvNew b).erase nId
    nNew := am.nNew - 1 }

def MakeTried (env : AddrEnv) (am : CAddrMan) (draws : ℕ → ℕ) (nId : ℕ) (nOrigin : NewBucket) :
    Option CAddrMan :=
  if nId ∉ am.vvNew nOrigin then none
  else do
    let am := am.leaveNew nId
    let info ← am.mapInfo.find nId
    if info.nRefCount ≠ 0 then none
    else
      let nKBucket := GetTriedBucket env am.nKey info.toCService
      if (am.vvTried nKBucket).length < ADDRMAN_TRIED_BUCKET_SIZE then
        let am := { am with
          vvTried := Function.update am.vvTried nKBucket (am.vvTried nKBucket ++ [nId])
          nTried := am.nTried + 1 }
        some (am.modifyInfo nId fun info => { info with fInTried := true })
      else am.evictTried env draws nId nOrigin nKBucket

def findBucket (nId nRnd : ℕ) : Option NewBucket :=
  ((List.range ADDRMAN_NEW_BUCKET_COUNT).map fun n =>
    (⟨(n + nRnd) % ADDRMAN_NEW_BUCKET_COUNT, Nat.mod_lt _ (by decide)⟩ : NewBucket)).find?
      fun nB => decide (nId ∈ am.vvNew nB)

/-- Marks an entry "good", possibly moving it from "new" to "tried". -/
def Good_ (env : AddrEnv) (am : CAddrMan) (draws : ℕ → ℕ) (addr : CService) (nTime : Int64) :
    Option CAddrMan :=
  match am.Find addr.toCNetAddr with
  | none => some am
  | some (nId, info) =>
    if info.toCService ≠ addr then some am
    else
      let am := am.modifyInfo nId fun info =>
        { info with
          nLastSuccess := nTime, nLastTry := nTime, nTime := UInt32.ofInt nTime.toInt,
          nAttempts := 0 }
      if info.fInTried then some am
      else
        match am.findBucket nId (GetRandInt (draws 0) ADDRMAN_NEW_BUCKET_COUNT) with
        | none => some am
        | some nUBucket => am.MakeTried env (fun i => draws (i + 1)) nId nUBucket

def addToNew (env : AddrEnv) (am : CAddrMan) (nNow : Int64) (draws : ℕ → ℕ) (nId : ℕ)
    (addr source : CNetAddr) : Option CAddrMan :=
  let nUBucket := GetNewBucket env am.nKey addr source
  if nId ∈ am.vvNew nUBucket then some am
  else do
    let am := am.modifyInfo nId fun info => { info with nRefCount := info.nRefCount + 1 }
    let am ←
      if (am.vvNew nUBucket).card = ADDRMAN_NEW_BUCKET_SIZE then am.ShrinkNew nNow draws nUBucket
      else some am
    some { am with
      vvNew := Function.update am.vvNew nUBucket (insert nId (am.vvNew nUBucket)) }

/-- The time of a known entry after an address message: it is updated once an hour for a node that is
online, and once a day for others. -/
def updatedTime (nNow : Int64) (nTime nTimeNew : UInt32) (nTimePenalty : Int64) : UInt32 :=
  let fCurrentlyOnline := nNow.toInt - nTimeNew.toNat < 24 * 60 * 60
  let nUpdateInterval : ℤ := if fCurrentlyOnline then 60 * 60 else 24 * 60 * 60
  if nTimeNew ≠ 0 ∧ (nTime = 0
      ∨ (nTime.toNat : ℤ) < nTimeNew.toNat - nUpdateInterval - nTimePenalty.toInt) then
    UInt32.ofInt (max 0 (nTimeNew.toNat - nTimePenalty.toInt))
  else nTime

/-- Adds an entry to the "new" table, and says whether it is a new entry. -/
def Add_ (env : AddrEnv) (am : CAddrMan) (nNow : Int64) (draws : ℕ → ℕ) (addr : CAddress)
    (source : CNetAddr) (nTimePenalty : Int64) : Option (CAddrMan × Bool) :=
  if !addr.IsRoutable then some (am, false)
  else if addr.port = 0 then some (am, false)
  else
    match am.Find addr.toCNetAddr with
    | some (nId, info) => do
      let nTime := updatedTime nNow info.nTime addr.nTime nTimePenalty
      let am := am.modifyInfo nId fun info =>
        { info with nTime := nTime, nServices := info.nServices ||| addr.nServices }
      if addr.nTime = 0 ∨ nTime ≠ 0 ∧ addr.nTime ≤ nTime then some (am, false)
      else if info.fInTried then some (am, false)
      else if info.nRefCount = ADDRMAN_NEW_BUCKETS_PER_ADDRESS then some (am, false)
      else if 2 ^ info.nRefCount.toNat > 1
          ∧ GetRandInt (draws 0) (2 ^ info.nRefCount.toNat) ≠ 0 then some (am, false)
      else do
        let am ← am.addToNew env nNow (fun i => draws (i + 1)) nId info.toCNetAddr source
        some (am, false)
    | none => do
      let nId := am.nIdCount
      let am := am.Create addr source
      let am := am.modifyInfo nId fun info =>
        { info with nTime := UInt32.ofInt (max 0 (info.nTime.toNat - nTimePenalty.toInt)) }
      let am := { am with nNew := am.nNew + 1 }
      let am ← am.addToNew env nNow (fun i => draws (i + 1)) nId addr.toCNetAddr source
      some (am, true)

/-- Marks an entry as attempted to connect. -/
def Attempt_ (addr : CService) (nTime : Int64) : CAddrMan :=
  match am.Find addr.toCNetAddr with
  | none => am
  | some (nId, info) =>
    if info.toCService ≠ addr then am
    else am.modifyInfo nId fun info =>
      { info with nLastTry := nTime, nAttempts := info.nAttempts + 1 }

/-- Marks an entry as currently connected to. -/
def Connected_ (addr : CService) (nTime : Int64) : CAddrMan :=
  match am.Find addr.toCNetAddr with
  | none => am
  | some (nId, info) =>
    if info.toCService ≠ addr then am
    else if nTime.toInt - info.nTime.toNat > 20 * 60 then
      am.modifyInfo nId fun info => { info with nTime := UInt32.ofInt nTime.toInt }
    else am

/-- The entry at a random position, which is swapped to position `n`. -/
def getAddrStep (draws : ℕ → ℕ) (st : CAddrMan × List CAddress) (n : ℕ) :
    Option (CAddrMan × List CAddress) := do
  let nRndPos := GetRandInt (draws n) (st.1.vRandom.length - n) + n
  let am ← st.1.SwapRandom n nRndPos
  let nId ← am.vRandom[n]?
  let info ← am.mapInfo.find nId
  some (am, st.2 ++ [info.toCAddress])

/-- Selects several addresses at once, and leaves `vRandom` shuffled. -/
def GetAddr_ (draws : ℕ → ℕ) : Option (CAddrMan × List CAddress) :=
  let nNodes := min (ADDRMAN_GETADDR_MAX_PCT * am.vRandom.length / 100) ADDRMAN_GETADDR_MAX
  (List.range nNodes).foldlM (getAddrStep draws) (am, [])

/-- One round of `Select_`: the numbers drawn for the bucket and the position, and whether the chance
of the entry decides for it. -/
structure SelectRound where
  bucketDraw : ℕ
  posDraw : ℕ
  fChosen : Bool

/-- The rounds of `Select_` over one of the tables; `some none` when none of them chose an entry. -/
def selectLoop (am : CAddrMan) {n : ℕ} [NeZero n] (table : Fin n → List ℕ) :
    List SelectRound → Option (Option CAddress)
  | [] => some none
  | r :: rounds =>
    let bucket := table (Fin.ofNat n (GetRandInt r.bucketDraw n))
    if bucket.length = 0 then am.selectLoop table rounds
    else do
      let nId ← bucket[GetRandInt r.posDraw bucket.length]?
      let info ← am.mapInfo.find nId
      if r.fChosen then some (some info.toCAddress) else am.selectLoop table rounds

instance : NeZero ADDRMAN_TRIED_BUCKET_COUNT := ⟨by decide⟩
instance : NeZero ADDRMAN_NEW_BUCKET_COUNT := ⟨by decide⟩

def noAddress : CAddress where
  ip := List.replicate 16 0
  length_ip := rfl
  port := 0
  nServices := 1
  nTime := 100000000
  nLastTry := 0

/-- Selects an address to connect to. `fTried` is what the weights of the two tables decide; it and
the choices of the rounds are computed in floating point. -/
def Select_ (fTried : Bool) (rounds : List SelectRound) :
    Option (Option CAddress) :=
  if am.vRandom.length = 0 then some (some noAddress)
  else if fTried then am.selectLoop am.vvTried rounds
  else am.selectLoop (fun b => (am.vvNew b).sort (· ≤ ·)) rounds

end CAddrMan

end ZalemCoin.Network
