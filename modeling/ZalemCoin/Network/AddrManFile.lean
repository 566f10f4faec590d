import ZalemCoin.Network.AddrManRuns

/-!
# The file of the address manager

The address manager is written to disk as its key and counts, the "new" entries, the "tried"
entries, and for each "new" bucket the indices of its entries in the order in which they were
written. The "tried" buckets, the index by address and the random order are built up again when it is
read.
-/

namespace ZalemCoin.Network

open Lib Storage
open CAddrInfo (GetTriedBucket GetNewBucket)

/-- The entry of a record that was read: what is memory only is as in a new entry. -/
def CAddrRecord.unsaved (r : CAddrRecord) : CAddrInfo :=
  { r with nLastTry := 0, nRefCount := 0, fInTried := false, nRandomPos := -1 }

/-- `Serialize` of an entry. The version in the file of the address manager is zero. -/
def writeInfo (r : CAddrRecord) : List UInt8 :=
  writeAddress 0 r.toCAddress ++ (writeNetAddr r.source ++ (writeInt64 r.nLastSuccess
    ++ writeInt32 r.nAttempts))

/-- `Unserialize` of an entry. -/
def readInfo : Reader CAddrInfo := do
  let addr ← readAddress
  let source ← readNetAddr
  let nLastSuccess ← readInt64
  let nAttempts ← readInt32
  pure { CAddrInfo.init addr source with nLastSuccess := nLastSuccess, nAttempts := nAttempts }

theorem reads_info (r : CAddrRecord) : Reads readInfo (writeInfo r) r.unsaved := by
  apply Reads.bind (reads_address 0 r.toCAddress)
  apply Reads.bind (reads_netAddr r.source)
  apply Reads.bind (reads_int64 r.nLastSuccess)
  exact (reads_int32 r.nAttempts).map fun nAttempts =>
    ({ CAddrInfo.init { r.toCAddress with nLastTry := 0 } r.source with
      nLastSuccess := r.nLastSuccess, nAttempts := nAttempts } : CAddrInfo)

namespace CAddrMan

/-- Writes the "new" entries, and gives them their indices `mapUnkIds`. The loop ends when `nNew`
entries are written. -/
def writeNewEntries (nNew : ℤ) :
    ℤ → (ℕ → ℤ) → List (ℕ × CAddrInfo) → List UInt8 × (ℕ → ℤ)
  | _, mapUnkIds, [] => ([], mapUnkIds)
  | nIds, mapUnkIds, e :: entries =>
    if nIds = nNew then ([], mapUnkIds)
    else
      let mapUnkIds := Function.update mapUnkIds e.1 nIds
      if e.2.nRefCount ≠ 0 then
        let r := writeNewEntries nNew (nIds + 1) mapUnkIds entries
        (writeInfo e.2.toCAddrRecord ++ r.1, r.2)
      else writeNewEntries nNew nIds mapUnkIds entries

def writeTriedEntries (nTried : ℤ) : ℤ → List (ℕ × CAddrInfo) → List UInt8
  | _, [] => []
  | nIds, e :: entries =>
    if nIds = nTried then []
    else if e.2.fInTried then
      writeInfo e.2.toCAddrRecord ++ writeTriedEntries nTried (nIds + 1) entries
    else writeTriedEntries nTried nIds entries

def writeBucket (mapUnkIds : ℕ → ℤ) (vNew : Finset ℕ) : List UInt8 :=
  writeInt 4 vNew.card ++ (vNew.sort (· ≤ ·)).flatMap fun nId => writeInt 4 (mapUnkIds nId)

/-- `Serialize` of the address manager. -/
def Serialize (am : CAddrMan) : List UInt8 :=
  let new := writeNewEntries am.nNew 0 (fun _ => 0) am.mapInfo.entries
  littleEndian 1 0 ++ (writeBytes am.nKey ++ (writeInt 4 am.nNew ++ (writeInt 4 am.nTried
    ++ (writeInt 4 ADDRMAN_NEW_BUCKET_COUNT ++ (new.1
    ++ (writeTriedEntries am.nTried 0 am.mapInfo.entries
    ++ (List.finRange ADDRMAN_NEW_BUCKET_COUNT).flatMap fun b =>
        writeBucket new.2 (am.vvNew b)))))))

/-- Stores a "new" entry that was read. With another number of buckets it is put into the bucket of
its own source. -/
def loadNew (env : AddrEnv) (nUBuckets : ℤ) (n : ℕ) (am : CAddrMan) (info : CAddrInfo) :
    CAddrMan :=
  let am := { am with
    mapInfo := am.mapInfo.insert n { info with nRandomPos := am.vRandom.length }
    mapAddr := Function.update am.mapAddr info.toCNetAddr (some n)
    vRandom := am.vRandom ++ [n] }
  if nUBuckets ≠ ADDRMAN_NEW_BUCKET_COUNT then
    let b := GetNewBucket env am.nKey info.toCNetAddr info.source
    modifyInfo { am with vvNew := Function.update am.vvNew b (insert n (am.vvNew b)) } n
      fun info => { info with nRefCount := info.nRefCount + 1 }
  else am

/-- Stores a "tried" entry that was read, or counts it as lost when its bucket is full. -/
def loadTried (env : AddrEnv) (st : CAddrMan × ℤ) (info : CAddrInfo) : CAddrMan × ℤ :=
  let am := st.1
  let b := GetTriedBucket env am.nKey info.toCService
  if (am.vvTried b).length < ADDRMAN_TRIED_BUCKET_SIZE then
    ({ am with
      vRandom := am.vRandom ++ [am.nIdCount]
      mapInfo := am.mapInfo.insert am.nIdCount
        { info with nRandomPos := am.vRandom.length, fInTried := true }
      mapAddr := Function.update am.mapAddr info.toCNetAddr (some am.nIdCount)
      vvTried := Function.update am.vvTried b (am.vvTried b ++ [am.nIdCount])
      nIdCount := am.nIdCount + 1 }, st.2)
  else (am, st.2 + 1)

/-- Stores an index of a "new" bucket that was read. An index without an entry gets an empty one,
and with another number of buckets the index is not used. -/
def loadIndex (nUBuckets : ℤ) (b : NewBucket) (am : CAddrMan) (nIndex : ℕ) : CAddrMan :=
  let info := (am.mapInfo.find nIndex).getD (CAddrInfo.init noAddress noAddress.toCNetAddr)
  if nUBuckets = ADDRMAN_NEW_BUCKET_COUNT
      ∧ info.nRefCount < ADDRMAN_NEW_BUCKETS_PER_ADDRESS then
    { am with
      mapInfo := am.mapInfo.insert nIndex { info with nRefCount := info.nRefCount + 1 }
      vvNew := Function.update am.vvNew b (insert nIndex (am.vvNew b)) }
  else { am with mapInfo := am.mapInfo.insert nIndex info }

def readBucket (nUBuckets : ℤ) (b : ℕ) (am : CAddrMan) : Reader CAddrMan :=
  if h : b < ADDRMAN_NEW_BUCKET_COUNT then do
    let nSize ← readInt 4
    Reader.loop (fun _ am => (fun nIndex : ℤ => loadIndex nUBuckets ⟨b, h⟩ am nIndex.toNat)
      <$> readInt 4) 0 nSize.toNat am
  else failure

/-- `Unserialize` of the address manager. -/
def Unserialize (env : AddrEnv) : Reader CAddrMan := do
  let _ ← Reader.takeNat 1
  let nKey ← readBytes
  let nNew ← readInt 4
  let nTried ← readInt 4
  let nUBuckets ← readInt 4
  let am : CAddrMan := { CAddrMan.init nKey with nNew := nNew, nTried := nTried }
  let am ← Reader.loop (fun n am => loadNew env nUBuckets n am <$> readInfo) 0 nNew.toNat am
  let am := { am with nIdCount := nNew.toNat }
  let st ← Reader.loop (fun _ st => loadTried env st <$> readInfo) 0 nTried.toNat (am, 0)
  let am := { st.1 with nTried := st.1.nTried - st.2 }
  Reader.loop (readBucket nUBuckets) 0 nUBuckets.toNat am

/-- Whether an entry is written as a "new" one, and as a "tried" one. -/
def savedAsNew (e : ℕ × CAddrInfo) : Bool := decide (e.2.nRefCount ≠ 0)
def savedAsTried (e : ℕ × CAddrInfo) : Bool := e.2.fInTried

/-- The "new" entries are written and numbered in the order of the map. -/
theorem writeNewEntries_spec {nNew : ℤ} (entries : List (ℕ × CAddrInfo)) (nIds : ℤ)
    (mapUnkIds : ℕ → ℤ) (hkeys : (entries.map Prod.fst).Nodup)
    (hcnt : nIds + (entries.filter savedAsNew).length = nNew) :
    ∃ indices, writeNewEntries nNew nIds mapUnkIds entries
        = ((entries.filter savedAsNew).flatMap
            fun e => writeInfo e.2.toCAddrRecord, indices)
      ∧ (∀ (i : ℕ) (e : ℕ × CAddrInfo), (entries.filter savedAsNew)[i]? = some e →
          indices e.1 = nIds + i)
      ∧ ∀ nId, nId ∉ entries.map Prod.fst → indices nId = mapUnkIds nId := by
  induction entries generalizing nIds mapUnkIds with
  | nil => exact ⟨mapUnkIds, rfl, by simp, fun _ _ => rfl⟩
  | cons e entries ih =>
    rw [List.map_cons] at hkeys
    obtain ⟨hnot, hrest⟩ := List.nodup_cons.mp hkeys
    unfold writeNewEntries
    by_cases hend : nIds = nNew
    · -- All "new" entries are written, so none is left.
      have hnil : (e :: entries).filter savedAsNew = [] := by
        apply List.length_eq_zero_iff.mp
        omega
      rw [if_pos hend, hnil]
      exact ⟨mapUnkIds, rfl, by simp, fun _ _ => rfl⟩
    · rw [if_neg hend]
      by_cases hrefs : e.2.nRefCount ≠ 0
      · have hsaved : savedAsNew e = true := decide_eq_true hrefs
        rw [List.filter_cons_of_pos hsaved, List.length_cons] at hcnt
        obtain ⟨indices, hwrite, hidx, hother⟩ := ih (nIds + 1)
          (Function.update mapUnkIds e.1 nIds) hrest (by push_cast at hcnt; omega)
        rw [List.filter_cons_of_pos hsaved, List.flatMap_cons]
        refine ⟨indices, ?_, ?_, ?_⟩
        · dsimp only
          rw [if_pos hrefs, hwrite]
        · intro i e' hi
          cases i with
          | zero =>
            rw [List.getElem?_cons_zero] at hi
            rw [← Option.some.inj hi, hother e.1 hnot, Function.update_self]
            simp
          | succ i =>
            rw [List.getElem?_cons_succ] at hi
            rw [hidx i e' hi]
            push_cast
            omega
        · intro nId hnId
          rw [List.map_cons, List.mem_cons, not_or] at hnId
          rw [hother nId hnId.2, Function.update_of_ne hnId.1]
      · have hsaved : ¬savedAsNew e = true := fun h => hrefs (of_decide_eq_true h)
        rw [List.filter_cons_of_neg hsaved] at hcnt
        obtain ⟨indices, hwrite, hidx, hother⟩ := ih nIds
          (Function.update mapUnkIds e.1 nIds) hrest hcnt
        rw [List.filter_cons_of_neg hsaved]
        refine ⟨indices, ?_, hidx, ?_⟩
        · dsimp only
          rw [if_neg hrefs, hwrite]
        · intro nId hnId
          rw [List.map_cons, List.mem_cons, not_or] at hnId
          rw [hother nId hnId.2, Function.update_of_ne hnId.1]

theorem writeTriedEntries_spec {nTried : ℤ} (entries : List (ℕ × CAddrInfo)) (nIds : ℤ)
    (hcnt : nIds + (entries.filter savedAsTried).length = nTried) :
    writeTriedEntries nTried nIds entries
      = (entries.filter savedAsTried).flatMap fun e => writeInfo e.2.toCAddrRecord := by
  induction entries generalizing nIds with
  | nil => rfl
  | cons e entries ih =>
    unfold writeTriedEntries
    by_cases hend : nIds = nTried
    · have hnil : (e :: entries).filter savedAsTried = [] := by
        apply List.length_eq_zero_iff.mp
        omega
      rw [if_pos hend, hnil]
      rfl
    · rw [if_neg hend]
      by_cases htried : savedAsTried e = true
      · rw [List.filter_cons_of_pos htried, List.length_cons] at hcnt
        rw [if_pos (show e.2.fInTried = true from htried), List.filter_cons_of_pos htried,
          List.flatMap_cons, ih (nIds + 1) (by push_cast at hcnt; omega)]
      · rw [List.filter_cons_of_neg htried] at hcnt
        rw [if_neg (show ¬e.2.fInTried = true from htried), List.filter_cons_of_neg htried,
          ih nIds hcnt]

end CAddrMan

end ZalemCoin.Network
