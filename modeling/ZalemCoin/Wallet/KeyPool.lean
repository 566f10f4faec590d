import Mathlib.Data.Finset.Max
import Mathlib.Tactic.Ring
import ZalemCoin.Script.Standard

/-!
# The key pool

The wallet generates keys ahead of their use. Their records are in its database by index, and
`setKeyPool` is the set of the indices that are free: a key that is reserved is not in the set, its
record stays, and the key is kept or returned later. New records go to the indices after the largest
free one, or from one on when no index is free or a new pool is made, whether an index is reserved or
not.
-/

namespace ZalemCoin.Wallet

open Script

structure CKeyPool where
  nTime : ℤ
  vchPubKey : CPubKey

/-- What the key pool gets from outside: the public keys that are generated, in their order, the times
when they are, and the arguments `-keypool` and `-litemode`. -/
structure KeyPoolEnv where
  Hash160 : List UInt8 → CKeyID
  newKey : ℕ → CPubKey
  time : ℕ → ℤ
  keypool : Option ℤ
  fLiteMode : Bool

def KeyPoolEnv.size (env : KeyPoolEnv) : ℤ :=
  max (env.keypool.getD (if env.fLiteMode then 100 else 1000)) 0

structure PoolWallet where
  fLocked : Bool
  keys : List CPubKey
  /-- The number of keys that have been generated. -/
  nGenerated : ℕ
  setKeyPool : Finset ℤ
  /-- The records of the database. -/
  pool : ℤ → Option CKeyPool
  vchDefaultKey : CPubKey

namespace PoolWallet

variable (env : KeyPoolEnv)

def HaveKey (w : PoolWallet) (address : CKeyID) : Bool :=
  w.keys.any fun key => key.GetID env.Hash160 == address

def GenerateNewKey (w : PoolWallet) : CPubKey × PoolWallet :=
  (env.newKey w.nGenerated,
    { w with keys := env.newKey w.nGenerated :: w.keys, nGenerated := w.nGenerated + 1 })

def writeNewKey (w : PoolWallet) (nIndex : ℤ) : PoolWallet :=
  let (vchPubKey, w') := w.GenerateNewKey env
  { w' with
    pool := Function.update w.pool nIndex (some ⟨env.time w.nGenerated, vchPubKey⟩)
    setKeyPool := insert nIndex w.setKeyPool }

/-- Makes a new pool: the records of the free indices are erased, and new ones are written. -/
def NewKeyPool (w : PoolWallet) : Bool × PoolWallet :=
  let w' :=
    { w with pool := fun i => if i ∈ w.setKeyPool then none else w.pool i, setKeyPool := ∅ }
  if w'.fLocked then (false, w')
  else (true, (List.range env.size.toNat).foldl (fun w (i : ℕ) => w.writeNewKey env (i + 1)) w')

/-- The index after the largest free one. -/
def nEnd (w : PoolWallet) : ℤ :=
  if h : w.setKeyPool.Nonempty then w.setKeyPool.max' h + 1 else 1

/-- The loop that adds keys until there are enough. -/
def topUpLoop (nSize : ℕ) : ℕ → PoolWallet → PoolWallet
  | 0, w => w
  | fuel + 1, w =>
    if w.setKeyPool.card < nSize then topUpLoop nSize fuel (w.writeNewKey env w.nEnd) else w

/-- The number of free keys that the pool is filled up to. It is computed in 32 bits. -/
def topUpSize (nSize : UInt32) : ℕ :=
  ((if nSize > 0 then nSize else UInt32.ofNat env.size.toNat) + 1).toNat

def TopUpKeyPool (w : PoolWallet) (nSize : UInt32) : Bool × PoolWallet :=
  if w.fLocked then (false, w)
  else (true, topUpLoop env (topUpSize env nSize) (topUpSize env nSize) w)

def filled (w : PoolWallet) : PoolWallet := if w.fLocked then w else (w.TopUpKeyPool env 0).2

/-- Takes the oldest free key. The index is set before a failure is noticed; it is -1 when there is no
free key. -/
def takeOldest (w : PoolWallet) (keypool : CKeyPool) :
    Except String Unit × ℤ × CKeyPool × PoolWallet :=
  if h : w.setKeyPool.Nonempty then
    let nIndex := w.setKeyPool.min' h
    let w' := { w with setKeyPool := w.setKeyPool.erase nIndex }
    match w.pool nIndex with
    | none => (.error "ReserveKeyFromKeyPool() : read failed", nIndex, keypool, w')
    | some keypool =>
      if ¬w.HaveKey env (keypool.vchPubKey.GetID env.Hash160) then
        (.error "ReserveKeyFromKeyPool() : unknown key in key pool", nIndex, keypool, w')
      else if ¬keypool.vchPubKey.IsValid then
        (.error "assert(keypool.vchPubKey.IsValid())", nIndex, keypool, w')
      else (.ok (), nIndex, keypool, w')
  else (.ok (), -1, keypool, w)

def ReserveKeyFromKeyPool (w : PoolWallet) (keypool : CKeyPool) :
    Except String Unit × ℤ × CKeyPool × PoolWallet :=
  (w.filled env).takeOldest env { keypool with vchPubKey := CPubKey.invalid }

/-- Erases the record of a key that is kept. -/
def KeepKey (w : PoolWallet) (nIndex : ℤ) : PoolWallet :=
  { w with pool := Function.update w.pool nIndex none }

def ReturnKey (w : PoolWallet) (nIndex : ℤ) : PoolWallet :=
  { w with setKeyPool := insert nIndex w.setKeyPool }

def blankRecord (w : PoolWallet) : CKeyPool := ⟨env.time w.nGenerated, CPubKey.invalid⟩

def GetKeyFromPool (w : PoolWallet) : Except String (Option CPubKey) × PoolWallet :=
  match w.ReserveKeyFromKeyPool env (w.blankRecord env) with
  | (.error e, _, _, w) => (.error e, w)
  | (.ok (), nIndex, keypool, w) =>
    if nIndex = -1 then
      if w.fLocked then (.ok none, w)
      else (.ok (some (w.GenerateNewKey env).1), (w.GenerateNewKey env).2)
    else (.ok (some keypool.vchPubKey), w.KeepKey nIndex)

end PoolWallet

structure CReserveKey where
  nIndex : ℤ
  vchPubKey : CPubKey

namespace CReserveKey

def empty : CReserveKey := ⟨-1, CPubKey.invalid⟩

/-- The key that is reserved, which is reserved now if it has not been before. The default key of the
wallet stands in when the pool is empty. -/
def GetReservedKey (env : KeyPoolEnv) (r : CReserveKey) (w : PoolWallet) :
    Except String (Option CPubKey) × CReserveKey × PoolWallet :=
  if r.nIndex = -1 then
    match w.ReserveKeyFromKeyPool env (w.blankRecord env) with
    | (.error e, nIndex, _, w) => (.error e, { r with nIndex := nIndex }, w)
    | (.ok (), nIndex, keypool, w) =>
      if nIndex ≠ -1 then
        if keypool.vchPubKey.IsValid then
          (.ok (some keypool.vchPubKey), ⟨nIndex, keypool.vchPubKey⟩, w)
        else (.error "assert(vchPubKey.IsValid())", ⟨nIndex, keypool.vchPubKey⟩, w)
      else if w.vchDefaultKey.IsValid then
        (.ok (some w.vchDefaultKey), ⟨nIndex, w.vchDefaultKey⟩, w)
      else (.ok none, { r with nIndex := nIndex }, w)
  else if r.vchPubKey.IsValid then (.ok (some r.vchPubKey), r, w)
  else (.error "assert(vchPubKey.IsValid())", r, w)

def KeepKey (r : CReserveKey) (w : PoolWallet) : CReserveKey × PoolWallet :=
  (empty, if r.nIndex ≠ -1 then w.KeepKey r.nIndex else w)

def ReturnKey (r : CReserveKey) (w : PoolWallet) : CReserveKey × PoolWallet :=
  (empty, if r.nIndex ≠ -1 then w.ReturnKey r.nIndex else w)

end CReserveKey

/-! ## The indices that are written -/

namespace PoolWallet

variable (env : KeyPoolEnv)

/-- Writes the records of new keys under some indices, one after the other. -/
def writeAll (w : PoolWallet) (l : List ℤ) : PoolWallet :=
  l.foldl (fun w nIndex => w.writeNewKey env nIndex) w

def topUpIndices (w : PoolWallet) (nSize : UInt32) : List ℤ :=
  if w.fLocked then []
  else (List.range (topUpSize env nSize - w.setKeyPool.card)).map fun j : ℕ => w.nEnd + (j : ℤ)

def newPoolIndices (w : PoolWallet) : List ℤ :=
  if w.fLocked then [] else (List.range env.size.toNat).map fun i : ℕ => (i : ℤ) + 1

variable {env} {w : PoolWallet}

theorem lt_nEnd {i : ℤ} (h : i ∈ w.setKeyPool) : i < w.nEnd := by
  have hne : w.setKeyPool.Nonempty := ⟨i, h⟩
  have hle := Finset.le_max' _ _ h
  unfold nEnd
  rw [dif_pos hne]
  omega

theorem nEnd_notMem (w : PoolWallet) : w.nEnd ∉ w.setKeyPool :=
  fun h => (lt_irrefl _ (lt_nEnd h)).elim

theorem nEnd_writeNewKey (w : PoolWallet) :
    (w.writeNewKey env w.nEnd).nEnd = w.nEnd + 1 := by
  have hne : (insert w.nEnd w.setKeyPool).Nonempty := Finset.insert_nonempty _ _
  have hmax : (insert w.nEnd w.setKeyPool).max' hne = w.nEnd := by
    apply le_antisymm
    · apply Finset.max'_le
      intro i hi
      rcases Finset.mem_insert.mp hi with rfl | hmem
      · exact le_rfl
      · exact (lt_nEnd hmem).le
    · exact Finset.le_max' _ _ (Finset.mem_insert_self _ _)
  change (if h : (insert w.nEnd w.setKeyPool).Nonempty then
    (insert w.nEnd w.setKeyPool).max' h + 1 else 1) = _
  rw [dif_pos hne, hmax]

theorem topUpLoop_eq (nSize fuel : ℕ) (w : PoolWallet) :
    topUpLoop env nSize fuel w = w.writeAll env
      ((List.range (min fuel (nSize - w.setKeyPool.card))).map fun j : ℕ => w.nEnd + (j : ℤ)) := by
  induction fuel generalizing w with
  | zero => simp [topUpLoop, writeAll]
  | succ fuel ih =>
    unfold topUpLoop
    rcases Nat.lt_or_ge w.setKeyPool.card nSize with hlt | hge
    · have hcard : (w.writeNewKey env w.nEnd).setKeyPool.card = w.setKeyPool.card + 1 :=
        Finset.card_insert_of_notMem w.nEnd_notMem
      have hcnt : min (fuel + 1) (nSize - w.setKeyPool.card)
          = min fuel (nSize - (w.setKeyPool.card + 1)) + 1 := by omega
      rw [if_pos hlt, ih, nEnd_writeNewKey, hcard, hcnt, List.range_succ_eq_map, List.map_cons,
        List.map_map]
      unfold writeAll
      rw [List.foldl_cons, Nat.cast_zero, add_zero]
      congr 2
      funext j
      simp only [Function.comp_apply, Nat.cast_succ]
      ring
    · rw [if_neg (by omega), Nat.sub_eq_zero_of_le hge]
      simp [writeAll]

theorem topUpKeyPool_eq (w : PoolWallet) (nSize : UInt32) :
    (w.TopUpKeyPool env nSize).2 = w.writeAll env (w.topUpIndices env nSize) := by
  unfold TopUpKeyPool topUpIndices
  split_ifs
  · rfl
  · dsimp only
    rw [topUpLoop_eq, Nat.min_eq_right (Nat.sub_le _ _)]

theorem newKeyPool_eq (w : PoolWallet) :
    (w.NewKeyPool env).2 =
      { w with pool := fun i => if i ∈ w.setKeyPool then none else w.pool i
               setKeyPool := ∅ }.writeAll env (w.newPoolIndices env) := by
  unfold NewKeyPool newPoolIndices writeAll
  dsimp only
  split_ifs
  · rfl
  · rw [List.foldl_map]

theorem nGenerated_writeAll (l : List ℤ) (w : PoolWallet) :
    (w.writeAll env l).nGenerated = w.nGenerated + l.length := by
  induction l generalizing w with
  | nil => rfl
  | cons i l ih =>
    change ((w.writeNewKey env i).writeAll env l).nGenerated = _
    rw [ih, List.length_cons]
    change w.nGenerated + 1 + l.length = _
    omega

end PoolWallet

end ZalemCoin.Wallet
