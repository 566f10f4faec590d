import ZalemCoin.Chain.AcceptRuns
import ZalemCoin.Chain.Anchored

/-!
# Chains of blocks with nothing but a coinbase

Runs of any length, in a context with simple hashes: a main branch and a side branch that leaves it
at the genesis block, of proof-of-work blocks that only have a coinbase, which pays nothing. The
times of the blocks by their heights are a parameter. Each of the blocks passes the checks that do
not depend on the chain, in every state whose limits are not below the smallest ones.
-/

namespace ZalemCoin.Chain

open Lib

def grownId (side : Bool) (h : ℕ) : ℕ := if side ∧ 0 < h then 20000 + h else h + 1

def grownHash (side : Bool) (h : ℕ) : UInt256 := BitVec.ofNat 256 (grownId side h)

def grownHeight : ℕ := 6000

def grownBits : UInt32 := 0x1e3fffff

def grownCoinbase (time : ℕ → ℕ) (side : Bool) (h : ℕ) : CTransaction where
  nVersion := 1
  nTime := UInt32.ofNat (time h)
  vin := [⟨COutPoint.null, heightScript h ++ [0, 0], 0xffffffff⟩]
  vout := [payTo 0]
  nLockTime := UInt32.ofNat (grownId side h)

def grownBlock (time : ℕ → ℕ) (side : Bool) (h : ℕ) : CBlock where
  nVersion := 7
  hashPrevBlock := if h = 0 then 0 else grownHash side (h - 1)
  hashMerkleRoot := grownHash side h
  nTime := UInt32.ofNat (time h)
  nBits := grownBits
  nNonce := UInt32.ofNat (grownId side h)
  vtx := [grownCoinbase time side h]
  vchBlockSig := []

def grownFile (time : ℕ → ℕ) (nFile : UInt32) : Option CBlock :=
  if 1 ≤ nFile.toNat ∧ nFile.toNat ≤ grownHeight + 1 then
    some (grownBlock time false (nFile.toNat - 1))
  else if 20000 < nFile.toNat ∧ nFile.toNat ≤ 20000 + grownHeight then
    some (grownBlock time true (nFile.toNat - 20000))
  else none

/-! ## Sizes -/

theorem length_heightScript {h : ℕ} (hh : h ≤ grownHeight) :
    1 ≤ (heightScript h).length ∧ (heightScript h).length ≤ 4 := by
  have hbytes : (leBytes h h).length ≤ 2 := length_leBytes (by unfold grownHeight at hh; omega)
  unfold heightScript
  split
  · simp
  · dsimp only
    split <;> simp <;> omega

theorem length_grownScript {h : ℕ} (hh : h ≤ grownHeight) :
    2 ≤ (heightScript h ++ [0, 0]).length ∧ (heightScript h ++ [0, 0]).length ≤ 6 := by
  obtain ⟨hlow, hhigh⟩ := length_heightScript hh
  rw [List.length_append, List.length_cons, List.length_cons, List.length_nil]
  omega

theorem grownBlock_size (time : ℕ → ℕ) (side : Bool) {h : ℕ} (hh : h ≤ grownHeight) :
    (grownCoinbase time side h).GetSerializeSize ≤ 100 ∧
      (grownBlock time side h).GetSerializeSize ≤ 300 := by
  obtain ⟨-, hlen⟩ := length_grownScript hh
  have hscr : bytesSize (heightScript h ++ [0, 0]) ≤ 7 := by
    have hone : GetSizeOfCompactSize (heightScript h ++ [0, 0]).length = 1 := if_pos (by omega)
    unfold bytesSize
    omega
  have hout : CTxOut.GetSerializeSize (payTo 0) = 10 := rfl
  have htx : (grownCoinbase time side h).GetSerializeSize ≤ 100 := by
    show 4 + 4 + (1 + ((36 + bytesSize (heightScript h ++ [0, 0]) + 4) + 0))
      + (1 + ((payTo 0).GetSerializeSize + 0)) + 4 ≤ 100
    omega
  refine ⟨htx, ?_⟩
  show 80 + (1 + ((grownCoinbase time side h).GetSerializeSize + 0)) + (1 + 0) ≤ 300
  omega

theorem sigOpCountLoop_le (fuel : ℕ) (last : UInt8) (script : CScript) :
    sigOpCountLoop false fuel last script ≤ 20 * fuel := by
  induction fuel generalizing last script with
  | zero => exact Nat.zero_le _
  | succ fuel ih =>
    cases script with
    | nil => exact Nat.zero_le _
    | cons byte script =>
      unfold sigOpCountLoop
      dsimp only
      split
      · exact Nat.zero_le _
      · rename_i opcode _
        have hrest := ih opcode (GetOp byte script).rest
        have hone : sigOpsOf false last opcode ≤ 20 := by
          unfold sigOpsOf
          split
          · omega
          split
          · simp
          · omega
        omega

theorem grownCoinbase_sigOps (time : ℕ → ℕ) (side : Bool) {h : ℕ} (hh : h ≤ grownHeight) :
    GetLegacySigOpCount (grownCoinbase time side h) ≤ MIN_BLOCK_SIZE / 50 := by
  obtain ⟨-, hlen⟩ := length_grownScript hh
  have hin : CScript.GetSigOpCount (heightScript h ++ [0, 0]) false
      ≤ 20 * (heightScript h ++ [0, 0]).length := sigOpCountLoop_le _ _ _
  have hout : CScript.GetSigOpCount [OP_1] false = 0 := by decide
  unfold GetLegacySigOpCount grownCoinbase payTo MIN_BLOCK_SIZE
  simp only [List.map_cons, List.map_nil, List.sum_cons, List.sum_nil, hout]
  omega

def grownContext (time : ℕ → ℕ) : Context :=
  { plainContext (BlockFiles.ofBlocks (grownFile time) (by
      intro nFile block h
      unfold grownFile at h
      split at h
      · cases h
        have := (@grownBlock_size time false (nFile.toNat - 1) (by omega)).2
        omega
      · split at h
        · cases h
          have := (@grownBlock_size time true (nFile.toNat - 20000) (by omega)).2
          omega
        · simp at h)) (grownHash false 0) true with
    proofOfWorkLimit := 2 ^ 238 - 1 }

def grownEnv : Env := plainEnv (2 ^ 32)

/-! ## Identifiers -/

variable {time : ℕ → ℕ} {side side' : Bool} {h h' : ℕ}

theorem toNat_ofNat_of_lt {n : ℕ} (hn : n < 2 ^ 32) : (UInt32.ofNat n).toNat = n :=
  UInt32.toNat_ofNat_of_lt' hn

theorem grownId_bounds (side : Bool) (hh : h ≤ grownHeight) : 1 ≤ grownId side h ∧ grownId side h ≤ 26000 := by
  unfold grownHeight at hh
  unfold grownId
  split <;> omega

theorem grownHash_zero : grownHash side 0 = grownHash false 0 := by
  cases side <;> rfl

theorem grownHash_inj (hh : h ≤ grownHeight) (hh' : h' ≤ grownHeight)
    (heq : grownHash side h = grownHash side' h') : h = h' ∧ (h = 0 ∨ side = side') := by
  have hid := grownId_bounds side hh
  have hid' := grownId_bounds side' hh'
  have hnat := congrArg BitVec.toNat heq
  unfold grownHash at hnat
  rw [BitVec.toNat_ofNat, BitVec.toNat_ofNat, Nat.mod_eq_of_lt (by omega),
    Nat.mod_eq_of_lt (by omega)] at hnat
  unfold grownHeight at hh hh'
  unfold grownId at hnat
  split_ifs at hnat with hside hside' hside'
  · exact ⟨by omega, .inr (hside.1.trans hside'.1.symm)⟩
  · omega
  · omega
  · refine ⟨by omega, ?_⟩
    by_cases hzero : h = 0
    · exact .inl hzero
    · -- Above the genesis block, neither of the two is on the side branch.
      have hmain : side = false := by
        cases side
        · rfl
        · exact absurd ⟨rfl, by omega⟩ hside
      have hmain' : side' = false := by
        cases side'
        · rfl
        · exact absurd ⟨rfl, by omega⟩ hside'
      exact .inr (hmain.trans hmain'.symm)

theorem getHash_grownBlock (hh : h ≤ grownHeight) :
    (grownContext time).GetHash (grownBlock time side h) = grownHash side h := by
  have hid := grownId_bounds side hh
  show BitVec.ofNat 256 (UInt32.ofNat (grownId side h)).toNat = _
  rw [toNat_ofNat_of_lt (by omega)]
  rfl

theorem grownBlock_stored (hh : h ≤ grownHeight) :
    (grownContext time).files.block (UInt32.ofNat (grownId side h)) 8
      = some (grownBlock time side h) := by
  have hid := grownId_bounds side hh
  have hnat : (UInt32.ofNat (grownId side h)).toNat = grownId side h := toNat_ofNat_of_lt (by omega)
  have hopen : ¬(UInt32.ofNat (grownId side h) = 0 ∨ UInt32.ofNat (grownId side h) = 0xffffffff ∨
      (8 : UInt32) ≠ 8) := by
    rintro (hzero | hmax | hne)
    · rw [hzero] at hnat
      change 0 = _ at hnat
      omega
    · rw [hmax] at hnat
      change 0xffffffff = _ at hnat
      omega
    · exact hne rfl
  show (if _ then none else grownFile time (UInt32.ofNat (grownId side h))) = _
  rw [if_neg hopen]
  unfold grownFile
  rw [hnat]
  unfold grownHeight at hh ⊢
  by_cases hside : side = true ∧ 0 < h
  · have hval : grownId side h = 20000 + h := if_pos hside
    rw [hval, if_neg (by omega), if_pos (by omega), hside.1, Nat.add_sub_cancel_left]
  · have hval : grownId side h = h + 1 := if_neg hside
    rw [hval, if_pos (by omega), Nat.add_sub_cancel]
    -- The genesis block is the same block on both branches.
    cases side
    · rfl
    · obtain rfl : h = 0 := by
        by_contra hne
        exact hside ⟨rfl, by omega⟩
      rfl

/-! ## Checks -/

theorem grownBlock_isProofOfStake : (grownBlock time side h).IsProofOfStake = false := rfl

theorem grownBlock_time (htime : time h < 2 ^ 32) :
    (grownBlock time side h).GetBlockTime = time h := by
  show ((UInt32.ofNat (time h)).toNat : ℤ) = _
  rw [toNat_ofNat_of_lt htime]

theorem grownBlock_proofOfWork (hh : h ≤ grownHeight) :
    CheckProofOfWork (grownContext time) (grownHash side h) grownBits = true := by
  have hid := grownId_bounds side hh
  have hhash : (grownHash side h).toNat = grownId side h := by
    unfold grownHash
    rw [BitVec.toNat_ofNat, Nat.mod_eq_of_lt (by omega)]
  have htgt : SetCompact grownBits = (2 ^ 22 - 1) * 2 ^ 216 := by decide
  have hlim : ((grownContext time).proofOfWorkLimit : ℤ) = 2 ^ 238 - 1 := by
    show (((2 ^ 238 - 1 : ℕ)) : ℤ) = _
    norm_num
  unfold CheckProofOfWork
  rw [hhash, htgt, hlim]
  have hsmall : (grownId side h : ℤ) ≤ 26000 := by exact_mod_cast hid.2
  simp only [Bool.and_eq_true, decide_eq_true_eq]
  refine ⟨⟨by norm_num, by norm_num⟩, le_trans hsmall (by norm_num)⟩

/-- What the limits are at least. -/
structure Roomy (s : NodeState) : Prop where
  size : MIN_BLOCK_SIZE ≤ s.MAX_BLOCK_SIZE
  sigops : MIN_BLOCK_SIZE / 50 ≤ s.MAX_BLOCK_SIGOPS

theorem grownCoinbase_checked {s : NodeState} (hs : Roomy s) (hh : h ≤ grownHeight) :
    CheckTransaction s.MAX_BLOCK_SIZE (grownCoinbase time side h) = .ok () := by
  have hsize := (grownBlock_size time side hh).1
  obtain ⟨hlow, hhigh⟩ := length_grownScript hh
  have hroom := hs.size
  unfold MIN_BLOCK_SIZE at hroom
  unfold CheckTransaction
  rw [except_bind_eq_ok]
  refine ⟨(), ensure_eq_ok.mpr (by simp [grownCoinbase]), ?_⟩
  rw [except_bind_eq_ok]
  refine ⟨(), ensure_eq_ok.mpr (by simp [grownCoinbase]), ?_⟩
  rw [except_bind_eq_ok]
  refine ⟨(), ensure_eq_ok.mpr (by omega), ?_⟩
  rw [except_bind_eq_ok]
  refine ⟨0, rfl, ?_⟩
  rw [except_bind_eq_ok]
  refine ⟨(), ensure_eq_ok.mpr (by simp [grownCoinbase]), ?_⟩
  rw [if_pos (show (grownCoinbase time side h).IsCoinBase = true from rfl)]
  refine ensure_eq_ok.mpr fun txin htxin => ?_
  obtain rfl := Option.some.inj (Option.mem_def.mp htxin)
  exact ⟨hlow, le_trans hhigh (by norm_num)⟩

theorem grownBlock_checked {s : NodeState} (hs : Roomy s) (hh : h ≤ grownHeight)
    (htime : time h < 2 ^ 32) :
    BlockChecked (grownContext time) grownEnv s (grownBlock time side h) true true false where
  form := by
    have hsize := (grownBlock_size time side hh).2
    have hroom := hs.size
    unfold MIN_BLOCK_SIZE at hroom
    unfold checkForm
    rw [except_bind_eq_ok]
    refine ⟨(), ensure_eq_ok.mpr ⟨by simp [grownBlock], ?_, by omega⟩, ?_⟩
    · show 1 ≤ s.MAX_BLOCK_SIZE
      omega
    rw [except_bind_eq_ok]
    refine ⟨(), ensure_eq_ok.mpr ?_, ?_⟩
    · rintro ⟨-, -, hwork⟩
      rw [getHash_grownBlock hh] at hwork
      exact hwork (grownBlock_proofOfWork hh)
    rw [except_bind_eq_ok]
    refine ⟨(), ensure_eq_ok.mpr ?_, ?_⟩
    · rw [grownBlock_time htime]
      show (time h : ℤ) ≤ 2 ^ 32 + nDrift
      have hdrift : nDrift = 300 := rfl
      omega
    rw [except_bind_eq_ok]
    refine ⟨(), ensure_eq_ok.mpr ?_, ?_⟩
    · intro tx htx
      obtain rfl := Option.some.inj (Option.mem_def.mp htx)
      rfl
    rw [except_bind_eq_ok]
    refine ⟨(), ensure_eq_ok.mpr ?_, rfl⟩
    intro tx htx
    exact absurd htx (by simp [grownBlock])
  devops := rfl
  signature := by simp
  locks := rfl
  payment := by
    unfold checkFloatingcityPayment
    rw [if_neg (by simp [grownBlock_isProofOfStake])]
  transactions := by
    have hsigops := grownCoinbase_sigOps time side hh
    have hroom := hs.sigops
    unfold checkTransactions
    rw [except_bind_eq_ok]
    refine ⟨(), except_forM_eq_ok.mpr fun tx htx => ?_, ?_⟩
    · obtain rfl := List.mem_singleton.mp htx
      unfold checkBlockTransaction
      rw [grownCoinbase_checked hs hh, except_bind_eq_ok]
      refine ⟨(), rfl, ensure_eq_ok.mpr ?_⟩
      exact le_rfl
    rw [except_bind_eq_ok]
    refine ⟨(), ensure_eq_ok.mpr (by simp [grownBlock]), ?_⟩
    rw [except_bind_eq_ok]
    refine ⟨(), ensure_eq_ok.mpr ?_, ensure_eq_ok.mpr ?_⟩
    · show GetLegacySigOpCount (grownCoinbase time side h) + 0 ≤ s.MAX_BLOCK_SIGOPS
      omega
    · rintro ⟨-, hroot⟩
      have hid := grownId_bounds side hh
      refine hroot ?_
      show grownHash side h = BitVec.ofNat 256 (UInt32.ofNat (grownId side h)).toNat
      rw [toNat_ofNat_of_lt (by omega)]
      rfl

end ZalemCoin.Chain
