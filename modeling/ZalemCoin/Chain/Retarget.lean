import ZalemCoin.Chain.Fork
import ZalemCoin.Lib.Binary64

/-!
# The difficulty of the next block

`GetNextTargetRequired` rates the spacing of the last five blocks, whatever their types, skews the
result towards the type that has become rare, eases it when the last block of the type came late,
and scales the target of that block. The computation is in doubles. It follows the links to previous
blocks without asking whether they are there: the guard at the start is on the height only, and
`GetLastBlockIndex` stops at the genesis block when the chain has no block of the type.
-/

namespace ZalemCoin.Chain

open Lib

/-- The spacings of blocks that the rounds are rated by, in seconds. -/
def BLOCK_SPACING : ℤ := 180
def BLOCK_SPACING_MAX : ℤ := 270
def DSrateNRM : ℤ := BLOCK_SPACING
def DSrateMAX : ℤ := BLOCK_SPACING_MAX
def FRrateDWN : ℤ := DSrateNRM - 60
def FRrateFLR : ℤ := DSrateNRM - 90
def FRrateCLNG : ℤ := DSrateMAX + 90

/-- The number of blocks in a scan, the last one included. -/
def scanheight : ℕ := 6

def GetCompact (n : ℤ) : UInt32 :=
  if n = 0 then 0
  else
    let magnitude := n.natAbs
    let nSize := (magnitude.log2 + 1) / 8 + 1
    let word :=
      if nSize ≤ 3 then magnitude * 256 ^ (3 - nSize) else magnitude / 256 ^ (nSize - 3)
    UInt32.ofNat (nSize * 2 ^ 24 + word + if n < 0 then 2 ^ 23 else 0)

def ProofOfStakeLimit (ctx : Context) : ℤ :=
  match ctx.network with
  | .main => 2 ^ 234 - 1
  | .testnet | .regtest => 2 ^ 236 - 1

/-- The search of `GetLastBlockIndex` for the last block of a type, which ends at the genesis block
when there is none. -/
def lastBlockIndex (s : NodeState) (fProofOfStake : Bool) :
    ℕ → UInt256 → Except Failure CBlockIndex
  | 0, _ => .error (.crash "GetLastBlockIndex does not return")
  | fuel + 1, pindex => do
    let i ← s.index (some pindex)
    match i.pprev with
    | none => pure i
    | some p =>
      if i.fProofOfStake ≠ fProofOfStake then lastBlockIndex s fProofOfStake fuel p else pure i

def GetLastBlockIndex (s : NodeState) (pindex : UInt256) (fProofOfStake : Bool) :
    Except Failure CBlockIndex := do
  let i ← s.index (some pindex)
  lastBlockIndex s fProofOfStake (i.nHeight + 1) pindex

def roundFactor (VLRtemp : ℤ) : ℚ :=
  if VLRtemp ≥ DSrateNRM then
    if VLRtemp > FRrateCLNG then 1 / 2 else if VLRtemp > DSrateMAX then 3 / 4 else 1
  else if VLRtemp < FRrateFLR then 2 else if VLRtemp < FRrateDWN then 3 / 2 else 5 / 4

/-- What a scan finds: the factors of its rounds, and how many of their blocks are of each type. -/
structure VRXScan where
  VLF : List ℚ
  prevPoW : ℕ
  prevPoS : ℕ

def scanRounds (s : NodeState) : ℕ → CBlockIndex → Except Failure VRXScan
  | 0, _ => .ok ⟨[], 0, 0⟩
  | rounds + 1, pindex => do
    let pindexPrev ← s.index pindex.pprev
    let VLRtemp := pindex.GetBlockTime - pindexPrev.GetBlockTime
    let scan ← scanRounds s rounds pindexPrev
    pure
      { VLF := roundFactor VLRtemp :: scan.VLF
        prevPoW := scan.prevPoW + if pindexPrev.fProofOfStake then 0 else 1
        prevPoS := scan.prevPoS + if pindexPrev.fProofOfStake then 1 else 0 }

def VRXScan.average (scan : VRXScan) : ℚ :=
  toDouble (scan.VLF.foldl (fun sum VLF => toDouble (sum + VLF)) 0 / 5)

/-- The mean, reduced for a type that has become rare. -/
def VRXScan.skew (scan : VRXScan) (fProofOfStake : Bool) : ℚ :=
  if scan.prevPoW < scan.prevPoS ∧ ¬fProofOfStake then
    if 3 < scan.prevPoS - scan.prevPoW then toDouble (scan.average / 3) else scan.average
  else if scan.prevPoS < scan.prevPoW ∧ fProofOfStake then
    if 3 < scan.prevPoW - scan.prevPoS then toDouble (scan.average / 3) else scan.average
  else scan.average

/-- The skewed mean, which is at least one half. -/
def VRXScan.skewed (scan : VRXScan) (fProofOfStake : Bool) : ℚ :=
  if scan.skew fProofOfStake < 1 / 2 then 1 / 2 else scan.skew fProofOfStake

def velocityTimes (s : NodeState) (BlockVelocityType : CBlockIndex) :
    Except Failure (UInt64 × UInt64) := do
  let prev ← s.index BlockVelocityType.pprev
  pure (BlockVelocityType.nTime.toUInt64, prev.nTime.toUInt64)

/-- The time between these two blocks, as the curve computes it. -/
def difTime (times : UInt64 × UInt64) : UInt64 := times.1 - times.2

/-- Halves the mean once for every hour, up to four, that the last block of the type came late. -/
def easeAverage (difTime : UInt64) (TerminalAverage : ℚ) : ℚ :=
  [1, 2, 3, 4].foldl
    (fun average hours =>
      if difTime > hours * 60 * 60 then toDouble (average / 2) else average) TerminalAverage

/-- The engine and the curve: the mean of the last rounds, skewed and eased. -/
def VRX_ThreadCurve (s : NodeState) (pindexLast BlockVelocityType : CBlockIndex)
    (fProofOfStake : Bool) : Except Failure ℚ := do
  let scan ← scanRounds s (scanheight - 1) pindexLast
  let times ← velocityTimes s BlockVelocityType
  pure (easeAverage (difTime times) (scan.skewed fProofOfStake))

/-- The factor by which the old target is divided, with four decimal places. -/
def difficultyfactor (TerminalAverage : ℚ) : ℤ := ⌊toDouble (10000 * TerminalAverage)⌋

def scaleTarget (bnVelocity : ℤ) (nBits : UInt32) (TerminalAverage : ℚ) : Except Failure UInt32 :=
  if difficultyfactor TerminalAverage = 0 then
    .error (.crash "CBigNum::operator/ : BN_div failed")
  else
    let bnNew := (SetCompact nBits).tdiv (difficultyfactor TerminalAverage) * 10000
    .ok (GetCompact (if bnNew > bnVelocity then bnVelocity else bnNew))

/-- The target of the next block of a type. -/
def VRX_Retarget (ctx : Context) (s : NodeState) (pindexLast : UInt256) (fProofOfStake : Bool) :
    Except Failure UInt32 := do
  let bnVelocity := if fProofOfStake then ProofOfStakeLimit ctx else ctx.proofOfWorkLimit
  let last ← s.index (some pindexLast)
  if last.nHeight < scanheight + 99 then pure (GetCompact bnVelocity)
  else do
    let BlockVelocityType ← GetLastBlockIndex s pindexLast fProofOfStake
    let TerminalAverage ← VRX_ThreadCurve s last BlockVelocityType fProofOfStake
    scaleTarget bnVelocity BlockVelocityType.nBits TerminalAverage

def GetNextTargetRequired (ctx : Context) (s : NodeState) (pindexLast : UInt256)
    (fProofOfStake : Bool) : Except Failure UInt32 :=
  VRX_Retarget ctx s pindexLast fProofOfStake

/-! ## The factor is not zero -/

theorem half_le_skewed (scan : VRXScan) (fProofOfStake : Bool) :
    (2 : ℚ) ^ (-1 : ℤ) ≤ scan.skewed fProofOfStake := by
  rw [zpow_neg_one, ← one_div]
  unfold VRXScan.skewed
  split
  · exact le_rfl
  · exact not_lt.mp ‹_›

theorem two_zpow_le_half {k : ℤ} {q : ℚ} (h : (2 : ℚ) ^ k ≤ q) :
    (2 : ℚ) ^ (k - 1) ≤ toDouble (q / 2) := by
  apply two_zpow_le_toDouble
  rw [zpow_sub_one₀ (by norm_num)]
  linarith

theorem le_easeAverage {k : ℤ} {q : ℚ} (difTime : UInt64) (h : (2 : ℚ) ^ k ≤ q) :
    (2 : ℚ) ^ (k - 4) ≤ easeAverage difTime q := by
  -- Every step of the loop loses one power of two at most.
  have hstep : ∀ (k : ℤ) (q : ℚ) (c : Prop) [Decidable c], (2 : ℚ) ^ k ≤ q →
      (2 : ℚ) ^ (k - 1) ≤ if c then toDouble (q / 2) else q := by
    intro k q c _ hq
    split
    · exact two_zpow_le_half hq
    · exact le_trans (zpow_le_zpow_right₀ (by norm_num) (by omega)) hq
  have h4 := hstep _ _ (difTime > 4 * 60 * 60) (hstep _ _ (difTime > 3 * 60 * 60)
    (hstep _ _ (difTime > 2 * 60 * 60) (hstep _ _ (difTime > 1 * 60 * 60) h)))
  rw [show k - 4 = k - 1 - 1 - 1 - 1 by omega]
  exact h4

theorem difficultyfactor_pos {q : ℚ} (h : (2 : ℚ) ^ (-5 : ℤ) ≤ q) : 0 < difficultyfactor q := by
  have hfactor : (2 : ℚ) ^ (8 : ℤ) ≤ toDouble (10000 * q) := by
    apply two_zpow_le_toDouble
    norm_num at h ⊢
    linarith
  apply Int.floor_pos.mpr
  norm_num at hfactor
  linarith

theorem scaleTarget_isOk (bnVelocity : ℤ) (nBits : UInt32) (scan : VRXScan) (f : Bool)
    (difTime : UInt64) :
    ∃ r, scaleTarget bnVelocity nBits (easeAverage difTime (scan.skewed f)) = .ok r := by
  have hpos := difficultyfactor_pos (le_easeAverage difTime (half_le_skewed scan f))
  unfold scaleTarget
  rw [if_neg hpos.ne']
  exact ⟨_, rfl⟩

/-! ## When the target can be computed -/

def HasBlockOf (s : NodeState) (p : UInt256) (fProofOfStake : Bool) : Prop :=
  ∃ q i, IsAncestor s.parent q p ∧ s.mapBlockIndex q = some i ∧ i.pprev ≠ none ∧
    i.fProofOfStake = fProofOfStake

variable {s : NodeState} {genesis p : UInt256} {f : Bool}

theorem BlockTree.lastBlockIndex_isOk (h : BlockTree s genesis) {fuel : ℕ}
    (hp : s.mapBlockIndex p ≠ none) (hfuel : s.height p < fuel) :
    ∃ q j, lastBlockIndex s f fuel p = .ok j ∧ s.mapBlockIndex q = some j ∧
      IsAncestor s.parent q p ∧ (j.pprev ≠ none ↔ HasBlockOf s p f) := by
  induction fuel generalizing p with
  | zero => omega
  | succ fuel ih =>
    obtain ⟨i, hidx, hi⟩ := exists_index hp
    have hpar := parent_eq hi
    unfold lastBlockIndex
    rw [hidx]
    simp only [bind, Except.bind]
    rcases hprev : i.pprev with _ | q
    · -- The genesis block has no other ancestor.
      rw [hprev] at hpar
      refine ⟨p, i, rfl, hi, IsAncestor.refl _ _, iff_of_false (by simp [hprev]) ?_⟩
      rintro ⟨x, j, hx, hj, hne, -⟩
      obtain rfl := hx.eq_of_root hpar
      obtain rfl := Option.mem_unique hi hj
      exact hne hprev
    · rw [hprev] at hpar
      have hstep := h.heights p q hpar
      by_cases htype : i.fProofOfStake = f
      · refine ⟨p, i, if_neg (not_not.mpr htype), hi, IsAncestor.refl _ _, ?_⟩
        exact iff_of_true (by simp [hprev])
          ⟨p, i, IsAncestor.refl _ _, hi, by simp [hprev], htype⟩
      · obtain ⟨r, j, hj, hr, hrq, hiff⟩ := ih (h.known p q hpar) (by omega)
        refine ⟨r, j, (if_pos htype).trans hj, hr, Relation.ReflTransGen.head hpar hrq, ?_⟩
        rw [hiff]
        constructor
        · rintro ⟨x, k, hx, hk⟩
          exact ⟨x, k, Relation.ReflTransGen.head hpar hx, hk⟩
        · rintro ⟨x, k, hx, hk, hne, hkind⟩
          refine ⟨x, k, hx.of_ne hpar ?_, hk, hne, hkind⟩
          rintro rfl
          obtain rfl := Option.mem_unique hi hk
          exact htype hkind

theorem BlockTree.scanRounds_isOk (h : BlockTree s genesis) {rounds : ℕ} {i : CBlockIndex}
    (hi : s.mapBlockIndex p = some i) (hrnds : rounds ≤ i.nHeight) :
    ∃ scan, scanRounds s rounds i = .ok scan := by
  induction rounds generalizing p i with
  | zero => exact ⟨_, rfl⟩
  | succ rounds ih =>
    have hheight := height_eq hi
    rcases hprev : i.pprev with _ | q
    · -- A block without a predecessor is at height zero.
      have hroot : p = genesis := h.root p (by simp [hi]) ((parent_eq hi).trans hprev)
      have hlow := h.low
      rw [← hroot] at hlow
      omega
    · have hpar : s.parent p = some q := (parent_eq hi).trans hprev
      have hstep := h.heights p q hpar
      obtain ⟨j, hidx, hj⟩ := exists_index (h.known p q hpar)
      have hheight' := height_eq hj
      obtain ⟨scan, hscan⟩ := ih hj (by omega)
      unfold scanRounds
      rw [hprev, hidx]
      simp only [bind, Except.bind, hscan]
      exact ⟨_, rfl⟩

theorem BlockTree.velocityTimes_isOk_iff (h : BlockTree s genesis) {j : CBlockIndex}
    (hj : s.mapBlockIndex p = some j) :
    (∃ times, velocityTimes s j = .ok times) ↔ j.pprev ≠ none := by
  unfold velocityTimes
  rcases hprev : j.pprev with _ | q
  · refine iff_of_false ?_ (by simp)
    rintro ⟨times, h⟩
    simp [NodeState.index, bind, Except.bind] at h
  · obtain ⟨k, hidx, -⟩ := exists_index (h.known p q ((parent_eq hj).trans hprev))
    rw [hidx]
    exact iff_of_true ⟨_, rfl⟩ (by simp)

theorem getNextTargetRequired_isOk_iff (ctx : Context) (h : BlockTree s genesis)
    {i : CBlockIndex} (hi : s.mapBlockIndex p = some i) (f : Bool) :
    (∃ nBits, GetNextTargetRequired ctx s p f = .ok nBits) ↔
      i.nHeight < scanheight + 99 ∨ HasBlockOf s p f := by
  have hp : s.mapBlockIndex p ≠ none := by simp [hi]
  unfold GetNextTargetRequired VRX_Retarget
  rw [index_eq_ok.mpr hi]
  simp only [bind, Except.bind]
  split
  · rename_i hlow
    exact iff_of_true ⟨_, rfl⟩ (.inl hlow)
  · rename_i hhigh
    have hfuel : s.height p < i.nHeight + 1 := by rw [height_eq hi]; omega
    obtain ⟨q, j, hlast, hj, -, hiff⟩ := h.lastBlockIndex_isOk (f := f) hp hfuel
    have hscanned : scanheight - 1 ≤ i.nHeight := by
      unfold scanheight at hhigh ⊢
      omega
    obtain ⟨scan, hscan⟩ := h.scanRounds_isOk hi hscanned
    have hfound : GetLastBlockIndex s p f = .ok j := by
      unfold GetLastBlockIndex
      rw [index_eq_ok.mpr hi]
      exact hlast
    rw [hfound, or_iff_right hhigh, ← hiff, ← h.velocityTimes_isOk_iff hj]
    unfold VRX_ThreadCurve
    simp only [bind, Except.bind, hscan]
    constructor
    · rintro ⟨nBits, hbits⟩
      rcases htimes : velocityTimes s j with e | times
      · simp [htimes] at hbits
      · exact ⟨times, rfl⟩
    · rintro ⟨times, htimes⟩
      rw [htimes]
      exact scaleTarget_isOk _ _ _ _ _

end ZalemCoin.Chain
