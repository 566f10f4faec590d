import ZalemCoin.Chain.Retarget

/-!
# The globals of the retarget

The retarget keeps all that it computes in global variables, which hold what the call before left in
them, and has a path of its own for debug runs. Here it is as the code runs it, on a record of the
globals, with the rounding of its doubles as a parameter. A call writes every global before it reads
it, and the debug path halves the mean as the normal one does, so that the target depends on neither
(`map_fst_getNextTargetRequired`): it is the target that is computed from the chain alone, which is
`GetNextTargetRequired` when the rounding is that of doubles.
-/

namespace ZalemCoin.Chain

open Lib

/-- The factors of a round. -/
def VRFsm1 : ℚ := 1
def VRFdw1 : ℚ := 3 / 4
def VRFdw2 : ℚ := 1 / 2
def VRFup1 : ℚ := 5 / 4
def VRFup2 : ℚ := 3 / 2
def VRFup3 : ℚ := 2

/-- The number of factors in a mean. -/
def AverageDivisor : ℚ := 5

/-- The global variables of the retarget that it writes. A pointer to a block is the block, if it
is not null. -/
structure VRXGlobals where
  VLF1 : ℚ
  VLF2 : ℚ
  VLF3 : ℚ
  VLF4 : ℚ
  VLF5 : ℚ
  VLFtmp : ℚ
  TerminalAverage : ℚ
  TerminalFactor : ℚ
  newBN : ℤ
  oldBN : ℤ
  VLrate1 : ℤ
  VLrate2 : ℤ
  VLrate3 : ℤ
  VLrate4 : ℤ
  VLrate5 : ℤ
  VLRtemp : ℤ
  difficultyfactor : ℤ
  scanblocks : ℕ
  scantime_1 : ℤ
  scantime_2 : ℤ
  prevPoW : ℤ
  prevPoS : ℤ
  pindexPrev : Option CBlockIndex
  BlockVelocityType : Option CBlockIndex
  bnOld : ℤ
  bnNew : ℤ
  cntTime : UInt64
  prvTime : UInt64
  difTimePoS : UInt64
  difTimePoW : UInt64

def VRXGlobals.start : VRXGlobals where
  VLF1 := 0
  VLF2 := 0
  VLF3 := 0
  VLF4 := 0
  VLF5 := 0
  VLFtmp := 0
  TerminalAverage := 0
  TerminalFactor := 10000
  newBN := 0
  oldBN := 0
  VLrate1 := 0
  VLrate2 := 0
  VLrate3 := 0
  VLrate4 := 0
  VLrate5 := 0
  VLRtemp := 0
  difficultyfactor := 0
  scanblocks := 1
  scantime_1 := 0
  scantime_2 := 0
  prevPoW := 0
  prevPoS := 0
  pindexPrev := none
  BlockVelocityType := none
  bnOld := 0
  bnNew := 0
  cntTime := 0
  prvTime := 0
  difTimePoS := 0
  difTimePoW := 0

def deref (pindex : Option CBlockIndex) : Except Failure CBlockIndex :=
  match pindex with
  | some i => .ok i
  | none => .error (.crash "null pointer")

namespace VRXGlobals

def setBase (g : VRXGlobals) (pindexLast : CBlockIndex) : VRXGlobals :=
  { g with
    VLF1 := 0
    VLF2 := 0
    VLF3 := 0
    VLF4 := 0
    VLF5 := 0
    VLFtmp := 0
    TerminalAverage := 0
    TerminalFactor := 10000
    VLrate1 := 0
    VLrate2 := 0
    VLrate3 := 0
    VLrate4 := 0
    VLrate5 := 0
    VLRtemp := 0
    difficultyfactor := 0
    scanblocks := 1
    scantime_1 := 0
    scantime_2 := pindexLast.GetBlockTime
    prevPoW := 0
    prevPoS := 0
    pindexPrev := some pindexLast }

def setStandard (g : VRXGlobals) : VRXGlobals :=
  let rate := g.scantime_1 - g.scantime_2
  if 0 < g.scanblocks then
    if g.scanblocks < scanheight - 4 then { g with VLrate1 := rate, VLRtemp := rate }
    else if g.scanblocks < scanheight - 3 then { g with VLrate2 := rate, VLRtemp := rate }
    else if g.scanblocks < scanheight - 2 then { g with VLrate3 := rate, VLRtemp := rate }
    else if g.scanblocks < scanheight - 1 then { g with VLrate4 := rate, VLRtemp := rate }
    else if g.scanblocks < scanheight - 0 then { g with VLrate5 := rate, VLRtemp := rate }
    else g
  else g

def roundFactoring (g : VRXGlobals) : VRXGlobals :=
  if g.VLRtemp ≥ DSrateNRM then
    if g.VLRtemp > DSrateMAX then
      if g.VLRtemp > FRrateCLNG then { g with VLFtmp := VRFdw2 } else { g with VLFtmp := VRFdw1 }
    else { g with VLFtmp := VRFsm1 }
  else if g.VLRtemp < DSrateNRM then
    if g.VLRtemp < FRrateDWN then
      if g.VLRtemp < FRrateFLR then { g with VLFtmp := VRFup3 } else { g with VLFtmp := VRFup2 }
    else { g with VLFtmp := VRFup1 }
  else g

def recordFactoring (g : VRXGlobals) : VRXGlobals :=
  if g.scanblocks < scanheight - 4 then { g with VLF1 := g.VLFtmp }
  else if g.scanblocks < scanheight - 3 then { g with VLF2 := g.VLFtmp }
  else if g.scanblocks < scanheight - 2 then { g with VLF3 := g.VLFtmp }
  else if g.scanblocks < scanheight - 1 then { g with VLF4 := g.VLFtmp }
  else if g.scanblocks < scanheight - 0 then { g with VLF5 := g.VLFtmp }
  else g

def logType (g : VRXGlobals) (pindexPrev : CBlockIndex) : VRXGlobals :=
  if pindexPrev.fProofOfStake then { g with prevPoS := g.prevPoS + 1 }
  else { g with prevPoW := g.prevPoW + 1 }

def scanRound (s : NodeState) (g : VRXGlobals) : Except Failure VRXGlobals := do
  let pindex ← deref g.pindexPrev
  let pindexPrev ← s.index pindex.pprev
  let g :=
    { g with
      scantime_1 := g.scantime_2
      pindexPrev := some pindexPrev
      scantime_2 := pindexPrev.GetBlockTime }
  let g := g.setStandard.roundFactoring.recordFactoring.logType pindexPrev
  pure { g with scanblocks := g.scanblocks + 1 }

def scanLoop (s : NodeState) : ℕ → VRXGlobals → Except Failure VRXGlobals
  | 0, _ => .error (.crash "VRX_BaseEngine does not return")
  | fuel + 1, g =>
    if g.scanblocks < scanheight then do
      let g ← g.scanRound s
      scanLoop s fuel g
    else pure g

def VRX_BaseEngine (round : ℚ → ℚ) (s : NodeState) (g : VRXGlobals) (pindexLast : CBlockIndex) :
    Except Failure VRXGlobals := do
  let g ← scanLoop s scanheight (g.setBase pindexLast)
  let sum := round (round (round (round (g.VLF1 + g.VLF2) + g.VLF3) + g.VLF4) + g.VLF5)
  pure { g with TerminalAverage := round (sum / AverageDivisor) }

def divideIf (round : ℚ → ℚ) (g : VRXGlobals) (divisor : ℚ) (late : Prop) [Decidable late] :
    VRXGlobals :=
  if late then { g with TerminalAverage := round (g.TerminalAverage / divisor) } else g

/-- Halves the mean for every hour, up to four. -/
def swing (round : ℚ → ℚ) (difTime : UInt64) (g : VRXGlobals) : VRXGlobals :=
  let g := g.divideIf round 2 (difTime > 1 * 60 * 60)
  let g := g.divideIf round 2 (difTime > 2 * 60 * 60)
  let g := g.divideIf round 2 (difTime > 3 * 60 * 60)
  g.divideIf round 2 (difTime > 4 * 60 * 60)

/-- The debug paths, which halve the mean as they print. -/
def VRXswngPoSdebug (round : ℚ → ℚ) (g : VRXGlobals) : VRXGlobals := g.swing round g.difTimePoS
def VRXswngPoWdebug (round : ℚ → ℚ) (g : VRXGlobals) : VRXGlobals := g.swing round g.difTimePoW

/-- Skews the mean for the less selected block type. The skew is limited to halving. -/
def skewType (round : ℚ → ℚ) (g : VRXGlobals) (fProofOfStake : Bool) : VRXGlobals :=
  let g :=
    if g.prevPoW < g.prevPoS ∧ ¬fProofOfStake then
      g.divideIf round 3 (g.prevPoS - g.prevPoW > 3)
    else if g.prevPoW > g.prevPoS ∧ fProofOfStake then
      g.divideIf round 3 (g.prevPoW - g.prevPoS > 3)
    else g
  if g.TerminalAverage < 1 / 2 then { g with TerminalAverage := 1 / 2 } else g

/-- The curve: the mean of the last rounds, skewed, and eased when the last block of the type came
late. -/
def VRX_ThreadCurve (round : ℚ → ℚ) (s : NodeState) (fDebug : Bool) (g : VRXGlobals)
    (pindexLast : CBlockIndex) (fProofOfStake : Bool) : Except Failure VRXGlobals := do
  let g ← g.VRX_BaseEngine round s pindexLast
  let g := g.skewType round fProofOfStake
  let velocity ← deref g.BlockVelocityType
  let prev ← s.index velocity.pprev
  let g := { g with cntTime := velocity.nTime.toUInt64, prvTime := prev.nTime.toUInt64 }
  if fProofOfStake then
    let g := { g with difTimePoS := g.cntTime - g.prvTime }
    pure (if fDebug then g.VRXswngPoSdebug round else g.swing round g.difTimePoS)
  else
    let g := { g with difTimePoW := g.cntTime - g.prvTime }
    pure (if fDebug then g.VRXswngPoWdebug round else g.swing round g.difTimePoW)

/-- The target of the next block of a type, and the globals after the call. -/
def VRX_Retarget (round : ℚ → ℚ) (ctx : Context) (s : NodeState) (fDebug : Bool) (g : VRXGlobals)
    (pindexLast : UInt256) (fProofOfStake : Bool) : Except Failure (UInt32 × VRXGlobals) := do
  let bnVelocity := if fProofOfStake then ProofOfStakeLimit ctx else ctx.proofOfWorkLimit
  let last ← s.index (some pindexLast)
  if last.nHeight < scanheight + 99 then pure (GetCompact bnVelocity, g)
  else do
    let velocity ← GetLastBlockIndex s pindexLast fProofOfStake
    let g := { g with BlockVelocityType := some velocity }
    let g ← g.VRX_ThreadCurve round s fDebug last fProofOfStake
    let g := { g with TerminalFactor := round (g.TerminalFactor * g.TerminalAverage) }
    let g := { g with difficultyfactor := ⌊g.TerminalFactor⌋ }
    let velocity ← deref g.BlockVelocityType
    let g := { g with bnOld := SetCompact velocity.nBits }
    if g.difficultyfactor = 0 then .error (.crash "CBigNum::operator/ : BN_div failed")
    else
      let g := { g with bnNew := g.bnOld.tdiv g.difficultyfactor * 10000 }
      let g := if g.bnNew > bnVelocity then { g with bnNew := bnVelocity } else g
      let g :=
        { g with
          oldBN := (GetCompact g.bnOld).toNat
          newBN := (GetCompact g.bnNew).toNat }
      pure (GetCompact g.bnNew, g)

/-- The target of the next block of a type, and the globals after the call. There is one algorithm
only, and debug runs print that it is used. -/
def GetNextTargetRequired (round : ℚ → ℚ) (ctx : Context) (s : NodeState) (fDebug : Bool)
    (g : VRXGlobals) (pindexLast : UInt256) (fProofOfStake : Bool) :
    Except Failure (UInt32 × VRXGlobals) :=
  g.VRX_Retarget round ctx s fDebug pindexLast fProofOfStake

end VRXGlobals

/-! ## The target as a function of the chain -/

def meanBy (round : ℚ → ℚ) (VLF : List ℚ) : ℚ :=
  round (VLF.tail.foldl (fun sum VLF => round (sum + VLF)) (VLF.headD 0) / 5)

/-- The mean, reduced for a type that has become rare, but no less than one half. -/
def VRXScan.skewBy (round : ℚ → ℚ) (scan : VRXScan) (fProofOfStake : Bool) (average : ℚ) : ℚ :=
  let rare :=
    if fProofOfStake then scan.prevPoS + 3 < scan.prevPoW else scan.prevPoW + 3 < scan.prevPoS
  let skew := if rare then round (average / 3) else average
  if skew < 1 / 2 then 1 / 2 else skew

/-- Halves a mean once for every hour, up to four, that the last block of the type came late. -/
def easeBy (round : ℚ → ℚ) (difTime : UInt64) (average : ℚ) : ℚ :=
  [1, 2, 3, 4].foldl
    (fun average hours => if difTime > hours * 60 * 60 then round (average / 2) else average)
    average

/-- Scales a target by a mean, and limits it. -/
def scaleBy (round : ℚ → ℚ) (bnVelocity : ℤ) (nBits : UInt32) (average : ℚ) :
    Except Failure UInt32 :=
  if ⌊round (10000 * average)⌋ = 0 then .error (.crash "CBigNum::operator/ : BN_div failed")
  else
    let bnNew := (SetCompact nBits).tdiv ⌊round (10000 * average)⌋ * 10000
    .ok (GetCompact (if bnNew > bnVelocity then bnVelocity else bnNew))

/-- The target of the next block of a type, from the chain alone. -/
def targetBy (round : ℚ → ℚ) (ctx : Context) (s : NodeState) (pindexLast : UInt256)
    (fProofOfStake : Bool) : Except Failure UInt32 := do
  let bnVelocity := if fProofOfStake then ProofOfStakeLimit ctx else ctx.proofOfWorkLimit
  let last ← s.index (some pindexLast)
  if last.nHeight < scanheight + 99 then pure (GetCompact bnVelocity)
  else do
    let velocity ← GetLastBlockIndex s pindexLast fProofOfStake
    let scan ← scanRounds s (scanheight - 1) last
    let times ← velocityTimes s velocity
    scaleBy round bnVelocity velocity.nBits
      (easeBy round (difTime times) (scan.skewBy round fProofOfStake (meanBy round scan.VLF)))

/-! ## A scan -/

namespace VRXGlobals

def factors (g : VRXGlobals) : List ℚ := [g.VLF1, g.VLF2, g.VLF3, g.VLF4, g.VLF5]

/-- What rating a round and recording its factor leave as it is. -/
def rest (g : VRXGlobals) :
    ℚ × Option CBlockIndex × ℕ × ℤ × ℤ × Option CBlockIndex × ℤ :=
  (g.TerminalFactor, g.BlockVelocityType, g.scanblocks, g.prevPoW, g.prevPoS, g.pindexPrev,
    g.scantime_2)

variable {g : VRXGlobals}

section

theorem setStandard_frame (g : VRXGlobals) :
    g.setStandard.factors = g.factors ∧ g.setStandard.rest = g.rest := by
  unfold setStandard
  split_ifs
  all_goals exact ⟨rfl, rfl⟩

theorem roundFactoring_eq (g : VRXGlobals) :
    g.roundFactoring = { g with VLFtmp := roundFactor g.VLRtemp } := by
  unfold roundFactoring roundFactor VRFsm1 VRFdw1 VRFdw2 VRFup1 VRFup2 VRFup3 FRrateCLNG FRrateDWN
    FRrateFLR DSrateMAX DSrateNRM BLOCK_SPACING BLOCK_SPACING_MAX
  split_ifs
  all_goals first | rfl | omega

theorem recordFactoring_rest (g : VRXGlobals) : g.recordFactoring.rest = g.rest := by
  unfold recordFactoring
  split_ifs
  all_goals rfl

theorem logType_eq (g : VRXGlobals) (j : CBlockIndex) :
    g.logType j =
      { g with
        prevPoW := g.prevPoW + if j.fProofOfStake then 0 else 1
        prevPoS := g.prevPoS + if j.fProofOfStake then 1 else 0 } := by
  unfold logType
  split_ifs
  all_goals simp only [add_zero]

/-- What a round from block `i` to the previous block `j` does to the globals. -/
structure Rated (g : VRXGlobals) (i j : CBlockIndex) (g' : VRXGlobals) : Prop where
  factors : g'.factors
    = g.factors.set (g.scanblocks - 1) (roundFactor (i.GetBlockTime - j.GetBlockTime))
  rest : g'.rest = (g.TerminalFactor, g.BlockVelocityType, g.scanblocks + 1,
    g.prevPoW + (if j.fProofOfStake then 0 else 1), g.prevPoS + (if j.fProofOfStake then 1 else 0),
    some j, j.GetBlockTime)

variable {i j : CBlockIndex} {rounds : ℕ}

variable (hpos : 0 < g.scanblocks) (hround : g.scanblocks < scanheight)
include hpos hround

theorem setStandard_VLRtemp :
    g.setStandard.VLRtemp = g.scantime_1 - g.scantime_2 := by
  unfold scanheight at hround
  unfold setStandard scanheight
  rw [if_pos hpos]
  split_ifs
  all_goals rfl

theorem recordFactoring_factors :
    g.recordFactoring.factors = g.factors.set (g.scanblocks - 1) g.VLFtmp := by
  unfold scanheight at hround
  have hplace : g.scanblocks = 1 ∨ g.scanblocks = 2 ∨ g.scanblocks = 3 ∨ g.scanblocks = 4 ∨
      g.scanblocks = 5 := by omega
  unfold recordFactoring scanheight
  split_ifs
  all_goals
    rcases hplace with h | h | h | h | h
    all_goals first | omega | (rw [h]; rfl)

theorem rate_eq :
    g.setStandard.roundFactoring.recordFactoring.factors
        = g.factors.set (g.scanblocks - 1) (roundFactor (g.scantime_1 - g.scantime_2)) ∧
      g.setStandard.roundFactoring.recordFactoring.rest = g.rest := by
  obtain ⟨hfactors, hrest⟩ := setStandard_frame g
  have hblocks : g.setStandard.scanblocks = g.scanblocks := congrArg (fun t => t.2.2.1) hrest
  constructor
  · rw [roundFactoring_eq, recordFactoring_factors (by exact hblocks ▸ hpos)
      (by exact hblocks ▸ hround), ← setStandard_VLRtemp hpos hround, ← hfactors, ← hblocks]
    rfl
  · rw [recordFactoring_rest, roundFactoring_eq]
    exact hrest

theorem scanRound_eq {s : NodeState} (hprev : g.pindexPrev = some i)
    (htime : g.scantime_2 = i.GetBlockTime) (hj : s.index i.pprev = .ok j) :
    ∃ g', g.scanRound s = .ok g' ∧ Rated g i j g' := by
  have hrate := rate_eq (g :=
    { g with
      scantime_1 := g.scantime_2
      pindexPrev := some j
      scantime_2 := j.GetBlockTime }) hpos hround
  obtain ⟨hfactors, hrest⟩ := hrate
  unfold scanRound
  rw [hprev]
  simp only [deref, bind, Except.bind, hj, logType_eq]
  refine ⟨_, rfl, ?_, ?_⟩
  · rw [← htime]
    exact hfactors
  · simp only [rest, Prod.mk.injEq] at hrest ⊢
    obtain ⟨h1, h2, h3, h4, h5, h6, h7⟩ := hrest
    rw [h1, h2, h3, h4, h5, h6, h7]
    exact ⟨rfl, rfl, rfl, rfl, rfl, rfl, rfl⟩

structure Scanned (g : VRXGlobals) (scan : VRXScan) (g' : VRXGlobals) : Prop where
  factors : g'.factors = g.factors.take (g.scanblocks - 1) ++ scan.VLF
  prevPoW : g'.prevPoW = g.prevPoW + scan.prevPoW
  prevPoS : g'.prevPoS = g.prevPoS + scan.prevPoS
  TerminalFactor : g'.TerminalFactor = g.TerminalFactor
  BlockVelocityType : g'.BlockVelocityType = g.BlockVelocityType

omit hpos hround

theorem Rated.scanned {g₁ g' : VRXGlobals} {scan : VRXScan} (hrated : Rated g i j g₁)
    (hpos : 0 < g.scanblocks) (hround : g.scanblocks < scanheight) (h : Scanned g₁ scan g') :
    Scanned g
      { VLF := roundFactor (i.GetBlockTime - j.GetBlockTime) :: scan.VLF
        prevPoW := scan.prevPoW + if j.fProofOfStake then 0 else 1
        prevPoS := scan.prevPoS + if j.fProofOfStake then 1 else 0 } g' := by
  have hrest := hrated.rest
  simp only [VRXGlobals.rest, Prod.mk.injEq] at hrest
  obtain ⟨h1, h2, h3, h4, h5, -, -⟩ := hrest
  have hlen : g.scanblocks - 1 < g.factors.length := by
    unfold scanheight at hround
    unfold VRXGlobals.factors
    simp only [List.length_cons, List.length_nil]
    omega
  -- The factor stands right after those of the rounds before.
  have htake : (g.factors.set (g.scanblocks - 1)
        (roundFactor (i.GetBlockTime - j.GetBlockTime))).take g.scanblocks
      = g.factors.take (g.scanblocks - 1)
        ++ [roundFactor (i.GetBlockTime - j.GetBlockTime)] := by
    obtain ⟨k, hk⟩ : ∃ k, g.scanblocks = k + 1 := ⟨g.scanblocks - 1, by omega⟩
    rw [hk, Nat.add_sub_cancel] at hlen ⊢
    rw [List.take_succ_eq_append_getElem (by simpa using hlen),
      List.take_set_of_le (le_refl k), List.getElem_set_self]
  constructor
  · calc g'.factors = g₁.factors.take (g₁.scanblocks - 1) ++ scan.VLF := h.factors
      _ = g.factors.take (g.scanblocks - 1)
          ++ roundFactor (i.GetBlockTime - j.GetBlockTime) :: scan.VLF := by
          rw [hrated.factors, h3, Nat.add_sub_cancel, htake, List.append_assoc]
          rfl
  · rw [h.prevPoW, h4]
    push_cast
    ring
  · rw [h.prevPoS, h5]
    push_cast
    ring
  · exact h.TerminalFactor.trans h1
  · exact h.BlockVelocityType.trans h2

theorem scanLoop_ok {s : NodeState} {scan : VRXScan} (hrnds : g.scanblocks + rounds = scanheight)
    (hpos : 0 < g.scanblocks) (hprev : g.pindexPrev = some i)
    (htime : g.scantime_2 = i.GetBlockTime) (hscan : scanRounds s rounds i = .ok scan) :
    ∃ g', scanLoop s (rounds + 1) g = .ok g' ∧ Scanned g scan g' := by
  induction rounds generalizing g i scan with
  | zero =>
    cases hscan
    have hlen : g.factors.length ≤ g.scanblocks - 1 := by
      unfold scanheight at hrnds
      unfold factors
      simp only [List.length_cons, List.length_nil]
      omega
    unfold scanLoop
    rw [if_neg (by omega)]
    refine ⟨g, rfl, ?_, by simp, by simp, rfl, rfl⟩
    rw [List.append_nil, List.take_of_length_le hlen]
  | succ rounds ih =>
    have hround : g.scanblocks < scanheight := by omega
    obtain ⟨j, hj, hscan⟩ := bind_ok hscan
    obtain ⟨rest, hmore, hscan⟩ := bind_ok hscan
    cases hscan
    obtain ⟨g₁, hstep, hrated⟩ := scanRound_eq hpos hround hprev htime hj
    have hrest := hrated.rest
    simp only [VRXGlobals.rest, Prod.mk.injEq] at hrest
    obtain ⟨-, -, hblocks, -, -, hprev₁, htime₁⟩ := hrest
    obtain ⟨g', hloop, hscanned⟩ := ih (by omega) (by omega) hprev₁ htime₁ hmore
    refine ⟨g', ?_, hrated.scanned hpos hround hscanned⟩
    rw [scanLoop, if_pos hround, hstep]
    exact hloop

theorem scanLoop_error {s : NodeState} {e : Failure} (hrnds : g.scanblocks + rounds = scanheight)
    (hpos : 0 < g.scanblocks) (hprev : g.pindexPrev = some i)
    (htime : g.scantime_2 = i.GetBlockTime) (hscan : scanRounds s rounds i = .error e) :
    scanLoop s (rounds + 1) g = .error e := by
  induction rounds generalizing g i with
  | zero => cases hscan
  | succ rounds ih =>
    have hround : g.scanblocks < scanheight := by omega
    rw [scanLoop, if_pos hround]
    unfold scanRounds at hscan
    rcases except_bind_eq_error.mp hscan with hj | ⟨j, hj, hscan⟩
    · unfold scanRound
      rw [hprev]
      simp only [deref, bind, Except.bind, hj]
    · obtain ⟨g₁, hstep, hrated⟩ := scanRound_eq hpos hround hprev htime hj
      have hrest := hrated.rest
      simp only [VRXGlobals.rest, Prod.mk.injEq] at hrest
      obtain ⟨-, -, hblocks, -, -, hprev₁, htime₁⟩ := hrest
      rw [hstep]
      rcases except_bind_eq_error.mp hscan with hmore | ⟨rest, hmore, hpure⟩
      · exact ih (by omega) (by omega) hprev₁ htime₁ hmore
      · cases hpure

end

/-! ## The curve -/

section

variable {s : NodeState} {last velocity : CBlockIndex} {scan : VRXScan} {f : Bool}

theorem vrx_BaseEngine_ok (round : ℚ → ℚ) (hscan : scanRounds s (scanheight - 1) last = .ok scan) :
    ∃ g', g.VRX_BaseEngine round s last = .ok g' ∧
      g'.TerminalAverage = meanBy round scan.VLF ∧ g'.prevPoW = scan.prevPoW ∧
      g'.prevPoS = scan.prevPoS ∧ g'.TerminalFactor = 10000 ∧
      g'.BlockVelocityType = g.BlockVelocityType := by
  obtain ⟨g', hloop, hscanned⟩ := scanLoop_ok (g := g.setBase last) rfl Nat.one_pos rfl rfl hscan
  have hfactors : g'.factors = scan.VLF := hscanned.factors
  unfold VRX_BaseEngine
  rw [show scanLoop s scanheight (g.setBase last) = .ok g' from hloop]
  refine ⟨_, rfl, ?_, ?_, ?_, hscanned.TerminalFactor, hscanned.BlockVelocityType⟩
  · rw [← hfactors]
    rfl
  · rw [hscanned.prevPoW]
    exact Int.zero_add _
  · rw [hscanned.prevPoS]
    exact Int.zero_add _

variable {e : Failure}

variable (round : ℚ → ℚ)

theorem vrx_BaseEngine_error (hscan : scanRounds s (scanheight - 1) last = .error e) :
    g.VRX_BaseEngine round s last = .error e := by
  have hloop := scanLoop_error (g := g.setBase last) rfl Nat.one_pos rfl rfl hscan
  unfold VRX_BaseEngine
  rw [show scanLoop s scanheight (g.setBase last) = .error e from hloop]
  rfl

theorem divideIf_eq (g : VRXGlobals) (divisor : ℚ) (late : Prop) [Decidable late] :
    g.divideIf round divisor late =
      { g with TerminalAverage :=
          if late then round (g.TerminalAverage / divisor) else g.TerminalAverage } := by
  unfold divideIf
  split_ifs
  all_goals rfl

theorem swing_eq (difTime : UInt64) (g : VRXGlobals) :
    g.swing round difTime =
      { g with TerminalAverage := easeBy round difTime g.TerminalAverage } := by
  unfold swing
  simp only [divideIf_eq]
  rfl

/-- The two comparisons of the counts are one: the code looks at their difference only when it is
positive. -/
theorem skewRare_eq (hPoW : g.prevPoW = scan.prevPoW) (hPoS : g.prevPoS = scan.prevPoS) :
    (if g.prevPoW < g.prevPoS ∧ ¬f then g.divideIf round 3 (g.prevPoS - g.prevPoW > 3)
      else if g.prevPoW > g.prevPoS ∧ f then g.divideIf round 3 (g.prevPoW - g.prevPoS > 3)
      else g)
      = { g with TerminalAverage :=
          if (if f then scan.prevPoS + 3 < scan.prevPoW else scan.prevPoW + 3 < scan.prevPoS)
          then round (g.TerminalAverage / 3) else g.TerminalAverage } := by
  simp only [divideIf_eq]
  cases f with
  | false =>
    simp only [Bool.false_eq_true, not_false_eq_true, and_true, and_false, if_false]
    split_ifs
    all_goals first | rfl | omega
  | true =>
    simp only [not_true_eq_false, and_true, and_false, if_false, if_true]
    split_ifs
    all_goals first | rfl | omega

theorem skewType_eq (hPoW : g.prevPoW = scan.prevPoW) (hPoS : g.prevPoS = scan.prevPoS) :
    g.skewType round f = { g with TerminalAverage := scan.skewBy round f g.TerminalAverage } := by
  unfold skewType VRXScan.skewBy
  rw [skewRare_eq round hPoW hPoS]
  dsimp only
  generalize (if (if f then scan.prevPoS + 3 < scan.prevPoW else scan.prevPoW + 3 < scan.prevPoS)
    then round (g.TerminalAverage / 3) else g.TerminalAverage) = skew
  split_ifs
  all_goals rfl

theorem vrx_ThreadCurve_ok {times : UInt64 × UInt64} (fDebug : Bool)
    (hvelocity : g.BlockVelocityType = some velocity)
    (hscan : scanRounds s (scanheight - 1) last = .ok scan)
    (htimes : velocityTimes s velocity = .ok times) :
    ∃ g', g.VRX_ThreadCurve round s fDebug last f = .ok g' ∧
      g'.TerminalAverage
        = easeBy round (difTime times) (scan.skewBy round f (meanBy round scan.VLF)) ∧
      g'.TerminalFactor = 10000 ∧ g'.BlockVelocityType = some velocity := by
  obtain ⟨g₁, hengine, hmean, hPoW, hPoS, hfactor, hblock⟩ := vrx_BaseEngine_ok (g := g) round hscan
  rw [hvelocity] at hblock
  unfold velocityTimes at htimes
  obtain ⟨prev, hprev, htimes⟩ := bind_ok htimes
  cases htimes
  unfold VRX_ThreadCurve
  rw [hengine]
  simp only [bind, Except.bind, skewType_eq round hPoW hPoS, hblock, deref, hprev, VRXswngPoSdebug,
    VRXswngPoWdebug, ite_self, swing_eq, hmean]
  cases f with
  | false => exact ⟨_, rfl, rfl, hfactor, rfl⟩
  | true => exact ⟨_, rfl, rfl, hfactor, rfl⟩

theorem vrx_ThreadCurve_error (fDebug : Bool) (hvelocity : g.BlockVelocityType = some velocity)
    (h : scanRounds s (scanheight - 1) last = .error e ∨
      (∃ scan, scanRounds s (scanheight - 1) last = .ok scan) ∧ velocityTimes s velocity = .error e) :
    g.VRX_ThreadCurve round s fDebug last f = .error e := by
  unfold VRX_ThreadCurve
  rcases h with hscan | ⟨⟨scan, hscan⟩, htimes⟩
  · rw [vrx_BaseEngine_error round hscan]
    rfl
  · obtain ⟨g₁, hengine, hmean, hPoW, hPoS, hfactor, hblock⟩ :=
      vrx_BaseEngine_ok (g := g) round hscan
    rw [hvelocity] at hblock
    unfold velocityTimes at htimes
    rcases except_bind_eq_error.mp htimes with hprev | ⟨prev, hprev, hpure⟩
    · rw [hengine]
      simp only [bind, Except.bind, skewType_eq round hPoW hPoS, hblock, deref, hprev]
    · exact nomatch hpure

end

/-- The target that a call computes is computed from the chain alone: it depends neither on what
earlier calls left in the globals nor on whether the run is a debug run. -/
theorem map_fst_getNextTargetRequired (round : ℚ → ℚ) (ctx : Context) (s : NodeState)
    (fDebug : Bool) (g : VRXGlobals) (p : UInt256) (f : Bool) :
    (g.GetNextTargetRequired round ctx s fDebug p f).map Prod.fst = targetBy round ctx s p f := by
  unfold GetNextTargetRequired VRX_Retarget targetBy
  rcases s.index (some p) with e | last
  · rfl
  simp only [bind, Except.bind]
  generalize (if f then ProofOfStakeLimit ctx else (ctx.proofOfWorkLimit : ℤ)) = bnVelocity
  rcases Nat.lt_or_ge last.nHeight (scanheight + 99) with hlow | hhigh
  · simp only [if_pos hlow]
    rfl
  simp only [if_neg hhigh.not_gt]
  rcases GetLastBlockIndex s p f with e | velocity
  · rfl
  dsimp only
  rcases hscan : scanRounds s (scanheight - 1) last with e | scan
  · rw [vrx_ThreadCurve_error round fDebug rfl (.inl hscan)]
    rfl
  rcases htimes : velocityTimes s velocity with e | times
  · rw [vrx_ThreadCurve_error round fDebug rfl (.inr ⟨⟨scan, hscan⟩, htimes⟩)]
    rfl
  obtain ⟨g₁, hcurve, hmean, hfactor, hblock⟩ :=
    vrx_ThreadCurve_ok (g := { g with BlockVelocityType := some velocity }) (f := f) round fDebug
      rfl hscan htimes
  rw [hcurve]
  dsimp only
  rw [hfactor, hmean, hblock]
  unfold scaleBy
  simp only [deref]
  split_ifs
  all_goals rfl

end VRXGlobals

end ZalemCoin.Chain
