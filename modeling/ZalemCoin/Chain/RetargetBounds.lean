import ZalemCoin.Chain.CompactTarget
import ZalemCoin.Chain.RetargetGlobals
import ZalemCoin.Chain.RetargetRuns

/-!
# The bounds of the retarget

The mean of the factors is at most two and, skewed and eased, at least one part in 32, so that a
target is divided by a number from 312 to 20000 and multiplied by 10000. The division comes first
and drops its remainder, and the compact form drops what comes after the leading bytes: a target can
fall below one half of the one before, though not below one half of what the division leaves.
-/

namespace ZalemCoin.Chain

open Lib

/-! ## The exact mean -/

section

variable {scan : VRXScan} {q : ℚ}

theorem roundFactor_le (VLRtemp : ℤ) : roundFactor VLRtemp ≤ 2 := by
  unfold roundFactor
  split_ifs
  all_goals norm_num

theorem scanRounds_factors {s : NodeState} {rounds : ℕ} {i : CBlockIndex}
    (h : scanRounds s rounds i = .ok scan) :
    scan.VLF.length = rounds ∧ ∀ VLF ∈ scan.VLF, VLF ≤ 2 := by
  induction rounds generalizing i scan with
  | zero =>
    cases h
    exact ⟨rfl, by simp⟩
  | succ rounds ih =>
    obtain ⟨j, -, h⟩ := bind_ok h
    obtain ⟨rest, hrest, h⟩ := bind_ok h
    cases h
    obtain ⟨hlen, hle⟩ := ih hrest
    refine ⟨by rw [List.length_cons, hlen], ?_⟩
    rw [List.forall_mem_cons]
    exact ⟨roundFactor_le _, hle⟩

theorem foldl_add_le {l : List ℚ} (hle : ∀ VLF ∈ l, VLF ≤ 2) (a : ℚ) :
    l.foldl (fun sum VLF => sum + VLF) a ≤ a + 2 * l.length := by
  induction l generalizing a with
  | nil => simp
  | cons x l ih =>
    rw [List.forall_mem_cons] at hle
    have hrest := ih hle.2 (a + x)
    rw [List.foldl_cons, List.length_cons]
    push_cast
    linarith

theorem meanBy_id_le {l : List ℚ} (hlen : l.length = 5) (hle : ∀ VLF ∈ l, VLF ≤ 2) :
    meanBy id l ≤ 2 := by
  rcases l with _ | ⟨x, l⟩
  · simp at hlen
  rw [List.forall_mem_cons] at hle
  have hsum := foldl_add_le hle.2 x
  rw [show l.length = 4 by simpa using hlen] at hsum
  change l.foldl (fun sum VLF => sum + VLF) x / 5 ≤ 2
  rw [div_le_iff₀ (by norm_num)]
  push_cast at hsum
  linarith

theorem half_le_skewBy (round : ℚ → ℚ) (scan : VRXScan) (f : Bool) (q : ℚ) :
    1 / 2 ≤ scan.skewBy round f q := by
  unfold VRXScan.skewBy
  dsimp only
  generalize (if (if f then scan.prevPoS + 3 < scan.prevPoW else scan.prevPoW + 3 < scan.prevPoS)
    then round (q / 3) else q) = skew
  rcases lt_or_ge skew (1 / 2) with hlow | hhigh
  · rw [if_pos hlow]
  · rw [if_neg hhigh.not_gt]
    exact hhigh

theorem skewBy_id_le (f : Bool) (hq : q ≤ 2) : scan.skewBy id f q ≤ 2 := by
  unfold VRXScan.skewBy
  dsimp only [id]
  split_ifs
  all_goals linarith

theorem easeBy_id_bounds (difTime : UInt64) (hq : 1 / 2 ≤ q) :
    1 / 32 ≤ easeBy id difTime q ∧ easeBy id difTime q ≤ q := by
  -- Every step of the loop halves at most once.
  have hstep : ∀ (a q : ℚ) (c : Prop) [Decidable c], 0 ≤ a → a ≤ q →
      a / 2 ≤ (if c then id (q / 2) else q) ∧ (if c then id (q / 2) else q) ≤ q := by
    intro a q c _ ha haq
    dsimp only [id]
    split_ifs
    all_goals constructor <;> linarith
  obtain ⟨l1, u1⟩ := hstep _ q (difTime > 1 * 60 * 60) (by norm_num) hq
  obtain ⟨l2, u2⟩ := hstep _ _ (difTime > 2 * 60 * 60) (by norm_num) l1
  obtain ⟨l3, u3⟩ := hstep _ _ (difTime > 3 * 60 * 60) (by norm_num) l2
  obtain ⟨l4, u4⟩ := hstep _ _ (difTime > 4 * 60 * 60) (by norm_num) l3
  constructor
  · norm_num at l4 ⊢
    exact l4
  · exact u4.trans (u3.trans (u2.trans u1))

end

/-! ## The target -/

def ProofOfWorkLimit : Network → ℕ
  | .main => 2 ^ 236 - 1
  | .testnet => 2 ^ 238 - 1
  | .regtest => 2 ^ 255 - 1

/-- The easiest target of a block of a type. -/
def bnVelocityLimit (ctx : Context) (fProofOfStake : Bool) : ℤ :=
  if fProofOfStake then ProofOfStakeLimit ctx else ctx.proofOfWorkLimit

/-- The bounds of the target `T'` that is computed from a target `T`: up to the limit, it is no less
than what is left of `T` when it is divided by 20000 and multiplied by 10000 in compact form. -/
structure TargetBounds (limit T T' : ℤ) : Prop where
  pos : 0 < T'
  le_limit : T' ≤ limit
  lower : compactTarget (min (T / 20000 * 10000) limit) ≤ T'
  upper : T' * 312 ≤ T * 10000

section

variable {ctx : Context} {s : NodeState} {genesis p : UInt256} {last velocity : CBlockIndex}

theorem bnVelocityLimit_bounds (hctx : ctx.proofOfWorkLimit = ProofOfWorkLimit ctx.network)
    (f : Bool) : 0 < bnVelocityLimit ctx f ∧ bnVelocityLimit ctx f < 2 ^ 256 := by
  unfold bnVelocityLimit ProofOfStakeLimit
  rw [hctx]
  unfold ProofOfWorkLimit
  cases f with
  | false => cases ctx.network <;> norm_num
  | true => cases ctx.network <;> norm_num

theorem targetBounds_of_divisor {limit T d : ℤ} (hlim : 0 < limit) (hbits : limit < 2 ^ 256)
    (hT : 20000 ≤ T) (hlow : 312 ≤ d) (hhigh : d ≤ 20000) :
    TargetBounds limit T (compactTarget (min (T / d * 10000) limit)) := by
  have hd : 0 < d := by omega
  have hone : 1 ≤ T / d := (Int.le_ediv_iff_mul_le hd).mpr (by omega)
  have hpos : 0 < min (T / d * 10000) limit := lt_min (by omega) hlim
  have hbound : min (T / d * 10000) limit < 2 ^ 256 := lt_of_le_of_lt (min_le_right _ _) hbits
  have hkept := compactTarget_le hpos.le hbound
  constructor
  · exact compactTarget_pos hpos hbound
  · exact hkept.trans (min_le_right _ _)
  · -- A smaller divisor leaves no less.
    have hquot : T / 20000 ≤ T / d := by
      apply (Int.le_ediv_iff_mul_le hd).mpr
      calc T / 20000 * d ≤ T / 20000 * 20000 :=
            mul_le_mul_of_nonneg_left hhigh (Int.ediv_nonneg (by omega) (by norm_num))
        _ ≤ T := Int.ediv_mul_le T (by norm_num)
    have hzero : 0 ≤ T / 20000 := Int.ediv_nonneg (by omega) (by norm_num)
    apply compactTarget_mono _ _ hbound
    · exact le_min (by omega) hlim.le
    · exact min_le_min (by omega) le_rfl
  · calc compactTarget (min (T / d * 10000) limit) * 312
        ≤ T / d * 10000 * 312 :=
          mul_le_mul_of_nonneg_right (hkept.trans (min_le_left _ _)) (by norm_num)
      _ = T / d * 312 * 10000 := by ring
      _ ≤ T / d * d * 10000 := by
          apply mul_le_mul_of_nonneg_right _ (by norm_num)
          exact mul_le_mul_of_nonneg_left hlow (by omega)
      _ ≤ T * 10000 := mul_le_mul_of_nonneg_right (Int.ediv_mul_le T (by omega)) (by norm_num)

theorem scaleBy_id {q : ℚ} (limit : ℤ) (nBits : UInt32) (hlow : 1 / 32 ≤ q) (hhigh : q ≤ 2) :
    ∃ d : ℤ, 312 ≤ d ∧ d ≤ 20000 ∧ scaleBy id limit nBits q
      = .ok (GetCompact (min ((SetCompact nBits).tdiv d * 10000) limit)) := by
  have hge : (312 : ℤ) ≤ ⌊id (10000 * q)⌋ := by
    apply Int.le_floor.mpr
    dsimp only [id]
    push_cast
    linarith
  have hle : ⌊id (10000 * q)⌋ ≤ (20000 : ℤ) := by
    have hcast : ((⌊id (10000 * q)⌋ : ℤ) : ℚ) ≤ (20000 : ℤ) := by
      apply (Int.floor_le _).trans
      dsimp only [id]
      push_cast
      linarith
    exact_mod_cast hcast
  refine ⟨⌊id (10000 * q)⌋, hge, hle, ?_⟩
  unfold scaleBy
  rw [if_neg (by omega)]
  dsimp only
  rcases lt_or_ge limit ((SetCompact nBits).tdiv ⌊id (10000 * q)⌋ * 10000) with hmore | hless
  · rw [if_pos hmore, min_eq_right hmore.le]
  · rw [if_neg hless.not_gt, min_eq_left hless]

theorem targetBy_id_bounds (hctx : ctx.proofOfWorkLimit = ProofOfWorkLimit ctx.network)
    (h : BlockTree s genesis) (hp : s.mapBlockIndex p = some last) (hheight : 105 ≤ last.nHeight)
    (f : Bool) {times : UInt64 × UInt64} (hlast : GetLastBlockIndex s p f = .ok velocity)
    (htimes : velocityTimes s velocity = .ok times) :
    ∃ nBits, targetBy id ctx s p f = .ok nBits ∧ (20000 ≤ SetCompact velocity.nBits →
      TargetBounds (bnVelocityLimit ctx f) (SetCompact velocity.nBits) (SetCompact nBits)) := by
  have hhigh : ¬last.nHeight < scanheight + 99 := by
    unfold scanheight
    omega
  obtain ⟨scan, hscan⟩ := h.scanRounds_isOk hp (show scanheight - 1 ≤ last.nHeight by
    omega)
  obtain ⟨hlen, hfactors⟩ := scanRounds_factors hscan
  have hmean := meanBy_id_le hlen hfactors
  have hhalf := half_le_skewBy id scan f (meanBy id scan.VLF)
  obtain ⟨hlow, hle⟩ := easeBy_id_bounds (difTime times) hhalf
  obtain ⟨d, hd, hd', hscale⟩ := scaleBy_id (bnVelocityLimit ctx f) velocity.nBits hlow
    (hle.trans (skewBy_id_le f hmean))
  refine ⟨GetCompact (min ((SetCompact velocity.nBits).tdiv d * 10000) (bnVelocityLimit ctx f)),
    ?_, ?_⟩
  · unfold targetBy
    rw [index_eq_ok.mpr hp]
    simp only [bind, Except.bind]
    rw [if_neg hhigh]
    simp only [hlast, hscan, htimes]
    exact hscale
  · intro hT
    obtain ⟨hpos, hbits⟩ := bnVelocityLimit_bounds hctx f
    rw [Int.tdiv_eq_ediv_of_nonneg (by omega)]
    exact targetBounds_of_divisor hpos hbits hT hd hd'

/-- On a chain that is not low, a call returns a target exactly when the block before the last one
of the type can be read. Computed exactly, the target is the same whatever earlier calls left in the
globals, and in debug runs, and it is within its bounds. With any rounding it depends on the chain
and the type only. -/
theorem getNextTargetRequired_bounds (hctx : ctx.proofOfWorkLimit = ProofOfWorkLimit ctx.network)
    (h : BlockTree s genesis) (hp : s.mapBlockIndex p = some last) (hheight : 105 ≤ last.nHeight)
    (f : Bool) :
    (∃ velocity, GetLastBlockIndex s p f = .ok velocity ∧
      (velocity.pprev = none → ∀ fDebug (g : VRXGlobals),
        ∃ e, g.GetNextTargetRequired id ctx s fDebug p f = .error e) ∧
      (velocity.pprev ≠ none → ∃ nBits,
        (∀ fDebug (g : VRXGlobals),
          ∃ g', g.GetNextTargetRequired id ctx s fDebug p f = .ok (nBits, g')) ∧
        (20000 ≤ SetCompact velocity.nBits → TargetBounds (bnVelocityLimit ctx f)
          (SetCompact velocity.nBits) (SetCompact nBits)))) ∧
    ∀ (round : ℚ → ℚ) (fDebug fDebug' : Bool) (g g' : VRXGlobals),
      (g.GetNextTargetRequired round ctx s fDebug p f).map Prod.fst
        = (g'.GetNextTargetRequired round ctx s fDebug' p f).map Prod.fst := by
  constructor
  · obtain ⟨q, velocity, hfound, hq, -, -⟩ := h.lastBlockIndex_isOk (f := f)
      (show s.mapBlockIndex p ≠ none by simp [hp])
      (show s.height p < last.nHeight + 1 by rw [height_eq hp]; omega)
    have hlast : GetLastBlockIndex s p f = .ok velocity := by
      unfold GetLastBlockIndex
      rw [index_eq_ok.mpr hp]
      exact hfound
    refine ⟨velocity, hlast, ?_, ?_⟩
    · -- The block before the genesis block cannot be read.
      intro hnone fDebug g
      have htarget := VRXGlobals.map_fst_getNextTargetRequired id ctx s fDebug g p f
      rcases hcall : g.GetNextTargetRequired id ctx s fDebug p f with e | ⟨nBits, g'⟩
      · exact ⟨e, rfl⟩
      rw [hcall] at htarget
      have hhigh : ¬last.nHeight < scanheight + 99 := by
        unfold scanheight
        omega
      unfold targetBy at htarget
      rw [index_eq_ok.mpr hp] at htarget
      simp only [bind, Except.bind] at htarget
      rw [if_neg hhigh] at htarget
      simp only [hlast] at htarget
      rcases hscan : scanRounds s (scanheight - 1) last with e | scan
      · simp [hscan, Except.map] at htarget
      · simp [hscan, velocityTimes, hnone, NodeState.index, bind, Except.bind, Except.map]
          at htarget
    · intro hprev
      obtain ⟨times, htimes⟩ := (h.velocityTimes_isOk_iff hq).mpr hprev
      obtain ⟨nBits, htarget, hbounds⟩ := targetBy_id_bounds hctx h hp hheight f hlast htimes
      refine ⟨nBits, ?_, hbounds⟩
      intro fDebug g
      have hmap := VRXGlobals.map_fst_getNextTargetRequired id ctx s fDebug g p f
      rw [htarget] at hmap
      rcases hcall : g.GetNextTargetRequired id ctx s fDebug p f with e | ⟨r, g'⟩
      · simp [hcall, Except.map] at hmap
      · rw [hcall] at hmap
        cases hmap
        exact ⟨g', rfl⟩
  · intro round fDebug fDebug' g g'
    rw [VRXGlobals.map_fst_getNextTargetRequired, VRXGlobals.map_fst_getNextTargetRequired]

end

/-! ## Blocks in quick succession -/

def fastTime (h : ℕ) : ℕ := 1000 + 60 * h

/-- A chain whose blocks come fast, with half the target next. -/
theorem exists_fastChain :
    ∃ s last nBits, Accepts (grownContext fastTime) anyBlock s ∧
      s.mapBlockIndex (grownHash false 105) = some last ∧ last.nHeight = 105 ∧
      GetLastBlockIndex s (grownHash false 105) false = .ok last ∧ last.nBits = grownBits ∧
      targetBy id (grownContext fastTime) s (grownHash false 105) false = .ok nBits ∧
      nBits = GetCompact (SetCompact grownBits / 20000 * 10000) := by
  have hsteady : ∀ n, fastTime (n + 1) = fastTime n + 60 := by
    unfold fastTime
    omega
  have hlow : ∀ n ≤ grownHeight, fastTime n < 2 ^ 32 := by
    intro n hn
    unfold grownHeight at hn
    unfold fastTime
    omega
  have hspaced : ∀ h < 105, Spaced fastTime h := by
    intro h hh
    unfold fastTime
    constructor <;> omega
  obtain ⟨s, hrun, hs⟩ := @exists_main fastTime 105 anyBlock (by decide) hspaced
    fun h hh s hs => ⟨trivial, hs.target_of_low le_rfl (by unfold scanheight; omega)⟩
  obtain ⟨last, hlast, hent⟩ := hs.entry false 105 le_rfl
  obtain ⟨prev, hprev, hent'⟩ := hs.entry false 104 (by decide)
  have hidx : s.index last.pprev = .ok prev := by
    rw [hent.prev]
    exact index_eq_ok.mpr hprev
  have hfound : GetLastBlockIndex s (grownHash false 105) false = .ok last :=
    hs.getLastBlockIndex le_rfl hlast
  have hscan := hs.scanRounds_steady hsteady hlow le_rfl
    (show scanheight - 1 ≤ 105 by decide) hent
  have hfactor : roundFactor (60 : ℕ) = 2 := by decide
  have hdif : difTime (last.nTime.toUInt64, prev.nTime.toUInt64) = 60 :=
    UInt64.toNat_inj.mp (hs.difTime_steady hsteady hlow (by decide) le_rfl hent hent')
  have hbits : last.nBits = grownBits := hent.bits
  refine ⟨s, last, _, hrun, hlast, hent.height, hfound, hbits, ?_, rfl⟩
  unfold targetBy velocityTimes
  rw [index_eq_ok.mpr hlast]
  simp only [bind, Except.bind]
  rw [if_neg (by rw [hent.height]; decide), hfound]
  simp only [hscan, hidx, pure, Except.pure, hdif, hbits, hfactor]
  show scaleBy id ((2 ^ 238 - 1 : ℕ) : ℤ) grownBits (easeBy id 60
    (VRXScan.skewBy id ⟨List.replicate 5 2, 5, 0⟩ false (meanBy id (List.replicate 5 2)))) = _
  decide +kernel

/-- On a chain of blocks in quick succession, the target is within its bounds. -/
theorem fastChain_bounds :
    ∃ s last nBits, Accepts (grownContext fastTime) anyBlock s ∧
      s.mapBlockIndex (grownHash false 105) = some last ∧
      (∀ fDebug (g : VRXGlobals), ∃ g', g.GetNextTargetRequired id (grownContext fastTime) s
        fDebug (grownHash false 105) false = .ok (nBits, g')) ∧
      TargetBounds (bnVelocityLimit (grownContext fastTime) false) (SetCompact last.nBits)
        (SetCompact nBits) := by
  obtain ⟨s, last, -, hrun, hlast, hheight, hfound, hbits, -, -⟩ := exists_fastChain
  obtain ⟨genesis, htree, -⟩ := hrun.blockTree
  obtain ⟨⟨velocity, hvelocity, -, hcalls⟩, -⟩ :=
    @getNextTargetRequired_bounds (grownContext fastTime) s genesis _ last rfl htree hlast
      hheight.ge false
  obtain rfl := Except.ok.inj (hfound.symm.trans hvelocity)
  have hprev : last.pprev ≠ none := by
    intro hnone
    have hroot := htree.root _ (by simp [hlast]) ((parent_eq hlast).trans hnone)
    have hzero := htree.low
    rw [← hroot, height_eq hlast, hheight] at hzero
    omega
  obtain ⟨nBits, hcall, hbounds⟩ := hcalls hprev
  refine ⟨s, last, nBits, hrun, hlast, hcall, hbounds ?_⟩
  rw [hbits]
  decide

/-- It is not true that a target is never below one half of the one before. -/
theorem target_below_half :
    ¬∀ (ctx : Context) (s : NodeState) (p : UInt256) (last velocity : CBlockIndex)
      (f fDebug : Bool) (g g' : VRXGlobals) (nBits : UInt32), Accepts ctx anyBlock s →
      ctx.proofOfWorkLimit = ProofOfWorkLimit ctx.network →
      s.mapBlockIndex p = some last → 105 ≤ last.nHeight →
      GetLastBlockIndex s p f = .ok velocity → 20000 ≤ SetCompact velocity.nBits →
      g.GetNextTargetRequired id ctx s fDebug p f = .ok (nBits, g') →
      min (SetCompact velocity.nBits * 10000 / 20000) (bnVelocityLimit ctx f)
        ≤ SetCompact nBits := by
  intro hall
  obtain ⟨s, last, nBits, hrun, hlast, hheight, hfound, hbits, htarget, hvalue⟩ :=
    exists_fastChain
  have hmap := VRXGlobals.map_fst_getNextTargetRequired id (grownContext fastTime) s false
    VRXGlobals.start (grownHash false 105) false
  rw [htarget] at hmap
  rcases hcall : VRXGlobals.start.GetNextTargetRequired id (grownContext fastTime) s false
      (grownHash false 105) false with e | ⟨r, g'⟩
  · simp [hcall, Except.map] at hmap
  rw [hcall] at hmap
  cases hmap
  have hhalf := hall _ s _ last last false false VRXGlobals.start g' _ hrun rfl hlast hheight.ge
    hfound (by rw [hbits]; decide) hcall
  have hlimit : bnVelocityLimit (grownContext fastTime) false = ((2 ^ 238 - 1 : ℕ) : ℤ) := rfl
  rw [hbits, hlimit] at hhalf
  have hvalue' : r = GetCompact (SetCompact grownBits / 20000 * 10000) := hvalue
  rw [hvalue'] at hhalf
  revert hhalf
  decide

end ZalemCoin.Chain
