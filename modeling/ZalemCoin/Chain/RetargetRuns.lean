import ZalemCoin.Chain.GrownAccept

/-!
# Retargets on the chains that a node accepts

The target of the next block is computed on every chain that a node can come to have. It is computed
without following a null pointer unless the chain has no block of the type, and with a spacing that
is the difference of two times unless a block that is too low for the constraints on spacings was
stamped before its parent.
-/

namespace ZalemCoin.Chain

open Lib
open UInt32 (toNat_toUInt64)

/-! ## The targets of the branches -/

def evenTime (h : ℕ) : ℕ := 1000 + 400 * h

theorem evenTime_spaced {h : ℕ} (hh : h + 1 ≤ grownHeight) : Spaced evenTime h := by
  unfold grownHeight at hh
  unfold evenTime
  constructor <;> omega

variable {time : ℕ → ℕ} {m k : ℕ} {s : NodeState} {i : CBlockIndex}

section

variable {side : Bool} {h : ℕ}

theorem getCompact_limit : GetCompact ((grownContext time).proofOfWorkLimit : ℕ) = grownBits := by
  show GetCompact ((2 ^ 238 - 1 : ℕ) : ℤ) = grownBits
  decide

variable {top : Bool → ℕ} {d : ℕ}

variable (hs : Holds time top s)
include hs

theorem Holds.target_of_low (hh : h ≤ top side) (hlow : h < scanheight + 99) :
    GetNextTargetRequired (grownContext time) s (grownHash side h) false = .ok grownBits := by
  obtain ⟨i, hi, hent⟩ := hs.entry side h hh
  unfold GetNextTargetRequired VRX_Retarget
  rw [index_eq_ok.mpr hi]
  simp only [bind, Except.bind]
  rw [if_pos (by rw [hent.height]; exact hlow)]
  exact congrArg Except.ok getCompact_limit

variable (hsteady : ∀ n, time (n + 1) = time n + d)
include hsteady

variable (hlow : ∀ n ≤ grownHeight, time n < 2 ^ 32)
include hlow

theorem Holds.spacing_steady (hpos : 0 < h) (hh : h ≤ top side) (hi : GrownEntry time side h i)
    {j : CBlockIndex} (hj : GrownEntry time side (h - 1) j) :
    i.nTime.toNat = j.nTime.toNat + d := by
  have htop := hs.low side
  have hstep := hsteady (h - 1)
  rw [Nat.sub_add_cancel hpos] at hstep
  rw [hi.time, hj.time, toNat_ofNat_of_lt (hlow h (by omega)),
    toNat_ofNat_of_lt (hlow (h - 1) (by omega)), hstep]

theorem Holds.scanRounds_steady {rounds : ℕ} (hh : h ≤ top side) (hrnds : rounds ≤ h)
    (hi : GrownEntry time side h i) :
    scanRounds s rounds i = .ok ⟨List.replicate rounds (roundFactor d), rounds, 0⟩ := by
  induction rounds generalizing h i with
  | zero => rfl
  | succ rounds ih =>
    obtain ⟨j, hj, hprev⟩ := hs.entry side (h - 1) (by omega)
    have hidx : s.index i.pprev = .ok j := by
      rw [hi.prev, if_neg (by omega)]
      exact index_eq_ok.mpr hj
    have hspacing : i.GetBlockTime - j.GetBlockTime = d := by
      have h := hs.spacing_steady hsteady hlow (by omega) hh hi hprev
      unfold CBlockIndex.GetBlockTime
      omega
    have hrest := ih (by omega) (by omega) hprev
    unfold scanRounds
    rw [hidx]
    simp only [bind, Except.bind, hspacing, hrest, hprev.kind]
    rfl

theorem Holds.difTime_steady (hpos : 0 < h) (hh : h ≤ top side) (hi : GrownEntry time side h i)
    {j : CBlockIndex} (hj : GrownEntry time side (h - 1) j) :
    (difTime (i.nTime.toUInt64, j.nTime.toUInt64)).toNat = d := by
  have hspacing := hs.spacing_steady hsteady hlow hpos hh hi hj
  unfold difTime
  rw [UInt64.toNat_sub_of_le _ _ (by
    rw [UInt64.le_iff_toNat_le, toNat_toUInt64, toNat_toUInt64]
    omega), toNat_toUInt64, toNat_toUInt64]
  omega

omit hlow

omit hsteady

omit hs

theorem evenTime_steady (n : ℕ) : evenTime (n + 1) = evenTime n + 400 := by
  unfold evenTime
  omega

theorem evenTime_lt (n : ℕ) (hn : n ≤ grownHeight) : evenTime n < 2 ^ 32 := by
  unfold grownHeight at hn
  unfold evenTime
  omega

theorem Holds.getLastBlockIndex (hs : Holds time top s) (hh : h ≤ top side)
    (hi : s.mapBlockIndex (grownHash side h) = some i) :
    GetLastBlockIndex s (grownHash side h) false = .ok i := by
  obtain ⟨j, hj, hent⟩ := hs.entry side h hh
  obtain rfl := Option.mem_unique hi hj
  unfold GetLastBlockIndex lastBlockIndex
  rw [index_eq_ok.mpr hi]
  simp only [bind, Except.bind, hent.kind]
  rcases i.pprev with _ | q <;> rfl

theorem Holds.target_even (hs : Holds evenTime top s) (hh : h ≤ top side) :
    GetNextTargetRequired (grownContext evenTime) s (grownHash side h) false = .ok grownBits := by
  rcases Nat.lt_or_ge h (scanheight + 99) with hlow | hhigh
  · exact hs.target_of_low hh hlow
  · obtain ⟨i, hi, hent⟩ := hs.entry side h hh
    obtain ⟨j, hj, hprev⟩ := hs.entry side (h - 1) (by omega)
    have hpos : 0 < h := by
      omega
    have hidx : s.index i.pprev = .ok j := by
      rw [hent.prev, if_neg (by omega)]
      exact index_eq_ok.mpr hj
    have hscan := hs.scanRounds_steady evenTime_steady evenTime_lt hh
      (show scanheight - 1 ≤ h by unfold scanheight at hhigh ⊢; omega) hent
    -- The spacing of the last two blocks is a few minutes.
    have hdif : difTime (i.nTime.toUInt64, j.nTime.toUInt64) = 400 :=
      UInt64.toNat_inj.mp (hs.difTime_steady evenTime_steady evenTime_lt hpos hh hent hprev)
    have hbits : i.nBits = grownBits := hent.bits
    unfold GetNextTargetRequired VRX_Retarget
    rw [index_eq_ok.mpr hi]
    simp only [bind, Except.bind]
    rw [if_neg (by rw [hent.height]; omega), hs.getLastBlockIndex hh hi]
    unfold VRX_ThreadCurve velocityTimes
    simp only [bind, Except.bind, hscan, hidx, pure, Except.pure, hdif, hbits]
    show scaleTarget ((2 ^ 238 - 1 : ℕ) : ℤ) grownBits (easeAverage 400
      (VRXScan.skewed ⟨List.replicate 5 (1 / 2), 5, 0⟩ false)) = _
    decide +kernel

end

/-! ## Runs that grow the branches -/

def anyBlock (_ : NodeState) (_ : CBlock) : Prop := True

variable {offered : NodeState → CBlock → Prop} {s' : NodeState}

theorem Accepts.grow {side : Bool} {h : ℕ} (hrun : Accepts (grownContext time) offered s)
    (hh : h ≤ grownHeight) (hoffered : offered s (grownBlock time side h))
    (hacc : AcceptBlock (grownContext time) grownEnv (UInt32.ofNat (grownId side h)) 8
      (grownBlock time side h) s = (.ok (), s')) : Accepts (grownContext time) offered s' := by
  obtain ⟨s₀, hstart, hsteps⟩ := hrun
  exact ⟨s₀, hstart, hsteps.tail
    (AcceptStep.accept (grownBlock_stored hh) hoffered hacc fun m hm => by simp at hm)⟩

theorem exists_main (hm : m ≤ grownHeight) (hspaced : ∀ h < m, Spaced time h)
    (hnext : ∀ h < m, ∀ s, Grown time h 0 s → offered s (grownBlock time false (h + 1)) ∧
      GetNextTargetRequired (grownContext time) s (grownHash false h) false = .ok grownBits) :
    ∃ s, Accepts (grownContext time) offered s ∧ Grown time m 0 s := by
  induction m with
  | zero =>
    obtain ⟨s, hstart, hs⟩ := exists_grown time
    exact ⟨s, ⟨s, hstart, Relation.ReflTransGen.refl⟩, hs⟩
  | succ m ih =>
    obtain ⟨s, hrun, hs⟩ := ih (by omega) (fun h hh => hspaced h (by omega))
      fun h hh => hnext h (by omega)
    obtain ⟨hoffered, htgt⟩ := hnext m (Nat.lt_succ_self m) s hs
    obtain ⟨s', hacc, hs'⟩ := hs.main hm (hspaced m (Nat.lt_succ_self m)) htgt
    exact ⟨s', hrun.grow hm hoffered hacc, hs'⟩

/-- A node can come to have evenly spaced branches, as long as the side branch does not fall behind
the synchronized checkpoint. -/
theorem exists_branches (hm : m ≤ nCheckpointSpan) (hk : k ≤ m) :
    ∃ s, Accepts (grownContext evenTime) anyBlock s ∧ Grown evenTime m k s := by
  have hmax : m < grownHeight := lt_of_le_of_lt hm (by decide)
  induction k with
  | zero =>
    exact exists_main hmax.le (fun h hh => evenTime_spaced (by omega))
      fun h _ s hs => ⟨trivial, hs.target_even le_rfl⟩
  | succ k ih =>
    obtain ⟨s, hrun, hs⟩ := ih (by omega)
    obtain ⟨s', hacc, hs'⟩ :=
      hs.branch hk (evenTime_spaced (by omega)) (by omega) (hs.target_even le_rfl)
    exact ⟨s', hrun.grow (by omega) trivial hacc, hs'⟩

/-! ## Missing ancestors -/

variable {ctx : Context} {p : UInt256}

/-- On every chain that a node accepts, the target of the next block of a type is computed without
following a null pointer exactly when the chain is low or has a block of the type after the genesis
block. -/
theorem accepts_getNextTargetRequired_isOk_iff (h : Accepts ctx offered s)
    (hi : s.mapBlockIndex p = some i) (f : Bool) :
    (∃ nBits, GetNextTargetRequired ctx s p f = .ok nBits) ↔
      i.nHeight < scanheight + 99 ∨ HasBlockOf s p f := by
  obtain ⟨g, htree, -⟩ := h.blockTree
  exact getNextTargetRequired_isOk_iff ctx htree hi f

theorem exists_onlyWork :
    ∃ s i, Accepts (grownContext evenTime) anyBlock s ∧
      s.mapBlockIndex (grownHash false 106) = some i ∧ i.nHeight = 106 ∧
      i.fProofOfStake = false ∧ i.pprev ≠ none ∧
      ¬HasBlockOf s (grownHash false 106) true := by
  obtain ⟨s, hrun, hs⟩ := @exists_branches 106 0 (by decide) (Nat.zero_le _)
  obtain ⟨i, hi, hent⟩ := hs.entry false 106 le_rfl
  refine ⟨s, i, hrun, hi, hent.height, hent.kind, by rw [hent.prev]; simp, ?_⟩
  rintro ⟨q, j, -, hj, -, hkind⟩
  obtain ⟨side, h, hh, rfl⟩ := hs.only q (by simp [hj])
  obtain ⟨j', hj', hent'⟩ := hs.entry side h hh
  obtain rfl := Option.mem_unique hj hj'
  simp [hent'.kind] at hkind

/-- On a chain of proof-of-work blocks, the target of the next block of that type is computed. -/
theorem onlyWork_target :
    ∃ s, Accepts (grownContext evenTime) anyBlock s ∧
      ∃ nBits, GetNextTargetRequired (grownContext evenTime) s (grownHash false 106) false
        = .ok nBits := by
  obtain ⟨s, i, hrun, hi, hheight, hkind, hprev, -⟩ := exists_onlyWork
  refine ⟨s, hrun, (accepts_getNextTargetRequired_isOk_iff hrun hi false).mpr (Or.inr ?_)⟩
  exact ⟨_, i, IsAncestor.refl _ _, hi, hprev, hkind⟩

/-- It is not true that the target of the next block is always computed: on a chain of
proof-of-work blocks, that of a proof-of-stake block is not. -/
theorem target_not_always_computed :
    ¬∀ (ctx : Context) (s : NodeState) (p : UInt256) (i : CBlockIndex) (f : Bool),
      Accepts ctx anyBlock s → s.mapBlockIndex p = some i → 105 < i.nHeight →
        ∃ nBits, GetNextTargetRequired ctx s p f = .ok nBits := by
  intro hall
  obtain ⟨s, i, hrun, hi, hheight, -, -, hnone⟩ := exists_onlyWork
  obtain ⟨g, htree, -⟩ := hrun.blockTree
  have hcomputed := hall _ s _ i true hrun hi (by omega)
  rcases (getNextTargetRequired_isOk_iff _ htree hi true).mp hcomputed with hlow | hhas
  · unfold scanheight at hlow
    omega
  · exact hnone hhas

/-! ## Spacings -/

/-- A block that is too low for the constraints on spacings is not stamped before its parent. -/
def StampedInOrder (s : NodeState) (block : CBlock) : Prop :=
  ∀ prevBlock, s.mapBlockIndex block.hashPrevBlock = some prevBlock →
    prevBlock.nHeight + 1 < VELOCITY_TOGGLE → prevBlock.nTime ≤ block.nTime

/-- No block is stamped before its parent. -/
def InOrder (s : NodeState) : Prop :=
  ∀ p q i j, s.mapBlockIndex p = some i → i.pprev = some q → s.mapBlockIndex q = some j →
    j.nTime ≤ i.nTime

/-- The spacing that the curve computes from the times of two blocks is the difference of their
times, and is not negative. -/
def TrueSpacing (s : NodeState) (i : CBlockIndex) : Prop :=
  ∃ times prev, velocityTimes s i = .ok times ∧ s.index i.pprev = .ok prev ∧
    ((difTime times).toNat : ℤ) = i.GetBlockTime - prev.GetBlockTime ∧
      0 ≤ i.GetBlockTime - prev.GetBlockTime

variable {q : UInt256} {j : CBlockIndex}

/-- The spacing of two blocks is computed as it should be exactly when they are in the order of
their times. -/
theorem trueSpacing_iff (hprev : s.index i.pprev = .ok j) :
    TrueSpacing s i ↔ j.nTime ≤ i.nTime := by
  have htimes : velocityTimes s i = .ok (i.nTime.toUInt64, j.nTime.toUInt64) := by
    unfold velocityTimes
    rw [hprev]
    rfl
  rw [UInt32.le_iff_toNat_le]
  constructor
  · rintro ⟨times, prev, -, hidx, -, hpos⟩
    obtain rfl := Except.ok.inj (hprev.symm.trans hidx)
    unfold CBlockIndex.GetBlockTime at hpos
    omega
  · intro hle
    refine ⟨_, j, htimes, hprev, ?_, ?_⟩
    · unfold difTime CBlockIndex.GetBlockTime
      rw [UInt64.toNat_sub_of_le _ _ (by
        rw [UInt64.le_iff_toNat_le, toNat_toUInt64, toNat_toUInt64]
        exact hle), toNat_toUInt64, toNat_toUInt64]
      omega
    · unfold CBlockIndex.GetBlockTime
      omega

/-- The entries of every block and of its parent are in a relation. -/
def ParentsRelated (R : CBlockIndex → CBlockIndex → Prop) (s : NodeState) : Prop :=
  ∀ p q i j, s.mapBlockIndex p = some i → i.pprev = some q → s.mapBlockIndex q = some j → R j i

variable {R : CBlockIndex → CBlockIndex → Prop}

theorem ParentsRelated.congr (h : ParentsRelated R s) (hplace : SamePlace s s')
    (hR : ∀ j i, R j.place i.place ↔ R j i) : ParentsRelated R s' := by
  intro p q i j hi hprev hj
  obtain ⟨i₀, hi₀, hsame⟩ := hplace.exists_eq hi
  obtain ⟨j₀, hj₀, hsame'⟩ := hplace.exists_eq hj
  rw [show i.pprev = i₀.pprev from (congrArg CBlockIndex.pprev hsame :)] at hprev
  rw [← hR, hsame, hsame', hR]
  exact h p q i₀ j₀ hi₀ hprev hj₀

theorem AcceptStep.parentsRelated (h : AcceptStep ctx offered s s')
    (hknown : ∀ p q, s.parent p = some q → s.mapBlockIndex q ≠ none)
    (hR : ∀ j i, R j.place i.place ↔ R j i)
    (hnew : ∀ env block prevBlock i, offered s block → Admitted ctx env s block prevBlock →
      i.nTime = block.nTime → R prevBlock i)
    (hs : ParentsRelated R s) : ParentsRelated R s' := by
  rcases h.places with hsame | ⟨block, i, hoffered, ⟨env, prevBlock, hadm⟩,
    ⟨s₁, nFile, nBlockPos, hindexed, hplace⟩, htime⟩
  · exact hs.congr hsame hR
  · refine ParentsRelated.congr (fun p q k l hk hprev hl => ?_) hplace hR
    have hprevKnown : s.mapBlockIndex block.hashPrevBlock ≠ none := by simp [hadm.prev]
    by_cases hp : p = ctx.GetHash block
    · rw [hp, hindexed.entry_self] at hk
      cases hk
      rw [hindexed.parent, hadm.prev] at hprev
      cases hprev
      rw [hindexed.entry_of_ne (hindexed.prev_ne hprevKnown), hadm.prev] at hl
      cases hl
      exact hnew env block prevBlock i hoffered hadm htime
    · rw [hindexed.entry_of_ne hp] at hk
      have hpar : s.parent p = some q := (parent_eq hk).trans hprev
      have hq : q ≠ ctx.GetHash block := by
        rintro rfl
        exact hknown p _ hpar hindexed.fresh
      rw [hindexed.entry_of_ne hq] at hl
      exact hs p q k l hk hprev hl

theorem Accepts.parentsRelated (h : Accepts ctx offered s) (hR : ∀ j i, R j.place i.place ↔ R j i)
    (hnew : ∀ s env block prevBlock i, offered s block → Admitted ctx env s block prevBlock →
      i.nTime = block.nTime → R prevBlock i) : ParentsRelated R s := by
  obtain ⟨s₀, hstart, hrun⟩ := h
  induction hrun with
  | refl =>
    intro p q i j hi hprev hj
    have hroot := hstart.parent_eq_none p
    rw [parent_eq hi, hprev] at hroot
    simp at hroot
  | tail hrun hstep ih =>
    obtain ⟨g, htree, -⟩ := Accepts.blockTree ⟨s₀, hstart, hrun⟩
    exact hstep.parentsRelated htree.known hR (hnew _) ih

theorem Accepts.inOrder (h : Accepts ctx StampedInOrder s) : InOrder s := by
  refine h.parentsRelated (fun _ _ => Iff.rfl) fun s env block prevBlock i hstamped hadm htime => ?_
  -- The new block is high enough for the constraints, or it was stamped in order.
  rw [htime]
  rcases Nat.lt_or_ge (prevBlock.nHeight + 1) VELOCITY_TOGGLE with hlow | hhigh
  · exact hstamped prevBlock hadm.prev hlow
  · exact hadm.spacing hhigh

/-- From the height on at which spacings are constrained, a block is stamped a minute or more after each of
its ancestors for every block that is between them. -/
theorem accepts_spacing (h : Accepts ctx offered s) (hanc : IsAncestor s.parent q p)
    (hi : s.mapBlockIndex p = some i) (hj : s.mapBlockIndex q = some j)
    (hhigh : VELOCITY_TOGGLE ≤ j.nHeight + 1) : j.nHeight ≤ i.nHeight ∧
      j.GetBlockTime + VELOCITY_MIN_RATE * (i.nHeight - j.nHeight) ≤ i.GetBlockTime := by
  have hspaced : ParentsRelated (fun j i => VELOCITY_TOGGLE ≤ j.nHeight + 1 →
      j.GetBlockTime + VELOCITY_MIN_RATE ≤ i.GetBlockTime) s := by
    refine h.parentsRelated (fun _ _ => Iff.rfl) fun s env block prevBlock i _ hadmitted htime hhigh => ?_
    rw [show i.GetBlockTime = block.GetBlockTime from congrArg (fun time => (time.toNat : ℤ)) htime]
    exact velocity_spacing (hadmitted.velocity (by simpa [Velocity_check] using hhigh))
  obtain ⟨g, htree, -⟩ := h.blockTree
  have hrate : VELOCITY_MIN_RATE = 60 := rfl
  induction hanc using Relation.ReflTransGen.head_induction_on generalizing i with
  | refl =>
    obtain rfl := Option.mem_unique hi hj
    simp
  | @head p c hpc hcq ih =>
    obtain ⟨k, hk⟩ := Option.ne_none_iff_exists'.mp (htree.known p c hpc)
    obtain ⟨hle, hbetween⟩ := ih hk
    have hheight := htree.heights p c hpc
    rw [height_eq hi, height_eq hk] at hheight
    have hstep := hspaced p c i k hi ((parent_eq hi).symm.trans hpc) hk (by omega)
    rw [hrate] at hbetween hstep ⊢
    omega

theorem evenTime_spacing : ∃ s i j, Accepts (grownContext evenTime) anyBlock s ∧
    s.mapBlockIndex (grownHash false 175) = some i ∧
      s.mapBlockIndex (grownHash false 174) = some j ∧
        j.GetBlockTime + VELOCITY_MIN_RATE * (i.nHeight - j.nHeight) ≤ i.GetBlockTime := by
  obtain ⟨s, hrun, hs⟩ := @exists_main evenTime 175 anyBlock (by decide)
    (fun h hh => evenTime_spaced (by unfold grownHeight; omega))
    fun h hh s hs => ⟨trivial, hs.target_even le_rfl⟩
  obtain ⟨i, hi, hentry⟩ := hs.entry false 175 le_rfl
  obtain ⟨j, hj, hlow⟩ := hs.entry false 174 (by decide)
  have hparent := (parent_eq hi).trans hentry.prev
  have hhigh : VELOCITY_TOGGLE ≤ j.nHeight + 1 := by
    rw [hlow.height]
    decide
  exact ⟨s, i, j, hrun, hi, hj, (accepts_spacing hrun (.single hparent) hi hj hhigh).2⟩

/-- In every run in which blocks that are too low for the constraints on spacings are not stamped
before their parents, every retarget computes its spacing as it should. -/
theorem accepts_trueSpacing (h : Accepts ctx StampedInOrder s) (hp : s.mapBlockIndex p ≠ none)
    {f : Bool} (hlast : GetLastBlockIndex s p f = .ok i) (hprev : i.pprev ≠ none) :
    TrueSpacing s i := by
  obtain ⟨g, htree, -⟩ := h.blockTree
  obtain ⟨j, hj, hentry⟩ := exists_index hp
  have hlast' : lastBlockIndex s f (j.nHeight + 1) p = .ok i := by
    unfold GetLastBlockIndex at hlast
    rw [hj] at hlast
    exact hlast
  have hfuel : s.height p < j.nHeight + 1 := by
    rw [height_eq hentry]
    omega
  obtain ⟨q, i', hfound, hi, -, -⟩ := @BlockTree.lastBlockIndex_isOk s g p f htree _ hp hfuel
  obtain rfl := Except.ok.inj (hlast'.symm.trans hfound)
  obtain ⟨r, hr⟩ := Option.ne_none_iff_exists'.mp hprev
  obtain ⟨k, hindex, hk⟩ := exists_index (htree.known q r ((parent_eq hi).trans hr))
  rw [← hr] at hindex
  exact (trueSpacing_iff hindex).mpr (h.inOrder q r i k hi hr hk)

/-- The spacing of the last two blocks of an evenly spaced chain is computed as it should be. -/
theorem evenTime_trueSpacing :
    ∃ s i, Accepts (grownContext evenTime) StampedInOrder s ∧
      s.mapBlockIndex (grownHash false 106) = some i ∧ TrueSpacing s i := by
  obtain ⟨s, hrun, hs⟩ := @exists_main evenTime 106 StampedInOrder (by decide)
    (fun h hh => evenTime_spaced (by unfold grownHeight; omega)) fun h hh s hs => by
      refine ⟨fun prevBlock hprev _ => ?_, hs.target_even le_rfl⟩
      obtain ⟨i, hi, hentry⟩ := hs.entry false h le_rfl
      obtain rfl := Option.some.inj (hi.symm.trans hprev)
      rw [hentry.time, UInt32.le_iff_toNat_le]
      show _ ≤ (UInt32.ofNat (evenTime (h + 1))).toNat
      unfold evenTime
      rw [toNat_ofNat_of_lt (by omega), toNat_ofNat_of_lt (by omega)]
      omega
  obtain ⟨i, hi, hentry⟩ := hs.entry false 106 le_rfl
  have hlast : GetLastBlockIndex s (grownHash false 106) false = .ok i :=
    hs.getLastBlockIndex le_rfl hi
  exact ⟨s, i, hrun, hi, accepts_trueSpacing hrun (by simp [hi]) hlast
    (by rw [hentry.prev]; simp)⟩

def backTime (h : ℕ) : ℕ := if h = 105 then 42500 else evenTime h

theorem exists_stampedBack :
    ∃ s i j, Accepts (grownContext backTime) anyBlock s ∧
      s.mapBlockIndex (grownHash false 105) = some i ∧ i.nHeight = 105 ∧
      GetLastBlockIndex s (grownHash false 105) false = .ok i ∧ s.index i.pprev = .ok j ∧
      i.nTime < j.nTime := by
  have hspaced : ∀ h < 105, Spaced backTime h := by
    intro h hh
    unfold backTime evenTime
    refine ⟨?_, ?_, ?_, ?_⟩ <;> split_ifs <;> omega
  obtain ⟨s, hrun, hs⟩ := @exists_main backTime 105 anyBlock (by decide) hspaced
    fun h hh s hs => ⟨trivial, hs.target_of_low le_rfl (by unfold scanheight; omega)⟩
  obtain ⟨i, hi, hent⟩ := hs.entry false 105 le_rfl
  obtain ⟨j, hj, hprev⟩ := hs.entry false 104 (by decide)
  refine ⟨s, i, j, hrun, hi, hent.height, hs.getLastBlockIndex le_rfl hi, ?_, ?_⟩
  · rw [hent.prev]
    exact index_eq_ok.mpr hj
  · rw [hent.time, hprev.time]
    decide

/-- It is not true that every retarget computes its spacing as it should. -/
theorem spacing_not_always_true :
    ¬∀ (ctx : Context) (s : NodeState) (p : UInt256) (last i : CBlockIndex) (f : Bool),
      Accepts ctx anyBlock s → s.mapBlockIndex p = some last → scanheight + 99 ≤ last.nHeight →
        GetLastBlockIndex s p f = .ok i → i.pprev ≠ none → TrueSpacing s i := by
  intro hall
  obtain ⟨s, i, j, hrun, hi, hheight, hlast, hprev, hback⟩ := exists_stampedBack
  have hne : i.pprev ≠ none := by
    intro hnone
    rw [hnone] at hprev
    simp [NodeState.index] at hprev
  have hhigh : scanheight + 99 ≤ i.nHeight := by
    rw [hheight]
    decide
  have htrue := hall _ s _ i i false hrun hi hhigh hlast hne
  have hle := (trueSpacing_iff hprev).mp htrue
  rw [UInt32.le_iff_toNat_le] at hle
  rw [UInt32.lt_iff_toNat_lt] at hback
  omega

end ZalemCoin.Chain
