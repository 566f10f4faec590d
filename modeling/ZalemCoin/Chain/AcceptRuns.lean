import ZalemCoin.Chain.AcceptBlock
import ZalemCoin.Chain.Places

/-!
# Runs of accepted blocks

A node starts with the genesis block and accepts blocks from then on, in the order in which they
arrive. What `AcceptBlock` has checked of a block at its arrival is known of the block's entry ever
after, since entries do not leave their places.
-/

namespace ZalemCoin.Chain

open Lib

/-! ## What has been checked of a block -/

/-- What `AcceptBlock` has checked of a block against the entry of the block before it. -/
structure Admitted (ctx : Context) (env : Env) (s : NodeState) (block : CBlock)
    (prevBlock : CBlockIndex) : Prop where
  prev : s.mapBlockIndex block.hashPrevBlock = some prevBlock
  /-- The spacing, where it is constrained. -/
  velocity : Velocity_check (prevBlock.nHeight + 1) = true → Velocity env s prevBlock block = .ok true
  target : GetNextTargetRequired ctx s block.hashPrevBlock block.IsProofOfStake = .ok block.nBits
  place : checkPlace ctx env s prevBlock block = .ok ()
  synced : CheckSync s (prevBlock.nHeight + 1) = .ok true

variable {ctx : Context} {s : NodeState}

section

variable {env : Env} {block : CBlock} {prevBlock : CBlockIndex}

theorem checkAccept_eq_ok {hashProof : UInt256}
    (h : checkAccept ctx env s block = .ok hashProof) :
    ∃ prevBlock, Admitted ctx env s block prevBlock := by
  obtain ⟨⟨⟩, -, h⟩ := bind_ok h
  rcases hprev : s.mapBlockIndex block.hashPrevBlock with _ | prevBlock
  · rw [hprev] at h
    simp at h
  · rw [hprev] at h
    obtain ⟨⟨⟩, -, h⟩ := bind_ok h
    obtain ⟨⟨⟩, hvelocity, h⟩ := bind_ok h
    obtain ⟨⟨⟩, -, h⟩ := bind_ok h
    obtain ⟨⟨⟩, htgt, h⟩ := bind_ok h
    obtain ⟨⟨⟩, hplace, h⟩ := bind_ok h
    obtain ⟨proof, -, h⟩ := bind_ok h
    obtain ⟨⟨⟩, hheight, -⟩ := bind_ok h
    refine ⟨prevBlock, hprev, fun hchk => ?_, ?_, hplace, ?_⟩
    · unfold checkVelocity at hvelocity
      rw [if_pos hchk] at hvelocity
      obtain ⟨met, hmet, hvelocity⟩ := bind_ok hvelocity
      rw [hmet, ensure_eq_ok.mp hvelocity]
    · obtain ⟨nBits, hbits, htgt⟩ := bind_ok htgt
      rw [hbits, ensure_eq_ok.mp htgt]
    · obtain ⟨synced, hsynced, hheight⟩ := bind_ok hheight
      obtain ⟨hensure, -⟩ := ensure_ok hheight
      rw [hsynced, hensure]

theorem velocity_spacing (h : Velocity env s prevBlock block = .ok true) :
    prevBlock.GetBlockTime + VELOCITY_MIN_RATE ≤ block.GetBlockTime := by
  obtain ⟨prevPrev, -, h⟩ := bind_ok h
  have hrate : (0 : ℤ) < VELOCITY_RATE := by decide
  by_cases hmin : block.GetBlockTime - prevBlock.GetBlockTime ≥ VELOCITY_MIN_RATE
  · omega
  · rw [if_neg (fun hc => hmin hc.2), if_pos ⟨hrate, not_le.mp hmin⟩] at h
    exact absurd (Except.ok.inj h) (by simp)

theorem Admitted.spacing (h : Admitted ctx env s block prevBlock)
    (hheight : VELOCITY_TOGGLE ≤ prevBlock.nHeight + 1) : prevBlock.nTime ≤ block.nTime := by
  have hspacing := velocity_spacing (h.velocity (by simpa [Velocity_check] using hheight))
  have hmin : VELOCITY_MIN_RATE = 60 := rfl
  unfold CBlockIndex.GetBlockTime CBlock.GetBlockTime at hspacing
  rw [UInt32.le_iff_toNat_le]
  omega

theorem syncCheckpointLoop_eq_ok {genesis p q : UInt256} {best fuel : ℕ}
    (htree : BlockTree s genesis) (hp : best ≤ s.height p + nCheckpointSpan)
    (h : syncCheckpointLoop s best fuel p = .ok q) : best ≤ s.height q + nCheckpointSpan := by
  induction fuel generalizing p with
  | zero => simp [syncCheckpointLoop] at h
  | succ fuel ih =>
    obtain ⟨i, hidx, h⟩ := bind_ok h
    have hi := index_eq_ok.mp hidx
    have hheight := height_eq hi
    rcases hprev : i.pprev with _ | r
    · rw [hprev] at h
      cases h
      exact hp
    · rw [hprev] at h
      have hstep := htree.heights p r ((parent_eq hi).trans hprev)
      dsimp only at h
      split at h
      · -- The parent is one lower, and the block itself was not deep enough.
        exact ih (by omega) h
      · cases h
        exact hp

theorem Admitted.height_lt {genesis : UInt256} (h : Admitted ctx env s block prevBlock)
    (htree : BlockTree s genesis) {best : CBlockIndex} (hbest : s.index s.pindexBest = .ok best) :
    best.nHeight < prevBlock.nHeight + 1 + nCheckpointSpan := by
  obtain ⟨p, hsel, hsynced⟩ := bind_ok h.synced
  obtain ⟨best', hbest', hsel⟩ := bind_ok hsel
  obtain rfl := Except.ok.inj (hbest.symm.trans hbest')
  obtain ⟨sync, hsync, hsynced⟩ := bind_ok hsynced
  have hlow : sync.nHeight < prevBlock.nHeight + 1 := by simpa using Except.ok.inj hsynced
  rcases htip : s.pindexBest with _ | tip
  · rw [htip] at hbest
    simp [NodeState.index] at hbest
  · rw [htip] at hbest hsel
    have htop := height_eq (index_eq_ok.mp hbest)
    have hdepth := syncCheckpointLoop_eq_ok htree (by
      show best.nHeight ≤ s.height tip + nCheckpointSpan
      omega) hsel
    rw [height_eq (index_eq_ok.mp hsync)] at hdepth
    omega

end

/-! ## Runs -/

/-- A step of a run: a block on the disk is offered to `AcceptBlock`, which returns, or something
happens that does not touch the chain. The first argument says which blocks are offered. -/
inductive AcceptStep (ctx : Context) (offered : NodeState → CBlock → Prop) (s s' : NodeState) : Prop
  | accept {env : Env} {nFile nBlockPos : UInt32} {block : CBlock} {r : Except Failure Unit}
      (hstored : ctx.files.block nFile nBlockPos = some block) (hoffered : offered s block)
      (hrun : AcceptBlock ctx env nFile nBlockPos block s = (r, s')) (hret : Returns r)
  | elsewhere (hpart : s'.chainPart = s.chainPart)

def Accepts (ctx : Context) (offered : NodeState → CBlock → Prop) (s : NodeState) : Prop :=
  ∃ s₀, Initialised ctx s₀ ∧ Relation.ReflTransGen (AcceptStep ctx offered) s₀ s

/-- What accepting a block has done when it has made its entry. -/
structure Arrived (ctx : Context) (s s' : NodeState) (block : CBlock) (i : CBlockIndex) : Prop where
  admitted : ∃ env prevBlock, Admitted ctx env s block prevBlock
  indexed : ∃ s₁ nFile nBlockPos, Indexed ctx s s₁ nFile nBlockPos block i ∧ SamePlace s₁ s'
  time : i.nTime = block.nTime

theorem indexBlock_time {s' : NodeState} {nFile nBlockPos : UInt32} {hashProof : UInt256}
    {block : CBlock} {i : CBlockIndex}
    (h : indexBlock ctx nFile nBlockPos hashProof block s = (.ok i, s')) :
    i.nTime = block.nTime := by
  obtain ⟨nSequenceId, t, -, h⟩ := Action.bind_eq_ok.mp h
  obtain ⟨⟨⟩, t, -, h⟩ := Action.bind_eq_ok.mp h
  obtain ⟨i', t, hnew, h⟩ := Action.bind_eq_ok.mp h
  obtain ⟨⟨⟩, t, -, h⟩ := Action.bind_eq_ok.mp h
  obtain ⟨⟨⟩, t, -, h⟩ := Action.bind_eq_ok.mp h
  obtain ⟨⟨⟩, t, -, h⟩ := Action.bind_eq_ok.mp h
  obtain ⟨⟨⟩, t, -, h⟩ := Action.bind_eq_ok.mp h
  obtain rfl := Except.ok.inj (Prod.mk.inj h).1
  have hnew := (Prod.mk.inj hnew).1
  unfold newBlockIndex at hnew
  dsimp only at hnew
  split at hnew
  · simp at hnew
  · rw [← Except.ok.inj hnew]
    rfl

variable {offered : NodeState → CBlock → Prop} {s' : NodeState} {genesis p : UInt256}

theorem acceptBlock_places {env : Env} {nFile nBlockPos : UInt32} {block : CBlock}
    {r : Except Failure Unit} (h : AcceptBlock ctx env nFile nBlockPos block s = (r, s'))
    (hret : Returns r) : SamePlace s s' ∨ ∃ i, Arrived ctx s s' block i := by
  unfold AcceptBlock at h
  rw [Action.bind_apply, Action.reading_apply] at h
  rcases hchk : checkAccept ctx env s block with e | hashProof <;> rw [hchk] at h
  · cases h
    exact .inl (SamePlace.refl s)
  · obtain ⟨prevBlock, hadm⟩ := checkAccept_eq_ok hchk
    -- The failure that is reported is that of the call, under another message.
    obtain ⟨r', hadd, hret'⟩ : ∃ r', AddToBlockIndex ctx env nFile nBlockPos hashProof block s
        = (r', s') ∧ Returns r' := by
      rcases r with e | ⟨⟩
      · obtain ⟨e', hadd, hret'⟩ := reportAs_eq_error h hret
        exact ⟨_, hadd, hret'⟩
      · exact ⟨_, reportAs_eq_ok.mp h, fun m => by simp⟩
    rcases addToBlockIndex_places hadd hret' with hsame | ⟨i, s₁, hrun, hplace⟩
    · exact .inl hsame
    · obtain ⟨hindexed, -⟩ := indexBlock_eq_ok hrun
      exact .inr ⟨i, ⟨env, prevBlock, hadm⟩, ⟨s₁, nFile, nBlockPos, hindexed, hplace⟩,
        indexBlock_time hrun⟩

theorem AcceptStep.places (h : AcceptStep ctx offered s s') :
    SamePlace s s' ∨ ∃ block i, offered s block ∧ Arrived ctx s s' block i := by
  cases h with
  | accept hstor hoffered hrun hret =>
    rcases acceptBlock_places hrun hret with hsame | ⟨i, harrived⟩
    · exact .inl hsame
    · exact .inr ⟨_, i, hoffered, harrived⟩
  | elsewhere hpart => exact .inl (SamePlace.of_eq (congrArg Prod.fst hpart :))

theorem AcceptStep.blockTree (h : AcceptStep ctx offered s s') (htree : BlockTree s genesis)
    (hgen : s.mapBlockIndex genesis ≠ none) :
    BlockTree s' genesis ∧ s'.mapBlockIndex genesis ≠ none := by
  rcases h.places with hsame | ⟨block, i, -, harrived⟩
  · exact ⟨htree.congr hsame, (hsame.ne_none_iff genesis).mpr hgen⟩
  · obtain ⟨env, prevBlock, hadm⟩ := harrived.admitted
    obtain ⟨s₁, nFile, nBlockPos, hindexed, hplace⟩ := harrived.indexed
    have hknown : s.mapBlockIndex block.hashPrevBlock ≠ none := by simp [hadm.prev]
    refine ⟨(hindexed.blockTree htree hgen hknown).congr hplace, ?_⟩
    have hne : genesis ≠ ctx.GetHash block := fun heq => hgen (heq ▸ hindexed.fresh)
    rw [hplace.ne_none_iff, hindexed.entry_of_ne hne]
    exact hgen

theorem Accepts.blockTree (h : Accepts ctx offered s) :
    ∃ g, BlockTree s g ∧ s.mapBlockIndex g ≠ none := by
  obtain ⟨s₀, hstart, hrun⟩ := h
  obtain ⟨g, htree, hgen⟩ := hstart.blockTree
  refine ⟨g, ?_⟩
  induction hrun with
  | refl => exact ⟨htree, hgen⟩
  | tail _ hstep ih => exact hstep.blockTree ih.1 ih.2

end ZalemCoin.Chain
