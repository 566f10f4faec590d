import ZalemCoin.Chain.LedgerRefinement
import ZalemCoin.Chain.PlainContext
import ZalemCoin.Lib.ParentTree

/-!
# What the reward limits depend on

The limits on what a block may pay itself are computed from the best block of the node, not from the
block before the one that is connected. Two nodes that connect the same block to the same chain have
the same limits exactly when their best blocks lie on the same side of the thresholds that the
limits compare the supply and the draw with.
-/

namespace ZalemCoin.Chain

open Lib

/-- Two states have the same chain up to a block: the same transaction index, and the same entries
for the block and its ancestors, up to the links that say which of them are on the main chain. -/
structure SameChain (s₁ s₂ : NodeState) (p : UInt256) : Prop where
  txIndex : s₁.txdb.txIndex = s₂.txdb.txIndex
  entries : ∀ q, IsAncestor s₁.parent q p →
    (s₁.mapBlockIndex q).map CBlockIndex.unlinked = (s₂.mapBlockIndex q).map CBlockIndex.unlinked

def DrawsSuperblock (ctx : Context) (best : CBlockIndex) : Prop :=
  ctx.generateMTRandom (rewardSeed (best.pprev.getD 0)) 1000000 ≤ 50000

instance (ctx : Context) (best : CBlockIndex) : Decidable (DrawsSuperblock ctx best) :=
  inferInstanceAs (Decidable (_ ≤ _))

/-- The best blocks of two nodes lie on the same side of the thresholds that matter for a block at a
height: that of the reserve phase above its start, and the cap below; and outside the reserve phase
and under the cap they draw alike. -/
def SameSide (ctx : Context) (best₁ best₂ : CBlockIndex) (nHeight : ℕ) : Prop :=
  if nHeight > nReservePhaseStart then
    (best₁.nMoneySupply < nBlockRewardReserve * 100 ↔
        best₂.nMoneySupply < nBlockRewardReserve * 100) ∧
      (¬best₁.nMoneySupply < nBlockRewardReserve * 100 →
        (DrawsSuperblock ctx best₁ ↔ DrawsSuperblock ctx best₂))
  else
    (best₁.nMoneySupply > MAX_SINGLE_TX ↔ best₂.nMoneySupply > MAX_SINGLE_TX) ∧
      (¬best₁.nMoneySupply > MAX_SINGLE_TX →
        (DrawsSuperblock ctx best₁ ↔ DrawsSuperblock ctx best₂))

def subsidy (ctx : Context) (best : CBlockIndex) (nHeight : ℕ) : ℤ :=
  let drawn := if DrawsSuperblock ctx best then nBlockSuperReward else nBlockStandardReward
  if nHeight > nReservePhaseStart then
    if best.nMoneySupply < nBlockRewardReserve * 100 then nBlockRewardReserve else drawn
  else if best.nMoneySupply > MAX_SINGLE_TX then 0
  else drawn

theorem blockReward_eq {ctx : Context} {s : NodeState} {best : CBlockIndex} {nFees : ℤ}
    (nHeight : ℕ) (hbest : s.index s.pindexBest = .ok best) (hfees : wrap64 nFees = nFees) :
    blockReward ctx s nHeight nFees = .ok (wrap64 (subsidy ctx best nHeight + nFees)) := by
  have hdraw : randreward ctx s
      = .ok (ctx.generateMTRandom (rewardSeed (best.pprev.getD 0)) 1000000) := by
    unfold randreward
    rw [hbest]
    rfl
  unfold blockReward subsidy DrawsSuperblock
  rw [hdraw, hbest]
  change (if _ then (if _ then Except.ok _ else Except.ok _)
    else if _ then Except.ok _ else Except.ok _) = _
  split
  · split <;> rfl
  · split
    · rw [zero_add, hfees]
    · rfl

theorem subsidy_cases (ctx : Context) (best : CBlockIndex) (nHeight : ℕ) :
    subsidy ctx best nHeight = nBlockRewardReserve ∨ subsidy ctx best nHeight = 0 ∨
      subsidy ctx best nHeight = nBlockSuperReward ∨
      subsidy ctx best nHeight = nBlockStandardReward := by
  unfold subsidy
  split_ifs <;> simp

/-- Two choices among three amounts, by a threshold and by a draw, agree exactly when they lie on
the same side of the threshold and, where the draw matters, draw alike. -/
theorem choice_eq_iff {below₁ below₂ draw₁ draw₂ : Prop} [Decidable below₁] [Decidable below₂]
    [Decidable draw₁] [Decidable draw₂] {x y z : ℤ} (hxy : x ≠ y) (hxz : x ≠ z) (hyz : y ≠ z) :
    (if below₁ then x else if draw₁ then y else z)
        = (if below₂ then x else if draw₂ then y else z) ↔
      (below₁ ↔ below₂) ∧ (¬below₁ → (draw₁ ↔ draw₂)) := by
  by_cases h₁ : below₁ <;> by_cases h₂ : below₂
  · simp [h₁, h₂]
  · by_cases hd₂ : draw₂ <;> simp [h₁, h₂, hd₂, hxy, hxz]
  · by_cases hd₁ : draw₁ <;> simp [h₁, h₂, hd₁, hxy.symm, hxz.symm]
  · by_cases hd₁ : draw₁ <;> by_cases hd₂ : draw₂ <;> simp [h₁, h₂, hd₁, hd₂, hyz, hyz.symm]

theorem subsidy_eq_iff (ctx : Context) (best₁ best₂ : CBlockIndex) (nHeight : ℕ) :
    subsidy ctx best₁ nHeight = subsidy ctx best₂ nHeight ↔ SameSide ctx best₁ best₂ nHeight := by
  unfold subsidy SameSide
  have hres : nBlockRewardReserve ≠ nBlockSuperReward ∧
      nBlockRewardReserve ≠ nBlockStandardReward := by decide
  have hcap : 0 ≠ nBlockSuperReward ∧ 0 ≠ nBlockStandardReward := by decide
  have hdraw : nBlockSuperReward ≠ nBlockStandardReward := by decide
  by_cases hheight : nHeight > nReservePhaseStart
  · simp only [if_pos hheight]
    exact choice_eq_iff hres.1 hres.2 hdraw
  · simp only [if_neg hheight]
    exact choice_eq_iff hcap.1 hcap.2 hdraw

theorem wrap64_subsidy_inj (ctx : Context) (best₁ best₂ : CBlockIndex) (nHeight : ℕ) (nFees : ℤ) :
    wrap64 (subsidy ctx best₁ nHeight + nFees) = wrap64 (subsidy ctx best₂ nHeight + nFees) ↔
      subsidy ctx best₁ nHeight = subsidy ctx best₂ nHeight := by
  refine ⟨fun h => ?_, fun h => by rw [h]⟩
  have hrng (best : CBlockIndex) :
      0 ≤ subsidy ctx best nHeight ∧ subsidy ctx best nHeight < 2 ^ 63 := by
    rcases subsidy_cases ctx best nHeight with h | h | h | h <;> rw [h] <;> decide
  have h₁ := hrng best₁
  have h₂ := hrng best₂
  unfold wrap64 at h
  have hmod := congrArg (· % ((2 ^ 64 : ℕ) : ℤ)) h
  rw [Int.bmod_emod, Int.bmod_emod] at hmod
  omega

section

variable {ctx : Context} {s₁ s₂ : NodeState} {p : UInt256}

variable (h : SameChain s₁ s₂ p)
include h

theorem SameChain.index_eq {q : UInt256} {i : CBlockIndex}
    (hq : IsAncestor s₁.parent q p) (hi : s₁.mapBlockIndex q = some i) :
    ∃ i', s₂.mapBlockIndex q = some i' ∧ i'.unlinked = i.unlinked := by
  have hmap := h.entries q hq
  rw [hi] at hmap
  rcases hi' : s₂.mapBlockIndex q with _ | i'
  · rw [hi'] at hmap
    simp at hmap
  · rw [hi'] at hmap
    exact ⟨i', rfl, (Option.some.inj hmap).symm⟩

theorem SameChain.index_none {q : UInt256}
    (hq : IsAncestor s₁.parent q p) (hi : s₁.mapBlockIndex q = none) :
    s₂.mapBlockIndex q = none := by
  have hmap := h.entries q hq
  rw [hi, Option.map_none] at hmap
  exact Option.map_eq_none_iff.mp hmap.symm

/-- Two nodes with the same chain count the same confirmations. -/
theorem SameChain.confirmedLoop_eq (txindex : CTxIndex)
    (nFromHeight nMaxDepth fuel : ℕ) (q : Option UInt256)
    (hq : ∀ q' ∈ q, IsAncestor s₁.parent q' p) :
    confirmedLoop s₁ txindex nFromHeight nMaxDepth fuel q
      = confirmedLoop s₂ txindex nFromHeight nMaxDepth fuel q := by
  induction fuel generalizing q with
  | zero => cases q <;> rfl
  | succ fuel ih =>
    rcases q with _ | q
    · rfl
    · have hanc := hq q rfl
      unfold confirmedLoop NodeState.index
      rw [Option.bind_some, Option.bind_some]
      rcases hi : s₁.mapBlockIndex q with _ | i
      · rw [h.index_none hanc hi]
        rfl
      · obtain ⟨i', hi', hlink⟩ := h.index_eq hanc hi
        obtain ⟨hpos, hfile, hheight, hprev⟩ : i'.nBlockPos = i.nBlockPos ∧ i'.nFile = i.nFile ∧
            i'.nHeight = i.nHeight ∧ i'.pprev = i.pprev :=
          ⟨(congrArg CBlockIndex.nBlockPos hlink :), (congrArg CBlockIndex.nFile hlink :),
            (congrArg CBlockIndex.nHeight hlink :), (congrArg CBlockIndex.pprev hlink :)⟩
        have hrest := ih i.pprev fun q' hq' => by
          have hstep : s₁.parent q = some q' := by
            unfold NodeState.parent
            rw [hi]
            exact hq'
          exact Relation.ReflTransGen.tail hanc hstep
        rw [hi']
        change (if ((nFromHeight : ℤ) - i.nHeight) < nMaxDepth then
            if i.nBlockPos = txindex.pos.nBlockPos ∧ i.nFile = txindex.pos.nFile then .ok true
            else confirmedLoop s₁ txindex nFromHeight nMaxDepth fuel i.pprev
          else .ok false)
          = (if ((nFromHeight : ℤ) - i'.nHeight) < nMaxDepth then
            if i'.nBlockPos = txindex.pos.nBlockPos ∧ i'.nFile = txindex.pos.nFile then .ok true
            else confirmedLoop s₂ txindex nFromHeight nMaxDepth fuel i'.pprev
          else .ok false)
        rw [hpos, hfile, hheight, hprev, hrest]

theorem SameChain.isConfirmed_eq (txindex : CTxIndex) (nMaxDepth : ℕ) :
    IsConfirmedInNPrevBlocks s₁ txindex (s₁.mapBlockIndex p) nMaxDepth
      = IsConfirmedInNPrevBlocks s₂ txindex (s₂.mapBlockIndex p) nMaxDepth := by
  have hself : IsAncestor s₁.parent p p := IsAncestor.refl _ p
  unfold IsConfirmedInNPrevBlocks
  rcases hi : s₁.mapBlockIndex p with _ | i
  · rw [h.index_none hself hi]
  · obtain ⟨i', hi', hlink⟩ := h.index_eq hself hi
    have hrest := h.confirmedLoop_eq txindex i.nHeight nMaxDepth (i.nHeight + 1) i.pprev
      fun q hq => by
        refine Relation.ReflTransGen.single ?_
        unfold NodeState.parent
        rw [hi]
        exact hq
    rw [hi']
    dsimp only
    rw [hrest, show i'.nBlockPos = i.nBlockPos from (congrArg CBlockIndex.nBlockPos hlink :),
      show i'.nFile = i.nFile from (congrArg CBlockIndex.nFile hlink :),
      show i'.nHeight = i.nHeight from (congrArg CBlockIndex.nHeight hlink :),
      show i'.pprev = i.pprev from (congrArg CBlockIndex.pprev hlink :)]

theorem SameChain.getCoinAge_eq (tx : CTransaction) :
    GetCoinAge ctx s₁ tx (s₁.mapBlockIndex p) = GetCoinAge ctx s₂ tx (s₂.mapBlockIndex p) := by
  have hage : coinAgeOf ctx s₁ tx (s₁.mapBlockIndex p)
      = coinAgeOf ctx s₂ tx (s₂.mapBlockIndex p) := by
    funext txin
    unfold coinAgeOf
    rw [readTxIndex_eq, readTxIndex_eq, h.txIndex]
    simp only [h.isConfirmed_eq]
  unfold GetCoinAge
  rw [hage]

theorem SameChain.checkReward_eq {P best₁ best₂ : CBlockIndex}
    (hP : s₁.mapBlockIndex p = some P) (hbest₁ : s₁.index s₁.pindexBest = .ok best₁)
    (hbest₂ : s₂.index s₂.pindexBest = .ok best₂)
    (hside : SameSide ctx best₁ best₂ (P.nHeight + 1)) (block : CBlock) {i : CBlockIndex}
    (hprev : i.pprev = some p) (hheight : i.nHeight = P.nHeight + 1) {acc : ConnectAcc}
    (hfees : wrap64 acc.nFees = acc.nFees) :
    checkReward ctx s₁ block i acc = checkReward ctx s₂ block i acc := by
  have hrew : blockReward ctx s₁ (P.nHeight + 1) acc.nFees
      = blockReward ctx s₂ (P.nHeight + 1) acc.nFees := by
    rw [blockReward_eq _ hbest₁ hfees, blockReward_eq _ hbest₂ hfees,
      (subsidy_eq_iff ctx best₁ best₂ _).mpr hside]
  obtain ⟨P', hP', hlink⟩ := h.index_eq (IsAncestor.refl _ p) hP
  have hPheight : P'.nHeight = P.nHeight := (congrArg CBlockIndex.nHeight hlink :)
  have hidx₁ : s₁.index (some p) = .ok P := by
    unfold NodeState.index
    rw [Option.bind_some, hP]
  have hidx₂ : s₂.index (some p) = .ok P' := by
    unfold NodeState.index
    rw [Option.bind_some, hP']
  unfold checkReward
  split
  · unfold GetProofOfWorkReward
    rw [hheight, hrew]
  · rw [hprev, Option.bind_some, Option.bind_some, h.getCoinAge_eq, hidx₁, hidx₂]
    generalize GetCoinAge ctx s₂ _ (s₂.mapBlockIndex p) = nCoinAge
    rcases nCoinAge with e | (_ | nCoinAge)
    · rfl
    · rfl
    · change (blockReward ctx s₁ (P.nHeight + 1) acc.nFees).bind _
        = (blockReward ctx s₂ (P'.nHeight + 1) acc.nFees).bind _
      rw [hPheight, hrew]
  · rfl

end

/-- On a common chain up to the previous block, two nodes have the same limits for the next block
exactly when their best blocks lie on the same side of the thresholds, and then they give the same
verdict on what it pays itself. -/
theorem rewardLimits_agree_iff {ctx : Context} {s₁ s₂ : NodeState} {p : UInt256}
    {P P' best₁ best₂ : CBlockIndex} {nFees : ℤ} (hchain : SameChain s₁ s₂ p)
    (hP : s₁.mapBlockIndex p = some P) (hP' : s₂.mapBlockIndex p = some P')
    (hbest₁ : s₁.index s₁.pindexBest = .ok best₁) (hbest₂ : s₂.index s₂.pindexBest = .ok best₂)
    (hfees : wrap64 nFees = nFees) :
    ((GetProofOfWorkReward ctx s₁ (P.nHeight + 1) nFees
          = GetProofOfWorkReward ctx s₂ (P.nHeight + 1) nFees ∧
        ∀ nCoinAge, GetProofOfStakeReward ctx s₁ P nCoinAge nFees
          = GetProofOfStakeReward ctx s₂ P' nCoinAge nFees) ↔
      SameSide ctx best₁ best₂ (P.nHeight + 1)) ∧
    (SameSide ctx best₁ best₂ (P.nHeight + 1) →
      ∀ (block : CBlock) (i : CBlockIndex) (acc : ConnectAcc), i.pprev = some p →
        i.nHeight = P.nHeight + 1 → acc.nFees = nFees →
        checkReward ctx s₁ block i acc = checkReward ctx s₂ block i acc) := by
  constructor
  · obtain ⟨i', hi', hlink⟩ := hchain.index_eq (IsAncestor.refl _ p) hP
    obtain rfl : i' = P' := Option.some.inj (hi'.symm.trans hP')
    have hheight : i'.nHeight = P.nHeight := (congrArg CBlockIndex.nHeight hlink :)
    unfold GetProofOfWorkReward GetProofOfStakeReward
    rw [hheight, blockReward_eq _ hbest₁ hfees, blockReward_eq _ hbest₂ hfees,
      ← subsidy_eq_iff, ← wrap64_subsidy_inj ctx best₁ best₂ _ nFees]
    constructor
    · rintro ⟨hlimit, -⟩
      exact Except.ok.inj hlimit
    · intro hlimit
      rw [hlimit]
      exact ⟨rfl, fun _ => rfl⟩
  · intro hside block i acc hprev hheight hacc
    exact hchain.checkReward_eq hP hbest₁ hbest₂ hside block hprev hheight (by rw [hacc, hfees])

def reserveIndex (nHeight : ℕ) : CBlockIndex :=
  { plainIndex (UInt32.ofNat (nHeight + 1)) nHeight
      (if nHeight = 0 then none else some (BitVec.ofNat 256 (nHeight - 1)))
      (plainBlock (UInt32.ofNat nHeight) (UInt32.ofNat (nHeight - 1)) 0 []) with
    nMoneySupply :=
      if nHeight = 0 then 0 else nBlockStandardReward + (nHeight - 1) * nBlockRewardReserve }

/-- A node that knows this chain up to height 101, and a block that competes with the last one and
pays itself less. Its best block is one of the two. -/
def reserveNode (best : UInt256) : NodeState :=
  { emptyNode with
    mapBlockIndex := fun h =>
      if h = 1000 then
        some { reserveIndex 101 with
          nNonce := 1000, nMoneySupply := nBlockStandardReward + 99 * nBlockRewardReserve + COIN }
      else if h.toNat ≤ 101 then some (reserveIndex h.toNat) else none
    pindexGenesisBlock := some 0
    pindexBest := some best
    hashBestChain := best
    nBestHeight := 101 }

def reserveContext : Context :=
  plainContext (BlockFiles.ofBlocks (fun _ => none) noBlocks_small) 0 true

def reserveBlock : CBlock :=
  plainBlock 102 101 0 [plainTx 102 [coinbaseInput] [payTo nBlockRewardReserve]]

/-- The best blocks of the two nodes are on different sides, and their limits differ. -/
theorem reserveNodes_disagree :
    ¬(GetProofOfWorkReward reserveContext (reserveNode 101) (101 + 1) 0
          = GetProofOfWorkReward reserveContext (reserveNode 1000) (101 + 1) 0 ∧
        ∀ nCoinAge, GetProofOfStakeReward reserveContext (reserveNode 101) (reserveIndex 101)
            nCoinAge 0
          = GetProofOfStakeReward reserveContext (reserveNode 1000) (reserveIndex 101)
            nCoinAge 0) := by
  have hchain : SameChain (reserveNode 101) (reserveNode 1000) 101 := ⟨rfl, fun _ _ => rfl⟩
  refine (rewardLimits_agree_iff (p := 101) hchain rfl rfl rfl rfl (by decide)).1.not.mpr ?_
  unfold SameSide
  decide

/-- Two nodes with the same chain up to height 101, one of which has its last block as the best block
and the other a competing one: the same block pays itself too much for the first, and not for the
second. -/
theorem reserveNodes_diverge :
    SameChain (reserveNode 101) (reserveNode 1000) 101 ∧
      GetProofOfWorkReward reserveContext (reserveNode 101) 102 0 = .ok nBlockStandardReward ∧
      GetProofOfWorkReward reserveContext (reserveNode 1000) 102 0 = .ok nBlockRewardReserve ∧
      GetProofOfStakeReward reserveContext (reserveNode 101) (reserveIndex 101) 0 0
        = .ok nBlockStandardReward ∧
      GetProofOfStakeReward reserveContext (reserveNode 1000) (reserveIndex 101) 0 0
        = .ok nBlockRewardReserve ∧
      checkReward reserveContext (reserveNode 101) reserveBlock (reserveIndex 102)
          (ConnectAcc.start reserveBlock (reserveIndex 102) false)
        = .error (.reject 50 "ConnectBlock() : coinbase reward exceeded") ∧
      checkReward reserveContext (reserveNode 1000) reserveBlock (reserveIndex 102)
          (ConnectAcc.start reserveBlock (reserveIndex 102) false) = .ok () := by
  refine ⟨⟨rfl, fun _ _ => rfl⟩, ?_⟩
  decide

end ZalemCoin.Chain
