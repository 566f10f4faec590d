import ZalemCoin.Chain.State

/-!
# Block rewards

The subsidy of a block is the standard reward or, on a draw that is seeded by the block before the
best block, a larger one; while the supply is small it is the reserve, and in the first block it is
nothing when the supply is over its cap. The supply and the draw are those of the best block.
-/

namespace ZalemCoin.Chain

open Lib

def nBlockRewardReserve : ℤ := 990000 * COIN

def nBlockStandardReward : ℤ := 99 * COIN

def nBlockSuperReward : ℤ := 300 * COIN

/-- The height from which on blocks are paid from the reserve. -/
def nReservePhaseStart : ℕ := 1

/-- The number that seven of the hexadecimal digits of a hash stand for. -/
def rewardSeed (prevHash : UInt256) : ℕ := prevHash.toNat / 16 ^ 50 % 16 ^ 7

variable (ctx : Context)

/-- The draw for the reward of the next block, from the block before the best block. -/
def randreward (s : NodeState) : Except Failure ℕ := do
  let best ← s.index s.pindexBest
  pure (ctx.generateMTRandom (rewardSeed (best.pprev.getD 0)) 1000000)

/-- The reward for a block at a height: the body of the two functions below, which differ in where
they take the height from. -/
def blockReward (s : NodeState) (nHeight : ℕ) (nFees : ℤ) : Except Failure ℤ := do
  let rand1 ← randreward ctx s
  let best ← s.index s.pindexBest
  let nSubsidy := if rand1 ≤ 50000 then nBlockSuperReward else nBlockStandardReward
  if nHeight > nReservePhaseStart then
    if best.nMoneySupply < nBlockRewardReserve * 100 then
      pure (wrap64 (nBlockRewardReserve + nFees))
    else pure (wrap64 (nSubsidy + nFees))
  else if best.nMoneySupply > MAX_SINGLE_TX then pure nFees
  else pure (wrap64 (nSubsidy + nFees))

def GetProofOfWorkReward (s : NodeState) (nHeight : ℕ) (nFees : ℤ) :
    Except Failure ℤ :=
  blockReward ctx s nHeight nFees

def GetProofOfStakeReward (s : NodeState) (pindexPrev : CBlockIndex)
    (_nCoinAge : ℕ) (nFees : ℤ) : Except Failure ℤ :=
  blockReward ctx s (pindexPrev.nHeight + 1) nFees

/-- The masternodes' share of a reward. -/
def GetFloatingcityPayment (blockValue : ℤ) : ℤ := (blockValue * 63).tdiv 100

/-- The developers' share of a reward. -/
def GetDevOpsPayment (blockValue : ℤ) : ℤ := (blockValue * 7).tdiv 100

end ZalemCoin.Chain
