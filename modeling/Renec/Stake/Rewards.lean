import Renec.Stake.State
import Renec.Vote.State

/-!
# Stake rewards

What a stake has earned since it was last redeemed, and how it is paid out
(`programs/stake/src/stake_state.rs`).

An overflow of the arithmetic panics, and so does a conversion to `u64` that does not fit.
-/

namespace Renec

/-- A rewards round: lamports to be awarded over points. -/
structure PointValue where
  rewards : ℕ
  points : ℕ
  deriving DecidableEq

/-- The voter's and the staker's part of an amount, and whether both should get something. -/
def VoteState.commissionSplit (s : VoteState) (on : ℕ) : ℕ × ℕ × Bool :=
  match min s.commission 100 with
  | 0 => (0, on, false)
  | 100 => (on, 0, false)
  | split => (on * split / 100 % 2 ^ 64, on * (100 - split) / 100 % 2 ^ 64, true)

namespace Stake

variable (ops : FloatOps)

/-- The credits of an epoch that a stake has not observed. -/
def earnedCredits (creditsInStake newCreditsObserved finalEpochCredits initialEpochCredits : ℕ) :
    Option ℕ :=
  -- the staker observed the entire epoch
  if creditsInStake < initialEpochCredits then checkedSub finalEpochCredits initialEpochCredits
  -- the staker registered sometime during the epoch, partial credit
  else if creditsInStake < finalEpochCredits then checkedSub finalEpochCredits newCreditsObserved
  -- already observed or redeemed, or activated after this epoch
  else some 0

variable (s : Stake) (rewardedEpoch : Epoch) (pointValue : PointValue) (voteState : VoteState)
  (history : Option StakeHistory)

/-- One epoch of the vote account: the points so far and the new credits observed. -/
def addEpochPoints (sum : ℕ × ℕ) (entry : Epoch × ℕ × ℕ) : Option (ℕ × ℕ) := do
  let (points, newCreditsObserved) := sum
  let (epoch, finalEpochCredits, initialEpochCredits) := entry
  let stakeAmount ← s.delegation.effectiveStake ops epoch history
  let earned ← earnedCredits s.creditsObserved newCreditsObserved finalEpochCredits
    initialEpochCredits
  let earnedPoints ← checkedMul 128 stakeAmount earned
  return (← checkedAdd 128 points earnedPoints, max newCreditsObserved finalEpochCredits)

/-- How many points were earned, and the new value for the credits observed were they paid. -/
def calculateStakePointsAndCredits (newVoteState : VoteState) (history : Option StakeHistory) :
    Option (ℕ × ℕ) :=
  -- if there is no newer credits since observed, return no point
  if newVoteState.credits ≤ s.creditsObserved then some (0, s.creditsObserved)
  else newVoteState.epochCredits.foldlM (s.addEpochPoints ops history) (0, s.creditsObserved)

/-- The reward for some points, unless it is less than a lamport on a side that should be paid. -/
def splitRewards (pointValue : PointValue) (points creditsObserved : ℕ) :
    Option (Option (ℕ × ℕ × ℕ)) := do
  let rewards := (← checkedMul 128 points pointValue.rewards) / pointValue.points
  if rewards ≥ 2 ^ 64 then none
  else if rewards = 0 then return none
  else
    let (voterRewards, stakerRewards, isSplit) := voteState.commissionSplit rewards
    if (voterRewards = 0 ∨ stakerRewards = 0) ∧ isSplit then return none
    else return some (stakerRewards, voterRewards, creditsObserved)

/-- The distributions and updates to be made: the staker's and the voter's reward, and the new
credits observed. The inner option is that of the source: no payout. -/
def calculateStakeRewards : Option (Option (ℕ × ℕ × ℕ)) := do
  let (points, creditsObserved) ← s.calculateStakePointsAndCredits ops voteState history
  -- drive the credits forward when rewards are disabled or the stake was just activated
  if pointValue.rewards = 0 ∨ s.delegation.activationEpoch = rewardedEpoch then
    return some (0, 0, creditsObserved)
  else if points = 0 ∨ pointValue.points = 0 then return none
  else splitRewards voteState pointValue points creditsObserved

/-- Pay out a stake: the stake after it, and the staker's and the voter's reward. -/
def redeemStakeRewards : Option (Option (Stake × ℕ × ℕ)) := do
  match ← s.calculateStakeRewards ops rewardedEpoch pointValue voteState history with
  | none => return none
  | some (stakersReward, votersReward, creditsObserved) =>
    let stake ← checkedAdd 64 s.delegation.stake stakersReward
    return some (⟨{ s.delegation with stake := stake }, creditsObserved⟩, stakersReward,
      votersReward)

end Stake

end Renec
