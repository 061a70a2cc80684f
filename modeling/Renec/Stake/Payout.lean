import Renec.Stake.Effects

/-!
# The payout of an epoch's rewards

At the end of an epoch the bank pays out inflation rewards in two passes over the stakes
(`pay_validator_rewards` of `runtime/src/bank.rs`): the first sums up the points of all stakes, the
second redeems every stake with the value of a point so found.
-/

namespace Renec

open Option StakeProgram
open List hiding pure_def set sum

/-! ### The two passes -/

section

variable (ops : FloatOps) (history : Option StakeHistory)

def StakeState.calculatePoints (state : StakeState) (voteState : VoteState) :
    Outcome InstructionError ℕ :=
  match state with
  | .stake _ s => .ofOption ((s.calculateStakePointsAndCredits ops voteState history).map Prod.fst)
  | _ => .err .invalidAccountData

/-- A stake account, with the state of the vote account it is delegated to. -/
structure StakeDelegation where
  stakePubkey : Pubkey
  voteState : VoteState

variable (accounts : StakeAccounts)

/-- The points of a delegation; one that cannot be calculated has none. -/
def StakeDelegation.points (d : StakeDelegation) : Option ℕ :=
  match (accounts d.stakePubkey).state with
  | none => some 0
  | some state =>
    match state.calculatePoints ops history d.voteState with
    | .ok points => some points
    | .err _ => some 0
    | .panic => none

/-- The first pass: the sum of the points, a `u128`. -/
def totalPoints (delegations : List StakeDelegation) : Option ℕ :=
  delegations.foldlM (fun sum d ↦ do checkedAdd 128 sum (← d.points ops history accounts)) 0

/-- The second pass: the staker's and the voter's reward of a delegation, if it is redeemed. -/
def StakeDelegation.payout (rewardedEpoch : Epoch) (pointValue : PointValue) (d : StakeDelegation) :
    ℕ :=
  match redeemRewards ops rewardedEpoch d.stakePubkey d.voteState pointValue history accounts with
  | some (.ok (stakersReward, votersReward), _) => stakersReward + votersReward
  | _ => 0

end

/-! ### The split of a reward -/

variable {voter staker : ℕ}

/-- The commission: at most a lamport of a reward is lost in the split. -/
theorem VoteState.commissionSplit_sum (s : VoteState) {reward : ℕ} {isSplit : Bool}
    (hreward : reward < 2 ^ 64) (h : s.commissionSplit reward = (voter, staker, isSplit)) :
    voter + staker ≤ reward ∧ reward ≤ voter + staker + 1 := by
  have hcommission : min s.commission 100 ≤ 100 := min_le_right _ _
  unfold commissionSplit at h
  split at h
  · obtain ⟨rfl, rfl, -⟩ := h
    omega
  · obtain ⟨rfl, rfl, -⟩ := h
    omega
  have hshare : ∀ c ≤ 100, reward * c / 100 ≤ reward := fun c hc ↦ by
    refine Nat.div_le_of_le_mul ?_
    rw [Nat.mul_comm]
    exact Nat.mul_le_mul_right _ hc
  have hvoter := hshare _ hcommission
  have hstaker := hshare (100 - min s.commission 100) (Nat.sub_le _ _)
  have hsum : reward * min s.commission 100 + reward * (100 - min s.commission 100) =
      reward * 100 := by
    rw [← Nat.mul_add, Nat.add_sub_cancel' hcommission]
  rw [Nat.mod_eq_of_lt (hvoter.trans_lt hreward), Nat.mod_eq_of_lt (hstaker.trans_lt hreward)] at h
  obtain ⟨rfl, rfl, -⟩ := h
  omega

variable {history : Option StakeHistory} {pointValue : PointValue} {rewardedEpoch : Epoch}
  {ops : FloatOps}

namespace Stake

variable {s : Stake} {voteState : VoteState} {points credits : ℕ}

lemma splitRewards_eq_some {observed : ℕ}
    (h : splitRewards voteState pointValue points credits = some (some (staker, voter, observed))) :
    staker + voter ≤ points * pointValue.rewards / pointValue.points := by
  simp only [splitRewards, bind_eq_some, checkedMul_eq_some] at h
  obtain ⟨_, ⟨-, rfl⟩, h⟩ := h
  set reward := points * pointValue.rewards / pointValue.points
  rcases hsplit : voteState.commissionSplit reward with ⟨voter', staker', isSplit⟩
  rw [hsplit] at h
  split_ifs at h with hbig hzero hlost
  · simp at h
  · simp at h
  simp only [pure_def, some.injEq, Prod.mk.injEq] at h
  obtain ⟨rfl, rfl, -⟩ := h
  have := (voteState.commissionSplit_sum (not_le.mp hbig) hsplit).1
  omega

lemma calculateStakeRewards_le {observed : ℕ}
    (h : s.calculateStakeRewards ops rewardedEpoch pointValue voteState history =
      some (some (staker, voter, observed))) :
    ∃ points credits, s.calculateStakePointsAndCredits ops voteState history =
        some (points, credits) ∧
      staker + voter ≤ points * pointValue.rewards / pointValue.points := by
  simp only [calculateStakeRewards, bind_eq_some] at h
  obtain ⟨⟨points, credits⟩, hpoints, h⟩ := h
  refine ⟨points, credits, hpoints, ?_⟩
  split_ifs at h with hskipped hnone
  · simp only [pure_def, some.injEq, Prod.mk.injEq] at h
    obtain ⟨rfl, rfl, -⟩ := h
    exact Nat.zero_le _
  · simp at h
  · exact splitRewards_eq_some h

/-- If the shares fit into `u64`, the calculation of a payout panics only where the product of the
points and the rewards does not fit into `u128`. -/
theorem calculateStakeRewards_eq_none
    (hpoints : s.calculateStakePointsAndCredits ops voteState history = some (points, credits))
    (hfits : points * pointValue.rewards / pointValue.points < 2 ^ 64)
    (h : s.calculateStakeRewards ops rewardedEpoch pointValue voteState history = none) :
    2 ^ 128 ≤ points * pointValue.rewards := by
  rw [calculateStakeRewards, hpoints] at h
  by_contra hlt
  have hmul : checkedMul 128 points pointValue.rewards = some (points * pointValue.rewards) :=
    checkedMul_eq_some.mpr ⟨not_le.mp hlt, rfl⟩
  simp only [some_bind, splitRewards, hmul, if_neg (not_le.mpr hfits)]
    at h
  split_ifs at h

end Stake

/-! ### The sum of the payouts -/

section

variable {accounts accounts' : StakeAccounts} {d : StakeDelegation}
  {delegations : List StakeDelegation} {n : ℕ}

lemma StakeDelegation.points_of_stake {data : Meta} {stake : Stake}
    (hstate : (accounts d.stakePubkey).state = some (.stake data stake))
    (h : d.points ops history accounts = some n) :
    ∃ credits, stake.calculateStakePointsAndCredits ops d.voteState history =
      some (n, credits) := by
  rw [points, hstate] at h
  simp only [StakeState.calculatePoints] at h
  rcases hpoints : stake.calculateStakePointsAndCredits ops d.voteState history with - | ⟨p, c⟩
  · rw [hpoints] at h
    cases h
  rw [hpoints] at h
  cases h
  exact ⟨c, rfl⟩

lemma StakeDelegation.payout_le (h : d.points ops history accounts = some n) :
    d.payout ops history accounts rewardedEpoch pointValue ≤
      n * pointValue.rewards / pointValue.points := by
  unfold payout
  split
  · rename_i stakersReward votersReward accounts' hredeem
    obtain ⟨data, stake, stake', hstate, hpayout, -⟩ := redeemRewards_eq_ok hredeem
    obtain ⟨credits, hpoints⟩ := points_of_stake hstate h
    simp only [Stake.redeemStakeRewards, bind_eq_some] at hpayout
    obtain ⟨rewards, hrewards, hpayout⟩ := hpayout
    cases rewards with
    | none => simp at hpayout
    | some rewards =>
      simp only [bind_eq_some, checkedAdd_eq_some, pure_def, some.injEq, Prod.mk.injEq] at hpayout
      obtain ⟨_, -, -, rfl, rfl⟩ := hpayout
      obtain ⟨points, _, hpoints', hle⟩ := Stake.calculateStakeRewards_le hrewards
      rw [hpoints] at hpoints'
      obtain ⟨rfl, -⟩ := some.inj hpoints'
      exact hle
  · exact Nat.zero_le _

variable {total : ℕ}

lemma exists_points_of_foldlM {sum : ℕ}
    (h : delegations.foldlM
      (fun sum d ↦ do checkedAdd 128 sum (← d.points ops history accounts)) sum = some total) :
    ∃ points : StakeDelegation → ℕ,
      (∀ d ∈ delegations, d.points ops history accounts = some (points d)) ∧
      sum + (delegations.map points).sum = total := by
  refine ⟨fun d ↦ (d.points ops history accounts).getD 0, ?_⟩
  induction delegations generalizing sum with
  | nil => exact ⟨forall_mem_nil _, some.inj h⟩
  | cons d delegations ih =>
    simp only [foldlM_cons, bind_eq_some, checkedAdd_eq_some] at h
    obtain ⟨_, ⟨n, hn, -, rfl⟩, h⟩ := h
    obtain ⟨hpoints, hsum⟩ := ih h
    refine ⟨forall_mem_cons.mpr ⟨by simp only [hn, getD_some], hpoints⟩, ?_⟩
    rw [map_cons, sum_cons, hn, getD_some, ← Nat.add_assoc]
    exact hsum

lemma sum_shares_le {α : Type} {l : List α} {points : α → ℕ} {rewards : ℕ}
    (htotal : (l.map points).sum = total) :
    (l.map fun a ↦ points a * rewards / total).sum ≤ rewards := by
  rcases Nat.eq_zero_or_pos total with rfl | hpos
  · simp
  have hmul : (l.map fun a ↦ points a * rewards / total).sum * total ≤
      (l.map points).sum * rewards := by
    rw [← sum_map_mul_right, ← sum_map_mul_right]
    exact sum_le_sum fun a _ ↦ Nat.div_mul_le_self _ _
  rw [htotal, Nat.mul_comm total] at hmul
  exact Nat.le_of_mul_le_mul_right hmul hpos

/-- **Payouts never exceed the rewards of the epoch.** With the points of all delegations as the
points of a round: the rewards paid are at most those of the round; a share fits into `u64`, and
panics only where its points times the rewards exceed `u128`; every reward is split with at most a
lamport lost; and what is redeemed raises the delegation and the lamports of the account by the
staker's reward. -/
theorem payouts_bounded (hrewards : pointValue.rewards < 2 ^ 64)
    (htotal : totalPoints ops history accounts delegations = some pointValue.points) :
    (delegations.map (StakeDelegation.payout ops history accounts rewardedEpoch pointValue)).sum ≤
      pointValue.rewards ∧
    (∀ d ∈ delegations, ∀ data stake, (accounts d.stakePubkey).state = some (.stake data stake) →
      ∃ points credits,
        stake.calculateStakePointsAndCredits ops d.voteState history = some (points, credits) ∧
        points * pointValue.rewards / pointValue.points < 2 ^ 64 ∧
        (stake.calculateStakeRewards ops rewardedEpoch pointValue d.voteState history = none →
          2 ^ 128 ≤ points * pointValue.rewards)) ∧
    (∀ (s : VoteState) (reward voter staker : ℕ) (isSplit : Bool), reward < 2 ^ 64 →
      s.commissionSplit reward = (voter, staker, isSplit) →
      voter + staker ≤ reward ∧ reward ≤ voter + staker + 1) ∧
    ∀ d ∈ delegations, ∀ stakersReward votersReward accounts',
      redeemRewards ops rewardedEpoch d.stakePubkey d.voteState pointValue history
        accounts = some (.ok (stakersReward, votersReward), accounts') →
      ∃ data stake stake', (accounts d.stakePubkey).state = some (.stake data stake) ∧
        (accounts' d.stakePubkey).state = some (.stake data stake') ∧ stake'.delegation =
          { stake.delegation with stake := stake.delegation.stake + stakersReward } ∧
        (accounts' d.stakePubkey).lamports = (accounts d.stakePubkey).lamports + stakersReward := by
  obtain ⟨points, hpoints, hsum⟩ := exists_points_of_foldlM htotal
  rw [Nat.zero_add] at hsum
  refine ⟨?_, fun d hd data stake hstate ↦ ?_, fun s reward voter staker isSplit ↦
    s.commissionSplit_sum, fun d hd stakersReward votersReward accounts' hredeem ↦ ?_⟩
  · calc (delegations.map (StakeDelegation.payout ops history accounts rewardedEpoch
          pointValue)).sum
      _ ≤ (delegations.map fun d ↦ points d * pointValue.rewards / pointValue.points).sum :=
        sum_le_sum fun d hd ↦ StakeDelegation.payout_le (hpoints d hd)
      _ ≤ pointValue.rewards := sum_shares_le hsum
  · obtain ⟨credits, hcalculate⟩ := StakeDelegation.points_of_stake hstate (hpoints d hd)
    have hle : points d ≤ pointValue.points := by
      rw [← hsum]
      exact single_le_sum (fun _ _ ↦ Nat.zero_le _) _ (List.mem_map_of_mem hd)
    have hfits : points d * pointValue.rewards / pointValue.points < 2 ^ 64 :=
      lt_of_le_of_lt (Nat.div_le_of_le_mul (Nat.mul_le_mul_right _ hle)) hrewards
    exact ⟨points d, credits, hcalculate, hfits,
      Stake.calculateStakeRewards_eq_none hcalculate hfits⟩
  obtain ⟨data, stake, stake', hstate, hpayout, rfl⟩ := redeemRewards_eq_ok hredeem
  refine ⟨data, stake, stake', hstate, ?_, redeemStakeRewards_eq_some hpayout, ?_⟩
  · simp
  · simp

/-- A bootstrap stake of 1000 lamports in every account. -/
def sampleAccounts : StakeAccounts := fun _ ↦
  ⟨stakeProgramId, 1100, stakeStateSize, some (.stake ⟨100, ⟨default, default⟩, default⟩
    ⟨Delegation.new default 1000 u64Max 0, 0⟩)⟩

/-- A vote account with a commission of 10 percent and three credits. -/
def sampleDelegation (n : ℕ) : StakeDelegation :=
  ⟨⟨BitVec.ofNat 256 n⟩, { (default : VoteState) with commission := 10, epochCredits :=
    [(0, 3, 0)] }⟩

/-- Two stakes with the same points share a round. -/
theorem payouts_bounded_two : totalPoints ⟨fun _ _ _ _ ↦ 0, fun _ _ ↦ true⟩ none sampleAccounts
        [sampleDelegation 1, sampleDelegation 2] = some 6000 ∧
      StakeDelegation.payout ⟨fun _ _ _ _ ↦ 0, fun _ _ ↦ true⟩ none sampleAccounts 1 ⟨101, 6000⟩
        (sampleDelegation 1) = 50 ∧
      ([sampleDelegation 1, sampleDelegation 2].map (StakeDelegation.payout
        ⟨fun _ _ _ _ ↦ 0, fun _ _ ↦ true⟩ none sampleAccounts 1 ⟨101, 6000⟩)).sum ≤ 101 := by
  have htotal : totalPoints ⟨fun _ _ _ _ ↦ 0, fun _ _ ↦ true⟩ none sampleAccounts
      [sampleDelegation 1, sampleDelegation 2] = some 6000 := by decide +kernel
  exact ⟨htotal, by decide +kernel, (payouts_bounded (by decide) htotal).1⟩

end

end Renec
