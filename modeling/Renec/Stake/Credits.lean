import Renec.Stake.Program

/-!
# The credits of a merged stake

A merge averages the credits observed by the two stakes, weighted by the stakes and rounded up.
Rewards are paid for the credits that a stake has not observed, so the rounding decides who keeps
the fraction: what the merged stake can still claim is at most what the two could claim, and less
by under one credit for each unit of stake (`claimable_merged_le`).
-/

namespace Renec.StakeProgram.MergeKind

open Option Nat

variable {s₁ s₂ c₁ c₂ c₃ V : ℕ}

/-- A weighted average rounded up: not under the average, and over it by less than one. -/
def RoundsUp (s₁ s₂ c₁ c₂ c₃ : ℕ) : Prop :=
  c₁ * s₁ + c₂ * s₂ ≤ c₃ * (s₁ + s₂) ∧ c₃ * (s₁ + s₂) < c₁ * s₁ + c₂ * s₂ + (s₁ + s₂)

lemma roundsUp_ceilDiv (hpos : 0 < s₁ + s₂) :
    RoundsUp s₁ s₂ c₁ c₂ ((c₁ * s₁ + c₂ * s₂) ⌈/⌉ (s₁ + s₂)) := by
  have hle := div_mul_le_self (c₁ * s₁ + c₂ * s₂ + (s₁ + s₂) - 1) (s₁ + s₂)
  have hlt := lt_div_mul_add (a := c₁ * s₁ + c₂ * s₂ + (s₁ + s₂) - 1) hpos
  rw [RoundsUp, ceilDiv_eq_add_pred_div]
  omega

lemma RoundsUp.between (h : RoundsUp s₁ s₂ c₁ c₂ c₃) : min c₁ c₂ ≤ c₃ ∧ c₃ ≤ max c₁ c₂ := by
  obtain ⟨hle, hlt⟩ := h
  have hlow : min c₁ c₂ * (s₁ + s₂) ≤ c₁ * s₁ + c₂ * s₂ := by
    rw [Nat.mul_add]
    gcongr
    · exact min_le_left _ _
    · exact min_le_right _ _
  have hhigh : c₁ * s₁ + c₂ * s₂ ≤ max c₁ c₂ * (s₁ + s₂) := by
    rw [Nat.mul_add]
    gcongr
    · exact le_max_left _ _
    · exact le_max_right _ _
  refine ⟨Nat.le_of_mul_le_mul_right (hlow.trans hle) (by omega), Nat.lt_succ_iff.mp ?_⟩
  refine Nat.lt_of_mul_lt_mul_right (a := s₁ + s₂) ?_
  rw [Nat.succ_mul]
  omega

lemma RoundsUp.claimable (h : RoundsUp s₁ s₂ c₁ c₂ c₃) (hV : max c₁ c₂ ≤ V) :
    (V - c₃) * (s₁ + s₂) ≤ (V - c₁) * s₁ + (V - c₂) * s₂ ∧
      (V - c₁) * s₁ + (V - c₂) * s₂ < (V - c₃) * (s₁ + s₂) + (s₁ + s₂) := by
  obtain ⟨hle, hlt⟩ := h
  have h₁ := mul_le_mul_right s₁ ((le_max_left _ _).trans hV)
  have h₂ := mul_le_mul_right s₂ ((le_max_right _ _).trans hV)
  have h₃ := mul_le_mul_right (s₁ + s₂) ((RoundsUp.between ⟨hle, hlt⟩).2.trans hV)
  rw [Nat.sub_mul, Nat.sub_mul, Nat.sub_mul, Nat.mul_add V] at *
  omega

variable {d : Delegation}

lemma stakeWeightedCreditsObserved_eq_some (hne : c₁ ≠ c₂) (hc₁ : c₁ ≤ u64Max)
    (hc₂ : c₂ ≤ u64Max) : stakeWeightedCreditsObserved ⟨d, c₁⟩ s₂ c₂ = some c₃ ↔
      d.stake + s₂ < 2 ^ 64 ∧ 0 < d.stake + s₂ ∧
        (c₁ * d.stake + c₂ * s₂) ⌈/⌉ (d.stake + s₂) = c₃ := by
  rw [stakeWeightedCreditsObserved, if_neg hne, ceilDiv_eq_add_pred_div]
  simp only [bind_eq_some, checkedAdd_eq_some, checkedMul_eq_some, checkedSub_eq_some,
    ite_none_left_eq_some, ite_none_right_eq_some, some.injEq]
  constructor
  · rintro ⟨_, ⟨hlt, rfl⟩, _, ⟨-, rfl⟩, _, ⟨-, rfl⟩, _, ⟨-, rfl⟩, _, ⟨-, rfl⟩, _, ⟨-, rfl⟩, hpos,
      -, heq⟩
    exact ⟨hlt, pos_of_ne_zero hpos, heq⟩
  rintro ⟨hlt, hpos, rfl⟩
  -- the weighted credits are at most `u64::MAX` times the total stake
  have h₁ := mul_le_mul_right d.stake hc₁
  have h₂ := mul_le_mul_right s₂ hc₂
  have hmax := mul_le_mul_left u64Max (le_of_lt_succ hlt)
  rw [mul_add] at hmax
  have hsquare : u64Max * (2 ^ 64 - 1) + 2 ^ 64 < 2 ^ 128 := by decide
  refine ⟨_, ⟨hlt, rfl⟩, _, ⟨by omega, rfl⟩, _, ⟨by omega, rfl⟩, _, ⟨by omega, rfl⟩, _,
    ⟨by omega, rfl⟩, _, ⟨by omega, rfl⟩, hpos.ne', ?_, rfl⟩
  rw [← ceilDiv_eq_add_pred_div]
  exact (roundsUp_ceilDiv hpos).between.2.trans_lt (max_lt (lt_succ_of_le hc₁)
    (lt_succ_of_le hc₂))

lemma ceilDiv_of_eq_some (hc₁ : c₁ ≤ u64Max) (hc₂ : c₂ ≤ u64Max) (hpos : 0 < d.stake + s₂)
    (h : stakeWeightedCreditsObserved ⟨d, c₁⟩ s₂ c₂ = some c₃) :
    c₃ = (c₁ * d.stake + c₂ * s₂) ⌈/⌉ (d.stake + s₂) := by
  by_cases hne : c₁ = c₂
  · rw [stakeWeightedCreditsObserved, if_pos hne] at h
    cases h
    rw [← hne, ← mul_add, mul_comm]
    exact (smul_ceilDiv hpos c₁).symm
  · exact ((stakeWeightedCreditsObserved_eq_some hne hc₁ hc₂).mp h).2.2.symm

/-- **Merging never increases what can be claimed.** The credits of the merged stake are the
stake-weighted average rounded up, they lie between the credits of the two stakes, and what the
merged stake can claim of any vote credits is at most what the two could, short of it by less than
the total stake. There is no result only if the total stake overflows or is zero. -/
theorem claimable_merged_le (d : Delegation) (s₂ c₁ c₂ : ℕ) (hc₁ : c₁ ≤ u64Max)
    (hc₂ : c₂ ≤ u64Max) :
    (∀ c₃, stakeWeightedCreditsObserved ⟨d, c₁⟩ s₂ c₂ = some c₃ →
      (0 < d.stake + s₂ → c₃ = (c₁ * d.stake + c₂ * s₂) ⌈/⌉ (d.stake + s₂)) ∧
      (min c₁ c₂ ≤ c₃ ∧ c₃ ≤ max c₁ c₂) ∧
      ∀ V, max c₁ c₂ ≤ V →
        (V - c₃) * (d.stake + s₂) ≤ (V - c₁) * d.stake + (V - c₂) * s₂ ∧
        (0 < d.stake + s₂ →
          (V - c₁) * d.stake + (V - c₂) * s₂ < (V - c₃) * (d.stake + s₂) + (d.stake + s₂))) ∧
    (stakeWeightedCreditsObserved ⟨d, c₁⟩ s₂ c₂ = none →
      2 ^ 64 ≤ d.stake + s₂ ∨ d.stake + s₂ = 0) := by
  refine ⟨fun c₃ h ↦ ?_, fun h ↦ ?_⟩
  · rcases Nat.eq_zero_or_pos (d.stake + s₂) with hzero | hpos
    · have heq : c₁ = c₂ := by
        by_contra hne
        obtain ⟨-, hpos, -⟩ := (stakeWeightedCreditsObserved_eq_some hne hc₁ hc₂).mp h
        exact hpos.ne' hzero
      rw [stakeWeightedCreditsObserved, if_pos heq] at h
      cases h
      rw [hzero]
      exact ⟨nofun, ⟨min_le_left _ _, le_max_left _ _⟩, fun V _ ↦ ⟨Nat.zero_le _, nofun⟩⟩
    obtain rfl := ceilDiv_of_eq_some hc₁ hc₂ hpos h
    have hrounds := @roundsUp_ceilDiv d.stake s₂ c₁ c₂ hpos
    exact ⟨fun _ ↦ rfl, hrounds.between, fun V hV ↦
      ⟨(hrounds.claimable hV).1, fun _ ↦ (hrounds.claimable hV).2⟩⟩
  by_contra hnot
  rw [not_or, not_le] at hnot
  have hne : c₁ ≠ c₂ := by
    intro heq
    rw [stakeWeightedCreditsObserved, if_pos heq] at h
    cases h
  have hsome := (stakeWeightedCreditsObserved_eq_some hne hc₁ hc₂).mpr
    ⟨hnot.1, Nat.pos_of_ne_zero hnot.2, rfl⟩
  rw [h] at hsome
  cases hsome

/-- Two stakes of 1 and 2 with 0 and 2 credits observed: 4 / 3 is rounded up to 2. -/
theorem claimable_merged_le_two : ∃ c₃,
    stakeWeightedCreditsObserved ⟨.new default 1 0 0, 0⟩ 2 2 = some c₃ ∧
      (5 - c₃) * (1 + 2) ≤ (5 - 0) * 1 + (5 - 2) * 2 :=
  ⟨2, by decide, (((claimable_merged_le (.new default 1 0 0) 2 0 2 (zero_le _) (by decide)).1 2
    (by decide)).2.2 5 (by decide)).1⟩

/-- Nothing staked and the same credits: the credits are returned, and the shortfall 0 is not
under the total stake 0. -/
theorem claimable_nothing_staked :
    stakeWeightedCreditsObserved ⟨.new default 0 0 0, 0⟩ 0 0 = some 0 ∧
      ¬(0 - 0) * 0 + (0 - 0) * 0 < (0 - 0) * (0 + 0) + (0 + 0) := by
  decide

end Renec.StakeProgram.MergeKind
