import Renec.Machine.Outcome
import Renec.Sdk.Types

/-!
# Stake that has voted for a block

For every block the vote listener counts the stake of those who have voted for it
(`core/src/vote_stake_tracker.rs`, `core/src/cluster_info_vote_listener.rs`). Each voter counts
once, and the vote that takes the stake past a threshold is the only one that reports it
(`thresholds_reached_once`).
-/

namespace Renec

open List

structure VoteStakeTracker where
  voted : Finset Pubkey
  stake : ℕ
  deriving DecidableEq

instance : Inhabited VoteStakeTracker := ⟨∅, 0⟩

/-- The thresholds that are newly reached, and whether the vote is new. -/
def VoteStakeTracker.addVotePubkey {α : Type*} (thresholdStake : ℕ → α → ℕ) (t : VoteStakeTracker)
    (votePubkey : Pubkey) (stake totalStake : ℕ) (thresholdsToCheck : List α) :
    Option ((List Bool × Bool) × VoteStakeTracker) :=
  if votePubkey ∉ t.voted then do
    let newStake ← checkedAdd 64 t.stake stake
    return ((thresholdsToCheck.map fun threshold ↦
      decide (t.stake ≤ thresholdStake totalStake threshold ∧
        thresholdStake totalStake threshold < newStake), true),
      ⟨insert votePubkey t.voted, newStake⟩)
  else some ((thresholdsToCheck.map fun _ ↦ false, false), t)

/-- One vote: a threshold is reported if it lies between the stake before and after it. -/
theorem VoteStakeTracker.addVotePubkey_spec {α : Type*} {thresholdStake : ℕ → α → ℕ}
    (t : VoteStakeTracker) {p : Pubkey} {stake : ℕ} (h : p ∉ t.voted → t.stake + stake < 2 ^ 64)
    (totalStake : ℕ) (thresholds : List α) :
    ∃ report t', t.addVotePubkey thresholdStake p stake totalStake thresholds = some (report, t') ∧
      t'.voted = insert p t.voted ∧ t'.stake = t.stake + (if p ∈ t.voted then 0 else stake) ∧
      ∀ (i : ℕ) (threshold : α), thresholds[i]? = some threshold →
        (report.1[i]? = some true ↔ t.stake ≤ thresholdStake totalStake threshold ∧
          thresholdStake totalStake threshold < t'.stake) := by
  by_cases hold : p ∈ t.voted
  · refine ⟨_, t, if_neg (not_not.mpr hold), (Finset.insert_eq_of_mem hold).symm, ?_, ?_⟩
    · rw [if_pos hold, Nat.add_zero]
    intro i threshold hi
    exact iff_of_false (by simp [getElem?_replicate]) (by omega)
  have hadd := checkedAdd_eq_some.mpr ⟨h hold, rfl⟩
  refine ⟨_, _, by rw [addVotePubkey, if_pos hold, hadd]; rfl, rfl, ?_, ?_⟩
  · rw [if_neg hold]
  intro i threshold hi
  simp [hi]

/-- The trackers by slot and hash; one that is not there yet is made when a vote comes. -/
abbrev VoteTracker := Slot × Hash → VoteStakeTracker

/-- A vote for a block, with the thresholds it reached and whether it was new. -/
abbrev VoteReport := ((Slot × Hash) × Pubkey) × List Bool × Bool

/-- The thresholds, with the stake that each is of a total (the source multiplies in floating
point), and the stakes of the epoch of a slot. -/
structure VoteContext (α : Type*) where
  thresholdsToCheck : List α
  thresholdStake : ℕ → α → ℕ
  stake : Slot → Pubkey → ℕ
  totalEpochStake : Slot → ℕ

/-- Those who have voted for a block. -/
def votersOf (votes : List ((Slot × Hash) × Pubkey)) (block : Slot × Hash) : Finset Pubkey :=
  ((votes.filter fun vote ↦ vote.1 = block).map Prod.snd).toFinset

lemma votersOf_concat (votes : List ((Slot × Hash) × Pubkey)) (vote : (Slot × Hash) × Pubkey)
    (block : Slot × Hash) : votersOf (votes ++ [vote]) block =
      if vote.1 = block then insert vote.2 (votersOf votes block) else votersOf votes block := by
  rw [votersOf, votersOf, filter_append, map_append, toFinset_append]
  split_ifs with h
  · simp [h]
  · simp [h]

namespace VoteContext

variable {α : Type*} (ctx : VoteContext α)

/-- A vote for a block; its report is put to those of the votes before. -/
def trackOptimisticConfirmationVote (state : VoteTracker × List VoteReport)
    (vote : (Slot × Hash) × Pubkey) : Option (VoteTracker × List VoteReport) := do
  let (report, t) ← (state.1 vote.1).addVotePubkey ctx.thresholdStake vote.2
    (ctx.stake vote.1.1 vote.2) (ctx.totalEpochStake vote.1.1) ctx.thresholdsToCheck
  return (Function.update state.1 vote.1 t, state.2 ++ [(vote, report)])

def trackVotes (votes : List ((Slot × Hash) × Pubkey)) : Option (VoteTracker × List VoteReport) :=
  votes.foldlM ctx.trackOptimisticConfirmationVote (fun _ ↦ default, [])

/-- A block after some votes: its tracker has the voters and their stake, and a threshold was
reported by exactly one vote if the stake is past it, and else by none. -/
structure Tracked (votes : List ((Slot × Hash) × Pubkey)) (tracker : VoteTracker)
    (reports : List VoteReport) (block : Slot × Hash) : Prop where
  voted : (tracker block).voted = votersOf votes block
  stake_eq : (tracker block).stake = ∑ p ∈ votersOf votes block, ctx.stake block.1 p
  once : ∀ (i : ℕ) (threshold : α), ctx.thresholdsToCheck[i]? = some threshold →
    (reports.countP fun r ↦ decide (r.1.1 = block ∧ r.2.1[i]? = some true)) =
      if ctx.thresholdStake (ctx.totalEpochStake block.1) threshold < (tracker block).stake then 1
      else 0

variable {ctx} {votes : List ((Slot × Hash) × Pubkey)} {tracker : VoteTracker}
  {reports : List VoteReport}

/-- A vote keeps all blocks tracked, unless the stake of a block overflows. -/
theorem Tracked.vote (h : ∀ b, ctx.Tracked votes tracker reports b) {block : Slot × Hash}
    {p : Pubkey} (hfits : ∑ q ∈ insert p (votersOf votes block), ctx.stake block.1 q < 2 ^ 64) :
    ∃ tracker' reports', ctx.trackOptimisticConfirmationVote (tracker, reports) (block, p) =
        some (tracker', reports') ∧
      ∀ b, ctx.Tracked (votes ++ [(block, p)]) tracker' reports' b := by
  have hsum : ∑ q ∈ insert p (votersOf votes block), ctx.stake block.1 q =
      (tracker block).stake + if p ∈ (tracker block).voted then 0 else ctx.stake block.1 p := by
    rw [(h block).voted, (h block).stake_eq]
    split_ifs with hold
    · rw [Finset.insert_eq_of_mem hold, Nat.add_zero]
    · rw [Finset.sum_insert hold, Nat.add_comm]
  obtain ⟨report, t, hadd, hvoted, hstake, hreport⟩ := (tracker block).addVotePubkey_spec
    (fun hnew ↦ by rwa [hsum, if_neg hnew] at hfits) (ctx.totalEpochStake block.1)
    ctx.thresholdsToCheck
  refine ⟨Function.update tracker block t, reports ++ [((block, p), report)], ?_, fun b ↦ ?_⟩
  · rw [trackOptimisticConfirmationVote, hadd]
    rfl
  by_cases hb : block = b
  · subst hb
    refine ⟨?_, ?_, fun i threshold hi ↦ ?_⟩
    · rw [votersOf_concat, if_pos rfl, Function.update_self, hvoted, (h block).voted]
    · rw [votersOf_concat, if_pos rfl, Function.update_self, hstake, hsum]
    have hle : (tracker block).stake ≤ t.stake := hstake ▸ Nat.le_add_right _ _
    rw [Function.update_self, countP_append, (h block).once i threshold hi, countP_singleton]
    simp only [hreport i threshold hi, true_and, decide_eq_true_eq]
    split_ifs <;> omega
  refine ⟨?_, ?_, fun i threshold hi ↦ ?_⟩
  · rw [votersOf_concat, if_neg hb, Function.update_of_ne (Ne.symm hb), (h b).voted]
  · rw [votersOf_concat, if_neg hb, Function.update_of_ne (Ne.symm hb), (h b).stake_eq]
  rw [Function.update_of_ne (Ne.symm hb), countP_append, (h b).once i threshold hi]
  simp [hb]

/-- **Each voter counts once, and each threshold is reached once**, after any votes for any blocks,
in any order and with repetitions. -/
theorem thresholds_reached_once (ctx : VoteContext α) (votes : List ((Slot × Hash) × Pubkey))
    (hfits : ∀ slot (voters : Finset Pubkey), ∑ p ∈ voters, ctx.stake slot p < 2 ^ 64) :
    ∃ tracker reports, ctx.trackVotes votes = some (tracker, reports) ∧
      ∀ block, ctx.Tracked votes tracker reports block := by
  induction votes using reverseRecOn with
  | nil => exact ⟨_, _, rfl, fun block ↦ ⟨rfl, rfl, fun i threshold _ ↦ rfl⟩⟩
  | append_singleton votes vote ih =>
    obtain ⟨tracker, reports, hrun, h⟩ := ih
    obtain ⟨tracker', reports', hvote, h'⟩ := Tracked.vote (p := vote.2) h (hfits vote.1.1 _)
    refine ⟨tracker', reports', ?_, h'⟩
    rw [trackVotes, foldlM_append]
    rw [trackVotes] at hrun
    rw [hrun, some_bind, foldlM_cons, hvote]
    rfl

/-- A voter whose vote comes twice, after that of another one without stake. -/
theorem thresholds_reached_once_twice : ∃ tracker reports,
    (VoteContext.mk [2] (fun total part ↦ total * part / 3) (fun _ p ↦ if p = ⟨1⟩ then 5 else 0)
      fun _ ↦ 6).trackVotes [((7, ⟨0⟩), ⟨2⟩), ((7, ⟨0⟩), ⟨1⟩), ((7, ⟨0⟩), ⟨1⟩)] =
        some (tracker, reports) ∧
      (reports.countP fun r ↦ decide (r.1.1 = (7, ⟨0⟩) ∧ r.2.1[0]? = some true)) = 1 := by
  obtain ⟨tracker, reports, hrun, h⟩ := thresholds_reached_once (VoteContext.mk [2]
    (fun total part ↦ total * part / 3) (fun _ p ↦ if p = ⟨1⟩ then 5 else 0) fun _ ↦ 6)
    [((7, ⟨0⟩), ⟨2⟩), ((7, ⟨0⟩), ⟨1⟩), ((7, ⟨0⟩), ⟨1⟩)] fun slot voters ↦ by
      rw [Finset.sum_ite_eq']
      split_ifs <;> decide
  obtain ⟨-, hstake, honce⟩ := h (7, ⟨0⟩)
  exact ⟨tracker, reports, hrun, (honce 0 2 rfl).trans (by rw [hstake]; rfl)⟩

end VoteContext

end Renec
