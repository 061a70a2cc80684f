import Renec.Consensus.Tower

/-!
# The lockout check

A slot is locked out if a vote that is still in force at it is on another fork. The check does not
ask this: it pops votes from the top of the stack until one is in force, and compares everything
below. On the towers of histories the two agree, as their votes are a chain (`lockout_check_exact`).
-/

namespace Renec

open List Option VoteState

variable {slot : Slot}

lemma VoteState.exists_popExpiredFrom {votes : List Lockout}
    (h : ∀ v ∈ votes, v.expiry < 2 ^ 64) : ∃ kept, popExpiredFrom slot votes = some kept := by
  induction votes with
  | nil => exact ⟨[], rfl⟩
  | cons vote older ih =>
    rw [forall_mem_cons] at h
    rw [popExpiredFrom, Lockout.isLockedOutAtSlot_eq_some.mpr ⟨h.1, rfl⟩]
    simp only [some_bind]
    split_ifs
    · exact ⟨_, rfl⟩
    · exact ih h.2

/-- A vote is processed if the lockouts and the credits are in range. -/
theorem VoteState.exists_processNextVoteSlot {s : VoteState} (epoch : Epoch)
    (hfits : ∀ v ∈ s.votes, v.expiry < 2 ^ 64) (hcredits : s.credits + 1 < 2 ^ 64) :
    ∃ s', s.processNextVoteSlot slot epoch = some s' := by
  rw [processNextVoteSlot]
  split_ifs
  · exact ⟨s, rfl⟩
  obtain ⟨kept, hkept⟩ := @exists_popExpiredFrom slot s.votes.reverse
    fun v hv ↦ hfits v (mem_reverse.mp hv)
  have hpop : popExpiredVotes s.votes slot = some kept.reverse := by
    rw [popExpiredVotes, hkept]
    rfl
  obtain ⟨s₁, hs₁⟩ : ∃ s₁, { s with votes := kept.reverse }.rootOldest epoch = some s₁ := by
    rw [rootOldest]
    split_ifs with hfull
    · split
      · simp_all [maxLockoutHistory]
      · exact exists_incrementCredits epoch hcredits
    · exact ⟨_, rfl⟩
  rw [hpop, some_bind, hs₁]
  exact ⟨_, rfl⟩

section

variable {F : Forest Slot} {s s' : VoteState} {rooted : Option Lockout} {kept popped : List Lockout}
  (h : VoteStep s s' slot rooted kept popped)
  (hchain : (s.votes.map Lockout.slot).Pairwise F.IsAncestor)

include h

/-- Raising the confirmations does not matter to the check. -/
theorem VoteState.VoteStep.conflicts_iff (hnew : ∀ v ∈ s.votes, v.slot < slot) :
    (∃ v ∈ s'.votes, slot ≠ v.slot ∧ ¬F.IsAncestor v.slot slot) ↔
      ∃ u ∈ kept, ¬F.IsAncestor u.slot slot := by
  constructor
  · rintro ⟨v, hv, hne, hnot⟩
    obtain hslot | ⟨u, hu, hslot, -⟩ := h.mem_votes hv
    · exact absurd hslot.symm hne
    · exact ⟨u, hu, hslot ▸ hnot⟩
  rintro ⟨u, hu, hnot⟩
  obtain ⟨v, hv, hslot, -⟩ := h.exists_of_mem_kept hu
  exact ⟨v, hv, hslot ▸ (hnew u (h.mem_of_mem_kept hu)).ne', hslot ▸ hnot⟩

include hchain

/-- The vote that becomes the root has votes above it. -/
theorem VoteState.VoteStep.exists_above_rooted {v : Lockout} (hv : v ∈ rooted) :
    ∃ u ∈ kept, F.IsAncestor v.slot u.slot := by
  obtain rfl : rooted = some v := hv
  have hfull := h.full_iff.mp rfl
  obtain ⟨u, hu⟩ : ∃ u, u ∈ kept :=
    exists_mem_of_length_pos (by simp [maxLockoutHistory] at hfull; omega)
  rw [h.votes_eq, append_assoc, pairwise_map] at hchain
  exact ⟨u, hu, (pairwise_append.mp hchain).2.2 v mem_cons_self u (mem_append_left _ hu)⟩

/-- Popping from the top is enough: votes are a chain, so the last one in force decides. -/
theorem VoteState.VoteStep.conflicts_iff_inForce :
    (∃ u ∈ kept, ¬F.IsAncestor u.slot slot) ↔
      ∃ v ∈ s.votes, slot ≤ v.expiry ∧ ¬F.IsAncestor v.slot slot := by
  constructor
  · rintro ⟨u, hu, hnot⟩
    obtain rfl | ⟨below, last, rfl⟩ := eq_nil_or_concat' kept
    · exact absurd hu not_mem_nil
    refine ⟨last, h.mem_of_mem_kept (by simp), h.locked_kept last (by simp), fun hlast ↦ ?_⟩
    have hkept := (pairwise_map.mp hchain).sublist h.kept_infix.sublist
    obtain hu | rfl : u ∈ below ∨ u = last := by simpa using hu
    · exact hnot (hlast.trans ((pairwise_append.mp hkept).2.2 u hu last (by simp)))
    · exact hnot hlast
  rintro ⟨v, hv, hle, hnot⟩
  rw [h.votes_eq, append_assoc, mem_append, mem_append] at hv
  obtain hv | hv | hv := hv
  · obtain ⟨u, hu, hanc⟩ := h.exists_above_rooted hchain (mem_toList.mp hv)
    exact ⟨u, hu, fun hslot ↦ hnot (hslot.trans hanc)⟩
  · exact ⟨v, hv, hnot⟩
  · exact absurd hle (not_le.mpr (h.expired v hv))

end

namespace Tower

variable {F : Forest Slot} {start t : Tower} {history : List (Slot × Tower)} {r : Slot}

/-- The check in terms of the vote state with the vote. -/
theorem isLockedOut_eq {s : VoteState} {ancestors : Finset Slot}
    (hnew : t.voteState.isOldSlot slot = false)
    (hs : t.voteState.processNextVoteSlot slot t.voteState.currentEpoch = some s)
    (hroot : (∀ v ∈ s.votes, slot ≠ v.slot → v.slot ∈ ancestors) →
      ∀ r ∈ s.rootSlot, r ∈ ancestors) :
    t.isLockedOut slot ancestors =
      some (s.votes.any fun v ↦ decide (slot ≠ v.slot ∧ v.slot ∉ ancestors)) := by
  rw [isLockedOut, isRecent_eq_true.mpr hnew, processSlotVoteUnchecked,
    processVoteUnchecked_single hnew, hs]
  simp only [Bool.not_true, Bool.false_eq_true, if_false, some_bind]
  cases hany : s.votes.any fun v ↦ decide (slot ≠ v.slot ∧ v.slot ∉ ancestors) with
  | true => rfl
  | false =>
    simp only [List.any_eq_false, decide_eq_true_eq, not_and, not_not] at hany
    rw [if_neg Bool.false_ne_true, if_neg]
    · rfl
    cases h : s.rootSlot with
    | none => simp
    | some r => simp [hroot hany r h]

/-- **The lockout check is exact.** On the tower of any history, a slot above the votes is found to
be locked out exactly if a vote is in force at it that is not among its ancestors. -/
theorem lockout_check_exact (hvotes : start.voteState.votes = [])
    (hroot : start.voteState.rootSlot = some r) (h : History F start history)
    (hnew : ∀ v ∈ (current start history).voteState.votes, v.slot < slot)
    (hroots : ∀ r ∈ (current start history).voteState.rootSlot, F.IsAncestor r slot)
    (hfits : ∀ v ∈ (current start history).voteState.votes, v.expiry < 2 ^ 64)
    (hcredits : (current start history).voteState.credits + 1 < 2 ^ 64) :
    ∃ b, (current start history).isLockedOut slot (F.ancestors slot) = some b ∧
      (b = true ↔ ∃ v ∈ (current start history).voteState.votes,
        slot ≤ v.expiry ∧ ¬F.IsAncestor v.slot slot) := by
  have hchain := (h.safe hvotes hroot).votes_chain
  generalize current start history = t at *
  have hold : t.voteState.isOldSlot slot = false :=
    isOldSlot_eq_false.mpr fun v hv ↦ hnew v (mem_of_getLast? hv)
  obtain ⟨s, hs⟩ := @exists_processNextVoteSlot slot _ t.voteState.currentEpoch hfits hcredits
  obtain ⟨hcontra, -⟩ | ⟨rooted, kept, popped, hstep⟩ := processNextVoteSlot_cases hs
  · exact absurd hcontra (by simp [hold])
  refine ⟨_, isLockedOut_eq hold hs fun hall r hr ↦ ?_, ?_⟩
  · -- the assertion: the root was one before, or is a vote below those that passed the loop
    rw [Forest.mem_ancestors_iff]
    rw [hstep.root_eq] at hr
    cases rooted with
    | none => exact hroots r hr
    | some v =>
      obtain rfl : v.slot = r := by simpa using hr
      obtain ⟨u, hu, hanc⟩ := hstep.exists_above_rooted hchain rfl
      refine Relation.TransGen.trans ?_ hanc
      by_contra hnot
      obtain ⟨w, hw, hne, hout⟩ := (hstep.conflicts_iff hnew).mpr ⟨u, hu, hnot⟩
      have hin := hall w hw hne
      rw [Forest.mem_ancestors_iff] at hin
      exact hout hin
  simp only [List.any_eq_true, decide_eq_true_eq, Forest.mem_ancestors_iff]
  rw [hstep.conflicts_iff hnew, hstep.conflicts_iff_inForce hchain]

/-- Two forks from the root: the slots 1 and 2, and the slots from 3 on. -/
def twoForks : Forest Slot where
  parent n := if n = 0 then none else if n = 3 then some 0 else some (n - 1)
  parent_lt := by
    intro n p h
    split_ifs at h with hzero hthree
    · cases h
      exact Nat.pos_of_ne_zero hzero
    cases h
    exact Nat.sub_one_lt hzero

/-- With the votes 1 and 2 in force to 5 and 4, slot 3 of the other fork is locked out and slot 6
is not. -/
theorem lockout_check_exact_two_forks : ∃ history, History twoForks freshTower history ∧
    history.map Prod.fst = [2, 1] ∧
    (current freshTower history).isLockedOut 3 (twoForks.ancestors 3) = some true ∧
    (current freshTower history).isLockedOut 6 (twoForks.ancestors 6) = some false := by
  have hhist := @history_two twoForks rfl rfl
  have hanc₃ : twoForks.ancestors 3 = {0} := by
    rw [twoForks.ancestors_of_some (p := 0) rfl, twoForks.ancestors_of_none rfl]
    rfl
  have hanc₆ : twoForks.ancestors 6 = {5, 4, 3, 0} := by
    rw [twoForks.ancestors_of_some (p := 5) rfl, twoForks.ancestors_of_some (p := 4) rfl,
      twoForks.ancestors_of_some (p := 3) rfl, hanc₃]
  have hroot {slot : Slot} (hslot : 0 ∈ twoForks.ancestors slot) (r : Slot) (hr : r ∈ some 0) :
      twoForks.IsAncestor r slot := by
    obtain rfl : 0 = r := Option.some.inj hr
    exact twoForks.mem_ancestors_iff.mp hslot
  refine ⟨_, hhist, rfl, ?_, ?_⟩
  · obtain ⟨b, hb, hiff⟩ := @lockout_check_exact 3 _ _ _ 0 rfl rfl hhist (by decide)
      (hroot (by rw [hanc₃]; decide)) (by decide) (by decide)
    rw [hb, hiff.mpr ⟨⟨2, 1⟩, by decide, by decide, fun h ↦ ?_⟩]
    rw [← twoForks.mem_ancestors_iff, hanc₃] at h
    exact absurd h (by decide)
  obtain ⟨b, hb, hiff⟩ := @lockout_check_exact 6 _ _ _ 0 rfl rfl hhist (by decide)
    (hroot (by rw [hanc₆]; decide)) (by decide) (by decide)
  have hpast : ∀ v ∈ [(⟨1, 2⟩ : Lockout), ⟨2, 1⟩], ¬6 ≤ v.expiry := by decide
  cases b with
  | false => exact hb
  | true =>
    obtain ⟨v, hv, hle, -⟩ := hiff.mp rfl
    exact absurd hle (hpast v hv)

end Tower

end Renec
