import Renec.Vote.State

/-!
# The invariant of the lockout stack

What one call of `processNextVoteSlot` can do is said once, in `VoteStep`: a suffix of the votes
expires, at most one vote is rooted from the front, and the new vote is pushed with the lockouts
doubled below it.
-/

namespace Renec

open List Option Lockout

variable {slot : Slot}

namespace Lockout

/-- The last slot at which the vote is locked out, as a number. -/
def expiry (l : Lockout) : ℕ := l.slot + 2 ^ l.confirmationCount

variable {l : Lockout}

@[simp] lemma lastLockedOutSlot_eq_some {e : Slot} :
    l.lastLockedOutSlot = some e ↔ l.expiry < 2 ^ 64 ∧ l.expiry = e := by
  simp only [lastLockedOutSlot, lockout, initialLockout, expiry, bind_eq_some, checkedPow_eq_some,
    checkedAdd_eq_some]
  constructor
  · rintro ⟨_, ⟨-, rfl⟩, h⟩
    exact h
  rintro ⟨h, he⟩
  exact ⟨_, ⟨by omega, rfl⟩, h, he⟩

@[simp] lemma isLockedOutAtSlot_eq_some {b : Bool} :
    l.isLockedOutAtSlot slot = some b ↔ l.expiry < 2 ^ 64 ∧ decide (slot ≤ l.expiry) = b := by
  simp only [isLockedOutAtSlot, bind_eq_some, lastLockedOutSlot_eq_some, pure_eq_some]
  constructor
  · rintro ⟨_, ⟨h, rfl⟩, hb⟩
    exact ⟨h, hb⟩
  rintro ⟨h, hb⟩
  exact ⟨_, ⟨h, rfl⟩, hb⟩

lemma slot_lt_expiry (l : Lockout) : l.slot < l.expiry :=
  Nat.lt_add_of_pos_right (Nat.two_pow_pos _)

lemma expiry_mono {m : Lockout} (hs : l.slot = m.slot)
    (hc : l.confirmationCount ≤ m.confirmationCount) : l.expiry ≤ m.expiry := by
  rw [expiry, expiry, hs]
  exact Nat.add_le_add_left (Nat.pow_le_pow_right (by omega) hc) _

end Lockout

namespace VoteState

/-! ### What one vote does -/

variable {votes kept : List Lockout}

lemma popExpiredVotes_spec (h : popExpiredVotes votes slot = some kept) :
    ∃ popped, votes = kept ++ popped ∧ (∀ v ∈ popped, v.expiry < slot) ∧
      ∀ v ∈ kept.getLast?, slot ≤ v.expiry := by
  -- the loop runs on the reversed deque, so the induction does
  suffices hrev : ∀ (l k : List Lockout), popExpiredFrom slot l = some k →
      ∃ popped, l = popped ++ k ∧ (∀ v ∈ popped, v.expiry < slot) ∧
        ∀ v ∈ k.head?, slot ≤ v.expiry by
    simp only [popExpiredVotes, bind_eq_some, pure_eq_some] at h
    obtain ⟨k, hk, rfl⟩ := h
    obtain ⟨popped, hl, hexp, hlast⟩ := hrev _ _ hk
    refine ⟨popped.reverse, ?_, fun v hv ↦ hexp v (mem_reverse.1 hv), ?_⟩
    · rw [← reverse_append, ← hl, reverse_reverse]
    · rwa [getLast?_reverse]
  intro l
  induction l with
  | nil =>
    intro k hk
    obtain rfl : [] = k := by simpa [popExpiredFrom] using hk
    exact ⟨[], rfl, by simp, by simp⟩
  | cons vote older ih =>
    intro k hk
    simp only [popExpiredFrom, bind_eq_some, isLockedOutAtSlot_eq_some] at hk
    obtain ⟨b, ⟨-, rfl⟩, hk⟩ := hk
    by_cases hlock : slot ≤ vote.expiry
    · simp only [hlock, decide_true, if_true, pure_eq_some] at hk
      subst hk
      exact ⟨[], rfl, by simp, by simpa using hlock⟩
    simp only [hlock, decide_false, Bool.false_eq_true, if_false] at hk
    obtain ⟨popped, rfl, hexp, hlast⟩ := ih k hk
    refine ⟨vote :: popped, rfl, ?_, hlast⟩
    exact forall_mem_cons.mpr ⟨Nat.lt_of_not_le hlock, hexp⟩

lemma exists_getLast?_openEpoch (s : VoteState) (epoch : Epoch) :
    ∃ e p, (openEpoch s.epochCredits epoch).getLast? = some (e, s.credits, p) := by
  unfold openEpoch credits
  rcases hlast : s.epochCredits.getLast? with - | ⟨last, c, p⟩
  · exact ⟨epoch, 0, rfl⟩
  by_cases hep : epoch = last
  · exact ⟨last, p, by simp [hep, hlast]⟩
  simp only [ne_eq, hep, not_false_eq_true, if_true]
  -- the entry is the last of a list, and stays the last when the oldest one is dropped
  have hkeep : ∀ (l : List (Epoch × ℕ × ℕ)) (q : ℕ),
      (if (l ++ [(epoch, c, q)]).length > maxEpochCreditsHistory then
        (l ++ [(epoch, c, q)]).drop 1 else l ++ [(epoch, c, q)]).getLast? =
        some (epoch, c, q) := by
    intro l q
    split
    · rename_i hlen
      simp only [maxEpochCreditsHistory, length_append, length_singleton] at hlen
      rw [getLast?_drop, if_neg, getLast?_concat]
      rw [length_append, length_singleton]
      omega
    · simp
  by_cases hc : c = p
  · exact ⟨epoch, p, by simpa only [hc, not_true_eq_false, if_false] using hkeep _ p⟩
  · exact ⟨epoch, c, by simpa only [hc, not_false_eq_true, if_true] using hkeep _ c⟩

variable {s s' : VoteState} {epoch : Epoch}

lemma incrementCredits_spec (h : s.incrementCredits epoch = some s') :
    s'.votes = s.votes ∧ s'.rootSlot = s.rootSlot ∧ s'.credits = s.credits + 1 := by
  obtain ⟨e, p, hlast⟩ := exists_getLast?_openEpoch s epoch
  simp only [incrementCredits, hlast, some_bind, bind_eq_some, checkedAdd_eq_some,
    pure_eq_some] at h
  obtain ⟨_, ⟨-, rfl⟩, rfl⟩ := h
  exact ⟨rfl, rfl, by simp [credits]⟩

lemma exists_incrementCredits (epoch : Epoch) (h : s.credits + 1 < 2 ^ 64) :
    ∃ s', s.incrementCredits epoch = some s' := by
  obtain ⟨e, p, hlast⟩ := exists_getLast?_openEpoch s epoch
  have hadd : checkedAdd 64 s.credits 1 = some (s.credits + 1) := if_pos h
  simp [incrementCredits, hlast, hadd]

/-- The effect of one vote that is not ignored: `popped` expires, `rooted` is the vote that leaves
a full stack at the front, and the new vote is pushed on what is left. -/
structure VoteStep (s s' : VoteState) (slot : Slot) (rooted : Option Lockout)
    (kept popped : List Lockout) : Prop where
  votes_eq : s.votes = rooted.toList ++ kept ++ popped
  new_slot : ∀ v ∈ s.votes.getLast?, v.slot < slot
  expired : ∀ v ∈ popped, v.expiry < slot
  locked : ∀ v ∈ (rooted.toList ++ kept).getLast?, slot ≤ v.expiry
  full_iff : rooted.isSome ↔ (rooted.toList ++ kept).length = maxLockoutHistory
  root_eq : s'.rootSlot = (rooted.map Lockout.slot).or s.rootSlot
  credits_eq : s'.credits = s.credits + rooted.toList.length
  votes_eq' : s'.votes = doubleLockouts (kept ++ [Lockout.new slot])

lemma isOldSlot_eq_false : s.isOldSlot slot = false ↔ ∀ v ∈ s.votes.getLast?, v.slot < slot := by
  rcases h : s.votes.getLast? with - | v <;> simp [isOldSlot, lastVotedSlot, lastLockout, h]

/-- One call: either the slot is old and nothing changes, or the call is a vote step. -/
theorem processNextVoteSlot_cases (h : s.processNextVoteSlot slot epoch = some s') :
    (s.isOldSlot slot = true ∧ s' = s) ∨
      ∃ rooted kept popped, VoteStep s s' slot rooted kept popped := by
  unfold processNextVoteSlot at h
  by_cases hold : s.isOldSlot slot = true
  · rw [if_pos hold] at h
    exact .inl ⟨hold, (some.inj h).symm⟩
  rw [if_neg hold] at h
  simp only [bind_eq_some, pure_eq_some] at h
  obtain ⟨votes, hpop, t, hroot, rfl⟩ := h
  obtain ⟨popped, hvotes, hexp, hlock⟩ := popExpiredVotes_spec hpop
  have hnew := isOldSlot_eq_false.1 (Bool.eq_false_iff.2 hold)
  unfold rootOldest at hroot
  by_cases hfull : votes.length = maxLockoutHistory
  · -- the stack is full: its oldest vote becomes the root
    simp only [hfull, if_true] at hroot
    rcases votes with - | ⟨vote, votes⟩
    · simp at hroot
    obtain ⟨hv, hr, hc⟩ := incrementCredits_spec hroot
    refine .inr ⟨some vote, votes, popped, hvotes, hnew, hexp, hlock, ?_, ?_, ?_, ?_⟩
    · simpa using hfull
    · simpa using hr
    · simpa [credits] using hc
    · simp [hv]
  simp only [hfull, if_false, some.injEq] at hroot
  subst hroot
  refine .inr ⟨none, votes, popped, hvotes, hnew, hexp, hlock, ?_, ?_, ?_, ?_⟩
  · simpa using hfull
  · simp
  · simp [credits]
  · simp

/-! ### Doubling -/

@[simp] lemma raise_slot (n i : ℕ) (v : Lockout) : (raise n i v).slot = v.slot := by
  unfold raise
  split <;> rfl

lemma le_raise (n i : ℕ) (v : Lockout) :
    v.confirmationCount ≤ (raise n i v).confirmationCount := by
  unfold raise
  split <;> simp

variable {v : Lockout}

lemma raise_le {n i m : ℕ} (hn : n ≤ m) (hv : v.confirmationCount ≤ m) :
    (raise n i v).confirmationCount ≤ m := by
  unfold raise
  split
  · show v.confirmationCount + 1 ≤ m
    omega
  · exact hv

variable {u : Lockout}

/-- Doubling keeps the counts strictly decreasing: a vote one ahead of a raised vote is raised as
well, and a vote level with the new one is raised above it. -/
theorem raise_lt_raise {n i j : ℕ} (hij : i < j) (hj : j < n)
    (h : v.confirmationCount < u.confirmationCount ∨
      v.confirmationCount = 1 ∧ 0 < u.confirmationCount ∧ j + 1 = n) :
    (raise n j v).confirmationCount < (raise n i u).confirmationCount := by
  unfold raise
  split <;> split <;> lia

lemma map_slot_doubleLockouts (l : List Lockout) :
    (doubleLockouts l).map Lockout.slot = l.map Lockout.slot := by
  refine ext_getElem (by simp [doubleLockouts]) fun i h₁ h₂ ↦ ?_
  simp [doubleLockouts]

variable {l : List Lockout}

lemma exists_of_mem_doubleLockouts (h : v ∈ doubleLockouts l) :
    ∃ u ∈ l, u.slot = v.slot ∧ u.confirmationCount ≤ v.confirmationCount := by
  obtain ⟨i, hi, rfl⟩ := mem_iff_getElem.1 h
  simp only [doubleLockouts, length_mapIdx] at hi
  refine ⟨l[i], getElem_mem hi, ?_⟩
  simp [doubleLockouts, le_raise]

lemma exists_mem_doubleLockouts (h : u ∈ l) :
    ∃ v ∈ doubleLockouts l, v.slot = u.slot ∧ u.confirmationCount ≤ v.confirmationCount := by
  obtain ⟨i, hi, rfl⟩ := mem_iff_getElem.1 h
  have hi' : i < (doubleLockouts l).length := by simpa [doubleLockouts] using hi
  refine ⟨(doubleLockouts l)[i], getElem_mem hi', ?_⟩
  simp [doubleLockouts, le_raise]

lemma getLast?_doubleLockouts_concat (l : List Lockout) (slot : Slot) :
    (doubleLockouts (l ++ [new slot])).getLast? = some (new slot) := by
  rw [getLast?_eq_getElem?, doubleLockouts, getElem?_mapIdx]
  simp [raise, new]

/-! ### The invariant -/

/-- The lockout stacks that votes build. -/
structure Stack (votes : List Lockout) : Prop where
  length_le : votes.length ≤ maxLockoutHistory
  slots_lt : votes.Pairwise fun a b ↦ a.slot < b.slot
  counts_gt : votes.Pairwise fun a b ↦ b.confirmationCount < a.confirmationCount
  count_pos : ∀ v ∈ votes, 0 < v.confirmationCount
  count_le : ∀ v ∈ votes, v.confirmationCount ≤ maxLockoutHistory
  locked : votes.IsChain fun a b ↦ b.slot ≤ a.expiry

lemma stack_nil : Stack [] where
  length_le := Nat.zero_le _
  slots_lt := Pairwise.nil
  counts_gt := Pairwise.nil
  count_pos := forall_mem_nil _
  count_le := forall_mem_nil _
  locked := IsChain.nil

lemma Stack.of_infix {rest : List Lockout} (hs : Stack votes) (h : rest <:+: votes) :
    Stack rest where
  length_le := h.length_le.trans hs.length_le
  slots_lt := hs.slots_lt.sublist h.sublist
  counts_gt := hs.counts_gt.sublist h.sublist
  count_pos := fun v hv ↦ hs.count_pos v (h.subset hv)
  count_le := fun v hv ↦ hs.count_le v (h.subset hv)
  locked := hs.locked.infix h

lemma le_slot_of_getLast? (hs : votes.Pairwise fun a b ↦ a.slot < b.slot) {last : Lockout}
    (hlast : votes.getLast? = some last) (hv : v ∈ votes) : v.slot ≤ last.slot := by
  obtain ⟨below, rfl⟩ := getLast?_eq_some_iff.1 hlast
  rcases mem_append.1 hv with hv | hv
  · exact ((pairwise_append.1 hs).2.2 v hv last (by simp)).le
  · rw [mem_singleton.1 hv]

variable {a b : Lockout}

lemma Stack.eq_of_slot_eq (hs : Stack votes) (ha : a ∈ votes) (hb : b ∈ votes)
    (h : a.slot = b.slot) : a = b := by
  have hnodup : (votes.map Lockout.slot).Nodup := pairwise_map.2 (hs.slots_lt.imp fun hlt ↦ hlt.ne)
  exact inj_on_of_nodup_map hnodup ha hb h

lemma counts_gt_doubleLockouts_concat (hs : Stack kept) :
    (doubleLockouts (kept ++ [new slot])).Pairwise
      fun a b ↦ b.confirmationCount < a.confirmationCount := by
  rw [pairwise_iff_getElem]
  intro i j hi hj hij
  simp only [doubleLockouts, length_mapIdx] at hi hj
  simp only [doubleLockouts, getElem_mapIdx]
  refine raise_lt_raise hij hj ?_
  simp only [length_append, length_singleton] at hi hj ⊢
  rw [getElem_append_left (by omega : i < kept.length)]
  rcases Nat.lt_or_ge j kept.length with hjk | hjk
  · -- both votes were on the stack before
    rw [getElem_append_left hjk]
    exact .inl (pairwise_iff_getElem.1 hs.counts_gt i j _ hjk hij)
  -- the upper vote is the new one
  rw [getElem_append_right hjk, getElem_singleton]
  exact .inr ⟨rfl, hs.count_pos _ (getElem_mem _), by omega⟩

lemma locked_doubleLockouts (h : l.IsChain fun a b ↦ b.slot ≤ a.expiry) :
    (doubleLockouts l).IsChain fun a b ↦ b.slot ≤ a.expiry := by
  rw [isChain_iff_getElem]
  intro i hi
  simp only [doubleLockouts, length_mapIdx] at hi
  simp only [doubleLockouts, getElem_mapIdx, raise_slot]
  exact (isChain_iff_getElem.1 h i hi).trans (expiry_mono (raise_slot _ _ _).symm (le_raise _ _ _))

/-- Pushing a vote above a stack whose last vote is locked out at it gives a stack. -/
theorem Stack.push (hs : Stack kept) (hlen : kept.length < maxLockoutHistory)
    (hslot : ∀ v ∈ kept, v.slot < slot) (hlock : ∀ v ∈ kept.getLast?, slot ≤ v.expiry) :
    Stack (doubleLockouts (kept ++ [new slot])) where
  length_le := by simpa [doubleLockouts] using Nat.succ_le_of_lt hlen
  slots_lt := by
    rw [← pairwise_map (f := Lockout.slot) (R := (· < ·)), map_slot_doubleLockouts,
      pairwise_map, pairwise_append]
    refine ⟨hs.slots_lt, pairwise_singleton _ _, ?_⟩
    intro a ha b hb
    rw [mem_singleton.1 hb]
    exact hslot a ha
  counts_gt := counts_gt_doubleLockouts_concat hs
  count_pos := by
    intro v hv
    obtain ⟨u, hu, -, hle⟩ := exists_of_mem_doubleLockouts hv
    rcases mem_append.1 hu with hu | hu
    · exact (hs.count_pos u hu).trans_le hle
    rw [mem_singleton.1 hu] at hle
    exact Nat.lt_of_lt_of_le Nat.one_pos hle
  count_le := by
    intro v hv
    obtain ⟨i, hi, rfl⟩ := mem_iff_getElem.1 hv
    simp only [doubleLockouts, length_mapIdx] at hi
    simp only [doubleLockouts, getElem_mapIdx]
    refine raise_le (by simpa using Nat.succ_le_of_lt hlen) ?_
    rcases mem_append.1 (getElem_mem hi) with hu | hu
    · exact hs.count_le _ hu
    rw [mem_singleton.1 hu]
    exact Nat.le_of_ble_eq_true rfl
  locked := by
    refine locked_doubleLockouts (isChain_append.2 ⟨hs.locked, isChain_singleton _, ?_⟩)
    intro a ha b hb
    simp only [head?_cons, mem_def, some.injEq] at hb
    subst hb
    exact hlock a ha

section

variable {rooted : Option Lockout} {popped : List Lockout}

lemma VoteStep.kept_infix (h : VoteStep s s' slot rooted kept popped) : kept <:+: s.votes :=
  ⟨rooted.toList, popped, h.votes_eq.symm⟩

section

variable (h : VoteStep s s' slot rooted kept popped)

include h

lemma VoteStep.mem_of_mem_kept (hv : v ∈ kept) : v ∈ s.votes := h.kept_infix.subset hv

lemma VoteStep.lt_slot (hs : Stack s.votes) (hv : v ∈ s.votes) : v.slot < slot := by
  rcases hlast : s.votes.getLast? with - | last
  · rw [getLast?_eq_none_iff.1 hlast] at hv
    exact absurd hv not_mem_nil
  · exact (le_slot_of_getLast? hs.slots_lt hlast hv).trans_lt (h.new_slot last hlast)

lemma VoteStep.length_kept (hs : Stack s.votes) : kept.length < maxLockoutHistory := by
  have hlen := hs.length_le
  rw [h.votes_eq, length_append] at hlen
  have hfull := h.full_iff
  rcases rooted with - | v
  · simp only [isSome_none, Bool.false_eq_true, false_iff, toList_none, nil_append] at hfull hlen
    omega
  simp only [isSome_some, true_iff, toList_some, singleton_append, length_cons] at hfull
  omega

lemma VoteStep.locked_kept : ∀ v ∈ kept.getLast?, slot ≤ v.expiry := by
  intro v hv
  refine h.locked v ?_
  obtain ⟨below, rfl⟩ := getLast?_eq_some_iff.1 hv
  rw [← append_assoc, getLast?_concat]
  rfl

/-- A vote keeps the stack a stack. -/
theorem VoteStep.stack (hs : Stack s.votes) : Stack s'.votes := by
  rw [h.votes_eq']
  exact (hs.of_infix h.kept_infix).push (h.length_kept hs)
    (fun v hv ↦ h.lt_slot hs (h.mem_of_mem_kept hv)) h.locked_kept

lemma VoteStep.getLast?_votes : s'.votes.getLast? = some (new slot) := by
  rw [h.votes_eq', getLast?_doubleLockouts_concat]

lemma VoteStep.mem_votes (hv : v ∈ s'.votes) :
    v.slot = slot ∨ ∃ u ∈ kept, u.slot = v.slot ∧ u.confirmationCount ≤ v.confirmationCount := by
  rw [h.votes_eq'] at hv
  obtain ⟨u, hu, hslot, hle⟩ := exists_of_mem_doubleLockouts hv
  rcases mem_append.1 hu with hu | hu
  · exact .inr ⟨u, hu, hslot, hle⟩
  rw [← hslot, mem_singleton.1 hu]
  exact .inl rfl

lemma VoteStep.exists_of_mem_kept (hu : u ∈ kept) :
    ∃ v ∈ s'.votes, v.slot = u.slot ∧ u.confirmationCount ≤ v.confirmationCount := by
  rw [h.votes_eq']
  exact exists_mem_doubleLockouts (mem_append_left _ hu)

lemma VoteStep.rooted_lt (hs : Stack s.votes) {r : Lockout} (hr : r ∈ rooted) (hu : u ∈ kept) :
    r.slot < u.slot := by
  have hlt := hs.slots_lt
  rw [h.votes_eq, mem_def.1 hr, toList_some, append_assoc, pairwise_append] at hlt
  exact hlt.2.2 r (mem_singleton_self r) u (mem_append_left _ hu)

lemma VoteStep.mem_of_mem_rooted {r : Lockout} (hr : r ∈ rooted) : r ∈ s.votes := by
  rw [h.votes_eq, mem_def.1 hr]
  simp

end

/-- The states reached from the empty one: a lockout stack above the root. -/
structure Grown (s : VoteState) : Prop where
  stack : Stack s.votes
  last_count : ∀ v ∈ s.votes.getLast?, v.confirmationCount = 1
  root_lt : ∀ r ∈ s.rootSlot, ∀ v ∈ s.votes, r < v.slot
  ne_nil : s.rootSlot.isSome → s.votes ≠ []
  /-- Every credit was earned by a root, and roots increase. -/
  credits_le : s.credits ≤ (s.rootSlot.map (· + 1)).getD 0

lemma grown_default : Grown default where
  stack := stack_nil
  last_count := fun _ h ↦ absurd h (by simp [default])
  root_lt := fun _ h ↦ absurd h (by simp [default])
  ne_nil := fun h ↦ absurd h (by simp [default])
  credits_le := le_rfl

variable {r : Slot}

lemma Grown.root_lt_step (hs : Grown s) (h : VoteStep s s' slot rooted kept popped)
    (hr : r ∈ s'.rootSlot) : r < slot ∧ ∀ u ∈ kept, r < u.slot := by
  rw [h.root_eq] at hr
  rcases rooted with - | root
  · have hlt := hs.root_lt r hr
    obtain ⟨v, hv⟩ := exists_mem_of_ne_nil _ (hs.ne_nil (isSome_of_mem hr))
    exact ⟨(hlt v hv).trans (h.lt_slot hs.stack hv), fun u hu ↦ hlt u (h.mem_of_mem_kept hu)⟩
  obtain rfl : root.slot = r := by simpa using hr
  exact ⟨h.lt_slot hs.stack (h.mem_of_mem_rooted rfl), fun u hu ↦ h.rooted_lt hs.stack rfl hu⟩

lemma Grown.step (hs : Grown s) (h : VoteStep s s' slot rooted kept popped) : Grown s' := by
  refine ⟨h.stack hs.stack, ?_, ?_, ?_, ?_⟩
  · rw [h.getLast?_votes]
    rintro v ⟨⟩
    rfl
  · intro r hr v hv
    obtain ⟨hnew, hkept⟩ := hs.root_lt_step h hr
    rcases h.mem_votes hv with hslot | ⟨u, hu, hslot, -⟩
    · rwa [hslot]
    rw [← hslot]
    exact hkept u hu
  · intro _ hnil
    have hlast := h.getLast?_votes
    rw [hnil] at hlast
    exact absurd hlast (by simp)
  rw [h.credits_eq, h.root_eq]
  rcases rooted with - | root
  · simpa using hs.credits_le
  have hle := hs.credits_le
  rcases hr : s.rootSlot with - | r
  · simp only [hr, map_none, getD_none, Nat.le_zero] at hle
    simp [hle]
  have hlt := hs.root_lt r hr root (h.mem_of_mem_rooted rfl)
  simp only [hr, map_some, getD_some] at hle
  simp only [toList_some, length_singleton, map_some, some_or, getD_some]
  lia

/-! ### Later states -/

/-- What became of a vote: it is still on the stack with at least its confirmations, or it is at or
below the root, or it expired before the votes now above it were cast. -/
def Accounted (a : Lockout) (s : VoteState) : Prop :=
  (∃ b ∈ s.votes, b.slot = a.slot ∧ a.confirmationCount ≤ b.confirmationCount) ∨
    (∃ r ∈ s.rootSlot, a.slot ≤ r) ∨
    (∀ b ∈ s.votes, a.slot ≤ b.slot → a.expiry < b.slot) ∧ ∃ b ∈ s.votes, a.slot < b.slot

lemma Accounted.of_le (hb : Accounted b s) (hslot : b.slot = a.slot)
    (hcount : a.confirmationCount ≤ b.confirmationCount) : Accounted a s := by
  unfold Accounted at hb ⊢
  rw [hslot] at hb
  rcases hb with ⟨c, hc, hcb, hle⟩ | hroot | ⟨hexp, habove⟩
  · exact .inl ⟨c, hc, hcb, hcount.trans hle⟩
  · exact .inr (.inl hroot)
  refine .inr (.inr ⟨fun c hc hac ↦ ?_, habove⟩)
  exact (expiry_mono hslot.symm hcount).trans_lt (hexp c hc hac)

/-- `t` was reached from `s` by further votes. -/
structure Later (s t : VoteState) : Prop where
  root_le : ∀ r ∈ s.rootSlot, ∃ r' ∈ t.rootSlot, r ≤ r'
  accounted : ∀ a ∈ s.votes, Accounted a t

lemma Later.refl (s : VoteState) : Later s s where
  root_le := fun r hr ↦ ⟨r, hr, le_rfl⟩
  accounted := fun a ha ↦ .inl ⟨a, ha, rfl, le_rfl⟩

lemma VoteStep.root_le (h : VoteStep s s' slot rooted kept popped) (hs : Grown s)
    (hr : r ∈ s.rootSlot) : ∃ r' ∈ s'.rootSlot, r ≤ r' := by
  rw [h.root_eq]
  rcases rooted with - | root
  · exact ⟨r, hr, le_rfl⟩
  · exact ⟨root.slot, rfl, (hs.root_lt r hr root (h.mem_of_mem_rooted rfl)).le⟩

lemma VoteStep.accounted_of_mem (h : VoteStep s s' slot rooted kept popped) (hs : Grown s)
    (hv : v ∈ s.votes) : Accounted v s' := by
  have hv' := hv
  rw [h.votes_eq, append_assoc, mem_append, mem_append] at hv'
  rcases hv' with hroot | hkept | hpop
  · refine .inr (.inl ⟨v.slot, ?_, le_rfl⟩)
    rw [h.root_eq, mem_toList.1 hroot]
    rfl
  · exact .inl (h.exists_of_mem_kept hkept)
  -- a popped vote is above all votes kept, so only the new vote is above it
  refine .inr (.inr ⟨fun b hb hlt ↦ ?_, ?_⟩)
  · rcases h.mem_votes hb with hslot | ⟨u, hu, hslot, -⟩
    · rw [hslot]
      exact h.expired v hpop
    have hsorted := hs.stack.slots_lt
    rw [h.votes_eq, pairwise_append] at hsorted
    have huv := hsorted.2.2 u (mem_append_right _ hu) v hpop
    lia
  have hlast := mem_of_getLast? h.getLast?_votes
  exact ⟨_, hlast, h.lt_slot hs.stack hv⟩

/-- What is accounted for stays accounted for. -/
theorem Accounted.step (ha : Accounted a s) (hs : Grown s)
    (h : VoteStep s s' slot rooted kept popped) : Accounted a s' := by
  rcases ha with ⟨b, hb, hslot, hcount⟩ | ⟨r, hr, hle⟩ | ⟨hexp, b, hb, hlt⟩
  · exact (h.accounted_of_mem hs hb).of_le hslot hcount
  · obtain ⟨r', hr', hle'⟩ := h.root_le hs hr
    exact .inr (.inl ⟨r', hr', hle.trans hle'⟩)
  have hb' := h.lt_slot hs.stack hb
  refine .inr (.inr ⟨fun c hc hac ↦ ?_, ?_⟩)
  · rcases h.mem_votes hc with hslot | ⟨u, hu, hslot, -⟩
    · rw [hslot]
      exact (hexp b hb hlt.le).trans hb'
    rw [← hslot] at hac ⊢
    exact hexp u (h.mem_of_mem_kept hu) hac
  · exact ⟨_, mem_of_getLast? h.getLast?_votes, hlt.trans hb'⟩

end

/-! ### Runs -/

/-- Vote for one slot after the other, each with the epoch it is cast in. -/
def processVoteSlots (s : VoteState) (slots : List (Slot × Epoch)) : Option VoteState :=
  slots.foldlM (fun s vote ↦ s.processNextVoteSlot vote.1 vote.2) s

section

variable {t : VoteState} {slots : List (Slot × Epoch)}

lemma processVoteSlots_induction {P : VoteState → Prop}
    (hstep : ∀ s s' slot rooted kept popped, slot ∈ slots.map Prod.fst → P s →
      VoteStep s s' slot rooted kept popped → P s')
    (hs : P s) (h : s.processVoteSlots slots = some t) : P t := by
  refine foldlM_some_induction (fun vote hmem s s' hs hvote ↦ ?_) h hs
  rcases processNextVoteSlot_cases hvote with ⟨-, rfl⟩ | ⟨rooted, kept, popped, hv⟩
  · exact hs
  · exact hstep _ _ _ _ _ _ (mem_map_of_mem hmem) hs hv

lemma Grown.run (hs : Grown s) (h : s.processVoteSlots slots = some t) : Grown t :=
  processVoteSlots_induction (fun _ _ _ _ _ _ _ hs hv ↦ hs.step hv) hs h

lemma Grown.later (hs : Grown s) (h : s.processVoteSlots slots = some t) : Later s t := by
  suffices hboth : Grown t ∧ Later s t from hboth.2
  refine processVoteSlots_induction (P := fun t ↦ Grown t ∧ Later s t) ?_ ⟨hs, Later.refl s⟩ h
  rintro t t' slot rooted kept popped - ⟨ht, hlater⟩ hv
  refine ⟨ht.step hv, fun r hr ↦ ?_, fun a ha ↦ (hlater.accounted a ha).step ht hv⟩
  obtain ⟨r₁, hr₁, hle⟩ := hlater.root_le r hr
  obtain ⟨r₂, hr₂, hle'⟩ := hv.root_le ht hr₁
  exact ⟨r₂, hr₂, hle.trans hle'⟩

lemma slot_of_processVoteSlots {p : Slot → Prop} (hslots : ∀ vote ∈ slots, p vote.1)
    (hs : ∀ v ∈ s.votes, p v.slot) (h : s.processVoteSlots slots = some t) :
    ∀ v ∈ t.votes, p v.slot := by
  refine processVoteSlots_induction (P := fun t ↦ ∀ v ∈ t.votes, p v.slot) ?_ hs h
  intro t t' slot rooted kept popped hmem ht hv v hv'
  obtain ⟨vote, hvote, rfl⟩ := mem_map.1 hmem
  rcases hv.mem_votes hv' with hslot | ⟨u, hu, hslot, -⟩
  · rw [hslot]
    exact hslots vote hvote
  rw [← hslot]
  exact ht u (hv.mem_of_mem_kept hu)

lemma le_getLast?_of_processVoteSlots {vote : Slot × Epoch} (hmem : vote ∈ slots)
    (h : s.processVoteSlots slots = some t) : ∃ last ∈ t.votes.getLast?, vote.1 ≤ last.slot := by
  induction slots generalizing s with
  | nil => exact absurd hmem not_mem_nil
  | cons first slots ih =>
    simp only [processVoteSlots, foldlM_cons, bind_eq_some] at h
    obtain ⟨s', hfirst, hrest⟩ := h
    rcases mem_cons.1 hmem with rfl | hmem
    · -- the vote is the last one now, and later votes are higher
      have hlast : ∃ last ∈ s'.votes.getLast?, vote.1 ≤ last.slot := by
        rcases processNextVoteSlot_cases hfirst with ⟨hold, rfl⟩ | ⟨rooted, kept, popped, hv⟩
        · by_contra hnone
          push Not at hnone
          rw [isOldSlot_eq_false.2 hnone] at hold
          exact absurd hold Bool.false_ne_true
        · exact ⟨_, hv.getLast?_votes, le_rfl⟩
      refine processVoteSlots_induction
        (P := fun t ↦ ∃ last ∈ t.votes.getLast?, vote.1 ≤ last.slot) ?_ hlast hrest
      rintro t t' slot rooted kept popped - ⟨last, hlast, hle⟩ hv
      exact ⟨_, hv.getLast?_votes, hle.trans (hv.new_slot last hlast).le⟩
    · exact ih hmem hrest

end

end VoteState

end Renec
