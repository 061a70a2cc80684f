import Renec.Collections.Forest
import Renec.Vote.LockoutStack

/-!
# The tower of a validator

The local vote state by which a validator decides what it may vote for (`core/src/consensus.rs`).

At every point the root and the votes are a chain of ancestors; and a vote cast earlier is an
ancestor of a vote cast later unless its lockout had run out by then.
-/

namespace Renec

open Option VoteState Prod
open List hiding any_eq_true

/-- The fields of `Tower` that voting reads and writes. -/
structure Tower where
  voteState : VoteState
  lastVote : Vote
  lastTimestamp : BlockTimestamp
  deriving DecidableEq

namespace Tower

section

variable (t : Tower) (slot : Slot)

/-- The root of the tower. It is always set; `unwrap` panics otherwise. -/
def root : Option Slot := t.voteState.rootSlot

/-- A slot is recent if it is newer than the last vote. -/
def isRecent : Bool :=
  match t.voteState.lastVotedSlot with
  | some lastVotedSlot => !decide (slot ≤ lastVotedSlot)
  | none => true

/-- Check if a slot is locked out by simulating adding a vote for it: it is if any of the remaining
votes is on a different fork. A root on a different fork fails an assertion. -/
def isLockedOut (ancestors : Finset Slot) : Option Bool :=
  if !t.isRecent slot then some true
  else do
    let voteState ← t.voteState.processSlotVoteUnchecked slot
    if voteState.votes.any fun vote ↦ decide (slot ≠ vote.slot ∧ vote.slot ∉ ancestors) then
      return true
    else if voteState.rootSlot.any fun root ↦ decide (slot ≠ root ∧ root ∉ ancestors) then none
    else return false

/-- Apply a vote and return the vote to send: the slots the bank has not yet seen. -/
def applyVoteAndGenerateVoteDiff (localVoteState : VoteState) (slot : Slot) (hash : Hash)
    (lastVotedSlotInBank : Option Slot) : Option (Vote × VoteState) := do
  let localVoteState ← localVoteState.processVoteUnchecked (Vote.new [slot] hash)
  let slots := localVoteState.votes.map Lockout.slot
  let slots := match lastVotedSlotInBank with
    | some last => slots.dropWhile fun s ↦ decide (s ≤ last)
    | none => slots
  return (Vote.new slots hash, localVoteState)

/-- The timestamp to vote with: `now`, unless that would go back. -/
def maybeTimestamp (currentSlot : Slot) (now : UnixTimestamp) : Option UnixTimestamp × Tower :=
  if (currentSlot > t.lastTimestamp.slot ∨
      t.lastTimestamp.slot = 0 ∧ currentSlot = t.lastTimestamp.slot) ∧
      now ≥ t.lastTimestamp.timestamp then
    (some now, { t with lastTimestamp := ⟨currentSlot, now⟩ })
  else (none, t)

/-- Cast a vote, and return the new root if there is one. -/
def recordBankVoteAndUpdateLockouts (voteSlot : Slot) (voteHash : Hash)
    (lastVotedSlotInBank : Option Slot) (now : UnixTimestamp) : Option (Option Slot × Tower) := do
  let oldRoot ← t.root
  let (newVote, voteState) ←
    applyVoteAndGenerateVoteDiff t.voteState voteSlot voteHash lastVotedSlotInBank
  let (timestamp, t) := maybeTimestamp { t with voteState := voteState }
    (t.lastVote.lastVotedSlot.getD 0) now
  let t := { t with lastVote := { newVote with timestamp := timestamp } }
  let newRoot ← t.root
  return (if oldRoot ≠ newRoot then some newRoot else none, t)

end

/-! ### One vote -/

variable {slot : Slot} {t : Tower} {hash : Hash} {inBank root : Option Slot} {s : VoteState}

lemma processVoteUnchecked_single (h : s.isOldSlot slot = false) :
    s.processVoteUnchecked (Vote.new [slot] hash) = s.processNextVoteSlot slot s.currentEpoch := by
  have hmatch : s.matchSlotHashes [slot] [(slot, hash)] 0 1 = (1, 0) := by
    rw [matchSlotHashes]
    simp [h, matchSlotHashes]
  have hvalid : s.checkSlotsAreValid (Vote.new [slot] hash) [(slot, hash)] = .ok () := by
    simp [checkSlotsAreValid, Vote.new, hmatch, Outcome.failIf]
  have hvote : s.processVote (Vote.new [slot] hash) [(slot, hash)] s.currentEpoch =
      Outcome.ofOption (s.processNextVoteSlot slot s.currentEpoch) := by
    rw [processVote, hvalid]
    simp [Vote.new, Outcome.failIf]
  have hhashes : (Vote.new [slot] hash).slots.reverse.map
      (fun slot' ↦ (slot', (Vote.new [slot] hash).hash)) = [(slot, hash)] := rfl
  rw [processVoteUnchecked, hhashes, hvote]
  cases s.processNextVoteSlot slot s.currentEpoch <;> rfl

lemma isRecent_eq_true : t.isRecent slot = true ↔ t.voteState.isOldSlot slot = false := by
  unfold isRecent isOldSlot
  cases t.voteState.lastVotedSlot <;> simp

/-- The lockout check, when it passes: the vote is new, and everything that remains under it is an
ancestor of it. -/
theorem isLockedOut_eq_false {ancestors : Finset Slot}
    (h : t.isLockedOut slot ancestors = some false) :
    t.voteState.isOldSlot slot = false ∧
      ∃ s, t.voteState.processNextVoteSlot slot t.voteState.currentEpoch = some s ∧
        (∀ v ∈ s.votes, v.slot ≠ slot → v.slot ∈ ancestors) ∧
        ∀ r ∈ s.rootSlot, r ≠ slot → r ∈ ancestors := by
  unfold isLockedOut at h
  rcases hrecent : t.isRecent slot with - | -
  · simp [hrecent] at h
  have hnew := isRecent_eq_true.1 hrecent
  refine ⟨hnew, ?_⟩
  rw [hrecent, processSlotVoteUnchecked, processVoteUnchecked_single hnew] at h
  simp only [Bool.not_true, Bool.false_eq_true, if_false, bind_eq_some] at h
  obtain ⟨s, hs, h⟩ := h
  refine ⟨s, hs, ?_⟩
  split at h
  · simp at h
  rename_i hvotes
  split at h
  · simp at h
  rename_i hroot
  simp only [ne_eq, Bool.decide_and, decide_not, List.any_eq_true, Bool.and_eq_true,
    Bool.not_eq_eq_eq_not, Bool.not_true, decide_eq_false_iff_not, not_exists, not_and, not_not,
    any_eq_true] at hvotes hroot
  exact ⟨fun v hv hne ↦ hvotes v hv (Ne.symm hne), fun r hr hne ↦ hroot r hr (Ne.symm hne)⟩

variable {now : UnixTimestamp} {t' : Tower}

lemma recordBankVoteAndUpdateLockouts_spec (hnew : t.voteState.isOldSlot slot = false)
    (h : t.recordBankVoteAndUpdateLockouts slot hash inBank now = some (root, t')) :
    t.voteState.processNextVoteSlot slot t.voteState.currentEpoch = some t'.voteState := by
  have hkeep (u : Tower) (current : Slot) : (u.maybeTimestamp current now).2.voteState =
      u.voteState := by
    unfold maybeTimestamp
    split <;> rfl
  simp only [recordBankVoteAndUpdateLockouts, applyVoteAndGenerateVoteDiff,
    processVoteUnchecked_single hnew, bind_eq_some, pure_eq_some, Prod.mk.injEq, Prod.exists] at h
  obtain ⟨old, -, vote, voteState, ⟨s, hs, -, rfl⟩, newRoot, -, -, rfl⟩ := h
  rw [hs, some.injEq]
  exact (hkeep ⟨s, t.lastVote, t.lastTimestamp⟩ (t.lastVote.lastVotedSlot.getD 0)).symm

/-! ### Histories -/

/-- The tower after a history, which is kept newest vote first. -/
def current (start : Tower) (history : List (Slot × Tower)) : Tower :=
  (history.head?.map snd).getD start

/-- The histories of a validator that votes only for slots that are not locked out. -/
inductive History (F : Forest Slot) (start : Tower) : List (Slot × Tower) → Prop
  | nil : History F start []
  | vote {history : List (Slot × Tower)} {slot : Slot} {hash : Hash} {inBank root : Option Slot}
      {now : UnixTimestamp} {t : Tower} (hist : History F start history)
      (allowed : (current start history).isLockedOut slot (F.ancestors slot) = some false)
      (recorded : (current start history).recordBankVoteAndUpdateLockouts slot hash inBank now =
        some (root, t)) :
      History F start ((slot, t) :: history)

/-- The lockout a slot had when it was last on the stack: its present one, or the one it left
with. -/
def lastLockout (history : List (Slot × Tower)) (slot : Slot) : Option Lockout :=
  history.findSome? fun entry ↦ entry.2.voteState.votes.find? fun v ↦ decide (v.slot = slot)

variable {F : Forest Slot} {start : Tower} {history : List (Slot × Tower)}

lemma History.of_append {newer older : List (Slot × Tower)}
    (h : History F start (newer ++ older)) : History F start older := by
  induction newer with
  | nil => exact h
  | cons entry newer ih =>
    cases h with
    | vote hist _ _ => exact ih hist

/-- What can have become of a recorded vote. -/
def Settled (F : Forest Slot) (s : VoteState) (slot : Slot) (lockout : Lockout) : Prop :=
  (∃ v ∈ s.votes, v.slot = slot) ∨ (∃ r ∈ s.rootSlot, F.Above slot r) ∨
    ∃ last ∈ s.votes.getLast?, lockout.expiry < last.slot

/-- **The invariant of histories.** -/
structure Safe (F : Forest Slot) (s : VoteState) (history : List (Slot × Tower)) : Prop where
  stack : VoteState.Stack s.votes
  votes_chain : (s.votes.map Lockout.slot).Pairwise F.IsAncestor
  root_isSome : s.rootSlot.isSome
  root_above : ∀ r ∈ s.rootSlot, ∀ v ∈ s.votes, F.Above r v.slot
  present : ∀ v ∈ s.votes, lastLockout history v.slot = some v
  recorded_le : ∀ u ∈ history.map fst, ∃ last ∈ s.votes.getLast?, u ≤ last.slot
  settled : ∀ u ∈ history.map fst, ∃ l, lastLockout history u = some l ∧ Settled F s u l

variable {r : Slot}

lemma safe_start (hvotes : start.voteState.votes = []) (hroot : start.voteState.rootSlot = some r) :
    Safe F start.voteState [] where
  stack := hvotes ▸ stack_nil
  votes_chain := by simp [hvotes]
  root_isSome := by simp [hroot]
  root_above := by simp [hvotes]
  present := by simp [hvotes]
  recorded_le := forall_mem_nil _
  settled := forall_mem_nil _

variable {rooted : Option Lockout} {u : Slot} {l : Lockout} {kept popped : List Lockout}

section

variable {s' : VoteState}

lemma votes_chain_of_above (hs : VoteState.Stack s.votes)
    (habove : ∀ v ∈ s.votes, F.Above v.slot slot) :
    (s.votes.map Lockout.slot).Pairwise F.IsAncestor := by
  rw [pairwise_map]
  exact hs.slots_lt.imp_of_mem fun ha hb hlt ↦ (habove _ ha).isAncestor_of_lt (habove _ hb) hlt

lemma root_above_step (hsafe : Safe F s history)
    (h : VoteState.VoteStep s s' slot rooted kept popped)
    (habove : ∀ v ∈ s'.votes, F.Above v.slot slot) (hr : r ∈ s'.rootSlot)
    (hrslot : F.Above r slot) :
    ∀ v ∈ s'.votes, F.Above r v.slot := by
  intro v hv
  rcases h.mem_votes hv with hslot | ⟨u, hu, hslot, -⟩
  · rwa [hslot]
  refine hrslot.above_of_le (habove v hv) ?_
  rw [← hslot]
  rw [h.root_eq] at hr
  rcases rooted with - | root
  · exact (hsafe.root_above r hr u (h.mem_of_mem_kept hu)).le
  obtain rfl : root.slot = r := by simpa using hr
  exact (h.rooted_lt hsafe.stack rfl hu).le

lemma settled_step (hsafe : Safe F s history)
    (h : VoteState.VoteStep s s' slot rooted kept popped) (hl : Settled F s u l)
    (hfound : ∀ v ∈ s.votes, v.slot = u → v = l) : Settled F s' u l := by
  rcases hl with ⟨v, hv, rfl⟩ | ⟨r, hr, hur⟩ | ⟨last, hlast, hexp⟩
  · obtain rfl := hfound v hv rfl
    rw [h.votes_eq, append_assoc, mem_append, mem_append] at hv
    rcases hv with hroot | hkept | hpop
    · refine .inr (.inl ⟨v.slot, ?_, Forest.Above.refl _⟩)
      rw [h.root_eq, mem_toList.1 hroot]
      rfl
    · obtain ⟨v', hv', hslot, -⟩ := h.exists_of_mem_kept hkept
      exact .inl ⟨v', hv', hslot⟩
    · exact .inr (.inr ⟨_, h.getLast?_votes, h.expired v hpop⟩)
  · refine .inr (.inl ?_)
    rw [h.root_eq]
    rcases rooted with - | root
    · exact ⟨r, hr, hur⟩
    · exact ⟨root.slot, rfl, hur.trans (hsafe.root_above r hr root (h.mem_of_mem_rooted rfl))⟩
  · exact .inr (.inr ⟨_, h.getLast?_votes, hexp.trans (h.new_slot last hlast)⟩)

end

lemma lastLockout_cons_of_mem (hs : VoteState.Stack t.voteState.votes) {v : Lockout}
    (hv : v ∈ t.voteState.votes) : lastLockout ((slot, t) :: history) v.slot = some v := by
  have hfind : (t.voteState.votes.find? fun w ↦ decide (w.slot = v.slot)) = some v := by
    rcases hw : t.voteState.votes.find? fun w ↦ decide (w.slot = v.slot) with - | w
    · exact absurd (find?_eq_none.1 hw v hv) (by simp)
    have hslot : w.slot = v.slot := by simpa using find?_some hw
    rwa [hs.eq_of_slot_eq (mem_of_find?_eq_some hw) hv hslot] at hw
  simp [lastLockout, hfind]

lemma lastLockout_cons_of_notMem (hu : ∀ v ∈ t.voteState.votes, v.slot ≠ u) :
    lastLockout ((slot, t) :: history) u = lastLockout history u := by
  have hfind : (t.voteState.votes.find? fun w ↦ decide (w.slot = u)) = none := by
    simpa using hu
  simp [lastLockout, hfind]

lemma slot_of_lastLockout (h : lastLockout history u = some l) : l.slot = u := by
  obtain ⟨entry, -, hfind⟩ := exists_of_findSome?_eq_some h
  simpa using find?_some hfind

/-- One vote keeps a history safe. -/
theorem Safe.vote (hsafe : Safe F s history)
    (h : VoteState.VoteStep s t.voteState slot rooted kept popped)
    (hvotes : ∀ v ∈ t.voteState.votes, F.Above v.slot slot)
    (hroot : ∀ r ∈ t.voteState.rootSlot, F.Above r slot) :
    Safe F t.voteState ((slot, t) :: history) := by
  have hstack := h.stack hsafe.stack
  refine ⟨hstack, votes_chain_of_above hstack hvotes, ?_, ?_, ?_, ?_, ?_⟩
  · rw [h.root_eq]
    rcases rooted with - | root
    · simpa using hsafe.root_isSome
    · rfl
  · exact fun r hr ↦ root_above_step hsafe h hvotes hr (hroot r hr)
  · exact fun v hv ↦ lastLockout_cons_of_mem hstack hv
  · intro u hu
    refine ⟨_, h.getLast?_votes, ?_⟩
    rcases mem_cons.1 hu with rfl | hu
    · exact le_rfl
    obtain ⟨last, hlast, hle⟩ := hsafe.recorded_le u hu
    exact hle.trans (h.new_slot last hlast).le
  intro u hu
  by_cases hon : ∃ v ∈ t.voteState.votes, v.slot = u
  · obtain ⟨v, hv, rfl⟩ := hon
    exact ⟨v, lastLockout_cons_of_mem hstack hv, .inl ⟨v, hv, rfl⟩⟩
  -- a vote that is not on the stack is not the new one
  have hne : u ≠ slot := by
    rintro rfl
    exact hon ⟨_, mem_of_getLast? h.getLast?_votes, rfl⟩
  obtain ⟨l, hl, hset⟩ := hsafe.settled u (mem_of_ne_of_mem hne hu)
  push Not at hon
  refine ⟨l, (lastLockout_cons_of_notMem hon).trans hl, settled_step hsafe h hset ?_⟩
  rintro v hv rfl
  exact some.inj ((hsafe.present v hv).symm.trans hl)

lemma exists_voteStep (allowed : t.isLockedOut slot (F.ancestors slot) = some false)
    (recorded : t.recordBankVoteAndUpdateLockouts slot hash inBank now = some (root, t')) :
    (∃ rooted kept popped, VoteState.VoteStep t.voteState t'.voteState slot rooted kept popped) ∧
      (∀ v ∈ t'.voteState.votes, F.Above v.slot slot) ∧
      ∀ r ∈ t'.voteState.rootSlot, F.Above r slot := by
  obtain ⟨hnew, s, hs, hanc, hancRoot⟩ := isLockedOut_eq_false allowed
  have hrec := recordBankVoteAndUpdateLockouts_spec hnew recorded
  obtain rfl : s = t'.voteState := some.inj (hs.symm.trans hrec)
  have above_of : ∀ a, (a ≠ slot → a ∈ F.ancestors slot) → F.Above a slot := by
    intro a ha
    by_cases hne : a = slot
    · exact hne ▸ Forest.Above.refl _
    · exact (F.mem_ancestors_iff.1 (ha hne)).above
  refine ⟨?_, fun v hv ↦ above_of _ (hanc v hv), fun r hr ↦ above_of r (hancRoot r hr)⟩
  rcases processNextVoteSlot_cases hrec with ⟨hold, -⟩ | hstep
  · rw [hnew] at hold
    exact absurd hold Bool.false_ne_true
  · exact hstep

/-- Every history is safe, from a tower with a root and no votes. -/
theorem History.safe (hvotes : start.voteState.votes = [])
    (hroot : start.voteState.rootSlot = some r) (h : History F start history) :
    Safe F (current start history).voteState history := by
  induction h with
  | nil => exact safe_start hvotes hroot
  | vote _ allowed recorded ih =>
    obtain ⟨⟨rooted, kept, popped, hstep⟩, habove, haboveRoot⟩ := exists_voteStep allowed recorded
    exact ih.vote hstep habove haboveRoot

/-- **Lockout safety.** At every point of a history the root and the votes are a chain of
ancestors, and of any two recorded votes the earlier is an ancestor of the later one, unless the
later one is past its lockout. -/
theorem lockout_safety {r : Slot} (hvotes : start.voteState.votes = [])
    (hroot : start.voteState.rootSlot = some r) (h : History F start history) :
    (∃ root, (current start history).voteState.rootSlot = some root ∧
      (∀ v ∈ (current start history).voteState.votes, F.Above root v.slot) ∧
      ((current start history).voteState.votes.map Lockout.slot).Pairwise F.IsAncestor) ∧
    ∀ newer w t older, history = newer ++ (w, t) :: older → ∀ u ∈ older.map fst,
      ∃ l, lastLockout ((w, t) :: older) u = some l ∧
        (w ≤ u + 2 ^ l.confirmationCount → F.IsAncestor u w) := by
  have hsafe := h.safe hvotes hroot
  obtain ⟨root, hroot'⟩ := isSome_iff_exists.1 hsafe.root_isSome
  refine ⟨⟨root, hroot', hsafe.root_above root hroot', hsafe.votes_chain⟩, ?_⟩
  rintro newer w t older rfl u hu
  have hlater := h.of_append
  obtain ⟨l, hl, hset⟩ := (hlater.safe hvotes hroot).settled u (mem_cons_of_mem _ hu)
  refine ⟨l, hl, fun hlock ↦ ?_⟩
  cases hlater with
  | vote hist allowed recorded =>
    obtain ⟨⟨rooted, kept, popped, hstep⟩, habove, haboveRoot⟩ := exists_voteStep allowed recorded
    obtain ⟨last, hlast, hle⟩ := (hist.safe hvotes hroot).recorded_le u hu
    have hlt : u < w := hle.trans_lt (hstep.new_slot last hlast)
    rcases hset with ⟨v, hv, rfl⟩ | ⟨r', hr', hur⟩ | ⟨last', hlast', hexp⟩
    · exact (habove v hv).isAncestor_of_ne hlt.ne
    · exact (hur.trans (haboveRoot r' hr')).isAncestor_of_ne hlt.ne
    obtain rfl : Lockout.new w = last' := some.inj (hstep.getLast?_votes.symm.trans hlast')
    rw [← slot_of_lastLockout hl] at hlock
    exact absurd hlock (Nat.not_le_of_lt hexp)

def singleFork : Forest Slot where
  parent n := if n = 0 then none else some (n - 1)
  parent_lt := by
    intro n p h
    split at h
    · exact absurd h (by simp)
    cases h
    exact Nat.sub_one_lt (by assumption)

/-- A tower rooted at slot 0 with these votes. -/
def ofVotes (votes : List Lockout) (lastVote : Vote) (lastTimestamp : BlockTimestamp) : Tower :=
  ⟨{ (default : VoteState) with votes := votes, rootSlot := some 0 }, lastVote, lastTimestamp⟩

/-- A tower without votes. -/
def freshTower : Tower := ofVotes [] ⟨[], default, none⟩ ⟨0, 0⟩

lemma record_first : freshTower.recordBankVoteAndUpdateLockouts 1 default none 7 =
    some (none, ofVotes [⟨1, 1⟩] ⟨[1], default, some 7⟩ ⟨0, 7⟩) := by
  decide +kernel

lemma record_second :
    (ofVotes [⟨1, 1⟩] ⟨[1], default, some 7⟩ ⟨0, 7⟩).recordBankVoteAndUpdateLockouts 2 default none
      8 = some (none, ofVotes [⟨1, 2⟩, ⟨2, 1⟩] ⟨[1, 2], default, some 8⟩ ⟨1, 8⟩) := by
  decide +kernel

/-- The slots 1 and 2 are voted for, if they follow the root. -/
theorem history_two {F : Forest Slot} (h₁ : F.parent 1 = some 0) (h₂ : F.parent 2 = some 1) :
    History F freshTower
      [(2, ofVotes [⟨1, 2⟩, ⟨2, 1⟩] ⟨[1, 2], default, some 8⟩ ⟨1, 8⟩),
        (1, ofVotes [⟨1, 1⟩] ⟨[1], default, some 7⟩ ⟨0, 7⟩)] := by
  have h₀ : F.parent 0 = none :=
    Option.eq_none_iff_forall_ne_some.mpr fun p hp ↦ Nat.not_lt_zero p (F.parent_lt hp)
  have hanc₁ : F.ancestors 1 = {0} := by
    rw [F.ancestors_of_some h₁, F.ancestors_of_none h₀]
    rfl
  have hanc₂ : F.ancestors 2 = {1, 0} := by rw [F.ancestors_of_some h₂, hanc₁]
  exact .vote (.vote .nil (by rw [hanc₁]; decide +kernel) record_first)
    (by rw [hanc₂]; decide +kernel) record_second

/-- Two votes on a single fork. -/
theorem lockout_safety_two :
    ∃ t₁ t₂, History singleFork freshTower [(2, t₂), (1, t₁)] ∧
      singleFork.IsAncestor 1 2 := by
  have hhist := @history_two singleFork rfl rfl
  obtain ⟨l, -, hl⟩ := (lockout_safety rfl rfl hhist).2 [] 2 _ _ rfl 1 mem_cons_self
  have hpos := Nat.two_pow_pos l.confirmationCount
  exact ⟨_, _, hhist, hl (by lia)⟩

end Tower

end Renec
