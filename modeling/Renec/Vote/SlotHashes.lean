import Renec.Vote.LockoutStack

/-!
# Votes against the slot hashes

`checkSlotsAreValid` moves one cursor up the slots of a vote and another down the slot hashes, from
the oldest: a greedy search, which gets to the end of the vote exactly if the new slots are a
subsequence of the slots that have a hash (`matchSlotHashes_sound`, `exists_matchSlotHashes`).
-/

namespace Renec.VoteState

open Nat hiding ne_of_lt
open List Outcome Option Prod

variable {s s' : VoteState} {vote : Vote} {slots applied : List Slot}
  {slotHashes : List (Slot × Hash)} {slot : Slot} {epoch : Epoch} {i j j' : ℕ}

/-! ### The two cursors -/

/-- The slots above the last vote. -/
def newSlots (s : VoteState) (slots : List Slot) : List Slot :=
  slots.filter fun slot ↦ !s.isOldSlot slot

/-- The slots that have a hash and that the cursor has not passed, in its order. -/
def slotsAhead (slotHashes : List (Slot × Hash)) (j : ℕ) : List Slot :=
  ((slotHashes.take j).map fst).reverse

@[simp] lemma mem_newSlots :
    slot ∈ s.newSlots slots ↔ slot ∈ slots ∧ s.isOldSlot slot = false := by
  simp [newSlots]

lemma slotsAhead_length : slotsAhead slotHashes slotHashes.length =
    (slotHashes.map fst).reverse := by
  rw [slotsAhead, take_length]

lemma slotsAhead_succ (hj : j < slotHashes.length) :
    slotsAhead slotHashes (j + 1) = slotHashes[j].1 :: slotsAhead slotHashes j := by
  rw [slotsAhead, take_succ_eq_append_getElem hj, map_append, reverse_append]
  rfl

lemma newSlots_drop (hi : i < slots.length) : s.newSlots (slots.drop i) =
    if s.isOldSlot slots[i] then s.newSlots (slots.drop (i + 1))
    else slots[i] :: s.newSlots (slots.drop (i + 1)) := by
  rw [newSlots, drop_eq_getElem_cons hi, filter_cons]
  cases s.isOldSlot slots[i] <;> rfl

/-- Soundness of the scan. If it gets to the end of the vote, the new slots are a subsequence of the
slots with a hash, and the second cursor has not moved or is at the last of them. -/
theorem matchSlotHashes_sound (hj : j ≤ slotHashes.length)
    (h : s.matchSlotHashes slots slotHashes i j = (slots.length, j')) :
    (s.newSlots (slots.drop i)).Sublist (slotsAhead slotHashes j) ∧
      (s.newSlots (slots.drop i) = [] ∧ j' = j ∨ ∃ hj' : j' < slotHashes.length,
          j' < j ∧ (s.newSlots (slots.drop i)).getLast? = some slotHashes[j'].1) := by
  fun_induction matchSlotHashes s slots slotHashes i j with
  | case1 i j hin hold ih =>
    rw [newSlots_drop hin.1, if_pos hold]
    exact ih hj h
  | case2 i j hin hnew hne ih =>
    -- the hash is of an older slot
    obtain ⟨j, rfl⟩ := exists_eq_succ_of_ne_zero hin.2.ne'
    obtain ⟨hsub, hlast⟩ := ih (by omega) h
    refine ⟨slotsAhead_succ hj ▸ hsub.cons _, ?_⟩
    rcases hlast with ⟨hnil, -⟩ | ⟨hj', hlt, hlast⟩
    · rw [newSlots_drop hin.1, if_neg hnew] at hnil
      cases hnil
    · exact .inr ⟨hj', hlt.trans (lt_succ_self _), hlast⟩
  | case3 i j hin hnew heq ih =>
    obtain ⟨j, rfl⟩ := exists_eq_succ_of_ne_zero hin.2.ne'
    obtain ⟨hsub, hlast⟩ := ih (by omega) h
    have hslot : slotHashes[j].1 = slots[i] := by
      rw [not_ne_iff, succ_sub_one, getElem?_eq_getElem hj] at heq
      exact some.inj heq
    rw [newSlots_drop hin.1, if_neg hnew, slotsAhead_succ hj, hslot]
    refine ⟨hsub.cons_cons _, .inr ?_⟩
    rcases hlast with ⟨hnil, rfl⟩ | ⟨hj', hlt, hlast⟩
    · exact ⟨hj, lt_succ_self _, by rw [hnil, ← hslot]; rfl⟩
    refine ⟨hj', hlt.trans (lt_succ_self _), ?_⟩
    rw [getLast?_cons, hlast]
    rfl
  | case4 i j hout =>
    cases h
    rw [drop_length]
    exact ⟨nil_sublist _, .inl ⟨rfl, rfl⟩⟩

/-- Completeness of the scan, for a vote whose last slot is new. -/
theorem exists_matchSlotHashes (hlast : ∀ slot ∈ slots.getLast?, s.isOldSlot slot = false)
    (hi : i ≤ slots.length) (hj : j ≤ slotHashes.length)
    (hsub : (s.newSlots (slots.drop i)).Sublist (slotsAhead slotHashes j)) :
    ∃ j', s.matchSlotHashes slots slotHashes i j = (slots.length, j') := by
  fun_induction matchSlotHashes s slots slotHashes i j with
  | case1 i j hin hold ih =>
    rw [newSlots_drop hin.1, if_pos hold] at hsub
    exact ih hin.1 hj hsub
  | case2 i j hin hnew hne ih =>
    obtain ⟨j, rfl⟩ := exists_eq_succ_of_ne_zero hin.2.ne'
    refine ih hi (by omega) ?_
    rw [slotsAhead_succ hj, sublist_cons_iff] at hsub
    refine hsub.resolve_right fun ⟨_, hrest, _⟩ ↦ hne ?_
    rw [newSlots_drop hin.1, if_neg hnew] at hrest
    rw [succ_sub_one, getElem?_eq_getElem hj]
    exact congrArg some (List.cons.inj hrest).1.symm
  | case3 i j hin hnew heq ih =>
    obtain ⟨j, rfl⟩ := exists_eq_succ_of_ne_zero hin.2.ne'
    refine ih hin.1 (by omega) ?_
    rw [slotsAhead_succ hj, newSlots_drop hin.1, if_neg hnew] at hsub
    exact hsub.of_cons_cons
  | case4 i j hout =>
    rcases hi.eq_or_lt with rfl | hi
    · exact ⟨j, rfl⟩
    -- no hash is left, and the last slot needs one
    obtain rfl : j = 0 := by omega
    have hne : slots.drop i ≠ [] := by rwa [ne_eq, drop_eq_nil_iff, not_le]
    have hend := getLast?_eq_some_getLast hne
    rw [getLast?_drop, if_neg hi.not_ge] at hend
    have hnew := hlast _ hend
    cases hsub.subset (mem_newSlots.mpr ⟨getLast_mem hne, hnew⟩)

/-! ### The check -/

lemma checkSlotsAreValid_eq_ok : s.checkSlotsAreValid vote slotHashes = .ok () ↔
    ∃ j, s.matchSlotHashes vote.slots slotHashes 0 slotHashes.length = (vote.slots.length, j) ∧
      j ≠ slotHashes.length ∧ ∃ p, slotHashes[j]? = some p ∧ p.2 = vote.hash := by
  rcases hscan : s.matchSlotHashes vote.slots slotHashes 0 slotHashes.length with ⟨i, j⟩
  simp only [checkSlotsAreValid, hscan, bind_eq_ok, failIf_eq_ok,
    liftM_eq, ofOption_eq_ok, Prod.mk.injEq, beq_eq_false_iff_ne, bne_eq_false_iff_eq]
  constructor
  · rintro ⟨-, hj, -, rfl, p, hp, hhash⟩
    exact ⟨j, ⟨rfl, rfl⟩, hj, p, hp, hhash⟩
  rintro ⟨_, ⟨rfl, rfl⟩, hj, p, hp, hhash⟩
  exact ⟨(), hj, (), rfl, p, hp, hhash⟩

/-- **What an accepted vote says**: it has a new slot, the new slots are a subsequence of those with
a hash, and its own hash is that of the last of them. -/
structure Accepts (s : VoteState) (vote : Vote) (slotHashes : List (Slot × Hash)) : Prop where
  sublist : (s.newSlots vote.slots).Sublist (slotHashes.map fst).reverse
  hash : ∃ last ∈ (s.newSlots vote.slots).getLast?, (last, vote.hash) ∈ slotHashes

lemma accepts_of_ok (h : s.checkSlotsAreValid vote slotHashes = .ok ()) :
    Accepts s vote slotHashes := by
  obtain ⟨j, hscan, hne, p, hp, hhash⟩ := checkSlotsAreValid_eq_ok.mp h
  obtain ⟨hsub, ⟨-, heq⟩ | ⟨hj, -, hlast⟩⟩ := matchSlotHashes_sound le_rfl hscan
  · exact absurd heq hne
  rw [getElem?_eq_getElem hj, some.injEq] at hp
  refine ⟨slotsAhead_length ▸ hsub, slotHashes[j].1, hlast, ?_⟩
  rw [← hhash, ← hp]
  exact getElem_mem hj

lemma ok_of_accepts (hdesc : slotHashes.Pairwise fun a b ↦ b.1 < a.1)
    (hlast : ∀ slot ∈ vote.slots.getLast?, s.isOldSlot slot = false)
    (h : Accepts s vote slotHashes) : s.checkSlotsAreValid vote slotHashes = .ok () := by
  obtain ⟨j, hscan⟩ := exists_matchSlotHashes hlast (Nat.zero_le _) le_rfl
    (slotsAhead_length ▸ h.sublist : (s.newSlots (vote.slots.drop 0)).Sublist _)
  obtain ⟨last, hmem, hhash⟩ := h.hash
  obtain ⟨-, ⟨hnil, -⟩ | ⟨hj, -, hend⟩⟩ := matchSlotHashes_sound le_rfl hscan
  · rw [drop_zero] at hnil
    rw [hnil] at hmem
    cases hmem
  -- a slot has one hash
  obtain rfl : slotHashes[j].1 = last := some.inj (hend.symm.trans hmem)
  obtain ⟨k, hk, hkeq⟩ := getElem_of_mem hhash
  have hkj : k = j := by
    rcases lt_trichotomy k j with hlt | rfl | hlt
    · have hslots := pairwise_iff_getElem.mp hdesc k j hk hj hlt
      rw [hkeq] at hslots
      exact absurd hslots (lt_irrefl _)
    · rfl
    have hslots := pairwise_iff_getElem.mp hdesc j k hj hk hlt
    rw [hkeq] at hslots
    exact absurd hslots (lt_irrefl _)
  subst hkj
  exact checkSlotsAreValid_eq_ok.mpr ⟨k, hscan, hj.ne, _, getElem?_eq_getElem hj, by rw [hkeq]⟩

/-! ### The slots applied -/

/-- The loop of `processVote`, with the slots that are not ignored. -/
def applySlots (epoch : Epoch) (s : VoteState) : List Slot → Option (List Slot × VoteState)
  | [] => some ([], s)
  | slot :: slots => do
    let next ← s.processNextVoteSlot slot epoch
    let (applied, last) ← applySlots epoch next slots
    return (if s.isOldSlot slot then applied else slot :: applied, last)

lemma foldlM_processNextVoteSlot :
    (slots.foldlM (fun s slot ↦ s.processNextVoteSlot slot epoch) s : Outcome VoteError VoteState) =
      ofOption ((applySlots epoch s slots).map snd) := by
  induction slots generalizing s with
  | nil => rfl
  | cons slot slots ih =>
    rw [foldlM_cons, applySlots]
    cases s.processNextVoteSlot slot epoch with
    | none => rfl
    | some next =>
      rw [liftM_eq, ofOption_some, some_bind]
      refine (ih : _ = _).trans ?_
      cases applySlots epoch next slots <;> rfl

/-- The others change nothing. -/
theorem foldlM_applied (h : applySlots epoch s slots = some (applied, s')) :
    applied.foldlM (fun s slot ↦ s.processNextVoteSlot slot epoch) s = some s' := by
  induction slots generalizing s applied with
  | nil =>
    cases h
    rfl
  | cons slot slots ih =>
    simp only [applySlots, bind_eq_some, pure_eq_some, Prod.mk.injEq] at h
    obtain ⟨next, hnext, ⟨rest, last⟩, hrest, rfl, rfl⟩ := h
    rcases processNextVoteSlot_cases hnext with ⟨hold, rfl⟩ | ⟨rooted, kept, popped, hstep⟩
    · rw [if_pos hold]
      exact ih hrest
    rw [isOldSlot_eq_false.mpr hstep.new_slot, if_neg Bool.false_ne_true, foldlM_cons, hnext]
    exact ih hrest

lemma applied_eq_newSlots (hasc : (s.newSlots slots).Pairwise (· < ·))
    (h : applySlots epoch s slots = some (applied, s')) : applied = s.newSlots slots := by
  induction slots generalizing s applied with
  | nil => exact (Prod.mk.inj (some.inj h)).1.symm
  | cons slot slots ih =>
    simp only [applySlots, bind_eq_some, pure_eq_some, Prod.mk.injEq] at h
    obtain ⟨next, hnext, ⟨rest, last⟩, hrest, rfl, rfl⟩ := h
    rcases processNextVoteSlot_cases hnext with ⟨hold, rfl⟩ | ⟨rooted, kept, popped, hstep⟩
    · have heq : next.newSlots (slot :: slots) = next.newSlots slots := by
        rw [newSlots, filter_cons_of_neg (by simp [hold])]
        rfl
      rw [heq] at hasc ⊢
      rw [if_pos hold]
      exact ih hasc hrest
    have hnew := isOldSlot_eq_false.mpr hstep.new_slot
    have heq : s.newSlots (slot :: slots) = slot :: s.newSlots slots := by
      rw [newSlots, filter_cons_of_pos (by simp [hnew])]
      rfl
    rw [heq, pairwise_cons] at hasc
    -- the same slots are new after the vote
    have hsame : next.newSlots slots = s.newSlots slots := by
      refine filter_congr fun later hmem ↦ congrArg _ ?_
      have hend := hstep.getLast?_votes
      cases hlater : s.isOldSlot later with
      | false =>
        refine isOldSlot_eq_false.mpr fun w hw ↦ ?_
        obtain rfl := some.inj (hend.symm.trans hw)
        exact hasc.1 later (mem_newSlots.mpr ⟨hmem, hlater⟩)
      | true =>
        refine Bool.eq_true_of_not_eq_false fun hfalse ↦ ?_
        have hgt : slot < later := isOldSlot_eq_false.mp hfalse _ hend
        rw [isOldSlot_eq_false.mpr fun w hw ↦ (hstep.new_slot w hw).trans hgt] at hlater
        cases hlater
    rw [if_neg (by simp [hnew]), heq, ih (hsame ▸ hasc.2) hrest, hsame]

/-! ### Acceptance -/

/-- **Vote acceptance.** A sorted vote is accepted exactly if it has a new slot, its new slots have
hashes and its own hash is that of its last slot. An accepted vote, sorted or not, does what
its new slots do, which increase and have hashes, the last of them the hash of the vote. -/
theorem vote_acceptance (hdesc : slotHashes.Pairwise fun a b ↦ b.1 < a.1) :
    (vote.slots.Pairwise (· < ·) →
      (s.checkSlotsAreValid vote slotHashes = .ok () ↔
        (∃ slot ∈ vote.slots, s.isOldSlot slot = false) ∧
        (∀ slot ∈ vote.slots, s.isOldSlot slot = false → slot ∈ slotHashes.map fst) ∧
        ∃ last ∈ vote.slots.getLast?, (last, vote.hash) ∈ slotHashes)) ∧
    (s.checkSlotsAreValid vote slotHashes = .ok () → s.processVote vote slotHashes epoch =
        ofOption ((applySlots epoch s vote.slots).map snd) ∧
      ∀ applied s', applySlots epoch s vote.slots = some (applied, s') →
        applied.foldlM (fun s slot ↦ s.processNextVoteSlot slot epoch) s = some s' ∧
        (∀ slot ∈ applied, s.isOldSlot slot = false) ∧ applied.Pairwise (· < ·) ∧
        (∀ slot ∈ applied, slot ∈ slotHashes.map fst) ∧
        ∃ last ∈ applied.getLast?, (last, vote.hash) ∈ slotHashes) := by
  have hsorted : (slotHashes.map fst).reverse.Pairwise (· < ·) := by
    rw [pairwise_reverse, pairwise_map]
    exact hdesc
  refine ⟨fun hasc ↦ ?_, fun hok ↦ ?_⟩
  · -- the last slot of a sorted vote is new if any is
    have hlast : (∃ slot ∈ vote.slots, s.isOldSlot slot = false) →
        ∀ last ∈ vote.slots.getLast?, s.isOldSlot last = false := by
      rintro ⟨slot, hslot, hnew⟩ last hlast
      rw [isOldSlot_eq_false] at hnew ⊢
      obtain ⟨init, hinit⟩ := getLast?_eq_some_iff.mp hlast
      rw [hinit, pairwise_append] at hasc
      rw [hinit] at hslot
      rcases mem_append.mp hslot with hslot | hslot
      · exact fun v hv ↦ (hnew v hv).trans (hasc.2.2 slot hslot last (mem_singleton_self _))
      · exact mem_singleton.mp hslot ▸ hnew
    have hgetLast : ∀ last ∈ vote.slots.getLast?, s.isOldSlot last = false →
        (s.newSlots vote.slots).getLast? = some last := by
      intro last hlast hnew
      obtain ⟨init, hinit⟩ := getLast?_eq_some_iff.mp hlast
      rw [newSlots, hinit, filter_append, filter_singleton, hnew]
      exact getLast?_concat
    constructor
    · intro hok
      obtain ⟨hsub, last, hmem, hhash⟩ := accepts_of_ok hok
      have hin := mem_newSlots.mp (mem_of_getLast? hmem)
      have hany : ∃ slot ∈ vote.slots, s.isOldSlot slot = false := ⟨last, hin⟩
      refine ⟨hany, fun slot hslot hnew ↦ ?_, ?_⟩
      · exact mem_reverse.mp (hsub.subset (mem_newSlots.mpr ⟨hslot, hnew⟩))
      have hend := getLast?_eq_some_getLast (ne_nil_of_mem hin.1)
      have heq := hgetLast _ hend (hlast hany _ hend)
      rw [← some.inj (heq.symm.trans hmem)] at hhash
      exact ⟨_, hend, hhash⟩
    rintro ⟨hany, hall, last, hend, hhash⟩
    refine ok_of_accepts hdesc (hlast hany) ⟨?_, last, hgetLast _ hend (hlast hany _ hend), hhash⟩
    -- both lists are sorted, so a subset is a subsequence
    have hnew : (s.newSlots vote.slots).Pairwise (· < ·) := hasc.filter _
    have hsubset : s.newSlots vote.slots ⊆ (slotHashes.map fst).reverse := fun slot hslot ↦
      mem_reverse.mpr (hall slot (mem_newSlots.mp hslot).1 (mem_newSlots.mp hslot).2)
    exact sublist_of_subperm_of_pairwise (subperm_of_subset (hnew.imp ne_of_lt) hsubset)
      hnew hsorted
  obtain ⟨hsub, hhash⟩ := accepts_of_ok hok
  refine ⟨?_, fun applied s' happly ↦ ?_⟩
  · have hne : vote.slots.isEmpty = false := by
      obtain ⟨last, hmem, -⟩ := hhash
      rw [isEmpty_eq_false_iff]
      exact ne_nil_of_mem (mem_newSlots.mp (mem_of_getLast? hmem)).1
    rw [processVote, hok, hne, foldlM_processNextVoteSlot]
    rfl
  have hasc := hsorted.sublist hsub
  refine ⟨foldlM_applied happly, ?_⟩
  rw [applied_eq_newSlots hasc happly]
  refine ⟨fun slot hslot ↦ (mem_newSlots.mp hslot).2, hasc, fun slot hslot ↦ ?_, hhash⟩
  exact mem_reverse.mp (hsub.subset hslot)

/-- The first vote of an account, for slots 3 and 5 of a fork: it is accepted and applied. -/
theorem vote_acceptance_first :
    (default : VoteState).checkSlotsAreValid ⟨[3, 5], default, none⟩
      [(5, default), (4, default), (3, default)] = .ok () ∧
    ∃ s', (default : VoteState).processVote ⟨[3, 5], default, none⟩
        [(5, default), (4, default), (3, default)] 0 = .ok s' ∧
      [3, 5].foldlM (fun s n ↦ s.processNextVoteSlot n 0) (default : VoteState) = some s' := by
  have h := @vote_acceptance default ⟨[3, 5], default, none⟩
    [(5, default), (4, default), (3, default)] 0 (by decide)
  have hok := (h.1 (by decide)).mpr (by decide)
  obtain ⟨hprocess, happlied⟩ := h.2 hok
  exact ⟨hok, _, hprocess, (happlied _ _ rfl).1⟩

end Renec.VoteState
