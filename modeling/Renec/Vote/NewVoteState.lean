import Renec.Vote.LockoutStack

/-!
# Replacing a whole tower

`processNewVoteState` is the second, independently written checker of the lockout rule: it accepts
or refuses a proposed tower as a whole.
-/

namespace Renec.VoteState

open List Option Outcome

/-! ### The proposal by itself -/

/-- What a vote of a proposal requires of the vote after it. -/
structure Follows (previous vote : Lockout) : Prop where
  slot_lt : previous.slot < vote.slot
  count_gt : vote.confirmationCount < previous.confirmationCount
  no_overflow : previous.expiry < 2 ^ 64
  locked : vote.slot ≤ previous.expiry

variable {newRoot : Option Slot} {votes : List Lockout} {previous : Option Lockout} {u : Unit}

lemma checkAgainstPrevious_eq_ok {vote : Lockout} :
    checkAgainstPrevious vote previous = .ok u ↔ ∀ p ∈ previous, Follows p vote := by
  rcases previous with - | p
  · simp [checkAgainstPrevious]
  simp only [checkAgainstPrevious, bind_eq_ok, failIf_eq_ok,
    decide_eq_false_iff_not, liftM_eq, ofOption_eq_ok,
    Lockout.lastLockedOutSlot_eq_some, mem_def, some.injEq, forall_eq']
  constructor
  · rintro ⟨-, hslot, -, hcount, e, ⟨hroom, rfl⟩, hlock⟩
    exact ⟨Nat.lt_of_not_le hslot, Nat.lt_of_not_le hcount, hroom, Nat.le_of_not_lt hlock⟩
  rintro ⟨hslot, hcount, hroom, hlock⟩
  exact ⟨(), Nat.not_le_of_lt hslot, (), Nat.not_le_of_lt hcount, _, ⟨hroom, rfl⟩,
    Nat.not_lt_of_le hlock⟩

/-- The bounds a single proposed vote must keep. A root of slot 0 bounds nothing. -/
structure Proposable (newRoot : Option Slot) (vote : Lockout) : Prop where
  count_pos : 0 < vote.confirmationCount
  count_le : vote.confirmationCount ≤ maxLockoutHistory
  root_lt : ∀ r ∈ newRoot, r ≠ 0 → r < vote.slot

lemma checkNewState_eq_ok : checkNewState newRoot previous votes = .ok u ↔
      (∀ v ∈ votes, Proposable newRoot v) ∧ (previous.toList ++ votes).IsChain Follows := by
  induction votes generalizing previous with
  | nil => rcases previous with - | p <;> simp [checkNewState]
  | cons vote votes ih =>
    have hbounds : Proposable newRoot vote ↔ ¬ vote.confirmationCount = 0 ∧
        ¬ vote.confirmationCount > maxLockoutHistory ∧
        ∀ r ∈ newRoot, ¬ (vote.slot ≤ r ∧ r ≠ 0) := by
      constructor
      · rintro ⟨h₁, h₂, h₃⟩
        exact ⟨h₁.ne', Nat.not_lt_of_le h₂, fun r hr ⟨hle, hne⟩ ↦
          absurd (h₃ r hr hne) (Nat.not_lt_of_le hle)⟩
      rintro ⟨h₁, h₂, h₃⟩
      exact ⟨Nat.pos_of_ne_zero h₁, Nat.le_of_not_lt h₂, fun r hr hne ↦
        Nat.lt_of_not_le fun hle ↦ h₃ r hr ⟨hle, hne⟩⟩
    have hchain : (previous.toList ++ vote :: votes).IsChain Follows ↔
        (∀ p ∈ previous, Follows p vote) ∧ (vote :: votes).IsChain Follows := by
      rcases previous with - | p <;> simp
    simp only [checkNewState, bind_eq_ok, failIf_eq_ok, ih,
      checkAgainstPrevious_eq_ok, forall_mem_cons, hbounds, hchain, beq_eq_false_iff_ne,
      decide_eq_false_iff_not, Option.any_eq_false, Option.toList_some, exists_const,
      singleton_append]
    tauto

lemma slots_lt_of_isChain_follows (h : votes.IsChain Follows) :
    votes.Pairwise fun a b ↦ a.slot < b.slot := by
  have : IsTrans Lockout fun a b ↦ a.slot < b.slot := ⟨fun _ _ _ h h' ↦ h.trans h'⟩
  exact isChain_iff_pairwise.1 (h.imp fun _ _ h ↦ h.slot_lt)

lemma stack_of_isChain_follows (hlen : votes.length ≤ maxLockoutHistory)
    (hvotes : ∀ v ∈ votes, Proposable newRoot v) (hchain : votes.IsChain Follows) :
    Stack votes where
  length_le := hlen
  slots_lt := slots_lt_of_isChain_follows hchain
  counts_gt := by
    have : IsTrans Lockout fun a b ↦ b.confirmationCount < a.confirmationCount :=
      ⟨fun _ _ _ h h' ↦ h'.trans h⟩
    exact isChain_iff_pairwise.1 (hchain.imp fun _ _ h ↦ h.count_gt)
  count_pos := fun v hv ↦ (hvotes v hv).count_pos
  count_le := fun v hv ↦ (hvotes v hv).count_le
  locked := hchain.imp fun _ _ h ↦ h.locked

/-! ### The proposal against the current votes -/

/-- A current vote is respected by a proposal: it keeps its confirmations, or it has expired by the
proposed votes from its slot on. -/
def Respected (current : Lockout) (votes : List Lockout) : Prop :=
  (∃ t ∈ votes, t.slot = current.slot ∧ current.confirmationCount ≤ t.confirmationCount) ∨
    ∀ t ∈ votes, current.slot ≤ t.slot → current.expiry < t.slot ∧ current.expiry < 2 ^ 64

variable {news : List Lockout}

section

variable {current new : Lockout}

lemma respected_cons_of_gt (h : new.slot < current.slot) :
    Respected current (new :: news) ↔ Respected current news := by
  simp only [Respected, exists_mem_cons_iff, forall_mem_cons, h.ne, false_and,
    false_or, Nat.not_le_of_lt h, false_imp_iff, true_and]

lemma respected_cons_of_lt (hnew : (new :: news).Pairwise fun a b ↦ a.slot < b.slot)
    (h : current.slot < new.slot) :
    Respected current (new :: news) ↔ current.expiry < 2 ^ 64 ∧ current.expiry < new.slot := by
  have habove : ∀ t ∈ new :: news, new.slot ≤ t.slot := by
    exact forall_mem_cons.mpr ⟨le_rfl, fun t ht ↦ ((pairwise_cons.1 hnew).1 t ht).le⟩
  constructor
  · rintro (⟨t, ht, heq, -⟩ | hexp)
    · exact absurd heq (h.trans_le (habove t ht)).ne'
    · exact (hexp new mem_cons_self h.le).symm
  rintro ⟨hroom, hexp⟩
  exact .inr fun t ht _ ↦ ⟨hexp.trans_le (habove t ht), hroom⟩

lemma respected_cons_of_eq (hnew : (new :: news).Pairwise fun a b ↦ a.slot < b.slot)
    (h : current.slot = new.slot) :
    Respected current (new :: news) ↔ current.confirmationCount ≤ new.confirmationCount := by
  constructor
  · rintro (⟨t, ht, heq, hle⟩ | hexp)
    · rcases mem_cons.1 ht with rfl | ht
      · exact hle
      have hlt := (pairwise_cons.1 hnew).1 t ht
      lia
    have hlt := (hexp new mem_cons_self h.le).1
    have hself := current.slot_lt_expiry
    lia
  intro hle
  exact .inl ⟨new, mem_cons_self, h.symm, hle⟩

end

/-- The merge accepts exactly the proposals that respect every current vote. -/
theorem checkPoppedVotes_eq_ok {currents : List Lockout}
    (hcur : currents.Pairwise fun a b ↦ a.slot < b.slot)
    (hnew : news.Pairwise fun a b ↦ a.slot < b.slot) :
    checkPoppedVotes currents news = .ok () ↔ ∀ c ∈ currents, Respected c news := by
  fun_induction checkPoppedVotes currents news with
  | case1 current currents new news hcmp ih =>
    rw [compare_lt_iff_lt] at hcmp
    simp only [liftM_eq, bind_eq_ok, ofOption_eq_ok,
      Lockout.lastLockedOutSlot_eq_some, failIf_eq_ok, decide_eq_false_iff_not,
      forall_mem_cons, respected_cons_of_lt hnew hcmp, ih (pairwise_cons.1 hcur).2 hnew]
    simp only [ge_iff_le, not_le, exists_const, and_assoc, exists_eq_left', exists_and_left]
  | case2 current currents new news hcmp ih =>
    rw [compare_eq_iff_eq] at hcmp
    -- the votes after `current` are above `new`
    have hrest : (∀ c ∈ currents, Respected c (new :: news)) ↔
        ∀ c ∈ currents, Respected c news := by
      refine forall₂_congr fun c hc ↦ respected_cons_of_gt ?_
      rw [← hcmp]
      exact (pairwise_cons.1 hcur).1 c hc
    simp only [bind_eq_ok, failIf_eq_ok, decide_eq_false_iff_not, not_lt,
      forall_mem_cons, respected_cons_of_eq hnew hcmp, hrest, exists_const,
      ih (pairwise_cons.1 hcur).2 (pairwise_cons.1 hnew).2]
  | case3 current currents new news hcmp ih =>
    rw [compare_gt_iff_gt] at hcmp
    rw [ih hcur (pairwise_cons.1 hnew).2]
    refine forall₂_congr fun c hc ↦ (respected_cons_of_gt ?_).symm
    rcases mem_cons.1 hc with rfl | hc
    · exact hcmp
    · exact hcmp.trans ((pairwise_cons.1 hcur).1 c hc)
  | case4 currents news hend =>
    -- one of the lists has run out
    rcases currents with - | ⟨c, currents⟩
    · simp
    rcases news with - | ⟨t, news⟩
    · simp [Respected]
    · exact absurd rfl (fun h ↦ hend c currents t news rfl h)

/-! ### All checks -/

lemma mem_dropWhile_of_pairwise {α : Type} {p : α → Bool} {l : List α}
    (h : l.Pairwise fun a b ↦ p b = true → p a = true) {v : α} :
    v ∈ l.dropWhile p ↔ v ∈ l ∧ p v = false := by
  induction l with
  | nil => simp
  | cons a l ih =>
    obtain ⟨hhead, htail⟩ := pairwise_cons.1 h
    by_cases hp : p a = true
    · rw [dropWhile_cons_of_pos hp, ih htail, mem_cons]
      constructor
      · exact fun ⟨hv, hpv⟩ ↦ ⟨.inr hv, hpv⟩
      rintro ⟨rfl | hv, hpv⟩
      · exact absurd hp (by simp [hpv])
      · exact ⟨hv, hpv⟩
    rw [dropWhile_cons_of_neg hp]
    refine ⟨fun hv ↦ ⟨hv, ?_⟩, And.left⟩
    rcases mem_cons.1 hv with rfl | hv
    · exact Bool.eq_false_iff.2 hp
    · exact Bool.eq_false_iff.2 fun hpv ↦ hp (hhead v hv hpv)

lemma mem_dropWhile_root_iff (hs : votes.Pairwise fun a b ↦ a.slot < b.slot) {v : Lockout} :
    (v ∈ votes.dropWhile fun vote ↦ newRoot.any fun root ↦ decide (vote.slot ≤ root)) ↔
      v ∈ votes ∧ ∀ r ∈ newRoot, r < v.slot := by
  have hmono : votes.Pairwise fun a b ↦ (newRoot.any fun root ↦ decide (b.slot ≤ root)) = true →
      (newRoot.any fun root ↦ decide (a.slot ≤ root)) = true := by
    refine hs.imp fun {a b} hab ↦ ?_
    rcases newRoot with - | root
    · simp
    · simpa using hab.le.trans
  rw [mem_dropWhile_of_pairwise hmono]
  simp [Option.any_eq_false]

lemma checkRoot_eq_ok {currentRoot : Option Slot} :
    checkRoot newRoot currentRoot = .ok u ↔ ∀ r ∈ currentRoot, ∃ r' ∈ newRoot, r ≤ r' := by
  rcases newRoot with - | n <;> rcases currentRoot with - | c <;> simp [checkRoot]

variable {newState : List Lockout} {s : VoteState}

/-- The checks of a proposal, exactly. -/
theorem checkNewVoteState_eq_ok (hs : s.votes.Pairwise fun a b ↦ a.slot < b.slot) :
    s.checkNewVoteState newState newRoot = .ok () ↔
      (∃ last ∈ newState.getLast?, s.isOldSlot last.slot = false) ∧
      newState.length ≤ maxLockoutHistory ∧ (∀ r ∈ s.rootSlot, ∃ r' ∈ newRoot, r ≤ r') ∧
      (∀ v ∈ newState, Proposable newRoot v) ∧ newState.IsChain Follows ∧
      ∀ v ∈ s.votes, (∀ r ∈ newRoot, r < v.slot) → Respected v newState := by
  have hpop (hchain : newState.IsChain Follows) :
      checkPoppedVotes (s.votes.dropWhile fun vote ↦ newRoot.any fun root ↦
        decide (vote.slot ≤ root)) newState = .ok () ↔
        ∀ v ∈ s.votes, (∀ r ∈ newRoot, r < v.slot) → Respected v newState := by
    rw [checkPoppedVotes_eq_ok (hs.sublist (dropWhile_sublist _))
      (slots_lt_of_isChain_follows hchain)]
    simp only [mem_dropWhile_root_iff hs, and_imp]
  simp only [checkNewVoteState, bind_eq_ok, monadLift_eq, ofOption_eq_ok,
    failIf_eq_ok, assert_eq_ok, checkRoot_eq_ok, checkNewState_eq_ok, exists_const,
    decide_eq_false_iff_not, not_lt, Bool.not_eq_true', toList_none, nil_append]
  constructor
  · rintro ⟨last, hlast, hlen, hnew, hroot, ⟨hvotes, hchain⟩, hmerge⟩
    exact ⟨⟨last, hlast, hnew⟩, hlen, hroot, hvotes, hchain, (hpop hchain).1 hmerge⟩
  rintro ⟨⟨last, hlast, hnew⟩, hlen, hroot, hvotes, hchain, hresp⟩
  exact ⟨last, hlast, hlen, hnew, hroot, ⟨hvotes, hchain⟩, (hpop hchain).2 hresp⟩

/-! ### Accepted proposals -/

section

variable {s' : VoteState} {timestamp : Option UnixTimestamp} {epoch : Epoch}

lemma processNewVoteState_spec
    (h : s.processNewVoteState newState newRoot timestamp epoch = some (.ok (), s')) :
    s.checkNewVoteState newState newRoot = .ok () ∧ s'.votes = newState ∧
      s'.rootSlot = newRoot := by
  unfold processNewVoteState at h
  rcases hcheck : s.checkNewVoteState newState newRoot with u | e | -
  · simp only [hcheck, bind_eq_some] at h
    obtain ⟨t, -, last, -, hrec⟩ := h
    rcases ht : t.recordTimestamp last.slot timestamp with e | t'
    · simp [ht] at hrec
    simp only [ht, pure_eq_some, Prod.mk.injEq, true_and] at hrec
    subst hrec
    exact ⟨rfl, rfl, rfl⟩
  · simp [hcheck] at h
  · simp [hcheck] at h

lemma exists_processNewVoteState (hcheck : s.checkNewVoteState newState newRoot = .ok ())
    (hcredits : s.credits + 1 < 2 ^ 64) :
    ∃ s', s.processNewVoteState newState newRoot none epoch = some (.ok (), s') := by
  obtain ⟨t, ht⟩ : ∃ t, s.creditNewRoot newRoot epoch = some t := by
    unfold creditNewRoot
    split
    · exact exists_incrementCredits epoch hcredits
    · exact ⟨s, rfl⟩
  obtain ⟨last, hlast⟩ : ∃ last, newState.getLast? = some last := by
    simp only [checkNewVoteState, bind_eq_ok, monadLift_eq, ofOption_eq_ok] at hcheck
    exact hcheck.imp fun _ h ↦ h.1
  refine ⟨{ t with rootSlot := newRoot, votes := newState }, ?_⟩
  simp [processNewVoteState, hcheck, ht, hlast, recordTimestamp]

variable {slot : Slot}

lemma exists_lowest_above (h : ∃ t ∈ votes, slot < t.slot) :
    ∃ t ∈ votes, slot < t.slot ∧ ∀ t' ∈ votes, slot < t'.slot → t.slot ≤ t'.slot := by
  obtain ⟨last, hlast, hlt⟩ := h
  have hne : (votes.toFinset.filter fun t ↦ slot < t.slot).Nonempty := ⟨last, by simp [hlast, hlt]⟩
  obtain ⟨t, ht, hmin⟩ := Finset.exists_min_image _ Lockout.slot hne
  simp only [Finset.mem_filter, List.mem_toFinset, and_imp] at ht hmin
  exact ⟨t, ht.1, ht.2, hmin⟩

/-- **No rollback.** An accepted tower is a lockout stack, its root is not below the current one,
and every current vote above the new root keeps its confirmations or has expired by the lowest
proposed vote above it. -/
theorem processNewVoteState_no_rollback (hs : s.votes.Pairwise fun a b ↦ a.slot < b.slot)
    (hne : newState ≠ [])
    (hlast : ∀ old ∈ s.votes.getLast?, ∀ last ∈ newState.getLast?, old.slot < last.slot)
    (h : s.processNewVoteState newState newRoot timestamp epoch = some (.ok (), s')) :
    (s'.votes = newState ∧ s'.rootSlot = newRoot) ∧ (∀ r ∈ s.rootSlot, ∃ r' ∈ s'.rootSlot, r ≤ r') ∧
      Stack newState ∧ ∀ v ∈ s.votes, (∀ r ∈ newRoot, r < v.slot) →
        (∃ t ∈ newState, t.slot = v.slot ∧ v.confirmationCount ≤ t.confirmationCount) ∨
        ∃ t ∈ newState, v.slot < t.slot ∧ (∀ t' ∈ newState, v.slot < t'.slot → t.slot ≤ t'.slot) ∧
          ∃ e ∈ v.lastLockedOutSlot, e < t.slot := by
  obtain ⟨hcheck, hvotes', hroot'⟩ := processNewVoteState_spec h
  obtain ⟨-, hlen, hroot, hvotes, hchain, hresp⟩ := (checkNewVoteState_eq_ok hs).1 hcheck
  have hstack := stack_of_isChain_follows hlen hvotes hchain
  refine ⟨⟨hvotes', hroot'⟩, ?_, hstack, fun v hv hvr ↦ ?_⟩
  · rwa [hroot']
  rcases hresp v hv hvr with hkept | hexp
  · exact .inl hkept
  right
  -- the last proposed vote is above `v`, so there is a lowest one above it
  obtain ⟨last, hnew⟩ := isSome_iff_exists.1 (getLast?_isSome.2 hne)
  obtain ⟨old, hold⟩ := isSome_iff_exists.1 (getLast?_isSome.2 (ne_nil_of_mem hv))
  have hvold : v.slot ≤ old.slot := le_slot_of_getLast? hs hold hv
  obtain ⟨t, ht, hvt, hmin⟩ := exists_lowest_above
    ⟨last, mem_of_getLast? hnew, hvold.trans_lt (hlast old hold last hnew)⟩
  obtain ⟨hlt, hroom⟩ := hexp t ht hvt.le
  exact ⟨t, ht, hvt, hmin, v.expiry, Lockout.lastLockedOutSlot_eq_some.2 ⟨hroom, rfl⟩, hlt⟩

/-- A new account's tower with these votes. -/
def ofVotes (votes : List Lockout) : VoteState := { (default : VoteState) with votes := votes }

/-- A tower of two votes is extended by a third. -/
theorem processNewVoteState_no_rollback_third :
    ∃ s', (ofVotes [⟨1, 2⟩, ⟨2, 1⟩]).processNewVoteState [⟨1, 3⟩, ⟨2, 2⟩, ⟨3, 1⟩] none none 0 =
        some (.ok (), s') ∧ Stack s'.votes := by
  have h : (ofVotes [⟨1, 2⟩, ⟨2, 1⟩]).processNewVoteState [⟨1, 3⟩, ⟨2, 2⟩, ⟨3, 1⟩] none none 0 =
      some (.ok (), ofVotes [⟨1, 3⟩, ⟨2, 2⟩, ⟨3, 1⟩]) := by
    decide +kernel
  exact ⟨_, h, (processNewVoteState_no_rollback (by decide) (by decide) (by decide) h).2.2.1⟩

/-! ### Refused proposals -/

lemma processNewVoteState_error {e : VoteError}
    (h : s.processNewVoteState newState newRoot timestamp epoch = some (.error e, s')) :
    (s.checkNewVoteState newState newRoot = .err e ∧ s' = s) ∨
      (s.checkNewVoteState newState newRoot = .ok () ∧
        s.creditNewRoot newRoot epoch = some s') := by
  unfold processNewVoteState at h
  rcases hcheck : s.checkNewVoteState newState newRoot with u | e' | -
  · simp only [hcheck, bind_eq_some] at h
    obtain ⟨t, ht, last, -, hrec⟩ := h
    rcases hts : t.recordTimestamp last.slot timestamp with e' | t'
    · simp only [hts, pure_eq_some, Prod.mk.injEq] at hrec
      obtain ⟨-, rfl⟩ := hrec
      exact .inr ⟨rfl, ht⟩
    · simp [hts] at hrec
  · simp only [hcheck, some.injEq, Prod.mk.injEq, Except.error.injEq] at h
    obtain ⟨rfl, rfl⟩ := h
    exact .inl ⟨rfl, rfl⟩
  · simp [hcheck] at h

/-- **A refused proposal changes nothing** exactly if it keeps the root or is refused by the checks:
a proposal with a new root whose timestamp is refused leaves the credit behind. -/
theorem refused_unchanged_iff {e : VoteError}
    (h : s.processNewVoteState newState newRoot timestamp epoch = some (.error e, s')) :
    s' = s ↔ s.rootSlot = newRoot ∨ s.checkNewVoteState newState newRoot ≠ .ok () := by
  rcases processNewVoteState_error h with ⟨hcheck, rfl⟩ | ⟨hcheck, hcredit⟩
  · exact iff_of_true rfl (.inr (by simp [hcheck]))
  rw [or_iff_left (not_not_intro hcheck)]
  unfold creditNewRoot at hcredit
  split at hcredit
  · next hroot =>
    refine iff_of_false ?_ hroot
    rintro rfl
    have hcredits := (incrementCredits_spec hcredit).2.2
    omega
  next hroot =>
  cases hcredit
  exact iff_of_true rfl (not_not.mp hroot)

/-- A state that last voted for slot 1, with a timestamp. -/
def stamped : VoteState := { ofVotes [⟨1, 1⟩] with lastTimestamp := ⟨1, 10⟩ }

/-- A vote that keeps the root and is refused for its timestamp leaves the state as it was. -/
theorem refused_unchanged_iff_same_root :
    ∃ s', stamped.processNewVoteState [⟨1, 2⟩, ⟨2, 1⟩] none (some 5) 0 =
      some (.error .timestampTooOld, s') ∧ s' = stamped := by
  have h : stamped.processNewVoteState [⟨1, 2⟩, ⟨2, 1⟩] none (some 5) 0 =
      some (.error .timestampTooOld, stamped) := by
    decide +kernel
  exact ⟨_, h, (refused_unchanged_iff h).mpr (.inl rfl)⟩

/-- The same vote with a new root is refused as well, but has earned a credit. -/
theorem refused_root_credited : (stamped.processNewVoteState [⟨2, 1⟩] (some 1) (some 5) 7).map
      (fun p ↦ (p.1, p.2.epochCredits)) = some (.error .timestampTooOld, [(7, 1, 0)]) ∧
    stamped.epochCredits = [] := by
  decide +kernel

/-! ### Towers grown vote by vote -/

/-- A grown tower passes by itself, if the lockouts that are compared with a next vote end before
the last slot of a `u64`. -/
theorem Grown.isChain_follows (hs : Grown s) (hroom : ∀ v ∈ s.votes.dropLast, v.expiry < 2 ^ 64) :
    s.votes.IsChain Follows := by
  have hslots := hs.stack.slots_lt.isChain
  have hcounts := hs.stack.counts_gt.isChain
  have hlocked := hs.stack.locked
  rw [isChain_iff_getElem] at *
  intro i hi
  refine ⟨hslots i hi, hcounts i hi, hroom _ ?_, hlocked i hi⟩
  rw [mem_iff_getElem]
  exact ⟨i, by rw [length_dropLast]; omega, getElem_dropLast _⟩

lemma Grown.proposable (hs : Grown s) : ∀ v ∈ s.votes, Proposable s.rootSlot v := by
  intro v hv
  exact ⟨hs.stack.count_pos v hv, hs.stack.count_le v hv, fun r hr _ ↦ hs.root_lt r hr v hv⟩

lemma Accounted.respected {a : Lockout} (ha : Accounted a s)
    (hroot : ∀ r ∈ s.rootSlot, r < a.slot) (hroom : ∀ v ∈ s.votes, v.slot < 2 ^ 64) :
    Respected a s.votes := by
  rcases ha with hkept | ⟨r, hr, hle⟩ | ⟨hexp, -⟩
  · exact .inl hkept
  · exact absurd (hroot r hr) (Nat.not_lt_of_le hle)
  · exact .inr fun t ht hat ↦ ⟨hexp t ht hat, (hexp t ht hat).trans (hroom t ht)⟩

lemma Grown.credits_lt (hs : Grown s) (hslot : ∀ v ∈ s.votes, v.slot < slot)
    (hroom : slot < 2 ^ 64) : s.credits + 1 < 2 ^ 64 := by
  have hle := hs.credits_le
  rcases hroot : s.rootSlot with - | r
  · simp only [hroot, map_none, getD_none] at hle
    omega
  obtain ⟨v, hv⟩ := exists_mem_of_ne_nil _ (hs.ne_nil (by simp [hroot]))
  have hrv := hs.root_lt r hroot v hv
  have hvs := hslot v hv
  simp only [hroot, map_some, getD_some] at hle
  lia

/-- **Growing refines replacing.** Every tower grown by single votes is a lockout stack with one
confirmation at the end. If the slots voted for are `u64` values and the lockouts of the votes of
`t` but the last end before the last `u64`, a tower `t` grown from `s` by votes of which one is
new is accepted when it is proposed to `s` as a whole. -/
theorem processNewVoteState_of_processVoteSlots :
    (∀ slots s, processVoteSlots default slots = some s →
      Stack s.votes ∧ ∀ v ∈ s.votes.getLast?, v.confirmationCount = 1) ∧
    ∀ before after s t epoch, processVoteSlots default before = some s →
      s.processVoteSlots after = some t →
      (∃ vote ∈ after, ∀ last ∈ s.lastVotedSlot, last < vote.1) →
      (∀ vote ∈ before ++ after, vote.1 < 2 ^ 64) → (∀ v ∈ t.votes.dropLast, v.expiry < 2 ^ 64) →
      ∃ s', s.processNewVoteState t.votes t.rootSlot none epoch = some (.ok (), s') ∧
        s'.votes = t.votes ∧ s'.rootSlot = t.rootSlot := by
  refine ⟨fun slots s h ↦ ?_, ?_⟩
  · have hs := grown_default.run h
    exact ⟨hs.stack, hs.last_count⟩
  rintro before after s t epoch hs ht ⟨vote, hvote, hnew⟩ hslots hroom
  have hgs : Grown s := grown_default.run hs
  have hgt : Grown t := hgs.run ht
  have hroom_s : ∀ v ∈ s.votes, v.slot < 2 ^ 64 := slot_of_processVoteSlots (p := (· < 2 ^ 64))
      (fun v hv ↦ hslots v (mem_append_left _ hv)) (forall_mem_nil _) hs
  have hroom_t : ∀ v ∈ t.votes, v.slot < 2 ^ 64 := slot_of_processVoteSlots (p := (· < 2 ^ 64))
      (fun v hv ↦ hslots v (mem_append_right _ hv)) hroom_s ht
  obtain ⟨last, hlast, hle⟩ := le_getLast?_of_processVoteSlots hvote ht
  -- the last vote of the grown tower is above all votes it grew from
  have habove : ∀ v ∈ s.votes.getLast?, v.slot < last.slot := by
    intro v hv
    refine (hnew v.slot ?_).trans_le hle
    rw [lastVotedSlot, lastLockout, mem_def.1 hv]
    rfl
  have hcheck : s.checkNewVoteState t.votes t.rootSlot = .ok () := by
    rw [checkNewVoteState_eq_ok hgs.stack.slots_lt]
    exact ⟨⟨last, hlast, isOldSlot_eq_false.2 habove⟩, hgt.stack.length_le,
      (hgs.later ht).root_le, hgt.proposable, hgt.isChain_follows hroom, fun v hv hroot ↦
      ((hgs.later ht).accounted v hv).respected hroot hroom_t⟩
  have hcredits : s.credits + 1 < 2 ^ 64 := by
    refine Grown.credits_lt (s := s) hgs (fun v hv ↦ ?_) (hroom_t last (mem_of_getLast? hlast))
    obtain ⟨top, htop⟩ := isSome_iff_exists.1 (getLast?_isSome.2 (ne_nil_of_mem hv))
    exact (le_slot_of_getLast? hgs.stack.slots_lt htop hv).trans_lt (habove top htop)
  obtain ⟨s', hs'⟩ := exists_processNewVoteState hcheck hcredits
  exact ⟨s', hs', (processNewVoteState_spec hs').2⟩

/-- One vote is proposed after another. -/
theorem processNewVoteState_of_processVoteSlots_second :
    ∃ s t s', processVoteSlots default [(1, 0)] = some s ∧ s.processVoteSlots [(2, 0)] = some t ∧
      s.processNewVoteState t.votes t.rootSlot none 0 = some (.ok (), s') ∧
      s'.votes = [⟨1, 2⟩, ⟨2, 1⟩] := by
  obtain ⟨s', hs', hvotes, -⟩ := processNewVoteState_of_processVoteSlots.2 [(1, 0)] [(2, 0)]
    (ofVotes [⟨1, 1⟩]) (ofVotes [⟨1, 2⟩, ⟨2, 1⟩]) 0 rfl rfl (by decide) (by decide) (by decide)
  exact ⟨_, _, s', rfl, rfl, hs', hvotes⟩

/-- **Without the room it fails.** Two votes just below the last slot grow a tower that the empty
tower cannot be replaced by: the check of the first vote overflows. -/
theorem grown_not_proposable : ∃ before after s t, processVoteSlots default before = some s ∧
      s.processVoteSlots after = some t ∧
      (∃ vote ∈ after, ∀ last ∈ s.lastVotedSlot, last < vote.1) ∧
      (∀ vote ∈ before ++ after, vote.1 < 2 ^ 64) ∧
      s.processNewVoteState t.votes t.rootSlot none 0 = none := by
  refine ⟨[], [(2 ^ 64 - 3, 0), (2 ^ 64 - 2, 0)], default,
    ofVotes [⟨2 ^ 64 - 3, 2⟩, ⟨2 ^ 64 - 2, 1⟩], rfl, rfl, ?_, by decide, rfl⟩
  exact ⟨(2 ^ 64 - 3, 0), mem_cons_self, fun _ h ↦ absurd h (not_mem_none _)⟩

end

end Renec.VoteState
