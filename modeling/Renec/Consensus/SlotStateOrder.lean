import Renec.Consensus.SlotStates

/-!
# The order of the events about a slot

The status of a frozen bank in the fork choice is a function of the events that have been seen
(`Seen.status`), whatever their order — with one exception. A bank that freezes after the slot was
seen as duplicate, and after a sample of the cluster has frozen the same version, is not marked, as
the duplicate is not looked at (`duplicate_not_marked`).
-/

namespace Renec.SlotState

open List HeaviestSubtreeForkChoice Finmap
open Option hiding or_assoc

open Tracked

variable {S : Setting}

def Setting.key (S : Setting) : SlotHashKey := ⟨S.slot, S.frozenHash⟩

/-! ### Status -/

/-- Whether a bank is confirmed, and whether it is marked as invalid. -/
structure Status where
  confirmed : Bool
  invalid : Bool
  deriving DecidableEq

/-- The fork choice has the bank as a leaf with this status. -/
def HasStatus (S : Setting) (s : Tracked) (status : Status) : Prop :=
  IsLeaf s.forkChoice.forkInfos S.key ∧ ∃ info, s.forkChoice.forkInfos.lookup S.key = some info ∧
    info.isDuplicateConfirmed = status.confirmed ∧
    (status.confirmed = true → info.latestInvalidAncestor = none) ∧
    (∀ latest, info.latestInvalidAncestor = some latest → latest ≤ S.slot) ∧
    (info.latestInvalidAncestor = some S.slot ↔ status.invalid = true)

/-- What a state change makes of the status. -/
def Status.apply (status : Status) : ResultingStateChange → Status
  | .markSlotDuplicate _ => ⟨status.confirmed, true⟩
  | .duplicateConfirmedSlotMatchesCluster _ => ⟨true, false⟩
  | _ => status

/-- A change that can be applied: to the bank, and without marking it as invalid if it is
confirmed. -/
def Status.Allows (S : Setting) (status : Status) : ResultingStateChange → Prop
  | .bankFrozen hash => hash = S.frozenHash
  | .markSlotDuplicate hash => hash = S.frozenHash ∧ status.confirmed = false
  | .duplicateConfirmedSlotMatchesCluster hash => hash = S.frozenHash
  | _ => True

/-- Each change of a list can be applied after those before it. -/
def Status.AllowsAll (S : Setting) (status : Status) : List ResultingStateChange → Prop
  | [] => True
  | change :: changes => status.Allows S change ∧ (status.apply change).AllowsAll S changes

/-- The maps of the events, which state changes leave alone. -/
structure SameMaps (s s' : Tracked) : Prop where
  tracker : s'.duplicateSlotsTracker = s.duplicateSlotsTracker
  gossip : s'.gossipDuplicateConfirmedSlots = s.gossipDuplicateConfirmedSlots
  epochSlots : s'.epochSlotsFrozenSlots = s.epochSlotsFrozenSlots
  bankForks : s'.bankForks = s.bankForks
  dead : s'.deadSlots = s.deadSlots

lemma SameMaps.refl (s : Tracked) : SameMaps s s := ⟨rfl, rfl, rfl, rfl, rfl⟩

lemma SameMaps.trans {a b c : Tracked} (hab : SameMaps a b) (hbc : SameMaps b c) : SameMaps a c :=
  ⟨hbc.tracker.trans hab.tracker, hbc.gossip.trans hab.gossip,
    hbc.epochSlots.trans hab.epochSlots, hbc.bankForks.trans hab.bankForks, hbc.dead.trans hab.dead⟩

variable {changes : List ResultingStateChange} {s : Tracked}

namespace HasStatus

variable {status : Status}

lemma isDuplicateConfirmed (h : HasStatus S s status) :
    s.forkChoice.isDuplicateConfirmed S.key = some status.confirmed := by
  obtain ⟨-, info, hinfo, hconfirmed, -⟩ := h
  rw [HeaviestSubtreeForkChoice.isDuplicateConfirmed, hinfo, map_some, hconfirmed]

lemma applyStateChange (h : HasStatus S s status) {change : ResultingStateChange}
    (hallows : status.Allows S change) (pending : Option Hash) :
    ∃ s' pending', Tracked.applyStateChange S.slot (s, pending) change = some (s', pending') ∧
      SameMaps s s' ∧ HasStatus S s' (status.apply change) := by
  obtain ⟨hleaf, info, hinfo, hconfirmed, hnone, hle, hinvalid⟩ := h
  have hstatus : HasStatus S s status := ⟨hleaf, info, hinfo, hconfirmed, hnone, hle, hinvalid⟩
  cases change with
  | bankFrozen hash =>
    obtain rfl : hash = S.frozenHash := hallows
    have hc := hstatus.isDuplicateConfirmed
    rw [Setting.key] at hc
    refine ⟨s, if status.confirmed then pending else some S.frozenHash, ?_, .refl s, hstatus⟩
    simp only [Tracked.applyStateChange, hc, some_bind]
    rfl
  | markSlotDuplicate hash =>
    obtain ⟨rfl, hfalse⟩ := hallows
    rw [hfalse] at hconfirmed
    obtain ⟨infos', info', hmark, hleaf', hinfo', hconfirmed', hlatest⟩ :=
      hleaf.markForkInvalidCandidate hinfo hconfirmed hle
    refine ⟨{ s with forkChoice := { s.forkChoice with forkInfos := infos' } }, pending, ?_,
      ⟨rfl, rfl, rfl, rfl, rfl⟩, hleaf', info', hinfo', ?_, ?_, ?_, ?_⟩
    · rw [Setting.key] at hmark
      simp only [Tracked.applyStateChange, markForkInvalidCandidate, hmark, some_bind]
      rfl
    · rw [Status.apply, hfalse, hconfirmed']
    · rw [Status.apply, hfalse]
      exact nofun
    · intro latest h
      exact (some.inj (hlatest.symm.trans h)).ge
    · exact ⟨fun _ ↦ rfl, fun _ ↦ hlatest⟩
  | repairDuplicateConfirmedVersion hash =>
    exact ⟨_, _, rfl, ⟨rfl, rfl, rfl, rfl, rfl⟩, hstatus⟩
  | duplicateConfirmedSlotMatchesCluster hash =>
    obtain rfl : hash = S.frozenHash := hallows
    obtain ⟨infos', confirmed, info', hmark, hleaf', hinfo', hconfirmed', hlatest⟩ :=
      hleaf.markForkValidCandidate hinfo hle
    refine ⟨{ s with
      forkChoice := { s.forkChoice with forkInfos := infos' }
      bankHashes := confirmed.foldl (fun m key ↦ m.insert key.slot (key.hash, true)) s.bankHashes
      duplicateSlotsToRepair := s.duplicateSlotsToRepair.filterKeys fun k ↦ k ≠ S.slot }, none, ?_,
      ⟨rfl, rfl, rfl, rfl, rfl⟩, hleaf', info', hinfo', hconfirmed', fun _ ↦ hlatest, ?_, ?_⟩
    · rw [Setting.key] at hmark
      simp only [Tracked.applyStateChange, markForkValidCandidate, hmark, some_bind]
      rfl
    · intro latest h
      rw [hlatest] at h
      cases h
    rw [hlatest]
    exact ⟨nofun, nofun⟩
  | sendAncestorHashesReplayUpdate update =>
    exact ⟨_, _, rfl, ⟨rfl, rfl, rfl, rfl, rfl⟩, hstatus⟩

/-- State changes have the effect on the status that each of them has. -/
theorem applyStateChanges (h : HasStatus S s status) (hallows : status.AllowsAll S changes) :
    ∃ s', s.applyStateChanges S.slot changes = some s' ∧ SameMaps s s' ∧
      HasStatus S s' (changes.foldl Status.apply status) := by
  have hfold : ∀ (pending : Option Hash), ∃ s' pending',
      changes.foldlM (Tracked.applyStateChange S.slot) (s, pending) = some (s', pending') ∧
        SameMaps s s' ∧ HasStatus S s' (changes.foldl Status.apply status) := by
    induction changes generalizing s status with
    | nil => exact fun pending ↦ ⟨s, pending, rfl, .refl s, h⟩
    | cons change changes ih =>
      intro pending
      obtain ⟨s₁, pending₁, happly, hmaps, h₁⟩ := h.applyStateChange hallows.1 pending
      obtain ⟨s₂, pending₂, hfold, hmaps', h₂⟩ := ih h₁ hallows.2 pending₁
      exact ⟨s₂, pending₂, by rw [foldlM_cons, happly]; exact hfold, hmaps.trans hmaps', h₂⟩
  obtain ⟨s', pending, hfold, hmaps, h'⟩ := hfold none
  rw [Tracked.applyStateChanges, hfold]
  cases pending with
  | none => exact ⟨s', rfl, hmaps, h'⟩
  | some hash =>
    refine ⟨_, rfl, ?_⟩
    rw [insertBankHash]
    split_ifs
    · exact ⟨hmaps, h'⟩
    · exact ⟨hmaps.trans ⟨rfl, rfl, rfl, rfl, rfl⟩, h'⟩

end HasStatus

/-! ### Events that have been seen -/

/-- The events that have been seen. -/
structure Seen where
  duplicate : Bool
  duplicateConfirmed : Bool
  replayConfirmed : Bool
  epochSlotsFrozen : Bool

namespace Seen

def none : Seen := ⟨false, false, false, false⟩

variable (S : Setting) (seen : Seen)

def add : Event → Seen
  | .bankFrozen => seen
  | .duplicate => { seen with duplicate := true }
  | .duplicateConfirmed => { seen with duplicateConfirmed := true }
  | .replayConfirmed => { seen with replayConfirmed := true }
  | .epochSlotsFrozen => { seen with epochSlotsFrozen := true }

/-- The version of the bank is confirmed by the cluster. -/
def confirms : Bool := (seen.duplicateConfirmed || seen.replayConfirmed) &&
    decide (S.duplicateConfirmedHash = S.frozenHash)

/-- The cluster has another version of the bank. -/
def differs : Bool :=
  (seen.duplicateConfirmed && decide (S.duplicateConfirmedHash ≠ S.frozenHash)) ||
    (seen.epochSlotsFrozen && decide (S.epochSlotsFrozenHash ≠ S.frozenHash))

/-- The status that the events should give, if a duplicate that was missed is not counted. -/
def status (missed : Bool) (seen : Seen) : Status :=
  ⟨seen.confirms S, !seen.confirms S && ((seen.duplicate && !missed) || seen.differs S)⟩

/-- A duplicate is missed when the bank freezes. -/
def misses : Bool := seen.duplicate && seen.epochSlotsFrozen && !seen.duplicateConfirmed &&
    decide (S.epochSlotsFrozenHash = S.frozenHash)

end Seen

/-- The maps say what has been seen. -/
structure Records (S : Setting) (s : Tracked) (seen : Seen) : Prop where
  tracker : S.slot ∈ s.duplicateSlotsTracker ↔ seen.duplicate = true
  gossip : s.gossipDuplicateConfirmedSlots.get? S.slot =
    if seen.duplicateConfirmed then some S.duplicateConfirmedHash else none
  epochSlots : s.epochSlotsFrozenSlots.get? S.slot =
    if seen.epochSlotsFrozen then some S.epochSlotsFrozenHash else none
  dead : S.slot ∉ s.deadSlots

variable {seen : Seen} {forkChoice : HeaviestSubtreeForkChoice}

lemma Records.congr {s' : Tracked} (h : Records S s seen) (hmaps : SameMaps s s') :
    Records S s' seen :=
  ⟨by rw [hmaps.tracker]; exact h.tracker, by rw [hmaps.gossip]; exact h.gossip,
    by rw [hmaps.epochSlots]; exact h.epochSlots, by rw [hmaps.dead]; exact h.dead⟩

section

variable (h : Records S s seen)

include h

lemma Records.add_duplicate {tracker : Finset Slot} (hmem : S.slot ∈ tracker) :
    Records S { s with duplicateSlotsTracker := tracker } (seen.add .duplicate) :=
  ⟨⟨fun _ ↦ rfl, fun _ ↦ hmem⟩, h.gossip, h.epochSlots, h.dead⟩

lemma Records.add_duplicateConfirmed {m : SortedMap Slot Hash}
    (hget : m.get? S.slot = some S.duplicateConfirmedHash) :
    Records S { s with gossipDuplicateConfirmedSlots := m } (seen.add .duplicateConfirmed) :=
  ⟨h.tracker, hget, h.epochSlots, h.dead⟩

lemma Records.add_epochSlotsFrozen : Records S { s with
    epochSlotsFrozenSlots := s.epochSlotsFrozenSlots.insert S.slot S.epochSlotsFrozenHash }
    (seen.add .epochSlotsFrozen) :=
  ⟨h.tracker, h.gossip, SortedMap.get?_insert_self, h.dead⟩

end

/-! ### Events before the bank is frozen -/

/-- What is known of a slot whose bank is not frozen. -/
structure Unfrozen (S : Setting) (forkChoice : HeaviestSubtreeForkChoice) (s : Tracked)
    (seen : Seen) : Prop where
  records : Records S s seen
  bank : s.bankForks.get? S.slot = none
  forkChoice : s.forkChoice = forkChoice
  replayed : seen.replayConfirmed = false

/-- What is known of a slot whose bank is frozen. -/
structure Frozen (S : Setting) (missed : Bool) (s : Tracked) (seen : Seen) : Prop where
  records : Records S s seen
  bank : s.bankForks.get? S.slot = some S.frozenHash
  status : HasStatus S s (seen.status S missed)
  missed : missed = true → seen.duplicate = true
  replayed : seen.replayConfirmed = true → S.duplicateConfirmedHash = S.frozenHash

lemma Records.bankStatus_unprocessed (h : Records S s seen)
    (hbank : s.bankForks.get? S.slot = none) : s.bankStatus S.slot = .unprocessed := by
  rw [bankStatus, hbank, decide_eq_false h.dead]
  rfl

lemma Records.bankStatus_frozen (h : Records S s seen)
    (hbank : s.bankForks.get? S.slot = some S.frozenHash) (hhash : S.frozenHash ≠ default) :
    s.bankStatus S.slot = .frozen S.frozenHash := by
  rw [bankStatus, hbank, decide_eq_false h.dead]
  exact if_neg hhash

variable {event : Event}

/-- Before the bank is frozen events are recorded, and nothing else happens. -/
theorem Unfrozen.handle (h : Unfrozen S forkChoice s seen) (hroot : S.root < S.slot)
    (hevent : event ≠ .bankFrozen) (hreplay : event ≠ .replayConfirmed) :
    ∃ s', s.handle S event = some s' ∧ Unfrozen S forkChoice s' (seen.add event) := by
  have hbank := h.records.bankStatus_unprocessed h.bank
  have hnot : ¬S.slot ≤ S.root := not_le.mpr hroot
  cases event with
  | bankFrozen => exact absurd rfl hevent
  | replayConfirmed => exact absurd rfl hreplay
  | duplicate =>
    have hstate : s.duplicateState S.slot =
        some ⟨s.gossipDuplicateConfirmedSlots.get? S.slot, .unprocessed⟩ := by
      rw [duplicateState, hbank]
      rfl
    simp only [Tracked.handle, hstate, some_bind, Tracked.checkSlotAgreesWithCluster, if_neg hnot]
    split_ifs with hmem
    · exact ⟨s, rfl, h.records.add_duplicate hmem, h.bank, h.forkChoice, h.replayed⟩
    exact ⟨_, rfl, h.records.add_duplicate (Finset.mem_insert_self _ _), h.bank, h.forkChoice,
      h.replayed⟩
  | duplicateConfirmed =>
    have hgossip := h.records.gossip
    cases hseen : seen.duplicateConfirmed with
    | true =>
      rw [hseen, if_pos rfl] at hgossip
      simp only [Tracked.handle, if_neg hnot, hgossip, if_true]
      exact ⟨s, rfl, h.records.add_duplicateConfirmed hgossip, h.bank, h.forkChoice, h.replayed⟩
    | false =>
      rw [hseen, if_neg Bool.false_ne_true] at hgossip
      have hstatus : ∀ m, bankStatus { s with gossipDuplicateConfirmedSlots := m } S.slot =
          .unprocessed := fun _ ↦ hbank
      simp only [Tracked.handle, if_neg hnot, hgossip, hstatus, Tracked.checkSlotAgreesWithCluster]
      exact ⟨_, rfl, h.records.add_duplicateConfirmed SortedMap.get?_insert_self, h.bank,
        h.forkChoice, h.replayed⟩
  | epochSlotsFrozen =>
    have hstate : s.epochSlotsFrozenState S.slot S.epochSlotsFrozenHash =
        some ⟨S.epochSlotsFrozenHash, s.gossipDuplicateConfirmedSlots.get? S.slot,
          .unprocessed⟩ := by
      rw [epochSlotsFrozenState, hbank]
      rfl
    simp only [Tracked.handle, hstate, some_bind, Tracked.checkSlotAgreesWithCluster, if_neg hnot]
    split_ifs
    · exact ⟨_, rfl, h.records.add_epochSlotsFrozen, h.bank, h.forkChoice, h.replayed⟩
    · exact ⟨_, rfl, h.records.add_epochSlotsFrozen, h.bank, h.forkChoice, h.replayed⟩

/-! ### Events after the bank is frozen -/

variable {missed : Bool}

section

variable {seen : Seen}

/-- The confirmed hash that the maps and the fork choice know of. -/
def Seen.confirmedHash (S : Setting) (seen : Seen) : Option Hash :=
  if seen.confirms S then some S.frozenHash
  else if seen.duplicateConfirmed then some S.duplicateConfirmedHash else .none

lemma Records.getDuplicateConfirmedHashFromState (h : Records S s seen) {status : Status}
    (hstatus : HasStatus S s status) (hhash : S.frozenHash ≠ default) :
    s.getDuplicateConfirmedHashFromState S.slot (some S.frozenHash) =
      some (if status.confirmed then some S.frozenHash
        else if seen.duplicateConfirmed then some S.duplicateConfirmedHash else none) := by
  have hlocal := hstatus.isDuplicateConfirmed
  rw [Setting.key] at hlocal
  rw [Tracked.getDuplicateConfirmedHashFromState, Tracked.isLocalReplayDuplicateConfirmed, hlocal,
    getD_some, h.gossip, getDuplicateConfirmedHash]
  cases status.confirmed with
  | true =>
    simp only [if_true, some_bind, if_neg hhash]
    cases seen.duplicateConfirmed <;> rfl
  | false =>
    simp only [Bool.false_eq_true, if_false, some_bind]
    rfl

lemma Seen.status_add (h : seen.confirms S = true) :
    (seen.add event).status S missed = seen.status S missed := by
  have hadd : (seen.add event).confirms S = true := by
    cases event <;> simp_all [Seen.confirms, Seen.add]
  rw [Seen.status, Seen.status, h, hadd]
  rfl

/-! What the state changes of each event make of the status. -/

/-- The changes are allowed, and lead to another status. -/
def Status.Leads (S : Setting) (status : Status) (changes : List ResultingStateChange)
    (final : Status) : Prop :=
  status.AllowsAll S changes ∧ changes.foldl Status.apply status = final

section

attribute [local simp] Seen.status Seen.confirms Seen.differs Seen.add Status.Leads
  Status.AllowsAll Status.Allows Status.apply SlotStateUpdate.intoStateChanges
  SlotStateUpdate.bankHash BankStatus.bankHash

lemma Seen.replayConfirmed_changes (hc : S.duplicateConfirmedHash = S.frozenHash) :
    (seen.status S missed).Leads S ((SlotStateUpdate.duplicateConfirmed
      ⟨S.frozenHash, .frozen S.frozenHash⟩).intoStateChanges S.slot)
      ((seen.add .replayConfirmed).status S missed) := by
  simp [onDuplicateConfirmed, checkDuplicateConfirmedHashAgainstFrozenHash, hc]

variable (hreplayed : seen.replayConfirmed = true → S.duplicateConfirmedHash = S.frozenHash)

include hreplayed

lemma Seen.duplicate_changes (hseen : seen.duplicate = false) :
    (seen.status S false).Leads S ((SlotStateUpdate.duplicate
      ⟨seen.confirmedHash S, .frozen S.frozenHash⟩).intoStateChanges S.slot)
      ((seen.add .duplicate).status S false) := by
  obtain ⟨duplicate, duplicateConfirmed, replayConfirmed, epochSlotsFrozen⟩ := seen
  obtain rfl : duplicate = false := hseen
  by_cases hc : S.duplicateConfirmedHash = S.frozenHash
  all_goals cases duplicateConfirmed <;> cases replayConfirmed <;>
    simp_all [Seen.confirmedHash, onDuplicate]

lemma Seen.duplicateConfirmed_changes (hseen : seen.confirms S = false) :
    (seen.status S missed).Leads S ((SlotStateUpdate.duplicateConfirmed
      ⟨S.duplicateConfirmedHash, .frozen S.frozenHash⟩).intoStateChanges S.slot)
      ((seen.add .duplicateConfirmed).status S missed) := by
  obtain ⟨duplicate, duplicateConfirmed, replayConfirmed, epochSlotsFrozen⟩ := seen
  by_cases hc : S.duplicateConfirmedHash = S.frozenHash
  all_goals cases duplicateConfirmed <;> cases replayConfirmed <;>
    simp_all [onDuplicateConfirmed, checkDuplicateConfirmedHashAgainstFrozenHash]

lemma Seen.epochSlotsFrozen_changes (hseen : seen.epochSlotsFrozen = false) :
    (seen.status S missed).Leads S ((SlotStateUpdate.epochSlotsFrozen ⟨S.epochSlotsFrozenHash,
      seen.confirmedHash S, .frozen S.frozenHash⟩).intoStateChanges S.slot)
      ((seen.add .epochSlotsFrozen).status S missed) := by
  obtain ⟨duplicate, duplicateConfirmed, replayConfirmed, epochSlotsFrozen⟩ := seen
  obtain rfl : epochSlotsFrozen = false := hseen
  by_cases hc : S.duplicateConfirmedHash = S.frozenHash
  all_goals by_cases he : S.epochSlotsFrozenHash = S.frozenHash
  all_goals cases duplicateConfirmed <;> cases replayConfirmed <;>
    simp_all [Seen.confirmedHash, onEpochSlotsFrozen, checkEpochSlotsHashAgainstFrozenHash]

/-- The cluster's word on a slot, as it is known when the bank freezes. -/
def Seen.clusterConfirmedHash (S : Setting) (seen : Seen) : Option ClusterConfirmedHash :=
  if seen.duplicateConfirmed then some (.duplicateConfirmed S.duplicateConfirmedHash)
  else if seen.epochSlotsFrozen then some (.epochSlotsFrozen S.epochSlotsFrozenHash)
  else .none

omit hreplayed in
lemma Seen.bankFrozen_changes (hreplayed : seen.replayConfirmed = false) :
    Status.Leads S ⟨false, false⟩ ((SlotStateUpdate.bankFrozen ⟨S.frozenHash,
      seen.clusterConfirmedHash S, seen.duplicate⟩).intoStateChanges S.slot)
      (seen.status S (seen.misses S)) := by
  obtain ⟨duplicate, duplicateConfirmed, replayConfirmed, epochSlotsFrozen⟩ := seen
  obtain rfl : replayConfirmed = false := hreplayed
  by_cases hc : S.duplicateConfirmedHash = S.frozenHash
  all_goals by_cases he : S.epochSlotsFrozenHash = S.frozenHash
  all_goals cases duplicate <;> cases duplicateConfirmed <;> cases epochSlotsFrozen <;>
    simp_all [Seen.clusterConfirmedHash, Seen.misses, onFrozenSlot,
      checkDuplicateConfirmedHashAgainstFrozenHash, checkEpochSlotsHashAgainstFrozenHash]

end

lemma Records.applyStateChanges (hrecords : Records S s seen)
    (hbank : s.bankForks.get? S.slot = some S.frozenHash) {status : Status}
    (hstatus : HasStatus S s status) (hleads : status.Leads S changes (seen.status S missed))
    (hmissed : missed = true → seen.duplicate = true)
    (hreplayed : seen.replayConfirmed = true → S.duplicateConfirmedHash = S.frozenHash) :
    ∃ s', s.applyStateChanges S.slot changes = some s' ∧ Frozen S missed s' seen := by
  obtain ⟨s', happly, hmaps, hstatus'⟩ := hstatus.applyStateChanges hleads.1
  rw [hleads.2] at hstatus'
  refine ⟨s', happly, hrecords.congr hmaps, ?_, hstatus', hmissed, hreplayed⟩
  rw [hmaps.bankForks]
  exact hbank

namespace Frozen

variable (h : Frozen S missed s seen) (hroot : S.root < S.slot) (hhash : S.frozenHash ≠ default)

include h hroot hhash

lemma handle_duplicate :
    ∃ s', s.handle S .duplicate = some s' ∧ Frozen S missed s' (seen.add .duplicate) := by
  have hbank := h.records.bankStatus_frozen h.bank hhash
  have hstate : s.duplicateState S.slot = some ⟨seen.confirmedHash S, .frozen S.frozenHash⟩ := by
    simp only [duplicateState, hbank, BankStatus.bankHash,
      h.records.getDuplicateConfirmedHashFromState h.status hhash, some_bind]
    rfl
  simp only [Tracked.handle, hstate, some_bind, Tracked.checkSlotAgreesWithCluster,
    if_neg (not_le.mpr hroot)]
  split_ifs with hmem
  · have hseen : seen.add .duplicate = seen := by
      rw [Seen.add, ← h.records.tracker.mp hmem]
    exact ⟨s, rfl, hseen ▸ h⟩
  have hfalse : seen.duplicate = false := by
    rw [h.records.tracker, Bool.not_eq_true] at hmem
    exact hmem
  have hmissed : missed = false := by
    cases missed with
    | false => rfl
    | true => exact absurd (h.missed rfl) (by rw [hfalse]; exact Bool.false_ne_true)
  subst hmissed
  have hrecords := h.records.add_duplicate (Finset.mem_insert_self _ s.duplicateSlotsTracker)
  exact hrecords.applyStateChanges h.bank h.status (Seen.duplicate_changes h.replayed hfalse)
    (fun _ ↦ rfl) h.replayed

omit hroot hhash in
lemma isDuplicateConfirmed_iff :
    ((BankStatus.frozen S.frozenHash).bankHash.bind fun hash ↦
      s.forkChoice.isDuplicateConfirmed ⟨S.slot, hash⟩) = some true ↔ seen.confirms S = true := by
  have hconfirmed := h.status.isDuplicateConfirmed
  rw [Setting.key] at hconfirmed
  rw [BankStatus.bankHash, bind_some, hconfirmed, some.injEq]
  rfl

lemma handle_duplicateConfirmed : ∃ s', s.handle S .duplicateConfirmed = some s' ∧
    Frozen S missed s' (seen.add .duplicateConfirmed) := by
  have hbank := h.records.bankStatus_frozen h.bank hhash
  have hgossip := h.records.gossip
  cases hseen : seen.duplicateConfirmed with
  | true =>
    rw [hseen, if_pos rfl] at hgossip
    simp only [Tracked.handle, if_neg (not_le.mpr hroot), hgossip, if_true]
    have hadd : seen.add .duplicateConfirmed = seen := by rw [Seen.add, ← hseen]
    exact ⟨s, rfl, hadd ▸ h⟩
  | false =>
    rw [hseen, if_neg Bool.false_ne_true] at hgossip
    have hstatus : ∀ m, bankStatus { s with gossipDuplicateConfirmedSlots := m } S.slot =
        .frozen S.frozenHash := fun _ ↦ hbank
    simp only [Tracked.handle, if_neg (not_le.mpr hroot), hgossip, hstatus,
      Tracked.checkSlotAgreesWithCluster, h.isDuplicateConfirmed_iff]
    have hrecords := h.records.add_duplicateConfirmed
      (@SortedMap.get?_insert_self _ _ _ s.gossipDuplicateConfirmedSlots _ _)
    split_ifs with hconfirms
    · -- the bank was confirmed by the replay of votes
      refine ⟨_, rfl, hrecords, h.bank, ?_, h.missed, h.replayed⟩
      rw [Seen.status_add hconfirms]
      exact h.status
    rw [Bool.not_eq_true] at hconfirms
    exact hrecords.applyStateChanges h.bank h.status
      (Seen.duplicateConfirmed_changes h.replayed hconfirms) h.missed h.replayed

lemma handle_replayConfirmed (hc : S.duplicateConfirmedHash = S.frozenHash) :
    ∃ s', s.handle S .replayConfirmed = some s' ∧
      Frozen S missed s' (seen.add .replayConfirmed) := by
  have hnew : BankStatus.new false (some S.frozenHash) = .frozen S.frozenHash := if_neg hhash
  simp only [Tracked.handle, if_neg (not_le.mpr hroot), hnew, Tracked.checkSlotAgreesWithCluster,
    h.isDuplicateConfirmed_iff]
  have hrecords : Records S s (seen.add .replayConfirmed) :=
    ⟨h.records.tracker, h.records.gossip, h.records.epochSlots, h.records.dead⟩
  split_ifs with hconfirms
  · refine ⟨s, rfl, hrecords, h.bank, ?_, h.missed, fun _ ↦ hc⟩
    rw [Seen.status_add hconfirms]
    exact h.status
  exact hrecords.applyStateChanges h.bank h.status (Seen.replayConfirmed_changes hc) h.missed
    fun _ ↦ hc

lemma handle_epochSlotsFrozen : ∃ s', s.handle S .epochSlotsFrozen = some s' ∧
    Frozen S missed s' (seen.add .epochSlotsFrozen) := by
  have hbank := h.records.bankStatus_frozen h.bank hhash
  have hstate : s.epochSlotsFrozenState S.slot S.epochSlotsFrozenHash =
      some ⟨S.epochSlotsFrozenHash, seen.confirmedHash S, .frozen S.frozenHash⟩ := by
    simp only [epochSlotsFrozenState, hbank, BankStatus.bankHash,
      h.records.getDuplicateConfirmedHashFromState h.status hhash, some_bind]
    rfl
  simp only [Tracked.handle, hstate, some_bind, Tracked.checkSlotAgreesWithCluster,
    if_neg (not_le.mpr hroot), h.records.epochSlots]
  have hrecords := h.records.add_epochSlotsFrozen
  cases hseen : seen.epochSlotsFrozen with
  | true =>
    simp only [if_true]
    have hadd : seen.add .epochSlotsFrozen = seen := by rw [Seen.add, ← hseen]
    exact ⟨_, rfl, hrecords, h.bank, hadd.symm ▸ h.status, h.missed, h.replayed⟩
  | false =>
    simp only [Bool.false_eq_true, if_false, reduceCtorEq]
    exact hrecords.applyStateChanges h.bank h.status
      (Seen.epochSlotsFrozen_changes h.replayed hseen) h.missed h.replayed

/-- After the bank is frozen its status is that of the events. -/
theorem handle (hevent : event ≠ .bankFrozen)
    (hreplay : event = .replayConfirmed → S.duplicateConfirmedHash = S.frozenHash) :
    ∃ s', s.handle S event = some s' ∧ Frozen S missed s' (seen.add event) := by
  cases event with
  | bankFrozen => exact absurd rfl hevent
  | duplicate => exact h.handle_duplicate hroot hhash
  | duplicateConfirmed => exact h.handle_duplicateConfirmed hroot hhash
  | replayConfirmed => exact h.handle_replayConfirmed hroot hhash (hreplay rfl)
  | epochSlotsFrozen => exact h.handle_epochSlotsFrozen hroot hhash

end Frozen

end

/-! ### Runs -/

/-- A slot above the root of which nothing has been seen, with its parent in the tree. -/
structure Fresh (S : Setting) (s : Tracked) : Prop where
  root : S.root < S.slot
  hash : S.frozenHash ≠ default
  records : Records S s .none
  bank : s.bankForks.get? S.slot = none
  parent : S.parent.slot < S.slot
  tree : ∃ T parentInfo, s.forkChoice.forkInfos.Represents T ∧
    ForkInfos.Weighed s.forkChoice.forkInfos ∧ S.key ∉ T.nodes ∧
    s.forkChoice.forkInfos.lookup S.parent = some parentInfo ∧
    ∀ latest, parentInfo.latestInvalidAncestor = some latest → latest ≤ S.parent.slot

variable {s₀ : Tracked}

/-- The bank freezes. -/
theorem Unfrozen.handle_bankFrozen (hfresh : Fresh S s₀) (h : Unfrozen S s₀.forkChoice s seen) :
    ∃ s', s.handle S .bankFrozen = some s' ∧ Frozen S (seen.misses S) s' seen := by
  obtain ⟨T, parentInfo, hT, hw, hnew, hparent, hlatest⟩ := hfresh.tree
  obtain ⟨infos, info, hadd, hleaf, hinfo, hconfirmed, hinvalid⟩ :=
    IsLeaf.exists_addNewLeafSlot hT hw hparent hnew hfresh.parent
  have hadd' : s.forkChoice.addNewLeafSlot ⟨S.slot, S.frozenHash⟩ (some S.parent) =
      some { s₀.forkChoice with forkInfos := infos } := by
    rw [h.forkChoice, addNewLeafSlot]
    rw [Setting.key] at hadd
    rw [hadd]
    rfl
  simp only [Tracked.handle, hadd', some_bind]
  generalize hm : s.bankForks.insert S.slot S.frozenHash = m
  generalize hs₁ : ({ s with
    forkChoice := { s₀.forkChoice with forkInfos := infos }, bankForks := m } : Tracked) = s₁
  have hrecords : Records S s₁ seen := by
    subst hs₁
    exact ⟨h.records.tracker, h.records.gossip, h.records.epochSlots, h.records.dead⟩
  have hbank : s₁.bankForks.get? S.slot = some S.frozenHash := by
    subst hs₁
    rw [← hm]
    exact SortedMap.get?_insert_self
  have hbelow : ∀ latest, info.latestInvalidAncestor = some latest → latest < S.slot := by
    intro latest hlat
    rw [hinvalid] at hlat
    exact lt_of_le_of_lt (hlatest latest hlat) hfresh.parent
  have hstatus : HasStatus S s₁ ⟨false, false⟩ := by
    subst hs₁
    refine ⟨hleaf, info, hinfo, hconfirmed, by simp, fun latest hlat ↦
      (hbelow latest hlat).le, fun hlat ↦ absurd (hbelow _ hlat) (lt_irrefl _), by simp⟩
  have hstate : s₁.bankFrozenState S.slot S.frozenHash =
      some ⟨S.frozenHash, seen.clusterConfirmedHash S, seen.duplicate⟩ := by
    have hduplicate : decide (S.slot ∈ s₁.duplicateSlotsTracker) = seen.duplicate := by
      rw [Bool.eq_iff_iff, decide_eq_true_eq]
      exact hrecords.tracker
    rw [bankFrozenState, getClusterConfirmedHashFromState,
      hrecords.getDuplicateConfirmedHashFromState hstatus hfresh.hash, hrecords.epochSlots,
      hduplicate, Seen.clusterConfirmedHash]
    simp only [if_neg hfresh.hash]
    cases seen.duplicateConfirmed <;> cases seen.epochSlotsFrozen <;> rfl
  simp only [hstate, some_bind, Tracked.checkSlotAgreesWithCluster, if_neg (not_le.mpr hfresh.root)]
  refine hrecords.applyStateChanges hbank hstatus (Seen.bankFrozen_changes h.replayed)
    (fun hmissed ↦ ?_) fun hr ↦ ?_
  · simp only [Seen.misses, Bool.and_eq_true] at hmissed
    exact hmissed.1.1.1
  rw [h.replayed] at hr
  cases hr

variable {events : List Event}

lemma Unfrozen.run (hroot : S.root < S.slot) (hevents : .bankFrozen ∉ events)
    (hreplay : .replayConfirmed ∉ events) (h : Unfrozen S forkChoice s seen) :
    ∃ s', events.foldlM (Tracked.handle S) s = some s' ∧
      Unfrozen S forkChoice s' (events.foldl Seen.add seen) :=
  exists_foldlM_foldl (fun _ hmem _ _ h ↦ h.handle hroot (ne_of_mem_of_not_mem hmem hevents)
    (ne_of_mem_of_not_mem hmem hreplay)) h

lemma Frozen.run (hroot : S.root < S.slot) (hhash : S.frozenHash ≠ default)
    (hevents : .bankFrozen ∉ events)
    (hreplay : .replayConfirmed ∈ events → S.duplicateConfirmedHash = S.frozenHash)
    (h : Frozen S missed s seen) :
    ∃ s', events.foldlM (Tracked.handle S) s = some s' ∧
      Frozen S missed s' (events.foldl Seen.add seen) :=
  exists_foldlM_foldl (fun _ hmem _ _ h ↦ h.handle hroot hhash
    (ne_of_mem_of_not_mem hmem hevents) fun heq ↦ hreplay (heq ▸ hmem)) h

lemma Seen.foldl_add (events : List Event) (seen : Seen) :
    events.foldl Seen.add seen = ⟨seen.duplicate || decide (.duplicate ∈ events),
      seen.duplicateConfirmed || decide (.duplicateConfirmed ∈ events),
      seen.replayConfirmed || decide (.replayConfirmed ∈ events),
      seen.epochSlotsFrozen || decide (.epochSlotsFrozen ∈ events)⟩ := by
  induction events generalizing seen with
  | nil => simp
  | cons event events ih =>
    rw [foldl_cons, ih]
    cases event <;> simp [Seen.add]

lemma Fresh.run (hfresh : Fresh S s₀) {pre post : List Event} (hpre : .bankFrozen ∉ pre)
    (hreplay : .replayConfirmed ∉ pre) (hpost : .bankFrozen ∉ post)
    (hreplay' : .replayConfirmed ∈ post → S.duplicateConfirmedHash = S.frozenHash) :
    ∃ s, (pre ++ .bankFrozen :: post).foldlM (Tracked.handle S) s₀ = some s ∧
      Frozen S ((pre.foldl Seen.add .none).misses S) s
        (post.foldl Seen.add (pre.foldl Seen.add .none)) := by
  have h₀ : Unfrozen S s₀.forkChoice s₀ .none := ⟨hfresh.records, hfresh.bank, rfl, rfl⟩
  obtain ⟨s₁, hrun₁, h₁⟩ := h₀.run hfresh.root hpre hreplay
  obtain ⟨s₂, hrun₂, h₂⟩ := h₁.handle_bankFrozen hfresh
  obtain ⟨s₃, hrun₃, h₃⟩ := h₂.run hfresh.root hfresh.hash hpost hreplay'
  refine ⟨s₃, ?_, h₃⟩
  rw [foldlM_append, hrun₁]
  show (Event.bankFrozen :: post).foldlM (Tracked.handle S) s₁ = _
  rw [foldlM_cons, hrun₂]
  exact hrun₃

/-- **The status of a frozen bank does not depend on the order of the events.** It is confirmed and
can be voted on if a confirmation of its hash was seen, and is marked as invalid if there was none
and the slot was seen as duplicate or with another hash — if it is not the case that a duplicate and
a sample with the same hash came before the bank was frozen, and no confirmation ever. -/
theorem slot_status_of_events {s₀ : Tracked} (hfresh : Fresh S s₀) (pre post : List Event)
    (hpre : .bankFrozen ∉ pre) (hreplay : .replayConfirmed ∉ pre) (hpost : .bankFrozen ∉ post)
    (hreplay' : .replayConfirmed ∈ post → S.duplicateConfirmedHash = S.frozenHash)
    (hmissed : .duplicate ∈ pre → .epochSlotsFrozen ∈ pre → S.epochSlotsFrozenHash = S.frozenHash →
      .duplicateConfirmed ∈ pre ++ post ∨ .replayConfirmed ∈ post) :
    ∃ s info, (pre ++ .bankFrozen :: post).foldlM (Tracked.handle S) s₀ = some s ∧
      s.forkChoice.forkInfos.lookup S.key = some info ∧
      (info.isDuplicateConfirmed = true ∧ info.isCandidate = true ↔
        (.duplicateConfirmed ∈ pre ++ post ∨ .replayConfirmed ∈ post) ∧
          S.duplicateConfirmedHash = S.frozenHash) ∧
      (info.latestInvalidAncestor = some S.slot ↔
        ¬((.duplicateConfirmed ∈ pre ++ post ∨ .replayConfirmed ∈ post) ∧
          S.duplicateConfirmedHash = S.frozenHash) ∧
        (.duplicate ∈ pre ++ post ∨
          .duplicateConfirmed ∈ pre ++ post ∧ S.duplicateConfirmedHash ≠ S.frozenHash ∨
          .epochSlotsFrozen ∈ pre ++ post ∧ S.epochSlotsFrozenHash ≠ S.frozenHash)) := by
  obtain ⟨s, hrun, hfrozen⟩ := hfresh.run hpre hreplay hpost hreplay'
  obtain ⟨-, info, hinfo, hconfirmed, hnone, -, hinvalid⟩ := hfrozen.status
  refine ⟨s, info, hrun, hinfo, ?_, ?_⟩
  · have hcandidate : info.isDuplicateConfirmed = true → info.isCandidate = true := by
      intro h
      rw [ForkInfo.isCandidate, hnone (hconfirmed ▸ h)]
      rfl
    rw [and_iff_left_of_imp hcandidate, hconfirmed]
    simp [Seen.status, Seen.confirms, Seen.foldl_add, Seen.none, hreplay, or_assoc]
  rw [hinvalid]
  simp only [Seen.status, Seen.confirms, Seen.differs, Seen.misses, Seen.foldl_add, Seen.none,
    hreplay, mem_append]
  simp only [mem_append] at hmissed
  grind

/-! ### A duplicate that is missed -/

/-- The tree with the root only. -/
def exampleTree : FiniteForest SlotHashKey where
  parent _ := none
  parent_lt h := by cases h
  nodes := {default}
  children _ := []
  mem_nodes h := by cases h
  mem_children := ⟨nofun, nofun⟩
  nodup_children _ := nodup_nil

/-- A fork choice with the root only, and nothing else known. -/
def exampleTracked : Tracked :=
  ⟨∅, .empty, .empty, ⟨singleton default ⟨0, 0, default, none, [], none, true⟩, ∅, default⟩,
    .empty, .empty, [], .empty, ∅⟩

/-- Slot 1, with the hash that the sample of the cluster has. -/
def exampleSetting : Setting := ⟨1, 0, ⟨1⟩, default, ⟨2⟩, ⟨1⟩⟩

lemma fresh_example : Fresh exampleSetting exampleTracked where
  root := by decide
  hash := by decide
  records := ⟨⟨fun h ↦ absurd h (Finset.notMem_empty _), nofun⟩, rfl, rfl, Finset.notMem_empty _⟩
  bank := rfl
  parent := by decide
  tree := by
    have hlookup : ∀ {n info}, exampleTracked.forkChoice.forkInfos.lookup n = some info →
        info = ⟨0, 0, default, none, [], none, true⟩ := by
      intro n info hn
      have hmem : n ∈ exampleTracked.forkChoice.forkInfos := mem_iff.mpr ⟨info, hn⟩
      obtain rfl := (mem_singleton _ _ _).mp hmem
      exact (some.inj (lookup_singleton_eq.symm.trans hn)).symm
    refine ⟨exampleTree, ⟨0, 0, default, none, [], none, true⟩, ⟨?_, ?_, ?_⟩, ?_, ?_, ?_, ?_⟩
    · intro n
      rw [exampleTracked, Finmap.mem_singleton]
      exact Finset.mem_singleton
    · intro n info hn
      obtain rfl := hlookup hn
      rfl
    · intro n info hn
      obtain rfl := hlookup hn
      rfl
    · intro n info hn
      obtain rfl := hlookup hn
      exact ⟨rfl, Nat.two_pow_pos 64⟩
    · decide
    · exact lookup_singleton_eq
    intro latest h
    cases h

/-- A duplicate that is seen after the bank was frozen. -/
theorem slot_status_duplicate_after : ∃ s info,
    [.bankFrozen, .duplicate, .epochSlotsFrozen].foldlM (Tracked.handle exampleSetting)
        exampleTracked = some s ∧
      s.forkChoice.forkInfos.lookup exampleSetting.key = some info ∧
      info.latestInvalidAncestor = some exampleSetting.slot := by
  obtain ⟨s, info, hrun, hinfo, -, hinvalid⟩ := slot_status_of_events fresh_example []
    [.duplicate, .epochSlotsFrozen] (by decide) (by decide) (by decide) (by decide) (by decide)
  exact ⟨s, info, hrun, hinfo, hinvalid.mpr (by decide)⟩

/-- **The same events in another order**: the bank freezes after the duplicate and the sample, and
is not marked. -/
theorem duplicate_not_marked : ∃ s info,
    [.duplicate, .epochSlotsFrozen, .bankFrozen].foldlM (Tracked.handle exampleSetting)
        exampleTracked = some s ∧
      s.forkChoice.forkInfos.lookup exampleSetting.key = some info ∧
      info.isDuplicateConfirmed = false ∧
      info.latestInvalidAncestor ≠ some exampleSetting.slot := by
  obtain ⟨s, hrun, hfrozen⟩ := @Fresh.run exampleSetting exampleTracked fresh_example
    [.duplicate, .epochSlotsFrozen] [] (by decide) (by decide) (by decide) (by decide)
  obtain ⟨-, info, hinfo, hconfirmed, -, -, hinvalid⟩ := hfrozen.status
  exact ⟨s, info, hrun, hinfo, hconfirmed.trans (by decide),
    fun h ↦ absurd (hinvalid.mp h) (by decide)⟩

end Renec.SlotState
