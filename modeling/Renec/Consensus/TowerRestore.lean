import Renec.Consensus.Tower

/-!
# Restoring a tower

A validator that restarts reads its tower from a file and replays the ledger up to some root.
`adjustLockoutsAfterReplay` drops the votes that the slot history of that root has
(`core/src/consensus.rs`, `sdk/program/src/slot_history.rs`).
-/

namespace Renec

open List Option Outcome

/-! ### The slot history -/

/-- `MAX_ENTRIES`: the number of bits. -/
def maxEntries : ℕ := 1024 * 1024

inductive Check
  | future
  | tooOld
  | found
  | notFound
  deriving DecidableEq

/-- One bit for each slot modulo `maxEntries`. -/
structure SlotHistory where
  bits : ℕ → Bool
  nextSlot : Slot

namespace SlotHistory

def oldest (h : SlotHistory) : Slot := h.nextSlot - maxEntries

def newest (h : SlotHistory) : Option Slot := checkedSub h.nextSlot 1

def check (h : SlotHistory) (slot : Slot) : Option Check := do
  let newest ← h.newest
  return if slot > newest then .future
    else if slot < h.oldest then .tooOld
    else if h.bits (slot % maxEntries) then .found
    else .notFound

def add (h : SlotHistory) (slot : Slot) : Option SlotHistory := do
  let bits :=
    -- wrapped past the current history
    if slot > h.nextSlot ∧ slot - h.nextSlot ≥ maxEntries then fun _ ↦ false
    else (range' h.nextSlot (slot - h.nextSlot)).foldl
      (fun bits skipped ↦ Function.update bits (skipped % maxEntries) false) h.bits
  return ⟨Function.update bits (slot % maxEntries) true, ← checkedAdd 64 slot 1⟩

variable {h h' : SlotHistory} {slot : Slot} {c : Check}

lemma check_eq_future (hslot : h.nextSlot ≤ slot) (hc : h.check slot = some c) : c = .future := by
  simp only [check, newest, bind_eq_some, checkedSub_eq_some, pure_eq_some] at hc
  obtain ⟨_, ⟨hpos, rfl⟩, rfl⟩ := hc
  exact if_pos (by lia)

lemma oldest_le_of_check (hc : h.check slot = some c) (hne : c ≠ .tooOld) : h.oldest ≤ slot := by
  simp only [check, newest, bind_eq_some, checkedSub_eq_some, pure_eq_some] at hc
  obtain ⟨_, ⟨hpos, rfl⟩, hc⟩ := hc
  by_contra hlt
  have hlt : slot < h.oldest := not_le.mp hlt
  rw [if_neg (by unfold oldest at hlt; lia), if_pos hlt] at hc
  exact hne hc.symm

lemma check_add (hadd : h.add slot = some h') :
    h'.nextSlot = slot + 1 ∧ h'.check slot = some .found := by
  simp only [add, bind_eq_some, checkedAdd_eq_some, pure_eq_some] at hadd
  obtain ⟨_, ⟨-, rfl⟩, rfl⟩ := hadd
  have hold : ¬ slot < slot + 1 - maxEntries := by
    unfold maxEntries
    lia
  refine ⟨rfl, ?_⟩
  simp [check, newest, checkedSub, oldest, hold]

end SlotHistory

/-! ### The scan over the tower -/

inductive TowerError
  | tooOldTower (slot oldest : Slot)
  | fatallyInconsistent (message : String)
  deriving DecidableEq

/-- The variables of the loop over the slots of a tower. -/
structure Scan where
  stillInFuture : Bool
  pastOutsideHistory : Bool
  checkedSlot : Option Slot
  anchoredSlot : Option Slot
  retainFlags : List Bool

namespace Tower

def scanSlot (history : SlotHistory) (towerRoot : Slot) (s : Scan) (slot : Slot) :
    Outcome TowerError Scan := do
  let check ← (history.check slot : Option Check)
  let anchoredSlot :=
    if s.anchoredSlot = none ∧ check = .found then some slot else s.anchoredSlot
  failIf (s.anchoredSlot.isSome && check == .notFound)
    (.fatallyInconsistent "diverged ancestor?")
  failIf (!s.stillInFuture && check == .future) (.fatallyInconsistent "time warped?")
  failIf (s.pastOutsideHistory && check != .tooOld)
    (.fatallyInconsistent "not too old once after got too old?")
  -- the slots decrease, but the root may repeat the vote before it
  assert (s.checkedSlot.all fun checkedSlot ↦
    decide (slot = checkedSlot ∧ slot = towerRoot) || decide (slot < checkedSlot))
  return ⟨s.stillInFuture && check == .future, s.pastOutsideHistory || check == .tooOld, some slot,
    anchoredSlot, s.retainFlags ++ [anchoredSlot.isNone]⟩

variable {history : SlotHistory} {root : Slot}

section

variable {s s' : Scan} {slots : List Slot}

lemma scan_passed (h : slots.foldlM (scanSlot history root) s = .ok s') :
    ∀ slot ∈ slots, ∃ check, history.check slot = some check ∧
      (s.anchoredSlot ≠ none → check ≠ .notFound) ∧ (s.stillInFuture = false → check ≠ .future) ∧
      (s.pastOutsideHistory = true → check = .tooOld) := by
  induction slots generalizing s with
  | nil => exact forall_mem_nil _
  | cons slot slots ih =>
    simp only [foldlM_cons, scanSlot, bind_eq_ok, liftM_eq,
      ofOption_eq_ok, failIf_eq_ok, assert_eq_ok, pure_eq_ok] at h
    obtain ⟨_, ⟨check, hcheck, -, hdiverged, -, hwarped, -, hold, -, -, hs⟩, h⟩ := h
    cases hs
    refine forall_mem_cons.mpr ⟨⟨check, hcheck, fun hsome heq ↦ ?_, fun hfalse heq ↦ ?_,
      fun htrue ↦ ?_⟩, fun later hmem ↦ ?_⟩
    · rw [heq, isSome_iff_ne_none.mpr hsome] at hdiverged
      cases hdiverged
    · rw [heq, hfalse] at hwarped
      cases hwarped
    · rw [htrue, Bool.true_and, bne_eq_false_iff_eq] at hold
      exact hold
    -- the variables only go on
    obtain ⟨check', hcheck', hsome, hfuture, hpast⟩ := ih h later hmem
    refine ⟨check', hcheck', fun hs ↦ hsome ?_, fun hs ↦ hfuture (by rw [hs]; rfl),
      fun hs ↦ hpast (by rw [hs]; rfl)⟩
    rw [if_neg fun hnone ↦ hs hnone.1]
    exact hs

lemma scan_anchored {a : Slot} (hs : s.anchoredSlot = some a)
    (h : slots.foldlM (scanSlot history root) s = .ok s') :
    s'.retainFlags = s.retainFlags ++ replicate slots.length false := by
  induction slots generalizing s with
  | nil =>
    cases h
    exact (append_nil _).symm
  | cons slot slots ih =>
    simp only [foldlM_cons, scanSlot, bind_eq_ok, pure_eq_ok] at h
    obtain ⟨_, ⟨check, -, -, -, -, -, -, -, -, -, hnext⟩, h⟩ := h
    cases hnext
    rw [ih (by rw [hs]; rfl) h, hs, append_assoc]
    rfl

/-- The scan splits the tower at the newest slot found. -/
theorem scan_split (hs : s.anchoredSlot = none)
    (h : slots.foldlM (scanSlot history root) s = .ok s') (hs' : s'.anchoredSlot ≠ none) :
    ∃ kept anchor dropped, slots = kept ++ anchor :: dropped ∧ s'.retainFlags = s.retainFlags ++
        (replicate kept.length true ++ replicate (dropped.length + 1) false) ∧
      history.check anchor = some .found ∧
      (∀ slot ∈ kept, ∃ c, history.check slot = some c ∧ c ≠ .found ∧ c ≠ .tooOld) ∧
      ∀ slot ∈ dropped, history.check slot = some .found ∨ history.check slot = some .tooOld := by
  induction slots generalizing s with
  | nil =>
    cases h
    exact absurd hs hs'
  | cons slot slots ih =>
    simp only [foldlM_cons, scanSlot, bind_eq_ok, liftM_eq, ofOption_eq_ok, pure_eq_ok] at h
    obtain ⟨_, ⟨check, hcheck, -, -, -, -, -, -, -, -, hnext⟩, h⟩ := h
    cases hnext
    have hpassed := scan_passed h
    by_cases hfound : check = .found
    · subst hfound
      rw [hs] at h hpassed
      refine ⟨[], slot, slots, rfl, ?_, hcheck, forall_mem_nil _, ?_⟩
      · rw [scan_anchored rfl h, append_assoc]
        rfl
      intro later hmem
      obtain ⟨c, hc, hsome, hfuture, -⟩ := hpassed later hmem
      rw [hc]
      cases c with
      | future => exact absurd rfl (hfuture (Bool.and_false _))
      | tooOld => exact .inr rfl
      | found => exact .inl rfl
      | notFound => exact absurd rfl (hsome (some_ne_none _))
    have hnone : ¬ (s.anchoredSlot = none ∧ check = .found) := fun hand ↦ hfound hand.2
    rw [if_neg hnone] at h hpassed
    obtain ⟨kept, anchor, dropped, rfl, hflags, hanchor, hkept, hdropped⟩ := ih (by exact hs) h
    refine ⟨slot :: kept, anchor, dropped, rfl, ?_, hanchor, ?_, hdropped⟩
    · rw [hflags, hs, append_assoc]
      rfl
    -- nothing too old comes before a slot found
    refine forall_mem_cons.mpr ⟨⟨check, hcheck, hfound, fun hold ↦ ?_⟩, hkept⟩
    obtain ⟨c, hc, -, -, hpast⟩ := hpassed anchor (mem_append_right _ mem_cons_self)
    rw [hanchor, hpast (by rw [hold]; exact Bool.or_true _)] at hc
    cases hc

end

/-! ### The adjustment -/

/-- `VecDeque::retain` by an iterator of flags, which has to be long enough. -/
def retain : List Lockout → List Bool → Option (List Lockout)
  | [], _ => some []
  | _ :: _, [] => none
  | vote :: votes, flag :: flags => do
    let rest ← retain votes flags
    return if flag then vote :: rest else rest

def votedSlots (t : Tower) : List Slot := t.voteState.votes.map Lockout.slot

/-- A tower, and the last vote of a restored one that the replayed fork may not have. -/
structure Restored extends Tower where
  strayRestoredSlot : Option Slot
  deriving DecidableEq

def adjustLockoutsWithSlotHistory (t : Restored) (history : SlotHistory) :
    Outcome TowerError Restored := do
  let towerRoot ← (t.root : Option Slot)
  let slotsInTower := towerRoot :: t.votedSlots
  let scan ← slotsInTower.reverse.foldlM (scanSlot history towerRoot) ⟨true, false, none, none, []⟩
  failIf scan.anchoredSlot.isNone (.fatallyInconsistent "no common slot for rooted tower")
  assert (slotsInTower.length == scan.retainFlags.length)
  -- the flag of the root is popped
  let votes ← (retain t.voteState.votes scan.retainFlags.dropLast.reverse : Option (List Lockout))
  let t := { t with voteState := { t.voteState with votes := votes } }
  if votes.isEmpty then return { t with lastVote := ⟨[], default, none⟩ }
  else
    let last ← (t.lastVote.lastVotedSlot : Option Slot)
    assert (t.votedSlots.getLast? == some last)
    return { t with strayRestoredSlot := some last }

def adjustLockoutsAfterReplay (t : Restored) (replayedRoot : Slot) (history : SlotHistory) :
    Outcome TowerError Restored := do
  let towerRoot ← (t.root : Option Slot)
  let check ← (history.check replayedRoot : Option Check)
  assert (check == .found)
  assert ((t.lastVote == ⟨[], default, none⟩) == t.voteState.votes.isEmpty)
  match t.lastVote.lastVotedSlot with
  | some lastVotedSlot =>
    if towerRoot ≤ replayedRoot then
      let check ← (history.check lastVotedSlot : Option Check)
      failIf (check == .tooOld) (.tooOldTower lastVotedSlot history.oldest)
      let t ← adjustLockoutsWithSlotHistory t history
      return { t with voteState := { t.voteState with rootSlot := some replayedRoot } }
    else
      -- the tower is from the future of the ledger, and is anchored at its own root
      let warpedSlotHistory ← (history.add towerRoot : Option SlotHistory)
      adjustLockoutsWithSlotHistory t warpedSlotHistory
  | none =>
    assert (towerRoot == replayedRoot)
    return t

variable {t t' : Restored} {replayedRoot : Slot}

/-- No vote at a slot the history has, or before one. -/
def isUnrooted (history : SlotHistory) (slots : List Slot) (vote : Lockout) : Bool :=
  slots.all fun slot ↦ decide (history.check slot = some .found → slot < vote.slot)

lemma retain_replicate {votes votes' : List Lockout} {k n : ℕ}
    (h : retain votes (replicate k false ++ replicate n true) = some votes') :
    votes' = votes.drop k := by
  induction votes generalizing k n votes' with
  | nil =>
    rw [drop_nil]
    exact (some.inj h).symm
  | cons vote votes ih =>
    rcases k with - | k
    · rcases n with - | n
      · cases h
      simp only [replicate_zero, nil_append, replicate_succ, retain, bind_eq_some,
        pure_eq_some] at h
      obtain ⟨rest, hrest, rfl⟩ := h
      rw [@ih rest 0 n hrest]
      rfl
    simp only [replicate_succ, cons_append, retain, bind_eq_some, pure_eq_some] at h
    obtain ⟨rest, hrest, rfl⟩ := h
    exact ih hrest

/-- What the adjustment keeps, and what it has made sure of. -/
structure Adjusted (t t' : Restored) (history : SlotHistory) (root : Slot) : Prop where
  votes_eq : t'.voteState.votes =
    t.voteState.votes.filter (isUnrooted history (root :: t.votedSlots))
  not_old : ∀ vote ∈ t'.voteState.votes, history.oldest ≤ vote.slot
  consistent : ∀ anchor ∈ root :: t.votedSlots, history.check anchor = some .found →
    ∀ slot ∈ root :: t.votedSlots, slot < anchor →
      history.check slot = some .found ∨ history.check slot = some .tooOld

lemma adjusted_of_ok (hroot : t.root = some root) (hinc : (root :: t.votedSlots).Pairwise (· < ·))
    (h : adjustLockoutsWithSlotHistory t history = .ok t') :
    t'.root = some root ∧ Adjusted t t' history root := by
  simp only [adjustLockoutsWithSlotHistory, hroot, bind_eq_ok, liftM_eq,
    ofOption_eq_ok, failIf_eq_ok, assert_eq_ok, some.injEq] at h
  obtain ⟨_, rfl, scan, hscan, -, hanchored, -, -, votes, hretain, h⟩ := h
  have hresult : t'.voteState = { t.voteState with votes := votes } := by
    split at h
    · cases h
      rfl
    simp only [bind_eq_ok, pure_eq_ok] at h
    obtain ⟨last, -, -, -, h⟩ := h
    cases h
    rfl
  obtain ⟨kept, anchor, dropped, hslots, hflags, hanchor, hkept, hdropped⟩ :=
    scan_split rfl hscan (isNone_eq_false_iff.mp hanchored |> isSome_iff_ne_none.mp)
  have hsplit : root :: t.votedSlots = dropped.reverse ++ [anchor] ++ kept.reverse := by
    rw [← reverse_reverse (root :: t.votedSlots), hslots, reverse_append, reverse_cons]
  have hlen : (dropped.reverse ++ [anchor]).length = dropped.length + 1 := by simp
  have hvotes : votes = t.voteState.votes.drop dropped.length := by
    refine @retain_replicate _ _ _ kept.length ?_
    rw [hflags, nil_append, replicate_succ', ← append_assoc, dropLast_concat,
      reverse_append, reverse_replicate, reverse_replicate] at hretain
    exact hretain
  have hlater : (t.voteState.votes.drop dropped.length).map Lockout.slot = kept.reverse := by
    rw [map_drop]
    exact (congrArg (drop (dropped.length + 1)) hsplit).trans (drop_left' hlen)
  have hearlier : ∀ vote ∈ t.voteState.votes.take dropped.length,
      vote.slot ∈ dropped.reverse ++ [anchor] := by
    intro vote hvote
    rw [← (congrArg (take (dropped.length + 1)) hsplit).trans (take_left' hlen)]
    refine mem_cons_of_mem _ ?_
    rw [votedSlots, ← map_take]
    exact mem_map_of_mem hvote
  -- the tower is sorted, so the slots found are those up to the anchor
  rw [hsplit, append_assoc, pairwise_append, singleton_append, pairwise_cons] at hinc
  have hbelow : ∀ slot ∈ root :: t.votedSlots, history.check slot = some .found →
      slot ≤ anchor := by
    intro slot hmem hfound
    rw [hsplit, append_assoc] at hmem
    rcases mem_append.mp hmem with hmem | hmem
    · exact (hinc.2.2 slot hmem anchor mem_cons_self).le
    rcases mem_cons.mp hmem with rfl | hmem
    · exact le_rfl
    obtain ⟨c, hc, hne, -⟩ := hkept slot (mem_reverse.mp hmem)
    exact absurd (some.inj (hc.symm.trans hfound)) hne
  have hslot : ∀ vote ∈ t.voteState.votes.drop dropped.length, vote.slot ∈ kept.reverse :=
    fun vote hvote ↦ hlater ▸ mem_map_of_mem hvote
  refine ⟨(congrArg VoteState.rootSlot hresult).trans hroot, ?_, fun vote hvote ↦ ?_, ?_⟩
  · rw [hresult, hvotes]
    conv_rhs => rw [← take_append_drop dropped.length t.voteState.votes, filter_append]
    rw [filter_eq_nil_iff.mpr, nil_append, filter_eq_self.mpr]
    · intro vote hvote
      refine all_eq_true.mpr fun slot hmem ↦ decide_eq_true fun hfound ↦ ?_
      exact (hbelow slot hmem hfound).trans_lt (hinc.2.1.1 _ (hslot vote hvote))
    intro vote hvote hall
    have hlt := of_decide_eq_true (all_eq_true.mp hall anchor
      (hsplit ▸ mem_append_left _ (mem_append_right _ mem_cons_self))) hanchor
    rcases mem_append.mp (hearlier vote hvote) with hmem | hmem
    · exact absurd (hinc.2.2 _ hmem anchor mem_cons_self) hlt.not_gt
    · exact absurd hlt (mem_singleton.mp hmem ▸ lt_irrefl _)
  · rw [hresult, hvotes] at hvote
    obtain ⟨c, hc, -, hne⟩ := hkept _ (mem_reverse.mp (hslot vote hvote))
    exact SlotHistory.oldest_le_of_check hc hne
  intro a ha hfound slot hmem hlt
  have hanchor := hlt.trans_le (hbelow a ha hfound)
  rw [hsplit, append_assoc] at hmem
  rcases mem_append.mp hmem with hmem | hmem
  · exact hdropped slot (mem_reverse.mp hmem)
  rcases mem_cons.mp hmem with rfl | hmem
  · exact absurd hanchor (lt_irrefl _)
  · exact absurd (hinc.2.1.1 slot hmem) hanchor.not_gt

lemma adjusted_of_le (hinc : (root :: t.votedSlots).Pairwise (· < ·))
    (hle : history.nextSlot ≤ root + 1) (hvotes : t'.voteState.votes = t.voteState.votes) :
    Adjusted t t' history root := by
  have hafter : ∀ slot ∈ t.votedSlots, history.nextSlot ≤ slot := fun slot hmem ↦
    hle.trans (rel_of_pairwise_cons hinc hmem)
  have hfound : ∀ slot ∈ root :: t.votedSlots, history.check slot = some .found → slot = root := by
    intro slot hmem hfound
    rcases mem_cons.mp hmem with rfl | hmem
    · rfl
    · cases SlotHistory.check_eq_future (hafter slot hmem) hfound
  refine ⟨?_, fun vote hvote ↦ ?_, fun anchor hmem hcheck slot hslot hlt ↦ ?_⟩
  · rw [hvotes, filter_eq_self.mpr]
    intro vote hvote
    refine all_eq_true.mpr fun slot hmem ↦ decide_eq_true fun hcheck ↦ ?_
    rw [hfound slot hmem hcheck]
    exact rel_of_pairwise_cons hinc (mem_map_of_mem hvote)
  · rw [hvotes] at hvote
    exact (Nat.sub_le _ _).trans (hafter _ (mem_map_of_mem hvote))
  rw [hfound anchor hmem hcheck] at hlt
  rcases mem_cons.mp hslot with rfl | hslot
  · exact absurd hlt (lt_irrefl _)
  · exact absurd (rel_of_pairwise_cons hinc hslot) hlt.not_gt

/-- **Restoring a tower keeps the unrooted suffix.** The history is that of the replayed root. The
votes that are kept are those newer than any slot of the tower found in the history, as they were;
the root does not move back; no vote that is kept is older than the history; and below a slot found,
every slot of the tower is found or too old. -/
theorem restore_keeps_unrooted_suffix (hroot : t.root = some root)
    (hinc : (root :: t.votedSlots).Pairwise (· < ·)) (hnewest : history.newest = some replayedRoot)
    (h : adjustLockoutsAfterReplay t replayedRoot history = .ok t') :
    (∃ root', t'.root = some root' ∧ root ≤ root') ∧ Adjusted t t' history root := by
  obtain ⟨hpos, hnext⟩ := checkedSub_eq_some.mp hnewest
  simp only [adjustLockoutsAfterReplay, hroot, bind_eq_ok, liftM_eq,
    ofOption_eq_ok, assert_eq_ok, some.injEq] at h
  obtain ⟨_, rfl, -, -, -, -, -, -, h⟩ := h
  split at h
  · split_ifs at h with hle
    · simp only [bind_eq_ok, pure_eq_ok] at h
      obtain ⟨-, -, -, -, adjusted, hadjust, h⟩ := h
      cases h
      obtain ⟨-, hvotes, hold, hconsistent⟩ := adjusted_of_ok hroot hinc hadjust
      exact ⟨⟨replayedRoot, rfl, hle⟩, hvotes, hold, hconsistent⟩
    simp only [bind_eq_ok, ofOption_eq_ok] at h
    obtain ⟨warped, hwarped, hadjust⟩ := h
    obtain ⟨hroot', hadjusted⟩ := adjusted_of_ok hroot hinc hadjust
    obtain ⟨hwarp, -⟩ := SlotHistory.check_add hwarped
    -- after the root of the tower there is nothing in the warped history
    have hall := (adjusted_of_le hinc hwarp.le rfl : Adjusted t t warped root).votes_eq
    exact ⟨⟨root, hroot', le_rfl⟩,
      adjusted_of_le hinc (by lia) (hadjusted.votes_eq.trans hall.symm)⟩
  simp only [bind_eq_ok, assert_eq_ok, pure_eq_ok, beq_iff_eq] at h
  obtain ⟨-, rfl, h⟩ := h
  cases h
  exact ⟨⟨root, hroot, le_rfl⟩, adjusted_of_le hinc (by lia) rfl⟩

/-- A tower with votes for slots 2 and 4, of which the slot history may have the first. -/
def votedFor (votes : List Lockout) (root : Slot) (stray : Option Slot) : Restored :=
  ⟨⟨⟨0, votes, some root, [], ⟨0, 0⟩⟩, ⟨[2, 4], default, none⟩, ⟨0, 0⟩⟩, stray⟩

/-- The ledger is replayed up to slot 3, by way of 1 and 2. -/
theorem restore_keeps_unrooted_suffix_fork :
    ∃ t', adjustLockoutsAfterReplay (votedFor [⟨2, 2⟩, ⟨4, 1⟩] 1 none) 3
        ⟨fun i ↦ decide (i < 4), 4⟩ = .ok t' ∧ ∃ root', t'.root = some root' ∧ 1 ≤ root' := by
  have h : adjustLockoutsAfterReplay (votedFor [⟨2, 2⟩, ⟨4, 1⟩] 1 none) 3
      ⟨fun i ↦ decide (i < 4), 4⟩ = .ok (votedFor [⟨4, 1⟩] 3 (some 4)) := by decide
  exact ⟨_, h, (restore_keeps_unrooted_suffix rfl (by decide) rfl h).1⟩

end Tower

end Renec
