import Mathlib

/-!
# The missing shreds of a slot

`findMissingIndexes` (`ledger/src/blockstore.rs`) walks the column of shreds in the order of their
keys and collects the indexes between those it finds, for repair to ask for.
-/

namespace Renec

open List

/-- A shred, as far as the scan reads it. -/
structure StoredShred where
  slot : ℕ
  index : ℕ
  referenceTick : ℕ

/-- The shreds in the order of their keys. -/
structure ShredColumn where
  shreds : List StoredShred
  sorted : shreds.Pairwise fun a b ↦ a.slot < b.slot ∨ a.slot = b.slot ∧ a.index < b.index

/-- `MAX_TURBINE_DELAY_IN_TICKS`. -/
def maxTurbineDelayInTicks : ℕ := 100 / (1000 / 160)

section

variable (slot ticksSinceFirstInsert endIndex maxMissing : ℕ)

/-- What an iterator yields that seeks an index of a slot. -/
def ShredColumn.seek (column : ShredColumn) (start : ℕ) : List StoredShred :=
  column.shreds.filter fun s ↦ slot < s.slot ∨ s.slot = slot ∧ start ≤ s.index

/-- The loop of `find_missing_indexes`: the indexes before a shred are pushed while there are
fewer than `maxMissing`. -/
def scanMissing : List StoredShred → ℕ → List ℕ → List ℕ
  | [], prevIndex, missing => (missing ++ range' prevIndex (endIndex - prevIndex)).take maxMissing
  | shred :: rest, prevIndex, missing =>
    let currentIndex := if shred.slot > slot then endIndex else shred.index
    let upperIndex := min currentIndex endIndex
    -- the holes from here on have not timed out yet
    if ticksSinceFirstInsert < shred.referenceTick + maxTurbineDelayInTicks then missing
    else
      let missing := (missing ++ range' prevIndex (upperIndex - prevIndex)).take maxMissing
      if missing.length = maxMissing ∨ shred.slot > slot ∨ currentIndex ≥ endIndex then missing
      else scanMissing rest (currentIndex + 1) missing

/-- `find_missing_indexes`, `elapsed` milliseconds after the first insert. -/
def findMissingIndexes (column : ShredColumn) (elapsed startIndex : ℕ) : List ℕ :=
  if startIndex ≥ endIndex ∨ maxMissing = 0 then []
  else scanMissing slot (160 * elapsed / 1000) endIndex maxMissing (column.seek slot startIndex)
    startIndex []

def absentIndexes (shreds : List StoredShred) (start stop : ℕ) : List ℕ :=
  (range' start (stop - start)).filter fun i ↦ decide (∀ s ∈ shreds, s.slot = slot → s.index ≠ i)

end

variable {slot ticks prev stop maxMissing : ℕ} {missing : List ℕ} {shred : StoredShred}
  {shreds : List StoredShred}

lemma absentIndexes_eq_range (h : ∀ s ∈ shreds, s.slot = slot → stop ≤ s.index) :
    absentIndexes slot shreds prev stop = range' prev (stop - prev) := by
  refine filter_eq_self.mpr fun i hi ↦ decide_eq_true fun s hs hslot ↦ ?_
  have := h s hs hslot
  rw [mem_range'_1] at hi
  omega

lemma absentIndexes_cons (hslot : shred.slot = slot) (hprev : prev ≤ shred.index)
    (hstop : shred.index < stop) (h : ∀ s ∈ shreds, s.slot = slot → shred.index < s.index) :
    absentIndexes slot (shred :: shreds) prev stop =
      range' prev (shred.index - prev) ++ absentIndexes slot shreds (shred.index + 1) stop := by
  have hsplit : range' prev (stop - prev) = range' prev (shred.index - prev) ++
      shred.index :: range' (shred.index + 1) (stop - (shred.index + 1)) := by
    refine range'_eq_append_iff.mpr ⟨shred.index - prev, by omega, rfl, ?_⟩
    rw [← range'_succ]
    congr 1 <;> omega
  have hbefore := @absentIndexes_eq_range slot prev shred.index _ (forall_mem_cons.mpr
    ⟨fun _ ↦ le_rfl, fun s hs hs' ↦ (h s hs hs').le⟩)
  rw [absentIndexes, hsplit, filter_append, filter_cons_of_neg (by simp [hslot])]
  refine congrArg₂ _ hbefore (filter_congr fun i hi ↦ decide_eq_decide.mpr ?_)
  rw [mem_range'_1] at hi
  rw [forall_mem_cons]
  exact and_iff_right fun _ ↦ by omega

/-- The scan of the shreds from an index on adds the first absent ones, all that fit unless a shred
is too recent. -/
theorem scanMissing_spec (hsorted : shreds.Pairwise fun a b ↦
      a.slot < b.slot ∨ a.slot = b.slot ∧ a.index < b.index)
    (hfrom : ∀ s ∈ shreds, slot < s.slot ∨ s.slot = slot ∧ prev ≤ s.index)
    (hle : missing.length ≤ maxMissing) :
    scanMissing slot ticks stop maxMissing shreds prev missing <+:
      (missing ++ absentIndexes slot shreds prev stop).take maxMissing ∧
    ((∀ s ∈ shreds, s.referenceTick + maxTurbineDelayInTicks ≤ ticks) →
      scanMissing slot ticks stop maxMissing shreds prev missing =
        (missing ++ absentIndexes slot shreds prev stop).take maxMissing) := by
  induction shreds generalizing prev missing with
  | nil =>
    rw [scanMissing, absentIndexes_eq_range (by simp)]
    exact ⟨prefix_rfl, fun _ ↦ rfl⟩
  | cons shred shreds ih =>
    obtain ⟨hfirst, hsorted⟩ := pairwise_cons.mp hsorted
    have hthis := hfrom shred mem_cons_self
    rw [scanMissing]
    by_cases hrecent : ticks < shred.referenceTick + maxTurbineDelayInTicks
    · rw [if_pos hrecent]
      exact ⟨prefix_take_iff.mpr ⟨prefix_append _ _, hle⟩, fun hold ↦
        absurd (hold shred mem_cons_self) (not_le.mpr hrecent)⟩
    rw [if_neg hrecent]
    dsimp only
    by_cases hlast : slot < shred.slot ∨ stop ≤ shred.index
    · -- no shred of the slot is left in the range
      have hrange : absentIndexes slot (shred :: shreds) prev stop = range' prev (stop - prev) := by
        refine absentIndexes_eq_range (forall_mem_cons.mpr ⟨fun _ ↦ by omega, fun s hs _ ↦ ?_⟩)
        have := hfirst s hs
        omega
      have hcurrent : (if shred.slot > slot then stop else shred.index) ≥ stop := by
        split_ifs <;> omega
      rw [hrange, min_eq_right hcurrent, if_pos (.inr (.inr hcurrent))]
      exact ⟨prefix_rfl, fun _ ↦ rfl⟩
    obtain ⟨hslot, hstop⟩ := not_or.mp hlast
    have hnext : ∀ s ∈ shreds, slot < s.slot ∨ s.slot = slot ∧ shred.index + 1 ≤ s.index := by
      intro s hs
      have := hfirst s hs
      omega
    rw [absentIndexes_cons (by omega) (by omega) (not_le.mp hstop) fun s hs h ↦ by
        have := hnext s hs; omega, ← append_assoc, if_neg hslot, min_eq_left (not_le.mp hstop).le]
    by_cases hfull : maxMissing ≤ (missing ++ range' prev (shred.index - prev)).length
    · rw [if_pos (.inl (length_take_of_le hfull)), take_append_of_le_length hfull]
      exact ⟨prefix_rfl, fun _ ↦ rfl⟩
    have hlt := not_le.mp hfull
    rw [take_of_length_le hlt.le, if_neg (not_or.mpr ⟨hlt.ne, hlast⟩)]
    have hrest := ih hsorted hnext hlt.le
    exact ⟨hrest.1, fun hold ↦ hrest.2 fun s hs ↦ hold s (mem_cons_of_mem _ hs)⟩

/-- **Repair asks for the missing shreds, lowest first**: at most as many as it may, a prefix of the
indexes absent from the range, and all that fit if every shred from the start on is old enough. -/
theorem missing_indexes_found (column : ShredColumn) (slot elapsed start stop maxMissing : ℕ) :
    let found := findMissingIndexes slot stop maxMissing column elapsed start
    let absent := absentIndexes slot column.shreds start stop
    found.length ≤ maxMissing ∧ found <+: absent ∧
    ((∀ s ∈ column.seek slot start,
        s.referenceTick + maxTurbineDelayInTicks ≤ 160 * elapsed / 1000) →
      found = absent.take maxMissing) := by
  intro found absent
  by_cases hnone : start ≥ stop ∨ maxMissing = 0
  · rw [show found = [] from if_pos hnone]
    refine ⟨Nat.zero_le _, nil_prefix, fun _ ↦ ?_⟩
    rcases hnone with hempty | rfl
    · simp [absent, absentIndexes, Nat.sub_eq_zero_of_le hempty]
    · rfl
  -- a shred before the start has no index of the range
  have habsent : absentIndexes slot (column.seek slot start) start stop = absent := by
    refine filter_congr fun i hi ↦ decide_eq_decide.mpr
      ⟨fun h s hs hslot heq ↦ h s ?_ hslot heq, fun h s hs ↦ h s (mem_filter.mp hs).1⟩
    exact mem_filter.mpr ⟨hs, decide_eq_true (.inr ⟨hslot, heq ▸ (mem_range'_1.mp hi).1⟩)⟩
  have hscan := @scanMissing_spec slot (160 * elapsed / 1000) start stop maxMissing []
    (column.seek slot start) (column.sorted.filter _)
    (fun s hs ↦ of_decide_eq_true (mem_filter.mp hs).2) (Nat.zero_le _)
  rw [← show found = _ from if_neg hnone, habsent, nil_append] at hscan
  exact ⟨hscan.1.length_le.trans (length_take_le _ _), hscan.1.trans ( take_prefix _ _), hscan.2⟩

-- three holes, the last before a shred of the next slot, of which two may be asked for
example : findMissingIndexes 7 6 2 ⟨[⟨7, 1, 0⟩, ⟨7, 3, 0⟩, ⟨8, 0, 0⟩], by decide⟩ 400 1 =
    [2, 4] := by
  decide

end Renec
