import Renec.AccountsDb.Purges

/-!
# Cleaning an address changes no read

A bank reads the newest entry in one of its ancestors or in a root up to a maximum. If its ancestors
below the bound of a cleaning are roots, that entry stays.
-/

namespace Renec

open List AccountsIndex Prod

variable (roots : Finset Slot) (ancestors : Option (Finset Slot)) (list : SlotList)
  (maxRoot : Option Slot)

/-- `latest_slot`: the newest entry in an ancestor, or in a root not above `maxRoot` (the source
returns its index). -/
def latestSlotWithAncestors : Option (Slot × AccountInfo) :=
  let newest (visible : Slot → Bool) (best : Option (Slot × AccountInfo)) :=
    list.reverse.foldl (fun best item ↦
      if best.all (fun b ↦ decide (b.1 < item.1)) && visible item.1 then some item else best) best
  newest (fun slot ↦ decide (slot ≤ maxRoot.getD u64Max ∧ slot ∈ roots))
    (newest (fun slot ↦ ancestors.any (slot ∈ ·)) none)

/-- The entries that can be found. -/
def visibleEntries : SlotList :=
  list.reverse.filter (fun item ↦ ancestors.any (item.1 ∈ ·)) ++
    list.reverse.filter fun item ↦ decide (item.1 ≤ maxRoot.getD u64Max ∧ item.1 ∈ roots)

variable {roots ancestors list maxRoot} {e item : Slot × AccountInfo}

lemma mem_visibleEntries : item ∈ visibleEntries roots ancestors list maxRoot ↔ item ∈ list ∧
    ((∃ a ∈ ancestors, item.1 ∈ a) ∨ item.1 ≤ maxRoot.getD u64Max ∧ item.1 ∈ roots) := by
  cases ancestors <;> simp [visibleEntries, and_or_left]

lemma latestSlotWithAncestors_eq : latestSlotWithAncestors roots ancestors list maxRoot =
    (visibleEntries roots ancestors list maxRoot).argmax fst := by
  have hfold (visible : Slot → Bool) (best : Option (Slot × AccountInfo)) :
      list.reverse.foldl (fun best item ↦ if best.all (fun b ↦ decide (b.1 < item.1)) &&
        visible item.1 then some item else best) best =
      (list.reverse.filter fun item ↦ visible item.1).foldl (argAux fun b c ↦ c.1 < b.1) best := by
    rw [foldl_filter]
    congr
    funext best item
    cases best <;> cases visible item.1 <;> simp [argAux]
  rw [argmax, visibleEntries, foldl_append]
  exact (hfold (fun slot ↦ decide (slot ≤ maxRoot.getD u64Max ∧ slot ∈ roots)) _).trans
    (congrArg (foldl _ · _) (hfold (fun slot ↦ ancestors.any (slot ∈ ·)) none))

lemma argmax_filter {keep : Slot × AccountInfo → Bool} {l : SlotList}
    (h : ∀ e ∈ l.argmax fst, keep e = true) :
    (l.filter keep).argmax fst = l.argmax fst := by
  induction l using List.reverseRecOn with
  | nil => rfl
  | append_singleton l a ih =>
    rw [filter_append, argmax_concat] at *
    cases hmax : l.argmax fst with
    | none =>
      obtain rfl := argmax_eq_none.mp hmax
      simp [h a rfl]
    | some c =>
      rw [hmax] at h ih
      dsimp only at h ⊢
      split_ifs at h ⊢ with hlt
      · rw [filter_singleton, h a rfl, cond_true, argmax_concat]
        cases hmax' : (l.filter keep).argmax fst with
        | none => rfl
        | some c' =>
          have hle := le_of_mem_argmax (mem_of_mem_filter (argmax_mem hmax')) hmax
          exact if_pos (hle.trans_lt hlt)
      cases hkeep : keep a with
      | true =>
        rw [filter_singleton, hkeep, cond_true, argmax_concat, ih h]
        exact if_neg hlt
      | false => simpa [hkeep] using ih h

section

variable {index : AccountsIndex} {key : Pubkey} {maxCleanRoot : Option Slot}
  (hslots : ∀ item ∈ index.entries key, item.1 ≤ u64Max)
  (hmax : ∀ root ∈ index.roots, root ≤ index.maxRoot)
  (hancestors : ∀ a ∈ ancestors, ∀ slot ∈ a, slot < maxCleanRoot.getD index.maxRoot →
    slot ∈ index.roots)
  (hquery : ∀ m ∈ maxRoot, maxCleanRoot.getD index.maxRoot ≤ m)

include hslots hmax hancestors hquery

/-- The entry that is read stays. Below the bound it is in a root, the newest one. -/
theorem keepsEntry_of_mem_argmax
    (h : e ∈ (visibleEntries index.roots ancestors (index.entries key) maxRoot).argmax fst) :
    index.keepsEntry (index.entries key) maxCleanRoot e = true := by
  obtain ⟨he, hvisible⟩ := mem_visibleEntries.mp (argmax_mem h)
  rw [keepsEntry, canPurgeOlderEntries]
  by_cases hlt : e.1 < maxCleanRoot.getD index.maxRoot
  · have hroot : e.1 ∈ index.roots := by
      rcases hvisible with ⟨a, ha, hslot⟩ | hvisible
      · exact hancestors a ha _ hslot hlt
      · exact hvisible.2
    have hle : e.1 ≤ maxCleanRoot.getD u64Max := by
      cases maxCleanRoot with
      | none => exact hslots e he
      | some m => exact hlt.le
    obtain ⟨e', he'⟩ := exists_latestSlot he hle hroot
    obtain ⟨hmem', hle', hroot'⟩ := mem_of_latestSlot he'
    have hbound : e'.1 ≤ maxCleanRoot.getD index.maxRoot := by
      cases maxCleanRoot with
      | none => exact hmax _ hroot'
      | some m => exact hle'
    have hseen : e'.1 ≤ maxRoot.getD u64Max := by
      cases maxRoot with
      | none => exact hslots e' hmem'
      | some m => exact hbound.trans (hquery m rfl)
    have hge := le_of_mem_argmax (mem_visibleEntries.mpr ⟨hmem', .inr ⟨hseen, hroot'⟩⟩) h
    rw [getNewestRootInSlotList_eq hslots he', le_antisymm (le_of_latestSlot he' he hle hroot) hge]
    simp
  · simp [hlt]

/-- **Cleaning changes no read** of a bank whose ancestors below the bound are roots and that sees
the roots up to the bound. Every entry that is removed is reclaimed once, none from the cache. -/
theorem cleaning_keeps_reads :
    latestSlotWithAncestors (index.cleanRootedEntries key maxCleanRoot).1.roots ancestors
        ((index.cleanRootedEntries key maxCleanRoot).1.entries key) maxRoot =
      latestSlotWithAncestors index.roots ancestors (index.entries key) maxRoot ∧
    ((index.cleanRootedEntries key maxCleanRoot).1.entries key ++
      (index.cleanRootedEntries key maxCleanRoot).2).Perm (index.entries key) ∧
    ∀ item ∈ (index.cleanRootedEntries key maxCleanRoot).2, item.2.isCached = false := by
  have hreclaims : (index.cleanRootedEntries key maxCleanRoot).2 = (index.entries key).filter
      fun item ↦ !index.keepsEntry (index.entries key) maxCleanRoot item :=
    reclaims_retainEntries
  have hroots : (index.cleanRootedEntries key maxCleanRoot).1.roots = index.roots :=
    (sameRoots_retainEntries.trans sameRoots_removeIfSlotListEmpty).roots
  rw [hroots, hreclaims, AccountsDb.entries_cleanRootedEntries, if_pos rfl]
  refine ⟨?_, filter_append_perm _ _, fun item hitem ↦ ?_⟩
  · rw [latestSlotWithAncestors_eq, latestSlotWithAncestors_eq, ← argmax_filter fun e he ↦
      keepsEntry_of_mem_argmax hslots hmax hancestors hquery he]
    simp only [visibleEntries, filter_append, ← filter_reverse, filter_filter, and_comm,
      Bool.and_comm]
  have hpurged := (mem_filter.mp hitem).2
  simp only [keepsEntry, Bool.not_not, Bool.and_eq_true, Bool.not_eq_true'] at hpurged
  exact hpurged.2

end

/-- An address with two rooted versions and one in the cache. -/
def threeVersions : AccountsIndex :=
  ⟨Finmap.insert ⟨7⟩ ⟨[(1, ⟨.appendVec 0, 0, 5⟩), (2, ⟨.appendVec 1, 0, 6⟩), (3, .cached 7)], 2⟩ ∅,
    {1, 2}, 2, ∅⟩

theorem cleaning_keeps_reads_three :
    ((threeVersions.cleanRootedEntries ⟨7⟩ none).1.entries ⟨7⟩).slots = [2, 3] ∧
    latestSlotWithAncestors (threeVersions.cleanRootedEntries ⟨7⟩ none).1.roots (some {1, 2})
      ((threeVersions.cleanRootedEntries ⟨7⟩ none).1.entries ⟨7⟩) none =
        some (2, ⟨.appendVec 1, 0, 6⟩) :=
  ⟨rfl, (@cleaning_keeps_reads (some {1, 2}) none threeVersions ⟨7⟩ none (by decide) (by decide)
    (by decide) (by decide)).1⟩

end Renec
