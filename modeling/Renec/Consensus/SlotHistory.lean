import Renec.Consensus.TowerRestore

/-!
# The window of a slot history

A slot history has one bit for each slot of a window, and the bits are used again as the window
moves. The bits of skipped slots are cleared before they come into the window, so what is in the
window is exact, and nothing is left from an older lap (`check_exact`).
-/

namespace Renec.SlotHistory

open List Nat Option

variable {h : SlotHistory} {added : List Slot} {slot s : Slot}

def default : SlotHistory := ⟨Function.update (fun _ ↦ false) 0 true, 1⟩

/-- The bits of the window are those of the slots that were added, all of them in it or older. -/
structure Exact (added : List Slot) (h : SlotHistory) : Prop where
  next : added.getLast?.map (· + 1) = some h.nextSlot
  pos : 0 < h.nextSlot
  lt : ∀ s ∈ added, s < h.nextSlot
  bits : ∀ s < h.nextSlot, h.nextSlot ≤ s + maxEntries →
    (h.bits (s % maxEntries) = true ↔ s ∈ added)

lemma exact_default : Exact [0] default where
  next := rfl
  pos := Nat.one_pos
  lt := fun s hs ↦ mem_singleton.mp hs ▸ Nat.one_pos
  bits := fun s hs _ ↦ by
    obtain rfl : s = 0 := lt_one_iff.mp hs
    exact iff_of_true rfl mem_cons_self

lemma mod_ne {a b : ℕ} (hlt : a < b) (hwindow : b < a + maxEntries) :
    a % maxEntries ≠ b % maxEntries := by
  rw [maxEntries] at *
  omega

lemma foldl_clear (l : List ℕ) (bits : ℕ → Bool) (i : ℕ) :
    l.foldl (fun bits skipped ↦ Function.update bits (skipped % maxEntries) false) bits i = true ↔
      bits i = true ∧ ∀ skipped ∈ l, skipped % maxEntries ≠ i := by
  induction l generalizing bits with
  | nil => simp
  | cons a l ih =>
    rw [foldl_cons, ih, forall_mem_cons, ← and_assoc]
    refine and_congr_left fun _ ↦ ?_
    by_cases hi : i = a % maxEntries
    · simp [hi]
    · simp [Function.update_of_ne hi, Ne.symm hi]

/-- A slot is added that is not older than the newest one. -/
theorem Exact.add_spec (hexact : Exact added h) (hge : h.nextSlot ≤ slot + 1)
    (hmax : slot < u64Max) :
    ∃ h', h.add slot = some h' ∧ h'.nextSlot = slot + 1 ∧ Exact (added ++ [slot]) h' := by
  have hnext : checkedAdd 64 slot 1 = some (slot + 1) := if_pos (succ_lt_succ hmax)
  simp only [SlotHistory.add, hnext, some_bind, Option.pure_def]
  refine ⟨_, rfl, rfl, by simp, succ_pos _, fun s hs ↦ ?_, fun s hs hwindow ↦ ?_⟩
  · rcases mem_append.mp hs with hs | hs
    · exact (hexact.lt s hs).trans_le hge
    · exact mem_singleton.mp hs ▸ lt_succ_self slot
  rw [mem_append, mem_singleton]
  rcases (Nat.lt_succ_iff.mp hs).eq_or_lt with rfl | hlt
  · simp
  have hwithin : slot < s + maxEntries := hwindow
  simp only [Function.update_of_ne (mod_ne hlt hwithin), or_iff_left hlt.ne]
  have hskipped : h.nextSlot ≤ s → s ∉ added := fun hle hs ↦ (hexact.lt s hs).not_ge hle
  split_ifs with hjump
  · refine iff_of_false not_false (hskipped ?_)
    lia
  rw [foldl_clear]
  by_cases hle : h.nextSlot ≤ s
  · refine iff_of_false (fun hclear ↦ hclear.2 s ?_ rfl) (hskipped hle)
    rw [mem_range'_1]
    lia
  rw [hexact.bits s (not_le.mp hle) (hge.trans hwindow), and_iff_left]
  intro skipped hmem
  rw [mem_range'_1] at hmem
  exact (mod_ne (a := s) (by lia) (by lia)).symm

lemma Exact.run {slots : List Slot} (hexact : Exact added h)
    (hge : ∀ slot ∈ slots, h.nextSlot ≤ slot + 1) (hsorted : slots.Pairwise (· < ·))
    (hmax : ∀ slot ∈ slots, slot < u64Max) :
    ∃ h', slots.foldlM add h = some h' ∧ Exact (added ++ slots) h' := by
  induction slots generalizing h added with
  | nil => exact ⟨h, rfl, by rwa [append_nil]⟩
  | cons slot slots ih =>
    rw [forall_mem_cons] at hge hmax
    rw [pairwise_cons] at hsorted
    obtain ⟨h₁, hadd, hnext, hexact₁⟩ := hexact.add_spec hge.1 hmax.1
    obtain ⟨h', hrun, hexact'⟩ := ih hexact₁
      (fun s hs ↦ hnext ▸ succ_le_succ (hsorted.1 s hs).le) hsorted.2 hmax.2
    rw [← append_cons] at hexact'
    exact ⟨h', by rw [foldlM_cons, hadd]; exact hrun, hexact'⟩

/-- **A slot history answers exactly**, for any ascending slots below `u64::MAX`: slots after the
last one are in the future, slots under the window are too old, and a slot of the window is found if
it is 0 or was added, and not found otherwise. -/
theorem check_exact (slots : List Slot) (hsorted : slots.Pairwise (· < ·))
    (hmax : ∀ slot ∈ slots, slot < u64Max) :
    ∃ h, slots.foldlM add default = some h ∧ h.nextSlot = slots.getLast?.getD 0 + 1 ∧
      ∀ s, (h.check s = some .future ↔ h.nextSlot ≤ s) ∧
      (h.check s = some .tooOld ↔ s + maxEntries < h.nextSlot) ∧
      (s < h.nextSlot → h.nextSlot ≤ s + maxEntries →
        (h.check s = some .found ↔ s = 0 ∨ s ∈ slots) ∧
        (h.check s = some .notFound ↔ ¬(s = 0 ∨ s ∈ slots))) := by
  obtain ⟨h, hrun, hexact⟩ := exact_default.run (fun _ _ ↦ Nat.le_add_left _ _) hsorted hmax
  refine ⟨h, hrun, ?_, fun s ↦ ?_⟩
  · have hnext := hexact.next
    rw [getLast?_append] at hnext
    cases hlast : slots.getLast? <;> simpa [hlast, eq_comm] using hnext
  have hnewest : h.newest = some (h.nextSlot - 1) := if_pos hexact.pos
  have hfuture_iff : s > h.nextSlot - 1 ↔ h.nextSlot ≤ s := by
    have hpos := hexact.pos
    lia
  simp only [check, hnewest, some_bind, oldest, Option.pure_def, Option.some.injEq, hfuture_iff,
    Nat.lt_sub_iff_add_lt]
  split_ifs with hfuture hold hbit
  · exact ⟨iff_of_true rfl hfuture, iff_of_false (by simp) (by lia),
      fun hlt ↦ absurd hfuture hlt.not_ge⟩
  · exact ⟨iff_of_false (by simp) hfuture, iff_of_true rfl hold, fun _ hle ↦ absurd hold hle.not_gt⟩
  all_goals
    rw [hexact.bits s (not_le.mp hfuture) (not_lt.mp hold), singleton_append, mem_cons] at hbit
    refine ⟨iff_of_false (by simp) hfuture, iff_of_false (by simp) hold, fun _ _ ↦ ?_⟩
  · exact ⟨iff_of_true rfl hbit, iff_of_false (by simp) (not_not.mpr hbit)⟩
  · exact ⟨iff_of_false (by simp) hbit, iff_of_true rfl hbit⟩

/-- Slots 2 and 4: the slot between them is not found. -/
theorem check_exact_three : ∃ h, [2, 4].foldlM add default = some h ∧
    h.check 3 = some .notFound := by
  obtain ⟨h, hrun, hnext, hcheck⟩ := check_exact [2, 4] (by decide) (by decide)
  exact ⟨h, hrun, ((hcheck 3).2.2 (by rw [hnext]; decide) (by rw [hnext]; decide)).2.mpr
    (by decide)⟩

/-- The next slot of the last one overflows. -/
theorem add_u64Max : [u64Max].foldlM add default = none := rfl

end Renec.SlotHistory
