import Renec.AccountsDb.RollingBitField

/-!
# Ancestors and roots

The two sets of slots that are kept in a rolling bit field: the ancestors of a bank
(`runtime/src/ancestors.rs`) and the roots of the accounts index. A bit field by itself loses a key
if all keys are outside of the ring and a lower one is inserted (`excess_key_hidden`).
-/

namespace Renec.AccountsDb

open List

/-- `ANCESTORS_HASH_MAP_SIZE`. -/
def ancestorsHashMapSize : ℕ := 8192

structure Ancestors where
  ancestors : RollingBitField
  deriving DecidableEq

namespace Ancestors

/-- `From<Vec<Slot>>`. -/
def fromVec (source : List Slot) : Option Ancestors := do
  let ancestors ← RollingBitField.new ancestorsHashMapSize
  return ⟨← (source.mergeSort (· ≤ ·)).foldlM RollingBitField.insert ancestors⟩

def remove (a : Ancestors) (slot : Slot) : Option Ancestors :=
  (a.ancestors.remove slot).map fun (ancestors, _) ↦ ⟨ancestors⟩

def containsKey (a : Ancestors) (slot : Slot) : Bool := a.ancestors.contains slot

end Ancestors

/-- The roots, and the last one of them. -/
structure RootsTracker where
  roots : RollingBitField
  maxRoot : Slot
  deriving DecidableEq

namespace RootsTracker

def new (maxWidth : ℕ) : Option RootsTracker :=
  (RollingBitField.new maxWidth).map fun roots ↦ ⟨roots, 0⟩

/-- `RootsTracker::default`. -/
def default : Option RootsTracker := new 4194304

variable (t : RootsTracker)

def addRoot (slot : Slot) : Option RootsTracker := do
  let roots ← t.roots.insert slot
  if slot ≥ t.maxRoot then return ⟨roots, slot⟩ else none

def cleanDeadSlot (slot : Slot) : Option (RootsTracker × Bool) :=
  (t.roots.remove slot).map fun (roots, removed) ↦ ({ t with roots := roots }, removed)

def clearRoots : Option RootsTracker := t.roots.clear.map fun roots ↦ { t with roots := roots }

def isRoot (slot : Slot) : Bool := t.roots.contains slot

/-- The calls of the accounts index, as operations on the set of roots. -/
def step : RollingBitField.Operation → Option RootsTracker
  | .insert slot => t.addRoot slot
  | .remove slot => (t.cleanDeadSlot slot).map Prod.fst
  | .clear => t.clearRoots

end RootsTracker

/-! ### Ancestors -/

section

open RollingBitField

variable {f : RollingBitField} {keys : Finset ℕ} {bound : ℕ}

lemma ascending_inserts {slots : List ℕ} (h : Ascending f keys bound)
    (hsorted : (bound :: slots).Pairwise (· ≤ ·))
    (hfits : ∀ slot ∈ slots, slot + f.maxWidth ≤ u64Max) :
    ∃ f' bound', slots.foldlM RollingBitField.insert f = some f' ∧
      Ascending f' (keys ∪ slots.toFinset) bound' ∧ f'.maxWidth = f.maxWidth := by
  induction slots generalizing f keys bound with
  | nil => exact ⟨f, bound, rfl, by rwa [toFinset_nil, Finset.union_empty], rfl⟩
  | cons slot slots ih =>
    rw [pairwise_cons] at hsorted
    rw [forall_mem_cons] at hfits
    obtain ⟨f₁, hinsert, h₁, hw₁⟩ := h.insert_spec (hsorted.1 slot mem_cons_self) hfits.1
    obtain ⟨f', bound', hrun, h', hw'⟩ := ih h₁ hsorted.2 (by rw [hw₁]; exact hfits.2)
    refine ⟨f', bound', ?_, ?_, hw'.trans hw₁⟩
    · rw [foldlM_cons, hinsert]
      exact hrun
    · rwa [toFinset_cons, Finset.union_insert, ← Finset.insert_union]

lemma ascending_removes (h : Ascending f keys bound) (slots : List ℕ) :
    ∃ f', slots.foldlM Ancestors.remove ⟨f⟩ = some ⟨f'⟩ ∧
      Ascending f' (keys \ slots.toFinset) bound := by
  induction slots generalizing f keys with
  | nil => exact ⟨f, rfl, by rwa [toFinset_nil, Finset.sdiff_empty]⟩
  | cons slot slots ih =>
    obtain ⟨f₁, hremove, h₁, -⟩ := h.remove_spec slot
    obtain ⟨f', hrun, h'⟩ := ih h₁
    refine ⟨f', ?_, ?_⟩
    · rw [foldlM_cons, Ancestors.remove, hremove]
      exact hrun
    · rwa [toFinset_cons, Finset.sdiff_insert, ← Finset.erase_sdiff_comm]

lemma ancestors_exact (source removed : List Slot)
    (hfits : ∀ slot ∈ source, slot + ancestorsHashMapSize ≤ u64Max) :
    ∃ a, (Ancestors.fromVec source >>= fun a ↦ removed.foldlM Ancestors.remove a) = some a ∧
      ∀ slot, a.containsKey slot = decide (slot ∈ source ∧ slot ∉ removed) := by
  obtain ⟨f, hnew, h, hw⟩ := @new_ascending 13 0
  have hsorted : (0 :: source.mergeSort (· ≤ ·)).Pairwise (· ≤ ·) :=
    pairwise_cons.mpr ⟨fun slot _ ↦ Nat.zero_le slot, pairwise_mergeSort' (· ≤ ·) source⟩
  obtain ⟨f₁, bound, hinserts, h₁, -⟩ := ascending_inserts h hsorted fun slot hslot ↦ by
    rw [hw]
    exact hfits slot (mem_mergeSort.mp hslot)
  obtain ⟨f₂, hremoves, h₂⟩ := ascending_removes h₁ removed
  refine ⟨⟨f₂⟩, ?_, fun slot ↦ ?_⟩
  · rw [Ancestors.fromVec, show ancestorsHashMapSize = 2 ^ 13 from rfl, hnew]
    simp only [some_bind, hinserts]
    exact hremoves
  rw [Ancestors.containsKey, h₂.toKeys.answers.contains]
  refine decide_eq_decide.mpr ?_
  rw [Finset.mem_sdiff, Finset.empty_union, mem_toFinset, mem_toFinset, mem_mergeSort]

/-! ### Roots -/

structure Tracks (t : RootsTracker) (roots : Finset ℕ) : Prop where
  ascending : Ascending t.roots roots t.maxRoot
  width : t.roots.maxWidth = 2 ^ 22

lemma Tracks.step_spec {t : RootsTracker} {roots : Finset ℕ} {op : Operation} (h : Tracks t roots)
    (hop : ∀ slot ∈ op.inserted, t.maxRoot ≤ slot ∧ slot + 2 ^ 22 ≤ u64Max) :
    ∃ t', t.step op = some t' ∧ Tracks t' (keysAfter roots op) ∧
      t'.maxRoot = (op.inserted).getD t.maxRoot := by
  cases op with
  | insert slot =>
    obtain ⟨hle, hfits⟩ := hop slot rfl
    obtain ⟨f', hinsert, hf', hw⟩ := h.ascending.insert_spec hle (by rwa [h.width])
    refine ⟨⟨f', slot⟩, ?_, ⟨hf', hw.trans h.width⟩, rfl⟩
    rw [RootsTracker.step, RootsTracker.addRoot, hinsert]
    exact if_pos hle
  | remove slot =>
    obtain ⟨f', hremove, hf', hw⟩ := h.ascending.remove_spec slot
    refine ⟨⟨f', t.maxRoot⟩, ?_, ⟨hf', hw.trans h.width⟩, rfl⟩
    rw [RootsTracker.step, RootsTracker.cleanDeadSlot, hremove]
    rfl
  | clear =>
    obtain ⟨f', hnew, hf', hw⟩ := @new_ascending 22 t.maxRoot
    refine ⟨⟨f', t.maxRoot⟩, ?_, ⟨hf', hw⟩, rfl⟩
    rw [RootsTracker.step, RootsTracker.clearRoots, RollingBitField.clear, h.width, hnew]
    rfl

lemma Tracks.run_spec {t : RootsTracker} {roots : Finset ℕ} {ops : List Operation}
    (h : Tracks t roots) (hsorted :
      (t.maxRoot :: ops.filterMap Operation.inserted).Pairwise (· ≤ ·))
    (hfits : ∀ slot ∈ ops.filterMap Operation.inserted, slot + 2 ^ 22 ≤ u64Max) :
    ∃ t', ops.foldlM RootsTracker.step t = some t' ∧ Tracks t' (ops.foldl keysAfter roots) := by
  induction ops generalizing t roots with
  | nil => exact ⟨t, rfl, h⟩
  | cons op ops ih =>
    rw [filterMap_cons] at hsorted hfits
    have hop : ∀ slot ∈ op.inserted, t.maxRoot ≤ slot ∧ slot + 2 ^ 22 ≤ u64Max := by
      intro slot hslot
      rw [Option.mem_def.mp hslot] at hsorted hfits
      exact ⟨(pairwise_cons.mp hsorted).1 slot mem_cons_self, hfits slot mem_cons_self⟩
    obtain ⟨t₁, hstep, h₁, hmax⟩ := h.step_spec hop
    have hrest : (t₁.maxRoot :: ops.filterMap Operation.inserted).Pairwise (· ≤ ·) ∧
        ∀ slot ∈ ops.filterMap Operation.inserted, slot + 2 ^ 22 ≤ u64Max := by
      rw [hmax]
      cases hins : op.inserted with
      | none =>
        rw [hins] at hsorted hfits
        exact ⟨hsorted, hfits⟩
      | some slot =>
        rw [hins] at hsorted hfits
        exact ⟨(pairwise_cons.mp hsorted).2, fun s hs ↦ hfits s (mem_cons_of_mem _ hs)⟩
    obtain ⟨t', hrun, h'⟩ := ih h₁ hrest.1 hrest.2
    refine ⟨t', ?_, h'⟩
    rw [foldlM_cons, hstep]
    exact hrun

lemma roots_exact {ops : List Operation}
    (hsorted : (ops.filterMap Operation.inserted).Pairwise (· ≤ ·))
    (hfits : ∀ slot ∈ ops.filterMap Operation.inserted, slot + 2 ^ 22 ≤ u64Max) :
    ∃ t, (RootsTracker.default >>= fun t ↦ ops.foldlM RootsTracker.step t) = some t ∧
      t.roots.Answers (ops.foldl keysAfter ∅) := by
  obtain ⟨f, hnew, h, hw⟩ := @new_ascending 22 0
  obtain ⟨t, hrun, ht⟩ := @Tracks.run_spec ⟨f, 0⟩ ∅ ops ⟨h, hw⟩
    (pairwise_cons.mpr ⟨fun slot _ ↦ Nat.zero_le slot, hsorted⟩) hfits
  refine ⟨t, ?_, ht.ascending.toKeys.answers⟩
  rw [RootsTracker.default, RootsTracker.new, show 4194304 = 2 ^ 22 from rfl, hnew]
  exact hrun

/-- **Bit fields are sets.** If every insertion in a run is of a key with room above it, and above
all keys in case that none of them is in the ring, a bit field answers as the set of the keys that
have been inserted and not been removed. Insertions in ascending order are such, and so the
ancestors of a bank and the roots of the index are exact. -/
theorem bit_fields_are_sets (n : ℕ) (ops : List Operation)
    (hops : ∀ f ∈ RollingBitField.new (2 ^ n), f.AdmitsAll ops) :
    (∃ f, run (2 ^ n) ops = some f ∧ f.Answers (ops.foldl keysAfter ∅)) ∧
      (∀ source removed : List Slot, (∀ slot ∈ source, slot + ancestorsHashMapSize ≤ u64Max) →
        ∃ a, (Ancestors.fromVec source >>= fun a ↦ removed.foldlM Ancestors.remove a) = some a ∧
          ∀ slot, a.containsKey slot = decide (slot ∈ source ∧ slot ∉ removed)) ∧
      (∀ calls : List Operation, (calls.filterMap Operation.inserted).Pairwise (· ≤ ·) →
        (∀ slot ∈ calls.filterMap Operation.inserted, slot + 2 ^ 22 ≤ u64Max) →
        ∃ t, (RootsTracker.default >>= fun t ↦ calls.foldlM RootsTracker.step t) = some t ∧
          t.roots.Answers (calls.foldl keysAfter ∅)) := by
  refine ⟨?_, ancestors_exact, fun calls ↦ roots_exact⟩
  obtain ⟨f, hnew, h, hw, -⟩ := @new_spec n
  obtain ⟨f', hrun, h'⟩ := h.run_spec hw (hops f hnew)
  refine ⟨f', ?_, h'.answers⟩
  rw [run, hnew]
  exact hrun

/-- A run in which a key leaves the ring and all keys in the ring are removed. -/
theorem bit_fields_are_sets_width_two :
    ∃ f, run 2 [.insert 1, .insert 4, .remove 4, .insert 9] = some f ∧
      f.Answers ([.insert 1, .insert 4, .remove 4, .insert 9].foldl keysAfter ∅) := by
  refine (bit_fields_are_sets 1 [.insert 1, .insert 4, .remove 4, .insert 9] fun f hf ↦ ?_).1
  cases hf
  decide +kernel

/-- The key 1 is outside of the ring when the ring becomes empty, and is hidden by the insertion of
0. And the window of a key near the end of the numbers has no end. -/
theorem excess_key_hidden :
    (∃ f, run 1 [.insert 1, .insert 2, .remove 2, .insert 0] = some f ∧ f.contains 1 = false) ∧
      1 ∈ [.insert 1, .insert 2, .remove 2, .insert 0].foldl keysAfter ∅ ∧
      run 4 [.insert (u64Max - 3), .insert (u64Max - 1)] = none := by
  refine ⟨⟨⟨1, 0, 1, {0}, 2, {1}⟩, by decide, by decide⟩, by decide, by decide +kernel⟩

end

end Renec.AccountsDb
