import Mathlib

/-!
# Sweeps over a map

A batch of updates kept in an ordered map and applied from its greatest key down. Each update is to
the value at one key, and may read the values at greater keys. These are final when it is applied,
so the sweep solves a system of equations: in the end, the value at a key is what the updates at the
key make of the value before, from the final values at the greater keys (`sweep`).
-/

open Option List

/-- In a linear order, only equal elements compare as equal. -/
instance compareLawfulEqCmp {α : Type*} [LinearOrder α] :
    Std.LawfulEqCmp (compare : α → α → Ordering) where
  compare_self := compare_eq_iff_eq.mpr rfl
  eq_of_compare h := compare_eq_iff_eq.mp h

/-! ### Ordered maps from the greatest key down -/

namespace OrderedMap

variable {υ ω : Type} [LinearOrder υ] {m : Std.TreeMap υ ω} {u v : υ} {o : ω}

/-- The entries, greatest key first. -/
def descending (m : Std.TreeMap υ ω) : List (υ × ω) := m.toList.reverse

lemma mem_descending : (u, o) ∈ descending m ↔ m[u]? = some o := by
  rw [descending, mem_reverse, Std.TreeMap.mem_toList_iff_getElem?_eq_some]

lemma pairwise_descending : (descending m).Pairwise fun a b ↦ b.1 < a.1 := by
  rw [descending, pairwise_reverse]
  exact Std.TreeMap.ordered_keys_toList.imp compare_lt_iff_lt.mp

lemma getElem?_insert : (m.insert u o)[v]? = if v = u then some o else m[v]? := by
  simp only [Std.TreeMap.getElem?_insert, compare_eq_iff_eq, eq_comm (a := u)]

lemma filter_descending {p : υ → Bool} (keys : List υ) (hkeys : keys.Pairwise fun a b ↦ b < a)
    (hp : ∀ u ∈ keys, p u = true) (hm : ∀ u o, m[u]? = some o → p u = true → u ∈ keys) :
    (descending m).filter (fun e ↦ p e.1) = keys.filterMap fun u ↦ m[u]?.map fun o ↦ (u, o) := by
  refine List.Pairwise.eq_of_mem_iff (r := fun a b : υ × ω ↦ b.1 < a.1) ?_ ?_ ?_
  · exact pairwise_descending.filter _
  · rw [pairwise_filterMap]
    refine hkeys.imp fun {u v} huv a ha b hb ↦ ?_
    rw [map_eq_some_iff] at ha hb
    obtain ⟨_, -, rfl⟩ := ha
    obtain ⟨_, -, rfl⟩ := hb
    exact huv
  rintro ⟨u, o⟩
  simp only [mem_filter, mem_descending, mem_filterMap, map_eq_some_iff, Prod.mk.injEq]
  constructor
  · rintro ⟨hu, hpu⟩
    exact ⟨u, hm u o hu hpu, o, hu, rfl, rfl⟩
  rintro ⟨_, hu, _, ho, rfl, rfl⟩
  exact ⟨ho, hp _ hu⟩

end OrderedMap

/-! ### Updates of a map -/

namespace Sweep

variable {κ υ ω ι : Type} [DecidableEq κ]

/-- Change the value at a key, if there is one. -/
def modifyAt (m : Finmap fun _ : κ ↦ ι) (k : κ) (g : ι → Option ι) :
    Option (Finmap fun _ : κ ↦ ι) :=
  match m.lookup k with
  | none => some m
  | some i => (g i).map fun i' ↦ m.insert k i'

section

variable {m m' : Finmap fun _ : κ ↦ ι} {k j : κ} {g : ι → Option ι} {i : ι}

lemma modifyAt_of_some (h : m.lookup k = some i) :
    modifyAt m k g = (g i).map fun i' ↦ m.insert k i' := by
  simp only [modifyAt, h]

lemma lookup_modifyAt_of_ne (h : modifyAt m k g = some m') (hj : j ≠ k) :
    m'.lookup j = m.lookup j := by
  rw [modifyAt] at h
  split at h
  · cases h
    rfl
  obtain ⟨i', -, rfl⟩ := map_eq_some_iff.mp h
  exact Finmap.lookup_insert_of_ne m hj

lemma lookup_modifyAt_of_none (h : modifyAt m k g = some m') (hk : m.lookup k = none) :
    m'.lookup k = none := by
  simp only [modifyAt, hk] at h
  cases h
  exact hk

lemma lookup_modifyAt_of_some (h : modifyAt m k g = some m') (hk : m.lookup k = some i) :
    ∃ i', g i = some i' ∧ m'.lookup k = some i' := by
  rw [modifyAt_of_some hk] at h
  obtain ⟨i', hi', rfl⟩ := map_eq_some_iff.mp h
  exact ⟨i', hi', Finmap.lookup_insert m⟩

end

/-- Apply the updates of a list, one after the other. -/
def run (key : υ → κ) (f : (κ → Option ι) → κ → ω → ι → Option ι)
    (m : Finmap fun _ : κ ↦ ι) (l : List (υ × ω)) : Option (Finmap fun _ : κ ↦ ι) :=
  l.foldlM (fun m e ↦ modifyAt m (key e.1) (f (fun k ↦ m.lookup k) (key e.1) e.2)) m

variable {key : υ → κ} {f : (κ → Option ι) → κ → ω → ι → Option ι}
  {m m' : Finmap fun _ : κ ↦ ι} {l : List (υ × ω)}

lemma run_cons {e : υ × ω} : run key f m (e :: l) =
    (modifyAt m (key e.1) (f (fun k ↦ m.lookup k) (key e.1) e.2)).bind fun m ↦ run key f m l := by
  rw [run, foldlM_cons, bind_eq_bind]
  rfl

lemma lookup_run_of_not_mem (h : run key f m l = some m') {k : κ}
    (hk : ∀ e ∈ l, key e.1 ≠ k) : m'.lookup k = m.lookup k := by
  induction l generalizing m with
  | nil =>
    cases h
    rfl
  | cons e l ih =>
    rw [run_cons, bind_eq_some_iff] at h
    obtain ⟨m₁, hm₁, hl⟩ := h
    rw [ih hl fun e' he' ↦ hk e' (mem_cons_of_mem e he')]
    exact lookup_modifyAt_of_ne hm₁ (hk e mem_cons_self).symm

end Sweep

namespace Sweep

variable {κ υ ω ι : Type} [LinearOrder κ] {key : υ → κ}
  {f : (κ → Option ι) → κ → ω → ι → Option ι} {m m' : Finmap fun _ : κ ↦ ι} {l : List (υ × ω)}

/-- Sweep: if the keys descend, and updates keep a property `P` of the values under which they read
greater keys only, then the value at a key is in the end what its updates make of the value before,
from the final values at the greater keys. -/
theorem sweep {P : κ → ι → Prop}
    (hlocal : ∀ look look' k o i, P k i → (∀ j, k < j → look j = look' j) →
      f look k o i = f look' k o i)
    (hP : ∀ look k o i i', P k i → f look k o i = some i' → P k i')
    (hsorted : l.Pairwise fun a b ↦ key b.1 ≤ key a.1) (h : run key f m l = some m')
    (hm : ∀ k i, m.lookup k = some i → P k i) {k : κ} {i : ι} (hk : m.lookup k = some i) :
    ∃ i', m'.lookup k = some i' ∧ ((l.filter fun e ↦ key e.1 = k).map Prod.snd).foldlM
        (fun i o ↦ f (fun k ↦ m'.lookup k) k o i) i = some i' := by
  induction l generalizing m i with
  | nil =>
    cases h
    exact ⟨i, hk, rfl⟩
  | cons e l ih =>
    rw [run_cons, bind_eq_some_iff] at h
    obtain ⟨m₁, hm₁, hl⟩ := h
    obtain ⟨hle, hsorted⟩ := pairwise_cons.mp hsorted
    have hP₁ : ∀ k i, m₁.lookup k = some i → P k i := by
      intro k i hi
      by_cases hek : k = key e.1
      · subst hek
        cases hold : m.lookup (key e.1) with
        | none => rw [lookup_modifyAt_of_none hm₁ hold] at hi; cases hi
        | some old =>
          obtain ⟨i', hi', hlook⟩ := lookup_modifyAt_of_some hm₁ hold
          obtain rfl := some.inj (hi.symm.trans hlook)
          exact hP _ _ _ _ _ (hm _ old hold) hi'
      rw [lookup_modifyAt_of_ne hm₁ hek] at hi
      exact hm k i hi
    by_cases hek : k = key e.1
    · subst hek
      obtain ⟨i₁, hi₁, hlook⟩ := lookup_modifyAt_of_some hm₁ hk
      obtain ⟨i', hi', hfold⟩ := ih hsorted hl hP₁ hlook
      refine ⟨i', hi', ?_⟩
      -- the greater keys have no updates from here on
      have hfinal : ∀ j, key e.1 < j → m.lookup j = m'.lookup j := by
        intro j hj
        rw [lookup_run_of_not_mem hl fun e' he' hej ↦ absurd (hle e' he') (not_le.mpr (hej ▸ hj)),
          lookup_modifyAt_of_ne hm₁ hj.ne']
      rw [filter_cons_of_pos (by simp), map_cons, foldlM_cons, bind_eq_bind, bind_eq_some_iff]
      refine ⟨i₁, ?_, hfold⟩
      rw [← hi₁]
      exact (hlocal _ _ _ _ _ (hm _ i hk) hfinal).symm
    rw [← lookup_modifyAt_of_ne hm₁ hek] at hk
    obtain ⟨i', hi', hfold⟩ := ih hsorted hl hP₁ hk
    refine ⟨i', hi', ?_⟩
    rw [filter_cons_of_neg (by simpa using Ne.symm hek)]
    exact hfold

end Sweep
