import Mathlib

/-!
# Sorting by a rank

A stable sort by a rank in `ℕ` keeps the elements of each rank in their order, so its result is
the elements of rank 0, then those of rank 1, and so on (`insertionSort_eq_flatMap`).
`List.insertionSort` is the sort; what is shown holds of every stable one.
-/

namespace StableSort

open List

variable {α : Type*} {r : α → α → Prop} [DecidableRel r] {f : α → ℕ}

lemma filter_orderedInsert (hr : ∀ a b, r a b ↔ f a ≤ f b) (k : ℕ) (a : α) (l : List α) :
    (l.orderedInsert r a).filter (fun b ↦ f b = k) = (a :: l).filter fun b ↦ f b = k := by
  induction l with
  | nil => rfl
  | cons b l ih =>
    rw [orderedInsert_cons]
    split_ifs with hab
    · rfl
    rw [filter_cons, ih, filter_cons, filter_cons, filter_cons]
    -- the new element went past `b`, so the two have different ranks
    have hlt : f b < f a := not_le.mp fun hle ↦ hab ((hr a b).mpr hle)
    by_cases hb : f b = k
    · have ha : f a ≠ k := by omega
      simp only [hb, ha, decide_true, decide_false, if_true, Bool.false_eq_true, if_false]
    · simp only [hb, decide_false, Bool.false_eq_true, if_false]

/-- The sort is stable: the elements of one rank keep their order. -/
theorem filter_insertionSort (hr : ∀ a b, r a b ↔ f a ≤ f b) (k : ℕ) (l : List α) :
    (l.insertionSort r).filter (fun b ↦ f b = k) = l.filter fun b ↦ f b = k := by
  induction l with
  | nil => rfl
  | cons a l ih =>
    rw [insertionSort_cons, filter_orderedInsert hr, filter_cons, ih, filter_cons]

lemma filter_lt_succ {l : List α} (hl : l.Pairwise fun a b ↦ f a ≤ f b) (n : ℕ) :
    l.filter (fun a ↦ f a < n + 1) = l.filter (fun a ↦ f a < n) ++ l.filter fun a ↦ f a = n := by
  induction l with
  | nil => rfl
  | cons a l ih =>
    rw [pairwise_cons] at hl
    obtain ⟨ha, hl⟩ := hl
    rcases lt_trichotomy (f a) n with hlt | heq | hgt
    · rw [filter_cons_of_pos (by simpa using hlt.trans n.lt_succ_self),
        filter_cons_of_pos (by simpa using hlt), filter_cons_of_neg (by simp; omega),
        ih hl, cons_append]
    · have hnil : l.filter (fun b ↦ f b < n) = [] :=
        filter_eq_nil_iff.mpr fun b hb ↦ by simpa [← heq] using ha b hb
      rw [filter_cons_of_pos (by simp; omega), filter_cons_of_neg (by simp; omega),
        filter_cons_of_pos (by simpa using heq), ih hl, hnil, nil_append, nil_append]
    rw [filter_cons_of_neg (by simp; omega), filter_cons_of_neg (by simp; omega),
      filter_cons_of_neg (by simp; omega), ih hl]

lemma filter_lt_eq_flatMap {l : List α} (hl : l.Pairwise fun a b ↦ f a ≤ f b) (n : ℕ) :
    l.filter (fun a ↦ f a < n) = (range n).flatMap fun k ↦ l.filter fun a ↦ f a = k := by
  induction n with
  | zero => simp
  | succ n ih => rw [filter_lt_succ hl, ih, range_succ, flatMap_append,
      flatMap_singleton]

lemma pairwise_insertionSort (hr : ∀ a b, r a b ↔ f a ≤ f b) (l : List α) :
    (l.insertionSort r).Pairwise fun a b ↦ f a ≤ f b := by
  have : Std.Total r := ⟨fun a b ↦ by rw [hr, hr]; exact le_total _ _⟩
  have : IsTrans α r := ⟨fun a b c ↦ by simp only [hr]; exact le_trans⟩
  exact (List.pairwise_insertionSort r l).imp fun h ↦ (hr _ _).mp h

/-- The result of the sort, rank by rank. -/
theorem insertionSort_eq_flatMap (hr : ∀ a b, r a b ↔ f a ≤ f b) {l : List α} {n : ℕ}
    (hn : ∀ a ∈ l, f a < n) :
    l.insertionSort r = (range n).flatMap fun k ↦ l.filter fun a ↦ f a = k := by
  have hall : (l.insertionSort r).filter (fun a ↦ f a < n) = l.insertionSort r :=
    filter_eq_self.mpr fun a ha ↦ decide_eq_true (hn a ((mem_insertionSort r).mp ha))
  rw [← hall, filter_lt_eq_flatMap (pairwise_insertionSort hr l)]
  simp only [filter_insertionSort hr]

end StableSort
