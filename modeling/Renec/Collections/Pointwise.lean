import Mathlib

/-!
# Lists changed element by element

A list of records that is changed one record at a time, as by `l.set k y`. Two ways to follow such
a list through many changes: a relation that holds between the records at each place
(`List.Forall₂`), composed along the changes, and the sum of an amount over the records, which a
change moves by the difference of one amount.
-/

open List

namespace Pointwise

variable {α : Type*} {l l' l'' : List α} {x y : α} {k : ℕ}

lemma forall₂_trans {R : α → α → Prop} [IsTrans α R] (h : Forall₂ R l l')
    (h' : Forall₂ R l' l'') : Forall₂ R l l'' := by
  induction h generalizing l'' with
  | nil =>
    cases h'
    exact .nil
  | cons hab _ ih =>
    cases h' with
    | cons hbc htail => exact .cons (trans_of R hab hbc) (ih htail)

lemma forall₂_set {R : α → α → Prop} [Std.Refl R] (hk : l[k]? = some x) (h : R x y) :
    Forall₂ R l (l.set k y) := by
  induction l generalizing k with
  | nil => cases hk
  | cons a l ih =>
    cases k with
    | zero =>
      cases hk
      exact .cons h (forall₂_refl l)
    | succ k => exact .cons (refl_of R a) (ih hk)

lemma sum_map_set (f : α → ℕ) (hk : l[k]? = some x) (y : α) :
    ((l.set k y).map f).sum + f x = (l.map f).sum + f y := by
  induction l generalizing k with
  | nil => cases hk
  | cons a l ih =>
    cases k with
    | zero =>
      cases hk
      rw [set_cons_zero, map_cons, map_cons, sum_cons, sum_cons]
      omega
    | succ k =>
      have htail := ih hk
      rw [set_cons_succ, map_cons, map_cons, sum_cons, sum_cons]
      omega

lemma sum_map_range_getElem? (f : α → ℕ) (l : List α) :
    ((range l.length).map fun i ↦ (l[i]?).elim 0 f).sum = (l.map f).sum := by
  congr 1
  refine ext_getElem (by simp) fun i h₁ h₂ ↦ ?_
  have hi : i < l.length := by simpa using h₂
  rw [getElem_map, getElem_range, getElem?_eq_getElem hi, getElem_map]
  rfl

end Pointwise
