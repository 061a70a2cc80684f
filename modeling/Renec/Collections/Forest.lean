import Mathlib

/-!
# Forests of parent pointers

A forest over a well-founded order, given by a parent function that strictly decreases. The
ancestors of a node are then a finite set, computed by following the pointers, and the two facts
every argument about forks uses hold: an ancestor is strictly smaller, and two ancestors of one node
are ancestors of one another.
-/

open Relation

/-- A forest: every node has at most one parent, and the parent is smaller. -/
structure Forest (α : Type*) [LT α] where
  /-- The parent of a node, if it has one. -/
  parent : α → Option α
  /-- A parent is strictly smaller than its child. -/
  parent_lt : ∀ {n p : α}, parent n = some p → p < n

namespace Forest

section

variable {α : Type*} [Preorder α] (F : Forest α)

/-- One step up: `p` is the parent of `n`. -/
def Up (n p : α) : Prop := F.parent n = some p

/-- `a` is a strict ancestor of `n`. -/
def IsAncestor (a n : α) : Prop := TransGen F.Up n a

/-- `a` is `n` or a strict ancestor of `n`. -/
def Above (a n : α) : Prop := ReflTransGen F.Up n a

variable {F} {a b c n p : α}

lemma isAncestor_of_parent (h : F.parent n = some p) : F.IsAncestor p n :=
  TransGen.single h

lemma IsAncestor.above (h : F.IsAncestor a n) : F.Above a n :=
  TransGen.to_reflTransGen h

lemma Above.refl (n : α) : F.Above n n :=
  ReflTransGen.refl

lemma Above.trans (h₁ : F.Above a b) (h₂ : F.Above b c) : F.Above a c :=
  ReflTransGen.trans h₂ h₁

lemma above_iff : F.Above a n ↔ a = n ∨ F.IsAncestor a n :=
  reflTransGen_iff_eq_or_transGen

lemma isAncestor_iff : F.IsAncestor a n ↔ ∃ p, F.parent n = some p ∧ F.Above a p :=
  TransGen.head'_iff

lemma IsAncestor.lt (h : F.IsAncestor a n) : a < n := by
  induction h with
  | single h => exact F.parent_lt h
  | tail _ h ih => exact (F.parent_lt h).trans ih

lemma Above.le (h : F.Above a n) : a ≤ n := by
  rcases above_iff.1 h with rfl | h
  · exact le_rfl
  · exact h.lt.le

/-- Linearity: two nodes above a common node are above one another. -/
theorem Above.total (ha : F.Above a n) (hb : F.Above b n) : F.Above a b ∨ F.Above b a := by
  have huniq : Relator.RightUnique F.Up := fun x y z hy hz ↦
    Option.some.inj (Eq.trans (Eq.symm hy) hz)
  exact (ReflTransGen.total_of_right_unique huniq ha hb).symm

lemma Above.isAncestor_of_ne (h : F.Above a n) (hne : a ≠ n) : F.IsAncestor a n := by
  rcases above_iff.1 h with rfl | h
  · exact absurd rfl hne
  · exact h

lemma Above.isAncestor_of_lt (ha : F.Above a n) (hb : F.Above b n) (hlt : a < b) :
    F.IsAncestor a b := by
  rcases ha.total hb with h | h
  · exact h.isAncestor_of_ne hlt.ne
  · exact absurd (hlt.trans_le h.le) (lt_irrefl _)

end

section

variable {α : Type*} [PartialOrder α] {F : Forest α} {a b n : α}

lemma Above.above_of_le (ha : F.Above a n) (hb : F.Above b n) (hle : a ≤ b) : F.Above a b := by
  rcases hle.eq_or_lt with rfl | hlt
  · exact Above.refl a
  · exact (ha.isAncestor_of_lt hb hlt).above

end

section

variable {α : Type*} [Preorder α] [WellFoundedLT α] [DecidableEq α]

/-- The set of strict ancestors, by following the parent pointers. -/
def ancestors {α : Type*} [Preorder α] [WellFoundedLT α] [DecidableEq α] (F : Forest α) (n : α) :
    Finset α :=
  match h : F.parent n with
  | none => ∅
  | some p =>
    have : p < n := F.parent_lt h
    insert p (F.ancestors p)
termination_by wellFounded_lt.wrap n

variable (F : Forest α)

lemma ancestors_of_none {n : α} (h : F.parent n = none) : F.ancestors n = ∅ := by
  rw [ancestors]
  split <;> simp_all

lemma ancestors_of_some {n p : α} (h : F.parent n = some p) :
    F.ancestors n = insert p (F.ancestors p) := by
  rw [ancestors]
  split <;> simp_all

lemma mem_ancestors_iff {a n : α} : a ∈ F.ancestors n ↔ F.IsAncestor a n := by
  induction n using WellFoundedLT.induction with
  | ind n ih =>
    rw [isAncestor_iff]
    rcases h : F.parent n with - | p
    · simp [F.ancestors_of_none h]
    rw [F.ancestors_of_some h, Finset.mem_insert, ih p (F.parent_lt h)]
    simp [above_iff]

end

end Forest
