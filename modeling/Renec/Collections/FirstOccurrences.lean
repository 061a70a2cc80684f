import Mathlib

/-!
# First occurrences

`List.eraseDups` keeps the first occurrence of each element, in order. It is what a loop computes
that skips what it has seen, and the lemmas here are for reasoning about such a loop: over the last
element (`eraseDups_concat`), and over a concatenation, with what the first part already holds
removed from the second.
-/

open List

namespace FirstOccurrences

variable {α : Type*} [DecidableEq α]

@[simp] lemma mem_removeAll {a : α} {l l' : List α} : a ∈ l.removeAll l' ↔ a ∈ l ∧ a ∉ l' := by
  simp [removeAll]

lemma eraseDups_singleton (a : α) : [a].eraseDups = [a] := by
  rw [eraseDups_cons, filter_nil, eraseDups_nil]

/-- One more element is kept exactly when it is new. -/
theorem eraseDups_concat (l : List α) (a : α) :
    (l ++ [a]).eraseDups = if a ∈ l then l.eraseDups else l.eraseDups ++ [a] := by
  rw [eraseDups_append]
  split_ifs with ha
  · have hnil : [a].removeAll l = [] := by simp [removeAll, ha]
    rw [hnil, eraseDups_nil, append_nil]
  have hself : [a].removeAll l = [a] := by simp [removeAll, ha]
  rw [hself, eraseDups_singleton]

lemma nodup_eraseDups (l : List α) : l.eraseDups.Nodup := by
  induction l using reverseRecOn with
  | nil => simp
  | append_singleton l a ih =>
    rw [eraseDups_concat]
    split_ifs with ha
    · exact ih
    refine nodup_append.mpr ⟨ih, nodup_singleton a, ?_⟩
    intro x hx y hy hxy
    rw [mem_singleton] at hy
    exact ha (hy ▸ hxy ▸ mem_eraseDups.mp hx)

end FirstOccurrences
