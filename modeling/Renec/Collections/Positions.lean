import Mathlib

/-!
# Indexes of a table

A table is a list of entries that are known by their position, and an index relates keys to
positions: `Indexes` says that it has exactly the positions of the entries with a key. The lemmas
say what has to happen to an index if an entry is appended, replaced, or removed by moving the last
entry to its place (`List.swapRemove`).
-/

open List

variable {α κ : Type}

/-- Remove the entry at a position and move the last one there. -/
def List.swapRemove (l : List α) (i : ℕ) : List α :=
  match l.getLast? with
  | some last => l.dropLast.set i last
  | none => l

lemma List.swapRemove_concat (init : List α) (last : α) (i : ℕ) :
    (init ++ [last]).swapRemove i = init.set i last := by
  rw [swapRemove, getLast?_concat, dropLast_concat]

lemma List.getElem?_of_swapRemove {init : List α} {last a : α} {i j : ℕ}
    (h : ((init ++ [last]).swapRemove i)[j]? = some a) :
    (init ++ [last])[if j = i then init.length else j]? = some a ∧
      (if j = i then init.length else j) ≠ i := by
  rw [swapRemove_concat] at h
  have hlt := (getElem?_eq_some_iff.mp h).1
  rw [length_set] at hlt
  split_ifs with hj
  · subst hj
    rw [getElem?_set_self hlt] at h
    exact ⟨(getElem?_concat_length ..).trans h, Nat.ne_of_gt hlt⟩
  rw [getElem?_set_ne (Ne.symm hj)] at h
  exact ⟨(getElem?_append_left hlt).trans h, hj⟩

/-- An index of a table, by a key that not every entry has. -/
def Indexes (key : α → Option κ) (table : List α) (index : κ → ℕ → Prop) : Prop :=
  ∀ k i, index k i ↔ ∃ a, table[i]? = some a ∧ key a = some k

namespace Indexes

variable {key : α → Option κ} {table init : List α} {index index' : κ → ℕ → Prop}
  {a last : α} {i : ℕ}

lemma congr (h : Indexes key table index) (heq : ∀ k i, index' k i ↔ index k i) :
    Indexes key table index' := fun k i ↦ (heq k i).trans (h k i)

lemma nil : Indexes key [] fun _ _ ↦ False := fun _ _ ↦
  ⟨False.elim, fun ⟨_, ha, _⟩ ↦ by cases ha⟩

section

variable (h : Indexes key table index)

include h

lemma at_iff (hi : table[i]? = some a) (k : κ) : index k i ↔ key a = some k := by
  rw [h k i, hi]
  constructor
  · rintro ⟨b, hb, hk⟩
    cases hb
    exact hk
  · exact fun hk ↦ ⟨a, rfl, hk⟩

lemma lt_length {k : κ} (hi : index k i) : i < table.length := by
  obtain ⟨a, ha, -⟩ := (h k i).mp hi
  exact (List.getElem?_eq_some_iff.mp ha).1

lemma concat (a : α) :
    Indexes key (table ++ [a]) fun k i ↦ index k i ∨ key a = some k ∧ i = table.length := by
  intro k i
  show index k i ∨ _ ↔ _
  rw [h k i]
  rcases lt_trichotomy i table.length with hlt | rfl | hgt
  · rw [getElem?_append_left hlt]
    exact or_iff_left fun h ↦ Nat.ne_of_lt hlt h.2
  · rw [getElem?_concat_length, getElem?_eq_none (le_refl _)]
    constructor
    · rintro (⟨b, hb, -⟩ | ⟨hk, -⟩)
      · cases hb
      · exact ⟨a, rfl, hk⟩
    rintro ⟨b, hb, hk⟩
    cases hb
    exact .inr ⟨hk, rfl⟩
  rw [getElem?_eq_none (show (_ ++ [_]).length ≤ _ by rw [length_append]; exact hgt),
    getElem?_eq_none (Nat.le_of_lt hgt)]
  exact or_iff_left fun h ↦ Nat.ne_of_gt hgt h.2

lemma set (hi : i < table.length) (a : α) :
    Indexes key (table.set i a) fun k j ↦ index k j ∧ j ≠ i ∨ key a = some k ∧ j = i := by
  intro k j
  show index k j ∧ _ ∨ _ ↔ _
  rw [h k j]
  rcases eq_or_ne j i with rfl | hne
  · rw [getElem?_set_self hi]
    constructor
    · rintro (⟨-, hne⟩ | ⟨hk, -⟩)
      · exact absurd rfl hne
      · exact ⟨a, rfl, hk⟩
    rintro ⟨b, hb, hk⟩
    cases hb
    exact .inr ⟨hk, rfl⟩
  rw [getElem?_set_ne hne.symm]
  exact ⟨fun h ↦ h.elim (fun h ↦ h.1) fun h ↦ absurd h.2 hne, fun h ↦ .inl ⟨h, hne⟩⟩

lemma set_of_key_eq (hi : table[i]? = some a) {b : α} (hkey : key b = key a) :
    Indexes key (table.set i b) index := by
  obtain ⟨hlt, -⟩ := List.getElem?_eq_some_iff.mp hi
  refine (h.set hlt b).congr fun k j ↦ ?_
  have hk : index k i ↔ key b = some k := by rw [h.at_iff hi, hkey]
  rcases eq_or_ne j i with rfl | hne
  · rw [hk]
    exact ⟨fun h ↦ .inr ⟨h, rfl⟩, fun h ↦ h.elim (fun h ↦ absurd rfl h.2) fun h ↦ h.1⟩
  · exact ⟨fun h ↦ .inl ⟨h, hne⟩, fun h ↦ h.elim (fun h ↦ h.1) fun h ↦ absurd h.2 hne⟩

end

lemma dropLast (h : Indexes key (init ++ [last]) index) :
    Indexes key init fun k j ↦ index k j ∧ j ≠ init.length := by
  intro k j
  show index k j ∧ _ ↔ _
  rw [h k j]
  rcases lt_trichotomy j init.length with hlt | rfl | hgt
  · rw [getElem?_append_left hlt]
    exact and_iff_left (Nat.ne_of_lt hlt)
  · rw [getElem?_eq_none (le_refl init.length)]
    exact ⟨fun h ↦ absurd rfl h.2, fun ⟨_, hb, _⟩ ↦ by cases hb⟩
  rw [getElem?_eq_none (show (_ ++ [_]).length ≤ _ by rw [length_append]; exact hgt),
    getElem?_eq_none (Nat.le_of_lt hgt)]
  exact ⟨fun ⟨⟨_, hb, _⟩, _⟩ ↦ (by cases hb), fun ⟨_, hb, _⟩ ↦ (by cases hb)⟩

/-- An entry is removed, in two steps: its position is taken out of the index, and that of the last
entry is changed unless this is the entry itself. -/
theorem swapRemove {index₁ index₂ : κ → ℕ → Prop} (h : Indexes key (init ++ [last]) index)
    (hi : i ≤ init.length) (h₁ : ∀ k j, index₁ k j ↔ index k j ∧ j ≠ i)
    (h₂ : i < init.length →
      ∀ k j, index₂ k j ↔ index₁ k j ∧ j ≠ init.length ∨ key last = some k ∧ j = i)
    (h₃ : i = init.length → ∀ k j, index₂ k j ↔ index₁ k j) :
    Indexes key ((init ++ [last]).swapRemove i) index₂ := by
  rw [swapRemove_concat]
  rcases Nat.lt_or_eq_of_le hi with hlt | rfl
  · refine (h.dropLast.set hlt last).congr fun k j ↦ ?_
    rw [h₂ hlt, h₁, and_right_comm]
  rw [set_eq_of_length_le (Nat.le_refl _)]
  exact h.dropLast.congr fun k j ↦ by rw [h₃ rfl, h₁]

end Indexes
