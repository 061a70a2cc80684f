import Mathlib

/-!
# Slices

`l[start..stop]` of a language with bounds checks: the part of a list between two positions, or
nothing if they are not positions of the list in this order. A list that is put together from parts
has each part as a slice at the length of what stands before it (`slice?_append`); the blocks of a
list of blocks of one width stand at the multiples of that width (`slice?_blocks`).
-/

namespace List

open List

variable {α β : Type}

/-- `l[start..stop]`. -/
def slice? (l : List α) (start stop : ℕ) : Option (List α) :=
  if start ≤ stop ∧ stop ≤ l.length then some ((l.take stop).drop start) else none

variable {part l : List α} {start stop : ℕ}

lemma slice?_eq_some : l.slice? start stop = some part ↔
      ∃ before behind, l = before ++ part ++ behind ∧ before.length = start ∧
        start + part.length = stop := by
  rw [slice?]
  constructor
  · intro h
    split_ifs at h with hbounds
    cases h
    refine ⟨l.take start, l.drop stop, ?_, length_take_of_le (by omega), ?_⟩
    · have htake : l.take start = (l.take stop).take start := by
        rw [take_take, Nat.min_eq_left hbounds.1]
      rw [htake, take_append_drop, take_append_drop]
    rw [length_drop, length_take]
    omega
  rintro ⟨before, behind, rfl, rfl, rfl⟩
  rw [if_pos (by simp only [length_append]; omega)]
  rw [take_left' (by rw [length_append]), drop_left' rfl]

variable {before behind : List α}

lemma slice?_append (hstart : before.length = start) (hstop : start + part.length = stop) :
    (before ++ part ++ behind).slice? start stop = some part :=
  slice?_eq_some.mpr ⟨before, behind, rfl, hstart, hstop⟩

lemma length_of_slice? (h : l.slice? start stop = some part) :
    start + part.length = stop ∧ stop ≤ l.length := by
  obtain ⟨before, behind, rfl, rfl, rfl⟩ := slice?_eq_some.mp h
  exact ⟨rfl, by simp only [length_append]; omega⟩

/-- From the position `p` on, the list is `rest`. -/
def RestAt (l : List α) (p : ℕ) (rest : List α) : Prop :=
  ∃ before, l = before ++ rest ∧ before.length = p

lemma RestAt.skip {rest : List α} {p q : ℕ} (h : l.RestAt p (part ++ rest))
    (hq : p + part.length = q) : l.RestAt q rest := by
  obtain ⟨before, rfl, rfl⟩ := h
  exact ⟨before ++ part, (append_assoc _ _ _).symm, by rw [length_append, hq]⟩

lemma RestAt.slice? {rest : List α} {p q : ℕ} (h : l.RestAt p (part ++ rest))
    (hq : p + part.length = q) : l.slice? p q = some part := by
  obtain ⟨before, rfl, hp⟩ := h
  rw [← append_assoc]
  exact slice?_append hp hq

variable {f : β → List α} {w : ℕ}

lemma length_flatMap_of_forall {l : List β} (hw : ∀ b, (f b).length = w) :
    (l.flatMap f).length = w * l.length := by
  induction l with
  | nil => rfl
  | cons b l ih =>
    rw [flatMap_cons, length_append, hw, ih, length_cons, Nat.mul_add_one, Nat.add_comm]

lemma slice?_blocks {l : List β} {i : ℕ} {b : β} (hw : ∀ b, (f b).length = w)
    (hstart : before.length = start) (hb : l[i]? = some b) :
    (before ++ l.flatMap f ++ behind).slice? (start + w * i) (start + w * i + w) = some (f b) := by
  obtain ⟨hi, hget⟩ := List.getElem?_eq_some_iff.mp hb
  have hsplit : before ++ l.flatMap f ++ behind =
      (before ++ (l.take i).flatMap f) ++ f b ++ ((l.drop (i + 1)).flatMap f ++ behind) := by
    conv_lhs => rw [← take_append_drop i l, drop_eq_getElem_cons hi, hget]
    simp only [flatMap_append, flatMap_cons, append_assoc]
  rw [hsplit]
  refine slice?_append ?_ (by rw [hw])
  rw [length_append, hstart, length_flatMap_of_forall hw, length_take_of_le (Nat.le_of_lt hi)]

end List
