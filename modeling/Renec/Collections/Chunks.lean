import Mathlib

/-!
# Chunks

`l.chunksOf n` cuts a list into parts of length `n`, the last of which may be shorter. The parts
joined are the list (`flatten_chunksOf`).
-/

open Nat

namespace List

variable {α β : Type}

/-- The parts of length `n`, and the rest. -/
def chunksOf (n : ℕ) (l : List α) : List (List α) :=
  (List.range ((l.length + n - 1) / n)).map fun i ↦ (l.drop (i * n)).take n

variable {n : ℕ} {l a b : List α}

@[simp] lemma length_chunksOf : (l.chunksOf n).length = (l.length + n - 1) / n := by
  rw [chunksOf, length_map, length_range]

@[simp] lemma chunksOf_nil (n : ℕ) : ([] : List α).chunksOf n = [] := by
  refine eq_nil_of_length_eq_zero ?_
  rw [length_chunksOf, length_nil, Nat.zero_add]
  rcases Nat.eq_zero_or_pos n with rfl | hpos
  · rfl
  · exact Nat.div_eq_of_lt (Nat.sub_lt hpos Nat.one_pos)

lemma chunksOf_of_ne_nil (hn : 0 < n) (hl : l ≠ []) :
    l.chunksOf n = l.take n :: (l.drop n).chunksOf n := by
  have hpos : 0 < l.length := length_pos_of_ne_nil hl
  have hcount : (l.length + n - 1) / n = ((l.drop n).length + n - 1) / n + 1 := by
    rw [length_drop]
    rcases Nat.le_total n l.length with hle | hle
    · have hsub : l.length + n - 1 = l.length - n + n - 1 + n := by omega
      rw [hsub, add_div_right _ hn]
    have hzero : l.length - n = 0 := Nat.sub_eq_zero_of_le hle
    have hsub : l.length + n - 1 = l.length - 1 + n := by omega
    rw [hzero, Nat.zero_add, div_eq_of_lt (sub_lt hn Nat.one_pos), hsub,
      add_div_right _ hn, div_eq_of_lt (by omega)]
  rw [chunksOf, hcount, range_succ_eq_map, map_cons, Nat.zero_mul, drop_zero, map_map, chunksOf]
  refine congrArg _ (map_congr_left fun i _ ↦ ?_)
  rw [Function.comp_apply, drop_drop, succ_mul, Nat.add_comm]

/-- A function that respects even cuts is put together from its values on the chunks. -/
theorem flatMap_chunksOf (hn : 0 < n) {F : List α → List β} (hnil : F [] = [])
    (happend : ∀ a b : List α, n ∣ a.length → F (a ++ b) = F a ++ F b) (l : List α) :
    (l.chunksOf n).flatMap F = F l := by
  induction hlen : l.length using Nat.strong_induction_on generalizing l with
  | _ m ih =>
    rcases eq_or_ne l [] with rfl | hne
    · rw [chunksOf_nil, flatMap_nil, hnil]
    rw [chunksOf_of_ne_nil hn hne, flatMap_cons]
    have hpos : 0 < l.length := length_pos_of_ne_nil hne
    rw [ih (l.drop n).length (by rw [length_drop]; omega) (l.drop n) rfl]
    rcases Nat.le_total n l.length with hle | hle
    · rw [← happend _ _ (by rw [length_take_of_le hle]), take_append_drop]
    · rw [take_of_length_le hle, drop_eq_nil_of_le hle, hnil, append_nil]

lemma flatten_chunksOf (hn : 0 < n) (l : List α) : (l.chunksOf n).flatten = l := by
  have h := flatMap_chunksOf hn (F := id) rfl (fun _ _ _ ↦ rfl) l
  rw [flatMap_id] at h
  exact h

/-- Lanes: what is computed from two lists chunk by chunk is compared chunk by chunk. -/
theorem all_chunksOf_zip {γ δ : Type} (hn : 0 < n) {k : ℕ} {a : List β} {b : List γ}
    {f : β → γ → δ} {p : α × δ → Bool} (ha : (a.length + n - 1) / n = k)
    (hb : (b.length + n - 1) / n = k)
    (hl : ((l.zip (zipWith f a b)).length + n - 1) / n = k) :
    (((a.chunksOf n).zip (b.chunksOf n)).zipIdx.all fun q ↦
      (((l.drop (q.2 * n)).take n).zip (zipWith f q.1.1 q.1.2)).all p) =
      (l.zip (zipWith f a b)).all p := by
  have hidx : ∀ g : ℕ → List β × List γ,
      ((range k).map g).zipIdx = (range k).map fun i ↦ (g i, i) := by
    intro g
    refine ext_getElem? fun i ↦ ?_
    by_cases hi : i < k
    · simp [hi]
    · simp [hi]
  rw [← flatten_chunksOf hn (l.zip (zipWith f a b)), all_flatten, chunksOf, chunksOf, chunksOf,
    ha, hb, hl, zip_map', hidx, all_map, all_map]
  simp only [zip, drop_zipWith, take_zipWith]
  rfl

end List
