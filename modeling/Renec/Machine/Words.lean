import Mathlib

/-!
# The first bits of a word

Words are natural numbers below a power of two. Words agree in their bits from `k` on when their
quotients by `2 ^ k` are equal; setting the lower bits to ones (`||| (2 ^ k - 1)`) makes such words
equal (`lor_ones_inj`).
-/

open Nat

namespace Nat

variable {a b k m : ℕ}

lemma lor_ones (a k : ℕ) : a ||| (2 ^ k - 1) = 2 ^ k * (a / 2 ^ k) + (2 ^ k - 1) := by
  have hpos := Nat.two_pow_pos k
  refine eq_of_testBit_eq fun i ↦ ?_
  rw [testBit_or, testBit_two_pow_sub_one,
    testBit_two_pow_mul_add _ (sub_lt hpos Nat.one_pos), testBit_two_pow_sub_one,
    testBit_div_two_pow]
  by_cases hi : i < k
  · rw [if_pos hi, decide_eq_true hi, Bool.or_true]
  · rw [if_neg hi, decide_eq_false hi, Bool.or_false, Nat.sub_add_cancel (Nat.le_of_not_lt hi)]

lemma lor_ones_div (a k : ℕ) : (a ||| (2 ^ k - 1)) / 2 ^ k = a / 2 ^ k := by
  have hpos := Nat.two_pow_pos k
  rw [lor_ones, mul_add_div hpos, div_eq_of_lt (sub_lt hpos Nat.one_pos), Nat.add_zero]

lemma lor_ones_div_of_le (h : k ≤ m) (a : ℕ) : (a ||| (2 ^ k - 1)) / 2 ^ m = a / 2 ^ m := by
  obtain ⟨n, rfl⟩ := Nat.exists_eq_add_of_le h
  rw [Nat.pow_add, ← Nat.div_div_eq_div_mul, ← Nat.div_div_eq_div_mul, lor_ones_div]

/-- Words with the same upper bits are those that are equal with ones below. -/
theorem lor_ones_inj : a ||| (2 ^ k - 1) = b ||| (2 ^ k - 1) ↔ a / 2 ^ k = b / 2 ^ k := by
  constructor
  · intro h
    rw [← lor_ones_div a k, h, lor_ones_div]
  intro h
  rw [lor_ones, lor_ones, h]

lemma two_pow_sub_one_div (h : m ≤ k) : (2 ^ k - 1) / 2 ^ m = 2 ^ (k - m) - 1 := by
  have hpos := Nat.two_pow_pos m
  have hpos' := Nat.two_pow_pos (k - m)
  have hsplit : 2 ^ k - 1 = 2 ^ m * (2 ^ (k - m) - 1) + (2 ^ m - 1) := by
    have hpow : 2 ^ k = 2 ^ m * 2 ^ (k - m) := by rw [← Nat.pow_add, Nat.add_sub_cancel' h]
    rw [hpow, Nat.mul_sub, Nat.mul_one]
    have hle : 2 ^ m ≤ 2 ^ m * 2 ^ (k - m) := Nat.le_mul_of_pos_right _ hpos'
    omega
  rw [hsplit, mul_add_div hpos, div_eq_of_lt (sub_lt hpos Nat.one_pos), Nat.add_zero]

lemma lor_ones_div_of_ge (h : m ≤ k) (a : ℕ) :
    (a ||| (2 ^ k - 1)) / 2 ^ m = 2 ^ (k - m) * (a / 2 ^ k) + (2 ^ (k - m) - 1) := by
  have hpow : 2 ^ k = 2 ^ m * 2 ^ (k - m) := by rw [← Nat.pow_add, Nat.add_sub_cancel' h]
  rw [lor_ones]
  nth_rewrite 1 [hpow]
  rw [Nat.mul_assoc, mul_add_div (Nat.two_pow_pos m), two_pow_sub_one_div h]

end Nat
