import Renec.Rent.Partitions

/-!
# The keys of rent collection partitions

A partition `a..=b` with `a < b` is the blocks of keys after `a` up to `b`, and `0..=0` is the block
0 (`Proper.pubkeyRange`).
-/

namespace Renec.Partition

open List

open Nat

/-! ### The keys of a partition -/

/-- The first eight bytes of a key. -/
def keyPrefix (key : Pubkey) : ℕ := key.bits.toNat / 2 ^ 192

/-- The partition a key belongs to, of `count` partitions of one width; the last one is wider. -/
def blockOf (count : ℕ) (key : Pubkey) : ℕ := min (keyPrefix key / (2 ^ 64 / count)) (count - 1)

lemma keyPrefix_lt (key : Pubkey) : keyPrefix key < 2 ^ 64 := by
  refine Nat.div_lt_of_lt_mul (lt_of_lt_of_eq key.bits.isLt ?_)
  rw [← Nat.pow_add]

lemma toNat_keyWithPrefix {x : ℕ} (h : x < 2 ^ 64) (ones : Bool) :
    (keyWithPrefix x ones).bits.toNat = x * 2 ^ 192 + if ones then 2 ^ 192 - 1 else 0 := by
  rw [keyWithPrefix, BitVec.toNat_ofNat]
  refine mod_eq_of_lt ?_
  cases ones with
  | false =>
    rw [if_neg Bool.false_ne_true]
    omega
  | true =>
    rw [if_pos rfl]
    omega

lemma contains_keyWithPrefix {first last : ℕ} (hfirst : first < 2 ^ 64) (hlast : last < 2 ^ 64)
    (key : Pubkey) :
    KeyRange.contains ⟨keyWithPrefix first false, keyWithPrefix last true⟩ key = true ↔
      first ≤ keyPrefix key ∧ keyPrefix key ≤ last := by
  rw [KeyRange.contains, decide_eq_true_eq, toNat_keyWithPrefix hfirst, toNat_keyWithPrefix hlast,
    if_neg Bool.false_ne_true, if_pos rfl, keyPrefix, add_zero]
  omega

variable {count : ℕ}

lemma partitionWidth_eq (htwo : 2 ≤ count) (hmax : count ≤ u64Max) :
    partitionWidth count = some (2 ^ 64 / count) := by
  have hlt : count < 2 ^ 64 := by
    rw [u64Max] at hmax
    omega
  have hdiv : 2 ^ 64 / count = (2 ^ 64 - count) / count + 1 := div_eq_sub_div (by omega) hlt.le
  have hhalf : 2 ^ 64 / count ≤ 2 ^ 64 / 2 := div_le_div_left htwo two_pos
  have hrest : u64Max - count + 1 = 2 ^ 64 - count := by
    rw [u64Max]
    omega
  have hsub : checkedSub u64Max count = some (u64Max - count) := if_pos hmax
  have hadd : checkedAdd 64 (u64Max - count) 1 = some (2 ^ 64 - count) := by
    rw [checkedAdd_eq_some, hrest]
    exact ⟨by omega, rfl⟩
  have hwidth : checkedAdd 64 ((2 ^ 64 - count) / count) 1 = some (2 ^ 64 / count) := by
    rw [checkedAdd_eq_some, ← hdiv]
    exact ⟨by omega, rfl⟩
  rw [partitionWidth, hsub]
  simp only [some_bind, hadd, hwidth]

/-- The indexes of a partition are in order, and none of its numbers overflows. -/
structure Proper (p : Partition) : Prop where
  le : p.startIndex ≤ p.endIndex
  lt : p.endIndex < p.partitionCount
  two_le : 2 ≤ p.partitionCount
  le_max : p.partitionCount ≤ u64Max

/-- The blocks of a partition. -/
def covers (p : Partition) (x : ℕ) : Bool :=
  decide (p.startIndex = 0 ∧ p.endIndex = 0 ∧ x = 0 ∨ p.startIndex < x ∧ x ≤ p.endIndex)

variable {p : Partition}

lemma Proper.mul_lt (h : p.Proper) {n : ℕ} (hn : n < p.partitionCount) :
    n * (2 ^ 64 / p.partitionCount) < 2 ^ 64 := by
  have hpos : 0 < 2 ^ 64 / p.partitionCount :=
    div_pos (h.le_max.trans (sub_le _ _)) (by have := h.two_le; omega)
  calc n * (2 ^ 64 / p.partitionCount)
      < p.partitionCount * (2 ^ 64 / p.partitionCount) := mul_lt_mul_of_pos_right hn hpos
    _ ≤ 2 ^ 64 := mul_div_le _ _

lemma Proper.startKeyPrefix (h : p.Proper) :
    ∃ first < 2 ^ 64, p.startKeyPrefix (2 ^ 64 / p.partitionCount) = some first ∧
      (p.startIndex = 0 ∧ p.endIndex = 0 → first = 0) ∧
      (p.startIndex < p.endIndex →
        first = (p.startIndex + 1) * (2 ^ 64 / p.partitionCount)) := by
  have hle := h.le
  have hlt := h.lt
  have hmax := h.le_max
  rw [Partition.startKeyPrefix]
  split_ifs with hzero
  · exact ⟨0, by norm_num, rfl, fun _ ↦ rfl, fun hne ↦ by omega⟩
  have hadd : checkedAdd 64 p.startIndex 1 = some (p.startIndex + 1) := by
    rw [checkedAdd_eq_some]
    rw [u64Max] at hmax
    omega
  simp only [hadd, some_bind]
  split_ifs with hlast
  · refine ⟨u64Max, by decide, rfl, fun hz ↦ absurd hz hzero, fun hne ↦ by omega⟩
  have hmul := h.mul_lt (n := p.startIndex + 1) (by omega)
  exact ⟨_, hmul, checkedMul_eq_some.mpr ⟨hmul, rfl⟩, fun hz ↦ absurd hz hzero, fun _ ↦ rfl⟩

lemma Proper.endKeyPrefix (h : p.Proper) :
    ∃ last < 2 ^ 64, p.endKeyPrefix (2 ^ 64 / p.partitionCount) = some last ∧
      (p.endIndex + 1 = p.partitionCount → last = u64Max) ∧
      (p.endIndex + 1 < p.partitionCount →
        last + 1 = (p.endIndex + 1) * (2 ^ 64 / p.partitionCount)) := by
  have hlt := h.lt
  have hmax := h.le_max
  have hadd : checkedAdd 64 p.endIndex 1 = some (p.endIndex + 1) := by
    rw [checkedAdd_eq_some]
    rw [u64Max] at hmax
    omega
  rw [Partition.endKeyPrefix]
  simp only [hadd, some_bind]
  split_ifs with hlast
  · exact ⟨u64Max, by decide, rfl, fun _ ↦ rfl, fun hne ↦ by omega⟩
  have hmul := h.mul_lt (n := p.endIndex + 1) (by omega)
  have hpos : 0 < 2 ^ 64 / p.partitionCount := div_pos (hmax.trans (sub_le _ _)) (by omega)
  have hone : 1 ≤ (p.endIndex + 1) * (2 ^ 64 / p.partitionCount) := mul_pos (succ_pos _) hpos
  rw [checkedMul_eq_some.mpr ⟨hmul, rfl⟩, some_bind]
  refine ⟨_, lt_of_le_of_lt (sub_le _ 1) hmul, if_pos hone, fun heq ↦ absurd heq hlast,
    fun _ ↦ Nat.sub_add_cancel hone⟩

/-- A partition has a range, whose keys are those of its blocks; the range of a no-op is one key. -/
theorem Proper.pubkeyRange (h : p.Proper) :
    ∃ range, p.pubkeyRange = some range ∧ (p.isNoop = true → range.start = range.stop) ∧
      (p.isNoop = false → ∀ key, range.contains key = p.covers (blockOf p.partitionCount key)) := by
  have hle := h.le
  have hlt := h.lt
  have htwo := h.two_le
  obtain ⟨first, hfirst, hstart, hzero, hfirstEq⟩ := h.startKeyPrefix
  obtain ⟨last, hlast, hend, hlastMax, hlastEq⟩ := h.endKeyPrefix
  rw [Partition.pubkeyRange, if_pos ⟨hle, by omega, hlt, by omega⟩, if_neg (by omega),
    partitionWidth_eq htwo h.le_max]
  simp only [some_bind, hstart, hend]
  cases hnoop : p.isNoop with
  | true =>
    rw [if_pos rfl]
    split_ifs
    · exact ⟨_, rfl, fun _ ↦ rfl, nofun⟩
    · exact ⟨_, rfl, fun _ ↦ rfl, nofun⟩
  | false =>
    rw [if_neg Bool.false_ne_true]
    refine ⟨_, rfl, nofun, fun _ key ↦ ?_⟩
    have hnoop' : ¬ (p.startIndex ≠ 0 ∧ p.startIndex = p.endIndex) := of_decide_eq_false hnoop
    have hwidth : 0 < 2 ^ 64 / p.partitionCount := div_pos (h.le_max.trans (sub_le _ _)) (by omega)
    rw [Bool.eq_iff_iff, contains_keyWithPrefix hfirst hlast, covers, decide_eq_true_eq, blockOf]
    have hkey := keyPrefix_lt key
    -- the upper end: the last block goes up to the largest key
    have hupper : keyPrefix key ≤ last ↔
        min (keyPrefix key / (2 ^ 64 / p.partitionCount)) (p.partitionCount - 1) ≤ p.endIndex := by
      rcases lt_or_ge (p.endIndex + 1) p.partitionCount with hbelow | hge
      · have hlastEq := hlastEq hbelow
        have hdiv : keyPrefix key / (2 ^ 64 / p.partitionCount) < p.endIndex + 1 ↔
            keyPrefix key < (p.endIndex + 1) * (2 ^ 64 / p.partitionCount) :=
          div_lt_iff_lt_mul hwidth
        generalize keyPrefix key / (2 ^ 64 / p.partitionCount) = t at hdiv ⊢
        omega
      have hlastMax := hlastMax (by omega)
      rw [u64Max] at hlastMax
      omega
    rw [hupper]
    rcases eq_or_lt_of_le hle with heq | hneq
    · obtain ⟨hs, he⟩ : p.startIndex = 0 ∧ p.endIndex = 0 := by
        by_contra hne
        exact hnoop' ⟨by omega, heq⟩
      rw [hzero ⟨hs, he⟩]
      generalize keyPrefix key / (2 ^ 64 / p.partitionCount) = t
      omega
    have hlower : first ≤ keyPrefix key ↔
        p.startIndex < keyPrefix key / (2 ^ 64 / p.partitionCount) := by
      rw [hfirstEq hneq, ← le_div_iff_mul_le hwidth, succ_le_iff]
    rw [hlower]
    generalize keyPrefix key / (2 ^ 64 / p.partitionCount) = t
    omega

/-! ### Partitions that are joined -/

/-- Each partition starts where the one before ends. -/
def Joined (count : ℕ) : ℕ → List Partition → ℕ → Prop
  | a, [], b => a = b
  | a, p :: l, b => p.startIndex = a ∧ a ≤ p.endIndex ∧ 0 < p.endIndex ∧ p.endIndex < count ∧
      p.partitionCount = count ∧ Joined count p.endIndex l b

variable {a b m : ℕ} {l l' : List Partition}

lemma Joined.le (h : Joined count a l b) : a ≤ b := by
  induction l generalizing a with
  | nil => exact le_of_eq h
  | cons p l ih => exact h.2.1.trans (ih h.2.2.2.2.2)

lemma joined_single (hle : a ≤ b) (hpos : 0 < b) (hlt : b < count) :
    Joined count a [⟨a, b, count⟩] b :=
  ⟨rfl, hle, hpos, hlt, rfl, rfl⟩

lemma Joined.append (h : Joined count a l m) (h' : Joined count m l' b) :
    Joined count a (l ++ l') b := by
  induction l generalizing a with
  | nil =>
    obtain rfl : a = m := h
    exact h'
  | cons p l ih => exact ⟨h.1, h.2.1, h.2.2.1, h.2.2.2.1, h.2.2.2.2.1, ih h.2.2.2.2.2⟩

lemma Joined.proper (h : Joined count a l b) (htwo : 2 ≤ count) (hmax : count ≤ u64Max) :
    ∀ p ∈ l, p.Proper ∧ p.partitionCount = count := by
  induction l generalizing a with
  | nil => exact forall_mem_nil _
  | cons p l ih =>
    obtain ⟨hstart, hle, -, hlt, rfl, hrest⟩ := h
    exact forall_mem_cons.mpr ⟨⟨⟨hstart ▸ hle, hlt, htwo, hmax⟩, rfl⟩, ih hrest⟩

/-- Joined partitions have each block between their ends once. -/
theorem Joined.countP_covers (h : Joined count a l b) (x : ℕ) :
    l.countP (fun p ↦ p.covers x) = if a < x ∧ x ≤ b then 1 else 0 := by
  induction l generalizing a with
  | nil =>
    obtain rfl : a = b := h
    rw [countP_nil, if_neg (by omega)]
  | cons p l ih =>
    obtain ⟨hstart, hle, hpos, -, -, hrest⟩ := h
    have hb := hrest.le
    have hcovers : p.covers x = decide (a < x ∧ x ≤ p.endIndex) := by
      rw [covers, Bool.eq_iff_iff, decide_eq_true_eq, decide_eq_true_eq, hstart]
      omega
    rw [countP_cons, ih hrest, hcovers]
    simp only [decide_eq_true_eq]
    split_ifs <;> omega

/-- Every key is once in the ranges of joined partitions, apart from the no-ops. -/
theorem countP_contains {size : ℕ} {l : List Partition} (htwo : 2 ≤ size) (hmax : size ≤ u64Max)
    (h : Joined size 0 l (size - 1)) (key : Pubkey) :
    ((⟨0, 0, size⟩ : Partition) :: l).countP (fun p ↦ !p.isNoop && p.contains key) = 1 := by
  have hproper : ∀ p ∈ (⟨0, 0, size⟩ : Partition) :: l, p.Proper ∧ p.partitionCount = size :=
    forall_mem_cons.mpr ⟨⟨⟨le_refl 0, by show 0 < size; omega, htwo, hmax⟩, rfl⟩,
      h.proper htwo hmax⟩
  have hcovers : ∀ p ∈ (⟨0, 0, size⟩ : Partition) :: l,
      (!p.isNoop && p.contains key) = p.covers (blockOf size key) := by
    intro p hp
    obtain ⟨hp, hcount⟩ := hproper p hp
    obtain ⟨range, hrange, -, hkeys⟩ := hp.pubkeyRange
    cases hnoop : p.isNoop with
    | true =>
      have hnoop : p.startIndex ≠ 0 ∧ p.startIndex = p.endIndex := of_decide_eq_true hnoop
      rw [covers, eq_comm, Bool.not_true, Bool.false_and, decide_eq_false_iff_not]
      omega
    | false =>
      rw [Bool.not_false, Bool.true_and, Partition.contains, hrange, Option.any_some, ← hcount]
      exact hkeys hnoop key
  have hblock : blockOf size key ≤ size - 1 := min_le_right _ _
  rw [countP_congr fun p hp ↦ by rw [hcovers p hp], countP_cons, h.countP_covers, covers]
  generalize blockOf size key = x at hblock ⊢
  simp only [decide_eq_true_eq, true_and]
  rcases Nat.eq_zero_or_pos x with rfl | hpos
  · rw [if_neg (fun h ↦ lt_irrefl 0 h.1), if_pos (.inl rfl)]
  · rw [if_pos ⟨hpos, hblock⟩, if_neg (by omega)]

end Renec.Partition
