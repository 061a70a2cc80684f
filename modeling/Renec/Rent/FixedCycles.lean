import Renec.Rent.Coverage

/-!
# Rent collection with cycles of a fixed length

Within a cycle the partitions of `get_partitions` are joined (`Reached`). The block that leaves a
cycle adds the rest of it, unless it is the first slot of its own cycle: then the rest is left out,
so a cycle is complete only if that block lands behind the first index or its parent was at the last
one.
-/

namespace Renec.RentConfig

open List Nat

open Renec.Partition

/-- `fixed_cycle_partitions`, with the cycle each partition is made for. -/
def fixedCyclePartitions (count slot parentSlot : ℕ) : Option (List (ℕ × Partition)) := do
  match ← getPartitions slot parentSlot count with
  | [gapped, first, last] =>
    return [(parentSlot / count, gapped), (slot / count, first), (slot / count, last)]
  | l => return l.map fun p ↦ (slot / count, p)

/-- The partitions of the banks of a chain, behind a parent. The bank of the slot 0 is its own
parent. -/
def fixedPartitionsAfter (count : ℕ) : ℕ → List ℕ → Option (List (ℕ × Partition))
  | _, [] => some []
  | parentSlot, slot :: chain => do
    let first ← fixedCyclePartitions count slot parentSlot
    let others ← fixedPartitionsAfter count slot chain
    return first ++ others

def ofCycle (cycle : ℕ) (l : List (ℕ × Partition)) : List Partition :=
  (l.filter fun t ↦ t.1 = cycle).map Prod.snd

variable {count cycle p q : ℕ} {l m : List (ℕ × Partition)} {chain : List ℕ}

@[simp] lemma ofCycle_append : ofCycle cycle (l ++ m) = ofCycle cycle l ++ ofCycle cycle m := by
  rw [ofCycle, filter_append, map_append, ofCycle, ofCycle]

@[simp] lemma ofCycle_label (c : ℕ) (l : List Partition) :
    ofCycle cycle (l.map fun p ↦ (c, p)) = if c = cycle then l else [] := by
  rw [ofCycle, filter_map, map_map]
  split_ifs with heq <;> simp [Function.comp_def, heq]

/-! ### One block -/

/-- What a block adds to its own cycle. -/
def opened (count p q : ℕ) : List Partition :=
  if p / count < q / count then
    ⟨0, 0, count⟩ :: if 0 < q % count then [⟨0, q % count, count⟩] else []
  else [⟨p % count, q % count, count⟩]

/-- What a block adds to the cycle of its parent, when it leaves that. -/
def closed (count p q : ℕ) : List Partition :=
  if p / count < q / count ∧ 0 < q % count then [⟨p % count, count - 1, count⟩] else []

lemma fixedCyclePartitions_eq (hpos : 0 < count) :
    fixedCyclePartitions count q p = some ((closed count p q).map (fun t ↦ (p / count, t)) ++
      (opened count p q).map fun t ↦ (q / count, t)) := by
  rw [fixedCyclePartitions, getPartitions, if_neg hpos.ne', closed, opened]
  by_cases hcross : p / count < q / count <;>
    rcases Nat.eq_zero_or_pos (q % count) with hindex | hindex <;> simp [hcross, hindex]

/-- Once a chain has left a cycle, it adds nothing to it. -/
theorem ofCycle_after (hpos : 0 < count) (hp : cycle < p / count)
    (hchain : (p :: chain).Pairwise (· < ·)) :
    ∃ l, fixedPartitionsAfter count p chain = some l ∧ ofCycle cycle l = [] := by
  induction chain generalizing p with
  | nil => exact ⟨[], rfl, rfl⟩
  | cons q chain ih =>
    obtain ⟨hlt, hchain⟩ := pairwise_cons.mp hchain
    have hle : p / count ≤ q / count := Nat.div_le_div_right (hlt q mem_cons_self).le
    obtain ⟨l, hl, hnil⟩ := ih (hp.trans_le hle) hchain
    refine ⟨_, by rw [fixedPartitionsAfter, fixedCyclePartitions_eq hpos, hl]; rfl, ?_⟩
    simp [hnil, hp.ne', (hp.trans_le hle).ne']

/-! ### The blocks of a cycle -/

/-- The partitions of a chain that has come to `slot`, seen from a cycle. -/
structure Reached (count cycle slot : ℕ) (l : List (ℕ × Partition)) : Prop where
  before : slot / count < cycle → ofCycle cycle l = []
  inside : slot / count = cycle → ∃ joined, ofCycle cycle l = ⟨0, 0, count⟩ :: joined ∧
    Joined count 0 joined (slot % count)

/-- A block takes its cycle on from where its parent left it. -/
theorem Reached.step (hpos : 0 < count) (hlt : p < q) (h : Reached count cycle p l) :
    ∃ m, fixedCyclePartitions count q p = some m ∧ Reached count cycle q (l ++ m) := by
  have hle : p / count ≤ q / count := Nat.div_le_div_right hlt.le
  refine ⟨_, fixedCyclePartitions_eq hpos, fun hbefore ↦ ?_, fun hinside ↦ ?_⟩
  · simp [h.before (hle.trans_lt hbefore), (hle.trans_lt hbefore).ne, hbefore.ne]
  subst hinside
  rw [ofCycle_append, ofCycle_append, ofCycle_label, ofCycle_label, if_pos rfl, opened, closed]
  have hmod : q % count < count := mod_lt q hpos
  by_cases hcross : p / count < q / count
  · rw [h.before hcross, if_neg hcross.ne, if_pos hcross]
    refine ⟨_, rfl, ?_⟩
    split_ifs with hindex
    · exact joined_single (zero_le _) hindex hmod
    · exact (Nat.eq_zero_of_not_pos hindex).symm
  have heq : p / count = q / count := hle.antisymm (not_lt.mp hcross)
  obtain ⟨joined, hl, hjoined⟩ := h.inside heq
  have hindex : p % count < q % count := by
    have hp := div_add_mod p count
    have hq := div_add_mod q count
    rw [heq] at hp
    omega
  rw [hl, if_pos heq, if_neg hcross, if_neg fun h ↦ hcross h.1]
  exact ⟨_, rfl, hjoined.append (joined_single hindex.le (zero_lt_of_lt hindex) hmod)⟩

/-- The partitions of a cycle the chain leaves: those of its blocks up to the last one, and what the
first block after it adds. -/
theorem Reached.run (hpos : 0 < count) {l₁ l₂ : List ℕ} {parent : ℕ}
    (hchain : (parent :: chain).Pairwise (· < ·)) (hsplit : parent :: chain = l₁ ++ p :: q :: l₂)
    (hq : p / count < q / count) (h : Reached count (p / count) parent l) :
    ∃ m joined, fixedPartitionsAfter count parent chain = some m ∧
      ofCycle (p / count) (l ++ m) = ⟨0, 0, count⟩ :: joined ++ closed count p q ∧
      Joined count 0 joined (p % count) := by
  induction l₁ generalizing parent chain l with
  | nil =>
    obtain ⟨rfl, rfl⟩ := cons.inj hsplit
    obtain ⟨m, hm, hnil⟩ := ofCycle_after hpos hq (pairwise_cons.mp hchain).2
    obtain ⟨joined, hl, hjoined⟩ := h.inside rfl
    refine ⟨_, joined, by rw [fixedPartitionsAfter, fixedCyclePartitions_eq hpos, hm]; rfl, ?_,
      hjoined⟩
    simp [hnil, hl, hq.ne']
  | cons s l₁ ih =>
    rw [cons_append] at hsplit
    obtain ⟨rfl, rfl⟩ := cons.inj hsplit
    obtain ⟨next, rest, hrest⟩ : ∃ next rest, l₁ ++ p :: q :: l₂ = next :: rest :=
      exists_cons_of_ne_nil (by simp)
    rw [hrest] at hchain ⊢
    obtain ⟨hlt, hchain⟩ := pairwise_cons.mp hchain
    obtain ⟨m, hm, hreached⟩ := h.step hpos (hlt next mem_cons_self)
    obtain ⟨m', joined, hm', hcycle, hjoined⟩ := ih hchain hrest.symm hreached
    refine ⟨m ++ m', joined, by rw [fixedPartitionsAfter, hm, hm']; rfl, ?_, hjoined⟩
    rwa [← append_assoc]

lemma contains_whole (key : Pubkey) : (⟨0, 0, 1⟩ : Partition).contains key = true := by
  have hrange : (⟨0, 0, 1⟩ : Partition).pubkeyRange =
      some ⟨keyWithPrefix 0 false, keyWithPrefix u64Max true⟩ := rfl
  rw [Partition.contains, hrange, Option.any_some,
    contains_keyWithPrefix (by decide) (by decide) key]
  have := keyPrefix_lt key
  simp [u64Max]
  omega

/-- **A cycle of a fixed length visits every key once**, if the first block after it does not land
on the first index of a cycle, or follows the last slot of the one it leaves. -/
theorem fixed_cycle_collected {l₁ l₂ : List ℕ} (hpos : 0 < count) (hmax : count ≤ u64Max)
    (hchain : (0 :: chain).Pairwise (· < ·)) (hsplit : 0 :: chain = l₁ ++ p :: q :: l₂)
    (hq : p / count < q / count) (hland : 0 < q % count ∨ p % count = count - 1) :
    ∃ l, fixedPartitionsAfter count 0 (0 :: chain) = some l ∧
      (∀ x < count, (ofCycle (p / count) l).countP (·.covers x) = 1) ∧
      ∀ key, (ofCycle (p / count) l).countP (fun t ↦ !t.isNoop && t.contains key) = 1 := by
  have hfirst : fixedCyclePartitions count 0 0 = some [(0, ⟨0, 0, count⟩)] := by
    rw [fixedCyclePartitions_eq hpos]
    simp [closed, opened]
  have hreached : Reached count (p / count) 0 [(0, ⟨0, 0, count⟩)] :=
    ⟨fun hlt ↦ by simp [ofCycle, (Nat.zero_div count ▸ hlt).ne],
      fun heq ↦ ⟨[], by rw [← heq]; simp [ofCycle], by simp [Partition.Joined]⟩⟩
  obtain ⟨m, joined, hm, hcycle, hjoined⟩ := hreached.run hpos hchain hsplit hq
  have hlast : p % count < count := mod_lt p hpos
  refine ⟨[(0, ⟨0, 0, count⟩)] ++ m, by rw [fixedPartitionsAfter, hfirst, hm]; rfl, ?_⟩
  rw [hcycle, cons_append]
  rcases Nat.lt_or_ge 1 count with htwo | hone
  · have hall : Joined count 0 (joined ++ closed count p q) (count - 1) := by
      refine hjoined.append ?_
      rw [closed]
      split_ifs with hindex
      · exact joined_single (by omega) (by omega) (by omega)
      · exact hland.resolve_left fun h ↦ hindex ⟨hq, h⟩
    refine ⟨fun x hx ↦ ?_, countP_contains htwo hmax hall⟩
    rw [countP_cons, hall.countP_covers, Partition.covers]
    simp only [decide_eq_true_eq, true_and]
    split_ifs <;> omega
  -- a cycle of one slot has one partition with all keys
  obtain rfl : count = 1 := by omega
  have hnil : joined = [] := by
    cases joined with
    | nil => rfl
    | cons t l => exact absurd hjoined.2.2.1 (by have := hjoined.2.2.2.1; omega)
  subst hnil
  simp [closed, mod_one, contains_whole, Partition.covers, Partition.isNoop]

/-- The block of the slot 10 leaves a cycle of ten slots whose last block is at 8, and the last keys
are in none of its partitions. -/
theorem landing_on_first_index : (fixedPartitionsAfter 10 0 [0, 8, 10]).map (ofCycle 0) =
        some [⟨0, 0, 10⟩, ⟨0, 8, 10⟩] ∧
      [(⟨0, 0, 10⟩ : Partition), ⟨0, 8, 10⟩].countP
        (·.contains (keyWithPrefix u64Max true)) = 0 := by
  decide +kernel

theorem fixed_cycle_collected_ten : ∃ l, fixedPartitionsAfter 10 0 [0, 8, 13] = some l ∧
      (∀ x < 10, (ofCycle 0 l).countP (·.covers x) = 1) ∧
      ∀ key, (ofCycle 0 l).countP (fun t ↦ !t.isNoop && t.contains key) = 1 :=
  @fixed_cycle_collected 10 8 13 [8, 13] [0] [] (by decide) (by decide) (by decide) rfl (by decide)
    (.inl (by decide))

end Renec.RentConfig
