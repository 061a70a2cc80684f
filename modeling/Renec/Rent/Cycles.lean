import Renec.Rent.Coverage

/-!
# Collection cycles

`Cycle` is what there is to know about a collection cycle, of one epoch (`singleEpoch`) or of
several (`multiEpoch`): its slots are numbered through, and a partition is made of the numbers of
two slots.
-/

namespace Renec.RentConfig

open List Option Prod

open Nat

open Renec.Partition

variable {cfg : RentConfig}

/-! ### Cycles -/

/-- The epoch is not the first of its cycle. -/
def inMiddleOfCycle (cfg : RentConfig) (epoch : ℕ) : Bool := (cfg.cycleParams epoch).any fun c ↦
    c.inMultiEpochCycle && (c.epoch - c.baseEpoch) % c.epochCountPerCycle != 0

/-- A collection cycle: the epochs from `first` on, `count` of them, whose slots are numbered
through from the slot `start`. -/
structure Cycle (cfg : RentConfig) where
  first : ℕ
  count : ℕ
  start : ℕ
  size : ℕ
  count_pos : 0 < count
  start_eq : start = cfg.epochSchedule.firstSlot first
  stop_eq : start + size = cfg.epochSchedule.firstSlot (first + count)
  size_le : size ≤ u64Max
  params : ∀ e, first ≤ e → e < first + count → ∃ c, cfg.cycleParams e = some c ∧
    c.partitionCount = size ∧ (1 < count → c.inMultiEpochCycle = true) ∧
    ∀ i < cfg.epochSchedule.getSlotsInEpoch e,
      c.partitionIndex i = some (cfg.epochSchedule.firstSlot e - start + i)
  middle : ∀ e, first ≤ e → e < first + count → cfg.inMiddleOfCycle e = decide (first < e)

variable {e : ℕ}

namespace Cycle

variable (C : cfg.Cycle)

/-- The epoch belongs to the cycle. -/
def Has (e : ℕ) : Prop := C.first ≤ e ∧ e < C.first + C.count

instance (e : ℕ) : Decidable (C.Has e) := inferInstanceAs (Decidable (_ ∧ _))

/-- The index of the first slot of an epoch. -/
def offset (e : ℕ) : ℕ := cfg.epochSchedule.firstSlot e - C.start

variable {C} (hs : cfg.epochSchedule.Layout) {i j : ℕ}
include hs

lemma add_offset (he : C.Has e) : C.start + C.offset e = cfg.epochSchedule.firstSlot e := by
  rw [offset, C.start_eq]
  exact Nat.add_sub_cancel' (hs.firstSlot_mono he.1)

lemma offset_add_slots_le (he : C.Has e) :
    C.offset e + cfg.epochSchedule.getSlotsInEpoch e ≤ C.size := by
  have hadd := C.add_offset hs he
  have hmono := hs.firstSlot_mono (show e + 1 ≤ C.first + C.count from he.2)
  rw [hs.firstSlot_succ, ← C.stop_eq] at hmono
  omega

lemma offset_succ (he : C.Has e) :
    C.offset (e + 1) = C.offset e + cfg.epochSchedule.getSlotsInEpoch e := by
  have hadd := C.add_offset hs he
  rw [offset, hs.firstSlot_succ]
  omega

omit hs in
lemma offset_last : C.offset (C.first + C.count) = C.size := by
  rw [offset, ← C.stop_eq, Nat.add_sub_cancel_left]

omit hs in
lemma offset_first : C.offset C.first = 0 := by
  rw [offset, C.start_eq, Nat.sub_self]

lemma offset_pos (hlt : C.first < e) : 32 ≤ C.offset e := by
  have hmono := hs.firstSlot_mono (show C.first + 1 ≤ e from hlt)
  rw [hs.firstSlot_succ, ← C.start_eq] at hmono
  have := hs.thirtytwo_le_slots C.first
  rw [offset]
  omega

omit hs in
lemma partitionFor_eq (he : C.Has e) (hi : i < cfg.epochSchedule.getSlotsInEpoch e)
    (hj : j < cfg.epochSchedule.getSlotsInEpoch e) (gapped : Bool)
    (hplain : C.first < e → i = 0 → j = 1) :
    cfg.partitionFor i j e gapped = some (e, ⟨C.offset e + i, C.offset e + j, C.size⟩) := by
  obtain ⟨c, hc, hcount, -, hindex⟩ := C.params e he.1 he.2
  rw [partitionFor, hc]
  simp only [some_bind, CycleParams.partition, hindex i hi, hindex j hj]
  have hspecial : (c.inMultiEpochCycle && (i == 0 && j != 1) &&
      decide (cfg.epochSchedule.firstSlot e - C.start + i > 0)) = false := by
    rcases eq_or_lt_of_le he.1 with rfl | hlt
    · have hzero := C.offset_first
      rw [offset] at hzero
      rw [hzero, Nat.zero_add]
      rcases Nat.eq_zero_or_pos i with rfl | hpos
      · simp
      rw [beq_eq_false_iff_ne.mpr hpos.ne']
      simp
    by_cases hzero : i = 0
    · rw [hplain hlt hzero]
      simp
    rw [beq_eq_false_iff_ne.mpr hzero]
    simp
  rw [hspecial, if_neg Bool.false_ne_true, hcount]
  rfl

lemma partitionFor_start (he : C.Has e) (hj : j < cfg.epochSchedule.getSlotsInEpoch e)
    (hone : C.first < e → j ≠ 1) (gapped : Bool) (hgap : gapped = true → j = 0) :
    cfg.partitionFor 0 j e gapped = some (e, if C.first < e then
      ⟨C.offset e - 1, if gapped then C.offset e - 1 else C.offset e + j, C.size⟩
      else ⟨0, j, C.size⟩) := by
  by_cases hlt : C.first < e
  swap
  · obtain rfl := le_antisymm he.1 (not_lt.mp hlt)
    rw [C.partitionFor_eq he (by omega) hj gapped fun h ↦ absurd h hlt, C.offset_first,
      Nat.zero_add, Nat.zero_add, if_neg hlt]
  obtain ⟨c, hc, hcount, hmulti, hindex⟩ := C.params e he.1 he.2
  have hpos := C.offset_pos hs hlt
  have hzero := hindex 0 (lt_of_lt_of_le (by decide) (hs.thirtytwo_le_slots e))
  rw [add_zero] at hzero
  have hoff : cfg.epochSchedule.firstSlot e - C.start = C.offset e := rfl
  have htwo : 1 < C.count := by
    have := he.2
    omega
  have hsub : checkedSub (C.offset e) 1 = some (C.offset e - 1) := if_pos (by omega)
  rw [partitionFor, hc]
  simp only [some_bind, CycleParams.partition, hzero, hindex j hj, hmulti htwo, hoff]
  rw [decide_eq_true (show C.offset e > 0 by omega), bne_iff_ne.mpr (hone hlt), hcount, if_pos hlt]
  cases gapped with
  | false => rfl
  | true =>
    obtain rfl := hgap rfl
    rw [add_zero, hsub]
    rfl

end Cycle

/-! ### One bank -/

/-- The slot is at this index of this epoch. -/
def At (cfg : RentConfig) (slot e i : ℕ) : Prop :=
  cfg.epochSchedule.getEpochAndSlotIndex slot = some (e, i) ∧
    slot = cfg.epochSchedule.firstSlot e + i ∧ i < cfg.epochSchedule.getSlotsInEpoch e

/-- What has to be avoided at the start of an epoch in the middle of a cycle: that its first block
is at the index 1, and that a block at the index 0 is not followed by one at the index 1. -/
def SteadyStep (cfg : RentConfig) (parentSlot slot : ℕ) : Prop :=
  ∀ e i e' i', cfg.At parentSlot e i → cfg.At slot e' i' →
    (e < e' → cfg.inMiddleOfCycle e' = true → i' ≠ 1) ∧
    (cfg.inMiddleOfCycle e = true → i = 0 → e' = e ∧ i' = 1)

variable {p q e' i i' : ℕ} {C : cfg.Cycle}

lemma cyclePartitions_of_eq (he : C.Has e) (hp : cfg.At p e i) (hq : cfg.At q e i')
    (hplain : C.first < e → i = 0 → i' = 1) :
    cfg.cyclePartitions q p = some [(e, ⟨C.offset e + i, C.offset e + i', C.size⟩)] := by
  rw [cyclePartitions, hp.1, hq.1]
  simp only [some_bind, lt_irrefl, if_false]
  rw [C.partitionFor_eq he hp.2.2 hq.2.2 false hplain]
  rfl

/-- What is left of the epoch of the parent. -/
def tailPartitions (C : cfg.Cycle) (e i : ℕ) (gapped : Bool) : List (ℕ × Partition) :=
  if gapped then [(e, ⟨C.offset e + i,
    C.offset e + cfg.epochSchedule.getSlotsInEpoch e - 1, C.size⟩)] else []

/-- What has passed of a new epoch. -/
def headPartitions (C : cfg.Cycle) (e i : ℕ) : List (ℕ × Partition) :=
  if C.first < e then
    (if i > 0 then [(e, ⟨C.offset e - 1, C.offset e - 1, C.size⟩)] else []) ++
      [(e, ⟨C.offset e - 1, C.offset e + i, C.size⟩)]
  else (e, ⟨0, 0, C.size⟩) :: if i > 0 then [(e, ⟨0, i, C.size⟩)] else []

/-- The first bank of an epoch. -/
theorem cyclePartitions_of_lt (hs : cfg.epochSchedule.Layout) {C' : cfg.Cycle} (he : C.Has e)
    (he' : C'.Has e') (hlt : e < e') (hp : cfg.At p e i) (hq : cfg.At q e' i')
    (hsteady : cfg.SteadyStep p q) :
    cfg.cyclePartitions q p = some (tailPartitions C e i (decide (q - p > 1)) ++
      headPartitions C' e' i') := by
  have hmono := hs.firstSlot_mono (show e + 1 ≤ e' from hlt)
  rw [hs.firstSlot_succ] at hmono
  have hslots := hs.thirtytwo_le_slots e
  have hslots' := hs.thirtytwo_le_slots e'
  obtain ⟨hpeq, hi⟩ := hp.2
  obtain ⟨hqeq, hi'⟩ := hq.2
  obtain ⟨hone, hzero⟩ := hsteady e i e' i' hp hq
  rw [C'.middle e' he'.1 he'.2, decide_eq_true_eq] at hone
  rw [C.middle e he.1 he.2, decide_eq_true_eq] at hzero
  have hsub : checkedSub q p = some (q - p) := if_pos (by omega)
  have hlast : checkedSub (cfg.epochSchedule.getSlotsInEpoch e) 1 =
      some (cfg.epochSchedule.getSlotsInEpoch e - 1) := if_pos (by omega)
  -- a block at the index 0 in the middle of a cycle has its child in the same epoch
  have htail : cfg.partitionFor i (cfg.epochSchedule.getSlotsInEpoch e - 1) e true =
      some (e, ⟨C.offset e + i, C.offset e + cfg.epochSchedule.getSlotsInEpoch e - 1, C.size⟩) := by
    rw [C.partitionFor_eq he hi (by omega) true fun hmid hzero' ↦ by
      have := (hzero hmid hzero').1
      omega]
    rw [Nat.add_sub_assoc (by omega)]
  have hnormal := C'.partitionFor_start hs he' hi' (hone hlt) false nofun
  have hgapped := C'.partitionFor_start hs he' (j := 0) (by omega) (fun _ ↦ Nat.zero_ne_one) true
    fun _ ↦ rfl
  simp only [reduceIte, Bool.false_eq_true] at hnormal hgapped
  rw [cyclePartitions, hq.1, hp.1]
  simp only [some_bind, if_pos hlt, hsub, transitionPartitions, gappedPartitions, hlast, htail,
    hgapped, hnormal, Option.pure_def]
  rcases Nat.eq_zero_or_pos i' with rfl | hpos
  · -- the first slot of the epoch has a block
    by_cases hgap : q - p > 1
    · simp only [hgap, if_true, gt_iff_lt, lt_irrefl, if_false, decide_true,
        tailPartitions, headPartitions, add_zero, nil_append]
      split_ifs <;> rfl
    simp only [hgap, gt_iff_lt, lt_irrefl, if_false, decide_false,
      tailPartitions, headPartitions, add_zero, nil_append, Bool.false_eq_true]
    split_ifs <;> rfl
  have hgap : q - p > 1 := by omega
  simp only [hgap, if_true, gt_iff_lt, hpos, decide_true, tailPartitions, headPartitions]
  split_ifs <;> rfl

/-! ### The partitions of a cycle -/

def Cycle.partitions (C : cfg.Cycle) (l : List (ℕ × Partition)) : List Partition :=
  (l.filter fun t ↦ C.Has t.1).map snd

namespace Cycle

lemma partitions_append (l l' : List (ℕ × Partition)) :
    C.partitions (l ++ l') = C.partitions l ++ C.partitions l' := by
  rw [partitions, partitions, partitions, filter_append, map_append]

variable {l : List (ℕ × Partition)}

lemma partitions_of_has (h : ∀ t ∈ l, t.1 = e) (he : C.Has e) : C.partitions l = l.map snd := by
  rw [partitions, filter_eq_self.mpr fun t ht ↦ by rw [h t ht]; exact decide_eq_true he]

lemma partitions_of_not_has (h : ∀ t ∈ l, t.1 = e) (he : ¬ C.Has e) : C.partitions l = [] := by
  rw [partitions, filter_eq_nil_iff.mpr fun t ht ↦ by rw [h t ht]; simpa using he]
  rfl

variable {D : cfg.Cycle}

lemma epoch_of_mem_tail {gapped : Bool} : ∀ t ∈ tailPartitions D e i gapped, t.1 = e := by
  intro t ht
  rw [tailPartitions] at ht
  split_ifs at ht
  · rw [mem_singleton.mp ht]
  · cases ht

lemma epoch_of_mem_head : ∀ t ∈ headPartitions D e i, t.1 = e := by
  intro t ht
  rw [headPartitions] at ht
  split_ifs at ht <;>
    simp only [mem_append, mem_cons, not_mem_nil, or_false, false_or] at ht <;>
    rcases ht with rfl | rfl <;> rfl

variable (hs : cfg.epochSchedule.Layout) (he : C.Has e)
  (hi : i < cfg.epochSchedule.getSlotsInEpoch e)
include hs he hi

lemma joined_tail (gapped : Bool)
    (hgap : gapped = false → i + 1 = cfg.epochSchedule.getSlotsInEpoch e) :
    Joined C.size (C.offset e + i) ((tailPartitions C e i gapped).map snd)
      (C.offset e + cfg.epochSchedule.getSlotsInEpoch e - 1) := by
  have hle := C.offset_add_slots_le hs he
  have hslots := hs.thirtytwo_le_slots e
  cases gapped with
  | false =>
    have hgap := hgap rfl
    show C.offset e + i = _
    omega
  | true => exact joined_single (by omega) (by omega) (by omega)

lemma joined_head_middle (hlt : C.first < e) :
    Joined C.size (C.offset e - 1) ((headPartitions C e i).map snd) (C.offset e + i) := by
  have hpos := C.offset_pos hs hlt
  have hle := C.offset_add_slots_le hs he
  have hlast : Joined C.size (C.offset e - 1) [⟨C.offset e - 1, C.offset e + i, C.size⟩]
      (C.offset e + i) := joined_single (by omega) (by omega) (by omega)
  rw [headPartitions, if_pos hlt]
  split_ifs
  · have hnoop : Joined C.size (C.offset e - 1) [⟨C.offset e - 1, C.offset e - 1, C.size⟩]
        (C.offset e - 1) := joined_single (le_refl _) (by omega) (by omega)
    exact hnoop.append hlast
  · exact hlast

lemma joined_head_first (hfirst : e = C.first) :
    ∃ l, (headPartitions C e i).map Prod.snd = ⟨0, 0, C.size⟩ :: l ∧
      Joined C.size 0 l (C.offset e + i) := by
  have hle := C.offset_add_slots_le hs he
  have hzero : C.offset e = 0 := hfirst ▸ C.offset_first
  rw [headPartitions, if_neg (by omega), hzero]
  rcases Nat.eq_zero_or_pos i with rfl | hpos
  · exact ⟨[], rfl, rfl⟩
  rw [if_pos hpos]
  rw [Nat.zero_add]
  exact ⟨_, rfl, joined_single (zero_le _) hpos (by omega)⟩

lemma proper_tail (gapped : Bool) : ∀ t ∈ tailPartitions C e i gapped, t.2.Proper := by
  intro t ht
  have htwo := (hs.thirtytwo_le_slots e).trans
    ((le_add_left _ _).trans (C.offset_add_slots_le hs he))
  cases gapped with
  | false => cases ht
  | true =>
    have hjoined := C.joined_tail hs he hi true fun h ↦ absurd h Bool.true_eq_false.mp
    exact (hjoined.proper (by omega) C.size_le _ (mem_map_of_mem ht)).1

lemma proper_head : ∀ t ∈ headPartitions C e i, t.2.Proper := by
  intro t ht
  have htwo : 2 ≤ C.size := by
    have := hs.thirtytwo_le_slots e
    have := C.offset_add_slots_le hs he
    omega
  have hmem : t.2 ∈ (headPartitions C e i).map snd := mem_map_of_mem ht
  rcases eq_or_lt_of_le he.1 with hfirst | hlt
  · obtain ⟨l, hl, hjoined⟩ := C.joined_head_first hs he hi hfirst.symm
    rw [hl] at hmem
    rcases mem_cons.mp hmem with heq | hmem
    · rw [heq]
      exact ⟨le_refl 0, lt_of_lt_of_le two_pos htwo, htwo, C.size_le⟩
    · exact (hjoined.proper htwo C.size_le _ hmem).1
  · exact ((C.joined_head_middle hs he hi hlt).proper htwo C.size_le _ hmem).1

end Cycle

/-! ### Cycles of one epoch -/

/-- Every epoch is in a cycle. -/
def Cycled (cfg : RentConfig) : Prop := ∀ e, ∃ C : cfg.Cycle, C.Has e

lemma slots_le_max (hs : cfg.epochSchedule.Layout)
    (hmax : cfg.epochSchedule.slotsPerEpoch ≤ u64Max) (e : ℕ) :
    cfg.epochSchedule.getSlotsInEpoch e ≤ u64Max := by
  rcases lt_or_ge e cfg.epochSchedule.firstNormalEpoch with hlt | hge
  · have hbound := hs.firstNormalEpoch_lt
    have hpow : 2 ^ (e + 5) < 2 ^ 64 := (Nat.pow_lt_pow_iff_right Nat.one_lt_two).mpr (by omega)
    rw [hs.getSlotsInEpoch_of_lt hlt, u64Max]
    omega
  rw [EpochSchedule.getSlotsInEpoch, if_neg (not_lt.mpr hge)]
  exact hmax

lemma partitionIndex_singleEpochParams {slots i : ℕ} (hi : i < u64Max) :
    (singleEpochParams e slots).partitionIndex i = some i := by
  have hsub : checkedSub e 0 = some e := if_pos (zero_le e)
  have hmul : checkedMul 64 (e % 1) slots = some 0 := by
    rw [checkedMul_eq_some, mod_one, zero_mul]
    exact ⟨by norm_num, rfl⟩
  have hadd : checkedAdd 64 i 0 = some i := by
    rw [checkedAdd_eq_some, add_zero]
    rw [u64Max] at hi
    exact ⟨by omega, rfl⟩
  rw [CycleParams.partitionIndex, singleEpochParams]
  simp only [hsub, some_bind, hmul, hadd, Nat.one_ne_zero, if_false]

/-- An epoch that is a cycle of its own. -/
def singleEpoch (hs : cfg.epochSchedule.Layout)
    (hmax : cfg.epochSchedule.slotsPerEpoch ≤ u64Max) (e : ℕ)
    (hmode : cfg.useMultiEpochCollectionCycle e = some false) : cfg.Cycle where
  first := e
  count := 1
  start := cfg.epochSchedule.firstSlot e
  size := cfg.epochSchedule.getSlotsInEpoch e
  count_pos := one_pos
  start_eq := rfl
  stop_eq := (hs.firstSlot_succ e).symm
  size_le := slots_le_max hs hmax e
  params e' hge hlt := by
    obtain rfl := le_antisymm (le_of_lt_succ hlt) hge
    refine ⟨singleEpochParams e' (cfg.epochSchedule.getSlotsInEpoch e'), ?_, rfl,
      fun h ↦ absurd h (lt_irrefl 1), fun i hi ↦ ?_⟩
    · rw [cycleParams, hmode]
      rfl
    rw [Nat.sub_self, Nat.zero_add]
    exact partitionIndex_singleEpochParams (lt_of_lt_of_le hi (slots_le_max hs hmax e'))
  middle e' hge hlt := by
    obtain rfl := le_antisymm (le_of_lt_succ hlt) hge
    rw [inMiddleOfCycle, cycleParams, hmode, decide_eq_false (lt_irrefl e')]
    rfl

/-! ### Cycles of several epochs -/

section

variable (hs : cfg.epochSchedule.Layout) {slotCount : ℕ}
  (hday : cfg.slotCountInTwoDay = some slotCount)
  (hmin : cfg.epochSchedule.slotsPerEpoch ≠ minimumSlotsPerEpoch)
  (hshort : cfg.epochSchedule.slotsPerEpoch < slotCount)

lemma slotCountPerNormalEpoch_eq :
    cfg.slotCountPerNormalEpoch = cfg.epochSchedule.slotsPerEpoch :=
  if_neg (lt_irrefl _)

include hday hmin in
lemma useMulti_eq (e : ℕ) : cfg.useMultiEpochCollectionCycle e =
    some (decide (cfg.epochSchedule.firstNormalEpoch ≤ e ∧
      cfg.epochSchedule.slotsPerEpoch < slotCount)) := by
  rw [useMultiEpochCollectionCycle, slotCountPerNormalEpoch_eq, if_neg hmin, hday]
  split_ifs with hge
  · simp only [map_some, show cfg.epochSchedule.firstNormalEpoch ≤ e from hge, true_and]
  · rw [decide_eq_false fun h ↦ hge h.1]

include hday in
lemma slotCount_le : slotCount ≤ 27648000 := by
  rw [slotCountInTwoDay, ite_none_left_eq_some] at hday
  rw [← some.inj hday.2]
  exact div_le_self _ _

include hday in
lemma slotCount_le_u64Max : slotCount ≤ u64Max := (slotCount_le hday).trans (by decide)

include hs hday hmin hshort in
lemma cycleParams_multi (hge : cfg.epochSchedule.firstNormalEpoch ≤ e) : cfg.cycleParams e = some
      ⟨e, cfg.epochSchedule.slotsPerEpoch, true, cfg.epochSchedule.firstNormalEpoch,
        slotCount / cfg.epochSchedule.slotsPerEpoch,
        cfg.epochSchedule.slotsPerEpoch * (slotCount / cfg.epochSchedule.slotsPerEpoch)⟩ := by
  have hslots : cfg.epochSchedule.getSlotsInEpoch e = cfg.epochSchedule.slotsPerEpoch :=
    if_neg (not_lt.mpr hge)
  have hpos : cfg.epochSchedule.slotsPerEpoch ≠ 0 := by
    have := hs.thirtytwo_le_slots e
    omega
  have hmul : checkedMul 64 cfg.epochSchedule.slotsPerEpoch
      (slotCount / cfg.epochSchedule.slotsPerEpoch) =
      some (cfg.epochSchedule.slotsPerEpoch * (slotCount / cfg.epochSchedule.slotsPerEpoch)) := by
    have hle := mul_div_le slotCount cfg.epochSchedule.slotsPerEpoch
    have hmax := slotCount_le hday
    rw [checkedMul_eq_some]
    exact ⟨by omega, rfl⟩
  rw [cycleParams, useMulti_eq hday hmin, decide_eq_true ⟨hge, hshort⟩, hslots, hday]
  simp only [some_bind, if_neg hpos, hmul, Option.pure_def]

lemma base_add_mod {base n count k : ℕ} (hk : k < count) :
    (base + n * count + k - base) % count = k := by
  rw [show base + n * count + k - base = k + n * count by omega, add_mul_mod_self_right,
    mod_eq_of_lt hk]

lemma partitionIndex_multi {base n count k slots i : ℕ} (hk : k < count) (hi : i < slots)
    (hmax : slots * count ≤ 27648000) :
    (⟨base + n * count + k, slots, true, base, count, slots * count⟩ : CycleParams).partitionIndex
      i = some (i + k * slots) := by
  have hcheck : checkedSub (base + n * count + k) base = some (base + n * count + k - base) :=
    if_pos (by omega)
  have hbound : slots * k + slots ≤ slots * count := by
    rw [← mul_succ]
    exact mul_le_mul_left slots hk
  have hmul : checkedMul 64 k slots = some (k * slots) := by
    rw [checkedMul_eq_some, mul_comm k slots]
    exact ⟨by omega, rfl⟩
  have hadd : checkedAdd 64 i (k * slots) = some (i + k * slots) := by
    rw [checkedAdd_eq_some, mul_comm k slots]
    exact ⟨by omega, rfl⟩
  rw [CycleParams.partitionIndex]
  simp only [hcheck, some_bind, base_add_mod hk, hmul, hadd, if_neg (show count ≠ 0 by omega)]

/-- Several epochs that are a cycle. -/
def multiEpoch (n : ℕ) : cfg.Cycle where
  first := cfg.epochSchedule.firstNormalEpoch + n * (slotCount / cfg.epochSchedule.slotsPerEpoch)
  count := slotCount / cfg.epochSchedule.slotsPerEpoch
  start := cfg.epochSchedule.firstSlot (cfg.epochSchedule.firstNormalEpoch +
    n * (slotCount / cfg.epochSchedule.slotsPerEpoch))
  size := cfg.epochSchedule.slotsPerEpoch * (slotCount / cfg.epochSchedule.slotsPerEpoch)
  count_pos := by
    have hslots := hs.thirtytwo_le_slots cfg.epochSchedule.firstNormalEpoch
    rw [EpochSchedule.getSlotsInEpoch, if_neg (lt_irrefl _)] at hslots
    exact div_pos hshort.le (lt_of_lt_of_le (succ_pos 31) hslots)
  start_eq := rfl
  stop_eq := by
    rw [hs.firstSlot_of_le (Nat.le_add_right _ _), Nat.add_sub_cancel_left,
      Nat.add_assoc cfg.epochSchedule.firstNormalEpoch, hs.firstSlot_of_le (Nat.le_add_right _ _),
      Nat.add_sub_cancel_left, Nat.add_mul, Nat.add_assoc, mul_comm cfg.epochSchedule.slotsPerEpoch]
  size_le := (mul_div_le _ _).trans (slotCount_le_u64Max hday)
  params e hge hlt := by
    have hnormal := (Nat.le_add_right _ _).trans hge
    refine ⟨_, cycleParams_multi hs hday hmin hshort hnormal, rfl, fun _ ↦ rfl, fun i hi ↦ ?_⟩
    rw [EpochSchedule.getSlotsInEpoch, if_neg (not_lt.mpr hnormal)] at hi
    rw [hs.firstSlot_of_le hnormal, hs.firstSlot_of_le (Nat.le_add_right _ _),
      Nat.add_sub_cancel_left]
    obtain ⟨k, rfl⟩ := Nat.exists_eq_add_of_le hge
    rw [partitionIndex_multi (Nat.lt_of_add_lt_add_left hlt) hi
      ((mul_div_le _ _).trans (slotCount_le hday)), Nat.add_assoc, Nat.add_sub_cancel_left,
      Nat.add_sub_add_left, Nat.add_mul, Nat.add_sub_cancel_left, Nat.add_comm]
  middle e hge hlt := by
    have hnormal := (Nat.le_add_right _ _).trans hge
    rw [inMiddleOfCycle, cycleParams_multi hs hday hmin hshort hnormal, any_some, Bool.true_and]
    obtain ⟨k, rfl⟩ := Nat.exists_eq_add_of_le hge
    rw [base_add_mod (Nat.lt_of_add_lt_add_left hlt)]
    rcases Nat.eq_zero_or_pos k with rfl | hpos
    · rw [add_zero, decide_eq_false (lt_irrefl _), bne_self_eq_false]
    · rw [bne_iff_ne.mpr hpos.ne', decide_eq_true (Nat.lt_add_of_pos_right hpos)]

include hs hday hmin hshort in
/-- With short epochs, the epochs of the warm-up are cycles of their own, and the others are in
cycles of several. -/
theorem cycled_multi : cfg.Cycled := by
  intro e
  have hslots : cfg.epochSchedule.slotsPerEpoch ≤ u64Max := by
    have := slotCount_le hday
    rw [u64Max]
    omega
  rcases lt_or_ge e cfg.epochSchedule.firstNormalEpoch with hlt | hge
  · have hmode : cfg.useMultiEpochCollectionCycle e = some false := by
      rw [useMulti_eq hday hmin, decide_eq_false fun h ↦ absurd h.1 (not_le.mpr hlt)]
    exact ⟨singleEpoch hs hslots e hmode, le_refl e, lt_succ_self e⟩
  have hpos := (multiEpoch hs hday hmin hshort 0).count_pos
  refine ⟨multiEpoch hs hday hmin hshort ((e - cfg.epochSchedule.firstNormalEpoch) /
    (slotCount / cfg.epochSchedule.slotsPerEpoch)), ?_⟩
  change 0 < slotCount / cfg.epochSchedule.slotsPerEpoch at hpos
  show _ + _ * (slotCount / cfg.epochSchedule.slotsPerEpoch) ≤ e ∧
    e < _ + _ * (slotCount / cfg.epochSchedule.slotsPerEpoch) +
      slotCount / cfg.epochSchedule.slotsPerEpoch
  generalize slotCount / cfg.epochSchedule.slotsPerEpoch = count at *
  have hle := div_mul_le_self (e - cfg.epochSchedule.firstNormalEpoch) count
  have hlt := lt_div_mul_add hpos (a := e - cfg.epochSchedule.firstNormalEpoch)
  omega

end

end Renec.RentConfig
