import Renec.Rent.Cycles

/-!
# Rent collection visits every account once a cycle

The banks of a chain make partitions that are joined.
-/

namespace Renec.RentConfig

open List Nat EpochSchedule Option Prod

open Renec.Partition

variable {cfg : RentConfig} {p q e e' i i' : ℕ}

/-! ### Chains -/

/-- The banks of a chain behind a parent: the slots increase, and no step has one of the two
patterns. -/
def SteadyAfter (cfg : RentConfig) : ℕ → List ℕ → Prop
  | _, [] => True
  | parentSlot, slot :: chain =>
    parentSlot < slot ∧ slot ≤ u64Max ∧ cfg.SteadyStep parentSlot slot ∧ cfg.SteadyAfter slot chain

lemma exists_at (hs : cfg.epochSchedule.Layout) (hp : p ≤ u64Max) : ∃ e i, cfg.At p e i :=
  hs.getEpochAndSlotIndex_spec hp

lemma exists_at_of_getEpoch (hs : cfg.epochSchedule.Layout) (hp : p ≤ u64Max)
    (he : cfg.epochSchedule.getEpoch p = some e) : ∃ i, cfg.At p e i := by
  obtain ⟨e', i, hat⟩ := exists_at hs hp
  rw [getEpoch, hat.1] at he
  obtain rfl : e' = e := some.inj he
  exact ⟨i, hat⟩

lemma At.epoch_le (hs : cfg.epochSchedule.Layout) (hp : cfg.At p e i) (hq : cfg.At q e' i')
    (hle : p ≤ q) : e ≤ e' := by
  refine hs.le_of_firstSlot_lt ?_
  rw [hs.firstSlot_succ]
  have := hp.2.1
  have := hq.2
  omega

lemma At.unique (hp : cfg.At p e i) (hp' : cfg.At p e' i') : e = e' ∧ i = i' := by
  have heq := hp.1.symm.trans hp'.1
  exact Prod.mk.inj (some.inj heq)

lemma SteadyStep.of_at (hp : cfg.At p e i) (hq : cfg.At q e' i')
    (hone : e < e' → cfg.inMiddleOfCycle e' = true → i' ≠ 1)
    (hzero : cfg.inMiddleOfCycle e = true → i = 0 → e' = e ∧ i' = 1) : cfg.SteadyStep p q := by
  intro _ _ _ _ hp' hq'
  obtain ⟨rfl, rfl⟩ := hp.unique hp'
  obtain ⟨rfl, rfl⟩ := hq.unique hq'
  exact ⟨hone, hzero⟩

lemma Cycle.has_first (C : cfg.Cycle) : C.Has C.first :=
  ⟨le_refl _, Nat.lt_add_of_pos_right C.count_pos⟩

lemma Cycle.two_le_size (hs : cfg.epochSchedule.Layout) (C : cfg.Cycle) : 2 ≤ C.size := by
  have := C.offset_add_slots_le hs C.has_first
  have := hs.thirtytwo_le_slots C.first
  omega

/-- **One step of a chain**, seen from a cycle: what it adds leads from the parent to the child, up
to the end of the cycle if the child is behind it; it begins the cycle if the parent is before. -/
structure StepSpec (C : cfg.Cycle) (e i e' i' : ℕ) (l : List Partition) : Prop where
  within : C.Has e → C.Has e' → e' ≤ e + 1 → Joined C.size (C.offset e + i) l (C.offset e' + i')
  leave : C.Has e → C.first + C.count ≤ e' → e + 1 = C.first + C.count →
    Joined C.size (C.offset e + i) l (C.size - 1)
  enter : e < C.first → e' = C.first → ∃ l', l = ⟨0, 0, C.size⟩ :: l' ∧
    Joined C.size 0 l' (C.offset e' + i')
  before : e' < C.first → l = []
  behind : C.first + C.count ≤ e → l = []

lemma stepSpec (hs : cfg.epochSchedule.Layout) (hcycled : cfg.Cycled) (hlt : p < q)
    (hp : cfg.At p e i) (hq : cfg.At q e' i') (hsteady : cfg.SteadyStep p q) :
    ∃ l, cfg.cyclePartitions q p = some l ∧ (∀ t ∈ l, t.2.Proper) ∧
      ∀ C : cfg.Cycle, StepSpec C e i e' i' (C.partitions l) := by
  have hle := hp.epoch_le hs hq hlt.le
  rcases eq_or_lt_of_le hle with rfl | hltEpoch
  · -- in one epoch
    have hindex : i < i' := by
      have := hp.2.1
      have := hq.2.1
      omega
    have heq : ∀ C : cfg.Cycle, C.Has e → cfg.cyclePartitions q p =
        some [(e, ⟨C.offset e + i, C.offset e + i', C.size⟩)] := by
      intro C he
      refine cyclePartitions_of_eq he hp hq fun hmid hzero ↦ ?_
      have hmiddle := C.middle e he.1 he.2
      rw [decide_eq_true hmid] at hmiddle
      exact ((hsteady e i e i' hp hq).2 hmiddle hzero).2
    obtain ⟨D, hD⟩ := hcycled e
    have hproper : ∀ t ∈ [(e, (⟨D.offset e + i, D.offset e + i', D.size⟩ : Partition))],
        t.2.Proper := by
      intro t ht
      have hbound := D.offset_add_slots_le hs hD
      rw [mem_singleton.mp ht]
      exact ⟨Nat.add_le_add_left hindex.le _,
        lt_of_lt_of_le (Nat.add_lt_add_left hq.2.2 _) hbound, D.two_le_size hs, D.size_le⟩
    refine ⟨_, heq D hD, hproper, fun C ↦ ?_⟩
    have hepoch : ∀ t ∈ [(e, (⟨D.offset e + i, D.offset e + i', D.size⟩ : Partition))],
        t.1 = e := by
      intro t ht
      rw [mem_singleton.mp ht]
    by_cases he : C.Has e
    · have hsame := some.inj ((heq D hD).symm.trans (heq C he))
      rw [hsame] at hepoch ⊢
      rw [C.partitions_of_has hepoch he]
      have hbound := C.offset_add_slots_le hs he
      have hi' := hq.2.2
      refine ⟨fun _ _ _ ↦ joined_single (by omega) (by omega) (by omega), fun _ hge ↦ ?_,
        fun hlt' ↦ ?_, fun hlt' ↦ ?_, fun hge ↦ ?_⟩
      · exact absurd he.2 (not_lt.mpr hge)
      · exact absurd he.1 (not_le.mpr hlt')
      · exact absurd he.1 (not_le.mpr hlt')
      · exact absurd he.2 (not_lt.mpr hge)
    rw [C.partitions_of_not_has hepoch he]
    exact ⟨fun h ↦ absurd h he, fun h ↦ absurd h he, fun hlt' heq' ↦ by omega, fun _ ↦ rfl,
      fun _ ↦ rfl⟩
  -- across the start of an epoch
  have heq : ∀ C C' : cfg.Cycle, C.Has e → C'.Has e' → cfg.cyclePartitions q p =
      some (tailPartitions C e i (decide (q - p > 1)) ++ headPartitions C' e' i') :=
    fun C C' he he' ↦ cyclePartitions_of_lt hs he he' hltEpoch hp hq hsteady
  obtain ⟨D, hD⟩ := hcycled e
  obtain ⟨D', hD'⟩ := hcycled e'
  refine ⟨_, heq D D' hD hD', forall_mem_append.mpr
    ⟨D.proper_tail hs hD hp.2.2 _, D'.proper_head hs hD' hq.2.2⟩, fun C ↦ ?_⟩
  have hgap : decide (q - p > 1) = false → i + 1 = cfg.epochSchedule.getSlotsInEpoch e := by
    intro hfalse
    have hdist := of_decide_eq_false hfalse
    have hmono := hs.firstSlot_mono (show e + 1 ≤ e' from hltEpoch)
    rw [hs.firstSlot_succ] at hmono
    have := hp.2
    have := hq.2
    omega
  -- the two parts do not depend on the cycle that is named
  have htail : C.Has e → C.partitions (tailPartitions D e i (decide (q - p > 1))) =
      (tailPartitions C e i (decide (q - p > 1))).map snd := by
    intro he
    have hsame := some.inj ((heq D D' hD hD').symm.trans (heq C D' he hD'))
    rw [append_cancel_right hsame, C.partitions_of_has Cycle.epoch_of_mem_tail he]
  have hhead : C.Has e' → C.partitions (headPartitions D' e' i') =
      (headPartitions C e' i').map snd := by
    intro he'
    have hsame := some.inj ((heq D D' hD hD').symm.trans (heq D C hD he'))
    rw [append_cancel_left hsame, C.partitions_of_has Cycle.epoch_of_mem_head he']
  have htail' : ¬ C.Has e → C.partitions (tailPartitions D e i (decide (q - p > 1))) = [] :=
    C.partitions_of_not_has Cycle.epoch_of_mem_tail
  have hhead' : ¬ C.Has e' → C.partitions (headPartitions D' e' i') = [] :=
    C.partitions_of_not_has Cycle.epoch_of_mem_head
  rw [C.partitions_append]
  refine ⟨fun he he' hnext ↦ ?_, fun he hge hlast ↦ ?_, fun hlt' hfirst ↦ ?_, fun hlt' ↦ ?_,
    fun hge ↦ ?_⟩
  · obtain rfl : e' = e + 1 := by omega
    rw [htail he, hhead he']
    refine (C.joined_tail hs he hp.2.2 _ hgap).append ?_
    rw [← C.offset_succ hs he]
    exact C.joined_head_middle hs he' hq.2.2 (by have := he.1; omega)
  · rw [htail he, hhead' fun he' ↦ absurd he'.2 (not_lt.mpr hge), append_nil]
    have hjoined := C.joined_tail hs he hp.2.2 _ hgap
    rwa [← C.offset_succ hs he, hlast, C.offset_last] at hjoined
  · have he' : C.Has e' := hfirst ▸ C.has_first
    rw [htail' fun he ↦ absurd he.1 (not_le.mpr hlt'), hhead he', nil_append]
    exact C.joined_head_first hs he' hq.2.2 hfirst
  · rw [htail' fun he ↦ absurd he.1 (by omega), hhead' fun he' ↦ absurd he'.1 (by omega)]
    rfl
  rw [htail' fun he ↦ absurd he.2 (by omega), hhead' fun he' ↦ absurd he'.2 (by omega)]
  rfl

variable {chain : List ℕ}

lemma SteadyAfter.lt (h : cfg.SteadyAfter p chain) : ∀ r ∈ chain, p < r := by
  induction chain generalizing p with
  | nil => exact forall_mem_nil _
  | cons q chain ih =>
    exact forall_mem_cons.mpr ⟨h.1, fun r hr ↦ h.1.trans (ih h.2.2.2 r hr)⟩

lemma SteadyAfter.le_max (h : cfg.SteadyAfter p chain) : ∀ r ∈ chain, r ≤ u64Max := by
  induction chain generalizing p with
  | nil => exact forall_mem_nil _
  | cons q chain ih => exact forall_mem_cons.mpr ⟨h.2.1, ih h.2.2.2⟩

/-- The chain has a block in an epoch behind the cycle. -/
def Cycle.Passed (C : cfg.Cycle) (chain : List ℕ) : Prop :=
  ∃ q ∈ chain, ∃ e i, cfg.At q e i ∧ C.first + C.count ≤ e

/-- The chain has a block in each epoch of the cycle after this one. -/
def Cycle.Filled (C : cfg.Cycle) (e : ℕ) (chain : List ℕ) : Prop :=
  ∀ e', e < e' → C.Has e' → ∃ q ∈ chain, ∃ i, cfg.At q e' i

lemma epoch_le_of_mem (hs : cfg.epochSchedule.Layout) (hq : cfg.At q e' i')
    (hchain : cfg.SteadyAfter q chain) {r e'' i'' : ℕ} (hr : r ∈ q :: chain)
    (hat : cfg.At r e'' i'') : e' ≤ e'' := by
  rcases mem_cons.mp hr with rfl | hr
  · exact (hq.unique hat).1.le
  · exact hq.epoch_le hs hat (hchain.lt r hr).le

variable {C : cfg.Cycle}

lemma Cycle.Passed.of_cons (h : C.Passed (q :: chain)) (hq : cfg.At q e' i')
    (hlt : e' < C.first + C.count) : C.Passed chain := by
  obtain ⟨r, hr, e'', i'', hat, hge⟩ := h
  rcases mem_cons.mp hr with rfl | hr
  · have := (hq.unique hat).1
    omega
  · exact ⟨r, hr, e'', i'', hat, hge⟩

lemma Cycle.Filled.of_cons (h : C.Filled e (q :: chain)) (hq : cfg.At q e' i') (hle : e ≤ e') :
    C.Filled e' chain := by
  intro e'' hlt hhas
  obtain ⟨r, hr, i'', hat⟩ := h e'' (hle.trans_lt hlt) hhas
  rcases mem_cons.mp hr with rfl | hr
  · have := (hq.unique hat).1
    omega
  · exact ⟨r, hr, i'', hat⟩

/-- A chain goes through each cycle once: from the block where it is, or from the beginning. -/
theorem partitionsAfter_spec (hs : cfg.epochSchedule.Layout) (hcycled : cfg.Cycled)
    (hp : cfg.At p e i) (hchain : cfg.SteadyAfter p chain) :
    ∃ l, cfg.partitionsAfter p chain = some l ∧ (∀ t ∈ l, t.2.Proper) ∧ ∀ C : cfg.Cycle,
      (C.first + C.count ≤ e → C.partitions l = []) ∧
      (C.Passed chain → C.Filled e chain →
        (C.Has e → Joined C.size (C.offset e + i) (C.partitions l) (C.size - 1)) ∧
        (e < C.first → ∃ l', C.partitions l = ⟨0, 0, C.size⟩ :: l' ∧
          Joined C.size 0 l' (C.size - 1))) := by
  induction chain generalizing p e i with
  | nil =>
    exact ⟨[], rfl, forall_mem_nil _, fun C ↦ ⟨fun _ ↦ rfl, fun ⟨q, hq, _⟩ ↦ absurd hq not_mem_nil⟩⟩
  | cons q chain ih =>
    obtain ⟨hlt, hmax, hstep, hchain⟩ := hchain
    obtain ⟨e', i', hq⟩ := exists_at hs hmax
    obtain ⟨l₁, hl₁, hproper₁, hspec⟩ := stepSpec hs hcycled hlt hp hq hstep
    obtain ⟨l₂, hl₂, hproper₂, hrest⟩ := ih hq hchain
    have hle := hp.epoch_le hs hq hlt.le
    refine ⟨l₁ ++ l₂, ?_, forall_mem_append.mpr ⟨hproper₁, hproper₂⟩, fun C ↦ ?_⟩
    · rw [partitionsAfter, hl₁]
      simp only [some_bind, hl₂]
      rfl
    obtain ⟨hbehind, hthrough⟩ := hrest C
    rw [C.partitions_append]
    refine ⟨fun hge ↦ ?_, fun hpassed hfilled ↦ ⟨fun he ↦ ?_, fun hbefore ↦ ?_⟩⟩
    · rw [(hspec C).behind hge, hbehind (hge.trans hle)]
      rfl
    · -- the next epoch of the cycle has a block, so it is not skipped
      have hnext : e + 1 < C.first + C.count → e' ≤ e + 1 := by
        intro hlt'
        obtain ⟨r, hr, i'', hat⟩ := hfilled (e + 1) (lt_succ_self e) ⟨he.1.trans (le_succ e), hlt'⟩
        exact epoch_le_of_mem hs hq hchain hr hat
      rcases lt_or_ge e' (C.first + C.count) with hin | hout
      · have he' : C.Has e' := ⟨he.1.trans hle, hin⟩
        refine ((hspec C).within he he' ?_).append
          ((hthrough (hpassed.of_cons hq hin) (hfilled.of_cons hq hle)).1 he')
        rcases eq_or_lt_of_le hle with rfl | hlt'
        · exact le_succ e
        · exact hnext (by omega)
      have hlast : e + 1 = C.first + C.count := by
        have := he.2
        by_contra hne
        have := hnext (by omega)
        omega
      rw [hbehind hout, append_nil]
      exact (hspec C).leave he hout hlast
    rcases lt_or_ge e' C.first with hbefore' | hge
    · rw [(hspec C).before hbefore', nil_append]
      exact (hthrough (hpassed.of_cons hq (by omega)) (hfilled.of_cons hq hle)).2 hbefore'
    obtain ⟨r, hr, i'', hat⟩ := hfilled C.first hbefore C.has_first
    obtain rfl : e' = C.first := le_antisymm (epoch_le_of_mem hs hq hchain hr hat) hge
    obtain ⟨l', hl', hjoined⟩ := (hspec C).enter hbefore rfl
    rw [hl']
    exact ⟨_, rfl, hjoined.append
      ((hthrough (hpassed.of_cons hq C.has_first.2) (hfilled.of_cons hq hle)).1 C.has_first)⟩

lemma at_zero (hs : cfg.epochSchedule.Layout) : cfg.At 0 0 0 := by
  obtain ⟨e, i, hat⟩ := @exists_at cfg 0 hs (zero_le u64Max)
  have hzero : e = 0 := by
    by_contra hne
    have hmono := hs.firstSlot_mono (show 0 + 1 ≤ e by omega)
    rw [hs.firstSlot_succ] at hmono
    have := hs.thirtytwo_le_slots 0
    have := hat.2.1
    omega
  subst hzero
  obtain rfl : i = 0 := by
    have := hat.2.1
    omega
  exact hat

/-- A chain from the first slot goes once through every cycle that it has passed, with a block in
each of its epochs. -/
theorem partitionsAlong_spec (hs : cfg.epochSchedule.Layout) (hcycled : cfg.Cycled)
    (hchain : cfg.SteadyAfter 0 chain) :
    ∃ l, cfg.partitionsAlong chain = some l ∧ (∀ t ∈ l, t.2.Proper) ∧
      ∀ C : cfg.Cycle, C.Passed chain → (∀ e, C.Has e → ∃ q ∈ 0 :: chain, ∃ i, cfg.At q e i) →
      ∃ l', C.partitions l = ⟨0, 0, C.size⟩ :: l' ∧ Joined C.size 0 l' (C.size - 1) := by
  have hzero := at_zero hs
  have hfirst : ∀ C : cfg.Cycle, C.Has 0 →
      cfg.cyclePartitions 0 0 = some [(0, ⟨0, 0, C.size⟩)] := by
    intro C h0
    have hstart : C.first = 0 := le_zero.mp h0.1
    have hoffset : C.offset 0 = 0 := hstart ▸ C.offset_first
    rw [cyclePartitions_of_eq h0 hzero hzero (fun h ↦ absurd h (by omega)), hoffset]
  obtain ⟨D, hD⟩ := hcycled 0
  obtain ⟨l, hl, hproper, hspec⟩ := partitionsAfter_spec hs hcycled hzero hchain
  refine ⟨(0, ⟨0, 0, D.size⟩) :: l, ?_, forall_mem_cons.mpr ⟨⟨le_refl 0,
    Nat.lt_of_lt_of_le two_pos (D.two_le_size hs), D.two_le_size hs, D.size_le⟩, hproper⟩,
    fun C hpassed hblocks ↦ ?_⟩
  · rw [partitionsAlong, hfirst D hD]
    simp only [some_bind, hl]
    rfl
  have hfilled : C.Filled 0 chain := by
    intro e' hlt hhas
    obtain ⟨q, hq, i, hat⟩ := hblocks e' hhas
    rcases mem_cons.mp hq with rfl | hq
    · have := (hat.unique hzero).1
      omega
    · exact ⟨q, hq, i, hat⟩
  obtain ⟨hwithin, hbefore⟩ := (hspec C).2 hpassed hfilled
  have happend := C.partitions_append [(0, ⟨0, 0, D.size⟩)] l
  rw [singleton_append] at happend
  rw [happend]
  by_cases h0 : C.Has 0
  · have hsame := some.inj ((hfirst D hD).symm.trans (hfirst C h0))
    have hoffset : C.offset 0 = 0 := by
      have hstart : C.first = 0 := le_zero.mp h0.1
      exact hstart ▸ C.offset_first
    have hjoined := hwithin h0
    rw [hoffset] at hjoined
    rw [hsame, C.partitions_of_has (fun t ht ↦ by rw [mem_singleton.mp ht]) h0]
    exact ⟨_, rfl, hjoined⟩
  rw [C.partitions_of_not_has (fun t ht ↦ by rw [mem_singleton.mp ht]) h0, nil_append]
  exact hbefore (pos_of_ne_zero fun heq ↦ h0 (heq ▸ C.has_first))

/-! ### Cycles of one epoch -/

variable {slotsPerEpoch leaderScheduleSlotOffset : ℕ} {warmup : Bool}

section

lemma inMiddleOfCycle_single (hmode : cfg.useMultiEpochCollectionCycle e = some false) :
    cfg.inMiddleOfCycle e = false := by
  rw [inMiddleOfCycle, cycleParams, hmode]
  rfl

lemma steadyAfter_single (hmode : ∀ e, cfg.useMultiEpochCollectionCycle e = some false)
    (hchain : (p :: chain).Pairwise (· < ·)) (hmax : ∀ slot ∈ chain, slot ≤ u64Max) :
    cfg.SteadyAfter p chain := by
  induction chain generalizing p with
  | nil => trivial
  | cons q chain ih =>
    rw [pairwise_cons] at hchain
    rw [forall_mem_cons] at hmax
    refine ⟨hchain.1 q mem_cons_self, hmax.1, fun e i e' i' _ _ ↦ ⟨fun _ hmid ↦ ?_,
      fun hmid ↦ ?_⟩, ih hchain.2 hmax.2⟩
    · rw [inMiddleOfCycle_single (hmode e')] at hmid
      cases hmid
    rw [inMiddleOfCycle_single (hmode e)] at hmid
    cases hmid

/-- **Rent collection visits every account once an epoch**, with single-epoch cycles: whatever slots
the chain skips, all partitions of its banks are made and have key ranges, and the ranges made for
an epoch in which the chain has a block, as it has in the next one, have every key once, no-ops
apart. -/
theorem rent_collected_once_an_epoch
    (hcustom : custom slotsPerEpoch leaderScheduleSlotOffset warmup = some cfg.epochSchedule)
    (hslots : cfg.epochSchedule.slotsPerEpoch ≤ u64Max)
    (hvariable : cfg.useFixedCollectionCycle = some false)
    (hmode : ∀ e, cfg.useMultiEpochCollectionCycle e = some false)
    (hchain : (0 :: chain).Pairwise (· < ·)) (hmax : ∀ slot ∈ chain, slot ≤ u64Max) :
    (∀ slot parentSlot, cfg.rentCollectionPartitions slot parentSlot =
      (cfg.cyclePartitions slot parentSlot).map (List.map snd)) ∧
    ∃ l, cfg.partitionsAlong chain = some l ∧
      (∀ t ∈ l, ∃ range, t.2.pubkeyRange = some range ∧
        (t.2.isNoop = true → range.start = range.stop)) ∧
      ∀ e, (∃ slot ∈ 0 :: chain, cfg.epochSchedule.getEpoch slot = some e) →
        (∃ slot ∈ chain, cfg.epochSchedule.getEpoch slot = some (e + 1)) →
        ∀ key, ((l.filter fun t ↦ t.1 = e).map snd).countP
          (fun p ↦ !p.isNoop && p.contains key) = 1 := by
  have hs := layout_custom hcustom
  have hcycled : cfg.Cycled := fun e ↦
    ⟨singleEpoch hs hslots e (hmode e), le_refl e, lt_succ_self e⟩
  obtain ⟨l, hl, hproper, hspec⟩ :=
    partitionsAlong_spec hs hcycled (steadyAfter_single hmode hchain hmax)
  refine ⟨fun slot parentSlot ↦ ?_, l, hl, fun t ht ↦ ?_, ?_⟩
  · rw [rentCollectionPartitions, hvariable]
    rfl
  · obtain ⟨range, hrange, hnoop, -⟩ := (hproper t ht).pubkeyRange
    exact ⟨range, hrange, hnoop⟩
  rintro e ⟨slot, hslot, hepoch⟩ ⟨next, hnext, hepoch'⟩ key
  -- the epoch is a cycle, and the chain has gone through it
  have hmax' : ∀ slot ∈ 0 :: chain, slot ≤ u64Max := forall_mem_cons.mpr ⟨zero_le _, hmax⟩
  let C := singleEpoch hs hslots e (hmode e)
  have hhas : ∀ e', C.Has e' ↔ e' = e := fun e' ↦
    ⟨fun h ↦ le_antisymm (le_of_lt_succ h.2) h.1, fun h ↦ h ▸ ⟨le_refl e, lt_succ_self e⟩⟩
  obtain ⟨i', hat'⟩ := exists_at_of_getEpoch hs (hmax next hnext) hepoch'
  obtain ⟨l', hl', hjoined⟩ := hspec C ⟨next, hnext, e + 1, i', hat', le_refl _⟩ fun e' he' ↦ by
    rw [(hhas e').mp he']
    exact ⟨slot, hslot, exists_at_of_getEpoch hs (hmax' slot hslot) hepoch⟩
  have hfilter : (l.filter fun t ↦ t.1 = e).map snd = C.partitions l := by
    rw [Cycle.partitions]
    simp only [hhas]
  rw [hfilter, hl']
  exact countP_contains (C.two_le_size hs) C.size_le hjoined key

/-- Epochs of 32 slots, of which a chain with blocks at 5, 40 and 70 skips most. -/
theorem rent_collected_once_an_epoch_minimum :
    ∃ l, partitionsAlong ⟨⟨32, 32, false, 0, 0⟩, 64, false⟩ [5, 40, 70] = some l ∧
      ∀ key, ((l.filter fun t ↦ t.1 = 1).map snd).countP
        (fun p ↦ !p.isNoop && p.contains key) = 1 := by
  obtain ⟨-, l, hl, -, honce⟩ := @rent_collected_once_an_epoch ⟨⟨32, 32, false, 0, 0⟩, 64, false⟩
    [5, 40, 70] 32 32 false rfl (by decide) rfl (fun _ ↦ rfl) (by decide) (by decide)
  exact ⟨l, hl, honce 1 ⟨40, by decide, by decide⟩ ⟨70, by decide, by decide⟩⟩

end

/-! ### Cycles of several epochs -/

section

variable {slotCount : ℕ}

/-- **Rent collection visits every account once a cycle**, with multi-epoch cycles, if every epoch
of the cycle has a block, and those in the middle of it have no first block at the index 1 and no
block at the index 0 that is not followed by one at the index 1: the partitions made for the cycle
are joined, from the first block of keys to the last, so that their ranges have every key once,
no-ops apart. -/
theorem rent_collected_once_a_cycle
    (hcustom : custom slotsPerEpoch leaderScheduleSlotOffset warmup = some cfg.epochSchedule)
    (hday : cfg.slotCountInTwoDay = some slotCount)
    (hmin : cfg.epochSchedule.slotsPerEpoch ≠ minimumSlotsPerEpoch)
    (hcount : 2 ≤ slotCount / cfg.epochSchedule.slotsPerEpoch)
    (hchain : cfg.SteadyAfter 0 chain) {first stop size : ℕ} (n : ℕ)
    (hfirst : first = cfg.epochSchedule.firstNormalEpoch +
      n * (slotCount / cfg.epochSchedule.slotsPerEpoch))
    (hstop : stop = first + slotCount / cfg.epochSchedule.slotsPerEpoch)
    (hsize : size = cfg.epochSchedule.slotsPerEpoch * (slotCount / cfg.epochSchedule.slotsPerEpoch))
    (hblocks : ∀ e, first ≤ e → e < stop →
      ∃ slot ∈ 0 :: chain, cfg.epochSchedule.getEpoch slot = some e)
    (hpassed : ∃ slot ∈ chain, ∃ e, stop ≤ e ∧ cfg.epochSchedule.getEpoch slot = some e) :
    ∃ l l', cfg.partitionsAlong chain = some l ∧
      (l.filter fun t ↦ first ≤ t.1 ∧ t.1 < stop).map snd = ⟨0, 0, size⟩ :: l' ∧
      Joined size 0 l' (size - 1) ∧
      (∀ t ∈ l, ∃ range, t.2.pubkeyRange = some range ∧
        (t.2.isNoop = true → range.start = range.stop)) ∧
      ∀ key, ((⟨0, 0, size⟩ : Partition) :: l').countP
        (fun p ↦ !p.isNoop && p.contains key) = 1 := by
  have hs := layout_custom hcustom
  have hshort : cfg.epochSchedule.slotsPerEpoch < slotCount := by
    have hslots := hs.thirtytwo_le_slots cfg.epochSchedule.firstNormalEpoch
    rw [getSlotsInEpoch, if_neg (lt_irrefl _)] at hslots
    have := (le_div_iff_mul_le (show 0 < cfg.epochSchedule.slotsPerEpoch by omega)).mp hcount
    omega
  have hmax : ∀ slot ∈ 0 :: chain, slot ≤ u64Max := forall_mem_cons.mpr ⟨zero_le _, hchain.le_max⟩
  obtain ⟨l, hl, hproper, hspec⟩ :=
    partitionsAlong_spec hs (cycled_multi hs hday hmin hshort) hchain
  subst hfirst hstop hsize
  let C := multiEpoch hs hday hmin hshort n
  have hfilled : ∀ e, C.Has e → ∃ slot ∈ 0 :: chain, ∃ i, cfg.At slot e i := by
    intro e he
    obtain ⟨slot, hslot, hepoch⟩ := hblocks e he.1 he.2
    exact ⟨slot, hslot, exists_at_of_getEpoch hs (hmax slot hslot) hepoch⟩
  obtain ⟨next, hnext, e, hge, hepoch⟩ := hpassed
  obtain ⟨i, hat⟩ := exists_at_of_getEpoch hs (hchain.le_max next hnext) hepoch
  obtain ⟨l', hl', hjoined⟩ := hspec C ⟨next, hnext, e, i, hat, hge⟩ hfilled
  refine ⟨l, l', hl, hl', hjoined, fun t ht ↦ ?_,
    countP_contains (C.two_le_size hs) C.size_le hjoined⟩
  obtain ⟨range, hrange, hnoop, -⟩ := (hproper t ht).pubkeyRange
  exact ⟨range, hrange, hnoop⟩

/-- Two epochs of 216000 slots make a cycle of two days. -/
def twoEpochConfig : RentConfig := ⟨⟨216000, 216000, false, 0, 0⟩, 64, true⟩

/-- **The first block of an epoch at the index 1, and a lonely block at the index 0.** The chain
with blocks at 215999, 216001, 431999 and 432000 leaves the first keys of the second epoch of its
cycle out; the one with blocks at 215999, 216000 and 432000 fails an assertion. -/
theorem second_epoch_not_joined :
    twoEpochConfig.partitionsAlong [215999, 216001, 431999, 432000] = some
      [(0, ⟨0, 0, 432000⟩), (0, ⟨0, 215999, 432000⟩), (0, ⟨215999, 215999, 432000⟩),
        (1, ⟨215999, 215999, 432000⟩), (1, ⟨216000, 216001, 432000⟩),
        (1, ⟨216001, 431999, 432000⟩), (2, ⟨0, 0, 432000⟩)] ∧
    ((twoEpochConfig.partitionsAlong [215999, 216001, 431999, 432000]).map fun l ↦
      ((l.filter fun t ↦ t.1 < 2).map snd).countP
        fun p ↦ p.contains (keyWithPrefix (216000 * (2 ^ 64 / 432000) + 1) false)) = some 0 ∧
    twoEpochConfig.partitionsAlong [215999, 216000, 432000] = none := by
  decide +kernel

/-- A chain with a block in the first two slots of the second epoch. -/
theorem rent_collected_once_a_cycle_twoEpochs :
    ∃ l l', twoEpochConfig.partitionsAlong [215999, 216000, 216001, 432003] = some l ∧
      (l.filter fun t ↦ 0 ≤ t.1 ∧ t.1 < 2).map snd = ⟨0, 0, 432000⟩ :: l' ∧
      Joined 432000 0 l' 431999 := by
  have h₀ : twoEpochConfig.At 0 0 0 := ⟨by decide, by decide, by decide⟩
  have h₁ : twoEpochConfig.At 215999 0 215999 := ⟨by decide, by decide, by decide⟩
  have h₂ : twoEpochConfig.At 216000 1 0 := ⟨by decide, by decide, by decide⟩
  have h₃ : twoEpochConfig.At 216001 1 1 := ⟨by decide, by decide, by decide⟩
  have h₄ : twoEpochConfig.At 432003 2 3 := ⟨by decide, by decide, by decide⟩
  have hchain : twoEpochConfig.SteadyAfter 0 [215999, 216000, 216001, 432003] :=
    ⟨by decide, by decide, .of_at h₀ h₁ (by decide) (by decide),
      by decide, by decide, .of_at h₁ h₂ (by decide) (by decide),
      by decide, by decide, .of_at h₂ h₃ (by decide) (by decide),
      by decide, by decide, .of_at h₃ h₄ (by decide) (by decide), trivial⟩
  have hepoch : ∀ {s e i}, twoEpochConfig.At s e i →
      twoEpochConfig.epochSchedule.getEpoch s = some e := fun h ↦ by
    rw [getEpoch, h.1]
    rfl
  obtain ⟨l, l', hl, hl', hjoined, -⟩ := @rent_collected_once_a_cycle twoEpochConfig
    [215999, 216000, 216001, 432003] 216000 216000 false 432000 rfl rfl (by decide) (by decide)
    hchain 0 2 432000 0 (by decide) (by decide) (by decide)
    (fun e _ hlt ↦ by
      rcases Nat.eq_zero_or_pos e with rfl | hpos
      · exact ⟨0, mem_cons_self, hepoch h₀⟩
      obtain rfl : e = 1 := by omega
      exact ⟨216000, by decide, hepoch h₂⟩)
    ⟨432003, by decide, 2, le_refl 2, hepoch h₄⟩
  exact ⟨l, l', hl, hl', hjoined⟩

end

end Renec.RentConfig
