import Renec.Sdk.EpochSchedule

/-!
# The slots of an epoch

The epochs of a schedule follow each other without a gap: the epoch `e` has the slots from
`firstSlot e` up to `firstSlot (e + 1)`, and a slot is the first slot of its epoch plus its index.
-/

namespace Renec.EpochSchedule

open Nat Option

section

variable (s : EpochSchedule) (epoch : ℕ)

/-- `EpochSchedule::get_slots_in_epoch`. -/
def getSlotsInEpoch : ℕ :=
  if epoch < s.firstNormalEpoch then
    min (2 ^ saturatingAdd 32 (epoch % 2 ^ 32) (trailingZeros 64 minimumSlotsPerEpoch)) u64Max
  else s.slotsPerEpoch

/-- The slot an epoch begins with. -/
def firstSlot : ℕ :=
  if epoch ≤ s.firstNormalEpoch then 2 ^ (epoch + 5) - 32
  else s.firstNormalSlot + (epoch - s.firstNormalEpoch) * s.slotsPerEpoch

def getFirstSlotInEpoch : ℕ :=
  if epoch ≤ s.firstNormalEpoch then
    min ((min (2 ^ (epoch % 2 ^ 32)) u64Max - 1) * minimumSlotsPerEpoch) u64Max
  else
    saturatingAdd 64 (min ((epoch - s.firstNormalEpoch) * s.slotsPerEpoch) u64Max) s.firstNormalSlot

def getLastSlotInEpoch : ℕ :=
  saturatingAdd 64 (s.getFirstSlotInEpoch epoch) (s.getSlotsInEpoch epoch) - 1

end

/-- What `custom` makes, whatever the offset of the leader schedule is. -/
structure Layout (s : EpochSchedule) : Prop where
  minimum_le : 32 ≤ s.slotsPerEpoch
  firstNormalEpoch_lt : s.firstNormalEpoch + 5 < 64
  firstNormalSlot_eq : s.firstNormalSlot = 2 ^ (s.firstNormalEpoch + 5) - 32

lemma trailingZeros_minimum : trailingZeros 64 minimumSlotsPerEpoch = 5 := by decide

variable {s : EpochSchedule} {slotsPerEpoch leaderScheduleSlotOffset : ℕ} {warmup : Bool}
  {slot slot' e e' l l' : ℕ}

lemma layout_custom (h : custom slotsPerEpoch leaderScheduleSlotOffset warmup = some s) :
    s.Layout := by
  simp only [custom, ite_none_right_eq_some] at h
  obtain ⟨hmin, h⟩ := h
  cases warmup with
  | false =>
    cases h
    exact ⟨hmin, (by decide : 0 + 5 < 64), rfl⟩
  | true =>
    simp only [firstNormal, if_true, nextPowerOfTwo, pure_def, bind_eq_some,
      ite_none_right_eq_some, some.injEq] at h
    obtain ⟨_, ⟨_, ⟨hlt, rfl⟩, rfl⟩, rfl⟩ := h
    have hc : clog 2 slotsPerEpoch < 64 := (Nat.pow_lt_pow_iff_right Nat.one_lt_two).mp hlt
    have hfive : 5 ≤ clog 2 slotsPerEpoch := by
      have hpow : 2 ^ 5 ≤ 2 ^ clog 2 slotsPerEpoch := le_trans hmin (le_pow_clog Nat.one_lt_two _)
      exact (Nat.pow_le_pow_iff_right Nat.one_lt_two).mp hpow
    have hepoch : trailingZeros 64 (2 ^ clog 2 slotsPerEpoch) -
        trailingZeros 64 minimumSlotsPerEpoch = clog 2 slotsPerEpoch - 5 := by
      rw [trailingZeros_two_pow hc.le, trailingZeros_minimum]
    refine ⟨hmin, ?_, ?_⟩
    · show trailingZeros 64 _ - trailingZeros 64 minimumSlotsPerEpoch + 5 < 64
      rw [hepoch]
      omega
    show 2 ^ clog 2 slotsPerEpoch - 32 =
      2 ^ (trailingZeros 64 _ - trailingZeros 64 minimumSlotsPerEpoch + 5) - 32
    rw [hepoch, Nat.sub_add_cancel hfive]

lemma offset_le_custom (h : custom slotsPerEpoch leaderScheduleSlotOffset warmup = some s)
    (hoffset : leaderScheduleSlotOffset ≤ slotsPerEpoch) :
    s.leaderScheduleSlotOffset ≤ s.slotsPerEpoch := by
  simp only [custom, ite_none_right_eq_some, bind_eq_some] at h
  obtain ⟨-, _, -, h⟩ := h
  cases h
  exact hoffset

namespace Layout

lemma thirtytwo_le_pow (epoch : ℕ) : 32 ≤ 2 ^ (epoch + 5) :=
  Nat.pow_le_pow_right Nat.two_pos (le_add_left 5 epoch)

variable (h : s.Layout) {epoch : ℕ}

include h

lemma slotsPerEpoch_pos : 0 < s.slotsPerEpoch := lt_of_lt_of_le (by decide) h.minimum_le

lemma pow_le_u64Max (hle : epoch ≤ s.firstNormalEpoch) : 2 ^ (epoch + 5) ≤ u64Max := by
  have hbound := h.firstNormalEpoch_lt
  have hpow : 2 ^ (epoch + 5) ≤ 2 ^ 63 := Nat.pow_le_pow_right Nat.two_pos (by omega)
  exact hpow.trans (by decide)

lemma div_le {n : ℕ} (hn : n ≤ u64Max) : n / s.slotsPerEpoch ≤ u64Max / 32 :=
  Nat.div_le_div hn h.minimum_le (by decide)

lemma getSlotsInEpoch_of_lt (hlt : epoch < s.firstNormalEpoch) :
    s.getSlotsInEpoch epoch = 2 ^ (epoch + 5) := by
  have hbound := h.firstNormalEpoch_lt
  have hmod : epoch % 2 ^ 32 = epoch := mod_eq_of_lt (lt_trans hlt (by omega))
  have hadd : saturatingAdd 32 epoch 5 = epoch + 5 := by
    rw [saturatingAdd]
    omega
  rw [getSlotsInEpoch, if_pos hlt, trailingZeros_minimum, hmod, hadd,
    min_eq_left (h.pow_le_u64Max hlt.le)]

lemma thirtytwo_le_slots (epoch : ℕ) : 32 ≤ s.getSlotsInEpoch epoch := by
  rcases lt_or_ge epoch s.firstNormalEpoch with hlt | hge
  · rw [h.getSlotsInEpoch_of_lt hlt]
    exact thirtytwo_le_pow epoch
  rw [getSlotsInEpoch, if_neg (not_lt.mpr hge)]
  exact h.minimum_le

lemma firstSlot_of_le (hge : s.firstNormalEpoch ≤ epoch) :
    s.firstSlot epoch = s.firstNormalSlot + (epoch - s.firstNormalEpoch) * s.slotsPerEpoch := by
  rw [firstSlot]
  split_ifs with hle
  · obtain rfl := le_antisymm hle hge
    rw [Nat.sub_self, Nat.zero_mul, h.firstNormalSlot_eq]
    rfl
  · rfl

/-- Epochs follow each other. -/
theorem firstSlot_succ (epoch : ℕ) :
    s.firstSlot (epoch + 1) = s.firstSlot epoch + s.getSlotsInEpoch epoch := by
  rcases lt_or_ge epoch s.firstNormalEpoch with hlt | hge
  · have hle := thirtytwo_le_pow epoch
    rw [h.getSlotsInEpoch_of_lt hlt, firstSlot, firstSlot, if_pos (show epoch + 1 ≤ _ from hlt),
      if_pos hlt.le, Nat.add_right_comm epoch 1 5, Nat.pow_succ]
    omega
  have hsub : epoch + 1 - s.firstNormalEpoch = epoch - s.firstNormalEpoch + 1 := succ_sub hge
  rw [h.firstSlot_of_le hge, h.firstSlot_of_le (le_succ_of_le hge), getSlotsInEpoch,
    if_neg (not_lt.mpr hge), hsub, add_one_mul, Nat.add_assoc]

lemma firstSlot_mono {e e' : ℕ} (hle : e ≤ e') : s.firstSlot e ≤ s.firstSlot e' := by
  induction e', hle using le_induction with
  | base => exact le_refl _
  | succ e' _ ih => exact ih.trans (h.firstSlot_succ e' ▸ le_add_right _ _)

/-- A slot is the first slot of its epoch plus its index. -/
theorem getEpochAndSlotIndex_spec {slot : ℕ} (hslot : slot ≤ u64Max) :
    ∃ epoch index, s.getEpochAndSlotIndex slot = some (epoch, index) ∧
      slot = s.firstSlot epoch + index ∧ index < s.getSlotsInEpoch epoch := by
  have hbound := h.firstNormalEpoch_lt
  have hfirst := h.firstNormalSlot_eq
  rcases lt_or_ge slot s.firstNormalSlot with hlt | hge
  · -- `slot + 33` lies between two powers of two, of which the lower is the length of the epoch
    have hpow := h.pow_le_u64Max (le_refl _)
    have hsum : saturatingAdd 64 (saturatingAdd 64 slot minimumSlotsPerEpoch) 1 = slot + 33 := by
      simp only [saturatingAdd, minimumSlotsPerEpoch]
      rw [u64Max] at hpow
      omega
    have hclog : clog 2 (slot + 33) ≤ s.firstNormalEpoch + 5 := clog_le_of_le_pow (by omega)
    have hsix : 6 ≤ clog 2 (slot + 33) := by
      have hlow : 2 ^ 5 < 2 ^ clog 2 (slot + 33) :=
        lt_of_lt_of_le (by omega) (le_pow_clog Nat.one_lt_two (slot + 33))
      have := (Nat.pow_lt_pow_iff_right Nat.one_lt_two).mp hlow
      omega
    obtain ⟨e, he⟩ : ∃ e, clog 2 (slot + 33) = e + 6 := ⟨_, (Nat.sub_add_cancel hsix).symm⟩
    have hupper : slot + 33 ≤ 2 ^ (e + 6) := he ▸ le_pow_clog Nat.one_lt_two (slot + 33)
    have hlower : 2 ^ (e + 5) < slot + 33 := by
      have := pow_pred_clog_lt_self Nat.one_lt_two (show 1 < slot + 33 by omega)
      rwa [he] at this
    have hlen : e < s.firstNormalEpoch := by omega
    have hthirtytwo := thirtytwo_le_pow e
    have hdouble : 2 ^ (e + 6) = 2 * 2 ^ (e + 5) := pow_succ'
    refine ⟨e, slot - (2 ^ (e + 5) - 32), ?_, ?_, ?_⟩
    · have hlt' : e + 6 < 64 := by omega
      rw [getEpochAndSlotIndex, if_pos hlt, hsum, nextPowerOfTwo, he,
        if_pos ((Nat.pow_lt_pow_iff_right Nat.one_lt_two).mpr hlt')]
      simp only [some_bind, pure_def, trailingZeros_minimum, trailingZeros_two_pow hlt'.le]
      rw [show e + 6 - 5 - 1 = e by omega, min_eq_left (h.pow_le_u64Max hlen.le)]
      rfl
    · rw [firstSlot, if_pos hlen.le]
      omega
    rw [h.getSlotsInEpoch_of_lt hlen]
    omega
  have hdiv := h.div_le ((sub_le slot s.firstNormalSlot).trans hslot)
  have hepoch : saturatingAdd 64 s.firstNormalEpoch
      ((slot - s.firstNormalSlot) / s.slotsPerEpoch) =
      s.firstNormalEpoch + (slot - s.firstNormalSlot) / s.slotsPerEpoch := by
    rw [saturatingAdd]
    have : u64Max / 32 + 64 ≤ 2 ^ 64 - 1 := by decide
    omega
  have hge' : ¬ s.firstNormalEpoch + (slot - s.firstNormalSlot) / s.slotsPerEpoch <
      s.firstNormalEpoch := not_lt.mpr (le_add_right _ _)
  refine ⟨s.firstNormalEpoch + (slot - s.firstNormalSlot) / s.slotsPerEpoch,
    (slot - s.firstNormalSlot) % s.slotsPerEpoch, ?_, ?_, ?_⟩
  · rw [getEpochAndSlotIndex, if_neg (not_lt.mpr hge)]
    dsimp only
    rw [hepoch]
  · have hdivmod := div_add_mod (slot - s.firstNormalSlot) s.slotsPerEpoch
    rw [h.firstSlot_of_le (le_add_right _ _), Nat.add_sub_cancel_left, Nat.mul_comm]
    omega
  rw [getSlotsInEpoch, if_neg hge']
  exact mod_lt _ h.slotsPerEpoch_pos

/-! ### First and last slots -/

lemma getFirstSlotInEpoch_eq (epoch : ℕ) :
    s.getFirstSlotInEpoch epoch = min (s.firstSlot epoch) u64Max := by
  have hbound := h.firstNormalEpoch_lt
  rw [getFirstSlotInEpoch, firstSlot]
  split_ifs with hle
  · have hpow := h.pow_le_u64Max hle
    rw [Nat.pow_add] at hpow
    rw [mod_eq_of_lt (by omega : epoch < 2 ^ 32), Nat.pow_add, minimumSlotsPerEpoch]
    omega
  simp only [saturatingAdd, u64Max]
  omega

lemma getFirstSlotInEpoch_succ (epoch : ℕ) :
    s.getFirstSlotInEpoch (epoch + 1) = s.getLastSlotInEpoch epoch + 1 := by
  have hpos := h.thirtytwo_le_slots epoch
  rw [getLastSlotInEpoch, h.getFirstSlotInEpoch_eq, h.getFirstSlotInEpoch_eq, h.firstSlot_succ,
    saturatingAdd, u64Max]
  omega

lemma le_of_firstSlot_lt (hlt : s.firstSlot e < s.firstSlot (e' + 1)) : e ≤ e' := by
  by_contra hnot
  exact absurd (h.firstSlot_mono (succ_le_of_lt (not_le.mp hnot))) (not_le.mpr hlt)

lemma firstSlot_firstNormalEpoch : s.firstSlot s.firstNormalEpoch = s.firstNormalSlot := by
  rw [h.firstSlot_of_le (le_refl _), Nat.sub_self, Nat.zero_mul, Nat.add_zero]

end Layout

/-! ### The leader schedule -/

/-- The epoch and the leader schedule epoch of a slot, whatever the offset is. -/
structure Leads (s : EpochSchedule) (slot e l : ℕ) : Prop where
  first_le : s.firstSlot e ≤ slot
  lt_next : slot < s.firstSlot (e + 1)
  of_lt : slot < s.firstNormalSlot → l = e + 1 ∧ l ≤ s.firstNormalEpoch
  of_le : s.firstNormalSlot ≤ slot → s.firstNormalEpoch ≤ e ∧ l = s.firstNormalEpoch +
    min (slot - s.firstNormalSlot + s.leaderScheduleSlotOffset) u64Max / s.slotsPerEpoch
  small : l + 1 < 2 ^ 64

lemma Layout.exists_leads (h : s.Layout) (hslot : slot ≤ u64Max) :
    ∃ e l, s.ClockAt slot e l ∧ s.Leads slot e l := by
  obtain ⟨e, i, he, heq, hi⟩ := h.getEpochAndSlotIndex_spec hslot
  have hepoch : s.getEpoch slot = some e := by rw [getEpoch, he, map_some]
  have hfirst : s.firstSlot e ≤ slot := heq ▸ le_add_right _ _
  have hnext : slot < s.firstSlot (e + 1) := by
    rw [h.firstSlot_succ, heq]
    exact Nat.add_lt_add_left hi _
  have hbound := h.firstNormalEpoch_lt
  rcases lt_or_ge slot s.firstNormalSlot with hlt | hge
  · have hwarm : e < s.firstNormalEpoch := by
      by_contra hnot
      have hmono := h.firstSlot_mono (not_lt.mp hnot)
      rw [h.firstSlot_firstNormalEpoch] at hmono
      exact absurd (hmono.trans hfirst) (not_le.mpr hlt)
    refine ⟨e, e + 1, ⟨lt_succ_of_le hslot, hepoch, ?_⟩, hfirst, hnext, fun _ ↦ ⟨rfl, hwarm⟩,
      fun hge ↦ absurd hge (not_le.mpr hlt), by omega⟩
    rw [getLeaderScheduleEpoch, if_pos hlt, hepoch, map_some, saturatingAdd]
    exact congrArg some (by omega)
  have hnormal : s.firstNormalEpoch ≤ e :=
    h.le_of_firstSlot_lt (h.firstSlot_firstNormalEpoch ▸ hge.trans_lt hnext)
  have hdiv := h.div_le
    (min_le_right (slot - s.firstNormalSlot + s.leaderScheduleSlotOffset) u64Max)
  have hsmall : s.firstNormalEpoch + min (slot - s.firstNormalSlot +
      s.leaderScheduleSlotOffset) u64Max / s.slotsPerEpoch + 1 < 2 ^ 64 := by
    have : u64Max / 32 + 64 < 2 ^ 64 := by decide
    omega
  refine ⟨e, _, ⟨lt_succ_of_le hslot, hepoch, ?_⟩, hfirst, hnext, fun hlt ↦
    absurd hlt (not_lt.mpr hge), fun _ ↦ ⟨hnormal, rfl⟩, hsmall⟩
  rw [getLeaderScheduleEpoch, if_neg (not_lt.mpr hge)]
  exact congrArg some (min_eq_left (le_of_lt_succ (lt_of_succ_lt hsmall)))

namespace ClockAt

variable (h : s.ClockAt slot e l) (hs : s.Layout)

include h hs

lemma leads : s.Leads slot e l := by
  obtain ⟨e₀, l₀, h₀, hleads⟩ := hs.exists_leads (le_of_lt_succ h.slot_lt)
  cases h.epoch_eq.symm.trans h₀.epoch_eq
  cases h.leaderScheduleEpoch_eq.symm.trans h₀.leaderScheduleEpoch_eq
  exact hleads

lemma epoch_le : e ≤ l := by
  have hlt := h.slot_lt
  replace h := h.leads hs
  rcases lt_or_ge slot s.firstNormalSlot with hlt | hge
  · exact (h.of_lt hlt).1 ▸ le_succ e
  obtain ⟨hnormal, rfl⟩ := h.of_le hge
  have hfirst := h.first_le
  rw [hs.firstSlot_of_le hnormal] at hfirst
  refine Nat.sub_le_iff_le_add'.mp ((le_div_iff_mul_le hs.slotsPerEpoch_pos).mpr ?_)
  rw [u64Max]
  omega

/-- A clock that moves forward never goes back to an earlier epoch or leader schedule. -/
theorem mono (h' : s.ClockAt slot' e' l') (hle : slot ≤ slot') : e ≤ e' ∧ l ≤ l' := by
  replace h := h.leads hs
  replace h' := h'.leads hs
  have hepoch := hs.le_of_firstSlot_lt (h.first_le.trans_lt (hle.trans_lt h'.lt_next))
  refine ⟨hepoch, ?_⟩
  rcases lt_or_ge slot' s.firstNormalSlot with hlt' | hge'
  · rw [(h.of_lt (hle.trans_lt hlt')).1, (h'.of_lt hlt').1]
    exact succ_le_succ hepoch
  rw [(h'.of_le hge').2]
  rcases lt_or_ge slot s.firstNormalSlot with hlt | hge
  · exact (h.of_lt hlt).2.trans (le_add_right _ _)
  rw [(h.of_le hge).2]
  exact Nat.add_le_add_left (Nat.div_le_div_right (by omega)) _

/-- The leader schedule epoch is the current or the next one, and far from the end of `u64`. -/
theorem bounds (hoffset : s.leaderScheduleSlotOffset ≤ s.slotsPerEpoch) :
    e ≤ l ∧ l ≤ e + 1 ∧ l + 1 < 2 ^ 64 := by
  refine ⟨h.epoch_le hs, ?_, (h.leads hs).small⟩
  replace h := h.leads hs
  rcases lt_or_ge slot s.firstNormalSlot with hlt | hge
  · exact (h.of_lt hlt).1.le
  obtain ⟨hnormal, rfl⟩ := h.of_le hge
  have hnext := h.lt_next
  rw [hs.firstSlot_succ, hs.firstSlot_of_le hnormal, getSlotsInEpoch,
    if_neg (not_lt.mpr hnormal)] at hnext
  have hdiv : min (slot - s.firstNormalSlot + s.leaderScheduleSlotOffset) u64Max /
      s.slotsPerEpoch < e - s.firstNormalEpoch + 1 + 1 := by
    refine (div_lt_iff_lt_mul hs.slotsPerEpoch_pos).mpr ?_
    rw [add_one_mul, add_one_mul]
    omega
  omega

lemma le_succ (h' : s.ClockAt (slot + 1) e' l')
    (hoffset : s.leaderScheduleSlotOffset ≤ s.slotsPerEpoch) : l' ≤ l + 1 := by
  replace h := h.leads hs
  replace h' := h'.leads hs
  have hpos := hs.slotsPerEpoch_pos
  have hepoch : ∀ {a}, s.firstSlot a ≤ slot + 1 → a ≤ e + 1 := fun ha ↦ by
    refine hs.le_of_firstSlot_lt ((ha.trans h.lt_next).trans_lt ?_)
    rw [hs.firstSlot_succ (e + 1)]
    exact Nat.lt_add_of_pos_right (lt_of_lt_of_le (by decide) (hs.thirtytwo_le_slots _))
  rcases lt_or_ge slot s.firstNormalSlot with hlt | hge
  · rw [(h.of_lt hlt).1]
    rcases lt_or_ge (slot + 1) s.firstNormalSlot with hlt' | hge'
    · rw [(h'.of_lt hlt').1]
      exact succ_le_succ (hepoch h'.first_le)
    -- the first normal slot: the warm-up ends with the epoch before the first normal one
    rw [(h'.of_le hge').2, show slot + 1 - s.firstNormalSlot = 0 by omega, Nat.zero_add]
    refine Nat.add_le_add (hepoch (hs.firstSlot_firstNormalEpoch ▸ hge'))
      (le_of_lt_succ ((div_lt_iff_lt_mul hpos).mpr ?_))
    omega
  rw [(h.of_le hge).2, (h'.of_le (le_succ_of_le hge)).2, Nat.add_assoc, ← add_div_right _ hpos]
  exact Nat.add_le_add_left (Nat.div_le_div_right (by omega)) _

end ClockAt

/-- **The epochs partition the slots**, for every schedule that `custom` makes. A slot is the first
slot of its epoch plus its index, which is below the length of the epoch; an epoch begins after the
last slot of the one before. The leader schedule epoch is not before the epoch of the slot, never
goes back, and with an offset of at most an epoch moves by at most one from a slot to the next. -/
theorem custom_partitions (h : custom slotsPerEpoch leaderScheduleSlotOffset warmup = some s) :
    (∀ slot ≤ u64Max, ∃ e i, s.getEpochAndSlotIndex slot = some (e, i) ∧
      s.getFirstSlotInEpoch e + i = slot ∧ i < s.getSlotsInEpoch e) ∧
    (∀ e < u64Max, s.getFirstSlotInEpoch (e + 1) = s.getLastSlotInEpoch e + 1) ∧
    (∀ slot ≤ u64Max, ∃ e l, s.ClockAt slot e l ∧ e ≤ l) ∧
    (∀ slot slot' e e' l l', slot ≤ slot' → s.ClockAt slot e l → s.ClockAt slot' e' l' → l ≤ l') ∧
    (leaderScheduleSlotOffset ≤ slotsPerEpoch → ∀ slot e e' l l',
      s.ClockAt slot e l → s.ClockAt (slot + 1) e' l' → l' ≤ l + 1) := by
  have hs := layout_custom h
  refine ⟨fun slot hslot ↦ ?_, fun e _ ↦ hs.getFirstSlotInEpoch_succ e, fun slot hslot ↦ ?_,
    fun slot slot' e e' l l' hle hl hl' ↦ (hl.mono hs hl' hle).2,
    fun hoffset slot e e' l l' hl hl' ↦ hl.le_succ hs hl' (offset_le_custom h hoffset)⟩
  · obtain ⟨e, i, he, heq, hi⟩ := hs.getEpochAndSlotIndex_spec hslot
    refine ⟨e, i, he, ?_, hi⟩
    rw [hs.getFirstSlotInEpoch_eq, min_eq_left (by omega), heq]
  obtain ⟨e, l, hclock, -⟩ := hs.exists_leads hslot
  exact ⟨e, l, hclock, hclock.epoch_le hs⟩

theorem custom_partitions_sixty : ∃ s, custom 60 60 true = some s ∧
    (∀ slot ≤ u64Max, ∃ e i, s.getEpochAndSlotIndex slot = some (e, i) ∧
      s.getFirstSlotInEpoch e + i = slot ∧ i < s.getSlotsInEpoch e) ∧
    ∀ slot e e' l l', s.ClockAt slot e l → s.ClockAt (slot + 1) e' l' → l' ≤ l + 1 := by
  have h := @custom_partitions ⟨60, 60, true, 1, 32⟩ 60 60 true (by decide)
  exact ⟨_, by decide, h.1, h.2.2.2.2 le_rfl⟩

end Renec.EpochSchedule
