import Renec.Machine.Outcome
import Renec.Sdk.Types

/-!
# The epoch schedule

How slots make up epochs (`sdk/program/src/epoch_schedule.rs`). During warm-up the epochs start
short and double in length until the first normal epoch; from there on they all have `slotsPerEpoch`
slots.
-/

namespace Renec

open Option

/-! ### Powers of two -/

/-- `x.next_power_of_two()` in `w` bits: the smallest power of two that is at least `x`. -/
def nextPowerOfTwo (w x : ℕ) : Option ℕ :=
  if 2 ^ Nat.clog 2 x < 2 ^ w then some (2 ^ Nat.clog 2 x) else none

/-- `x.trailing_zeros()` in `w` bits. -/
def trailingZeros : (w x : ℕ) → ℕ
  | 0, _ => 0
  | w + 1, x => if x % 2 = 0 then trailingZeros w (x / 2) + 1 else 0

lemma trailingZeros_two_pow {w c : ℕ} (h : c ≤ w) : trailingZeros w (2 ^ c) = c := by
  induction c generalizing w with
  | zero =>
    cases w with
    | zero | succ w => rfl
  | succ c ih =>
    cases w with
    | zero => exact absurd h (Nat.not_succ_le_zero c)
    | succ w =>
      rw [trailingZeros, Nat.pow_succ, if_pos (Nat.mul_mod_left _ _),
        Nat.mul_div_cancel _ (Nat.succ_pos 1), ih (Nat.le_of_succ_le_succ h)]

/-! ### The schedule -/

/-- `MINIMUM_SLOTS_PER_EPOCH`. -/
def minimumSlotsPerEpoch : ℕ := 32

structure EpochSchedule where
  /-- The maximum number of slots in each epoch. -/
  slotsPerEpoch : ℕ
  /-- A number of slots before the beginning of an epoch to calculate its leader schedule. -/
  leaderScheduleSlotOffset : ℕ
  /-- Whether epochs start short and grow. -/
  warmup : Bool
  firstNormalEpoch : ℕ
  firstNormalSlot : ℕ
  deriving DecidableEq

namespace EpochSchedule

/-- The first normal epoch and slot of `custom`. -/
def firstNormal (slotsPerEpoch : ℕ) (warmup : Bool) : Option (ℕ × ℕ) :=
  if warmup then do
    let nextPower ← nextPowerOfTwo 64 slotsPerEpoch
    return (trailingZeros 64 nextPower - trailingZeros 64 minimumSlotsPerEpoch,
      nextPower - minimumSlotsPerEpoch)
  else some (0, 0)

def custom (slotsPerEpoch leaderScheduleSlotOffset : ℕ) (warmup : Bool) : Option EpochSchedule :=
  if minimumSlotsPerEpoch ≤ slotsPerEpoch then do
    let (firstNormalEpoch, firstNormalSlot) ← firstNormal slotsPerEpoch warmup
    return ⟨slotsPerEpoch, leaderScheduleSlotOffset, warmup, firstNormalEpoch, firstNormalSlot⟩
  else none

variable (s : EpochSchedule) (slot : ℕ)

/-- The epoch and the offset into the epoch of a slot. -/
def getEpochAndSlotIndex : Option (ℕ × ℕ) :=
  if slot < s.firstNormalSlot then do
    let nextPower ← nextPowerOfTwo 64
      (saturatingAdd 64 (saturatingAdd 64 slot minimumSlotsPerEpoch) 1)
    let epoch := trailingZeros 64 nextPower - trailingZeros 64 minimumSlotsPerEpoch - 1
    let epochLen := min (2 ^ (epoch + trailingZeros 64 minimumSlotsPerEpoch)) u64Max
    return (epoch, slot - (epochLen - minimumSlotsPerEpoch))
  else
    let normalSlotIndex := slot - s.firstNormalSlot
    some (saturatingAdd 64 s.firstNormalEpoch (normalSlotIndex / s.slotsPerEpoch),
      normalSlotIndex % s.slotsPerEpoch)

def getEpoch : Option ℕ :=
  (s.getEpochAndSlotIndex slot).map Prod.fst

/-- The epoch for which the given slot should save off information about stakers. -/
def getLeaderScheduleEpoch : Option ℕ :=
  if slot < s.firstNormalSlot then
    -- until we get to normal slots, behave as if the offset were an epoch
    (s.getEpoch slot).map fun epoch ↦ saturatingAdd 64 epoch 1
  else
    let sinceFirstNormal := saturatingAdd 64 (slot - s.firstNormalSlot) s.leaderScheduleSlotOffset
    some (saturatingAdd 64 s.firstNormalEpoch (sinceFirstNormal / s.slotsPerEpoch))

/-! ### Clocks -/

/-- A clock at a slot carries the epoch of the slot and its leader schedule epoch. -/
structure ClockAt (s : EpochSchedule) (slot : ℕ) (epoch leaderScheduleEpoch : ℕ) : Prop where
  slot_lt : slot < 2 ^ 64
  epoch_eq : s.getEpoch slot = some epoch
  leaderScheduleEpoch_eq : s.getLeaderScheduleEpoch slot = some leaderScheduleEpoch

end EpochSchedule

end Renec
