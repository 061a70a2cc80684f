import Renec.Sdk.EpochSlots

/-!
# Partitions of eager rent collection

Each bank collects rent from the accounts in a few ranges of public keys (`runtime/src/bank.rs`). A
collection cycle has as many partitions as slots; the partition of a slot is a range of the first
eight bytes of the key.
-/

namespace Renec

/-! ### Ranges of public keys -/

/-- `(start_index, end_index, partition_count)`. -/
structure Partition where
  startIndex : ℕ
  endIndex : ℕ
  partitionCount : ℕ
  deriving DecidableEq

/-- `RangeInclusive<Pubkey>`. -/
structure KeyRange where
  start : Pubkey
  stop : Pubkey
  deriving DecidableEq

/-- The key is in the range; keys compare as their bytes do. -/
def KeyRange.contains (range : KeyRange) (key : Pubkey) : Bool :=
  decide (range.start.bits.toNat ≤ key.bits.toNat ∧ key.bits.toNat ≤ range.stop.bits.toNat)

namespace Partition

/-- The key with the given first eight bytes, and the others all zero or all one. -/
def keyWithPrefix (keyPrefix : ℕ) (ones : Bool) : Pubkey :=
  ⟨BitVec.ofNat 256 (keyPrefix * 2 ^ 192 + if ones then 2 ^ 192 - 1 else 0)⟩

/-- The not-overflowing way of `(Prefix::max_value() + 1) / partition_count`. -/
def partitionWidth (partitionCount : ℕ) : Option ℕ := do
  let rest ← checkedSub u64Max partitionCount
  let rest ← checkedAdd 64 rest 1
  checkedAdd 64 (rest / partitionCount) 1

variable (p : Partition)

def startKeyPrefix (partitionWidth : ℕ) : Option ℕ :=
  if p.startIndex = 0 ∧ p.endIndex = 0 then some 0
  else do
    let next ← checkedAdd 64 p.startIndex 1
    if next = p.partitionCount then some u64Max else checkedMul 64 next partitionWidth

def endKeyPrefix (partitionWidth : ℕ) : Option ℕ := do
  let next ← checkedAdd 64 p.endIndex 1
  if next = p.partitionCount then some u64Max
  else do checkedSub (← checkedMul 64 next partitionWidth) 1

/-- A pair `n..=n` with `n ≠ 0`, which is made a range with one key. -/
def isNoop : Bool := p.startIndex ≠ 0 ∧ p.startIndex = p.endIndex

/-- `Bank::pubkey_range_from_partition`. -/
def pubkeyRange : Option KeyRange :=
  if p.startIndex ≤ p.endIndex ∧ p.startIndex < p.partitionCount ∧
      p.endIndex < p.partitionCount ∧ 0 < p.partitionCount then
    if p.partitionCount = 1 then
      if p.startIndex = 0 ∧ p.endIndex = 0 then
        some ⟨keyWithPrefix 0 false, keyWithPrefix u64Max true⟩
      else none
    else do
      let width ← partitionWidth p.partitionCount
      let startPrefix ← p.startKeyPrefix width
      let endPrefix ← p.endKeyPrefix width
      if p.isNoop then
        if endPrefix = u64Max then
          some ⟨keyWithPrefix endPrefix true, keyWithPrefix endPrefix true⟩
        else some ⟨keyWithPrefix startPrefix false, keyWithPrefix startPrefix false⟩
      else some ⟨keyWithPrefix startPrefix false, keyWithPrefix endPrefix true⟩
  else none

/-- The range of the partition has the key. -/
def contains (key : Pubkey) : Bool := p.pubkeyRange.any (·.contains key)

end Partition

/-! ### Collection cycles -/

/-- What the partitions of a bank depend on, besides its slot and the slot of its parent. -/
structure RentConfig where
  epochSchedule : EpochSchedule
  ticksPerSlot : ℕ
  /-- `ClusterType::MainnetBeta`. -/
  mainnetBeta : Bool

/-- `RentCollectionCycleParams`. -/
structure CycleParams where
  epoch : ℕ
  slotCountPerEpoch : ℕ
  inMultiEpochCycle : Bool
  baseEpoch : ℕ
  epochCountPerCycle : ℕ
  partitionCount : ℕ
  deriving DecidableEq

/-- `partition_index_from_slot_index`. -/
def CycleParams.partitionIndex (c : CycleParams) (slotIndex : ℕ) : Option ℕ := do
  let epochOffset ← checkedSub c.epoch c.baseEpoch
  if c.epochCountPerCycle = 0 then none
  else do
    let offset ← checkedMul 64 (epochOffset % c.epochCountPerCycle) c.slotCountPerEpoch
    checkedAdd 64 slotIndex offset

/-- `get_partition_from_slot_indexes`. -/
def CycleParams.partition (c : CycleParams) (startSlotIndex endSlotIndex : ℕ)
    (generatedForGappedEpochs : Bool) : Option Partition := do
  let startIndex ← c.partitionIndex startSlotIndex
  let endIndex ← c.partitionIndex endSlotIndex
  let isSpecialNewEpoch := startSlotIndex == 0 && endSlotIndex != 1
  if c.inMultiEpochCycle && isSpecialNewEpoch && decide (startIndex > 0) then
    -- adjust the indexes so that the final partition ranges are continuous
    if generatedForGappedEpochs then
      if startSlotIndex = endSlotIndex then
        return ⟨startIndex - 1, ← checkedSub endIndex 1, c.partitionCount⟩
      else none
    else return ⟨startIndex - 1, endIndex, c.partitionCount⟩
  else return ⟨startIndex, endIndex, c.partitionCount⟩

namespace RentConfig

variable (cfg : RentConfig)

/-- `slot_count_in_two_day`. -/
def slotCountInTwoDay : Option ℕ :=
  if cfg.ticksPerSlot = 0 then none else some (2 * 160 * 86400 / cfg.ticksPerSlot)

def slotCountPerNormalEpoch : ℕ :=
  cfg.epochSchedule.getSlotsInEpoch cfg.epochSchedule.firstNormalEpoch

/-- `use_multi_epoch_collection_cycle`. -/
def useMultiEpochCollectionCycle (epoch : ℕ) : Option Bool :=
  if cfg.slotCountPerNormalEpoch = minimumSlotsPerEpoch then some false
  else if epoch ≥ cfg.epochSchedule.firstNormalEpoch then
    cfg.slotCountInTwoDay.map fun count ↦ decide (cfg.slotCountPerNormalEpoch < count)
  else some false

/-- `use_fixed_collection_cycle`. -/
def useFixedCollectionCycle : Option Bool :=
  if cfg.slotCountPerNormalEpoch = minimumSlotsPerEpoch then some false
  else if !cfg.mainnetBeta then
    cfg.slotCountInTwoDay.map fun count ↦ decide (cfg.slotCountPerNormalEpoch < count)
  else some false

/-- `rent_single_epoch_collection_cycle_params`. -/
def singleEpochParams (epoch slotCountPerEpoch : ℕ) : CycleParams where
  epoch := epoch
  slotCountPerEpoch := slotCountPerEpoch
  inMultiEpochCycle := false
  baseEpoch := 0
  epochCountPerCycle := 1
  partitionCount := slotCountPerEpoch

/-- `determine_collection_cycle_params`. -/
def cycleParams (epoch : ℕ) : Option CycleParams := do
  let slotCountPerEpoch := cfg.epochSchedule.getSlotsInEpoch epoch
  match ← cfg.useMultiEpochCollectionCycle epoch with
  | false => return singleEpochParams epoch slotCountPerEpoch
  | true =>
    let slotCount ← cfg.slotCountInTwoDay
    if slotCountPerEpoch = 0 then none
    else
      let epochCountInCycle := slotCount / slotCountPerEpoch
      return {
        epoch := epoch
        slotCountPerEpoch := slotCountPerEpoch
        inMultiEpochCycle := true
        baseEpoch := cfg.epochSchedule.firstNormalEpoch
        epochCountPerCycle := epochCountInCycle
        partitionCount := ← checkedMul 64 slotCountPerEpoch epochCountInCycle }

/-- `do_partition_from_slot_indexes`, with the epoch. -/
def partitionFor (startSlotIndex endSlotIndex epoch : ℕ) (generatedForGappedEpochs : Bool) :
    Option (ℕ × Partition) := do
  let params ← cfg.cycleParams epoch
  return (epoch, ← params.partition startSlotIndex endSlotIndex generatedForGappedEpochs)

/-- The special partitions if slots are skipped exactly at an epoch transition. -/
def gappedPartitions (parentEpoch parentSlotIndex currentEpoch currentSlotIndex : ℕ) :
    Option (List (ℕ × Partition)) := do
  let parentLastSlotIndex ← checkedSub (cfg.epochSchedule.getSlotsInEpoch parentEpoch) 1
  let tail ← cfg.partitionFor parentSlotIndex parentLastSlotIndex parentEpoch true
  if currentSlotIndex > 0 then return [tail, ← cfg.partitionFor 0 0 currentEpoch true]
  else return [tail]

/-- The partitions of an epoch transition, if slots were skipped at it. -/
def transitionPartitions (distance parentEpoch parentSlotIndex currentEpoch currentSlotIndex : ℕ) :
    Option (List (ℕ × Partition)) :=
  let slotSkipped := distance > 1
  if slotSkipped then
    cfg.gappedPartitions parentEpoch parentSlotIndex currentEpoch currentSlotIndex
  else some []

section

variable (slot parentSlot : ℕ)

/-- `variable_cycle_partitions`, with the epoch each partition is made for. -/
def cyclePartitions : Option (List (ℕ × Partition)) := do
  let (currentEpoch, currentSlotIndex) ← cfg.epochSchedule.getEpochAndSlotIndex slot
  let (parentEpoch, parentSlotIndex) ← cfg.epochSchedule.getEpochAndSlotIndex parentSlot
  if parentEpoch < currentEpoch then
    let distance ← checkedSub slot parentSlot
    let gapped ← cfg.transitionPartitions distance parentEpoch parentSlotIndex currentEpoch
      currentSlotIndex
    return gapped ++ [← cfg.partitionFor 0 currentSlotIndex currentEpoch false]
  else return [← cfg.partitionFor parentSlotIndex currentSlotIndex currentEpoch false]

/-- `variable_cycle_partitions`. -/
def variableCyclePartitions : Option (List Partition) :=
  (cfg.cyclePartitions slot parentSlot).map (List.map Prod.snd)

/-- `Bank::get_partitions`, for cycles of a fixed length. -/
def getPartitions (slot parentSlot slotCountInTwoDay : ℕ) : Option (List Partition) :=
  if slotCountInTwoDay = 0 then none
  else
    let parentCycleIndex := parentSlot % slotCountInTwoDay
    let currentCycleIndex := slot % slotCountInTwoDay
    if parentSlot / slotCountInTwoDay < slot / slotCountInTwoDay then
      if currentCycleIndex > 0 then
        some [⟨parentCycleIndex, slotCountInTwoDay - 1, slotCountInTwoDay⟩,
          ⟨0, 0, slotCountInTwoDay⟩, ⟨0, currentCycleIndex, slotCountInTwoDay⟩]
      else some [⟨0, currentCycleIndex, slotCountInTwoDay⟩]
    else some [⟨parentCycleIndex, currentCycleIndex, slotCountInTwoDay⟩]

/-- `rent_collection_partitions`. -/
def rentCollectionPartitions : Option (List Partition) := do
  match ← cfg.useFixedCollectionCycle with
  | false => cfg.variableCyclePartitions slot parentSlot
  | true => getPartitions slot parentSlot (← cfg.slotCountInTwoDay)

end

/-! ### Chains -/

/-- The partitions of the banks of a chain, behind a parent. -/
def partitionsAfter (cfg : RentConfig) : ℕ → List ℕ → Option (List (ℕ × Partition))
  | _, [] => some []
  | parentSlot, slot :: chain => do
    let first ← cfg.cyclePartitions slot parentSlot
    let others ← partitionsAfter cfg slot chain
    return first ++ others

/-- The partitions of a chain from the bank of the slot 0, which is its own parent. -/
def partitionsAlong (chain : List ℕ) : Option (List (ℕ × Partition)) := do
  let first ← cfg.cyclePartitions 0 0
  let others ← cfg.partitionsAfter 0 chain
  return first ++ others

end RentConfig

end Renec
