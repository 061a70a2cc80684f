import Renec.Collections.SortedMap
import Renec.ForkChoice.Leaves

/-!
# Slot states and the cluster

What a validator does with its version of a block as it learns what the cluster says about the slot
(`core/src/cluster_slot_state_verifier.rs`): that there are duplicates, that a version is duplicate
confirmed, or that a version was frozen by a sample of the cluster.
-/

namespace Renec

/-- `is_duplicate_confirmed`. -/
def HeaviestSubtreeForkChoice.isDuplicateConfirmed (fc : HeaviestSubtreeForkChoice)
    (key : SlotHashKey) : Option Bool :=
  (fc.forkInfos.lookup key).map ForkInfo.isDuplicateConfirmed

namespace SlotState

inductive ClusterConfirmedHash where
  | duplicateConfirmed (hash : Hash)
  | epochSlotsFrozen (hash : Hash)
  deriving DecidableEq

inductive BankStatus where
  | frozen (hash : Hash)
  | dead
  | unprocessed
  deriving DecidableEq

namespace BankStatus

def newFromHash : Option Hash → BankStatus
  | some hash => if hash = default then unprocessed else frozen hash
  | none => unprocessed

def new (isDead : Bool) (hash : Option Hash) : BankStatus :=
  if isDead then dead else newFromHash hash

def bankHash : BankStatus → Option Hash
  | frozen hash => some hash
  | dead => some default
  | unprocessed => none

end BankStatus

structure DeadState where
  clusterConfirmedHash : Option ClusterConfirmedHash
  isSlotDuplicate : Bool

structure BankFrozenState where
  frozenHash : Hash
  clusterConfirmedHash : Option ClusterConfirmedHash
  isSlotDuplicate : Bool

structure DuplicateConfirmedState where
  duplicateConfirmedHash : Hash
  bankStatus : BankStatus

structure DuplicateState where
  duplicateConfirmedHash : Option Hash
  bankStatus : BankStatus

structure EpochSlotsFrozenState where
  epochSlotsFrozenHash : Hash
  duplicateConfirmedHash : Option Hash
  bankStatus : BankStatus

inductive SlotStateUpdate where
  | bankFrozen (state : BankFrozenState)
  | duplicateConfirmed (state : DuplicateConfirmedState)
  | dead (state : DeadState)
  | duplicate (state : DuplicateState)
  | epochSlotsFrozen (state : EpochSlotsFrozenState)

def SlotStateUpdate.bankHash : SlotStateUpdate → Option Hash
  | bankFrozen state => some state.frozenHash
  | duplicateConfirmed state => state.bankStatus.bankHash
  | dead _ => some default
  | duplicate state => state.bankStatus.bankHash
  | epochSlotsFrozen state => state.bankStatus.bankHash

inductive AncestorHashesReplayUpdate where
  | dead (slot : Slot)
  | deadDuplicateConfirmed (slot : Slot)
  deriving DecidableEq

inductive ResultingStateChange where
  | bankFrozen (hash : Hash)
  | markSlotDuplicate (hash : Hash)
  | repairDuplicateConfirmedVersion (hash : Hash)
  | duplicateConfirmedSlotMatchesCluster (hash : Hash)
  | sendAncestorHashesReplayUpdate (update : AncestorHashesReplayUpdate)
  deriving DecidableEq

/-! ### State changes -/

def checkDuplicateConfirmedHashAgainstFrozenHash (duplicateConfirmedHash bankFrozenHash : Hash) :
    List ResultingStateChange :=
  if duplicateConfirmedHash ≠ bankFrozenHash then
    [.markSlotDuplicate bankFrozenHash, .repairDuplicateConfirmedVersion duplicateConfirmedHash]
  else [.duplicateConfirmedSlotMatchesCluster bankFrozenHash]

def checkEpochSlotsHashAgainstFrozenHash (epochSlotsFrozenHash bankFrozenHash : Hash) :
    List ResultingStateChange :=
  if epochSlotsFrozenHash ≠ bankFrozenHash then
    [.markSlotDuplicate bankFrozenHash, .repairDuplicateConfirmedVersion epochSlotsFrozenHash]
  else []

def onDeadSlot (slot : Slot) (state : DeadState) : List ResultingStateChange :=
  match state.clusterConfirmedHash with
  | some (.duplicateConfirmed hash) =>
    .sendAncestorHashesReplayUpdate (.deadDuplicateConfirmed slot) ::
      checkDuplicateConfirmedHashAgainstFrozenHash hash default
  | some (.epochSlotsFrozen hash) => checkEpochSlotsHashAgainstFrozenHash hash default
  | none => .sendAncestorHashesReplayUpdate (.dead slot) ::
    if state.isSlotDuplicate then [.markSlotDuplicate default] else []

def onFrozenSlot (state : BankFrozenState) : List ResultingStateChange :=
  .bankFrozen state.frozenHash ::
    match state.clusterConfirmedHash with
    | some (.duplicateConfirmed hash) =>
      checkDuplicateConfirmedHashAgainstFrozenHash hash state.frozenHash
    | some (.epochSlotsFrozen hash) => checkEpochSlotsHashAgainstFrozenHash hash state.frozenHash
    | none => if state.isSlotDuplicate then [.markSlotDuplicate state.frozenHash] else []

def onDuplicateConfirmed (slot : Slot) (state : DuplicateConfirmedState) :
    List ResultingStateChange :=
  match state.bankStatus with
  | .unprocessed => []
  | .dead => .sendAncestorHashesReplayUpdate (.deadDuplicateConfirmed slot) ::
    checkDuplicateConfirmedHashAgainstFrozenHash state.duplicateConfirmedHash default
  | .frozen hash => checkDuplicateConfirmedHashAgainstFrozenHash state.duplicateConfirmedHash hash

def onDuplicate (state : DuplicateState) : List ResultingStateChange :=
  match state.bankStatus.bankHash with
  | none => []
  | some hash => if state.duplicateConfirmedHash.isNone then [.markSlotDuplicate hash] else []

def onEpochSlotsFrozen (state : EpochSlotsFrozenState) : List ResultingStateChange :=
  if state.duplicateConfirmedHash.isSome then []
  else
    match state.bankStatus.bankHash with
    | none => []
    | some hash => checkEpochSlotsHashAgainstFrozenHash state.epochSlotsFrozenHash hash

/-- There is nothing to do before the bank is frozen. -/
def SlotStateUpdate.intoStateChanges (update : SlotStateUpdate) (slot : Slot) :
    List ResultingStateChange :=
  if update.bankHash = none then []
  else
    match update with
    | .dead state => onDeadSlot slot state
    | .bankFrozen state => onFrozenSlot state
    | .duplicateConfirmed state => onDuplicateConfirmed slot state
    | .duplicate state => onDuplicate state
    | .epochSlotsFrozen state => onEpochSlotsFrozen state

/-! ### The tracked maps -/

/-- What the replay stage keeps about slots. -/
structure Tracked where
  duplicateSlotsTracker : Finset Slot
  gossipDuplicateConfirmedSlots : SortedMap Slot Hash
  epochSlotsFrozenSlots : SortedMap Slot Hash
  forkChoice : HeaviestSubtreeForkChoice
  duplicateSlotsToRepair : SortedMap Slot Hash
  /-- The column of bank hashes of the blockstore: the hash, and whether it is confirmed. -/
  bankHashes : SortedMap Slot (Hash × Bool)
  /-- The updates that were sent. -/
  replayUpdates : List AncestorHashesReplayUpdate
  /-- The hashes of the frozen banks. -/
  bankForks : SortedMap Slot Hash
  deadSlots : Finset Slot

def getDuplicateConfirmedHash (gossipDuplicateConfirmedHash bankFrozenHash : Option Hash)
    (isLocalReplayDuplicateConfirmed : Bool) : Option (Option Hash) := do
  let localDuplicateConfirmedHash ←
    if isLocalReplayDuplicateConfirmed then do
      let hash ← bankFrozenHash
      if hash = default then none else some (some hash)
    else some none
  match localDuplicateConfirmedHash, gossipDuplicateConfirmedHash with
  | some hash, some _ => return some hash
  | some hash, none => return some hash
  | none, gossip => return gossip

namespace Tracked

variable (s : Tracked) (slot : Slot)

variable (bankFrozenHash : Option Hash)

def isLocalReplayDuplicateConfirmed : Bool :=
  match bankFrozenHash with
  | some hash => (s.forkChoice.isDuplicateConfirmed ⟨slot, hash⟩).getD false
  | none => false

def getDuplicateConfirmedHashFromState : Option (Option Hash) :=
  getDuplicateConfirmedHash (s.gossipDuplicateConfirmedSlots.get? slot) bankFrozenHash
    (s.isLocalReplayDuplicateConfirmed slot bankFrozenHash)

def getClusterConfirmedHashFromState : Option (Option ClusterConfirmedHash) := do
  match ← s.getDuplicateConfirmedHashFromState slot bankFrozenHash with
  | some hash => return some (.duplicateConfirmed hash)
  | none => return (s.epochSlotsFrozenSlots.get? slot).map .epochSlotsFrozen

def bankStatus : BankStatus :=
  .new (decide (slot ∈ s.deadSlots)) (s.bankForks.get? slot)

/-- `BankFrozenState::new_from_state`. -/
def bankFrozenState (frozenHash : Hash) : Option BankFrozenState := do
  let clusterConfirmedHash ← s.getClusterConfirmedHashFromState slot (some frozenHash)
  if frozenHash = default then none
  else return ⟨frozenHash, clusterConfirmedHash, decide (slot ∈ s.duplicateSlotsTracker)⟩

/-- `DuplicateState::new_from_state`. -/
def duplicateState : Option DuplicateState := do
  return ⟨← s.getDuplicateConfirmedHashFromState slot (s.bankStatus slot).bankHash,
    s.bankStatus slot⟩

/-- `EpochSlotsFrozenState::new_from_state`. -/
def epochSlotsFrozenState (epochSlotsFrozenHash : Hash) : Option EpochSlotsFrozenState := do
  return ⟨epochSlotsFrozenHash,
    ← s.getDuplicateConfirmedHashFromState slot (s.bankStatus slot).bankHash, s.bankStatus slot⟩

/-- `insert_bank_hash` of the blockstore, for a hash that is not confirmed. -/
def insertBankHash (hash : Hash) : Tracked :=
  if s.bankHashes.get? slot = some (hash, true) then s
  else { s with bankHashes := s.bankHashes.insert slot (hash, false) }

/-- One round of `apply_state_changes`, with the local for a frozen bank that is not confirmed. -/
def applyStateChange (acc : Tracked × Option Hash) :
    ResultingStateChange → Option (Tracked × Option Hash)
  | .bankFrozen hash => do
    let confirmed ← acc.1.forkChoice.isDuplicateConfirmed ⟨slot, hash⟩
    return (acc.1, if confirmed then acc.2 else some hash)
  | .markSlotDuplicate hash => do
    let forkChoice ← acc.1.forkChoice.markForkInvalidCandidate ⟨slot, hash⟩
    return ({ acc.1 with forkChoice := forkChoice }, acc.2)
  | .repairDuplicateConfirmedVersion hash => return ({ acc.1 with
      duplicateSlotsToRepair := acc.1.duplicateSlotsToRepair.insert slot hash }, acc.2)
  | .duplicateConfirmedSlotMatchesCluster hash => do
    let (forkChoice, confirmed) ← acc.1.forkChoice.markForkValidCandidate ⟨slot, hash⟩
    return ({ acc.1 with
      forkChoice := forkChoice
      bankHashes := confirmed.foldl (fun m key ↦ m.insert key.slot (key.hash, true))
        acc.1.bankHashes
      duplicateSlotsToRepair := acc.1.duplicateSlotsToRepair.filterKeys fun k ↦ k ≠ slot }, none)
  | .sendAncestorHashesReplayUpdate update =>
    return ({ acc.1 with replayUpdates := acc.1.replayUpdates ++ [update] }, acc.2)

def applyStateChanges (s : Tracked) (changes : List ResultingStateChange) : Option Tracked := do
  let (s, notDuplicateConfirmedFrozenHash) ← changes.foldlM (applyStateChange slot) (s, none)
  match notDuplicateConfirmedFrozenHash with
  | some hash => return s.insertBankHash slot hash
  | none => return s

def checkSlotAgreesWithCluster (slot root : Slot) (s : Tracked) (update : SlotStateUpdate) :
    Option Tracked :=
  if slot ≤ root then some s
  else
    match update with
    | .duplicate _ =>
      -- a slot that has been processed before is not processed again
      if slot ∈ s.duplicateSlotsTracker then some s
      else { s with duplicateSlotsTracker := insert slot s.duplicateSlotsTracker }.applyStateChanges
        slot (update.intoStateChanges slot)
    | .duplicateConfirmed state =>
      if (state.bankStatus.bankHash.bind fun hash ↦
          s.forkChoice.isDuplicateConfirmed ⟨slot, hash⟩) = some true then some s
      else s.applyStateChanges slot (update.intoStateChanges slot)
    | .epochSlotsFrozen state =>
      let old := s.epochSlotsFrozenSlots.get? slot
      let s := { s with
        epochSlotsFrozenSlots := s.epochSlotsFrozenSlots.insert slot state.epochSlotsFrozenHash }
      if old = some state.epochSlotsFrozenHash then some s
      else s.applyStateChanges slot (update.intoStateChanges slot)
    | _ => s.applyStateChanges slot (update.intoStateChanges slot)

end Tracked

/-! ### Events -/

/-- What the replay stage learns about a slot. A confirmation comes from gossip, or from its own
replay of the votes on a frozen bank. -/
inductive Event where
  | bankFrozen
  | duplicate
  | duplicateConfirmed
  | replayConfirmed
  | epochSlotsFrozen
  deriving DecidableEq

/-- A slot with its bank, and what the cluster says about it. -/
structure Setting where
  slot : Slot
  root : Slot
  frozenHash : Hash
  parent : SlotHashKey
  duplicateConfirmedHash : Hash
  epochSlotsFrozenHash : Hash

namespace Tracked

def handle (S : Setting) (s : Tracked) : Event → Option Tracked
  | .bankFrozen => do
    let forkChoice ← s.forkChoice.addNewLeafSlot ⟨S.slot, S.frozenHash⟩ (some S.parent)
    let s := { s with forkChoice := forkChoice, bankForks :=
      s.bankForks.insert S.slot S.frozenHash }
    let state ← s.bankFrozenState S.slot S.frozenHash
    s.checkSlotAgreesWithCluster S.slot S.root (.bankFrozen state)
  | .duplicate => do
    let state ← s.duplicateState S.slot
    s.checkSlotAgreesWithCluster S.slot S.root (.duplicate state)
  | .duplicateConfirmed =>
    if S.slot ≤ S.root then some s
    else
      match s.gossipDuplicateConfirmedSlots.get? S.slot with
      | some prevHash => if prevHash = S.duplicateConfirmedHash then some s else none
      | none =>
        let s := { s with gossipDuplicateConfirmedSlots :=
          s.gossipDuplicateConfirmedSlots.insert S.slot S.duplicateConfirmedHash }
        s.checkSlotAgreesWithCluster S.slot S.root
          (.duplicateConfirmed ⟨S.duplicateConfirmedHash, s.bankStatus S.slot⟩)
  | .replayConfirmed => s.checkSlotAgreesWithCluster S.slot S.root
      (.duplicateConfirmed ⟨S.frozenHash, .new false (some S.frozenHash)⟩)
  | .epochSlotsFrozen => do
    let state ← s.epochSlotsFrozenState S.slot S.epochSlotsFrozenHash
    s.checkSlotAgreesWithCluster S.slot S.root (.epochSlotsFrozen state)

end Tracked

end SlotState

end Renec
