import Renec.Collections.Positions
import Renec.Gossip.Shards
import Renec.Gossip.Values

/-!
# The replicated data store

The table of gossip values, of which there is one a label, with its indexes (`gossip/src/crds.rs`).

Index sets and index maps are sorted here; the order in which they are iterated is used by `trim`
only, which drops whole pubkeys. The ordinals are natural numbers.
-/

namespace Renec.Gossip

inductive CrdsError where
  | insertFailed
  | unknownStakes
  deriving DecidableEq

structure VersionedCrdsValue where
  /-- Ordinal index indicating insert order. -/
  ordinal : ℕ
  value : CrdsValue
  /-- Local time when updated. -/
  localTimestamp : ℕ
  valueHash : Hash
  deriving DecidableEq

/-- `Cursor::consume`. -/
def consume (cursor ordinal : ℕ) : ℕ := max cursor (ordinal + 1)

structure Crds where
  table : List (CrdsValueLabel × VersionedCrdsValue)
  /-- Next insert ordinal location. -/
  cursor : ℕ
  shards : CrdsShards
  /-- Indices of nodes' contact info. -/
  nodes : Finset ℕ
  /-- Indices of votes keyed by insert order. -/
  votes : SortedMap ℕ ℕ
  /-- Indices of epoch slots keyed by insert order. -/
  epochSlots : SortedMap ℕ ℕ
  /-- Indices of all values associated with a node. -/
  records : SortedMap Pubkey (Finset ℕ)
  /-- Indices of all entries keyed by insert order. -/
  entries : SortedMap ℕ ℕ
  /-- Hash of recently purged values. -/
  purged : List (Hash × ℕ)
  shredVersions : SortedMap Pubkey ℕ

/-- `CRDS_SHARDS_BITS`. -/
def crdsShardsBits : ℕ := 12

section

variable (hash : CrdsValue → Hash)

def VersionedCrdsValue.new (value : CrdsValue) (cursor localTimestamp : ℕ) : VersionedCrdsValue :=
  ⟨cursor, value, localTimestamp, hash value⟩

/-- `NodeInstance::overrides`. -/
def NodeInstance.overrides (self : NodeInstance) (other : CrdsValue) : Option Bool :=
  match other.data with
  | .nodeInstance other =>
    if self.token = other.token ∨ self.fromKey ≠ other.fromKey then none
    else if self.timestamp < other.timestamp then some false
    else if self.timestamp > other.timestamp then some true
    else some (decide (other.token < self.token))
  | _ => none

/-- The special case of node instances. -/
def overridesInstance (data : CrdsData) (other : CrdsValue) : Option Bool :=
  match data with
  | .nodeInstance node => node.overrides other
  | _ => none

/-- Whether a value updates another one of the same label. -/
def overrides (value : CrdsValue) (other : VersionedCrdsValue) : Option Bool :=
  if value.label = other.value.label then
    some ((overridesInstance value.data other.value).getD
      (if value.wallclock < other.value.wallclock then false
      else if value.wallclock > other.value.wallclock then true
      else decide (other.valueHash < hash value)))
  else none

namespace Crds

def default : Crds := ⟨[], 0, .new crdsShardsBits, ∅, .empty, .empty, .empty, .empty, [], .empty⟩

/-- The shred version of a contact info is stored. -/
def storeShredVersion (shredVersions : SortedMap Pubkey ℕ) (value : CrdsValue) :
    SortedMap Pubkey ℕ :=
  match value.data with
  | .contactInfo node => shredVersions.insert value.pubkey node.shredVersion
  | _ => shredVersions

variable (crds : Crds)

/-- The value of a label that is not in the table. -/
def insertVacant (value : VersionedCrdsValue) : Option Crds := do
  let entryIndex := crds.table.length
  let data := value.value.data
  return {
    table := crds.table ++ [(value.value.label, value)]
    cursor := consume crds.cursor value.ordinal
    shards := ← crds.shards.insert entryIndex value.valueHash
    nodes := if data.isContactInfo then insert entryIndex crds.nodes else crds.nodes
    votes := if data.isVote then crds.votes.insert value.ordinal entryIndex else crds.votes
    epochSlots :=
      if data.isEpochSlots then crds.epochSlots.insert value.ordinal entryIndex
      else crds.epochSlots
    records := crds.records.insert value.value.pubkey
      (insert entryIndex ((crds.records.get? value.value.pubkey).getD ∅))
    entries := crds.entries.insert value.ordinal entryIndex
    purged := crds.purged
    shredVersions := storeShredVersion crds.shredVersions value.value }

def replaceOrdinal (m : SortedMap ℕ ℕ) (old new index : ℕ) : SortedMap ℕ ℕ :=
  (m.filterKeys fun ordinal ↦ ordinal ≠ old).insert new index

/-- The value at a position is updated. The assertions are those of a debug build. -/
def insertOccupied (entryIndex : ℕ) (entry value : VersionedCrdsValue) (now : ℕ) : Option Crds := do
  let data := value.value.data
  let shards ← crds.shards.remove entryIndex entry.valueHash
  let shards ← shards.insert entryIndex value.valueHash
  if (data.isContactInfo → entry.value.data.isContactInfo) ∧
      entry.value.pubkey = value.value.pubkey then
    return {
      table := crds.table.set entryIndex (value.value.label, value)
      cursor := consume crds.cursor value.ordinal
      shards := shards
      nodes := crds.nodes
      votes :=
        if data.isVote then replaceOrdinal crds.votes entry.ordinal value.ordinal entryIndex
        else crds.votes
      epochSlots :=
        if data.isEpochSlots then
          replaceOrdinal crds.epochSlots entry.ordinal value.ordinal entryIndex
        else crds.epochSlots
      records := crds.records
      entries := replaceOrdinal crds.entries entry.ordinal value.ordinal entryIndex
      purged := crds.purged ++ [(entry.valueHash, now)]
      shredVersions := storeShredVersion crds.shredVersions value.value }
  else none

/-- The position and the entry of a label. -/
def lookup (label : CrdsValueLabel) : Option (ℕ × VersionedCrdsValue) := do
  let index ← crds.table.findIdx? fun e ↦ e.1 = label
  let entry ← crds.table[index]?
  return (index, entry.2)

def insert (value : CrdsValue) (now : ℕ) : Option (Crds × Except CrdsError Unit) :=
  let value := VersionedCrdsValue.new hash value crds.cursor now
  match crds.lookup value.value.label with
  | none => (crds.insertVacant value).map fun crds ↦ (crds, .ok ())
  | some (entryIndex, entry) => do
    if ← overrides hash value.value entry then
      (crds.insertOccupied entryIndex entry value now).map fun crds ↦ (crds, .ok ())
    else
      let purged :=
        if entry.valueHash ≠ value.valueHash then crds.purged ++ [(value.valueHash, now)]
        else crds.purged
      return ({ crds with purged := purged }, .error .insertFailed)

/-- The first part of `remove`: an entry leaves the indexes. -/
def unindex (index : ℕ) (value : VersionedCrdsValue) (now : ℕ) : Option Crds := do
  let data := value.value.data
  let pubkey := value.value.pubkey
  let indices := (← crds.records.get? pubkey).erase index
  let records := crds.records.filterKeys fun key ↦ key ≠ pubkey
  return { crds with
    shards := ← crds.shards.remove index value.valueHash
    nodes := if data.isContactInfo then crds.nodes.erase index else crds.nodes
    votes :=
      if data.isVote then crds.votes.filterKeys fun ordinal ↦ ordinal ≠ value.ordinal
      else crds.votes
    epochSlots :=
      if data.isEpochSlots then crds.epochSlots.filterKeys fun ordinal ↦ ordinal ≠ value.ordinal
      else crds.epochSlots
    records := if indices = ∅ then records else crds.records.insert pubkey indices
    entries := crds.entries.filterKeys fun ordinal ↦ ordinal ≠ value.ordinal
    purged := crds.purged ++ [(value.valueHash, now)]
    shredVersions :=
      if indices = ∅ then crds.shredVersions.filterKeys fun key ↦ key ≠ pubkey
      else crds.shredVersions }

/-- The second part of `remove`: an entry of the table has moved to `index`. -/
def moveIndex (size index : ℕ) (value : VersionedCrdsValue) : Option Crds := do
  let data := value.value.data
  let pubkey := value.value.pubkey
  let shards ← crds.shards.remove size value.valueHash
  return { crds with
    shards := ← shards.insert index value.valueHash
    nodes :=
      if data.isContactInfo then Insert.insert index (crds.nodes.erase size) else crds.nodes
    votes := if data.isVote then crds.votes.insert value.ordinal index else crds.votes
    epochSlots :=
      if data.isEpochSlots then crds.epochSlots.insert value.ordinal index else crds.epochSlots
    records := crds.records.insert pubkey
      (Insert.insert index ((← crds.records.get? pubkey).erase size))
    entries := crds.entries.insert value.ordinal index }

def remove (key : CrdsValueLabel) (now : ℕ) : Option Crds :=
  match crds.lookup key with
  | none => some crds
  | some (index, value) => do
    let crds ← { crds with table := crds.table.swapRemove index }.unindex index value now
    let size := crds.table.length
    if index < size then crds.moveIndex size index (← crds.table[index]?).2 else return crds

/-! ### Queries and other updates -/

/-- The entries of an index since a cursor. -/
def valuesSince (m : SortedMap ℕ ℕ) (cursor : ℕ) : Option (List VersionedCrdsValue) :=
  (m.entries.filter fun e ↦ cursor ≤ e.1).mapM fun e ↦ (crds.table[e.2]?).map Prod.snd

def getVotes (cursor : ℕ) : Option (List VersionedCrdsValue) :=
  crds.valuesSince crds.votes cursor

def getEpochSlots (cursor : ℕ) : Option (List VersionedCrdsValue) :=
  crds.valuesSince crds.epochSlots cursor

def getEntries (cursor : ℕ) : Option (List VersionedCrdsValue) :=
  crds.valuesSince crds.entries cursor

/-- The timestamp of the entry at a position is raised. -/
def touch (now : ℕ) (table : List (CrdsValueLabel × VersionedCrdsValue)) (index : ℕ) :
    Option (List (CrdsValueLabel × VersionedCrdsValue)) :=
  (table[index]?).map fun e ↦
    table.set index (e.1, { e.2 with localTimestamp := max e.2.localTimestamp now })

def updateRecordTimestamp (pubkey : Pubkey) (now : ℕ) : Option Crds :=
  match crds.lookup (.contactInfo pubkey) with
  | some (index, _) => (touch now crds.table index).map fun table ↦ { crds with table := table }
  | none =>
    match crds.records.get? pubkey with
    | some indices =>
      ((indices.sort (· ≤ ·)).foldlM (touch now) crds.table).map fun table ↦
        { crds with table := table }
    | none => some crds

def shouldTrim (cap : ℕ) : Bool := 10 * crds.records.entries.length > 11 * cap

/-- Drop the values of the `size` pubkeys with the lowest stake. -/
def drop (size : ℕ) (keep : List Pubkey) (stakes : SortedMap Pubkey ℕ) (now : ℕ) :
    Option (Crds × Except CrdsError ℕ) :=
  if stakes.entries.all fun e ↦ e.2 = 0 then some (crds, .error .unknownStakes)
  else do
    let keys := crds.records.entries.map fun e ↦ toLex ((stakes.get? e.1).getD 0, e.1)
    let keys := ((keys.mergeSort (· ≤ ·)).take size).map fun k ↦ (ofLex k).2
    let indices ← (keys.filter fun k ↦ k ∉ keep).mapM fun k ↦ crds.records.get? k
    let labels ← (indices.flatMap fun s ↦ s.sort (· ≤ ·)).mapM fun i ↦
      (crds.table[i]?).map Prod.fst
    let crds ← labels.foldlM (fun crds key ↦ crds.remove key now) crds
    return (crds, .ok labels.length)

def trim (cap : ℕ) (keep : List Pubkey) (stakes : SortedMap Pubkey ℕ) (now : ℕ) :
    Option (Crds × Except CrdsError ℕ) :=
  if crds.shouldTrim cap then crds.drop (crds.records.entries.length - cap) keep stakes now
  else some (crds, .ok 0)

end Crds

end

end Renec.Gossip
