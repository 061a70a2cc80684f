import Renec.AccountsDb.Index
import Renec.Collections.SortedMap
import Renec.Machine.Outcome
import Renec.Sdk.Account

/-!
# Storing and cleaning accounts

`AccountsDb` (`runtime/src/accounts_db.rs`) keeps the accounts of a slot in a storage that is only
ever appended to; a newer version of an account is written to the storage of a newer slot, and
`cleanAccounts` removes what is outdated.

The hash maps and sets of the source are iterated in no particular order: `HashOrder` is a choice of
the order, and what is proved holds for each. Panics are `none`. Slots that are not rooted,
shrinking, secondary indexes and statistics are left out.
-/

namespace Renec

open Prod

/-- The account that is stored for an address: one without lamports is stored as the default. -/
def Account.stored (account : Account) : Account :=
  if account.lamports = 0 then ⟨0, [], ⟨0⟩, false, 0⟩ else account

@[simp] lemma Account.lamports_stored (account : Account) :
    account.stored.lamports = account.lamports := by
  rw [Account.stored]
  split_ifs with h
  · exact h.symm
  · rfl

/-- `AccountStorageEntry`, with the accounts of its append vector. -/
structure AccountStorageEntry where
  id : ℕ
  accounts : List (Pubkey × Account)
  /-- The number of accounts to which the index points. -/
  count : ℕ
  deriving DecidableEq

namespace AccountStorageEntry

variable (store : AccountStorageEntry)

def keys : List Pubkey := store.accounts.map fst

/-- One account fewer is alive. The assertion is against a double remove. -/
def removeAccount : Option AccountStorageEntry :=
  if store.count = 0 then none else some { store with count := store.count - 1 }

/-- The addresses of the storage with the place of the account. -/
def infos : List (Pubkey × AccountInfo) :=
  store.accounts.mapIdx fun i p ↦ (p.1, ⟨.appendVec store.id, i, p.2.lamports⟩)

end AccountStorageEntry

/-- The order in which hash maps and hash sets are iterated. -/
structure HashOrder where
  keys : List Pubkey → List Pubkey
  keys_perm : ∀ l, (keys l).Perm l
  pairs : List (Slot × Pubkey) → List (Slot × Pubkey)
  pairs_perm : ∀ l, (pairs l).Perm l
  ids : List StoreId → List StoreId
  ids_perm : ∀ l, (ids l).Perm l

/-- The order in which the model has the elements. -/
def HashOrder.asIs : HashOrder :=
  ⟨id, List.Perm.refl, id, List.Perm.refl, id, List.Perm.refl⟩

structure AccountsDb where
  accountsIndex : AccountsIndex
  storage : SortedMap Slot AccountStorageEntry
  nextId : ℕ
  /-- The addresses updated in the slots that have not been cleaned. -/
  uncleanedPubkeys : SortedMap Slot (List Pubkey)
  /-- Storages that had accounts removed. -/
  dirtyStores : List (Slot × AccountStorageEntry)
  zeroLamportAccountsToPurgeAfterFullSnapshot : List (Slot × Pubkey)

namespace AccountsDb

/-- A new database. -/
def default : AccountsDb where
  accountsIndex := ⟨∅, ∅, 0, ∅⟩
  storage := .empty
  nextId := 0
  uncleanedPubkeys := .empty
  dirtyStores := []
  zeroLamportAccountsToPurgeAfterFullSnapshot := []

/-! ### Reclaiming -/

variable (db : AccountsDb)

/-- `AccountStorage::get_account_storage_entry`. -/
def getAccountStorageEntry (slot : Slot) (storeId : StoreId) : Option AccountStorageEntry :=
  (db.storage.get? slot).filter fun store ↦ decide (.appendVec store.id = storeId)

/-- `ReclaimResult`: the addresses of the storages that were removed, with their slots, and the
places of the reclaimed accounts. -/
structure ReclaimResult where
  purgedAccountSlots : List (Slot × Pubkey)
  reclaimedOffsets : List (StoreId × ℕ)

/-- Take the reclaimed accounts off the counts of their storages. The slots whose last account goes
are returned. -/
def removeAccounts : SlotList → AccountsDb → Option (AccountsDb × List Slot)
  | [], db => some (db, [])
  | (slot, info) :: reclaims, db =>
    if info.isCached then none
    else
      match db.getAccountStorageEntry slot info.storeId with
      | none => removeAccounts reclaims db
      | some store => do
        let store ← store.removeAccount
        let db := { db with storage := db.storage.insert slot store }
        if store.count = 0 then
          let db := { db with dirtyStores := (slot, store) :: db.dirtyStores }
          let (db, deadSlots) ← removeAccounts reclaims db
          return (db, deadSlots.insert slot)
        else removeAccounts reclaims db

/-- The dead slots are those that have no other live storage. -/
def removeDeadAccounts (reclaims : SlotList) : Option (AccountsDb × List Slot) := do
  let (db, deadSlots) ← removeAccounts reclaims db
  return (db, deadSlots.filter fun slot ↦
    (db.storage.get? slot).all fun store ↦ decide (store.count = 0))

/-- `BATCH_SIZE` of `clean_dead_slots_from_accounts_index`. -/
def batchSize : ℕ := 10000

/-- The references of the removed storages are taken back in batches. The number of batches is
computed from the length of `purgedStored`, the map in which the removed addresses are going to be
recorded. -/
def unrefBatches (purged : List (Slot × Pubkey)) (purgedStored : List (Slot × Pubkey))
    (index : AccountsIndex) : AccountsIndex :=
  let len := (purgedStored.map snd).dedup.length
  let batches := 1 + len / batchSize
  ((List.range batches).flatMap fun batch ↦
    (purged.drop (batch * batchSize)).take batchSize).foldl
      (fun index p ↦ index.unrefFromStorage p.2) index

/-- The addresses in the storages of some slots. -/
def slotPubkeys (slots : List Slot) : List (Slot × Pubkey) :=
  slots.flatMap fun slot ↦
    ((db.storage.get? slot).map fun store ↦ store.keys.map fun key ↦ (slot, key)).getD []

/-- Remove dead slots, from the index and from the storage. The assertion is that they are no roots
any more. -/
def processDeadSlots (deadSlots : List Slot) (purgedAccountSlots : List (Slot × Pubkey))
    (order : HashOrder) : Option (AccountsDb × List (Slot × Pubkey)) :=
  if deadSlots.isEmpty then some (db, purgedAccountSlots)
  else
    let purged := order.pairs (db.slotPubkeys deadSlots).dedup
    let index := unrefBatches purged purgedAccountSlots db.accountsIndex
    let index := deadSlots.foldl AccountsIndex.cleanDeadSlot index
    if deadSlots.any fun slot ↦ decide (slot ∈ index.roots) then none
    else some
      ({ db with
          accountsIndex := index
          storage := db.storage.filterKeys fun slot ↦ decide (slot ∉ deadSlots) },
        purged ++ purgedAccountSlots)

/-- Remove reclaimed accounts from the counts of their storages, and the storages that are dead
then. -/
def handleReclaims (reclaims : SlotList) (order : HashOrder) :
    Option (AccountsDb × ReclaimResult) := do
  if reclaims.isEmpty then return (db, ⟨[], []⟩)
  let (db, deadSlots) ← db.removeDeadAccounts reclaims
  let (db, purgedAccountSlots) ← db.processDeadSlots deadSlots [] order
  return (db, ⟨purgedAccountSlots, reclaims.map fun item ↦ (item.2.storeId, item.2.offset)⟩)

/-! ### Writing a slot -/

section

variable (slot : Slot) (accounts : List (Pubkey × Account))

/-- Store the accounts of a slot in the cache: the index points to the cache. -/
def storeCached : Option AccountsDb := do
  if accounts.isEmpty then return db
  let infos := accounts.map fun p ↦ (p.1, AccountInfo.cached p.2.lamports)
  let (index, reclaims) ← db.accountsIndex.updateIndex slot true infos
  if reclaims.all fun item ↦ item.2.isCached then return { db with accountsIndex := index }
  else none

/-- What `get_accounts_delta_hash` records when a bank is frozen. -/
def recordUncleanedPubkeys (dirtyKeys : List Pubkey) : AccountsDb :=
  { db with uncleanedPubkeys := db.uncleanedPubkeys.insert slot dirtyKeys }

/-- Flush the accounts of a slot from the cache to a new storage. What the store reclaims of its own
slot must not leave a dead slot. -/
def flushSlotCache (slotCache : List (Pubkey × Account)) : Option AccountsDb := do
  if slotCache.isEmpty then return db
  let store : AccountStorageEntry :=
    ⟨db.nextId, slotCache.map fun p ↦ (p.1, p.2.stored), slotCache.length⟩
  let db :=
    { db with
      storage := db.storage.insert slot store
      nextId := db.nextId + 1 }
  let (index, reclaims) ← db.accountsIndex.updateIndex slot false store.infos
  let reclaims := reclaims.filter fun item ↦ !item.2.isCached
  let (db, deadSlots) ← { db with accountsIndex := index }.removeDeadAccounts reclaims
  if deadSlots.isEmpty then return db else none

/-- A slot is written, rooted and flushed. -/
def writeRootAndFlush : Option AccountsDb := do
  let db ← db.storeCached slot accounts
  let db := db.recordUncleanedPubkeys slot (accounts.map fst)
  let index ← db.accountsIndex.addRoot slot
  let db ← { db with accountsIndex := index }.flushSlotCache slot accounts
  return { db with accountsIndex := db.accountsIndex.addUncleanedRoot slot }

end

/-! ### Cleaning -/

variable (maxCleanRoot lastFullSnapshotSlot : Option Slot)

/-- The addresses to look at: those of the dirty stores and of the uncleaned slots, and those
without lamports that had to wait for a full snapshot. They are taken off these lists. -/
def constructCandidateCleanKeys (order : HashOrder) : Option (AccountsDb × List Pubkey) :=
  let maxSlot := maxCleanRoot.getD db.accountsIndex.maxRoot
  let dirty := db.dirtyStores.filter fun s ↦ decide (s.1 ≤ maxSlot)
  let delta := db.uncleanedPubkeys.filterKeys fun slot ↦ decide (slot ≤ maxSlot)
  let pubkeys := (dirty.flatMap (fun s ↦ s.2.keys) ++ delta.entries.flatMap snd).dedup
  let isCandidateForClean : Slot × Pubkey → Bool := fun p ↦
    decide (p.1 ≤ maxSlot) && lastFullSnapshotSlot.any fun full ↦ decide (p.1 ≤ full)
  let waiting := db.zeroLamportAccountsToPurgeAfterFullSnapshot
  if lastFullSnapshotSlot.isNone && !waiting.isEmpty then none
  else some
    ({ db with
        dirtyStores := db.dirtyStores.filter fun s ↦ decide (maxSlot < s.1)
        uncleanedPubkeys := db.uncleanedPubkeys.filterKeys fun slot ↦ decide (maxSlot < slot)
        zeroLamportAccountsToPurgeAfterFullSnapshot :=
          waiting.filter fun p ↦ !isCandidateForClean p },
      order.keys (pubkeys ++ (waiting.filter isCandidateForClean).map snd))

/-- What is known about an address without lamports: its rooted entries and its reference count. -/
structure Purge where
  accountInfos : SlotList
  refCount : ℕ
  deriving DecidableEq

/-- `purges_zero_lamports`. -/
abbrev Purges := List (Pubkey × Purge)

/-- What the scan finds for an address: whether it is one without lamports, and whether it may have
entries that are outdated. -/
def scanKey (index : AccountsIndex) (maxCleanRoot : Option Slot) (key : Pubkey) :
    Option (Pubkey × Purge) × Bool :=
  match index.accountMaps.lookup key with
  | none => (none, false)
  | some entry =>
    match latestSlot index.roots entry.slotList maxCleanRoot with
    | some (slot, info) =>
      (if info.lamports = 0 then
          some (key, ⟨getRootedEntries index.roots entry.slotList maxCleanRoot, entry.refCount⟩)
        else none,
        decide (slot ∈ index.uncleanedRoots))
    | none => (none, true)

/-- `purge_older_root_entries` for some addresses; all that is reclaimed is collected. -/
def cleanOldEntries (maxCleanRoot : Option Slot) :
    List Pubkey → AccountsIndex → AccountsIndex × SlotList
  | [], index => (index, [])
  | key :: keys, index =>
    let (cleaned, reclaims) := index.cleanRootedEntries key maxCleanRoot
    let (cleaned, more) := cleanOldEntries maxCleanRoot keys cleaned
    (cleaned, reclaims ++ more)

def cleanAccountsOlderThanRoot (purges : List Pubkey) (maxCleanRoot : Option Slot)
    (order : HashOrder) : Option (AccountsDb × ReclaimResult) :=
  let (index, reclaims) := cleanOldEntries maxCleanRoot purges db.accountsIndex
  { db with accountsIndex := index }.handleReclaims reclaims order

/-- `store_counts`: how many accounts a storage would have if all the purges in it were made, and
the addresses of these. -/
abbrev StoreCounts := Finmap fun _ : StoreId ↦ ℕ × List Pubkey

/-- The count of a storage so far, which is at first the one of the storage itself. -/
def storeCount (db : AccountsDb) (counts : StoreCounts) (slot : Slot) (info : AccountInfo) :
    Option (ℕ × List Pubkey) :=
  match counts.lookup info.storeId with
  | some storeCount => some storeCount
  | none =>
    if info.isCached then none
    else (db.getAccountStorageEntry slot info.storeId).map fun store ↦ (store.count, [])

/-- Keep the entries of an address that were not reclaimed, and count them off their storages. -/
def retainAccountInfos (db : AccountsDb) (result : ReclaimResult) (key : Pubkey) :
    SlotList → StoreCounts → Option (SlotList × StoreCounts)
  | [], counts => some ([], counts)
  | (slot, info) :: rest, counts =>
    if (slot, key) ∈ result.purgedAccountSlots ∨
        (info.storeId, info.offset) ∈ result.reclaimedOffsets
    then retainAccountInfos db result key rest counts
    else do
      let (count, keys) ← db.storeCount counts slot info
      let count ← checkedSub count 1
      let (infos, counts) ←
        retainAccountInfos db result key rest (counts.insert info.storeId (count, keys.insert key))
      return ((slot, info) :: infos, counts)

/-- The reference count of an address is read again if a storage with the address was removed. -/
def refreshRefCount (index : AccountsIndex) (result : ReclaimResult) (key : Pubkey)
    (refCount : ℕ) : ℕ :=
  if result.purgedAccountSlots.any fun p ↦ decide (p.2 = key) then index.refCountFromStorage key
  else refCount

/-- The store counts as if everything was purged. -/
def calcStoreCounts (db : AccountsDb) (result : ReclaimResult) :
    Purges → StoreCounts → Option (Purges × StoreCounts)
  | [], counts => some ([], counts)
  | (key, purge) :: rest, counts => do
    let refCount := refreshRefCount db.accountsIndex result key purge.refCount
    let (infos, counts) ← retainAccountInfos db result key purge.accountInfos counts
    let (rest, counts) ← calcStoreCounts db result rest counts
    return ((key, ⟨infos, refCount⟩) :: rest, counts)

/-- Whether a storage of one of the entries would keep an account. -/
def anyStoreAlive (counts : StoreCounts) : SlotList → Option Bool
  | [] => some false
  | (_, info) :: rest => do
    let (count, _) ← counts.lookup info.storeId
    if count ≠ 0 then return true else anyStoreAlive counts rest

/-- The storages of an address. -/
def Purge.storeIds (purge : Purge) : List StoreId :=
  purge.accountInfos.map fun item ↦ item.2.storeId

/-- Put ids into the set of pending ones, unless they have been counted. -/
def addPending (counted : List StoreId) (ids pending : List StoreId) : List StoreId :=
  ids.foldl (fun pending id ↦ if id ∈ counted then pending else pending.insert id) pending

/-- Each pending storage stays: so its count goes up, and the other storages of the accounts in it
have to stay as well. The recursion is on a bound for the number of storages. -/
def countPending (order : HashOrder) (purges : Purges) :
    ℕ → List StoreId → StoreCounts → List StoreId → Option (StoreCounts × List StoreId)
  | 0, pending, counts, counted => if pending.isEmpty then some (counts, counted) else none
  | fuel + 1, pending, counts, counted =>
    match order.ids pending with
    | [] => some (counts, counted)
    | id :: rest =>
      if id ∈ counted then countPending order purges fuel rest counts counted
      else do
        let (count, keys) ← counts.lookup id
        let affected ← keys.mapM fun key ↦ purges.lookup key
        countPending order purges fuel
          (addPending (id :: counted) (affected.flatMap Purge.storeIds) rest)
          (counts.insert id (count + 1, keys)) (id :: counted)

/-- An address cannot be purged if it has a version outside of the storages considered, or is in a
storage that stays. -/
def noDelete (counts : StoreCounts) (purge : Purge) : Option Bool :=
  if purge.accountInfos.length ≠ purge.refCount then some true
  else anyStoreAlive counts purge.accountInfos

/-- The storages of an address that cannot be purged stay, and those that depend on them. -/
def keepStores (order : HashOrder) (purges : Purges) (noDelete : Bool) (purge : Purge)
    (counts : StoreCounts) (counted : List StoreId) : Option (StoreCounts × List StoreId) :=
  if noDelete then
    countPending order purges counts.keys.card (addPending counted purge.storeIds []) counts counted
  else some (counts, counted)

/-- Find the storages that stay because some account in them cannot be purged. -/
def calcDeleteDependencies (order : HashOrder) (purges : Purges) :
    Purges → StoreCounts → List StoreId → Option StoreCounts
  | [], counts, _ => some counts
  | (_, purge) :: rest, counts, counted => do
    let noDelete ← noDelete counts purge
    let (counts, counted) ← keepStores order purges noDelete purge counts counted
    calcDeleteDependencies order purges rest counts counted

/-- The purges that can be made, as no storage with the address stays. Those in a slot after the
last full snapshot have to wait, if there are incremental snapshots. -/
def filterZeroLamportCleanForIncrementalSnapshots (counts : StoreCounts) :
    Purges → Option (Purges × List (Slot × Pubkey))
  | [] => some ([], [])
  | (key, purge) :: rest => do
    let (kept, waiting) ← filterZeroLamportCleanForIncrementalSnapshots counts rest
    if ← anyStoreAlive counts purge.accountInfos then return (kept, waiting)
    if ¬ lastFullSnapshotSlot.getD u64Max < maxCleanRoot.getD u64Max then
      return ((key, purge) :: kept, waiting)
    match purge.accountInfos.argmax fst with
    | none => return ((key, purge) :: kept, waiting)
    | some (slot, info) =>
      if info.lamports ≠ 0 then none
      else
        let lastFullSnapshotSlot ← lastFullSnapshotSlot
        if lastFullSnapshotSlot < slot then return (kept, (slot, key) :: waiting)
        else return ((key, purge) :: kept, waiting)

/-- `purge_exact` for each of the purges: what is reclaimed, and the addresses without entries. -/
def purgeEntries : Purges → AccountsIndex → AccountsIndex × SlotList × List Pubkey
  | [], index => (index, [], [])
  | (key, purge) :: rest, index =>
    let (purged, reclaims, isEmpty) := index.purgeExact key purge.accountInfos.slots
    let (purged, more, deadKeys) := purgeEntries rest purged
    (purged, reclaims ++ more, if isEmpty then key :: deadKeys else deadKeys)

/-- Remove the entries of the purges from the index. -/
def purgeKeysExact (index : AccountsIndex) (purges : Purges) : AccountsIndex × SlotList :=
  let (purged, reclaims, deadKeys) := purgeEntries purges index
  (purged.handleDeadKeys deadKeys, reclaims)

/-- **`clean_accounts`**: purge zero lamport accounts and older rooted account states. -/
def cleanAccounts (order : HashOrder) : Option AccountsDb := do
  let (db, pubkeys) ← db.constructCandidateCleanKeys maxCleanRoot lastFullSnapshotSlot order
  let purgesZeroLamports :=
    pubkeys.dedup.filterMap fun key ↦ (scanKey db.accountsIndex maxCleanRoot key).1
  let purgesOldAccounts := pubkeys.filter fun key ↦ (scanKey db.accountsIndex maxCleanRoot key).2
  let (db, result) ← db.cleanAccountsOlderThanRoot purgesOldAccounts maxCleanRoot order
  let db := { db with accountsIndex := db.accountsIndex.resetUncleanedRoots maxCleanRoot }
  let (purges, counts) ← db.calcStoreCounts result purgesZeroLamports ∅
  let counts ← calcDeleteDependencies order purges purges counts []
  let (kept, waiting) ←
    filterZeroLamportCleanForIncrementalSnapshots maxCleanRoot lastFullSnapshotSlot counts purges
  let (index, reclaims) := purgeKeysExact db.accountsIndex kept
  let db :=
    { db with
      accountsIndex := index
      zeroLamportAccountsToPurgeAfterFullSnapshot :=
        (waiting ++ db.zeroLamportAccountsToPurgeAfterFullSnapshot).dedup }
  let (db, _) ← db.handleReclaims reclaims order
  return db

/-! ### Runs -/

/-- What is done with the database. -/
inductive Op where
  | write (slot : Slot) (accounts : List (Pubkey × Account))
  | clean (maxCleanRoot lastFullSnapshotSlot : Option Slot) (order : HashOrder)

def step : Op → Option AccountsDb
  | .write slot accounts => db.writeRootAndFlush slot accounts
  | .clean maxCleanRoot lastFullSnapshotSlot order =>
    db.cleanAccounts maxCleanRoot lastFullSnapshotSlot order

/-! ### Restarts -/

/-- `generate_index`: the index of the accounts in the storages, whose slots are all roots. -/
def generateIndex : List (Slot × AccountStorageEntry) → AccountsIndex → Option AccountsIndex
  | [], index => some index
  | (slot, store) :: rest, index => do
    let (index, _) ← index.updateIndex slot false store.infos
    generateIndex rest (← index.addRoot slot)

end AccountsDb

end Renec
