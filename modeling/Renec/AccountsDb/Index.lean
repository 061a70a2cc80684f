import Renec.Sdk.Types

/-!
# The accounts index

`AccountsIndex` (`runtime/src/accounts_index.rs`, `in_mem_accounts_index.rs`) has, for every
address, the slots in which a version of the account is found, each with the place of that version,
and a reference count: the number of storages that hold a version, whether or not the index still
points to it.
-/

namespace Renec

open List Option Finmap

/-- `AppendVecId`: what identifies a storage. The accounts cache has an id that no storage has,
`CACHE_VIRTUAL_STORAGE_ID`. -/
inductive StoreId where
  | cache
  | appendVec (id : ℕ)
  deriving DecidableEq

/-- `AccountInfo`: where a version of an account is, and its balance. An offset counts the accounts
of the storage that are before it. -/
structure AccountInfo where
  storeId : StoreId
  offset : ℕ
  lamports : ℕ
  deriving DecidableEq

namespace AccountInfo

def isCached (info : AccountInfo) : Bool := decide (info.storeId = .cache)

/-- What the index has for an account in the cache (`CACHE_VIRTUAL_OFFSET` is 0). -/
def cached (lamports : ℕ) : AccountInfo := ⟨.cache, 0, lamports⟩

@[simp] lemma isCached_cached (lamports : ℕ) : (cached lamports).isCached = true := rfl

end AccountInfo

/-- `SlotList<AccountInfo>`. -/
abbrev SlotList := List (Slot × AccountInfo)

abbrev SlotList.slots (list : SlotList) : List Slot := list.map Prod.fst

lemma SlotList.slots_append (l l' : SlotList) : SlotList.slots (l ++ l') = l.slots ++ l'.slots :=
  map_append

/-- `AccountMapEntry`. -/
structure AccountMapEntry where
  slotList : SlotList
  /-- The number of storages with a version of the account. -/
  refCount : ℕ
  deriving DecidableEq

structure AccountsIndex where
  accountMaps : Finmap fun _ : Pubkey ↦ AccountMapEntry
  roots : Finset Slot
  maxRoot : Slot
  /-- The roots that have been flushed and not cleaned. -/
  uncleanedRoots : Finset Slot

/-! ### Updates of a slot list -/

/-- What `update_slot_list` gives back: the list, whether a reference is to be added, and the
entry that was replaced, if it has to be reclaimed. -/
structure UpdatedSlotList where
  list : SlotList
  addref : Bool
  reclaims : SlotList
  deriving DecidableEq

/-- Put an entry into a slot list, in the place of the one of the same slot. The two assertions are
that a replaced entry is a cached one where the caller says so, and that no second entry has this
slot. -/
def updateSlotList (slot : Slot) (accountInfo : AccountInfo) (previousSlotEntryWasCached : Bool) :
    SlotList → Option UpdatedSlotList
  | [] => some ⟨[(slot, accountInfo)], !accountInfo.isCached, []⟩
  | (s, previous) :: rest =>
    if s = slot then
      if previousSlotEntryWasCached && !previous.isCached then none
      else if rest.any fun item ↦ decide (item.1 = slot) then none
      else some
        ⟨(slot, accountInfo) :: rest, !accountInfo.isCached && previous.isCached,
          if previousSlotEntryWasCached then [] else [(slot, previous)]⟩
    else
      (updateSlotList slot accountInfo previousSlotEntryWasCached rest).map fun u ↦
        { u with list := (s, previous) :: u.list }

variable {info : AccountInfo} {slot : Slot}

lemma updateSlotList_of_notMem {b : Bool} : ∀ {list : SlotList}, slot ∉ list.slots →
      updateSlotList slot info b list = some ⟨list ++ [(slot, info)], !info.isCached, []⟩
  | [], _ => rfl
  | (s, previous) :: rest, h => by
    simp only [SlotList.slots, map_cons, mem_cons, not_or] at h
    rw [updateSlotList, if_neg (Ne.symm h.1), updateSlotList_of_notMem h.2]
    rfl

lemma updateSlotList_cached {lamports : ℕ} : ∀ {list : SlotList}, slot ∉ list.slots →
      updateSlotList slot info false (list ++ [(slot, .cached lamports)]) =
        some ⟨list ++ [(slot, info)], !info.isCached, [(slot, .cached lamports)]⟩
  | [], _ => by simp [updateSlotList]
  | (s, previous) :: rest, h => by
    simp only [SlotList.slots, map_cons, mem_cons, not_or] at h
    rw [cons_append, updateSlotList, if_neg (Ne.symm h.1), updateSlotList_cached h.2]
    rfl

/-- `upsert` on the entry of one address. An address without entry gets a new one, with a reference
unless the account is in the cache. -/
def upsertEntry (slot : Slot) (accountInfo : AccountInfo) (previousSlotEntryWasCached : Bool) :
    Option AccountMapEntry → Option (AccountMapEntry × SlotList)
  | none => some (⟨[(slot, accountInfo)], if accountInfo.isCached then 0 else 1⟩, [])
  | some current =>
    (updateSlotList slot accountInfo previousSlotEntryWasCached current.slotList).map fun u ↦
      (⟨u.list, if u.addref then current.refCount + 1 else current.refCount⟩, u.reclaims)

/-! ### Reads of a slot list -/

section

variable (roots : Finset Slot) (list : SlotList)

/-- The newest entry of a slot list in a root not above `maxRoot` (`latest_slot`, without
ancestors; the source returns its index). -/
def latestSlot (maxRoot : Option Slot) : Option (Slot × AccountInfo) :=
  list.reverse.foldl (fun best item ↦
    if best.all (fun b ↦ decide (b.1 < item.1)) ∧ item.1 ≤ maxRoot.getD u64Max ∧ item.1 ∈ roots then
      some item
    else best) none

/-- The entries in roots not above `max`. -/
def getRootedEntries (max : Option Slot) : SlotList :=
  list.filter fun item ↦ decide (item.1 ≤ max.getD u64Max ∧ item.1 ∈ roots)

/-- The newest root of a slot list that is not above `maxAllowedRoot`, or 0. -/
def getNewestRootInSlotList (maxAllowedRoot : Option Slot) : Slot :=
  list.foldl (fun maxRoot item ↦
    if maxAllowedRoot.any (fun m ↦ decide (m < item.1)) then maxRoot
    else if maxRoot < item.1 ∧ item.1 ∈ roots then item.1 else maxRoot) 0

end

/-- When an entry may be purged: it is below `maxCleanRoot` and not the newest root. -/
def canPurgeOlderEntries (maxCleanRoot newestRootInSlotList slot : Slot) : Bool :=
  decide (slot < maxCleanRoot ∧ slot ≠ newestRootInSlotList)

section

variable {roots : Finset Slot} {list : SlotList} {max : Option Slot} {e : Slot × AccountInfo}

/-- What `latestSlot` has found when it has seen the entries `seen`. -/
private def IsLatest (roots : Finset Slot) (max : Option Slot) (seen : SlotList)
    (best : Option (Slot × AccountInfo)) : Prop :=
  (∀ b ∈ best, b ∈ seen ∧ b.1 ≤ max.getD u64Max ∧ b.1 ∈ roots) ∧
    ∀ item ∈ seen, item.1 ≤ max.getD u64Max → item.1 ∈ roots → ∃ b ∈ best, item.1 ≤ b.1

private lemma isLatest_latestSlot : IsLatest roots max list (latestSlot roots list max) := by
  -- the loop starts from the end of the list
  induction list with
  | nil => exact ⟨by simp [latestSlot], by simp⟩
  | cons item list ih =>
    rw [latestSlot, reverse_cons, foldl_append, foldl_cons, foldl_nil, ← latestSlot]
    obtain ⟨hbest, hseen⟩ := ih
    generalize latestSlot roots list max = best at hbest hseen ⊢
    split_ifs with hitem
    · -- the new entry is above what was found before
      refine ⟨by rintro b ⟨⟩; exact ⟨mem_cons_self, hitem.2⟩,
        forall_mem_cons.mpr ⟨fun _ _ ↦ ⟨item, rfl, le_rfl⟩, fun x hx hle hroot ↦ ?_⟩⟩
      obtain ⟨b, hb, hxb⟩ := hseen x hx hle hroot
      rw [Option.mem_def] at hb
      rw [hb, all_some, decide_eq_true_iff] at hitem
      exact ⟨item, rfl, hxb.trans hitem.1.le⟩
    refine ⟨fun b hb ↦ ⟨mem_cons_of_mem _ (hbest b hb).1, (hbest b hb).2⟩,
      forall_mem_cons.mpr ⟨fun hle hroot ↦ ?_, hseen⟩⟩
    rcases best with - | b
    · exact absurd ⟨rfl, hle, hroot⟩ hitem
    refine ⟨b, rfl, not_lt.mp fun hlt ↦ hitem ⟨?_, hle, hroot⟩⟩
    rw [all_some, decide_eq_true_iff]
    exact hlt

lemma mem_of_latestSlot (h : latestSlot roots list max = some e) :
    e ∈ list ∧ e.1 ≤ max.getD u64Max ∧ e.1 ∈ roots :=
  isLatest_latestSlot.1 e h

variable {item : Slot × AccountInfo}

lemma le_of_latestSlot (h : latestSlot roots list max = some e) (hitem : item ∈ list)
    (hle : item.1 ≤ max.getD u64Max) (hroot : item.1 ∈ roots) : item.1 ≤ e.1 := by
  obtain ⟨b, hb, hle⟩ := isLatest_latestSlot.2 item hitem hle hroot
  rw [h] at hb
  cases hb
  exact hle

lemma exists_latestSlot (hitem : item ∈ list) (hle : item.1 ≤ max.getD u64Max)
    (hroot : item.1 ∈ roots) : ∃ e, latestSlot roots list max = some e := by
  obtain ⟨b, hb, -⟩ := isLatest_latestSlot.2 item hitem hle hroot
  exact ⟨b, hb⟩

/-- What the search for the newest root has found when it has seen the entries `seen`. -/
private def IsNewestRoot (roots : Finset Slot) (max : Option Slot) (seen : SlotList)
    (newest : Slot) : Prop :=
  (newest = 0 ∨ ∃ item ∈ seen, item.1 = newest ∧ (∀ m ∈ max, item.1 ≤ m) ∧ item.1 ∈ roots) ∧
    ∀ item ∈ seen, (∀ m ∈ max, item.1 ≤ m) → item.1 ∈ roots → item.1 ≤ newest

private lemma isNewestRoot_getNewestRootInSlotList :
    IsNewestRoot roots max list (getNewestRootInSlotList roots list max) := by
  induction list using List.reverseRecOn with
  | nil => exact ⟨.inl rfl, by simp⟩
  | append_singleton seen item ih =>
    rw [getNewestRootInSlotList, foldl_append, foldl_cons, foldl_nil, ← getNewestRootInSlotList]
    obtain ⟨hfound, hseen⟩ := ih
    generalize getNewestRootInSlotList roots seen max = newest at hfound hseen ⊢
    have hany : max.any (fun m ↦ decide (m < item.1)) = true ↔ ¬ ∀ m ∈ max, item.1 ≤ m := by
      cases max <;> simp
    have hkeep : newest = 0 ∨ ∃ x ∈ seen ++ [item], x.1 = newest ∧ (∀ m ∈ max, x.1 ≤ m) ∧
        x.1 ∈ roots :=
      hfound.imp_right fun ⟨x, hx, h⟩ ↦ ⟨x, mem_append_left _ hx, h⟩
    split_ifs with hmax hitem
    · exact ⟨hkeep, forall_mem_append.mpr ⟨hseen, forall_mem_singleton.mpr fun hle _ ↦
        absurd hle (hany.mp hmax)⟩⟩
    · rw [hany, not_not] at hmax
      refine ⟨.inr ⟨item, by simp, rfl, hmax, hitem.2⟩, forall_mem_append.mpr
        ⟨fun x hx hle hroot ↦ ?_, forall_mem_singleton.mpr fun _ _ ↦ le_rfl⟩⟩
      exact (hseen x hx hle hroot).trans hitem.1.le
    exact ⟨hkeep, forall_mem_append.mpr ⟨hseen, forall_mem_singleton.mpr fun _ hroot ↦
      not_lt.mp fun hlt ↦ hitem ⟨hlt, hroot⟩⟩⟩

lemma getNewestRootInSlotList_eq (hslots : ∀ item ∈ list, item.1 ≤ u64Max)
    (h : latestSlot roots list max = some e) : getNewestRootInSlotList roots list max = e.1 := by
  have hnewest : IsNewestRoot roots max list _ := isNewestRoot_getNewestRootInSlotList
  have hbound : ∀ item ∈ list, (∀ m ∈ max, item.1 ≤ m) ↔ item.1 ≤ max.getD u64Max := by
    intro item hitem
    cases max with
    | none => simpa using hslots item hitem
    | some m => simp
  obtain ⟨he, hle, hroot⟩ := mem_of_latestSlot h
  have hge : e.1 ≤ getNewestRootInSlotList roots list max :=
    hnewest.2 e he ((hbound e he).mpr hle) hroot
  rcases hnewest.1 with hzero | ⟨item, hitem, heq, hle', hroot'⟩
  · exact le_antisymm (hzero.le.trans (Nat.zero_le _)) hge
  have hitem_le := le_of_latestSlot h hitem ((hbound item hitem).mp hle') hroot'
  exact le_antisymm (heq.symm.le.trans hitem_le) hge

end

/-! ### Operations of the index -/

namespace AccountsIndex

variable (index : AccountsIndex)

section

variable (key : Pubkey)

/-- The slot list of an address, empty if it has none. -/
def entries : SlotList := ((index.accountMaps.lookup key).map AccountMapEntry.slotList).getD []

def refCountFromStorage : ℕ := ((index.accountMaps.lookup key).map AccountMapEntry.refCount).getD 0

variable (slot : Slot)

/-- Update the version of an account in a slot; the entry that is replaced is returned. -/
def upsert (key : Pubkey) (accountInfo : AccountInfo) (previousSlotEntryWasCached : Bool) :
    Option (AccountsIndex × SlotList) := do
  let (entry, reclaims) ←
    upsertEntry slot accountInfo previousSlotEntryWasCached (index.accountMaps.lookup key)
  return ({ index with accountMaps := index.accountMaps.insert key entry }, reclaims)

/-- `AccountsDb::update_index`: the accounts of a slot, one after the other. -/
def updateIndex (previousSlotEntryWasCached : Bool) :
    List (Pubkey × AccountInfo) → AccountsIndex → Option (AccountsIndex × SlotList)
  | [], index => some (index, [])
  | (key, info) :: rest, index => do
    let (index, reclaims) ← index.upsert slot key info previousSlotEntryWasCached
    let (index, more) ← updateIndex previousSlotEntryWasCached rest index
    return (index, reclaims ++ more)

/-- `slot_list.retain`: keep some entries of an address and reclaim the others. -/
def retainEntries (keep : Slot × AccountInfo → Bool) : AccountsIndex × SlotList :=
  match index.accountMaps.lookup key with
  | none => (index, [])
  | some entry =>
    ({ index with
        accountMaps :=
          index.accountMaps.insert key { entry with slotList := entry.slotList.filter keep } },
      entry.slotList.filter fun item ↦ !keep item)

def removeIfSlotListEmpty : AccountsIndex :=
  match index.accountMaps.lookup key with
  | none => index
  | some entry =>
    if entry.slotList.isEmpty then { index with accountMaps := index.accountMaps.erase key }
    else index

/-- What `purge_older_root_entries` keeps of a slot list. -/
def keepsEntry (list : SlotList) (maxCleanRoot : Option Slot) (item : Slot × AccountInfo) : Bool :=
  !(canPurgeOlderEntries (maxCleanRoot.getD index.maxRoot)
      (getNewestRootInSlotList index.roots list maxCleanRoot) item.1 && !item.2.isCached)

/-- Remove the entries of an address that are older than its newest root up to `maxCleanRoot`. -/
def cleanRootedEntries (maxCleanRoot : Option Slot) : AccountsIndex × SlotList :=
  let (cleaned, reclaims) :=
    index.retainEntries key (index.keepsEntry (index.entries key) maxCleanRoot)
  (cleaned.removeIfSlotListEmpty key, reclaims)

/-- Remove the entries of an address in given slots. The last component says that none is left. -/
def purgeExact (slotsToPurge : List Slot) : AccountsIndex × SlotList × Bool :=
  let (purged, reclaims) := index.retainEntries key fun item ↦ decide (item.1 ∉ slotsToPurge)
  (purged, reclaims, (purged.entries key).isEmpty)

/-- Remove the addresses that have no entries any more. -/
def handleDeadKeys (deadKeys : List Pubkey) : AccountsIndex :=
  deadKeys.foldl removeIfSlotListEmpty index

/-- A storage with a version of the account is gone. (At 0 the `fetch_sub` of the source wraps.) -/
def unrefFromStorage : AccountsIndex :=
  match index.accountMaps.lookup key with
  | none => index
  | some entry =>
    { index with
      accountMaps := index.accountMaps.insert key { entry with refCount := entry.refCount - 1 } }

/-- Roots are added in order. -/
def addRoot : Option AccountsIndex :=
  if slot < index.maxRoot then none
  else some { index with roots := insert slot index.roots, maxRoot := slot }

def addUncleanedRoot : AccountsIndex :=
  { index with uncleanedRoots := insert slot index.uncleanedRoots }

/-- The storage of a slot is freed. -/
def cleanDeadSlot : AccountsIndex :=
  { index with
    roots := index.roots.erase slot
    uncleanedRoots := index.uncleanedRoots.erase slot }

/-- Keep only the slots that have yet to be cleaned. -/
def resetUncleanedRoots (maxCleanRoot : Option Slot) : AccountsIndex :=
  { index with
    uncleanedRoots := index.uncleanedRoots.filter fun root ↦ ¬ ∀ m ∈ maxCleanRoot, root ≤ m }

/-- The balance of the newest rooted version of an account. -/
def balance : ℕ :=
  ((latestSlot index.roots (index.entries key) none).map fun e ↦ e.2.lamports).getD 0

end

/-! ### What the operations do to the entries -/

variable {index : AccountsIndex} {key k : Pubkey} {entry : AccountMapEntry}

lemma entries_of_lookup (h : index.accountMaps.lookup key = some entry) :
    index.entries key = entry.slotList := by
  rw [entries, h]
  rfl

lemma entries_of_lookup_none (h : index.accountMaps.lookup key = none) :
    index.entries key = [] := by
  rw [entries, h]
  rfl

/-- The accounts of a slot enter the index independently, as their addresses differ: each has the
entry that its own update gives, and every replaced entry is returned. -/
theorem updateIndex_eq {slot : Slot} {b : Bool}
    {f : Pubkey × AccountInfo → AccountMapEntry × SlotList} :
    ∀ {infos : List (Pubkey × AccountInfo)} {index : AccountsIndex}, (infos.map Prod.fst).Nodup →
      (∀ p ∈ infos, upsertEntry slot p.2 b (index.accountMaps.lookup p.1) = some (f p)) →
      ∃ maps, updateIndex slot b infos index =
          some ({ index with accountMaps := maps }, infos.flatMap fun p ↦ (f p).2) ∧
        (∀ p ∈ infos, maps.lookup p.1 = some (f p).1) ∧
        ∀ key ∉ infos.map Prod.fst, maps.lookup key = index.accountMaps.lookup key
  | [], index, _, _ => ⟨index.accountMaps, rfl, by simp, fun _ _ ↦ rfl⟩
  | (key, info) :: rest, index, hnodup, hf => by
    rw [map_cons, nodup_cons] at hnodup
    have hne : ∀ p ∈ rest, p.1 ≠ key := by
      rintro p hp rfl
      exact hnodup.1 (mem_map.mpr ⟨p, hp, rfl⟩)
    obtain ⟨maps, heq, hmem, hother⟩ := @updateIndex_eq slot b f rest
      { index with accountMaps := index.accountMaps.insert key (f (key, info)).1 } hnodup.2
      (fun p hp ↦ by
        rw [lookup_insert_of_ne _ (hne p hp)]
        exact hf p (mem_cons_of_mem _ hp))
    refine ⟨maps, ?_, ?_, ?_⟩
    · have hfirst := hf (key, info) mem_cons_self
      simp only [updateIndex, upsert, hfirst, bind_eq_bind, bind_some, Option.pure_def,
        heq, flatMap_cons]
    · intro p hp
      rcases mem_cons.mp hp with rfl | hp
      · rw [hother _ hnodup.1]
        exact lookup_insert _
      · exact hmem p hp
    intro other hother'
    rw [map_cons, mem_cons, not_or] at hother'
    rw [hother other hother'.2]
    exact lookup_insert_of_ne _ hother'.1

section

variable {keep : Slot × AccountInfo → Bool}

lemma entries_retainEntries : (index.retainEntries k keep).1.entries key =
      if key = k then (index.entries k).filter keep else index.entries key := by
  rw [retainEntries]
  split
  · rename_i hlookup
    split_ifs with hkey
    · rw [hkey, entries_of_lookup_none hlookup]
      rfl
    · rfl
  rename_i entry hlookup
  split_ifs with hkey
  · subst hkey
    rw [entries_of_lookup hlookup, entries_of_lookup (lookup_insert _)]
  · simp only [entries, lookup_insert_of_ne _ hkey]

lemma reclaims_retainEntries :
    (index.retainEntries k keep).2 = (index.entries k).filter fun item ↦ !keep item := by
  rw [retainEntries]
  split
  · rename_i hlookup
    rw [entries_of_lookup_none hlookup]
    rfl
  rename_i entry hlookup
  rw [entries_of_lookup hlookup]

lemma refCount_retainEntries
    (h : (index.retainEntries k keep).1.accountMaps.lookup key = some entry) :
    ∃ before, index.accountMaps.lookup key = some before ∧ before.refCount = entry.refCount := by
  rw [retainEntries] at h
  split at h
  · exact ⟨entry, h, rfl⟩
  rename_i before hlookup
  by_cases hkey : key = k
  · subst hkey
    rw [lookup_insert, some.injEq] at h
    exact ⟨before, hlookup, by rw [← h]⟩
  rw [lookup_insert_of_ne _ hkey] at h
  exact ⟨entry, h, rfl⟩

end

end AccountsIndex

end Renec
