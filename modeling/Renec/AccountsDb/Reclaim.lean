import Renec.AccountsDb.Clean

/-!
# Reclaiming keeps the database consistent

`Consistent index storage pending` relates the index to the storages when the entries `pending` have
been taken from the index and not yet from the counts of the storages: an entry of the index points
to an account in a storage, a storage counts the addresses with an entry in its slot and the pending
entries of the slot, and a reference count is *at least* the number of storages with a version of
the account.
-/

namespace Renec

open List AccountsIndex AccountsDb SortedMap Prod

variable {item : Slot × AccountInfo} {keep : Slot × AccountInfo → Bool} {k : Pubkey} {key : Pubkey}
  {index' index : AccountsIndex} {slot : Slot}

namespace AccountsIndex

/-- The addresses with an entry in a slot. -/
def aliveKeys (index : AccountsIndex) (slot : Slot) : Finset Pubkey :=
  index.accountMaps.keys.filter fun key ↦ slot ∈ (index.entries key).slots

lemma mem_aliveKeys : key ∈ index.aliveKeys slot ↔ slot ∈ (index.entries key).slots := by
  rw [aliveKeys, Finset.mem_filter, Finmap.mem_keys]
  refine ⟨And.right, fun h ↦ ⟨?_, h⟩⟩
  by_contra hkey
  rw [entries_of_lookup_none (Finmap.lookup_eq_none.mpr hkey)] at h
  exact not_mem_nil h

lemma mem_aliveKeys_of_mem (h : item ∈ index.entries key) : key ∈ index.aliveKeys item.1 :=
  mem_aliveKeys.mpr (mem_map_of_mem h)

lemma aliveKeys_congr (h : ∀ key, index'.entries key = index.entries key) :
    index'.aliveKeys slot = index.aliveKeys slot := by
  ext key
  rw [mem_aliveKeys, mem_aliveKeys, h]

lemma aliveKeys_subset (h : ∀ key, (index'.entries key).slots ⊆ (index.entries key).slots) :
    index'.aliveKeys slot ⊆ index.aliveKeys slot :=
  fun key hkey ↦ mem_aliveKeys.mpr (h key (mem_aliveKeys.mp hkey))

/-! ### Removing an address without entries -/

lemma entries_removeIfSlotListEmpty :
    (index.removeIfSlotListEmpty k).entries key = index.entries key := by
  rw [removeIfSlotListEmpty]
  split
  · rfl
  rename_i entry hlookup
  split_ifs with hempty
  · by_cases hkey : key = k
    · subst hkey
      rw [entries_of_lookup hlookup, entries_of_lookup_none (Finmap.lookup_erase _ _),
        List.isEmpty_iff.mp hempty]
    · simp only [entries, Finmap.lookup_erase_ne hkey]
  · rfl

lemma lookup_removeIfSlotListEmpty {entry : AccountMapEntry}
    (h : (index.removeIfSlotListEmpty k).accountMaps.lookup key = some entry) :
    index.accountMaps.lookup key = some entry := by
  rw [removeIfSlotListEmpty] at h
  split at h
  · exact h
  split_ifs at h with hempty
  · by_cases hkey : key = k
    · subst hkey
      rw [Finmap.lookup_erase] at h
      cases h
    · rwa [Finmap.lookup_erase_ne hkey] at h
  · exact h

/-- An operation changes the entries and not the roots. -/
structure SameRoots (index index' : AccountsIndex) : Prop where
  roots : index'.roots = index.roots
  maxRoot : index'.maxRoot = index.maxRoot
  uncleanedRoots : index'.uncleanedRoots = index.uncleanedRoots

lemma SameRoots.refl (index : AccountsIndex) : SameRoots index index := ⟨rfl, rfl, rfl⟩

lemma SameRoots.trans {index₁ index₂ index₃ : AccountsIndex} (h : SameRoots index₁ index₂)
    (h' : SameRoots index₂ index₃) : SameRoots index₁ index₃ :=
  ⟨h'.roots.trans h.roots, h'.maxRoot.trans h.maxRoot, h'.uncleanedRoots.trans h.uncleanedRoots⟩

lemma sameRoots_removeIfSlotListEmpty : SameRoots index (index.removeIfSlotListEmpty k) := by
  rw [removeIfSlotListEmpty]
  split
  · exact SameRoots.refl _
  · split_ifs <;> exact ⟨rfl, rfl, rfl⟩

lemma sameRoots_retainEntries : SameRoots index (index.retainEntries k keep).1 := by
  rw [retainEntries]
  split <;> exact ⟨rfl, rfl, rfl⟩

/-! ### Taking back references -/

lemma lookup_unrefFromStorage : (index.unrefFromStorage k).accountMaps.lookup key =
      (index.accountMaps.lookup key).map fun entry ↦
        { entry with refCount := entry.refCount - if k = key then 1 else 0 } := by
  rw [unrefFromStorage]
  split
  · rename_i hlookup
    by_cases hkey : k = key
    · subst hkey
      rw [hlookup]
      rfl
    · simp [hkey]
  rename_i entry hlookup
  by_cases hkey : k = key
  · subst hkey
    rw [Finmap.lookup_insert, hlookup, if_pos rfl]
    rfl
  rw [Finmap.lookup_insert_of_ne _ (Ne.symm hkey)]
  simp [hkey]

lemma sameRoots_unrefFromStorage : SameRoots index (index.unrefFromStorage k) := by
  rw [unrefFromStorage]
  split <;> exact ⟨rfl, rfl, rfl⟩

lemma lookup_foldl_unref (l : List (Slot × Pubkey)) : ∀ index : AccountsIndex,
      (l.foldl (fun index p ↦ index.unrefFromStorage p.2) index).accountMaps.lookup key =
        (index.accountMaps.lookup key).map fun entry ↦
          { entry with refCount := entry.refCount - l.countP fun p ↦ decide (p.2 = key) } := by
  induction l with
  | nil => intro index; simp
  | cons p l ih =>
    intro index
    rw [foldl_cons, ih, lookup_unrefFromStorage, Option.map_map]
    congr 1
    funext entry
    simp only [Function.comp_apply, AccountMapEntry.mk.injEq, true_and, countP_cons,
      decide_eq_true_eq]
    omega

lemma sameRoots_foldl_unref (l : List (Slot × Pubkey)) : ∀ index : AccountsIndex,
      SameRoots index (l.foldl (fun index p ↦ index.unrefFromStorage p.2) index) := by
  induction l with
  | nil => exact SameRoots.refl
  | cons p l ih => exact fun index ↦ sameRoots_unrefFromStorage.trans (ih _)

/-! ### Dead slots -/

lemma foldl_cleanDeadSlot (slots : List Slot) :
    ∀ index : AccountsIndex, slots.foldl cleanDeadSlot index =
      { index with
        roots := index.roots.filter (· ∉ slots)
        uncleanedRoots := index.uncleanedRoots.filter (· ∉ slots) } := by
  induction slots with
  | nil => intro index; simp
  | cons slot slots ih =>
    intro index
    rw [foldl_cons, ih]
    simp only [cleanDeadSlot, mk.injEq, true_and]
    constructor <;>
    · ext s
      simp only [Finset.mem_filter, Finset.mem_erase, mem_cons, not_or]
      tauto

end AccountsIndex

namespace AccountsDb

/-! ### Storages -/

variable {storage : SortedMap Slot AccountStorageEntry}

section

variable {storage' : SortedMap Slot AccountStorageEntry}

section

variable (storage : SortedMap Slot AccountStorageEntry) (key : Pubkey)

/-- A version of an account is in the storage of a slot. -/
def Holds (slot : Slot) (account : Account) : Prop :=
  ∃ store, storage.get? slot = some store ∧ (key, account) ∈ store.accounts

/-- The slots whose storages have a version of an account. -/
def copySlots : Finset Slot :=
  ((storage.entries.filter fun e ↦ decide (key ∈ e.2.keys)).map fst).toFinset

end

lemma mem_copySlots :
    slot ∈ copySlots storage key ↔ ∃ store, storage.get? slot = some store ∧ key ∈ store.keys := by
  simp only [copySlots, mem_toFinset, mem_map, mem_filter, decide_eq_true_eq, get?_eq_some]
  constructor
  · rintro ⟨⟨s, store⟩, ⟨hmem, hkey⟩, rfl⟩
    exact ⟨store, hmem, hkey⟩
  rintro ⟨store, hmem, hkey⟩
  exact ⟨(slot, store), ⟨hmem, hkey⟩, rfl⟩

lemma Holds.mem_copySlots {account : Account} (h : Holds storage key slot account) :
    slot ∈ copySlots storage key := by
  obtain ⟨store, hstore, hmem⟩ := h
  exact AccountsDb.mem_copySlots.mpr ⟨store, hstore, mem_map_of_mem hmem⟩

/-- Every storage of `storage'` is one of `storage`, up to the count. -/
def Within (storage storage' : SortedMap Slot AccountStorageEntry) : Prop :=
  ∀ {slot store'}, storage'.get? slot = some store' → ∃ store, storage.get? slot = some store ∧
    store.id = store'.id ∧ store.accounts = store'.accounts

lemma Within.trans {storage₁ storage₂ storage₃ : SortedMap Slot AccountStorageEntry}
    (h : Within storage₁ storage₂) (h' : Within storage₂ storage₃) : Within storage₁ storage₃ := by
  intro slot store₃ hstore₃
  obtain ⟨store₂, hstore₂, hid, haccounts⟩ := h' hstore₃
  obtain ⟨store₁, hstore₁, hid', haccounts'⟩ := h hstore₂
  exact ⟨store₁, hstore₁, hid'.trans hid, haccounts'.trans haccounts⟩

lemma Within.copySlots_subset (h : Within storage storage') :
    copySlots storage' key ⊆ copySlots storage key := by
  intro slot hslot
  obtain ⟨store', hstore', hkey⟩ := mem_copySlots.mp hslot
  obtain ⟨store, hstore, -, haccounts⟩ := h hstore'
  refine mem_copySlots.mpr ⟨store, hstore, ?_⟩
  rwa [AccountStorageEntry.keys, haccounts]

/-- An entry points to an account in the storage of its slot. -/
def PointsTo (storage : SortedMap Slot AccountStorageEntry) (key : Pubkey)
    (item : Slot × AccountInfo) : Prop :=
  ∃ store account, storage.get? item.1 = some store ∧ item.2.storeId = .appendVec store.id ∧
    (key, account) ∈ store.accounts ∧ item.2.lamports = account.lamports

lemma PointsTo.mem_copySlots (h : PointsTo storage key item) :
    item.1 ∈ copySlots storage key := by
  obtain ⟨store, account, hstore, -, hmem, -⟩ := h
  exact Holds.mem_copySlots ⟨store, hstore, hmem⟩

lemma PointsTo.isCached (h : PointsTo storage key item) : item.2.isCached = false := by
  obtain ⟨store, -, -, hid, -⟩ := h
  rw [AccountInfo.isCached, hid]
  rfl

lemma PointsTo.of_within (h : Within storage' storage) (hitem : PointsTo storage key item) :
    PointsTo storage' key item := by
  obtain ⟨store, account, hstore, hid, hmem, hlamports⟩ := hitem
  obtain ⟨store', hstore', hid', haccounts⟩ := h hstore
  exact ⟨store', account, hstore', by rw [hid, hid'], haccounts ▸ hmem, hlamports⟩

end

/-! ### Consistency -/

variable {pending : SlotList}

/-- The number of pending entries of a slot. -/
abbrev pendingAt (pending : SlotList) (slot : Slot) : ℕ :=
  pending.countP fun item ↦ decide (item.1 = slot)

/-- **The index and the storages agree**, when the entries `pending` are not yet taken from the
counts. -/
structure Consistent (index : AccountsIndex) (storage : SortedMap Slot AccountStorageEntry)
    (pending : SlotList) : Prop where
  ids : ∀ {slot slot' store store'}, storage.get? slot = some store →
    storage.get? slot' = some store' → store.id = store'.id → slot = slot'
  nodupKeys : ∀ {slot store}, storage.get? slot = some store → store.keys.Nodup
  pointsTo : ∀ {key item}, item ∈ index.entries key → PointsTo storage key item
  nodupSlots : ∀ key, (index.entries key).slots.Nodup
  rooted : ∀ {key item}, item ∈ index.entries key → item.1 ∈ index.roots
  count : ∀ {slot store}, storage.get? slot = some store →
    store.count = (index.aliveKeys slot).card + pendingAt pending slot
  pendingStored : ∀ item ∈ pending, ∃ store, storage.get? item.1 = some store ∧
    item.2.storeId = .appendVec store.id
  refs : ∀ {key entry}, index.accountMaps.lookup key = some entry →
    (copySlots storage key).card ≤ entry.refCount

lemma pendingAt_append (l l' : SlotList) (slot : Slot) :
    pendingAt (l ++ l') slot = pendingAt l slot + pendingAt l' slot :=
  countP_append

lemma pendingAt_cons_self (item : Slot × AccountInfo) :
    pendingAt (item :: pending) item.1 = pendingAt pending item.1 + 1 :=
  countP_cons_of_pos (by simp)

lemma pendingAt_cons_of_ne (h : item.1 ≠ slot) :
    pendingAt (item :: pending) slot = pendingAt pending slot :=
  countP_cons_of_neg (by simpa using h)

lemma mem_slots_filter {list : SlotList} (h : list.slots.Nodup) :
    slot ∈ SlotList.slots (list.filter keep) ↔
      slot ∈ list.slots ∧ slot ∉ SlotList.slots (list.filter fun item ↦ !keep item) := by
  constructor
  · intro hslot
    obtain ⟨item, hitem, rfl⟩ := mem_map.mp hslot
    rw [mem_filter] at hitem
    refine ⟨mem_map_of_mem hitem.1, fun hother ↦ ?_⟩
    obtain ⟨other, hother, heq⟩ := mem_map.mp hother
    rw [mem_filter] at hother
    have hsame := inj_on_of_nodup_map h hother.1 hitem.1 heq
    rw [hsame, hitem.2] at hother
    exact absurd hother.2 (by decide)
  rintro ⟨hslot, hkept⟩
  obtain ⟨item, hitem, rfl⟩ := mem_map.mp hslot
  refine mem_map_of_mem (mem_filter.mpr ⟨hitem, ?_⟩)
  by_contra hkeep
  refine hkept (mem_map_of_mem (mem_filter.mpr ⟨hitem, ?_⟩))
  simpa using hkeep

variable {store : AccountStorageEntry} {db : AccountsDb} {purged : List (Slot × Pubkey)}

lemma within_insert_count (hstore : storage.get? slot = some store) (count : ℕ) :
    Within storage (storage.insert slot { store with count := count }) ∧
      Within (storage.insert slot { store with count := count }) storage := by
  constructor <;> intro s st hst
  · rw [get?_insert] at hst
    split_ifs at hst with hs
    · cases hst
      exact ⟨store, hs ▸ hstore, rfl, rfl⟩
    · exact ⟨st, hst, rfl, rfl⟩
  by_cases hs : s = slot
  · subst hs
    obtain rfl : store = st := Option.some.inj (hstore.symm.trans hst)
    exact ⟨_, get?_insert_self, rfl, rfl⟩
  · exact ⟨st, (get?_insert_of_ne hs).trans hst, rfl, rfl⟩

namespace Consistent

lemma length_entries_le (h : Consistent index storage pending) (key : Pubkey) :
    (index.entries key).length ≤ (copySlots storage key).card := by
  rw [← length_map (f := fst), ← toFinset_card_of_nodup (h.nodupSlots key)]
  refine Finset.card_le_card fun s hs ↦ ?_
  obtain ⟨item, hitem, rfl⟩ := mem_map.mp (mem_toFinset.mp hs)
  exact (h.pointsTo hitem).mem_copySlots

lemma card_aliveKeys_retainEntries (h : Consistent index storage pending) :
    ((index.retainEntries k keep).1.aliveKeys slot).card +
        pendingAt ((index.entries k).filter fun item ↦ !keep item) slot =
      (index.aliveKeys slot).card := by
  set removed : SlotList := (index.entries k).filter fun item ↦ !keep item
  have hnodup : removed.slots.Nodup := (h.nodupSlots k).sublist (filter_sublist.map _)
  have hcount : pendingAt removed slot = removed.slots.count slot := by
    rw [pendingAt, SlotList.slots, List.count, countP_map]
    rfl
  have hmem : ∀ key, key ∈ (index.retainEntries k keep).1.aliveKeys slot ↔
      key ∈ index.aliveKeys slot ∧ ¬(key = k ∧ slot ∈ removed.slots) := by
    intro key
    rw [mem_aliveKeys, mem_aliveKeys, entries_retainEntries]
    by_cases hkey : key = k
    · subst hkey
      rw [if_pos rfl, mem_slots_filter (h.nodupSlots key)]
      simp [removed]
    · simp [hkey]
  by_cases hslot : slot ∈ removed.slots
  · have herase : (index.retainEntries k keep).1.aliveKeys slot =
        (index.aliveKeys slot).erase k := by
      ext key
      rw [hmem, Finset.mem_erase]
      simp only [hslot, and_true]
      exact and_comm
    have hk : k ∈ index.aliveKeys slot := by
      obtain ⟨item, hitem, rfl⟩ := mem_map.mp hslot
      exact mem_aliveKeys_of_mem (mem_of_mem_filter hitem)
    rw [herase, hcount, count_eq_one_of_mem hnodup hslot, Finset.card_erase_add_one hk]
  have hsame : (index.retainEntries k keep).1.aliveKeys slot = index.aliveKeys slot := by
    ext key
    rw [hmem]
    simp [hslot]
  rw [hsame, hcount, count_eq_zero_of_not_mem hslot, add_zero]

lemma removeAccount (h : Consistent index storage (item :: pending))
    (hstore : storage.get? item.1 = some store) :
    0 < store.count ∧ Consistent index
      (storage.insert item.1 { store with count := store.count - 1 }) pending := by
  have hcount := h.count hstore
  rw [pendingAt_cons_self] at hcount
  obtain ⟨hwithin, hwithin'⟩ := within_insert_count hstore (store.count - 1)
  refine ⟨by omega, ?_, ?_, ?_, h.nodupSlots, h.rooted, ?_, ?_, ?_⟩
  · intro s s' st st' hst hst' hid
    obtain ⟨st₀, hst₀, hid₀, -⟩ := hwithin hst
    obtain ⟨st₀', hst₀', hid₀', -⟩ := hwithin hst'
    exact h.ids hst₀ hst₀' (hid₀.trans (hid.trans hid₀'.symm))
  · intro s st hst
    obtain ⟨st₀, hst₀, -, haccounts⟩ := hwithin hst
    rw [AccountStorageEntry.keys, ← haccounts]
    exact h.nodupKeys hst₀
  · exact fun hitem ↦ (h.pointsTo hitem).of_within hwithin'
  · intro s st hst
    rw [get?_insert] at hst
    split_ifs at hst with hs
    · subst hs
      rw [Option.some.injEq] at hst
      rw [← hst]
      change store.count - 1 = _
      omega
    · rw [h.count hst, pendingAt_cons_of_ne (Ne.symm hs)]
  · intro other hother
    obtain ⟨st, hst, hid⟩ := h.pendingStored other (mem_cons_of_mem _ hother)
    obtain ⟨st', hst', hid', -⟩ := hwithin' hst
    exact ⟨st', hst', by rw [hid, hid']⟩
  · exact fun hlookup ↦ (Finset.card_le_card hwithin.copySlots_subset).trans (h.refs hlookup)

lemma congr_index (h : Consistent index storage pending)
    (hentries : ∀ key, index'.entries key = index.entries key)
    (hroots : ∀ {key item}, item ∈ index.entries key → item.1 ∈ index'.roots)
    (hrefs : ∀ {key entry}, index'.accountMaps.lookup key = some entry →
      (copySlots storage key).card ≤ entry.refCount) :
    Consistent index' storage pending where
  ids := h.ids
  nodupKeys := h.nodupKeys
  pointsTo := by
    intro key item hitem
    rw [hentries] at hitem
    exact h.pointsTo hitem
  nodupSlots := fun key ↦ by rw [hentries]; exact h.nodupSlots key
  rooted := by
    intro key item hitem
    rw [hentries] at hitem
    exact hroots hitem
  count := by
    intro slot store hstore
    rw [aliveKeys_congr hentries]
    exact h.count hstore
  pendingStored := h.pendingStored
  refs := hrefs

lemma removeIfSlotListEmpty (h : Consistent index storage pending) (k : Pubkey) :
    Consistent (index.removeIfSlotListEmpty k) storage pending := by
  refine h.congr_index (fun _ ↦ entries_removeIfSlotListEmpty) ?_ fun hlookup ↦
    h.refs (lookup_removeIfSlotListEmpty hlookup)
  intro key item hitem
  rw [sameRoots_removeIfSlotListEmpty.roots]
  exact h.rooted hitem

/-- Entries that are removed from the index become pending. -/
theorem retainEntries (h : Consistent index storage pending) (k : Pubkey)
    (keep : Slot × AccountInfo → Bool) :
    Consistent (index.retainEntries k keep).1 storage
      (pending ++ (index.retainEntries k keep).2) := by
  have hsub : ∀ key, ((index.retainEntries k keep).1.entries key).Sublist (index.entries key) := by
    intro key
    rw [entries_retainEntries]
    split_ifs with hkey
    · exact hkey ▸ filter_sublist
    · exact Sublist.refl _
  rw [reclaims_retainEntries]
  refine ⟨h.ids, h.nodupKeys, fun hitem ↦ h.pointsTo ((hsub _).subset hitem),
    fun key ↦ (h.nodupSlots key).sublist ((hsub key).map _), ?_, ?_, ?_, ?_⟩
  · intro key item hitem
    rw [sameRoots_retainEntries.roots]
    exact h.rooted ((hsub _).subset hitem)
  · intro s store hstore
    rw [h.count hstore, pendingAt_append, add_comm (pendingAt pending s), ← add_assoc,
      card_aliveKeys_retainEntries h]
  · intro item hitem
    rcases mem_append.mp hitem with hitem | hitem
    · exact h.pendingStored item hitem
    obtain ⟨store, -, hstore, hid, -⟩ := h.pointsTo (mem_of_mem_filter hitem)
    exact ⟨store, hstore, hid⟩
  intro key entry hlookup
  obtain ⟨before, hbefore, href⟩ := refCount_retainEntries hlookup
  exact href ▸ h.refs hbefore

lemma cleanOldEntries {maxCleanRoot : Option Slot} :
    ∀ (keys : List Pubkey) {index : AccountsIndex} {pending : SlotList},
      Consistent index storage pending →
      Consistent (cleanOldEntries maxCleanRoot keys index).1 storage
        (pending ++ (cleanOldEntries maxCleanRoot keys index).2)
  | [], index, pending, h => by
    rw [AccountsDb.cleanOldEntries, append_nil]
    exact h
  | key :: keys, index, pending, h => by
    rw [AccountsDb.cleanOldEntries, ← append_assoc]
    exact cleanOldEntries keys ((h.retainEntries key _).removeIfSlotListEmpty key)

lemma purgeEntries : ∀ (purges : Purges) {index : AccountsIndex} {pending : SlotList},
      Consistent index storage pending → Consistent (purgeEntries purges index).1 storage
        (pending ++ (purgeEntries purges index).2.1)
  | [], index, pending, h => by
    rw [AccountsDb.purgeEntries, append_nil]
    exact h
  | (key, purge) :: rest, index, pending, h => by
    rw [AccountsDb.purgeEntries, ← append_assoc]
    exact purgeEntries rest (h.retainEntries key _)

lemma handleDeadKeys :
    ∀ (keys : List Pubkey) {index : AccountsIndex}, Consistent index storage pending →
      Consistent (index.handleDeadKeys keys) storage pending
  | [], _, h => h
  | key :: keys, _, h => handleDeadKeys keys (h.removeIfSlotListEmpty key)

lemma purgeKeysExact (purges : Purges) (h : Consistent index storage []) :
    Consistent (purgeKeysExact index purges).1 storage (purgeKeysExact index purges).2 :=
  (h.purgeEntries purges).handleDeadKeys _

end Consistent

/-! ### Taking reclaimed entries from the counts -/

lemma getAccountStorageEntry_eq {storeId : StoreId} (hstore : db.storage.get? slot = some store)
    (hid : storeId = .appendVec store.id) :
    db.getAccountStorageEntry slot storeId = some store := by
  rw [getAccountStorageEntry, hstore, Option.filter_some, if_pos (by simpa using hid.symm)]

lemma Within.refl (storage : SortedMap Slot AccountStorageEntry) : Within storage storage :=
  fun h ↦ ⟨_, h, rfl, rfl⟩

/-- Removing the pending entries leaves the storages with the right counts, and no storage reaches
zero unnoticed. -/
theorem removeAccounts_spec :
    ∀ {pending : SlotList} {db : AccountsDb}, Consistent db.accountsIndex db.storage pending →
      ∃ storage' dirtyStores' deadSlots, removeAccounts pending db =
          some ({ db with
                  storage := storage'
                  dirtyStores := dirtyStores' }, deadSlots) ∧
        Consistent db.accountsIndex storage' [] ∧
        Within db.storage storage' ∧ Within storage' db.storage ∧
        ∀ {slot store'}, storage'.get? slot = some store' → store'.count = 0 →
          slot ∈ deadSlots ∨ ∃ store, db.storage.get? slot = some store ∧ store.count = 0
  | [], db, h =>
    ⟨db.storage, db.dirtyStores, [], rfl, h, Within.refl _, Within.refl _,
      fun hstore hcount ↦ .inr ⟨_, hstore, hcount⟩⟩
  | (slot, info) :: pending, db, h => by
    obtain ⟨store, hstore, hid⟩ := h.pendingStored (slot, info) mem_cons_self
    obtain ⟨hpos, hrest⟩ := h.removeAccount hstore
    set lower : AccountStorageEntry := { store with count := store.count - 1 } with hlower
    have hcached : info.isCached = false := by
      rw [AccountInfo.isCached, show info.storeId = .appendVec store.id from hid]
      rfl
    have hentry := getAccountStorageEntry_eq hstore hid
    have hremove : store.removeAccount = some lower := if_neg hpos.ne'
    obtain ⟨hwithin, hwithin'⟩ := within_insert_count hstore (store.count - 1)
    obtain ⟨storage', dirtyStores', deadSlots, heq, hcons, hin, hin', hdead⟩ :=
      @removeAccounts_spec pending
        { db with
          storage := db.storage.insert slot lower
          dirtyStores := if lower.count = 0 then (slot, lower) :: db.dirtyStores
            else db.dirtyStores } hrest
    refine ⟨storage', dirtyStores', if lower.count = 0 then deadSlots.insert slot else deadSlots,
      ?_, hcons, hwithin.trans hin, hin'.trans hwithin', ?_⟩
    · simp only [removeAccounts, hcached, Bool.false_eq_true, if_false, hentry, hremove, some_bind]
      split_ifs at heq ⊢
      · rw [heq]
        rfl
      · exact heq
    intro s store' hstore' hcount'
    rcases hdead hstore' hcount' with hmem | ⟨st, hst, hst0⟩
    · left
      split_ifs
      · exact mem_insert_of_mem hmem
      · exact hmem
    rw [get?_insert] at hst
    split_ifs at hst with hs
    · cases hst
      rw [if_pos hst0, hs]
      exact .inl mem_insert_self
    · exact .inr ⟨st, hst, hst0⟩

/-! ### Removing dead slots -/

lemma mem_slotPubkeys {slots : List Slot} :
    (slot, key) ∈ db.slotPubkeys slots ↔ slot ∈ slots ∧ slot ∈ copySlots db.storage key := by
  simp only [slotPubkeys, mem_flatMap, mem_copySlots]
  constructor
  · rintro ⟨s, hs, hmem⟩
    cases hstore : db.storage.get? s with
    | none => simp [hstore] at hmem
    | some store =>
      simp only [hstore, Option.map_some, Option.getD_some, mem_map, Prod.mk.injEq] at hmem
      obtain ⟨k, hk, rfl, rfl⟩ := hmem
      exact ⟨hs, store, hstore, hk⟩
  rintro ⟨hs, store, hstore, hkey⟩
  refine ⟨slot, hs, ?_⟩
  rw [hstore]
  exact mem_map.mpr ⟨key, hkey, rfl⟩

variable (collector : List (Slot × Pubkey))

/-- The number of references that the batches take back. -/
def batched : ℕ :=
  (1 + (collector.map snd).dedup.length / batchSize) * batchSize

lemma flatMap_batches {α : Type} (l : List α) (k n : ℕ) :
    ((range n).flatMap fun i ↦ (l.drop (i * k)).take k) = l.take (n * k) := by
  induction n with
  | zero => simp
  | succ n ih => rw [range_succ, flatMap_append, ih, flatMap_singleton, Nat.succ_mul, take_add]

lemma unrefBatches_eq : unrefBatches purged collector index =
    (purged.take (batched collector)).foldl (fun index p ↦ index.unrefFromStorage p.2) index :=
  congrArg (foldl _ index) (flatMap_batches purged _ _)

lemma countP_eq_ncard (hnodup : purged.Nodup) {s : Set Slot}
    (h : ∀ slot, (slot, key) ∈ purged ↔ slot ∈ s) :
    purged.countP (fun p ↦ decide (p.2 = key)) = s.ncard := by
  set mine := purged.filter fun p ↦ decide (p.2 = key) with hmine
  have hslots : (mine.map fst).Nodup := by
    refine (hnodup.filter _).map_on fun p hp q hq heq ↦ Prod.ext heq ?_
    rw [of_decide_eq_true (mem_filter.mp hp).2, of_decide_eq_true (mem_filter.mp hq).2]
  have hset : s = (mine.map fst).toFinset := by
    ext slot
    simp [hmine, ← h]
  rw [hset, Set.ncard_coe_finset, toFinset_card_of_nodup hslots, length_map,
    countP_eq_length_filter]

variable {deadSlots : List Slot}

/-- The reference count stays above the number of versions when storages are removed. -/
theorem card_copySlots_le (hnodup : purged.Nodup)
    (h : ∀ slot, (slot, key) ∈ purged ↔ slot ∈ copySlots storage key ∧ slot ∈ deadSlots)
    {refCount n : ℕ}
    (hrefs : (copySlots storage key).card ≤ refCount) :
    (copySlots (storage.filterKeys fun slot ↦ decide (slot ∉ deadSlots)) key).card ≤
      refCount - (purged.take n).countP fun p ↦ decide (p.2 = key) := by
  have hlost : (purged.take n).countP (fun p ↦ decide (p.2 = key)) ≤
      ((copySlots storage key).filter (· ∈ deadSlots)).card := by
    rw [← Set.ncard_coe_finset,
      ← countP_eq_ncard hnodup fun slot ↦ (h slot).trans Finset.mem_filter.symm]
    exact (take_sublist n purged).countP_le
  have hkept : copySlots (storage.filterKeys fun slot ↦ decide (slot ∉ deadSlots)) key ⊆
      (copySlots storage key).filter (· ∉ deadSlots) := by
    intro slot hslot
    obtain ⟨store, hstore, hkey⟩ := mem_copySlots.mp hslot
    rw [get?_filterKeys_eq_some, decide_eq_true_eq] at hstore
    exact Finset.mem_filter.mpr ⟨mem_copySlots.mpr ⟨store, hstore.1, hkey⟩, hstore.2⟩
  have hkept_card := Finset.card_le_card hkept
  have hsplit := (copySlots storage key).card_filter_add_card_filter_not (· ∈ deadSlots)
  omega

/-- What reclaiming does to the index and the storages: the entries stay, and every storage in whose
slot there is one; all others are removed, with their slots and references. -/
structure Reclaimed (index : AccountsIndex) (storage : SortedMap Slot AccountStorageEntry)
    (index' : AccountsIndex) (storage' : SortedMap Slot AccountStorageEntry)
    (purged : List (Slot × Pubkey)) : Prop where
  entries : ∀ key, index'.entries key = index.entries key
  lookup : ∀ {key}, (∀ slot, (slot, key) ∉ purged) →
    index'.accountMaps.lookup key = index.accountMaps.lookup key
  maxRoot : index'.maxRoot = index.maxRoot
  uncleanedRoots : ∀ {key item}, item ∈ index.entries key →
    (item.1 ∈ index'.uncleanedRoots ↔ item.1 ∈ index.uncleanedRoots)
  uncleanedRoots_subset : index'.uncleanedRoots ⊆ index.uncleanedRoots
  within : Within storage storage'
  stays : ∀ {slot store}, storage.get? slot = some store → (index.aliveKeys slot).Nonempty →
    ∃ store', storage'.get? slot = some store' ∧ store'.id = store.id ∧
      store'.accounts = store.accounts
  consistent : Consistent index' storage' []
  alive : ∀ {slot store}, storage'.get? slot = some store → (index'.aliveKeys slot).Nonempty

lemma Consistent.count_eq (h : Consistent index storage [])
    (hstore : storage.get? slot = some store) : store.count = (index.aliveKeys slot).card := by
  rw [h.count hstore, pendingAt, countP_nil, add_zero]

lemma Reclaimed.refl (h : Consistent index storage [])
    (halive : ∀ {slot store}, storage.get? slot = some store → (index.aliveKeys slot).Nonempty) :
    Reclaimed index storage index storage [] :=
  ⟨fun _ ↦ rfl, fun _ ↦ rfl, rfl, fun _ ↦ Iff.rfl, Finset.Subset.refl _, Within.refl _,
    fun hstore _ ↦ ⟨_, hstore, rfl, rfl⟩, h, halive⟩

/-- Dead slots are removed from the index and the storage. -/
theorem processDeadSlots_spec (order : HashOrder) (h : Consistent db.accountsIndex db.storage [])
    (hdead : ∀ slot ∈ deadSlots, ∀ store, db.storage.get? slot = some store → store.count = 0)
    (hzero : ∀ {slot store}, db.storage.get? slot = some store → store.count = 0 →
      slot ∈ deadSlots) :
    ∃ index' storage' purged, db.processDeadSlots deadSlots [] order =
        some ({ db with
                accountsIndex := index'
                storage := storage' }, purged) ∧
      Reclaimed db.accountsIndex db.storage index' storage' purged := by
  have halive : ∀ {slot store}, db.storage.get? slot = some store → slot ∉ deadSlots →
      (db.accountsIndex.aliveKeys slot).Nonempty := by
    intro slot store hstore hslot
    rw [← Finset.card_pos, ← h.count_eq hstore]
    exact Nat.pos_of_ne_zero fun h0 ↦ hslot (hzero hstore h0)
  have hnotDead : ∀ {key item}, item ∈ db.accountsIndex.entries key → item.1 ∉ deadSlots := by
    intro key item hitem hmem
    obtain ⟨store, -, hstore, -⟩ := h.pointsTo hitem
    have hcount := h.count_eq hstore
    rw [hdead _ hmem _ hstore] at hcount
    exact absurd (mem_aliveKeys_of_mem hitem)
      (Finset.card_eq_zero.mp hcount.symm ▸ Finset.notMem_empty _)
  by_cases hempty : deadSlots.isEmpty
  · rw [processDeadSlots, if_pos hempty]
    rw [List.isEmpty_iff] at hempty
    subst hempty
    exact ⟨_, _, [], rfl, .refl h fun hstore ↦ halive hstore not_mem_nil⟩
  rw [processDeadSlots, if_neg hempty]
  set purged := order.pairs (db.slotPubkeys deadSlots).dedup with hpurged
  have hmem : ∀ {slot key}, (slot, key) ∈ purged ↔
      slot ∈ deadSlots ∧ slot ∈ copySlots db.storage key := by
    intro slot key
    rw [hpurged, (order.pairs_perm _).mem_iff, mem_dedup, mem_slotPubkeys]
  have hnodup : purged.Nodup := (order.pairs_perm _).nodup_iff.mpr (nodup_dedup _)
  dsimp only
  rw [foldl_cleanDeadSlot, unrefBatches_eq]
  set unrefed := (purged.take (batched [])).foldl (fun index p ↦ index.unrefFromStorage p.2)
    db.accountsIndex with hunrefed
  have hsame : AccountsIndex.SameRoots db.accountsIndex unrefed := sameRoots_foldl_unref _ _
  have hlookup : ∀ key, unrefed.accountMaps.lookup key =
      (db.accountsIndex.accountMaps.lookup key).map fun entry ↦
        { entry with
          refCount := entry.refCount -
            (purged.take (batched [])).countP fun p ↦ decide (p.2 = key) } :=
    fun key ↦ lookup_foldl_unref _ _
  have hentries : ∀ key, unrefed.entries key = db.accountsIndex.entries key := by
    intro key
    rw [AccountsIndex.entries, hlookup, Option.map_map]
    rfl
  have hget : ∀ {slot store}, (db.storage.filterKeys fun slot ↦ decide (slot ∉ deadSlots)).get?
      slot = some store ↔ db.storage.get? slot = some store ∧ slot ∉ deadSlots := by
    intro slot store
    rw [get?_filterKeys_eq_some, decide_eq_true_eq]
  have hwithin : Within db.storage
      (db.storage.filterKeys fun slot ↦ decide (slot ∉ deadSlots)) := fun hstore ↦
    ⟨_, (hget.mp hstore).1, rfl, rfl⟩
  -- the slots have just been removed from the roots
  have hnotRoots : ¬ (deadSlots.any fun slot ↦
      decide (slot ∈ unrefed.roots.filter (· ∉ deadSlots))) = true := by
    rw [any_eq_true]
    rintro ⟨slot, hslot, hroot⟩
    exact (Finset.mem_filter.mp (of_decide_eq_true hroot)).2 hslot
  rw [if_neg hnotRoots, append_nil]
  refine ⟨_, _, _, rfl, hentries, ?_, hsame.maxRoot, ?_, ?_, hwithin, ?_, ?_, ?_⟩
  · intro key hkey
    have hnone : (purged.take (batched [])).countP (fun p ↦ decide (p.2 = key)) = 0 := by
      rw [countP_eq_zero]
      rintro ⟨s, k⟩ hp hk
      rw [decide_eq_true_eq] at hk
      exact hkey s (hk ▸ mem_of_mem_take hp)
    change unrefed.accountMaps.lookup key = _
    rw [hlookup, hnone]
    exact Option.map_id'
  · intro key item hitem
    simp only [Finset.mem_filter, hsame.uncleanedRoots, hnotDead hitem, not_false_iff, and_true]
  · intro root hroot
    simp only [Finset.mem_filter, hsame.uncleanedRoots] at hroot
    exact hroot.1
  · intro slot store hstore halive
    refine ⟨store, hget.mpr ⟨hstore, fun hslot ↦ ?_⟩, rfl, rfl⟩
    obtain ⟨key, hkey⟩ := halive
    obtain ⟨item, hitem, rfl⟩ := mem_map.mp (mem_aliveKeys.mp hkey)
    exact hnotDead hitem hslot
  · refine ⟨fun hs hs' ↦ h.ids (hget.mp hs).1 (hget.mp hs').1,
      fun hs ↦ h.nodupKeys (hget.mp hs).1, ?_, ?_, ?_, ?_, by simp, ?_⟩
    · intro key item hitem
      replace hitem : item ∈ db.accountsIndex.entries key := hentries key ▸ hitem
      obtain ⟨store, account, hstore, hrest⟩ := h.pointsTo hitem
      exact ⟨store, account, hget.mpr ⟨hstore, hnotDead hitem⟩, hrest⟩
    · intro key
      change (unrefed.entries key).slots.Nodup
      rw [hentries]
      exact h.nodupSlots key
    · intro key item hitem
      replace hitem : item ∈ db.accountsIndex.entries key := hentries key ▸ hitem
      simp only [Finset.mem_filter, hsame.roots]
      exact ⟨h.rooted hitem, hnotDead hitem⟩
    · intro slot store hstore
      rw [h.count (hget.mp hstore).1]
      congr 2
      exact (aliveKeys_congr hentries).symm
    -- every removed storage takes one reference at most
    intro key entry hentry
    change unrefed.accountMaps.lookup key = some entry at hentry
    rw [hlookup, Option.map_eq_some_iff] at hentry
    obtain ⟨before, hbefore, rfl⟩ := hentry
    exact card_copySlots_le hnodup (fun slot ↦ hmem.trans and_comm) (h.refs hbefore)
  intro slot store hstore
  obtain ⟨key, hkey⟩ := halive (hget.mp hstore).1 (hget.mp hstore).2
  refine ⟨key, ?_⟩
  rw [mem_aliveKeys] at hkey ⊢
  exact (hentries key).symm ▸ hkey

/-- Reclaiming: what is pending is taken from the counts, and the storages without entries are
removed. -/
theorem handleReclaims_spec {reclaims : SlotList} (order : HashOrder)
    (h : Consistent db.accountsIndex db.storage reclaims)
    (hpos : ∀ {slot store}, db.storage.get? slot = some store → 0 < store.count) :
    ∃ index' storage' dirtyStores' purged, db.handleReclaims reclaims order =
        some ({ db with
                accountsIndex := index'
                storage := storage'
                dirtyStores := dirtyStores' },
          ⟨purged, reclaims.map fun item ↦ (item.2.storeId, item.2.offset)⟩) ∧
      Reclaimed db.accountsIndex db.storage index' storage' purged := by
  rw [handleReclaims]
  split_ifs with hempty
  · rw [List.isEmpty_iff] at hempty
    subst hempty
    exact ⟨_, _, _, [], rfl, .refl h fun hstore ↦
      Finset.card_pos.mp (h.count_eq hstore ▸ hpos hstore)⟩
  obtain ⟨storage₁, dirtyStores₁, slots, heq, hcons, hin, hin', hzero⟩ := removeAccounts_spec h
  simp only [removeDeadAccounts, heq, some_bind, Option.pure_def]
  set deadSlots := slots.filter fun slot ↦ (storage₁.get? slot).all fun store ↦
    decide (store.count = 0) with hdeadSlots
  obtain ⟨index', storage', purged, hprocess, hreclaimed⟩ := @processDeadSlots_spec
    { db with
      storage := storage₁
      dirtyStores := dirtyStores₁ } deadSlots order hcons
    (by
      intro slot hslot store hstore
      have hall := (mem_filter.mp hslot).2
      rw [show storage₁.get? slot = some store from hstore] at hall
      simpa using hall)
    (by
      intro slot store hstore hcount
      refine mem_filter.mpr ⟨?_, ?_⟩
      · rcases hzero hstore hcount with hmem | ⟨store₀, hstore₀, hcount₀⟩
        · exact hmem
        · exact absurd hcount₀ (hpos hstore₀).ne'
      rw [show storage₁.get? slot = some store from hstore]
      simpa using hcount)
  refine ⟨index', storage', dirtyStores₁, purged, ?_, hreclaimed.entries, hreclaimed.lookup,
    hreclaimed.maxRoot, hreclaimed.uncleanedRoots, hreclaimed.uncleanedRoots_subset,
    hin.trans hreclaimed.within, ?_, hreclaimed.consistent, hreclaimed.alive⟩
  · rw [hprocess]
    rfl
  intro slot store hstore halive
  obtain ⟨store₁, hstore₁, hid, haccounts⟩ := hin' hstore
  obtain ⟨store', hstore', hid', haccounts'⟩ := hreclaimed.stays hstore₁ halive
  exact ⟨store', hstore', hid'.trans hid, haccounts'.trans haccounts⟩

end AccountsDb

end Renec
