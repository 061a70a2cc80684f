import Renec.AccountsDb.CleanSafety

/-!
# Runs of the accounts database

Any sequence of slots that are written, rooted and flushed, and of cleans: the invariant of
`Renec.AccountsDb.CleanSafety` holds after each step, and no step panics.
-/

namespace Renec

open List AccountStorageEntry AccountsIndex AccountInfo
open Prod hiding map_map

variable {key : Pubkey}

namespace AccountStorageEntry

variable {store : AccountStorageEntry}

@[simp] lemma map_fst_infos (store : AccountStorageEntry) : store.infos.map fst = store.keys := by
  rw [infos, keys]
  refine ext_getElem (by simp) fun i h h' ↦ ?_
  simp

lemma of_mem_infos {p : Pubkey × AccountInfo} (h : p ∈ store.infos) :
    ∃ account, (p.1, account) ∈ store.accounts ∧ p.2.storeId = .appendVec store.id ∧
      p.2.lamports = account.lamports := by
  rw [infos, mem_mapIdx] at h
  obtain ⟨i, hi, rfl⟩ := h
  exact ⟨store.accounts[i].2, getElem_mem hi, rfl, rfl⟩

lemma exists_mem_infos (h : key ∈ store.keys) : ∃ info, (key, info) ∈ store.infos := by
  rw [← map_fst_infos] at h
  obtain ⟨p, hp, rfl⟩ := mem_map.mp h
  exact ⟨p.2, hp⟩

end AccountStorageEntry

namespace AccountsDb

variable {db : AccountsDb} {written : Pubkey → Option (Slot × Account)} {last full : Option Slot}
  {slot : Slot} {accounts : List (Pubkey × Account)}

/-! ### Writing a slot -/

/-- The version of an account that is written last, when a slot is. -/
def record (written : Pubkey → Option (Slot × Account)) (slot : Slot)
    (accounts : List (Pubkey × Account)) (key : Pubkey) : Option (Slot × Account) :=
  match accounts.lookup key with
  | some account => some (slot, account.stored)
  | none => written key

variable {index : AccountsIndex}

lemma upsertEntry_fresh (hfresh : slot ∉ (index.entries key).slots) (info : AccountInfo)
    (b : Bool) :
    upsertEntry slot info b (index.accountMaps.lookup key) =
      some (⟨index.entries key ++ [(slot, info)],
        index.refCountFromStorage key + if info.isCached then 0 else 1⟩, []) := by
  rw [entries, refCountFromStorage] at *
  cases hlookup : index.accountMaps.lookup key with
  | none => simp [upsertEntry]
  | some entry =>
    rw [hlookup] at hfresh
    simp only [upsertEntry, Option.map_some, Option.getD_some] at hfresh ⊢
    rw [updateSlotList_of_notMem hfresh]
    cases info.isCached <;> rfl

lemma upsertEntry_flush {list : SlotList} (hfresh : slot ∉ list.slots) (lamports refCount : ℕ)
    {info : AccountInfo} (hinfo : info.isCached = false) :
    upsertEntry slot info false (some ⟨list ++ [(slot, .cached lamports)], refCount⟩) =
      some (⟨list ++ [(slot, info)], refCount + 1⟩, [(slot, .cached lamports)]) := by
  simp only [upsertEntry, updateSlotList_cached hfresh, hinfo, Option.map_some, Bool.not_false,
    if_true]

lemma addRoot_eq (h : index.maxRoot ≤ slot) : index.addRoot slot =
      some { index with
        roots := insert slot index.roots
        maxRoot := slot } :=
  if_neg (not_lt.mpr h)

lemma storeCached_eq (hfresh : ∀ key, slot ∉ (db.accountsIndex.entries key).slots)
    (hnodup : (accounts.map fst).Nodup) :
    ∃ maps, db.storeCached slot accounts =
        some { db with accountsIndex := { db.accountsIndex with accountMaps := maps } } ∧
      (∀ p ∈ accounts, maps.lookup p.1 =
        some ⟨db.accountsIndex.entries p.1 ++ [(slot, .cached p.2.lamports)],
          db.accountsIndex.refCountFromStorage p.1⟩) ∧
      ∀ key ∉ accounts.map fst, maps.lookup key = db.accountsIndex.accountMaps.lookup key := by
  rw [storeCached]
  split_ifs with hempty
  · rw [List.isEmpty_iff] at hempty
    subst hempty
    exact ⟨db.accountsIndex.accountMaps, rfl, by simp, fun _ _ ↦ rfl⟩
  have hkeys : (accounts.map fun p ↦ (p.1, cached p.2.lamports)).map fst = accounts.map fst := by
    rw [map_map]
    rfl
  obtain ⟨maps, heq, hmem, hother⟩ := @updateIndex_eq slot true
    (fun p ↦ (⟨db.accountsIndex.entries p.1 ++ [(slot, p.2)],
      db.accountsIndex.refCountFromStorage p.1⟩, []))
    (accounts.map fun p ↦ (p.1, cached p.2.lamports)) db.accountsIndex
    (hkeys ▸ hnodup)
    (by
      intro p hp
      obtain ⟨q, -, rfl⟩ := mem_map.mp hp
      exact upsertEntry_fresh (hfresh q.1) _ _)
  refine ⟨maps, ?_, fun p hp ↦ hmem _ (mem_map.mpr ⟨p, hp, rfl⟩), hkeys ▸ hother⟩
  simp only [heq, some_bind, Option.pure_def]
  rw [if_pos (by simp)]

section

variable (id : ℕ) (accounts : List (Pubkey × Account))

/-- The storage to which the accounts of a slot are flushed. -/
def flushedStore : AccountStorageEntry :=
  ⟨id, accounts.map fun p ↦ (p.1, p.2.stored), accounts.length⟩

@[simp] lemma keys_flushedStore : (flushedStore id accounts).keys = accounts.map fst := by
  rw [AccountStorageEntry.keys, flushedStore, map_map]
  rfl

end

lemma flushSlotCache_eq {list : Pubkey → SlotList} {refCount : Pubkey → ℕ}
    (hne : accounts ≠ []) (hnodup : (accounts.map Prod.fst).Nodup)
    (hfresh : ∀ key, slot ∉ (list key).slots)
    (hcached : ∀ p ∈ accounts, db.accountsIndex.accountMaps.lookup p.1 =
      some ⟨list p.1 ++ [(slot, .cached p.2.lamports)], refCount p.1⟩) :
    ∃ maps, db.flushSlotCache slot accounts =
        some { db with
          accountsIndex := { db.accountsIndex with accountMaps := maps }
          storage := db.storage.insert slot (flushedStore db.nextId accounts)
          nextId := db.nextId + 1 } ∧
      (∀ p ∈ (flushedStore db.nextId accounts).infos, maps.lookup p.1 =
        some ⟨list p.1 ++ [(slot, p.2)], refCount p.1 + 1⟩) ∧
      ∀ key ∉ accounts.map Prod.fst, maps.lookup key = db.accountsIndex.accountMaps.lookup key := by
  obtain ⟨maps, heq, hmem, hother⟩ := @updateIndex_eq slot false
    (fun p ↦ (⟨list p.1 ++ [(slot, p.2)], refCount p.1 + 1⟩, [(slot, .cached p.2.lamports)]))
    (flushedStore db.nextId accounts).infos db.accountsIndex
    (by rwa [map_fst_infos, keys_flushedStore])
    (by
      intro p hp
      obtain ⟨account, haccount, hid, hlamports⟩ := of_mem_infos hp
      obtain ⟨q, hq, heq⟩ := mem_map.mp haccount
      obtain ⟨hkey, rfl⟩ := Prod.mk.inj heq
      rw [Account.lamports_stored] at hlamports
      rw [← hkey, hcached q hq, hlamports]
      refine upsertEntry_flush (hfresh q.1) _ _ ?_
      rw [isCached, hid]
      rfl)
  rw [map_fst_infos, keys_flushedStore] at hother
  refine ⟨maps, ?_, hmem, hother⟩
  have hreclaims : (((flushedStore db.nextId accounts).infos.flatMap fun p ↦
      [(slot, cached p.2.lamports)]).filter fun item ↦ !item.2.isCached) = [] := by
    rw [filter_eq_nil_iff]
    intro item hitem
    obtain ⟨p, -, hp⟩ := mem_flatMap.mp hitem
    rw [mem_singleton] at hp
    simp [hp]
  rw [flushSlotCache, if_neg (by simpa using hne)]
  change (db.accountsIndex.updateIndex slot false (flushedStore db.nextId accounts).infos).bind _ =
    _
  rw [heq, Option.bind_some]
  dsimp only
  rw [hreclaims]
  rfl

/-- Writing a slot: what is new in the index and the storages. -/
theorem writeRootAndFlush_eq (hfresh : ∀ key, slot ∉ (db.accountsIndex.entries key).slots)
    (hnodup : (accounts.map fst).Nodup) (hroot : db.accountsIndex.maxRoot ≤ slot) :
    ∃ maps, db.writeRootAndFlush slot accounts =
        some { db with
          accountsIndex :=
            ⟨maps, insert slot db.accountsIndex.roots, slot,
              insert slot db.accountsIndex.uncleanedRoots⟩
          storage :=
            if accounts = [] then db.storage
            else db.storage.insert slot (flushedStore db.nextId accounts)
          nextId := if accounts = [] then db.nextId else db.nextId + 1
          uncleanedPubkeys := db.uncleanedPubkeys.insert slot (accounts.map fst) } ∧
      (∀ p ∈ (flushedStore db.nextId accounts).infos, maps.lookup p.1 =
        some ⟨db.accountsIndex.entries p.1 ++ [(slot, p.2)],
          db.accountsIndex.refCountFromStorage p.1 + 1⟩) ∧
      ∀ key ∉ accounts.map fst, maps.lookup key = db.accountsIndex.accountMaps.lookup key := by
  obtain ⟨maps₁, hstore, hcached, hother₁⟩ := storeCached_eq hfresh hnodup
  simp only [writeRootAndFlush, hstore, some_bind, recordUncleanedPubkeys]
  rw [@addRoot_eq slot { db.accountsIndex with accountMaps := maps₁ } hroot, some_bind]
  by_cases hempty : accounts = []
  · subst hempty
    exact ⟨maps₁, rfl, by simp [flushedStore, infos], hother₁⟩
  obtain ⟨maps, hflush, hmem, hother⟩ := @flushSlotCache_eq
    { db with
      accountsIndex :=
        { db.accountsIndex with
          accountMaps := maps₁
          roots := insert slot db.accountsIndex.roots
          maxRoot := slot }
      uncleanedPubkeys := db.uncleanedPubkeys.insert slot (accounts.map fst) }
    slot accounts _ _ hempty hnodup hfresh hcached
  refine ⟨maps, ?_, hmem, fun key hkey ↦ (hother key hkey).trans (hother₁ key hkey)⟩
  rw [if_neg hempty, if_neg hempty]
  exact congrArg (Option.bind · _) hflush

/-- The slots of a database are before a new one. -/
structure Before (db : AccountsDb) (slot : Slot) : Prop where
  storage : ∀ {s store}, db.storage.get? s = some store → s < slot
  maxRoot : db.accountsIndex.maxRoot ≤ slot

lemma Sound.before (h : Sound db written last full) (hlast : ∀ l ∈ last, l < slot) :
    Before db slot where
  storage := by
    intro s store hstore
    obtain ⟨l, hl, hle⟩ := h.slots hstore
    exact hle.trans_lt (hlast l hl)
  maxRoot := by
    rw [h.maxRoot]
    cases last with
    | none => exact Nat.zero_le _
    | some l => exact (hlast l rfl).le

variable {item : Slot × AccountInfo}

lemma notMem_slots {list : SlotList} (h : ∀ item ∈ list, item.1 < slot) : slot ∉ list.slots :=
  fun hmem ↦ by
    obtain ⟨item, hitem, rfl⟩ := mem_map.mp hmem
    exact lt_irrefl _ (h item hitem)

lemma Before.entries (h : Before db slot) (hcons : Consistent db.accountsIndex db.storage [])
    (hitem : item ∈ db.accountsIndex.entries key) : item.1 < slot := by
  obtain ⟨store, -, hstore, -⟩ := hcons.pointsTo hitem
  exact h.storage hstore

/-- The database after a slot is written: a new storage, and an entry for each of its accounts. -/
structure Wrote (db : AccountsDb) (slot : Slot) (accounts : List (Pubkey × Account))
    (db' : AccountsDb) : Prop where
  get?_storage : ∀ {s store}, db'.storage.get? s = some store ↔
    s = slot ∧ accounts ≠ [] ∧ store = flushedStore db.nextId accounts ∨
      db.storage.get? s = some store
  lookup_of_mem : ∀ {key}, key ∈ accounts.map fst →
    ∃ info, (key, info) ∈ (flushedStore db.nextId accounts).infos ∧
      db'.accountsIndex.accountMaps.lookup key =
        some ⟨db.accountsIndex.entries key ++ [(slot, info)],
          db.accountsIndex.refCountFromStorage key + 1⟩
  lookup_of_notMem : ∀ {key}, key ∉ accounts.map fst →
    db'.accountsIndex.accountMaps.lookup key = db.accountsIndex.accountMaps.lookup key
  roots : db'.accountsIndex.roots = insert slot db.accountsIndex.roots
  maxRoot : db'.accountsIndex.maxRoot = slot
  uncleanedRoots : db'.accountsIndex.uncleanedRoots = insert slot db.accountsIndex.uncleanedRoots
  uncleanedPubkeys : db'.uncleanedPubkeys = db.uncleanedPubkeys.insert slot (accounts.map fst)
  nextId : accounts ≠ [] → db'.nextId = db.nextId + 1
  nextId_le : db.nextId ≤ db'.nextId
  waiting : db'.zeroLamportAccountsToPurgeAfterFullSnapshot =
    db.zeroLamportAccountsToPurgeAfterFullSnapshot

lemma exists_wrote (hbefore : Before db slot) (hcons : Consistent db.accountsIndex db.storage [])
    (hnodup : (accounts.map fst).Nodup) :
    ∃ db', db.writeRootAndFlush slot accounts = some db' ∧ Wrote db slot accounts db' := by
  have hfresh : ∀ key, slot ∉ (db.accountsIndex.entries key).slots := fun key ↦
    notMem_slots fun item ↦ hbefore.entries hcons
  obtain ⟨maps, hwrite, hmem, hother⟩ := writeRootAndFlush_eq hfresh hnodup hbefore.maxRoot
  refine ⟨_, hwrite, ⟨?_, ?_, hother _, rfl, rfl, rfl, rfl, fun hne ↦ if_neg hne, ?_, rfl⟩⟩
  · intro s store
    dsimp only
    split_ifs with hempty
    · simp [hempty]
    rw [SortedMap.get?_insert]
    split_ifs with hs
    · subst hs
      have hnone : db.storage.get? s ≠ some store := fun hsome ↦ (hbefore.storage hsome).ne rfl
      simp [hempty, hnone, eq_comm]
    · simp [hs]
  · intro key hkey
    obtain ⟨info, hinfo⟩ := exists_mem_infos ((keys_flushedStore db.nextId accounts).symm ▸ hkey)
    exact ⟨info, hinfo, hmem _ hinfo⟩
  dsimp only
  split_ifs
  · exact le_rfl
  · exact Nat.le_succ _

namespace Wrote

variable {db' : AccountsDb}

lemma ne_nil (hkey : key ∈ accounts.map fst) : accounts ≠ [] := by
  rintro rfl
  exact not_mem_nil hkey

lemma record_of_mem (hnodup : (accounts.map fst).Nodup) {p : Pubkey × Account}
    (hp : p ∈ accounts) : record written slot accounts p.1 = some (slot, p.2.stored) := by
  rw [record, lookup_eq_some_of_mem hnodup hp]

lemma record_of_notMem (hkey : key ∉ accounts.map fst) :
    record written slot accounts key = written key := by
  have hnone : accounts.lookup key = none := by
    rw [lookup_eq_none_iff]
    intro p hp
    rw [bne_iff_ne]
    exact fun heq ↦ hkey (mem_map.mpr ⟨p, hp, heq.symm⟩)
  rw [record, hnone]

variable (h : Wrote db slot accounts db')

include h

lemma entries_of_mem (hkey : key ∈ accounts.map fst) :
    ∃ info, (key, info) ∈ (flushedStore db.nextId accounts).infos ∧
      db'.accountsIndex.entries key = db.accountsIndex.entries key ++ [(slot, info)] := by
  obtain ⟨info, hinfo, hlookup⟩ := h.lookup_of_mem hkey
  exact ⟨info, hinfo, entries_of_lookup hlookup⟩

lemma entries_of_notMem (hkey : key ∉ accounts.map fst) :
    db'.accountsIndex.entries key = db.accountsIndex.entries key := by
  rw [entries, entries, h.lookup_of_notMem hkey]

lemma mem_entries (hitem : item ∈ db'.accountsIndex.entries key) :
    item ∈ db.accountsIndex.entries key ∨ item.1 = slot ∧ key ∈ accounts.map fst ∧
      (key, item.2) ∈ (flushedStore db.nextId accounts).infos := by
  by_cases hkey : key ∈ accounts.map fst
  · obtain ⟨info, hinfo, heq⟩ := h.entries_of_mem hkey
    rw [heq, mem_append, mem_singleton] at hitem
    rcases hitem with hitem | rfl
    · exact .inl hitem
    · exact .inr ⟨rfl, hkey, hinfo⟩
  · exact .inl (h.entries_of_notMem hkey ▸ hitem)

lemma get?_slot (hne : accounts ≠ []) :
    db'.storage.get? slot = some (flushedStore db.nextId accounts) :=
  h.get?_storage.mpr (.inl ⟨rfl, hne, rfl⟩)

variable {s : Slot}

lemma mem_aliveKeys : key ∈ db'.accountsIndex.aliveKeys s ↔
      s = slot ∧ key ∈ accounts.map fst ∨ key ∈ db.accountsIndex.aliveKeys s := by
  rw [AccountsIndex.mem_aliveKeys, AccountsIndex.mem_aliveKeys]
  constructor
  · intro hslot
    obtain ⟨item, hitem, rfl⟩ := mem_map.mp hslot
    rcases h.mem_entries hitem with hitem | ⟨heq, hkey, -⟩
    · exact .inr (mem_map_of_mem hitem)
    · exact .inl ⟨heq, hkey⟩
  by_cases hkey : key ∈ accounts.map fst
  · obtain ⟨info, -, heq⟩ := h.entries_of_mem hkey
    rw [heq, SlotList.slots_append]
    rintro (⟨rfl, -⟩ | hold)
    · exact mem_append_right _ (mem_singleton_self _)
    · exact mem_append_left _ hold
  rw [h.entries_of_notMem hkey]
  exact fun hor ↦ hor.resolve_left fun hnew ↦ hkey hnew.2

lemma mem_copySlots : s ∈ copySlots db'.storage key ↔
      s = slot ∧ key ∈ accounts.map fst ∨ s ∈ copySlots db.storage key := by
  rw [AccountsDb.mem_copySlots, AccountsDb.mem_copySlots]
  constructor
  · rintro ⟨store, hstore, hkey⟩
    rcases h.get?_storage.mp hstore with ⟨rfl, -, rfl⟩ | hold
    · rw [keys_flushedStore] at hkey
      exact .inl ⟨rfl, hkey⟩
    · exact .inr ⟨store, hold, hkey⟩
  rintro (⟨rfl, hkey⟩ | ⟨store, hstore, hkey⟩)
  · exact ⟨_, h.get?_slot (ne_nil hkey), by rwa [keys_flushedStore]⟩
  · exact ⟨store, h.get?_storage.mpr (.inr hstore), hkey⟩

variable (hsound : Sound db written last full) (hbefore : Before db slot)
  (hnodup : (accounts.map fst).Nodup)

include hsound hbefore hnodup

/-- A written slot is consistent. -/
theorem consistent : Consistent db'.accountsIndex db'.storage [] := by
  have hcons := hsound.consistent
  refine ⟨?_, ?_, ?_, ?_, ?_, ?_, by simp, ?_⟩
  · intro s s' store store' hstore hstore' hid
    rcases h.get?_storage.mp hstore with ⟨rfl, -, rfl⟩ | hold <;>
      rcases h.get?_storage.mp hstore' with ⟨rfl, -, rfl⟩ | hold'
    · rfl
    · exact absurd hid (hsound.nextId hold').ne'
    · exact absurd hid (hsound.nextId hold).ne
    · exact hcons.ids hold hold' hid
  · intro s store hstore
    rcases h.get?_storage.mp hstore with ⟨rfl, -, rfl⟩ | hold
    · rwa [keys_flushedStore]
    · exact hcons.nodupKeys hold
  · intro key item hitem
    rcases h.mem_entries hitem with hitem | ⟨heq, hkey, hinfo⟩
    · obtain ⟨store, account, hstore, hrest⟩ := hcons.pointsTo hitem
      exact ⟨store, account, h.get?_storage.mpr (.inr hstore), hrest⟩
    obtain ⟨account, haccount, hid, hlamports⟩ := of_mem_infos hinfo
    exact ⟨_, account, heq ▸ h.get?_slot (ne_nil hkey), hid, haccount, hlamports⟩
  · intro key
    by_cases hkey : key ∈ accounts.map fst
    · obtain ⟨info, -, heq⟩ := h.entries_of_mem hkey
      rw [heq, SlotList.slots_append]
      refine (hcons.nodupSlots key).append (nodup_singleton _) (disjoint_singleton.mpr ?_)
      exact notMem_slots fun item ↦ hbefore.entries hcons
    rw [h.entries_of_notMem hkey]
    exact hcons.nodupSlots key
  · intro key item hitem
    rw [h.roots]
    rcases h.mem_entries hitem with hitem | ⟨heq, -⟩
    · exact Finset.mem_insert_of_mem (hcons.rooted hitem)
    · exact heq ▸ Finset.mem_insert_self _ _
  · intro s store hstore
    rw [pendingAt, countP_nil, add_zero]
    rcases h.get?_storage.mp hstore with ⟨rfl, -, rfl⟩ | hold
    · have halive : db'.accountsIndex.aliveKeys s = (accounts.map fst).toFinset := by
        ext key
        rw [h.mem_aliveKeys, mem_toFinset]
        refine ⟨fun hor ↦ (hor.resolve_right fun hmem ↦ ?_).2, fun hkey ↦ .inl ⟨rfl, hkey⟩⟩
        exact notMem_slots (fun item ↦ hbefore.entries hcons) (AccountsIndex.mem_aliveKeys.mp hmem)
      rw [halive, toFinset_card_of_nodup hnodup, length_map]
      rfl
    rw [hcons.count_eq hold]
    congr 1
    ext key
    rw [h.mem_aliveKeys]
    exact ⟨.inr, fun hor ↦ hor.resolve_left fun hnew ↦ (hbefore.storage hold).ne hnew.1⟩
  intro key entry hentry
  by_cases hkey : key ∈ accounts.map fst
  · obtain ⟨info, -, hlookup⟩ := h.lookup_of_mem hkey
    obtain rfl := Option.some.inj (hlookup.symm.trans hentry)
    have hsub : copySlots db'.storage key ⊆ insert slot (copySlots db.storage key) := by
      intro s hs
      rcases h.mem_copySlots.mp hs with ⟨rfl, -⟩ | hold
      · exact Finset.mem_insert_self _ _
      · exact Finset.mem_insert_of_mem hold
    exact (Finset.card_le_card hsub).trans ((Finset.card_insert_le _ _).trans
      (Nat.succ_le_succ (hsound.card_copySlots_le key)))
  rw [h.lookup_of_notMem hkey] at hentry
  refine (Finset.card_le_card fun s hs ↦ ?_).trans (hcons.refs hentry)
  exact (h.mem_copySlots.mp hs).resolve_left fun hnew ↦ hkey hnew.2

/-- What is written is the newest version. -/
theorem latest : Latest db'.accountsIndex db'.storage (record written slot accounts) := by
  constructor
  · intro key hne
    by_cases hkey : key ∈ accounts.map fst
    · obtain ⟨p, hp, rfl⟩ := mem_map.mp hkey
      obtain ⟨info, -, heq⟩ := h.entries_of_mem hkey
      refine ⟨slot, p.2.stored, record_of_mem hnodup hp, ?_, ?_, fun s hs ↦ ?_⟩
      · rw [heq, SlotList.slots_append]
        exact mem_append_right _ (mem_singleton_self _)
      · exact ⟨_, h.get?_slot (ne_nil hkey), mem_map.mpr ⟨p, hp, rfl⟩⟩
      rcases h.mem_copySlots.mp hs with ⟨rfl, -⟩ | hold
      · exact le_rfl
      obtain ⟨store, hstore, -⟩ := AccountsDb.mem_copySlots.mp hold
      exact (hbefore.storage hstore).le
    rw [h.entries_of_notMem hkey] at hne ⊢
    rw [record_of_notMem hkey]
    obtain ⟨s, account, hwritten, hs, ⟨store, hstore, hmem⟩, hnewest⟩ := hsound.latest.present hne
    refine ⟨s, account, hwritten, hs, ⟨store, h.get?_storage.mpr (.inr hstore), hmem⟩,
      fun s' hs' ↦ hnewest s' ?_⟩
    exact (h.mem_copySlots.mp hs').resolve_left fun hnew ↦ hkey hnew.2
  intro key hempty
  have hkey : key ∉ accounts.map fst := by
    intro hkey
    obtain ⟨info, -, heq⟩ := h.entries_of_mem hkey
    rw [heq] at hempty
    exact absurd hempty (by simp)
  rw [h.entries_of_notMem hkey] at hempty
  rw [record_of_notMem hkey]
  refine ⟨fun s hs ↦ ?_, (hsound.latest.absent hempty).2⟩
  have hold := (h.mem_copySlots.mp hs).resolve_left fun hnew ↦ hkey hnew.2
  exact absurd hold (hsound.notMem_copySlots hempty s)

end Wrote

/-- Writing a slot keeps the invariant, and does not panic. -/
theorem Sound.write (h : Sound db written last full) (hlast : ∀ l ∈ last, l < slot)
    (hslot : slot ≤ u64Max) (hnodup : (accounts.map fst).Nodup) :
    ∃ db', db.writeRootAndFlush slot accounts = some db' ∧
      Sound db' (record written slot accounts) (some slot) full := by
  have hbefore := h.before hlast
  obtain ⟨db', hwrite, hwrote⟩ := exists_wrote hbefore h.consistent hnodup
  refine ⟨db', hwrite, hwrote.consistent h hbefore hnodup, ?_,
    hwrote.latest h hbefore hnodup, ?_, ?_,
    hwrote.maxRoot, hwrote.maxRoot.le.trans hslot, ?_, ?_, ?_⟩
  · intro s store hstore
    rcases hwrote.get?_storage.mp hstore with ⟨rfl, hne, -⟩ | hold
    · obtain ⟨p, hp⟩ := exists_mem_of_ne_nil accounts hne
      exact ⟨p.1, hwrote.mem_aliveKeys.mpr (.inl ⟨rfl, mem_map_of_mem hp⟩)⟩
    obtain ⟨key, hkey⟩ := h.alive hold
    exact ⟨key, hwrote.mem_aliveKeys.mpr (.inr hkey)⟩
  · intro s store hstore
    rcases hwrote.get?_storage.mp hstore with ⟨rfl, hne, rfl⟩ | hold
    · rw [hwrote.nextId hne]
      exact Nat.lt_succ_self _
    · exact (h.nextId hold).trans_le hwrote.nextId_le
  · intro s store hstore
    rcases hwrote.get?_storage.mp hstore with ⟨rfl, -⟩ | hold
    · exact ⟨s, rfl, le_rfl⟩
    · exact ⟨slot, rfl, (hbefore.storage hold).le⟩
  · intro key item hitem hclean other hother
    rw [hwrote.uncleanedRoots, Finset.mem_insert, not_or] at hclean
    have hitem₀ := (hwrote.mem_entries hitem).resolve_right fun hnew ↦ hclean.1 hnew.1
    rcases hwrote.mem_entries hother with hother | ⟨heq, -⟩
    · exact h.oldest hitem₀ hclean.2 other hother
    · exact heq ▸ (hbefore.entries h.consistent hitem₀).le
  · intro key item hitem huncleaned
    rw [hwrote.uncleanedPubkeys, SortedMap.get?_insert]
    rw [hwrote.uncleanedRoots, Finset.mem_insert] at huncleaned
    rcases hwrote.mem_entries hitem with hitem | ⟨heq, hkey, -⟩
    · have hne := (hbefore.entries h.consistent hitem).ne
      rw [if_neg hne]
      exact h.pubkeys hitem (huncleaned.resolve_left hne)
    rw [if_pos heq]
    exact ⟨_, rfl, hkey⟩
  rw [hwrote.waiting]
  exact h.waiting

/-! ### Restarts -/

section

variable {storage : SortedMap Slot AccountStorageEntry}

/-- The generated index has an entry for every account in the storages. -/
theorem generateIndex_spec : ∀ {stores : List (Slot × AccountStorageEntry)} {index : AccountsIndex},
      stores.Pairwise (fun a b ↦ a.1 < b.1) → (∀ e ∈ stores, e.2.keys.Nodup) →
      (∀ e ∈ stores, index.maxRoot ≤ e.1 ∧ ∀ key, ∀ item ∈ index.entries key, item.1 < e.1) →
      ∃ index', generateIndex stores index = some index' ∧
        (∀ key item, item ∈ index'.entries key ↔ item ∈ index.entries key ∨
          ∃ store, (item.1, store) ∈ stores ∧ (key, item.2) ∈ store.infos) ∧
        ∀ root, root ∈ index'.roots ↔ root ∈ index.roots ∨ ∃ e ∈ stores, e.1 = root
  | [], index, _, _, _ => ⟨index, rfl, by simp, by simp⟩
  | (slot, store) :: rest, index, hsorted, hnodup, hbefore => by
    rw [pairwise_cons] at hsorted
    obtain ⟨hroot, hlt⟩ := hbefore (slot, store) mem_cons_self
    have hkeys : (store.infos.map Prod.fst).Nodup := by
      rw [map_fst_infos]
      exact hnodup (slot, store) mem_cons_self
    obtain ⟨maps, hupdate, hmem, hother⟩ := updateIndex_eq hkeys
      fun p _ ↦ upsertEntry_fresh (notMem_slots (hlt p.1)) p.2 false
    set index₁ : AccountsIndex :=
      { index with
        accountMaps := maps
        roots := insert slot index.roots
        maxRoot := slot } with hindex₁
    have hentries : ∀ key item, item ∈ index₁.entries key ↔ item ∈ index.entries key ∨
        item.1 = slot ∧ (key, item.2) ∈ store.infos := by
      intro key item
      by_cases hkey : key ∈ store.infos.map Prod.fst
      · obtain ⟨p, hp, rfl⟩ := mem_map.mp hkey
        have hlookup : index₁.accountMaps.lookup p.1 = _ := hmem p hp
        rw [entries_of_lookup hlookup, mem_append, mem_singleton]
        refine or_congr_right ⟨?_, fun ⟨heq, hinfo⟩ ↦ ?_⟩
        · rintro rfl
          exact ⟨rfl, hp⟩
        have := inj_on_of_nodup_map hkeys hinfo hp rfl
        rw [← heq, ← this]
      have hsame : index₁.entries key = index.entries key := by
        rw [entries, entries, hother key hkey]
      rw [hsame]
      exact ⟨.inl, fun hor ↦ hor.resolve_right fun hnew ↦ hkey (mem_map.mpr ⟨_, hnew.2, rfl⟩)⟩
    obtain ⟨index', hgenerate, hall, hroots⟩ := @generateIndex_spec rest index₁ hsorted.2
      (fun e he ↦ hnodup e (mem_cons_of_mem _ he))
      (by
        intro e he
        refine ⟨(hsorted.1 e he).le, fun key item hitem ↦ ?_⟩
        rcases (hentries key item).mp hitem with hold | ⟨heq, -⟩
        · exact (hbefore e (mem_cons_of_mem _ he)).2 key item hold
        · exact heq ▸ hsorted.1 e he)
    refine ⟨index', ?_, ?_, ?_⟩
    · simp only [generateIndex, hupdate, some_bind]
      rw [@addRoot_eq slot { index with accountMaps := maps } hroot, some_bind]
      exact hgenerate
    · intro key item
      rw [hall, hentries, or_assoc]
      simp only [mem_cons, Prod.mk.injEq, or_and_right, exists_or, and_assoc, exists_and_left,
        exists_eq_left]
    intro root
    rw [hroots]
    simp only [hindex₁, Finset.mem_insert, mem_cons, exists_eq_or_imp]
    rw [eq_comm, or_comm (a := slot = root), or_assoc]

lemma balance_eq {account : Account}
    (hnodup : ∀ {slot store}, storage.get? slot = some store → store.keys.Nodup)
    (hpoints : ∀ item ∈ index.entries key, PointsTo storage key item)
    (hroots : ∀ item ∈ index.entries key, item.1 ∈ index.roots ∧ item.1 ≤ u64Max)
    (hslot : slot ∈ (index.entries key).slots) (hholds : Holds storage key slot account)
    (hnewest : ∀ s ∈ copySlots storage key, s ≤ slot) : index.balance key = account.lamports := by
  obtain ⟨item, hitem, rfl⟩ := mem_map.mp hslot
  have hlatest : ∃ e, latestSlot index.roots (index.entries key) none = some e :=
    exists_latestSlot hitem (hroots item hitem).2 (hroots item hitem).1
  obtain ⟨e, hlatest⟩ := hlatest
  have he := (mem_of_latestSlot hlatest).1
  have heq : e.1 = item.1 := by
    refine le_antisymm (hnewest e.1 (hpoints e he).mem_copySlots) ?_
    exact le_of_latestSlot hlatest hitem (hroots item hitem).2 (hroots item hitem).1
  obtain ⟨store, account', hstore, -, hmem, hlamports⟩ := hpoints e he
  obtain ⟨store', hstore', hmem'⟩ := hholds
  rw [heq] at hstore
  obtain rfl := Option.some.inj (hstore.symm.trans hstore')
  have hsame := inj_on_of_nodup_map (hnodup hstore) hmem hmem' rfl
  rw [balance, hlatest, Option.map_some, Option.getD_some, hlamports, (Prod.mk.inj hsame).2]

lemma balance_eq_zero (h : index.entries key = []) : index.balance key = 0 := by
  rw [balance, h]
  rfl

def writtenBalance (written : Option (Slot × Account)) : ℕ := written.elim 0 fun w ↦ w.2.lamports

lemma Sound.balance (h : Sound db written last full) (key : Pubkey) :
    db.accountsIndex.balance key = writtenBalance (written key) := by
  by_cases hempty : db.accountsIndex.entries key = []
  · rw [balance_eq_zero hempty]
    cases hwritten : written key with
    | none => rfl
    | some w => exact ((h.latest.absent hempty).2 w.1 w.2 hwritten).symm
  obtain ⟨slot, account, hwritten, hslot, hholds, hnewest⟩ := h.latest.present hempty
  rw [hwritten]
  exact balance_eq h.consistent.nodupKeys (fun item ↦ h.consistent.pointsTo)
    (fun item hitem ↦ ⟨h.consistent.rooted hitem, (h.le_maxRoot hitem).trans h.maxRoot_le⟩)
    hslot hholds hnewest

/-- A restart shows the same balances. -/
theorem Sound.restart (h : Sound db written last full) :
    ∃ index, generateIndex db.storage.entries ⟨∅, ∅, 0, ∅⟩ = some index ∧
      ∀ key, index.balance key = writtenBalance (written key) := by
  obtain ⟨index, hgenerate, hentries, hroots⟩ :=
    @generateIndex_spec db.storage.entries ⟨∅, ∅, 0, ∅⟩ db.storage.sorted
      (fun e he ↦ h.consistent.nodupKeys (SortedMap.get?_eq_some.mpr he))
      (fun e _ ↦ ⟨Nat.zero_le _, fun key item hitem ↦ absurd hitem not_mem_nil⟩)
  refine ⟨index, hgenerate, fun key ↦ ?_⟩
  have hmem : ∀ item, item ∈ index.entries key ↔
      ∃ store, db.storage.get? item.1 = some store ∧ (key, item.2) ∈ store.infos := by
    intro item
    rw [hentries]
    simp only [SortedMap.get?_eq_some]
    exact ⟨fun hor ↦ hor.resolve_left not_mem_nil, .inr⟩
  have hpoints : ∀ item ∈ index.entries key, PointsTo db.storage key item := by
    intro item hitem
    obtain ⟨store, hstore, hinfo⟩ := (hmem item).mp hitem
    obtain ⟨account, haccount, hid, hlamports⟩ := of_mem_infos hinfo
    exact ⟨store, account, hstore, hid, haccount, hlamports⟩
  by_cases hempty : db.accountsIndex.entries key = []
  · have hnil : index.entries key = [] := eq_nil_iff_forall_not_mem.mpr fun item hitem ↦
      h.notMem_copySlots hempty _ (hpoints item hitem).mem_copySlots
    rw [balance_eq_zero hnil, ← h.balance, balance_eq_zero hempty]
  obtain ⟨slot, account, hwritten, -, hholds, hnewest⟩ := h.latest.present hempty
  rw [hwritten]
  refine balance_eq h.consistent.nodupKeys hpoints ?_ ?_ hholds hnewest
  · intro item hitem
    obtain ⟨store, hstore, -⟩ := (hmem item).mp hitem
    refine ⟨(hroots _).mpr (.inr ⟨_, SortedMap.get?_eq_some.mp hstore, rfl⟩), ?_⟩
    obtain ⟨l, hl, hle⟩ := h.slots hstore
    rw [Option.mem_def] at hl
    have := h.maxRoot_le
    rw [h.maxRoot, hl] at this
    exact hle.trans this
  obtain ⟨store, hstore, haccount⟩ := hholds
  obtain ⟨info, hinfo⟩ := exists_mem_infos (show key ∈ store.keys from mem_map_of_mem haccount)
  exact mem_map.mpr ⟨(slot, info), (hmem _).mpr ⟨store, hstore, hinfo⟩, rfl⟩

end

/-! ### Runs -/

/-- The operations that are made: the slots increase, an address is written once in a slot, a clean
does not go beyond the last slot, and the last full snapshot does not go back. -/
def Admissible : Option Slot → Option Slot → List Op → Prop
  | _, _, [] => True
  | last, full, .write slot accounts :: ops =>
    (∀ l ∈ last, l < slot) ∧ slot ≤ u64Max ∧ (accounts.map fst).Nodup ∧
      Admissible (some slot) full ops
  | last, full, .clean maxCleanRoot lastFullSnapshotSlot _ :: ops =>
    (∀ m ∈ maxCleanRoot, ∃ l ∈ last, m ≤ l) ∧
      (∀ f ∈ full, ∃ f' ∈ lastFullSnapshotSlot, f ≤ f') ∧ Admissible last lastFullSnapshotSlot ops

/-- The version of each account that was written last in a run. -/
def lastWritten (written : Pubkey → Option (Slot × Account)) :
    List Op → Pubkey → Option (Slot × Account)
  | [] => written
  | .write slot accounts :: ops => lastWritten (record written slot accounts) ops
  | .clean _ _ _ :: ops => lastWritten written ops

lemma sound_default : Sound default (fun _ ↦ none) none none where
  consistent :=
    ⟨nofun, nofun, nofun, fun _ ↦ nodup_nil, nofun, nofun, by simp, fun h ↦ by simp [default] at h⟩
  alive := nofun
  latest := ⟨fun hne ↦ absurd rfl hne, fun _ ↦ ⟨fun s hs ↦ absurd hs (Finset.notMem_empty s),
    nofun⟩⟩
  nextId := nofun
  slots := nofun
  maxRoot := rfl
  maxRoot_le := Nat.zero_le _
  oldest := nofun
  pubkeys := nofun
  waiting := fun hne ↦ absurd rfl hne

/-- The invariant along a run, from any state that has it. -/
theorem Sound.run : ∀ {ops : List Op} {db : AccountsDb} {written : Pubkey → Option (Slot × Account)}
      {last full : Option Slot}, Sound db written last full → Admissible last full ops →
      ∃ db' last' full', ops.foldlM step db = some db' ∧
        Sound db' (lastWritten written ops) last' full'
  | [], db, _, last, full, h, _ => ⟨db, last, full, rfl, h⟩
  | .write slot accounts :: ops, db, _, last, full, h, hops => by
    obtain ⟨hlast, hslot, hnodup, hops⟩ := hops
    obtain ⟨db₁, heq, hsound⟩ := h.write hlast hslot hnodup
    obtain ⟨db', last', full', hrun, hsound'⟩ := Sound.run hsound hops
    refine ⟨db', last', full', ?_, hsound'⟩
    simp only [foldlM_cons, step, heq, some_bind, hrun]
  | .clean maxCleanRoot lastFullSnapshotSlot order :: ops, db, _, last, full, h, hops => by
    obtain ⟨hmax, hfull, hops⟩ := hops
    have hsome : full.isSome → lastFullSnapshotSlot.isSome := by
      intro hsome
      obtain ⟨f, rfl⟩ := Option.isSome_iff_exists.mp hsome
      obtain ⟨f', hf', -⟩ := hfull f rfl
      exact Option.isSome_iff_exists.mpr ⟨f', hf'⟩
    obtain ⟨db₁, heq, hsound⟩ := h.clean hmax hsome order
    obtain ⟨db', last', full', hrun, hsound'⟩ := Sound.run hsound hops
    refine ⟨db', last', full', ?_, hsound'⟩
    simp only [foldlM_cons, step, heq, some_bind, hrun]

/-- The newest version of an account in the storages. -/
def IsNewest (storage : SortedMap Slot AccountStorageEntry) (key : Pubkey) (slot : Slot)
    (account : Account) : Prop :=
  Holds storage key slot account ∧ ∀ slot' account', Holds storage key slot' account' → slot' ≤ slot

/-- **Garbage collection never brings an old balance back.** Any run of writes and cleans from an
empty database succeeds. After it the newest version of every account in the storages is the one
that was written last, or that one has no lamports and no version is left; and an index generated
from the storages has the balances of the index, which are those written last. -/
theorem clean_never_resurrects (ops : List Op) (h : Admissible none none ops) :
    ∃ db, ops.foldlM step default = some db ∧
      (∀ key, match lastWritten (fun _ ↦ none) ops key with
        | none => ∀ slot account, ¬ Holds db.storage key slot account
        | some (slot, account) => IsNewest db.storage key slot account ∨
            account.lamports = 0 ∧ ∀ slot' account', ¬ Holds db.storage key slot' account') ∧
      ∃ index, generateIndex db.storage.entries ⟨∅, ∅, 0, ∅⟩ = some index ∧
        ∀ key, index.balance key = db.accountsIndex.balance key ∧
          index.balance key = writtenBalance (lastWritten (fun _ ↦ none) ops key) := by
  obtain ⟨db, last, full, hrun, hsound⟩ := Sound.run sound_default h
  refine ⟨db, hrun, fun key ↦ ?_, ?_⟩
  · have hnone : db.accountsIndex.entries key = [] →
        ∀ slot account, ¬ Holds db.storage key slot account := fun hempty slot _ hholds ↦
      hsound.notMem_copySlots hempty slot hholds.mem_copySlots
    split
    · rename_i hwritten
      refine hnone (by_contra fun hne ↦ ?_)
      obtain ⟨slot, account, hsome, -⟩ := hsound.latest.present hne
      rw [hwritten] at hsome
      cases hsome
    rename_i slot account hwritten
    by_cases hempty : db.accountsIndex.entries key = []
    · exact .inr ⟨(hsound.latest.absent hempty).2 slot account hwritten, hnone hempty⟩
    obtain ⟨slot', account', hsome, -, hholds, hnewest⟩ := hsound.latest.present hempty
    rw [hwritten, Option.some.injEq, Prod.mk.injEq] at hsome
    obtain ⟨rfl, rfl⟩ := hsome
    exact .inl ⟨hholds, fun s a hs ↦ hnewest s hs.mem_copySlots⟩
  obtain ⟨index, hgenerate, hbalance⟩ := hsound.restart
  exact ⟨index, hgenerate, fun key ↦ ⟨(hbalance key).trans (hsound.balance key).symm,
    hbalance key⟩⟩

/-- An account with 5 lamports and another one, then the first is closed and the storages are
cleaned. -/
def closeAndClean : List Op :=
  [.write 1 [(⟨1⟩, ⟨5, [], ⟨0⟩, false, 0⟩), (⟨2⟩, ⟨7, [], ⟨0⟩, false, 0⟩)],
    .write 2 [(⟨1⟩, ⟨0, [], ⟨0⟩, false, 0⟩)], .clean (some 2) none .asIs]

theorem clean_never_resurrects_closeAndClean : Admissible none none closeAndClean ∧
      ∃ db, closeAndClean.foldlM step default = some db ∧
        ∃ index, generateIndex db.storage.entries ⟨∅, ∅, 0, ∅⟩ = some index ∧
          index.balance ⟨1⟩ = 0 := by
  have hops : Admissible none none closeAndClean := by
    simp [Admissible, closeAndClean, u64Max]
  obtain ⟨db, hrun, -, index, hindex, hbalance⟩ := clean_never_resurrects closeAndClean hops
  exact ⟨hops, db, hrun, index, hindex, (hbalance ⟨1⟩).2⟩

end AccountsDb

end Renec
