import Renec.AccountsDb.Purges

/-!
# Cleaning never brings an old balance back

`Latest index storage written` is what has to hold of the versions in the storages: where the index
has an entry of an address, the newest version in the storages is the one that was written last, and
the index has it; where it has none, the account was left without lamports, and every version of it
is in a storage that is about to be removed.
-/

namespace Renec.AccountsDb

open List AccountsIndex Prod

variable {index : AccountsIndex} {storage : SortedMap Slot AccountStorageEntry}
  {written : Pubkey → Option (Slot × Account)} {key : Pubkey} {slot : Slot}

/-- **The newest version in the storages is the one written last**, or there is none to be left. -/
structure Latest (index : AccountsIndex) (storage : SortedMap Slot AccountStorageEntry)
    (written : Pubkey → Option (Slot × Account)) : Prop where
  present : ∀ {key}, index.entries key ≠ [] → ∃ slot account, written key = some (slot, account) ∧
    slot ∈ (index.entries key).slots ∧ Holds storage key slot account ∧
    ∀ s ∈ copySlots storage key, s ≤ slot
  absent : ∀ {key}, index.entries key = [] → (∀ s ∈ copySlots storage key, index.aliveKeys s = ∅) ∧
    ∀ slot account, written key = some (slot, account) → account.lamports = 0

variable {index' : AccountsIndex} {keys : List Pubkey} {reclaims : SlotList}
  {purged : List (Slot × Pubkey)}

namespace Latest

lemma reclaimed {storage' : SortedMap Slot AccountStorageEntry} (h : Latest index storage written)
    (hreclaimed : Reclaimed index storage index' storage' purged) :
    Latest index' storage' written where
  present := by
    intro key hne
    rw [hreclaimed.entries] at hne ⊢
    obtain ⟨slot, account, hwritten, hslot, ⟨store, hstore, hmem⟩, hnewest⟩ := h.present hne
    obtain ⟨store', hstore', -, haccounts⟩ := hreclaimed.stays hstore ⟨key, mem_aliveKeys.mpr hslot⟩
    exact ⟨slot, account, hwritten, hslot, ⟨store', hstore', haccounts ▸ hmem⟩, fun s hs ↦
      hnewest s (Within.copySlots_subset hreclaimed.within hs)⟩
  absent := by
    intro key hempty
    rw [hreclaimed.entries] at hempty
    refine ⟨fun s hs ↦ ?_, (h.absent hempty).2⟩
    rw [aliveKeys_congr hreclaimed.entries]
    exact (h.absent hempty).1 s (Within.copySlots_subset hreclaimed.within hs)

lemma cleaned {maxCleanRoot : Option Slot} (h : Latest index storage written)
    (hcons : Consistent index storage [])
    (hcleaned : Cleaned maxCleanRoot keys index index' reclaims) :
    Latest index' storage written := by
  -- the entry of the version written last is the newest one
  have hkept : ∀ {key}, index.entries key ≠ [] → ∃ slot account,
      written key = some (slot, account) ∧ slot ∈ (index'.entries key).slots ∧
      Holds storage key slot account ∧ ∀ s ∈ copySlots storage key, s ≤ slot := by
    intro key hne
    obtain ⟨slot, account, hwritten, hslot, hholds, hnewest⟩ := h.present hne
    obtain ⟨item, hitem, rfl⟩ := mem_map.mp hslot
    refine ⟨item.1, account, hwritten, mem_map_of_mem (hcleaned.newest hitem ?_), hholds, hnewest⟩
    exact fun other hother ↦ hnewest other.1 (hcons.pointsTo hother).mem_copySlots
  constructor
  · intro key hne
    refine hkept fun hempty ↦ hne ?_
    exact sublist_nil.mp (hempty ▸ hcleaned.sublist key)
  intro key hempty
  have hempty₀ : index.entries key = [] := by
    by_contra hne
    obtain ⟨slot, -, -, hslot, -⟩ := hkept hne
    rw [hempty] at hslot
    exact not_mem_nil hslot
  refine ⟨fun s hs ↦ Finset.subset_empty.mp ?_, (h.absent hempty₀).2⟩
  rw [← (h.absent hempty₀).1 s hs]
  exact aliveKeys_subset fun k ↦ ((hcleaned.sublist k).map fst).subset

end Latest

/-! ### The purge of accounts without lamports -/

/-- A purge as the dependencies are computed for it: an entry of the address that has no lamports,
or none, and the reference count of the address. -/
structure Prepared (index : AccountsIndex) (key : Pubkey) (purge : Purge) : Prop where
  mem : ∀ item ∈ purge.accountInfos, item ∈ index.entries key
  refCount : ∃ entry, index.accountMaps.lookup key = some entry ∧ entry.refCount = purge.refCount
  single : purge.accountInfos.length ≤ 1
  zero : ∀ item ∈ purge.accountInfos, item.2.lamports = 0

/-- The state in which purges are made: they are prepared, and decided by the store counts. -/
structure Decided (index : AccountsIndex) (storage : SortedMap Slot AccountStorageEntry)
    (maxCleanRoot lastFullSnapshotSlot : Option Slot) (purges kept : Purges)
    (counts counts' : StoreCounts) : Prop where
  consistent : Consistent index storage []
  nodup : (purges.map fst).Nodup
  prepared : ∀ p ∈ purges, Prepared index p.1 p.2
  counted : Counted storage (fun k s ↦ ∃ p ∈ purges, p.1 = k ∧ s ∈ p.2.accountInfos.slots) counts
  raised : Raised counts counts'
  stays : ∀ p ∈ purges, p.2.accountInfos.length ≠ p.2.refCount →
    ∀ id ∈ p.2.storeIds, Stays counts' id
  sublist : kept.Sublist purges
  kept_iff : ∀ p ∈ purges, p ∈ kept ↔
    Purgeable maxCleanRoot lastFullSnapshotSlot counts' p.2.accountInfos

variable {lastFullSnapshotSlot : Option Slot} {item : Slot × AccountInfo}

namespace Decided

variable {maxCleanRoot : Option Slot} {purges kept : Purges} {counts counts' : StoreCounts}
  {p : Pubkey × Purge}

section

variable (h : Decided index storage maxCleanRoot lastFullSnapshotSlot purges kept counts counts')

include h

lemma eq_singleton (hp : p ∈ purges) (hitem : item ∈ p.2.accountInfos)
    (hgone : ¬ Stays counts' item.2.storeId) :
    p.2.accountInfos = [item] ∧ index.entries p.1 = [item] ∧ copySlots storage p.1 = {item.1} := by
  have hprepared := h.prepared p hp
  have hinfos : p.2.accountInfos = [item] := by
    obtain ⟨other, hother⟩ := length_eq_one_iff.mp
      (le_antisymm hprepared.single (length_pos_of_mem hitem))
    rw [hother, mem_singleton] at hitem
    rw [hother, hitem]
  have hlength : p.2.accountInfos.length = p.2.refCount := by
    by_contra hne
    exact hgone (h.stays p hp hne _ (mem_map.mpr ⟨item, hitem, rfl⟩))
  obtain ⟨entry, hentry, href⟩ := hprepared.refCount
  have hcard : (copySlots storage p.1).card ≤ 1 := by
    have := h.consistent.refs hentry
    rw [href, ← hlength, hinfos] at this
    exact this
  have hmem := hprepared.mem item hitem
  refine ⟨hinfos, ?_, ?_⟩
  · obtain ⟨other, hother⟩ := length_eq_one_iff.mp (le_antisymm
      ((h.consistent.length_entries_le p.1).trans hcard) (length_pos_of_mem hmem))
    rw [hother, mem_singleton] at hmem
    rw [hother, hmem]
  have hcopy := (h.consistent.pointsTo hmem).mem_copySlots
  exact Finset.eq_singleton_iff_unique_mem.mpr
    ⟨hcopy, fun s hs ↦ Finset.card_le_one.mp hcard s hs _ hcopy⟩

/-- Accounts in one storage have one fate: with one purge that is made, those of all addresses that
have an entry in its slot are made. -/
theorem exists_kept_of_alive (hp : p ∈ kept) (hitem : item ∈ p.2.accountInfos)
    (halive : key ∈ index.aliveKeys item.1) :
    ∃ p' ∈ kept, p'.1 = key ∧ ∃ item' ∈ p'.2.accountInfos, item'.1 = item.1 := by
  have hp₀ := h.sublist.subset hp
  obtain ⟨hgone, hfull⟩ := (h.kept_iff p hp₀).mp hp item hitem
  obtain ⟨store, -, hstore, hid, -⟩ := h.consistent.pointsTo ((h.prepared p hp₀).mem item hitem)
  -- the storage has no other accounts than those that are counted off
  obtain ⟨count, keys, hlookup, -⟩ := h.counted.complete ⟨p, hp₀, rfl, mem_map_of_mem hitem⟩ hstore
  rw [← hid] at hlookup
  obtain ⟨count', hlookup', hle⟩ := h.raised.lookup hlookup
  have hcount' : count' = 0 := by
    by_contra hne
    exact hgone ⟨count', keys, hlookup', hne⟩
  obtain ⟨s, store', hstore', hid', hsum, hnodup, hkeys⟩ := h.counted.sound hlookup
  have hsame : store.id = store'.id := StoreId.appendVec.inj (hid.symm.trans hid')
  obtain rfl := h.consistent.ids hstore hstore' hsame
  obtain rfl := Option.some.inj (hstore.symm.trans hstore')
  have hsub : keys.toFinset ⊆ index.aliveKeys item.1 := by
    intro k hk
    obtain ⟨p', hp', rfl, hslot⟩ := hkeys k (mem_toFinset.mp hk)
    obtain ⟨item', hitem', heq⟩ := mem_map.mp hslot
    rw [← heq]
    exact mem_aliveKeys_of_mem ((h.prepared p' hp').mem item' hitem')
  have hall : keys.toFinset = index.aliveKeys item.1 := by
    refine Finset.eq_of_subset_of_card_le hsub ?_
    rw [toFinset_card_of_nodup hnodup, ← h.consistent.count_eq hstore]
    omega
  rw [← hall, mem_toFinset] at halive
  obtain ⟨p', hp', rfl, hslot⟩ := hkeys key halive
  obtain ⟨item', hitem', heq⟩ := mem_map.mp hslot
  -- and the filter looks at the slot only
  obtain ⟨store', -, hstore'', hid'', -⟩ :=
    h.consistent.pointsTo ((h.prepared p' hp').mem item' hitem')
  rw [heq] at hstore''
  obtain rfl := Option.some.inj (hstore.symm.trans hstore'')
  have hids : item'.2.storeId = item.2.storeId := hid''.trans hid.symm
  have hgone' : ¬ Stays counts' item'.2.storeId := hids ▸ hgone
  refine ⟨p', (h.kept_iff p' hp').mpr ?_, rfl, item', hitem', heq⟩
  intro other hother
  rw [(h.eq_singleton hp' hitem' hgone').1, mem_singleton] at hother
  rw [hother, heq]
  exact ⟨hgone', hfull⟩

lemma nodup_kept : (kept.map fst).Nodup := h.nodup.sublist (h.sublist.map _)

lemma entries_eq_nil (hp : p ∈ kept) (hitem : item ∈ p.2.accountInfos) :
    (purgeKeysExact index kept).1.entries p.1 = [] := by
  have hp₀ := h.sublist.subset hp
  obtain ⟨hinfos, hentries, -⟩ := h.eq_singleton hp₀ hitem ((h.kept_iff p hp₀).mp hp item hitem).1
  rw [entries_purgeKeysExact, (entries_purgeEntries h.nodup_kept).1 p hp, hentries, hinfos]
  simp

lemma entries_eq (key : Pubkey) : (∃ p ∈ kept, p.1 = key ∧ ∃ item, item ∈ p.2.accountInfos) ∨
      (purgeKeysExact index kept).1.entries key = index.entries key := by
  rw [entries_purgeKeysExact]
  by_cases hkey : key ∈ kept.map fst
  · obtain ⟨p, hp, rfl⟩ := mem_map.mp hkey
    cases hinfos : p.2.accountInfos with
    | nil =>
      right
      rw [(entries_purgeEntries h.nodup_kept).1 p hp, hinfos]
      simp
    | cons item rest => exact .inl ⟨p, hp, rfl, item, hinfos ▸ mem_cons_self⟩
  · exact .inr ((entries_purgeEntries h.nodup_kept).2 key hkey)

lemma mem_entries (hitem : item ∈ (purgeKeysExact index kept).1.entries key) :
    item ∈ index.entries key := by
  rcases h.entries_eq key with ⟨p, hp, rfl, item', hitem'⟩ | heq
  · rw [h.entries_eq_nil hp hitem'] at hitem
    exact absurd hitem not_mem_nil
  · exact heq ▸ hitem

/-- Accounts without lamports can go. -/
theorem latest (hlatest : Latest index storage written) :
    Latest (purgeKeysExact index kept).1 storage written := by
  have hsub : ∀ k, ((purgeKeysExact index kept).1.entries k).slots ⊆ (index.entries k).slots :=
    fun k ↦ map_subset _ fun _ ↦ h.mem_entries
  constructor
  · intro key hne
    rcases h.entries_eq key with ⟨p, hp, rfl, item, hitem⟩ | heq
    · exact absurd (h.entries_eq_nil hp hitem) hne
    rw [heq] at hne ⊢
    exact hlatest.present hne
  intro key hempty
  rcases h.entries_eq key with ⟨p, hp, rfl, item, hitem⟩ | heq
  · -- the only version goes with its storage
    have hp₀ := h.sublist.subset hp
    obtain ⟨-, hentries, hcopies⟩ :=
      h.eq_singleton hp₀ hitem ((h.kept_iff p hp₀).mp hp item hitem).1
    constructor
    · intro s hs
      rw [hcopies, Finset.mem_singleton] at hs
      subst hs
      refine Finset.eq_empty_of_forall_notMem fun k hk ↦ ?_
      have hslot := mem_aliveKeys.mp hk
      obtain ⟨p', hp', rfl, item', hitem', -⟩ :=
        h.exists_kept_of_alive hp hitem (aliveKeys_subset hsub hk)
      rw [h.entries_eq_nil hp' hitem'] at hslot
      exact not_mem_nil hslot
    intro slot account hwritten
    obtain ⟨slot', account', hwritten', hslot', ⟨store, hstore, hmem⟩, -⟩ :=
      hlatest.present (hentries ▸ cons_ne_nil item [])
    rw [hwritten, Option.some.injEq, Prod.mk.injEq] at hwritten'
    obtain ⟨rfl, rfl⟩ := hwritten'
    rw [hentries] at hslot'
    obtain rfl : slot = item.1 := by simpa using hslot'
    obtain ⟨store', account', hstore', -, hmem', hlamports⟩ :=
      h.consistent.pointsTo ((h.prepared p hp₀).mem item hitem)
    obtain rfl := Option.some.inj (hstore.symm.trans hstore')
    have hsame := inj_on_of_nodup_map (h.consistent.nodupKeys hstore) hmem hmem' rfl
    rw [(Prod.mk.inj hsame).2, ← hlamports]
    exact (h.prepared p hp₀).zero item hitem
  rw [heq] at hempty
  refine ⟨fun s hs ↦ Finset.subset_empty.mp ?_, (hlatest.absent hempty).2⟩
  rw [← (hlatest.absent hempty).1 s hs]
  exact aliveKeys_subset hsub

end

end Decided

/-! ### The invariant -/

/-- **The invariant of the database**, when the accounts `written` have been written, the last slot
is `last` and the last full snapshot was at `full`. -/
structure Sound (db : AccountsDb) (written : Pubkey → Option (Slot × Account))
    (last full : Option Slot) : Prop where
  consistent : Consistent db.accountsIndex db.storage []
  alive : ∀ {slot store}, db.storage.get? slot = some store →
    (db.accountsIndex.aliveKeys slot).Nonempty
  latest : Latest db.accountsIndex db.storage written
  nextId : ∀ {slot store}, db.storage.get? slot = some store → store.id < db.nextId
  slots : ∀ {slot store}, db.storage.get? slot = some store → ∃ l ∈ last, slot ≤ l
  maxRoot : db.accountsIndex.maxRoot = last.getD 0
  maxRoot_le : db.accountsIndex.maxRoot ≤ u64Max
  /-- Once the newest root of an address is cleaned, there is no older one. -/
  oldest : ∀ {key item}, item ∈ db.accountsIndex.entries key →
    item.1 ∉ db.accountsIndex.uncleanedRoots →
    ∀ other ∈ db.accountsIndex.entries key, item.1 ≤ other.1
  /-- Before that, the address is going to be looked at. -/
  pubkeys : ∀ {key item}, item ∈ db.accountsIndex.entries key →
    item.1 ∈ db.accountsIndex.uncleanedRoots →
    ∃ keys, db.uncleanedPubkeys.get? item.1 = some keys ∧ key ∈ keys
  waiting : db.zeroLamportAccountsToPurgeAfterFullSnapshot ≠ [] → full.isSome

namespace Sound

variable {db : AccountsDb} {last full : Option Slot}

section

variable (h : Sound db written last full)

include h

lemma le_maxRoot (hitem : item ∈ db.accountsIndex.entries key) :
    item.1 ≤ db.accountsIndex.maxRoot := by
  obtain ⟨store, -, hstore, -⟩ := h.consistent.pointsTo hitem
  obtain ⟨l, hl, hle⟩ := h.slots hstore
  rw [Option.mem_def] at hl
  rwa [h.maxRoot, hl]

lemma rooted : Rooted db.accountsIndex where
  isCached := fun hitem ↦ (h.consistent.pointsTo hitem).isCached
  mem_roots := h.consistent.rooted
  le_maxRoot := h.le_maxRoot
  maxRoot_le := h.maxRoot_le

lemma count_pos {store : AccountStorageEntry} (hstore : db.storage.get? slot = some store) :
    0 < store.count := by
  rw [h.consistent.count_eq hstore]
  exact Finset.card_pos.mpr (h.alive hstore)

lemma notMem_copySlots (hempty : db.accountsIndex.entries key = []) (s : Slot) :
    s ∉ copySlots db.storage key := by
  intro hs
  obtain ⟨store, hstore, -⟩ := mem_copySlots.mp hs
  exact (h.alive hstore).ne_empty ((h.latest.absent hempty).1 s hs)

lemma card_copySlots_le (key : Pubkey) :
    (copySlots db.storage key).card ≤ db.accountsIndex.refCountFromStorage key := by
  rw [refCountFromStorage]
  cases hlookup : db.accountsIndex.accountMaps.lookup key with
  | none =>
    rw [Finset.eq_empty_of_forall_notMem (h.notMem_copySlots (entries_of_lookup_none hlookup))]
    exact Nat.zero_le _
  | some entry => exact h.consistent.refs hlookup

end

end Sound

/-! ### Cleaning -/

section

variable {db : AccountsDb} {last full : Option Slot} {maxCleanRoot : Option Slot}
  {p : Pubkey × Purge}

lemma of_scanKey (h : (scanKey index maxCleanRoot key).1 = some p) :
    p.1 = key ∧ ∃ e, latestSlot index.roots (index.entries key) maxCleanRoot = some e ∧
      e.2.lamports = 0 ∧
      p.2.accountInfos = getRootedEntries index.roots (index.entries key) maxCleanRoot ∧
      p.2.refCount = index.refCountFromStorage key := by
  rw [scanKey] at h
  split at h
  · cases h
  rename_i entry hlookup
  rw [entries_of_lookup hlookup, refCountFromStorage, hlookup]
  split at h
  · rename_i slot info hlatest
    dsimp only at h
    split_ifs at h with hzero
    cases h
    exact ⟨rfl, (slot, info), hlatest, hzero, rfl, rfl⟩
  · cases h

variable {e : Slot × AccountInfo}

lemma snd_scanKey (hlatest : latestSlot index.roots (index.entries key) maxCleanRoot = some e) :
    (scanKey index maxCleanRoot key).2 = true ↔ e.1 ∈ index.uncleanedRoots := by
  rw [scanKey]
  split
  · rename_i hlookup
    rw [entries_of_lookup_none hlookup] at hlatest
    cases hlatest
  rename_i entry hlookup
  rw [entries_of_lookup hlookup] at hlatest
  rw [hlatest]
  exact decide_eq_true_iff

lemma lookup_eq_some_of_mem {α : Type} {l : List (Pubkey × α)} (hnodup : (l.map fst).Nodup)
    {p : Pubkey × α} (hp : p ∈ l) : l.lookup p.1 = some p.2 := by
  obtain ⟨l₁, l₂, rfl⟩ := append_of_mem hp
  rw [map_append, map_cons, nodup_append] at hnodup
  refine lookup_eq_some_iff.mpr ⟨l₁, l₂, rfl, fun q hq ↦ bne_iff_ne.mpr ?_⟩
  exact (hnodup.2.2 q.1 (mem_map_of_mem hq) p.1 mem_cons_self).symm

lemma nodup_purges (pubkeys : List Pubkey) :
    ((pubkeys.dedup.filterMap fun key ↦ (scanKey index maxCleanRoot key).1).map fst).Nodup := by
  rw [map_filterMap]
  refine (nodup_dedup pubkeys).filterMap fun key key' k hk hk' ↦ ?_
  obtain ⟨p, hp, rfl⟩ := Option.map_eq_some_iff.mp hk
  obtain ⟨p', hp', heq⟩ := Option.map_eq_some_iff.mp hk'
  rw [← (of_scanKey hp).1, ← (of_scanKey hp').1, heq]

/-- An address has a single entry up to `maxCleanRoot` when its old entries are cleaned. -/
theorem eq_of_le (h : Sound db written last full)
    (hcleaned : Cleaned maxCleanRoot keys db.accountsIndex index' reclaims)
    (hkeys : ∀ e, latestSlot db.accountsIndex.roots (db.accountsIndex.entries key) maxCleanRoot =
      some e → e.1 ∈ db.accountsIndex.uncleanedRoots → key ∈ keys)
    (hlatest : latestSlot db.accountsIndex.roots (db.accountsIndex.entries key)
      maxCleanRoot = some e)
    (hitem : item ∈ index'.entries key)
    (hle : item.1 ≤ maxCleanRoot.getD db.accountsIndex.maxRoot) :
    item.1 = e.1 := by
  have hitem₀ := (hcleaned.sublist key).subset hitem
  by_cases huncleaned : e.1 ∈ db.accountsIndex.uncleanedRoots
  · exact hcleaned.only (hkeys e hlatest huncleaned) hlatest item hitem hle
  refine le_antisymm (le_of_latestSlot hlatest hitem₀ ((h.rooted.le_iff hitem₀).mpr hle)
    (h.consistent.rooted hitem₀)) ?_
  exact h.oldest (mem_of_latestSlot hlatest).1 huncleaned item hitem₀

lemma constructCandidateCleanKeys_spec (h : Sound db written last full)
    {lastFullSnapshotSlot : Option Slot} (hfull : full.isSome → lastFullSnapshotSlot.isSome)
    (order : HashOrder) :
    ∃ dirtyStores' uncleanedPubkeys' waiting' pubkeys,
      db.constructCandidateCleanKeys maxCleanRoot lastFullSnapshotSlot order =
        some ({ db with
                dirtyStores := dirtyStores'
                uncleanedPubkeys := uncleanedPubkeys'
                zeroLamportAccountsToPurgeAfterFullSnapshot := waiting' }, pubkeys) ∧
      (∀ {slot keys key}, db.uncleanedPubkeys.get? slot = some keys → key ∈ keys →
        slot ≤ maxCleanRoot.getD db.accountsIndex.maxRoot → key ∈ pubkeys) ∧
      (∀ {slot keys}, db.uncleanedPubkeys.get? slot = some keys →
        maxCleanRoot.getD db.accountsIndex.maxRoot < slot →
        uncleanedPubkeys'.get? slot = some keys) ∧
      (waiting' ≠ [] → lastFullSnapshotSlot.isSome) := by
  have hwaiting : db.zeroLamportAccountsToPurgeAfterFullSnapshot ≠ [] →
      lastFullSnapshotSlot.isSome := fun hne ↦ hfull (h.waiting hne)
  have hassert : (lastFullSnapshotSlot.isNone &&
      !db.zeroLamportAccountsToPurgeAfterFullSnapshot.isEmpty) = false := by
    cases hempty : db.zeroLamportAccountsToPurgeAfterFullSnapshot with
    | nil => simp
    | cons p rest =>
      have := hwaiting (by simp [hempty])
      simp [Option.isNone_eq_false_iff.mpr this]
  simp only [constructCandidateCleanKeys, hassert, Bool.false_eq_true, if_false]
  refine ⟨_, _, _, _, rfl, ?_, ?_, ?_⟩
  · intro slot keys key hkeys hkey hle
    rw [(order.keys_perm _).mem_iff, mem_append, mem_dedup, mem_append,
      mem_flatMap (l := SortedMap.entries _)]
    refine .inl (.inr ⟨(slot, keys), ?_, hkey⟩)
    exact SortedMap.mem_filterKeys.mpr ⟨SortedMap.get?_eq_some.mp hkeys, decide_eq_true hle⟩
  · intro slot keys hkeys hlt
    exact SortedMap.get?_filterKeys_eq_some.mpr ⟨hkeys, decide_eq_true hlt⟩
  intro hne
  exact hwaiting fun hempty ↦ hne (by rw [hempty]; rfl)

lemma cleanAccountsOlderThanRoot_spec (hcons : Consistent db.accountsIndex db.storage [])
    (hrooted : Rooted db.accountsIndex) (hlatest : Latest db.accountsIndex db.storage written)
    (hpos : ∀ {slot store}, db.storage.get? slot = some store → 0 < store.count)
    (keys : List Pubkey) (order : HashOrder) :
    ∃ index₁ index₂ storage₂ dirtyStores₂ purged reclaims,
      db.cleanAccountsOlderThanRoot keys maxCleanRoot order =
        some ({ db with
                accountsIndex := index₂
                storage := storage₂
                dirtyStores := dirtyStores₂ },
          ⟨purged, reclaims.map fun item ↦ (item.2.storeId, item.2.offset)⟩) ∧
      Cleaned maxCleanRoot keys db.accountsIndex index₁ reclaims ∧
      Reclaimed index₁ db.storage index₂ storage₂ purged ∧ Latest index₂ storage₂ written := by
  have hcleaned : Cleaned maxCleanRoot keys db.accountsIndex _ _ :=
    cleaned_cleanOldEntries keys hrooted
  have hcons₁ := @Consistent.cleanOldEntries _ maxCleanRoot keys _ _ hcons
  rw [nil_append] at hcons₁
  obtain ⟨index₂, storage₂, dirtyStores₂, purged, heq, hreclaimed⟩ := @handleReclaims_spec
    { db with accountsIndex := (cleanOldEntries maxCleanRoot keys db.accountsIndex).1 }
      _ order hcons₁
    hpos
  exact ⟨_, index₂, storage₂, dirtyStores₂, purged, _, heq, hcleaned, hreclaimed,
    (hlatest.cleaned hcons hcleaned).reclaimed hreclaimed⟩

lemma exists_decided {result : ReclaimResult} {purgesZero : Purges}
    {lastFullSnapshotSlot : Option Slot} (hcons : Consistent db.accountsIndex db.storage [])
    (hnodup : (purgesZero.map fst).Nodup)
    (hslots : ∀ p ∈ purgesZero, p.2.accountInfos.slots.Nodup)
    (hleft : ∀ p ∈ purgesZero, ∀ item ∈ p.2.accountInfos, ¬ WasReclaimed result p.1 item →
      item ∈ db.accountsIndex.entries p.1)
    (hprepared : ∀ p ∈ purgesZero, ∀ purge, Retained db.accountsIndex result p.1 p.2 purge →
      Prepared db.accountsIndex p.1 purge)
    (hfull : lastFullSnapshotSlot.getD u64Max < maxCleanRoot.getD u64Max →
      lastFullSnapshotSlot.isSome) (order : HashOrder) :
    ∃ purges counts counts' kept waiting,
      db.calcStoreCounts result purgesZero ∅ = some (purges, counts) ∧
      calcDeleteDependencies order purges purges counts [] = some counts' ∧
      filterZeroLamportCleanForIncrementalSnapshots maxCleanRoot lastFullSnapshotSlot
        counts' purges =
        some (kept, waiting) ∧
      Decided db.accountsIndex db.storage maxCleanRoot lastFullSnapshotSlot purges kept
        counts counts' ∧
      (waiting ≠ [] → lastFullSnapshotSlot.isSome) := by
  have hempty : Counted db.storage (fun _ _ ↦ False) ∅ :=
    ⟨fun hlookup ↦ by simp at hlookup, fun hfalse ↦ hfalse.elim⟩
  obtain ⟨purges, counts, heq, hkeys, hretained, hcounted⟩ :=
    @calcStoreCounts_spec db result hcons purgesZero _ _ hempty (fun h ↦ h.elim) hnodup
      fun p hp ↦ ⟨hslots p hp, fun _ ↦ id, hleft p hp⟩
  simp only [false_or] at hcounted
  rw [← hkeys] at hnodup
  have hprepared' : ∀ p ∈ purges, Prepared db.accountsIndex p.1 p.2 := by
    intro p hp
    obtain ⟨p₀, hp₀, hkey, hret⟩ := hretained p hp
    exact hkey ▸ hprepared p₀ hp₀ p.2 (hkey.symm ▸ hret)
  -- the storages of the purges are counted
  have hmem : ∀ p ∈ purges, ∀ item ∈ p.2.accountInfos, item.2.storeId ∈ counts := by
    intro p hp item hitem
    obtain ⟨store, -, hstore, hid, -⟩ := hcons.pointsTo ((hprepared' p hp).mem item hitem)
    obtain ⟨count, keys, hlookup, -⟩ := hcounted.complete ⟨p, hp, rfl, mem_map_of_mem hitem⟩ hstore
    exact Finmap.mem_iff.mpr ⟨_, hid ▸ hlookup⟩
  have hids : ∀ p ∈ purges, ∀ id ∈ p.2.storeIds, id ∈ counts := by
    intro p hp id hid
    obtain ⟨item, hitem, rfl⟩ := mem_map.mp hid
    exact hmem p hp item hitem
  have hclosed : Closed purges counts := by
    intro id count keys hlookup key hkey
    obtain ⟨slot, store, -, -, -, -, hdone⟩ := hcounted.sound hlookup
    obtain ⟨p, hp, rfl, -⟩ := hdone key hkey
    exact ⟨p.2, lookup_eq_some_of_mem hnodup hp, hids p hp⟩
  obtain ⟨counts', heq', hraised, hstays⟩ :=
    calcDeleteDependencies_spec order hclosed hids (by simp : ∀ id ∈ [], Stays counts id)
  obtain ⟨waiting, heq'', hwaiting⟩ := filterZeroLamportClean_spec hfull
    fun p hp ↦ ⟨(hprepared' p hp).single, fun item hitem ↦
      ⟨(hprepared' p hp).zero item hitem, hraised.mem_iff.mpr (hmem p hp item hitem)⟩⟩
  refine ⟨purges, counts, counts', _, waiting, heq, heq', heq'',
    ⟨hcons, hnodup, hprepared', hcounted, hraised, hstays, filter_sublist, fun p hp ↦ ?_⟩, hwaiting⟩
  simp only [mem_filter, hp, true_and, decide_eq_true_eq]

/-- What is recorded about an address without lamports is prepared when the old entries are gone: it
has one entry up to `maxCleanRoot`, or that was reclaimed. -/
theorem Retained.prepared {index₁ index₂ : AccountsIndex}
    {storage₂ : SortedMap Slot AccountStorageEntry} {purge : Purge} (h : Sound db written last full)
    (hcleaned : Cleaned maxCleanRoot keys db.accountsIndex index₁ reclaims)
    (hreclaimed : Reclaimed index₁ db.storage index₂ storage₂ purged)
    (hkeys : ∀ e, latestSlot db.accountsIndex.roots (db.accountsIndex.entries p.1) maxCleanRoot =
      some e → e.1 ∈ db.accountsIndex.uncleanedRoots → p.1 ∈ keys)
    (hscan : (scanKey db.accountsIndex maxCleanRoot p.1).1 = some p) {offsets : List (StoreId × ℕ)}
    (hretained : Retained index₂ ⟨purged, offsets⟩ p.1 p.2 purge) : Prepared index₂ p.1 purge := by
  obtain ⟨-, e, hlatest, hzero, hinfos, href⟩ := of_scanKey hscan
  have hmem : ∀ item ∈ purge.accountInfos, item ∈ index₁.entries p.1 ∧
      item.1 ≤ maxCleanRoot.getD db.accountsIndex.maxRoot := by
    intro item hitem
    have hitem₁ := hreclaimed.entries p.1 ▸ hretained.mem item hitem
    have hitem₀ := (hcleaned.sublist p.1).subset hitem₁
    refine ⟨hitem₁, (h.rooted.le_iff hitem₀).mp ?_⟩
    have := hretained.sublist.subset hitem
    rw [hinfos, getRootedEntries, mem_filter, decide_eq_true_eq] at this
    exact this.2.1
  have heq : ∀ item ∈ purge.accountInfos, item = e := by
    intro item hitem
    obtain ⟨hitem₁, hle⟩ := hmem item hitem
    exact inj_on_of_nodup_map (h.consistent.nodupSlots p.1)
      ((hcleaned.sublist p.1).subset hitem₁) (mem_of_latestSlot hlatest).1
      (eq_of_le h hcleaned hkeys hlatest hitem₁ hle)
  refine ⟨hretained.mem, ?_, ?_, fun item hitem ↦ heq item hitem ▸ hzero⟩
  · -- the address still has its newest entry
    have hne : db.accountsIndex.entries p.1 ≠ [] := ne_nil_of_mem (mem_of_latestSlot hlatest).1
    have hne₂ : index₂.entries p.1 ≠ [] := by
      obtain ⟨slot, -, -, hslot, -, hnewest⟩ := h.latest.present hne
      obtain ⟨item, hitem, rfl⟩ := mem_map.mp hslot
      rw [hreclaimed.entries]
      exact ne_nil_of_mem (hcleaned.newest hitem fun other hother ↦
        hnewest other.1 (h.consistent.pointsTo hother).mem_copySlots)
    cases hlookup : index₂.accountMaps.lookup p.1 with
    | none => exact absurd (entries_of_lookup_none hlookup) hne₂
    | some entry =>
      refine ⟨entry, rfl, ?_⟩
      rw [hretained.refCount, refreshRefCount]
      split_ifs with hpurged
      · rw [refCountFromStorage, hlookup]
        rfl
      have hnot : ∀ slot, (slot, p.1) ∉ purged := fun slot hslot ↦
        hpurged (any_eq_true.mpr ⟨_, hslot, decide_eq_true rfl⟩)
      rw [hreclaimed.lookup hnot] at hlookup
      obtain ⟨entry₀, hentry₀, href₀⟩ := hcleaned.refCount hlookup
      rw [href, refCountFromStorage, hentry₀, ← href₀]
      rfl
  have hnodup : purge.accountInfos.Nodup := by
    refine hretained.sublist.nodup ?_
    rw [hinfos]
    exact ((h.consistent.nodupSlots p.1).of_map _).filter _
  rcases hcase : purge.accountInfos with - | ⟨first, - | ⟨second, rest⟩⟩
  · simp
  · simp
  rw [hcase] at hnodup heq
  refine absurd ?_ (nodup_cons.mp hnodup).1
  rw [heq first (by simp), ← heq second (by simp)]
  exact mem_cons_self

/-- Cleaning keeps the invariant, and does not panic. -/
theorem Sound.clean (h : Sound db written last full) (hmax : ∀ m ∈ maxCleanRoot, ∃ l ∈ last, m ≤ l)
    (hfull : full.isSome → lastFullSnapshotSlot.isSome) (order : HashOrder) :
    ∃ db', db.cleanAccounts maxCleanRoot lastFullSnapshotSlot order = some db' ∧
      Sound db' written last lastFullSnapshotSlot := by
  obtain ⟨dirtyStores₀, uncleanedPubkeys₀, waiting₀, pubkeys, hcandidates, hpubkeys, hlater,
    hwaits⟩ := @constructCandidateCleanKeys_spec _ _ _ _ maxCleanRoot h _ hfull order
  -- the old entries
  set purgesOld := pubkeys.filter fun key ↦ (scanKey db.accountsIndex maxCleanRoot key).2
    with hpurgesOld
  obtain ⟨index₁, index₂, storage₂, dirtyStores₂, purged, reclaims, hclean, hcleaned, hreclaimed,
    hlatest₂⟩ := @cleanAccountsOlderThanRoot_spec _
      { db with
        dirtyStores := dirtyStores₀
        uncleanedPubkeys := uncleanedPubkeys₀
        zeroLamportAccountsToPurgeAfterFullSnapshot := waiting₀ } maxCleanRoot
      h.consistent h.rooted h.latest h.count_pos purgesOld order
  dsimp only at hcleaned hreclaimed
  have hold : ∀ {key}, key ∈ pubkeys → ∀ e,
      latestSlot db.accountsIndex.roots (db.accountsIndex.entries key) maxCleanRoot = some e →
      e.1 ∈ db.accountsIndex.uncleanedRoots → key ∈ purgesOld := by
    intro key hkey e hlatest huncleaned
    exact mem_filter.mpr ⟨hkey, (snd_scanKey hlatest).mpr huncleaned⟩
  -- the accounts without lamports
  set purgesZero := pubkeys.dedup.filterMap fun key ↦ (scanKey db.accountsIndex maxCleanRoot key).1
    with hpurgesZero
  have hscan : ∀ p ∈ purgesZero, p.1 ∈ pubkeys ∧
      (scanKey db.accountsIndex maxCleanRoot p.1).1 = some p := by
    intro p hp
    obtain ⟨key, hkey, hp⟩ := mem_filterMap.mp hp
    rw [(of_scanKey hp).1]
    exact ⟨mem_dedup.mp hkey, hp⟩
  set index₃ := index₂.resetUncleanedRoots maxCleanRoot with hindex₃
  have hcons₃ : Consistent index₃ storage₂ [] :=
    hreclaimed.consistent.congr_index (fun _ ↦ rfl) hreclaimed.consistent.rooted
      hreclaimed.consistent.refs
  have hfull' : lastFullSnapshotSlot.getD u64Max < maxCleanRoot.getD u64Max →
      lastFullSnapshotSlot.isSome := by
    intro hlt
    cases lastFullSnapshotSlot with
    | some f => rfl
    | none =>
      refine absurd hlt (not_lt.mpr ?_)
      cases maxCleanRoot with
      | none => exact le_rfl
      | some m =>
        obtain ⟨l, hl, hle⟩ := hmax m rfl
        rw [Option.mem_def] at hl
        refine hle.trans ?_
        have := h.maxRoot_le
        rwa [h.maxRoot, hl] at this
  obtain ⟨purges, counts, counts', kept, waiting, hcounts, hdeps, hfilter, hdecided, hwaiting⟩ :=
    @exists_decided
      { db with
        accountsIndex := index₃
        storage := storage₂
        dirtyStores := dirtyStores₂
        uncleanedPubkeys := uncleanedPubkeys₀
        zeroLamportAccountsToPurgeAfterFullSnapshot := waiting₀ } maxCleanRoot
      ⟨purged, reclaims.map fun item ↦ (item.2.storeId, item.2.offset)⟩ purgesZero
      lastFullSnapshotSlot hcons₃ (nodup_purges pubkeys)
      (by
        intro p hp
        obtain ⟨-, -, -, -, hinfos, -⟩ := of_scanKey (hscan p hp).2
        rw [hinfos]
        exact (h.consistent.nodupSlots p.1).sublist (filter_sublist.map _))
      (by
        intro p hp item hitem hnot
        obtain ⟨-, -, -, -, hinfos, -⟩ := of_scanKey (hscan p hp).2
        rw [hinfos] at hitem
        change item ∈ index₂.entries p.1
        rw [hreclaimed.entries]
        refine (hcleaned.reclaimed (mem_of_mem_filter hitem)).resolve_right fun hmem ↦ hnot ?_
        exact .inr (mem_map.mpr ⟨item, hmem, rfl⟩))
      (by
        intro p hp purge hretained
        have hprepared := Retained.prepared h hcleaned hreclaimed (hold (hscan p hp).1)
          (hscan p hp).2 ⟨hretained.sublist, hretained.mem, hretained.refCount⟩
        exact ⟨hprepared.mem, hprepared.refCount, hprepared.single, hprepared.zero⟩)
      hfull' order
  dsimp only at hdecided
  have hlatest₃ : Latest index₃ storage₂ written := ⟨hlatest₂.present, hlatest₂.absent⟩
  -- the purge
  have hpos₂ : ∀ {slot store}, storage₂.get? slot = some store → 0 < store.count := by
    intro slot store hstore
    rw [hreclaimed.consistent.count_eq hstore]
    exact Finset.card_pos.mpr (hreclaimed.alive hstore)
  obtain ⟨index₅, storage₅, dirtyStores₅, purged₅, hpurge, hreclaimed₅⟩ := @handleReclaims_spec
    { db with
      accountsIndex := (purgeKeysExact index₃ kept).1
      storage := storage₂
      dirtyStores := dirtyStores₂
      uncleanedPubkeys := uncleanedPubkeys₀
      zeroLamportAccountsToPurgeAfterFullSnapshot := (waiting ++ waiting₀).dedup }
    (purgeKeysExact index₃ kept).2 order (hcons₃.purgeKeysExact kept) hpos₂
  dsimp only at hreclaimed₅
  have hsame : AccountsIndex.SameRoots index₃ _ := sameRoots_purgeKeysExact kept
  have hwithin : Within db.storage storage₅ := Within.trans hreclaimed.within hreclaimed₅.within
  have hmem₃ : ∀ {key item}, item ∈ index₅.entries key → item ∈ index₃.entries key := by
    intro key item hitem
    rw [hreclaimed₅.entries] at hitem
    exact hdecided.mem_entries hitem
  have hmem₁ : ∀ {key item}, item ∈ index₅.entries key → item ∈ index₁.entries key := by
    intro key item hitem
    rw [← hreclaimed.entries]
    exact hmem₃ hitem
  have hmem₀ : ∀ {key item}, item ∈ index₅.entries key → item ∈ db.accountsIndex.entries key :=
    fun hitem ↦ (hcleaned.sublist _).subset (hmem₁ hitem)
  have huncleaned : ∀ {key item}, item ∈ index₅.entries key →
      (item.1 ∈ index₅.uncleanedRoots ↔
        item.1 ∈ db.accountsIndex.uncleanedRoots ∧ ¬ ∀ m ∈ maxCleanRoot, item.1 ≤ m) := by
    intro key item hitem
    rw [hreclaimed₅.uncleanedRoots (hreclaimed₅.entries key ▸ hitem), hsame.uncleanedRoots, hindex₃,
      resetUncleanedRoots, Finset.mem_filter, hreclaimed.uncleanedRoots (hmem₁ hitem),
      hcleaned.sameRoots.uncleanedRoots]
  have hmaxRoot : index₅.maxRoot = db.accountsIndex.maxRoot :=
    hreclaimed₅.maxRoot.trans (hsame.maxRoot.trans
      (hreclaimed.maxRoot.trans hcleaned.sameRoots.maxRoot))
  refine ⟨{ db with
      accountsIndex := index₅
      storage := storage₅
      dirtyStores := dirtyStores₅
      uncleanedPubkeys := uncleanedPubkeys₀
      zeroLamportAccountsToPurgeAfterFullSnapshot := (waiting ++ waiting₀).dedup }, ?_,
    hreclaimed₅.consistent, hreclaimed₅.alive, (hdecided.latest hlatest₃).reclaimed hreclaimed₅, ?_,
    ?_, hmaxRoot.trans h.maxRoot, hmaxRoot.le.trans h.maxRoot_le, ?_, ?_, ?_⟩
  · simp only [cleanAccounts, hcandidates, some_bind]
    rw [← hpurgesOld, ← hpurgesZero, hclean]
    simp only [some_bind]
    rw [← hindex₃, hcounts]
    simp only [some_bind, hdeps, hfilter, hpurge, Option.pure_def]
  · intro slot store hstore
    obtain ⟨store₀, hstore₀, hid, -⟩ := hwithin hstore
    exact hid ▸ h.nextId hstore₀
  · intro slot store hstore
    obtain ⟨store₀, hstore₀, -⟩ := hwithin hstore
    exact h.slots hstore₀
  · -- a root that is cleaned now leaves no older entry
    intro key item hitem hcleanedRoot other hother
    rw [huncleaned hitem, not_and, not_not] at hcleanedRoot
    by_cases hroot : item.1 ∈ db.accountsIndex.uncleanedRoots
    · have hle : item.1 ≤ maxCleanRoot.getD db.accountsIndex.maxRoot := by
        cases maxCleanRoot with
        | none => exact h.le_maxRoot (hmem₀ hitem)
        | some m => exact hcleanedRoot hroot m rfl
      obtain ⟨keys, hkeys, hkey⟩ := h.pubkeys (hmem₀ hitem) hroot
      have hcandidate := hold (hpubkeys hkeys hkey hle)
      obtain ⟨e, hlatest⟩ := exists_latestSlot (hmem₀ hitem)
        ((h.rooted.le_iff (hmem₀ hitem)).mpr hle)
        (h.consistent.rooted (hmem₀ hitem))
      have hitem_eq := eq_of_le h hcleaned hcandidate hlatest (hmem₁ hitem) hle
      by_cases hother_le : other.1 ≤ maxCleanRoot.getD db.accountsIndex.maxRoot
      · exact (hitem_eq.trans (eq_of_le h hcleaned hcandidate hlatest (hmem₁ hother)
          hother_le).symm).le
      · exact hle.trans (not_le.mp hother_le).le
    · exact h.oldest (hmem₀ hitem) hroot other (hmem₀ hother)
  · intro key item hitem huncleanedRoot
    obtain ⟨hroot, hnot⟩ := (huncleaned hitem).mp huncleanedRoot
    obtain ⟨keys, hkeys, hkey⟩ := h.pubkeys (hmem₀ hitem) hroot
    refine ⟨keys, hlater hkeys (not_le.mp fun hle ↦ hnot ?_), hkey⟩
    rintro m rfl
    exact hle
  intro hne
  by_cases hempty : waiting = []
  · refine hwaits fun hempty₀ ↦ hne ?_
    change (waiting ++ waiting₀).dedup = []
    rw [hempty, hempty₀]
    rfl
  · exact hwaiting hempty

end

end Renec.AccountsDb
