import Renec.AccountsDb.Reclaim

/-!
# Which accounts are purged

The decisions of `cleanAccounts`, each specified by what the later steps need of it.
`cleanOldEntries` keeps the newest entry of every address, and of the others that it looks at only
those that are too new.
-/

namespace Renec.AccountsDb

open List Option AccountsIndex Prod

variable {index : AccountsIndex} {storage : SortedMap Slot AccountStorageEntry}
  {key k : Pubkey} {slot : Slot} {maxCleanRoot : Option Slot} {item e : Slot × AccountInfo}

/-! ### Outdated entries -/

/-- The entries of the index are of stored accounts in roots that the index knows. -/
structure Rooted (index : AccountsIndex) : Prop where
  isCached : ∀ {key item}, item ∈ index.entries key → item.2.isCached = false
  mem_roots : ∀ {key item}, item ∈ index.entries key → item.1 ∈ index.roots
  le_maxRoot : ∀ {key item}, item ∈ index.entries key → item.1 ≤ index.maxRoot
  maxRoot_le : index.maxRoot ≤ u64Max

namespace Rooted

section

variable (h : Rooted index)

include h

lemma of_sublist {index' : AccountsIndex}
    (hsub : ∀ key, (index'.entries key).Sublist (index.entries key))
    (hsame : AccountsIndex.SameRoots index index') : Rooted index' where
  isCached := fun hitem ↦ h.isCached ((hsub _).subset hitem)
  mem_roots := fun hitem ↦ hsame.roots ▸ h.mem_roots ((hsub _).subset hitem)
  le_maxRoot := fun hitem ↦ hsame.maxRoot ▸ h.le_maxRoot ((hsub _).subset hitem)
  maxRoot_le := hsame.maxRoot ▸ h.maxRoot_le

lemma le_iff (hitem : item ∈ index.entries key) :
    item.1 ≤ maxCleanRoot.getD u64Max ↔ item.1 ≤ maxCleanRoot.getD index.maxRoot := by
  cases maxCleanRoot with
  | none => exact iff_of_true ((h.le_maxRoot hitem).trans h.maxRoot_le) (h.le_maxRoot hitem)
  | some m => exact Iff.rfl

lemma newest_eq (hlatest : latestSlot index.roots (index.entries key) maxCleanRoot = some e) :
    getNewestRootInSlotList index.roots (index.entries key) maxCleanRoot = e.1 :=
  getNewestRootInSlotList_eq (fun _ hitem ↦ (h.le_maxRoot hitem).trans h.maxRoot_le) hlatest

lemma keepsEntry_iff (hitem : item ∈ index.entries key) :
    index.keepsEntry (index.entries key) maxCleanRoot item = true ↔
      maxCleanRoot.getD index.maxRoot ≤ item.1 ∨
        item.1 = getNewestRootInSlotList index.roots (index.entries key) maxCleanRoot := by
  rw [AccountsIndex.keepsEntry, h.isCached hitem, canPurgeOlderEntries]
  simp only [Bool.not_false, Bool.and_true, Bool.not_eq_true', decide_eq_false_iff_not, not_and,
    not_not]
  constructor
  · intro hkeep
    by_cases hlt : item.1 < maxCleanRoot.getD index.maxRoot
    · exact .inr (hkeep hlt)
    · exact .inl (not_lt.mp hlt)
  rintro (hle | heq) hlt
  · exact absurd hle (not_le.mpr hlt)
  · exact heq

lemma keepsEntry_newest (hitem : item ∈ index.entries key)
    (hnewest : ∀ other ∈ index.entries key, other.1 ≤ item.1) :
    index.keepsEntry (index.entries key) maxCleanRoot item = true := by
  rw [h.keepsEntry_iff hitem]
  by_cases hle : item.1 ≤ maxCleanRoot.getD index.maxRoot
  · right
    have hmax := (h.le_iff hitem).mpr hle
    obtain ⟨e, hlatest⟩ := exists_latestSlot hitem hmax (h.mem_roots hitem)
    rw [h.newest_eq hlatest]
    exact le_antisymm (le_of_latestSlot hlatest hitem hmax (h.mem_roots hitem))
      (hnewest e (mem_of_latestSlot hlatest).1)
  · exact .inl (not_le.mp hle).le

lemma eq_of_keepsEntry
    (hlatest : latestSlot index.roots (index.entries key) maxCleanRoot = some e)
    (hitem : item ∈ index.entries key)
    (hkeep : index.keepsEntry (index.entries key) maxCleanRoot item = true)
    (hle : item.1 ≤ maxCleanRoot.getD index.maxRoot) : item.1 = e.1 := by
  rw [h.keepsEntry_iff hitem, h.newest_eq hlatest] at hkeep
  rcases hkeep with hge | heq
  · obtain ⟨he, hmax, -⟩ := mem_of_latestSlot hlatest
    have hitem_le := le_of_latestSlot hlatest hitem ((h.le_iff hitem).mpr hle) (h.mem_roots hitem)
    exact le_antisymm hitem_le (((h.le_iff he).mp hmax).trans hge)
  · exact heq

end

end Rooted

/-- What the cleaning of old entries does to the index. -/
structure Cleaned (maxCleanRoot : Option Slot) (keys : List Pubkey) (index index' : AccountsIndex)
    (reclaims : SlotList) : Prop where
  sublist : ∀ key, (index'.entries key).Sublist (index.entries key)
  newest : ∀ {key item}, item ∈ index.entries key →
    (∀ other ∈ index.entries key, other.1 ≤ item.1) → item ∈ index'.entries key
  only : ∀ {key e}, key ∈ keys → latestSlot index.roots (index.entries key) maxCleanRoot = some e →
    ∀ item ∈ index'.entries key, item.1 ≤ maxCleanRoot.getD index.maxRoot → item.1 = e.1
  reclaimed : ∀ {key item}, item ∈ index.entries key → item ∈ index'.entries key ∨ item ∈ reclaims
  sameRoots : AccountsIndex.SameRoots index index'
  refCount : ∀ {key entry'}, index'.accountMaps.lookup key = some entry' →
    ∃ entry, index.accountMaps.lookup key = some entry ∧ entry.refCount = entry'.refCount

lemma entries_cleanRootedEntries : (index.cleanRootedEntries k maxCleanRoot).1.entries key =
      if key = k then (index.entries k).filter (index.keepsEntry (index.entries k) maxCleanRoot)
      else index.entries key := by
  rw [AccountsIndex.cleanRootedEntries, entries_removeIfSlotListEmpty, entries_retainEntries]

lemma cleaned_cleanRootedEntries (h : Rooted index) :
    Cleaned maxCleanRoot [k] index (index.cleanRootedEntries k maxCleanRoot).1
      (index.cleanRootedEntries k maxCleanRoot).2 where
  sublist := fun key ↦ by
    rw [entries_cleanRootedEntries]
    split_ifs with hkey
    · exact hkey ▸ filter_sublist
    · exact Sublist.refl _
  newest := by
    intro key item hitem hnewest
    rw [entries_cleanRootedEntries]
    split_ifs with hkey
    · subst hkey
      exact mem_filter.mpr ⟨hitem, h.keepsEntry_newest hitem hnewest⟩
    · exact hitem
  only := by
    intro key e hkey hlatest item hitem hle
    rw [mem_singleton] at hkey
    subst hkey
    rw [entries_cleanRootedEntries, if_pos rfl, mem_filter] at hitem
    exact h.eq_of_keepsEntry hlatest hitem.1 hitem.2 hle
  reclaimed := by
    intro key item hitem
    rw [entries_cleanRootedEntries]
    split_ifs with hkey
    · subst hkey
      rw [AccountsIndex.cleanRootedEntries, reclaims_retainEntries, mem_filter, mem_filter]
      cases index.keepsEntry (index.entries key) maxCleanRoot item <;> simp [hitem]
    · exact .inl hitem
  sameRoots := sameRoots_retainEntries.trans sameRoots_removeIfSlotListEmpty
  refCount := fun hlookup ↦ refCount_retainEntries (lookup_removeIfSlotListEmpty hlookup)

/-- Old entries, for all addresses that the scan has found. -/
theorem cleaned_cleanOldEntries : ∀ (keys : List Pubkey) {index : AccountsIndex}, Rooted index →
      Cleaned maxCleanRoot keys index (cleanOldEntries maxCleanRoot keys index).1
        (cleanOldEntries maxCleanRoot keys index).2
  | [], index, _ =>
    ⟨fun _ ↦ Sublist.refl _, fun hitem _ ↦ hitem, by simp, .inl,
      AccountsIndex.SameRoots.refl _, fun hlookup ↦ ⟨_, hlookup, rfl⟩⟩
  | k :: keys, index, h => by
    have hfirst : Cleaned maxCleanRoot [k] index _ _ := cleaned_cleanRootedEntries h
    have hrest := cleaned_cleanOldEntries keys (h.of_sublist hfirst.sublist hfirst.sameRoots)
    rw [cleanOldEntries]
    refine ⟨fun key ↦ (hrest.sublist key).trans (hfirst.sublist key), ?_, ?_, ?_,
      hfirst.sameRoots.trans hrest.sameRoots, ?_⟩
    · intro key item hitem hnewest
      exact hrest.newest (hfirst.newest hitem hnewest) fun other hother ↦
        hnewest other ((hfirst.sublist key).subset hother)
    · intro key e hkey hlatest item hitem hle
      by_cases hk : key = k
      · exact hfirst.only (mem_singleton.mpr hk) hlatest item ((hrest.sublist key).subset hitem) hle
      -- the list of another address is as it was
      refine hrest.only ((mem_cons.mp hkey).resolve_left hk) ?_ item hitem ?_
      · rw [hfirst.sameRoots.roots, entries_cleanRootedEntries, if_neg hk]
        exact hlatest
      · rwa [hfirst.sameRoots.maxRoot]
    · intro key item hitem
      rcases hfirst.reclaimed hitem with hitem | hitem
      · exact (hrest.reclaimed hitem).imp_right (mem_append_right _)
      · exact .inr (mem_append_left _ hitem)
    intro key entry' hlookup
    obtain ⟨entry, hentry, href⟩ := hrest.refCount hlookup
    obtain ⟨entry₀, hentry₀, href₀⟩ := hfirst.refCount hentry
    exact ⟨entry₀, hentry₀, href₀.trans href⟩

/-! ### Store counts -/

/-- The store counts when the accounts in `done` have been counted off: what is left of a storage
and the accounts counted off it make up its count. -/
structure Counted (storage : SortedMap Slot AccountStorageEntry) (done : Pubkey → Slot → Prop)
    (counts : StoreCounts) : Prop where
  sound : ∀ {id count keys}, counts.lookup id = some (count, keys) →
    ∃ slot store, storage.get? slot = some store ∧ id = .appendVec store.id ∧
      count + keys.length = store.count ∧ keys.Nodup ∧ ∀ key ∈ keys, done key slot
  complete : ∀ {key slot store}, done key slot → storage.get? slot = some store →
    ∃ count keys, counts.lookup (.appendVec store.id) = some (count, keys) ∧ key ∈ keys

variable {counts : StoreCounts} {done : Pubkey → Slot → Prop}

lemma Counted.congr {done' : Pubkey → Slot → Prop} (h : Counted storage done counts)
    (hdone : ∀ key slot, done key slot ↔ done' key slot) :
    Counted storage done' counts where
  sound := by
    intro id count keys hlookup
    obtain ⟨slot, store, hstore, hid, hcount, hnodup, hkeys⟩ := h.sound hlookup
    exact ⟨slot, store, hstore, hid, hcount, hnodup, fun key hkey ↦
      (hdone key slot).mp (hkeys key hkey)⟩
  complete := fun hd hstore ↦ h.complete ((hdone _ _).mpr hd) hstore

variable {db : AccountsDb}

/-- One account is counted off its storage. It has an entry and was not counted before, so the count
is not zero. -/
theorem Counted.storeCount (h : Counted db.storage done counts)
    (hcons : Consistent db.accountsIndex db.storage [])
    (hdone : ∀ {key slot}, done key slot → slot ∈ (db.accountsIndex.entries key).slots)
    (hitem : item ∈ db.accountsIndex.entries key) (hnew : ¬ done key item.1) :
    ∃ count keys, db.storeCount counts item.1 item.2 = some (count, keys) ∧ 1 ≤ count ∧
      Counted db.storage (fun k s ↦ done k s ∨ k = key ∧ s = item.1)
        (counts.insert item.2.storeId (count - 1, keys.insert key)) := by
  obtain ⟨store, -, hstore, hid, -⟩ := hcons.pointsTo hitem
  have halive := mem_aliveKeys_of_mem hitem
  have hcount := hcons.count_eq hstore
  -- what is counted off so far
  obtain ⟨count, keys, hstoreCount, hsum, hnodup, hkeys, hbefore⟩ : ∃ count keys,
      db.storeCount counts item.1 item.2 = some (count, keys) ∧
      count + keys.length = store.count ∧ keys.Nodup ∧ (∀ k ∈ keys, done k item.1) ∧
      ∀ k, done k item.1 → k ∈ keys := by
    cases hlookup : counts.lookup item.2.storeId with
    | none =>
      refine ⟨store.count, [], ?_, rfl, nodup_nil, by simp, fun k hk ↦ ?_⟩
      · rw [AccountsDb.storeCount, hlookup]
        simp only [(hcons.pointsTo hitem).isCached, Bool.false_eq_true, if_false,
          getAccountStorageEntry_eq hstore hid, map_some]
      obtain ⟨count, keys, hsome, -⟩ := h.complete hk hstore
      rw [← hid, hlookup] at hsome
      cases hsome
    | some storeCount =>
      obtain ⟨count, keys⟩ := storeCount
      obtain ⟨s, store', hstore', hid', hsum, hnodup, hkeys⟩ := h.sound hlookup
      have hsame : store.id = store'.id := StoreId.appendVec.inj (hid.symm.trans hid')
      obtain rfl := hcons.ids hstore hstore' hsame
      obtain rfl := some.inj (hstore.symm.trans hstore')
      refine ⟨count, keys, by rw [AccountsDb.storeCount, hlookup], hsum, hnodup, hkeys,
        fun k hk ↦ ?_⟩
      obtain ⟨count', keys', hsome, hmem⟩ := h.complete hk hstore
      rw [← hid, hlookup, some.injEq, Prod.mk.injEq] at hsome
      exact hsome.2 ▸ hmem
  have hnotMem : key ∉ keys := fun hmem ↦ hnew (hkeys key hmem)
  have hlt : keys.length < store.count := by
    rw [hcount, ← toFinset_card_of_nodup hnodup]
    refine Finset.card_lt_card ⟨fun k hk ↦ ?_, fun hsub ↦ ?_⟩
    · exact mem_aliveKeys.mpr (hdone (hkeys k (mem_toFinset.mp hk)))
    · exact hnotMem (mem_toFinset.mp (hsub halive))
  refine ⟨count, keys, hstoreCount, by omega, ?_, ?_⟩
  · intro id c ks hlookup
    by_cases hsame : id = item.2.storeId
    · subst hsame
      rw [Finmap.lookup_insert, some.injEq, Prod.mk.injEq] at hlookup
      obtain ⟨rfl, rfl⟩ := hlookup
      refine ⟨item.1, store, hstore, hid, ?_, hnodup.insert, fun k hk ↦ ?_⟩
      · rw [length_insert_of_not_mem hnotMem]
        omega
      rcases mem_insert_iff.mp hk with rfl | hk
      · exact .inr ⟨rfl, rfl⟩
      · exact .inl (hkeys k hk)
    rw [Finmap.lookup_insert_of_ne _ hsame] at hlookup
    obtain ⟨s, store', hstore', hid', hsum', hnodup', hkeys'⟩ := h.sound hlookup
    exact ⟨s, store', hstore', hid', hsum', hnodup', fun k hk ↦ .inl (hkeys' k hk)⟩
  intro k s store' hd hstore'
  by_cases hsame : StoreId.appendVec store'.id = item.2.storeId
  · have hids : store'.id = store.id := StoreId.appendVec.inj (hsame.trans hid)
    obtain rfl := hcons.ids hstore' hstore hids
    refine ⟨count - 1, keys.insert key, by rw [hsame, Finmap.lookup_insert], ?_⟩
    rcases hd with hd | ⟨rfl, -⟩
    · exact mem_insert_of_mem (hbefore k hd)
    · exact mem_insert_self
  rw [Finmap.lookup_insert_of_ne _ hsame]
  rcases hd with hd | ⟨-, rfl⟩
  · exact h.complete hd hstore'
  obtain rfl := some.inj (hstore.symm.trans hstore')
  exact absurd hid.symm hsame

/-- An entry of an address that `handleReclaims` has reclaimed. -/
def WasReclaimed (result : ReclaimResult) (key : Pubkey) (item : Slot × AccountInfo) : Prop :=
  (item.1, key) ∈ result.purgedAccountSlots ∨
    (item.2.storeId, item.2.offset) ∈ result.reclaimedOffsets

variable {result : ReclaimResult}

lemma retainAccountInfos_spec (hcons : Consistent db.accountsIndex db.storage []) :
    ∀ {infos : SlotList} {done : Pubkey → Slot → Prop} {counts : StoreCounts},
      Counted db.storage done counts →
      (∀ {key slot}, done key slot → slot ∈ (db.accountsIndex.entries key).slots) →
      infos.slots.Nodup →
      (∀ item ∈ infos, ¬ WasReclaimed result key item → item ∈ db.accountsIndex.entries key) →
      (∀ item ∈ infos, ¬ done key item.1) →
      ∃ infos' counts', retainAccountInfos db result key infos counts = some (infos', counts') ∧
        infos'.Sublist infos ∧ (∀ item ∈ infos', item ∈ db.accountsIndex.entries key) ∧
        Counted db.storage (fun k s ↦ done k s ∨ k = key ∧ s ∈ infos'.slots) counts'
  | [], done, counts, h, _, _, _, _ =>
    ⟨[], counts, rfl, Sublist.refl _, by simp, h.congr (by simp)⟩
  | (slot, info) :: rest, done, counts, h, hdone, hnodup, hleft, hnew => by
    rw [SlotList.slots, map_cons, nodup_cons] at hnodup
    have hleft' := fun item hitem ↦ hleft item (mem_cons_of_mem _ hitem)
    rw [retainAccountInfos]
    split_ifs with hreclaimed
    · obtain ⟨infos', counts', heq, hsub, hmem, hcounted⟩ := retainAccountInfos_spec hcons h hdone
        hnodup.2 hleft' fun item hitem ↦ hnew item (mem_cons_of_mem _ hitem)
      exact ⟨infos', counts', heq, hsub.cons _, hmem, hcounted⟩
    have hitem := hleft (slot, info) mem_cons_self hreclaimed
    obtain ⟨count, keys, hstoreCount, hpos, hcounted⟩ :=
      h.storeCount hcons hdone hitem (hnew (slot, info) mem_cons_self)
    obtain ⟨infos', counts', heq, hsub, hmem, hcounted'⟩ := retainAccountInfos_spec hcons hcounted
      (by
        rintro k s (hd | ⟨rfl, rfl⟩)
        · exact hdone hd
        · exact mem_map_of_mem hitem)
      hnodup.2 hleft'
      (by
        rintro other hother (hd | ⟨-, hslot⟩)
        · exact hnew other (mem_cons_of_mem _ hother) hd
        · exact hnodup.1 (mem_map.mpr ⟨other, hother, hslot⟩))
    refine ⟨(slot, info) :: infos', counts', ?_, hsub.cons_cons _, ?_, hcounted'.congr ?_⟩
    · simp only [hstoreCount, checkedSub, if_pos hpos, some_bind, heq, Option.pure_def]
    · exact forall_mem_cons.mpr ⟨hitem, hmem⟩
    intro k s
    simp only [SlotList.slots, map_cons, mem_cons]
    tauto

/-- A purge as it is after the old entries are gone: the entries that are left of the address, and
its current reference count. -/
structure Retained (index : AccountsIndex) (result : ReclaimResult) (key : Pubkey)
    (before after : Purge) : Prop where
  sublist : after.accountInfos.Sublist before.accountInfos
  mem : ∀ item ∈ after.accountInfos, item ∈ index.entries key
  refCount : after.refCount = refreshRefCount index result key before.refCount

/-- The store counts are those of the storages without the purges. -/
theorem calcStoreCounts_spec (hcons : Consistent db.accountsIndex db.storage []) :
    ∀ {purges : Purges} {done : Pubkey → Slot → Prop} {counts : StoreCounts},
      Counted db.storage done counts →
      (∀ {key slot}, done key slot → slot ∈ (db.accountsIndex.entries key).slots) →
      (purges.map fst).Nodup →
      (∀ p ∈ purges, p.2.accountInfos.slots.Nodup ∧ (∀ slot, ¬ done p.1 slot) ∧
        ∀ item ∈ p.2.accountInfos, ¬ WasReclaimed result p.1 item →
          item ∈ db.accountsIndex.entries p.1) →
      ∃ purges' counts', calcStoreCounts db result purges counts = some (purges', counts') ∧
        purges'.map fst = purges.map fst ∧
        (∀ p' ∈ purges', ∃ p ∈ purges, p.1 = p'.1 ∧
          Retained db.accountsIndex result p'.1 p.2 p'.2) ∧
        Counted db.storage
          (fun k s ↦ done k s ∨ ∃ p' ∈ purges', p'.1 = k ∧ s ∈ p'.2.accountInfos.slots) counts'
  | [], done, counts, h, _, _, _ => ⟨[], counts, rfl, rfl, by simp, h.congr (by simp)⟩
  | (key, purge) :: rest, done, counts, h, hdone, hnodup, hpurges => by
    rw [map_cons, nodup_cons] at hnodup
    obtain ⟨hslots, hnew, hleft⟩ := hpurges (key, purge) mem_cons_self
    obtain ⟨infos', counts₁, heq, hsub, hmem, hcounted⟩ :=
      retainAccountInfos_spec hcons h hdone hslots hleft fun item _ ↦ hnew item.1
    obtain ⟨purges', counts', heq', hkeys, hretained, hcounted'⟩ :=
      calcStoreCounts_spec hcons hcounted
      (by
        rintro k s (hd | ⟨rfl, hs⟩)
        · exact hdone hd
        obtain ⟨item, hitem, rfl⟩ := mem_map.mp hs
        exact mem_map_of_mem (hmem item hitem))
      hnodup.2
      (by
        intro p hp
        obtain ⟨hslots', hnew', hleft'⟩ := hpurges p (mem_cons_of_mem _ hp)
        refine ⟨hslots', fun s ↦ ?_, hleft'⟩
        rintro (hd | ⟨heq, -⟩)
        · exact hnew' s hd
        · exact hnodup.1 (mem_map.mpr ⟨p, hp, heq⟩))
    refine ⟨(key, ⟨infos', refreshRefCount db.accountsIndex result key purge.refCount⟩) :: purges',
      counts', ?_, ?_, ?_, hcounted'.congr ?_⟩
    · simp only [calcStoreCounts, heq, heq', some_bind, Option.pure_def]
    · rw [map_cons, map_cons, hkeys]
    · refine forall_mem_cons.mpr ⟨⟨_, mem_cons_self, rfl, hsub, hmem, rfl⟩, fun p' hp' ↦ ?_⟩
      obtain ⟨p, hp, hpkey, hpretained⟩ := hretained p' hp'
      exact ⟨p, mem_cons_of_mem _ hp, hpkey, hpretained⟩
    intro k s
    simp only [mem_cons, exists_eq_or_imp, @eq_comm _ key]
    exact or_assoc

/-! ### Dependencies -/

variable {purges : Purges}

section

variable {counts' : StoreCounts} {counted ids pending : List StoreId} {id : StoreId}

lemma mem_addPending : ∀ {ids pending : List StoreId}, id ∈ addPending counted ids pending ↔
      id ∈ pending ∨ id ∈ ids ∧ id ∉ counted
  | [], pending => by simp [addPending]
  | first :: ids, pending => by
    change id ∈ addPending counted ids _ ↔ _
    rw [mem_addPending]
    dsimp only
    split_ifs with hcounted
    · rw [mem_cons]
      refine or_congr_right ⟨fun h ↦ ⟨.inr h.1, h.2⟩, fun h ↦ ⟨?_, h.2⟩⟩
      exact h.1.resolve_left fun heq ↦ h.2 (heq ▸ hcounted)
    rw [mem_insert_iff, mem_cons]
    constructor
    · rintro ((rfl | h) | h)
      · exact .inr ⟨.inl rfl, hcounted⟩
      · exact .inl h
      · exact .inr ⟨.inr h.1, h.2⟩
    rintro (h | ⟨rfl | h, hnot⟩)
    · exact .inl (.inr h)
    · exact .inl (.inl rfl)
    · exact .inr ⟨h, hnot⟩

lemma nodup_addPending :
    ∀ {ids pending : List StoreId}, pending.Nodup → (addPending counted ids pending).Nodup
  | [], _, h => h
  | first :: ids, pending, h => by
    refine @nodup_addPending ids _ ?_
    dsimp only
    split_ifs
    · exact h
    · exact h.insert

/-- The closure raises some of the counts. -/
structure Raised (counts counts' : StoreCounts) : Prop where
  of_lookup : ∀ {id count' keys}, counts'.lookup id = some (count', keys) →
    ∃ count, counts.lookup id = some (count, keys) ∧ count ≤ count'
  lookup : ∀ {id count keys}, counts.lookup id = some (count, keys) →
    ∃ count', counts'.lookup id = some (count', keys) ∧ count ≤ count'

lemma Raised.refl (counts : StoreCounts) : Raised counts counts :=
  ⟨fun h ↦ ⟨_, h, le_rfl⟩, fun h ↦ ⟨_, h, le_rfl⟩⟩

lemma Raised.trans {counts₁ counts₂ counts₃ : StoreCounts} (h : Raised counts₁ counts₂)
    (h' : Raised counts₂ counts₃) : Raised counts₁ counts₃ := by
  constructor
  · intro id count₃ keys hlookup₃
    obtain ⟨count₂, hlookup₂, hle₂⟩ := h'.of_lookup hlookup₃
    obtain ⟨count₁, hlookup₁, hle₁⟩ := h.of_lookup hlookup₂
    exact ⟨count₁, hlookup₁, hle₁.trans hle₂⟩
  intro id count₁ keys hlookup₁
  obtain ⟨count₂, hlookup₂, hle₁⟩ := h.lookup hlookup₁
  obtain ⟨count₃, hlookup₃, hle₂⟩ := h'.lookup hlookup₂
  exact ⟨count₃, hlookup₃, hle₁.trans hle₂⟩

lemma raised_insert {count : ℕ} {keys : List Pubkey} (h : counts.lookup id = some (count, keys)) :
    Raised counts (counts.insert id (count + 1, keys)) := by
  constructor
  · intro id' count' keys' hlookup
    by_cases hid : id' = id
    · subst hid
      rw [Finmap.lookup_insert, some.injEq, Prod.mk.injEq] at hlookup
      exact ⟨count, hlookup.2 ▸ h, by omega⟩
    rw [Finmap.lookup_insert_of_ne _ hid] at hlookup
    exact ⟨count', hlookup, le_rfl⟩
  intro id' count' keys' hlookup
  by_cases hid : id' = id
  · subst hid
    obtain ⟨rfl, rfl⟩ := Prod.mk.inj (some.inj (h.symm.trans hlookup))
    exact ⟨count + 1, Finmap.lookup_insert _, Nat.le_succ _⟩
  · exact ⟨count', (Finmap.lookup_insert_of_ne _ hid).trans hlookup, le_rfl⟩

def Stays (counts : StoreCounts) (id : StoreId) : Prop :=
  ∃ count keys, counts.lookup id = some (count, keys) ∧ count ≠ 0

lemma Stays.raised (h : Stays counts id) (hraised : Raised counts counts') : Stays counts' id := by
  obtain ⟨count, keys, hlookup, hne⟩ := h
  obtain ⟨count', hlookup', hle⟩ := hraised.lookup hlookup
  exact ⟨count', keys, hlookup', by omega⟩

/-- The accounts of a counted storage are among the purges, and their storages are counted. -/
def Closed (purges : Purges) (counts : StoreCounts) : Prop :=
  ∀ {id count keys}, counts.lookup id = some (count, keys) → ∀ key ∈ keys,
    ∃ purge, purges.lookup key = some purge ∧ ∀ id' ∈ purge.storeIds, id' ∈ counts

lemma Raised.mem_iff (h : Raised counts counts') : id ∈ counts' ↔ id ∈ counts := by
  rw [Finmap.mem_iff, Finmap.mem_iff]
  constructor
  · rintro ⟨⟨count', keys⟩, hlookup⟩
    obtain ⟨count, hlookup, -⟩ := h.of_lookup hlookup
    exact ⟨_, hlookup⟩
  rintro ⟨⟨count, keys⟩, hlookup⟩
  obtain ⟨count', hlookup, -⟩ := h.lookup hlookup
  exact ⟨_, hlookup⟩

lemma Closed.raised (h : Closed purges counts) (hraised : Raised counts counts') :
    Closed purges counts' := by
  intro id count' keys hlookup key hkey
  obtain ⟨count, hlookup, -⟩ := hraised.of_lookup hlookup
  obtain ⟨purge, hpurge, hids⟩ := h hlookup key hkey
  exact ⟨purge, hpurge, fun id' hid' ↦ hraised.mem_iff.mpr (hids id' hid')⟩

/-- Every pending storage stays, and the loop ends: a storage is pending once at most, as it is
counted when it is taken. -/
theorem countPending_spec (order : HashOrder) :
    ∀ {fuel : ℕ} {pending : List StoreId} {counts : StoreCounts} {counted : List StoreId},
      Closed purges counts → pending.Nodup → (∀ id ∈ pending, id ∉ counted ∧ id ∈ counts) →
      (∀ id ∈ counted, Stays counts id) → (counts.keys.filter (· ∉ counted)).card ≤ fuel →
      ∃ counts' counted', countPending order purges fuel pending counts counted =
          some (counts', counted') ∧
        Raised counts counts' ∧ (∀ id ∈ counted', Stays counts' id) ∧
        ∀ id, id ∈ counted ∨ id ∈ pending → id ∈ counted'
  | 0, pending, counts, counted, _, _, hpending, hcounted, hfuel => by
    have hempty : pending = [] := by
      refine eq_nil_iff_forall_not_mem.mpr fun id hid ↦ ?_
      have hmem : id ∈ counts.keys.filter (· ∉ counted) :=
        Finset.mem_filter.mpr ⟨Finmap.mem_keys.mpr (hpending id hid).2, (hpending id hid).1⟩
      exact absurd (Finset.card_pos.mpr ⟨id, hmem⟩) (by omega)
    subst hempty
    exact ⟨counts, counted, rfl, Raised.refl _, hcounted, by simp⟩
  | fuel + 1, pending, counts, counted, hclosed, hnodup, hpending, hcounted, hfuel => by
    have hperm := order.ids_perm pending
    rw [countPending]
    split
    · rename_i hids
      rw [hids, nil_perm] at hperm
      subst hperm
      exact ⟨counts, counted, rfl, Raised.refl _, hcounted, by simp⟩
    rename_i id rest hids
    rw [hids] at hperm
    have hid : id ∈ pending := hperm.mem_iff.mp mem_cons_self
    have hrest : id ∉ rest ∧ rest.Nodup := nodup_cons.mp (hperm.nodup_iff.mpr hnodup)
    obtain ⟨hnotCounted, hmem⟩ := hpending id hid
    obtain ⟨⟨count, keys⟩, hlookup⟩ := Finmap.mem_iff.mp hmem
    obtain ⟨affected, haffected⟩ : ∃ affected, keys.mapM (fun key ↦ purges.lookup key) =
        some affected :=
      exists_mapM_eq_some fun key hkey ↦ by
        obtain ⟨purge, hpurge, -⟩ := hclosed hlookup key hkey
        exact ⟨purge, hpurge⟩
    have hraised := raised_insert hlookup
    have hstays : Stays (counts.insert id (count + 1, keys)) id :=
      ⟨count + 1, keys, Finmap.lookup_insert _, Nat.succ_ne_zero _⟩
    have hfilter : (counts.insert id (count + 1, keys)).keys.filter (· ∉ id :: counted) =
        (counts.keys.filter (· ∉ counted)).erase id := by
      ext id'
      simp only [Finset.mem_filter, Finmap.mem_keys, hraised.mem_iff, Finset.mem_erase,
        mem_cons, not_or]
      tauto
    have hin : id ∈ counts.keys.filter (· ∉ counted) :=
      Finset.mem_filter.mpr ⟨Finmap.mem_keys.mpr hmem, hnotCounted⟩
    obtain ⟨counts', counted', heq, hraised', hstays', hall⟩ := @countPending_spec order fuel
      (addPending (id :: counted) (affected.flatMap Purge.storeIds) rest)
      (counts.insert id (count + 1, keys)) (id :: counted) (hclosed.raised hraised)
      (nodup_addPending hrest.2)
      (by
        intro id' hid'
        rw [hraised.mem_iff]
        rcases mem_addPending.mp hid' with hid' | ⟨hid', hnot⟩
        · obtain ⟨hnot, hin'⟩ := hpending id' (hperm.mem_iff.mp (mem_cons_of_mem _ hid'))
          refine ⟨?_, hin'⟩
          rw [mem_cons, not_or]
          exact ⟨fun heq ↦ hrest.1 (heq ▸ hid'), hnot⟩
        refine ⟨hnot, ?_⟩
        -- the storages of an affected account are counted
        obtain ⟨purge, hpurge, hid'⟩ := mem_flatMap.mp hid'
        obtain ⟨key, hkey, hlookupKey⟩ := (mem_iff_of_mapM_eq_some haffected).mp hpurge
        obtain ⟨purge', hpurge', hids'⟩ := hclosed hlookup key hkey
        obtain rfl := some.inj (hlookupKey.symm.trans hpurge')
        exact hids' id' hid')
      (forall_mem_cons.mpr ⟨hstays, fun id' hid' ↦ (hcounted id' hid').raised hraised⟩)
      (by
        rw [hfilter, Finset.card_erase_of_mem hin]
        omega)
    refine ⟨counts', counted', ?_, hraised.trans hraised', hstays', fun id' hid' ↦ ?_⟩
    · rw [if_neg hnotCounted]
      simp only [hlookup, haffected, some_bind, heq]
    rcases hid' with hid' | hid'
    · exact hall id' (.inl (mem_cons_of_mem _ hid'))
    rcases mem_cons.mp (hperm.mem_iff.mpr hid') with rfl | hid'
    · exact hall _ (.inl mem_cons_self)
    · exact hall id' (.inr (mem_addPending.mpr (.inl hid')))

lemma anyStoreAlive_spec : ∀ {infos : SlotList}, (∀ item ∈ infos, item.2.storeId ∈ counts) →
      ∃ alive, anyStoreAlive counts infos = some alive ∧
        (alive = true ↔ ∃ item ∈ infos, Stays counts item.2.storeId)
  | [], _ => ⟨false, rfl, by simp⟩
  | (slot, info) :: rest, h => by
    obtain ⟨⟨count, keys⟩, hlookup⟩ := Finmap.mem_iff.mp (h (slot, info) mem_cons_self)
    simp only [anyStoreAlive, show counts.lookup info.storeId = some (count, keys) from hlookup,
      some_bind]
    split_ifs with hcount
    · exact ⟨true, rfl, iff_of_true rfl ⟨(slot, info), mem_cons_self, count, keys, hlookup, hcount⟩⟩
    obtain ⟨alive, heq, halive⟩ := anyStoreAlive_spec fun item hitem ↦
      h item (mem_cons_of_mem _ hitem)
    refine ⟨alive, heq, halive.trans ?_⟩
    simp only [mem_cons, exists_eq_or_imp]
    refine ⟨.inr, fun hor ↦ hor.resolve_left ?_⟩
    rintro ⟨count', keys', hlookup', hne⟩
    obtain ⟨rfl, -⟩ := Prod.mk.inj (some.inj (hlookup.symm.trans hlookup'))
    exact hcount hne

/-- Dependencies: counts are only raised, and every storage stays that has an account with a version
outside of the storages considered. -/
theorem calcDeleteDependencies_spec (order : HashOrder) :
    ∀ {todo : Purges} {counts : StoreCounts} {counted : List StoreId}, Closed purges counts →
      (∀ p ∈ todo, ∀ id ∈ p.2.storeIds, id ∈ counts) → (∀ id ∈ counted, Stays counts id) →
      ∃ counts', calcDeleteDependencies order purges todo counts counted = some counts' ∧
        Raised counts counts' ∧
        ∀ p ∈ todo, p.2.accountInfos.length ≠ p.2.refCount → ∀ id ∈ p.2.storeIds, Stays counts' id
  | [], counts, _, _, _, _ => ⟨counts, rfl, Raised.refl _, by simp⟩
  | (key, purge) :: rest, counts, counted, hclosed, hids, hcounted => by
    have hids₀ := hids (key, purge) mem_cons_self
    -- what the loop does for this address
    obtain ⟨blocked, hnoDelete, hlength⟩ : ∃ blocked, noDelete counts purge = some blocked ∧
        (purge.accountInfos.length ≠ purge.refCount → blocked = true) := by
      rw [noDelete]
      split_ifs with hne
      · exact ⟨true, rfl, fun _ ↦ rfl⟩
      obtain ⟨alive, heq, -⟩ := anyStoreAlive_spec fun item hitem ↦
        hids₀ item.2.storeId (mem_map.mpr ⟨item, hitem, rfl⟩)
      exact ⟨alive, heq, fun h ↦ absurd h hne⟩
    obtain ⟨counts₁, counted₁, heq₁, hraised₁, hcounted₁, hstays₁⟩ : ∃ counts₁ counted₁,
        keepStores order purges blocked purge counts counted = some (counts₁, counted₁) ∧
        Raised counts counts₁ ∧ (∀ id ∈ counted₁, Stays counts₁ id) ∧
        (blocked = true → ∀ id ∈ purge.storeIds, id ∈ counted₁) := by
      rw [keepStores]
      split_ifs with hblocked
      · obtain ⟨counts₁, counted₁, heq, hraised, hstays, hall⟩ := @countPending_spec _ order
          counts.keys.card (addPending counted purge.storeIds []) counts counted hclosed
          (nodup_addPending nodup_nil)
          (by
            intro id hid
            obtain ⟨hid, hnot⟩ := (mem_addPending.mp hid).resolve_left not_mem_nil
            exact ⟨hnot, hids₀ id hid⟩)
          hcounted (Finset.card_filter_le _ _)
        refine ⟨counts₁, counted₁, heq, hraised, hstays, fun _ id hid ↦ hall id ?_⟩
        by_cases hin : id ∈ counted
        · exact .inl hin
        · exact .inr (mem_addPending.mpr (.inr ⟨hid, hin⟩))
      · exact ⟨counts, counted, rfl, Raised.refl _, hcounted, fun h ↦ absurd h hblocked⟩
    obtain ⟨counts', heq', hraised', hstays'⟩ := @calcDeleteDependencies_spec order rest counts₁
      counted₁ (hclosed.raised hraised₁)
      (fun p hp id hid ↦ hraised₁.mem_iff.mpr (hids p (mem_cons_of_mem _ hp) id hid)) hcounted₁
    refine ⟨counts', ?_, hraised₁.trans hraised', ?_⟩
    · simp only [calcDeleteDependencies, hnoDelete, heq₁, some_bind, heq']
    intro p hp hne id hid
    rcases mem_cons.mp hp with rfl | hp
    · exact (hcounted₁ id (hstays₁ (hlength hne) id hid)).raised hraised'
    · exact hstays' p hp hne id hid

/-! ### The filter -/

/-- Entries can be purged if their storages go and, with incremental snapshots, their slots are in
the last full snapshot. -/
def Purgeable (maxCleanRoot lastFullSnapshotSlot : Option Slot) (counts : StoreCounts)
    (infos : SlotList) : Prop :=
  ∀ item ∈ infos, ¬ Stays counts item.2.storeId ∧
    (lastFullSnapshotSlot.getD u64Max < maxCleanRoot.getD u64Max →
      ∃ full ∈ lastFullSnapshotSlot, item.1 ≤ full)

open scoped Classical in
/-- The filter keeps the purges of addresses whose entry can be purged. -/
theorem filterZeroLamportClean_spec {lastFullSnapshotSlot : Option Slot}
    (hfull : lastFullSnapshotSlot.getD u64Max < maxCleanRoot.getD u64Max →
      lastFullSnapshotSlot.isSome) :
    ∀ {purges : Purges},
      (∀ p ∈ purges, p.2.accountInfos.length ≤ 1 ∧
        ∀ item ∈ p.2.accountInfos, item.2.lamports = 0 ∧ item.2.storeId ∈ counts) →
      ∃ waiting,
        filterZeroLamportCleanForIncrementalSnapshots maxCleanRoot lastFullSnapshotSlot counts
          purges = some (purges.filter fun p ↦
            Purgeable maxCleanRoot lastFullSnapshotSlot counts p.2.accountInfos, waiting) ∧
        (waiting ≠ [] → lastFullSnapshotSlot.isSome)
  | [], _ => ⟨[], rfl, by simp⟩
  | (key, purge) :: rest, h => by
    obtain ⟨waiting, heq, hwaiting⟩ := filterZeroLamportClean_spec hfull
      fun p hp ↦ h p (mem_cons_of_mem _ hp)
    obtain ⟨hsingle, hzero⟩ := h (key, purge) mem_cons_self
    obtain ⟨alive, halive, hstays⟩ := anyStoreAlive_spec fun item hitem ↦ (hzero item hitem).2
    simp only [filterZeroLamportCleanForIncrementalSnapshots, heq, halive, some_bind,
      Option.pure_def]
    cases alive with
    | true =>
      obtain ⟨item, hitem, hstay⟩ := hstays.mp rfl
      have hnot : ¬ Purgeable maxCleanRoot lastFullSnapshotSlot counts purge.accountInfos :=
        fun hp ↦ (hp item hitem).1 hstay
      rw [filter_cons_of_neg (by simpa using hnot)]
      exact ⟨waiting, rfl, hwaiting⟩
    | false =>
      have hgone : ∀ item ∈ purge.accountInfos, ¬ Stays counts item.2.storeId := fun item hitem hs ↦
        Bool.false_ne_true (hstays.mpr ⟨item, hitem, hs⟩)
      simp only [Bool.false_eq_true, if_false]
      by_cases hfilter : lastFullSnapshotSlot.getD u64Max < maxCleanRoot.getD u64Max
      · rw [if_neg (not_not.mpr hfilter)]
        obtain ⟨full, rfl⟩ := isSome_iff_exists.mp (hfull hfilter)
        cases hinfos : purge.accountInfos with
        | nil =>
          rw [filter_cons_of_pos (by simp [Purgeable, hinfos])]
          exact ⟨waiting, rfl, hwaiting⟩
        | cons item tail =>
          rw [hinfos] at hsingle
          obtain rfl : tail = [] := by simpa using hsingle
          have hitem : item ∈ purge.accountInfos := by rw [hinfos]; exact mem_cons_self
          simp only [argmax_singleton, (hzero item hitem).1, ne_eq, not_true_eq_false, if_false,
            some_bind]
          split_ifs with hlt
          · have hnot : ¬ Purgeable maxCleanRoot (some full) counts purge.accountInfos := by
              intro hp
              obtain ⟨full', hmem, hle⟩ := (hp item hitem).2 hfilter
              cases hmem
              exact absurd hle (not_le.mpr hlt)
            rw [filter_cons_of_neg (by simpa using hnot)]
            exact ⟨(item.1, key) :: waiting, rfl, fun _ ↦ rfl⟩
          rw [filter_cons_of_pos]
          · exact ⟨waiting, rfl, hwaiting⟩
          refine decide_eq_true fun other hother ↦ ⟨hgone other hother, fun _ ↦ ⟨full, rfl, ?_⟩⟩
          rw [hinfos, mem_singleton] at hother
          exact hother ▸ not_lt.mp hlt
      rw [if_pos hfilter, filter_cons_of_pos]
      · exact ⟨waiting, rfl, hwaiting⟩
      · exact decide_eq_true fun item hitem ↦ ⟨hgone item hitem, fun hf ↦ absurd hf hfilter⟩

end

/-! ### The purges in the index -/

lemma entries_handleDeadKeys : ∀ (keys : List Pubkey) {index : AccountsIndex},
      (index.handleDeadKeys keys).entries key = index.entries key
  | [], _ => rfl
  | k :: keys, index => by
    change ((index.removeIfSlotListEmpty k).handleDeadKeys keys).entries key = _
    rw [entries_handleDeadKeys, entries_removeIfSlotListEmpty]

lemma sameRoots_handleDeadKeys : ∀ (keys : List Pubkey) {index : AccountsIndex},
      AccountsIndex.SameRoots index (index.handleDeadKeys keys)
  | [], _ => AccountsIndex.SameRoots.refl _
  | _ :: keys, _ => sameRoots_removeIfSlotListEmpty.trans (sameRoots_handleDeadKeys keys)

lemma entries_purgeEntries : ∀ {purges : Purges} {index : AccountsIndex}, (purges.map fst).Nodup →
      (∀ p ∈ purges, (purgeEntries purges index).1.entries p.1 =
        (index.entries p.1).filter fun item ↦ decide (item.1 ∉ p.2.accountInfos.slots)) ∧
      ∀ key ∉ purges.map fst, (purgeEntries purges index).1.entries key = index.entries key
  | [], _, _ => ⟨by simp, fun _ _ ↦ rfl⟩
  | (k, purge) :: rest, index, hnodup => by
    rw [map_cons, nodup_cons] at hnodup
    obtain ⟨hmem, hother⟩ := @entries_purgeEntries rest
      (index.purgeExact k purge.accountInfos.slots).1 hnodup.2
    have hfirst : ∀ key, (index.purgeExact k purge.accountInfos.slots).1.entries key =
        if key = k then (index.entries k).filter fun item ↦
          decide (item.1 ∉ purge.accountInfos.slots) else index.entries key :=
      fun key ↦ entries_retainEntries
    constructor
    · intro p hp
      rcases mem_cons.mp hp with rfl | hp
      · exact (hother _ hnodup.1).trans ((hfirst _).trans (if_pos rfl))
      have hne : p.1 ≠ k := fun heq ↦ hnodup.1 (mem_map.mpr ⟨p, hp, heq⟩)
      refine (hmem p hp).trans ?_
      rw [hfirst, if_neg hne]
    intro key hkey
    rw [map_cons, mem_cons, not_or] at hkey
    exact (hother key hkey.2).trans ((hfirst key).trans (if_neg hkey.1))

lemma sameRoots_purgeEntries : ∀ (purges : Purges) {index : AccountsIndex},
      AccountsIndex.SameRoots index (purgeEntries purges index).1
  | [], _ => AccountsIndex.SameRoots.refl _
  | _ :: rest, _ => sameRoots_retainEntries.trans (sameRoots_purgeEntries rest)

lemma entries_purgeKeysExact :
    (purgeKeysExact index purges).1.entries key = (purgeEntries purges index).1.entries key :=
  entries_handleDeadKeys _

lemma sameRoots_purgeKeysExact (purges : Purges) :
    AccountsIndex.SameRoots index (purgeKeysExact index purges).1 :=
  (sameRoots_purgeEntries purges).trans (sameRoots_handleDeadKeys _)

end Renec.AccountsDb
