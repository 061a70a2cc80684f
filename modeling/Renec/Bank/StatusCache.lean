import Renec.Collections.SortedMap
import Renec.Sdk.Types

/-!
# The status cache

`StatusCache` (`runtime/src/status_cache.rs`) remembers which transactions have been processed. The
`cache` has, for every recent blockhash, the keys seen under it, each with the slots it was seen in;
only 20 bytes of a key are kept, from an offset that is drawn once for the blockhash. The
`slotDeltas` have, for every slot, the keys seen in it, by blockhash, and are what a snapshot
stores.
-/

namespace Renec

open SortedMap Finmap

open Option

/-- `MAX_HASH_AGE_IN_SECONDS * DEFAULT_TICKS_PER_SECOND / DEFAULT_TICKS_PER_SLOT`. -/
def maxRecentBlockhashes : ℕ := 120 * 160 / 64

def maxProcessingAge : ℕ := maxRecentBlockhashes / 2

def maxCacheEntries : ℕ := maxRecentBlockhashes

def cachedKeySize : ℕ := 20

/-- The 20 bytes of a key that are kept. -/
abbrev KeySlice := List UInt8

/-- The last offset at which a slice is taken from a key. -/
def maxKeyIndex (key : List UInt8) : ℕ := key.length - (cachedKeySize + 1)

/-- `key[index..index + CACHED_KEY_SIZE]`. -/
def keySlice (key : List UInt8) (index : ℕ) : Option KeySlice :=
  if index + cachedKeySize ≤ key.length then some ((key.drop index).take cachedKeySize) else none

variable {key : List UInt8} {index : ℕ}

lemma exists_keySlice (h : cachedKeySize ≤ key.length) (hindex : index ≤ maxKeyIndex key) :
    ∃ slice, keySlice key index = some slice := by
  refine ⟨_, if_pos ?_⟩
  rw [maxKeyIndex] at hindex
  omega

/-- `KeyMap<T>`: the slots of every slice. -/
abbrev KeyMap (τ : Type) := Finmap fun _ : KeySlice ↦ List (ℕ × τ)

/-- What the cache has under a blockhash: the highest slot it was seen in, the offset of its slices,
and the slots of every slice. -/
structure BlockhashEntry (τ : Type) where
  slot : ℕ
  keyIndex : ℕ
  keys : KeyMap τ

/-- `Status<T>`: the keys of a slot, with the offset of their slices, by blockhash. -/
abbrev Statuses (τ : Type) := SortedMap Hash (ℕ × List (KeySlice × τ))

structure StatusCache (τ : Type) where
  cache : SortedMap Hash (BlockhashEntry τ)
  roots : Finset ℕ
  slotDeltas : SortedMap ℕ (Statuses τ)

variable {τ : Type} {res : τ} {slice slice' : KeySlice} {slot slot' : ℕ}

namespace KeyMap

section

variable (keys : KeyMap τ) (slice : KeySlice) (slot : ℕ)

/-- A slot is listed at a slice. -/
def Has : Prop := ∃ forks, keys.lookup slice = some forks ∧ ∃ res, (slot, res) ∈ forks

/-- List a slot at a slice. -/
def push (res : τ) : KeyMap τ := keys.insert slice ((keys.lookup slice).getD [] ++ [(slot, res)])

/-- Take a slot from the list at a slice, which must be there. -/
def clearKey (keys : KeyMap τ) (key : KeySlice × τ) : Option (KeyMap τ) := do
  let forks ← keys.lookup key.1
  let forks := forks.filter fun f ↦ f.1 ≠ slot
  return if forks.isEmpty then keys.erase key.1 else keys.insert key.1 forks

end

variable {keys keys' : KeyMap τ}

lemma not_has_empty : ¬KeyMap.Has (∅ : KeyMap τ) slice slot := by
  rintro ⟨forks, hforks, -⟩
  rw [lookup_empty] at hforks
  cases hforks

lemma not_has_of_keys_eq_empty (h : keys.keys = ∅) : ¬keys.Has slice slot := by
  rintro ⟨forks, hforks, -⟩
  have hmem : slice ∈ keys.keys := mem_keys.mpr (mem_of_lookup_eq_some hforks)
  rw [h] at hmem
  exact absurd hmem (Finset.notMem_empty _)

lemma has_push : (keys.push slice slot res).Has slice' slot' ↔
    slice' = slice ∧ slot' = slot ∨ keys.Has slice' slot' := by
  unfold Has push
  by_cases hslice : slice' = slice
  · subst hslice
    cases hforks : keys.lookup slice' with
    | none => simp
    | some forks => simp [exists_or, or_comm]
  · simp [lookup_insert_of_ne _ hslice, hslice]

lemma has_of_clearKey {key : KeySlice × τ} (h : clearKey slot keys key = some keys') :
    keys'.Has slice' slot' ↔ keys.Has slice' slot' ∧ ¬(slot' = slot ∧ slice' = key.1) := by
  simp only [clearKey, bind_eq_bind, bind_eq_some_iff, pure_def, some.injEq] at h
  obtain ⟨forks, hforks, rfl⟩ := h
  by_cases hslice : slice' = key.1
  · subst hslice
    rw [Has, Has, hforks]
    split_ifs with hempty
    · simp only [lookup_erase, reduceCtorEq, false_and, exists_false, false_iff, not_and,
        not_not, some.injEq, exists_eq_left', and_true]
      rintro ⟨res, hres⟩
      by_contra hne
      rw [List.isEmpty_iff, List.filter_eq_nil_iff] at hempty
      exact hempty _ hres (by simpa using hne)
    simp only [lookup_insert, some.injEq, exists_eq_left', List.mem_filter, and_true]
    simp
  have hlookup : (if (forks.filter fun f ↦ f.1 ≠ slot).isEmpty then keys.erase key.1
      else keys.insert key.1 (forks.filter fun f ↦ f.1 ≠ slot)).lookup slice' =
      keys.lookup slice' := by
    split_ifs
    · exact lookup_erase_ne hslice
    · exact lookup_insert_of_ne _ hslice
  simp only [Has, hlookup, hslice, and_false, not_false_eq_true, and_true]

/-- Clearing a list of keys takes the slot from their slices and leaves all else. -/
theorem has_of_foldlM_clearKey {list : List (KeySlice × τ)}
    (h : list.foldlM (clearKey slot) keys = some keys') :
    keys'.Has slice' slot' ↔
      keys.Has slice' slot' ∧ ¬(slot' = slot ∧ ∃ res, (slice', res) ∈ list) := by
  induction list generalizing keys with
  | nil =>
    obtain rfl : keys = keys' := some.inj h
    simp
  | cons key list ih =>
    rw [List.foldlM_cons, bind_eq_bind, bind_eq_some_iff] at h
    obtain ⟨keys₁, hkey, hlist⟩ := h
    obtain ⟨slice, res⟩ := key
    rw [ih hlist, has_of_clearKey hkey]
    simp only [List.mem_cons, Prod.mk.injEq, exists_or, exists_and_left, exists_eq, and_true]
    tauto

end KeyMap

/-- `hash_map.0 = max(slot, hash_map.0)`. -/
def BlockhashEntry.raise (entry : BlockhashEntry τ) (slot : ℕ) : BlockhashEntry τ :=
  { entry with slot := max slot entry.slot }

namespace StatusCache

/-- `StatusCache::default`: 0 is always a root. -/
def new : StatusCache τ := ⟨.empty, {0}, .empty⟩

/-! ### Operations -/

variable (c : StatusCache τ)

variable (blockhash : Hash)

/-- The entry of a blockhash, a new one if there is none. -/
def entryOr (slot keyIndex : ℕ) : BlockhashEntry τ :=
  (c.cache.get? blockhash).getD ⟨slot, keyIndex, ∅⟩

def insertWithSlice (slot keyIndex : ℕ) (slice : KeySlice) (res : τ) : StatusCache τ :=
  let entry := c.entryOr blockhash slot keyIndex
  let statuses := (c.slotDeltas.get? slot).getD .empty
  let hashEntry := (statuses.get? blockhash).getD (keyIndex, [])
  { c with
    cache := c.cache.insert blockhash
      { entry.raise slot with keys := entry.keys.push slice slot res }
    slotDeltas := c.slotDeltas.insert slot
      (statuses.insert blockhash (hashEntry.1, hashEntry.2 ++ [(slice, res)])) }

/-- Insert a key for a slot. The offset of a new blockhash is random: `draw` is what the generator
returns, before it is brought into its range. -/
def insert (key : List UInt8) (slot : ℕ) (res : τ) (draw : ℕ) : Option (StatusCache τ) := do
  let entry := c.entryOr blockhash slot (draw % (maxKeyIndex key + 1))
  let keyIndex := min entry.keyIndex (maxKeyIndex key)
  let slice ← keySlice key keyIndex
  return insertWithSlice { c with cache := c.cache.insert blockhash (entry.raise slot) }
    blockhash slot keyIndex slice res

def purgeRoots : StatusCache τ :=
  if h : maxCacheEntries < c.roots.card then
    let min := c.roots.min' (Finset.card_pos.mp (Nat.zero_lt_of_lt h))
    { roots := c.roots.erase min
      cache := c.cache.filter fun _ entry ↦ decide (min < entry.slot)
      slotDeltas := c.slotDeltas.filterKeys fun slot ↦ decide (min < slot) }
  else c

def addRoot (fork : ℕ) : StatusCache τ := purgeRoots { c with roots := Insert.insert fork c.roots }

/-- Take a slot from the keys listed for it under a blockhash, which must be there. -/
def clearBlockhash (slot : ℕ) (cache : SortedMap Hash (BlockhashEntry τ))
    (statuses : Hash × ℕ × List (KeySlice × τ)) : Option (SortedMap Hash (BlockhashEntry τ)) := do
  let entry ← cache.get? statuses.1
  let keys ← statuses.2.2.foldlM (KeyMap.clearKey slot) entry.keys
  return if keys.keys = ∅ then cache.filterKeys fun h ↦ decide (h ≠ statuses.1)
    else cache.insert statuses.1 { entry with keys := keys }

def clearSlotEntries (slot : ℕ) : Option (StatusCache τ) :=
  match c.slotDeltas.get? slot with
  | none => some c
  | some statuses => do
    let cache ← statuses.entries.foldlM (clearBlockhash slot) c.cache
    return { c with
      cache := cache
      slotDeltas := c.slotDeltas.filterKeys fun s ↦ decide (s ≠ slot) }

/-- The status of a key: the first slot listed for it that is an ancestor or a root. -/
def getStatus (key : List UInt8) (blockhash : Hash) (ancestors : Finset ℕ) :
    Option (Option (ℕ × τ)) :=
  match c.cache.get? blockhash with
  | none => some none
  | some entry => do
    let slice ← keySlice key (min entry.keyIndex (maxKeyIndex key))
    return (entry.keys.lookup slice).bind fun forks ↦
      forks.find? fun f ↦ decide (f.1 ∈ ancestors ∨ f.1 ∈ c.roots)

/-! ### What a cache holds -/

variable {c c' : StatusCache τ} {h h' : Hash} {keyIndex draw : ℕ}

/-- A slot is listed in a cache map, at a slice under a blockhash. -/
def StoredIn (cache : SortedMap Hash (BlockhashEntry τ)) (h : Hash) (slice : KeySlice) (slot : ℕ) :
    Prop :=
  ∃ entry, cache.get? h = some entry ∧ entry.keys.Has slice slot

section

variable (c : StatusCache τ)

/-- A slot is listed in the cache. -/
def Stored (h : Hash) (slice : KeySlice) (slot : ℕ) : Prop :=
  StoredIn c.cache h slice slot

/-- A slice is listed in the delta of a slot, under a blockhash. -/
def Recorded (h : Hash) (slice : KeySlice) (slot : ℕ) : Prop :=
  ∃ statuses, c.slotDeltas.get? slot = some statuses ∧
    ∃ status, statuses.get? h = some status ∧ ∃ res, (slice, res) ∈ status.2

/-- The offset of a blockhash in the cache. -/
def offset (h : Hash) : Option ℕ := (c.cache.get? h).map BlockhashEntry.keyIndex

/-- The highest slot of a blockhash in the cache. -/
def top (h : Hash) : Option ℕ := (c.cache.get? h).map BlockhashEntry.slot

def deltaOffset (slot : ℕ) (h : Hash) : Option ℕ :=
  ((c.slotDeltas.get? slot).bind fun statuses ↦ statuses.get? h).map Prod.fst

end

lemma Stored.exists_top (hstored : c.Stored h slice slot) : ∃ t, c.top h = some t := by
  obtain ⟨entry, hentry, -⟩ := hstored
  exact ⟨_, by rw [top, hentry]; rfl⟩

lemma offset_eq_none : c.offset h = none ↔ c.cache.get? h = none := map_eq_none_iff

lemma exists_top_iff : (∃ t, c.top h = some t) ↔ ∃ i, c.offset h = some i := by
  simp [top, offset]

/-! ### Insertion -/

/-- **What an insertion does**: one slice is added, in both maps, with the offset `fresh` for a
blockhash that is new to the cache and `index` for one that is new to the delta. -/
structure Inserted (c : StatusCache τ) (h : Hash) (slice : KeySlice) (slot fresh index : ℕ)
    (c' : StatusCache τ) : Prop where
  roots : c'.roots = c.roots
  stored : ∀ h' slice' slot', c'.Stored h' slice' slot' ↔
    (h' = h ∧ slice' = slice ∧ slot' = slot) ∨ c.Stored h' slice' slot'
  recorded : ∀ h' slice' slot', c'.Recorded h' slice' slot' ↔
    (h' = h ∧ slice' = slice ∧ slot' = slot) ∨ c.Recorded h' slice' slot'
  offset : ∀ h', c'.offset h' = if h' = h then some ((c.offset h).getD fresh) else c.offset h'
  top : ∀ h', c'.top h' = if h' = h then some (max slot ((c.top h).getD slot)) else c.top h'
  deltaOffset : ∀ slot' h', c'.deltaOffset slot' h' =
    if slot' = slot ∧ h' = h then some ((c.deltaOffset slot h).getD index)
    else c.deltaOffset slot' h'

lemma keyIndex_entryOr : (c.entryOr h slot keyIndex).keyIndex = (c.offset h).getD keyIndex := by
  rw [entryOr, offset]
  cases c.cache.get? h <;> rfl

lemma slot_entryOr : (c.entryOr h slot keyIndex).slot = (c.top h).getD slot := by
  rw [entryOr, top]
  cases c.cache.get? h <;> rfl

lemma has_entryOr (slot keyIndex : ℕ) :
    (c.entryOr h slot keyIndex).keys.Has slice' slot' ↔ c.Stored h slice' slot' := by
  rw [entryOr, Stored, StoredIn]
  cases c.cache.get? h with
  | none => simp [KeyMap.not_has_empty]
  | some entry => simp

lemma stored_insertWithSlice : (c.insertWithSlice h slot keyIndex slice res).Stored h' slice' slot'
    ↔ (h' = h ∧ slice' = slice ∧ slot' = slot) ∨ c.Stored h' slice' slot' := by
  simp only [Stored, StoredIn, insertWithSlice, get?_insert]
  by_cases hh : h' = h
  · subst hh
    simp only [if_true, some.injEq, exists_eq_left', KeyMap.has_push, true_and]
    exact or_congr_right (has_entryOr slot keyIndex)
  · simp [hh]

lemma recorded_insertWithSlice :
    (c.insertWithSlice h slot keyIndex slice res).Recorded h' slice' slot'
    ↔ (h' = h ∧ slice' = slice ∧ slot' = slot) ∨ c.Recorded h' slice' slot' := by
  simp only [Recorded, insertWithSlice, get?_insert]
  by_cases hslot : slot' = slot
  · subst hslot
    simp only [if_true, some.injEq, exists_eq_left', get?_insert]
    by_cases hh : h' = h
    · subst hh
      simp only [if_true, some.injEq, exists_eq_left', List.mem_append, List.mem_singleton]
      cases hstatuses : c.slotDeltas.get? slot' with
      | none => simp
      | some statuses =>
        cases hstatus : statuses.get? h' with
        | none => simp [hstatus]
        | some status =>
          obtain ⟨index, list⟩ := status
          simp [hstatus, or_comm, exists_or]
    cases hstatuses : c.slotDeltas.get? slot' with
    | none | some statuses => simp [hh]
  · simp [hslot]

lemma inserted_insertWithSlice (c : StatusCache τ) (h : Hash) (slice : KeySlice)
    (slot keyIndex : ℕ) (res : τ) :
    Inserted c h slice slot keyIndex keyIndex (c.insertWithSlice h slot keyIndex slice res) where
  roots := rfl
  stored _ _ _ := stored_insertWithSlice
  recorded _ _ _ := recorded_insertWithSlice
  offset h' := by
    rw [offset, insertWithSlice, get?_insert]
    split_ifs
    · exact congrArg some keyIndex_entryOr
    · rfl
  top h' := by
    rw [top, insertWithSlice, get?_insert]
    split_ifs
    · exact congrArg (fun t ↦ some (max slot t)) slot_entryOr
    · rfl
  deltaOffset slot' h' := by
    simp only [deltaOffset, insertWithSlice, get?_insert]
    by_cases hslot : slot' = slot
    · subst hslot
      simp only [if_true, bind_some, get?_insert, true_and]
      split_ifs
      · cases c.slotDeltas.get? slot' with
        | none => rfl
        | some statuses =>
          simp only [getD_some, bind_some, map_some]
          cases statuses.get? h <;> rfl
      · cases c.slotDeltas.get? slot' <;> rfl
    · simp [hslot]

/-- The offset of a blockhash once a key is inserted under it. -/
def freshOffset (c : StatusCache τ) (h : Hash) (key : List UInt8) (draw : ℕ) : ℕ :=
  (c.offset h).getD (draw % (maxKeyIndex key + 1))

lemma getD_freshOffset :
    (c.offset h).getD (c.freshOffset h key draw) = c.freshOffset h key draw := by
  rw [freshOffset]
  cases c.offset h <;> rfl

lemma inserted_of_insert (hrun : c.insert h key slot res draw = some c') :
    ∃ slice, keySlice key (min (c.freshOffset h key draw) (maxKeyIndex key)) = some slice ∧
      Inserted c h slice slot (c.freshOffset h key draw)
        (min (c.freshOffset h key draw) (maxKeyIndex key)) c' := by
  simp only [insert, bind_eq_bind, bind_eq_some_iff, pure_def, some.injEq, keyIndex_entryOr] at hrun
  obtain ⟨slice, hslice, rfl⟩ := hrun
  rw [← freshOffset] at hslice ⊢
  refine ⟨slice, hslice, ?_⟩
  -- the entry is raised first, which stores nothing new
  have hins := inserted_insertWithSlice
    { c with
      cache := c.cache.insert h ((c.entryOr h slot (draw % (maxKeyIndex key + 1))).raise slot) }
    h slice slot (min (c.freshOffset h key draw) (maxKeyIndex key)) res
  refine ⟨hins.roots, fun h' slice' slot' ↦ ?_, hins.recorded, fun h' ↦ ?_, fun h' ↦ ?_,
    hins.deltaOffset⟩
  · rw [hins.stored, Stored, StoredIn, get?_insert]
    refine or_congr_right ?_
    split_ifs with hh
    · rw [hh, ← has_entryOr slot (draw % (maxKeyIndex key + 1))]
      simp [BlockhashEntry.raise]
    · rfl
  · rw [hins.offset]
    simp only [offset, get?_insert, if_true]
    split_ifs
    · rw [map_some, getD_some]
      show _ = some ((c.offset h).getD (c.freshOffset h key draw))
      rw [getD_freshOffset]
      exact congrArg some keyIndex_entryOr
    · rfl
  rw [hins.top]
  simp only [top, get?_insert, if_true]
  split_ifs
  · rw [map_some, getD_some, BlockhashEntry.raise, slot_entryOr, top]
    simp
  · rfl

/-! ### Roots -/

/-- **What a purge does**: the least root goes, with every blockhash whose highest slot is not after
it and every delta that is not. -/
structure Purged (c : StatusCache τ) (fork min : ℕ) (c' : StatusCache τ) : Prop where
  full : maxCacheEntries < (Insert.insert fork c.roots).card
  mem : min ∈ Insert.insert fork c.roots
  least : ∀ r ∈ Insert.insert fork c.roots, min ≤ r
  roots : c'.roots = (Insert.insert fork c.roots).erase min
  stored : ∀ h slice slot, c'.Stored h slice slot ↔
    c.Stored h slice slot ∧ ∃ t, c.top h = some t ∧ min < t
  recorded : ∀ h slice slot, c'.Recorded h slice slot ↔ c.Recorded h slice slot ∧ min < slot
  offset : ∀ h i, c'.offset h = some i ↔ c.offset h = some i ∧ ∃ t, c.top h = some t ∧ min < t
  top : ∀ h t, c'.top h = some t ↔ c.top h = some t ∧ min < t
  deltaOffset : ∀ slot h i, c'.deltaOffset slot h = some i ↔
    c.deltaOffset slot h = some i ∧ min < slot

section

lemma exists_filter {cache : SortedMap Hash (BlockhashEntry τ)} {min : ℕ}
    {P : BlockhashEntry τ → Prop} :
    (∃ entry, (cache.filter fun _ e ↦ decide (min < e.slot)).get? h = some entry ∧ P entry) ↔
      (∃ entry, cache.get? h = some entry ∧ P entry) ∧
        ∃ t, (cache.get? h).map BlockhashEntry.slot = some t ∧ min < t := by
  simp only [get?_filter_eq_some, decide_eq_true_eq]
  cases cache.get? h with
  | none => simp
  | some entry => simp [and_comm]

variable (c) (p : ℕ → Prop) [DecidablePred p]
  (hdeltas : c'.slotDeltas = c.slotDeltas.filterKeys fun s ↦ decide (p s))

include hdeltas

lemma recorded_of_filterKeys : c'.Recorded h slice slot ↔ c.Recorded h slice slot ∧ p slot := by
  simp only [Recorded, hdeltas, get?_filterKeys_eq_some, decide_eq_true_eq]
  cases c.slotDeltas.get? slot with
  | none => simp
  | some statuses => simp [and_comm]

lemma deltaOffset_of_filterKeys {i : ℕ} :
    c'.deltaOffset slot h = some i ↔ c.deltaOffset slot h = some i ∧ p slot := by
  simp only [deltaOffset, hdeltas, map_eq_some_iff, bind_eq_some_iff, get?_filterKeys_eq_some,
    decide_eq_true_eq]
  cases c.slotDeltas.get? slot with
  | none => simp
  | some statuses => simp [and_comm]

end

lemma addRoot_cases (c : StatusCache τ) (fork : ℕ) :
    (Insert.insert fork c.roots).card ≤ maxCacheEntries ∧
        c.addRoot fork = { c with roots := Insert.insert fork c.roots } ∨
      ∃ min, Purged c fork min (c.addRoot fork) := by
  by_cases hfull : maxCacheEntries < (Insert.insert fork c.roots).card
  · refine .inr ⟨(Insert.insert fork c.roots).min' (Finset.insert_nonempty _ _), ?_⟩
    rw [addRoot, purgeRoots, dif_pos hfull]
    refine ⟨hfull, Finset.min'_mem _ _, fun r hr ↦ Finset.min'_le _ r hr, rfl, ?_, ?_, ?_, ?_, ?_⟩
    · intro h slice slot
      simp only [Stored, StoredIn, exists_filter, top]
    · exact fun h slice slot ↦ recorded_of_filterKeys c _ rfl
    · intro h i
      simp only [offset, map_eq_some_iff, exists_filter, top]
    · intro h t
      simp only [top, map_eq_some_iff, get?_filter_eq_some, decide_eq_true_eq]
      constructor
      · rintro ⟨entry, ⟨hentry, hmin⟩, rfl⟩
        exact ⟨⟨entry, hentry, rfl⟩, hmin⟩
      rintro ⟨⟨entry, hentry, rfl⟩, hmin⟩
      exact ⟨entry, ⟨hentry, hmin⟩, rfl⟩
    · exact fun slot h i ↦ deltaOffset_of_filterKeys c _ rfl
  refine .inl ⟨Nat.le_of_not_lt hfull, ?_⟩
  rw [addRoot, purgeRoots, dif_neg hfull]

/-- No slot is stored above the highest slot of its blockhash. -/
def UpToTop (c : StatusCache τ) : Prop :=
  ∀ h slice slot, c.Stored h slice slot → ∃ t, c.top h = some t ∧ slot ≤ t

lemma UpToTop.inserted {fresh : ℕ} (hc : c.UpToTop)
    (hins : Inserted c h slice slot fresh index c') : c'.UpToTop := by
  intro h' slice' slot' hstored
  rw [hins.top]
  rcases (hins.stored _ _ _).mp hstored with ⟨rfl, rfl, rfl⟩ | hstored
  · exact ⟨_, if_pos rfl, le_max_left _ _⟩
  obtain ⟨t, ht, hle⟩ := hc _ _ _ hstored
  split_ifs with hh
  · subst hh
    refine ⟨_, rfl, hle.trans ?_⟩
    rw [ht]
    exact le_max_right _ _
  · exact ⟨t, ht, hle⟩

lemma UpToTop.purged {fork min : ℕ} (hc : c.UpToTop) (hpurge : Purged c fork min c') :
    c'.UpToTop := by
  intro h slice slot hstored
  obtain ⟨hstored, t, ht, hmin⟩ := (hpurge.stored _ _ _).mp hstored
  obtain ⟨t', ht', hle⟩ := hc _ _ _ hstored
  obtain rfl : t = t' := some.inj (ht.symm.trans ht')
  exact ⟨t, (hpurge.top h t).mpr ⟨ht, hmin⟩, hle⟩

/-! ### Clearing a slot -/

/-- **What clearing a slot does**: the delta of the slot goes, with what it lists. -/
structure Cleared (c : StatusCache τ) (slot : ℕ) (c' : StatusCache τ) : Prop where
  roots : c'.roots = c.roots
  stored : ∀ h slice slot', c'.Stored h slice slot' ↔
    c.Stored h slice slot' ∧ ¬(slot' = slot ∧ c.Recorded h slice slot)
  recorded : ∀ h slice slot', c'.Recorded h slice slot' ↔ c.Recorded h slice slot' ∧ slot' ≠ slot
  offset : ∀ h i, c'.offset h = some i → c.offset h = some i
  top : ∀ h t, c'.top h = some t → c.top h = some t
  deltaOffset : ∀ slot' h i, c'.deltaOffset slot' h = some i ↔
    c.deltaOffset slot' h = some i ∧ slot' ≠ slot

/-- The entries of a cache map have the slots and offsets they have in another. -/
def EntriesFrom (cache cache' : SortedMap Hash (BlockhashEntry τ)) : Prop :=
  ∀ h entry', cache'.get? h = some entry' →
    ∃ entry, cache.get? h = some entry ∧ entry.slot = entry'.slot ∧ entry.keyIndex = entry'.keyIndex

section

variable {cache cache' : SortedMap Hash (BlockhashEntry τ)}
  {statuses : Hash × ℕ × List (KeySlice × τ)}

lemma storedIn_of_clearBlockhash (hrun : clearBlockhash slot cache statuses = some cache') :
    (StoredIn cache' h slice slot' ↔ StoredIn cache h slice slot' ∧
      ¬(slot' = slot ∧ h = statuses.1 ∧ ∃ res, (slice, res) ∈ statuses.2.2)) := by
  simp only [clearBlockhash, bind_eq_bind, bind_eq_some_iff, pure_def, some.injEq] at hrun
  obtain ⟨entry, hentry, keys, hkeys, rfl⟩ := hrun
  by_cases hh : h = statuses.1
  · subst hh
    have hstored : StoredIn cache statuses.1 slice slot' ↔ entry.keys.Has slice slot' := by
      simp [StoredIn, hentry]
    rw [hstored, eq_self_iff_true, true_and, ← KeyMap.has_of_foldlM_clearKey hkeys]
    split_ifs with hempty
    · simp [StoredIn, get?_filterKeys_eq_some, KeyMap.not_has_of_keys_eq_empty hempty]
    · simp [StoredIn]
  split_ifs with hempty
  · simp [StoredIn, get?_filterKeys_eq_some, hh]
  · simp [StoredIn, get?_insert_of_ne hh, hh]

lemma entriesFrom_of_clearBlockhash (hrun : clearBlockhash slot cache statuses = some cache') :
    EntriesFrom cache cache' := by
  simp only [clearBlockhash, bind_eq_bind, bind_eq_some_iff, pure_def, some.injEq] at hrun
  obtain ⟨entry, hentry, keys, hkeys, rfl⟩ := hrun
  intro h entry' hentry'
  split_ifs at hentry' with hempty
  · exact ⟨entry', (get?_filterKeys_eq_some.mp hentry').1, rfl, rfl⟩
  rw [get?_insert] at hentry'
  split_ifs at hentry' with hh
  · cases hentry'
    exact ⟨entry, hh ▸ hentry, rfl, rfl⟩
  · exact ⟨entry', hentry', rfl, rfl⟩

lemma of_foldlM_clearBlockhash {list : List (Hash × ℕ × List (KeySlice × τ))}
    (hrun : list.foldlM (clearBlockhash slot) cache = some cache') :
    (∀ h slice slot', StoredIn cache' h slice slot' ↔ StoredIn cache h slice slot' ∧
      ¬(slot' = slot ∧ ∃ status, (h, status) ∈ list ∧ ∃ res, (slice, res) ∈ status.2)) ∧
    EntriesFrom cache cache' := by
  induction list generalizing cache with
  | nil =>
    obtain rfl : cache = cache' := some.inj hrun
    exact ⟨by simp, fun h entry hentry ↦ ⟨entry, hentry, rfl, rfl⟩⟩
  | cons statuses list ih =>
    rw [List.foldlM_cons, bind_eq_bind, bind_eq_some_iff] at hrun
    obtain ⟨cache₁, hstatuses, hlist⟩ := hrun
    obtain ⟨hstored, hfrom⟩ := ih hlist
    refine ⟨fun h slice slot' ↦ ?_, fun h entry hentry ↦ ?_⟩
    · obtain ⟨h₁, status⟩ := statuses
      rw [hstored, storedIn_of_clearBlockhash hstatuses]
      simp only [List.mem_cons, Prod.mk.injEq, or_and_right, exists_or, and_assoc,
        exists_eq_left, exists_and_left]
      rw [and_or_left, not_or]
    obtain ⟨entry₁, hentry₁, hslot₁, hindex₁⟩ := hfrom h entry hentry
    obtain ⟨entry₀, hentry₀, hslot₀, hindex₀⟩ :=
      entriesFrom_of_clearBlockhash hstatuses h entry₁ hentry₁
    exact ⟨entry₀, hentry₀, hslot₀.trans hslot₁, hindex₀.trans hindex₁⟩

lemma cleared_of_clearSlotEntries (hrun : c.clearSlotEntries slot = some c') :
    Cleared c slot c' := by
  rw [clearSlotEntries] at hrun
  split at hrun
  next hnone =>
    -- nothing is listed for the slot
    cases hrun
    have hno : ∀ h slice, ¬c.Recorded h slice slot := by
      rintro h slice ⟨statuses, hstatuses, -⟩
      rw [hnone] at hstatuses
      cases hstatuses
    refine ⟨rfl, fun h slice slot' ↦ by simp [hno], fun h slice slot' ↦ ?_, fun _ _ h ↦ h,
      fun _ _ h ↦ h, fun slot' h i ↦ ?_⟩
    · refine (and_iff_left_of_imp fun hrec hslot ↦ ?_).symm
      exact hno h slice (hslot ▸ hrec)
    refine (and_iff_left_of_imp fun hdelta hslot ↦ ?_).symm
    rw [deltaOffset, hslot, hnone] at hdelta
    cases hdelta
  next statuses hstatuses =>
    simp only [bind_eq_bind, bind_eq_some_iff, pure_def, some.injEq] at hrun
    obtain ⟨cache, hcache, rfl⟩ := hrun
    obtain ⟨hstored, hfrom⟩ := of_foldlM_clearBlockhash hcache
    refine ⟨rfl, fun h slice slot' ↦ (hstored h slice slot').trans ?_, fun h slice slot' ↦ ?_,
      fun h i hi ↦ ?_, fun h t ht ↦ ?_, fun slot' h i ↦ ?_⟩
    · simp [Stored, Recorded, hstatuses, get?_eq_some]
    · exact recorded_of_filterKeys c (· ≠ slot) rfl
    · obtain ⟨entry', hentry', rfl⟩ := map_eq_some_iff.mp hi
      obtain ⟨entry, hentry, -, hindex⟩ := hfrom h entry' hentry'
      exact map_eq_some_iff.mpr ⟨entry, hentry, hindex⟩
    · obtain ⟨entry', hentry', rfl⟩ := map_eq_some_iff.mp ht
      obtain ⟨entry, hentry, hslot, -⟩ := hfrom h entry' hentry'
      exact map_eq_some_iff.mpr ⟨entry, hentry, hslot⟩
    · exact deltaOffset_of_filterKeys c (· ≠ slot) rfl

end

/-! ### Lookup -/

lemma exists_getStatus (hkey : cachedKeySize ≤ key.length) (ancestors : Finset ℕ) :
    ∃ status, c.getStatus key h ancestors = some status := by
  rw [getStatus]
  split
  · exact ⟨_, rfl⟩
  next entry _ =>
    obtain ⟨slice, hslice⟩ := exists_keySlice hkey (min_le_right entry.keyIndex _)
    exact ⟨_, by rw [hslice]; rfl⟩

/-- What a lookup finds: the slice of the key, at the offset of the blockhash, in an ancestor or a
root. -/
theorem isSome_of_getStatus {ancestors : Finset ℕ} {status : Option (ℕ × τ)}
    (hrun : c.getStatus key h ancestors = some status) :
    status.isSome ↔ ∃ i slice slot, c.offset h = some i ∧
      keySlice key (min i (maxKeyIndex key)) = some slice ∧ c.Stored h slice slot ∧
      (slot ∈ ancestors ∨ slot ∈ c.roots) := by
  rw [getStatus] at hrun
  split at hrun
  next hnone =>
    cases hrun
    simp [offset, hnone]
  next entry hentry =>
    simp only [bind_eq_bind, bind_eq_some_iff, pure_def, some.injEq] at hrun
    obtain ⟨slice, hslice, rfl⟩ := hrun
    have hstored : ∀ slot, c.Stored h slice slot ↔ entry.keys.Has slice slot := by
      intro slot
      simp [Stored, StoredIn, hentry]
    simp only [offset, hentry, map_some, some.injEq, exists_and_left,
      exists_eq_left', hslice, hstored, KeyMap.Has]
    cases entry.keys.lookup slice with
    | none | some forks => simp

end StatusCache

end Renec
