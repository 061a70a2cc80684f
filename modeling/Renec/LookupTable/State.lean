import Renec.Collections.Slices
import Renec.Machine.Outcome
import Renec.Sdk.Types

/-!
# Address lookup tables

A lookup table (`programs/address-lookup-table/src/state.rs`) is a list of addresses that a
transaction names by their index.
-/

namespace Renec

open List Outcome Prod

/-! ### Recent slots -/

/-- `slot_hashes::MAX_ENTRIES`. -/
def slotHashesMaxEntries : ℕ := 512

/-- `SlotHashes`: the most recent slots and their hashes, newest first. -/
structure SlotHashes where
  entries : List (Slot × Hash)
  sorted : entries.Pairwise fun a b ↦ b.1 < a.1

namespace SlotHashes

section

variable (s : SlotHashes) (slot : Slot)

def slots : List Slot := s.entries.map fst

/-- A slot at its place in a sorted list, in the stead of an entry with the same slot. -/
def insertSlot (entries : List (Slot × Hash)) (slot : Slot) (hash : Hash) : List (Slot × Hash) :=
  entries.filter (slot < ·.1) ++ (slot, hash) :: entries.filter (·.1 < slot)

lemma pairwise_insertSlot {entries : List (Slot × Hash)} {slot : Slot} {hash : Hash}
    (h : entries.Pairwise fun a b ↦ b.1 < a.1) :
    (insertSlot entries slot hash).Pairwise fun a b ↦ b.1 < a.1 := by
  have hbelow : ∀ e ∈ entries.filter (·.1 < slot), e.1 < slot := fun e he ↦ by
    simpa using (mem_filter.mp he).2
  refine pairwise_append.mpr ⟨h.sublist filter_sublist,
    pairwise_cons.mpr ⟨hbelow, h.sublist filter_sublist⟩, fun a ha b hb ↦ ?_⟩
  have habove : slot < a.1 := by simpa using (mem_filter.mp ha).2
  rcases mem_cons.mp hb with rfl | hb
  · exact habove
  · exact (hbelow b hb).trans habove

lemma mem_slots_insertSlot {entries : List (Slot × Hash)} {slot x : Slot} {hash : Hash} :
    x ∈ (insertSlot entries slot hash).map fst ↔ x = slot ∨ x ∈ entries.map fst := by
  simp only [insertSlot, map_append, map_cons, mem_append, mem_cons,
    mem_map, mem_filter, decide_eq_true_eq]
  constructor
  · rintro (⟨e, ⟨he, -⟩, rfl⟩ | rfl | ⟨e, ⟨he, -⟩, rfl⟩)
    · exact .inr ⟨e, he, rfl⟩
    · exact .inl rfl
    · exact .inr ⟨e, he, rfl⟩
  rintro (rfl | ⟨e, he, rfl⟩)
  · exact .inr (.inl rfl)
  rcases Nat.lt_trichotomy e.1 slot with hlt | heq | hgt
  · exact .inr (.inr ⟨e, ⟨he, hlt⟩, rfl⟩)
  · exact .inr (.inl heq)
  · exact .inl ⟨e, ⟨he, hgt⟩, rfl⟩

/-- `SlotHashes::add`: the list is sorted, so a binary search finds the slot or its place. -/
def add (hash : Hash) : SlotHashes where
  entries := (insertSlot s.entries slot hash).take slotHashesMaxEntries
  sorted := (pairwise_insertSlot s.sorted).sublist (take_sublist _ _)

/-- `SlotHashes::position`. -/
def position : Option ℕ :=
  s.entries.findIdx? fun e ↦ e.1 == slot

/-- `SlotHashes::get`. -/
def get : Option Hash :=
  (s.position slot).bind fun index ↦ s.entries[index]?.map snd

end

variable {s : SlotHashes} {slot x : Slot}

lemma position_eq_none : s.position slot = none ↔ slot ∉ s.slots := by
  rw [position, List.findIdx?_eq_none_iff, slots, mem_map]
  constructor
  · rintro h ⟨e, he, rfl⟩
    simpa using h e he
  intro h e he
  rw [beq_eq_false_iff_ne]
  exact fun heq ↦ h ⟨e, he, heq⟩

lemma mem_of_get_isSome (h : (s.get slot).isSome) : slot ∈ s.slots := by
  by_contra hmem
  rw [get, position_eq_none.mpr hmem] at h
  cases h

variable {hash : Hash}

lemma slots_add_of_lt (h : ∀ x ∈ s.slots, x < slot) :
    (s.add slot hash).slots = (slot :: s.slots).take slotHashesMaxEntries := by
  have hlt : ∀ e ∈ s.entries, e.1 < slot := fun e he ↦ h e.1 (mem_map_of_mem he)
  have habove : s.entries.filter (slot < ·.1) = [] :=
    filter_eq_nil_iff.mpr fun e he ↦ by simpa using (hlt e he).le
  have hbelow : s.entries.filter (·.1 < slot) = s.entries :=
    filter_eq_self.mpr fun e he ↦ by simpa using hlt e he
  have hinsert : insertSlot s.entries slot hash = (slot, hash) :: s.entries := by
    rw [insertSlot, habove, hbelow, nil_append]
  show ((insertSlot s.entries slot hash).take slotHashesMaxEntries).map fst = _
  rw [hinsert, map_take, map_cons, slots]

lemma mem_of_mem_slots_add (h : x ∈ (s.add slot hash).slots) : x = slot ∨ x ∈ s.slots := by
  obtain ⟨e, he, rfl⟩ := mem_map.mp h
  exact mem_slots_insertSlot.mp (mem_map_of_mem (mem_of_mem_take he))

/-- The window moves up: a slot that is pushed out is below every slot that stays. -/
theorem mem_or_lt_of_mem (h : x = slot ∨ x ∈ s.slots) :
    x ∈ (s.add slot hash).slots ∨ ∀ y ∈ (s.add slot hash).slots, x < y := by
  have hsorted := @pairwise_insertSlot s.entries slot hash s.sorted
  obtain ⟨e, he, rfl⟩ := mem_map.mp ((@mem_slots_insertSlot _ _ _ hash).mpr h)
  rw [← take_append_drop slotHashesMaxEntries (insertSlot s.entries slot hash)] at he hsorted
  rcases mem_append.mp he with he | he
  · exact .inl (mem_map_of_mem he)
  refine .inr fun y hy ↦ ?_
  obtain ⟨f, hf, rfl⟩ := mem_map.mp hy
  exact (pairwise_append.mp hsorted).2.2 f hf e he

end SlotHashes

/-! ### Tables -/

/-- `LOOKUP_TABLE_MAX_ADDRESSES`. -/
def lookupTableMaxAddresses : ℕ := 256

/-- `LOOKUP_TABLE_META_SIZE`. -/
def lookupTableMetaSize : ℕ := 56

/-- `LookupTableStatus`. -/
inductive LookupTableStatus where
  | activated
  | deactivating (remainingBlocks : ℕ)
  | deactivated
  deriving DecidableEq

/-- `LookupTableMeta`. -/
structure LookupTableMeta where
  deactivationSlot : Slot
  /-- The slot that the table was last extended. -/
  lastExtendedSlot : Slot
  /-- The start index where the table was last extended from in that slot, a `u8`. -/
  lastExtendedSlotStartIndex : ℕ
  /-- The address which must sign for each modification; a frozen table has none. -/
  authority : Option Pubkey
  deriving DecidableEq

namespace LookupTableMeta

def new (authority : Pubkey) : LookupTableMeta where
  deactivationSlot := u64Max
  lastExtendedSlot := 0
  lastExtendedSlotStartIndex := 0
  authority := some authority

section

variable (m : LookupTableMeta) (currentSlot : Slot) (slotHashes : SlotHashes)

/-- `LookupTableMeta::status`. -/
def status : LookupTableStatus :=
  if m.deactivationSlot = u64Max then .activated
  else if m.deactivationSlot = currentSlot then
    .deactivating (saturatingAdd 64 slotHashesMaxEntries 1)
  else
    match slotHashes.position m.deactivationSlot with
    | some slotHashPosition => .deactivating (slotHashesMaxEntries - slotHashPosition)
    | none => .deactivated

/-- `LookupTableMeta::is_active`. -/
def isActive : Bool :=
  match m.status currentSlot slotHashes with
  | .activated => true
  | .deactivating _ => true
  | .deactivated => false

end

variable {m : LookupTableMeta} {currentSlot : Slot} {slotHashes : SlotHashes}

lemma status_eq_deactivated :
    m.status currentSlot slotHashes = .deactivated ↔ m.deactivationSlot ≠ u64Max ∧
      m.deactivationSlot ≠ currentSlot ∧ m.deactivationSlot ∉ slotHashes.slots := by
  rw [status, ← SlotHashes.position_eq_none]
  split_ifs with hmax hcurrent
  · simp [hmax]
  · simp [hcurrent]
  split
  · rename_i hsome
    simp [hsome]
  rename_i hnone
  simp [hmax, hcurrent, hnone]

lemma isActive_eq_false :
    m.isActive currentSlot slotHashes = false ↔
      m.status currentSlot slotHashes = .deactivated := by
  rw [isActive]
  split <;> rename_i h <;> simp [h]

end LookupTableMeta

/-- `AddressLookupError`, the variants of a lookup. -/
inductive AddressLookupError where
  | lookupTableAccountNotFound
  | invalidLookupIndex
  deriving DecidableEq

/-- `AddressLookupTable`: the metadata and the addresses behind it. -/
structure AddressLookupTable where
  metadata : LookupTableMeta
  addresses : List Pubkey
  deriving DecidableEq

namespace AddressLookupTable

variable (t : AddressLookupTable) (currentSlot : Slot)

/-- `AddressLookupTable::get_active_addresses_len`. -/
def getActiveAddressesLen (slotHashes : SlotHashes) : Outcome AddressLookupError ℕ := do
  failIf (!t.metadata.isActive currentSlot slotHashes) .lookupTableAccountNotFound
  if currentSlot > t.metadata.lastExtendedSlot then return t.addresses.length
  else return t.metadata.lastExtendedSlotStartIndex

/-- `AddressLookupTable::lookup`. -/
def lookup (indexes : List UInt8) (slotHashes : SlotHashes) :
    Outcome AddressLookupError (List Pubkey) := do
  let activeAddressesLen ← t.getActiveAddressesLen currentSlot slotHashes
  let activeAddresses ← ofOption (t.addresses.slice? 0 activeAddressesLen)
  okOr .invalidLookupIndex (indexes.mapM fun idx ↦ activeAddresses[idx.toNat]?)

end AddressLookupTable

end Renec
