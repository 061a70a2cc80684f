import Renec.AccountsDb.Reclaim

/-!
# The references of dead slots

The storages of a dead slot take the references of their addresses with them, in batches whose
number is computed from the collector before the addresses are added to it. Every reference is
released exactly if the batches cover the addresses (`references_released_iff`), so an address in
the storages of 10001 dead slots keeps one (`reference_kept`).
-/

namespace Renec.AccountsDb

open List AccountsIndex Finmap

variable (stores : Slot → List AccountStorageEntry) (deadSlots : List Slot)
  (collector : List (Slot × Pubkey)) (order : HashOrder) (index : AccountsIndex)

/-- The addresses in the storages of some slots, each once a slot. -/
def storedPubkeys : List (Slot × Pubkey) :=
  (deadSlots.flatMap fun slot ↦ (stores slot).flatMap fun store ↦
    store.keys.map fun key ↦ (slot, key)).dedup

/-- `clean_stored_dead_slots`: the index, and the collector of the removed addresses. -/
def cleanStoredDeadSlots : AccountsIndex × List (Slot × Pubkey) :=
  let purged := order.pairs (storedPubkeys stores deadSlots)
  (deadSlots.foldl cleanDeadSlot (unrefBatches purged collector index), purged ++ collector)

/-- The slots whose storages have a copy of an account. -/
def slotsOf (key : Pubkey) : Set Slot := {slot | ∃ store ∈ stores slot, key ∈ store.keys}

variable {key : Pubkey} {slot : Slot}

lemma mem_storedPubkeys : (slot, key) ∈ storedPubkeys stores deadSlots ↔
    slot ∈ deadSlots ∧ slot ∈ slotsOf stores key := by
  simp [storedPubkeys, slotsOf]

lemma refCount_cleanStoredDeadSlots :
    (cleanStoredDeadSlots stores deadSlots collector order index).1.refCountFromStorage key =
      index.refCountFromStorage key - ((order.pairs (storedPubkeys stores deadSlots)).take
        (batched collector)).countP fun p ↦ decide (p.2 = key) := by
  rw [cleanStoredDeadSlots, foldl_cleanDeadSlot, unrefBatches_eq, refCountFromStorage,
    lookup_foldl_unref, Option.map_map, refCountFromStorage]
  cases index.accountMaps.lookup key with
  | none => exact (Nat.zero_sub _).symm
  | some entry => rfl

/-- **Every reference is released once**, exactly if the batches cover the addresses: the reference
counts are the numbers of slots again, and the collector has the addresses of the dead slots. Of the
addresses beyond the batches, the first one keeps a reference. -/
theorem references_released_iff
    (hrefs : ∀ key, index.refCountFromStorage key = (slotsOf stores key).ncard)
    (hfinite : ∀ key, (slotsOf stores key).Finite) :
    ((∀ key,
      (cleanStoredDeadSlots stores deadSlots collector order index).1.refCountFromStorage key =
        (slotsOf stores key \ {slot | slot ∈ deadSlots}).ncard) ∧
    ∀ slot key, (slot, key) ∈ (cleanStoredDeadSlots stores deadSlots collector order index).2 ↔
      (slot, key) ∈ collector ∨ slot ∈ deadSlots ∧ slot ∈ slotsOf stores key) ↔
      (storedPubkeys stores deadSlots).length ≤ batched collector := by
  have hperm := order.pairs_perm (storedPubkeys stores deadSlots)
  have hreleased : ∀ key,
      (cleanStoredDeadSlots stores deadSlots collector order index).1.refCountFromStorage key =
        (slotsOf stores key \ {slot | slot ∈ deadSlots}).ncard ↔
      ((order.pairs (storedPubkeys stores deadSlots)).take (batched collector)).countP
        (fun p ↦ decide (p.2 = key)) =
      (order.pairs (storedPubkeys stores deadSlots)).countP fun p ↦ decide (p.2 = key) := by
    intro key
    have hcount : (order.pairs (storedPubkeys stores deadSlots)).countP
        (fun p ↦ decide (p.2 = key)) = (slotsOf stores key ∩ {slot | slot ∈ deadSlots}).ncard := by
      refine countP_eq_ncard (hperm.nodup_iff.mpr (nodup_dedup _)) fun slot ↦ ?_
      rw [hperm.mem_iff, mem_storedPubkeys, and_comm]
      rfl
    have hsplit := Set.ncard_inter_add_ncard_sdiff_eq_ncard _
      {slot | slot ∈ deadSlots} (hfinite key)
    have htake := (take_sublist (batched collector) (order.pairs (storedPubkeys stores deadSlots))
      ).countP_le (p := fun p ↦ decide (p.2 = key))
    rw [refCount_cleanStoredDeadSlots, hrefs]
    omega
  rw [← hperm.length_eq]
  refine ⟨fun ⟨hcounts, _⟩ ↦ ?_, fun hcover ↦ ⟨fun key ↦ ?_, fun slot key ↦ ?_⟩⟩
  · by_contra! hlong
    generalize order.pairs (storedPubkeys stores deadSlots) = purged at *
    obtain ⟨p, rest, hdrop⟩ := exists_cons_of_length_pos
      (length_drop (i := batched collector) (l := purged) ▸ Nat.sub_pos_of_lt hlong)
    have htaken := (hreleased p.2).mp (hcounts _)
    have hall := congrArg (countP fun q ↦ decide (q.2 = p.2))
      (take_append_drop (batched collector) purged)
    rw [countP_append, hdrop, countP_cons_of_pos (by simp)] at hall
    omega
  · rw [hreleased, take_of_length_le hcover]
  · rw [cleanStoredDeadSlots, mem_append, hperm.mem_iff, mem_storedPubkeys, or_comm]

/-! ### One address -/

section

variable (n : ℕ) (key : Pubkey)

/-- Storages of the first slots, with one address. -/
def oneAddress (slot : Slot) : List AccountStorageEntry :=
  if slot < n then [⟨slot, [(⟨7⟩, ⟨1, [], ⟨0⟩, false, 0⟩)], 1⟩] else []

/-- An index with a reference for each of them. -/
def oneAddressIndex : AccountsIndex := ⟨insert ⟨7⟩ ⟨[], n⟩ ∅, ∅, 0, ∅⟩

lemma slotsOf_oneAddress :
    slotsOf (oneAddress n) key = if key = ⟨7⟩ then ↑(Finset.range n) else ∅ := by
  ext slot
  by_cases hslot : slot < n <;> by_cases hkey : key = ⟨7⟩ <;>
    simp [slotsOf, oneAddress, AccountStorageEntry.keys, hslot, hkey]

lemma refCount_oneAddressIndex :
    (oneAddressIndex n).refCountFromStorage key = (slotsOf (oneAddress n) key).ncard := by
  rw [slotsOf_oneAddress, refCountFromStorage, oneAddressIndex]
  split_ifs with hkey
  · rw [hkey, lookup_insert, Set.ncard_coe_finset, Finset.card_range]
    rfl
  rw [lookup_insert_of_ne _ hkey, lookup_empty, Set.ncard_empty]
  rfl

end

/-- Two of the three slots of an address die, and the reference of the third is left. -/
theorem references_released_iff_one : (cleanStoredDeadSlots (oneAddress 3) [0, 2] [] .asIs
    (oneAddressIndex 3)).1.refCountFromStorage ⟨7⟩ = 1 := by
  have hfinite : ∀ key, (slotsOf (oneAddress 3) key).Finite := fun key ↦ by
    rw [slotsOf_oneAddress]
    split_ifs
    · exact Finset.finite_toSet _
    · exact Set.finite_empty
  refine (((references_released_iff _ _ _ _ _ (refCount_oneAddressIndex 3) hfinite).mpr
    (by decide)).1 _).trans ?_
  rw [slotsOf_oneAddress, if_pos rfl, ← coe_toFinset, ← Finset.coe_sdiff, Set.ncard_coe_finset]
  rfl

/-- **A reference is kept** although no storage has the address any more. -/
theorem reference_kept : ∃ stores deadSlots index key,
    (∀ k, refCountFromStorage index k = (slotsOf stores k).ncard) ∧
    (cleanStoredDeadSlots stores deadSlots [] .asIs index).1.refCountFromStorage key = 1 ∧
      slotsOf stores key \ {slot | slot ∈ deadSlots} = ∅ := by
  refine ⟨oneAddress (batchSize + 1), range (batchSize + 1), oneAddressIndex (batchSize + 1),
    ⟨7⟩, refCount_oneAddressIndex _, ?_, ?_⟩
  · have hstored : storedPubkeys (oneAddress (batchSize + 1)) (range (batchSize + 1)) =
        (range (batchSize + 1)).map fun slot ↦ (slot, ⟨7⟩) := by
      have hnodup : ((range (batchSize + 1)).map fun slot ↦ (slot, Pubkey.mk 7)).Nodup :=
        nodup_range.map fun _ _ h ↦ (Prod.mk.inj h).1
      rw [← hnodup.dedup, storedPubkeys, map_eq_flatMap]
      refine congrArg dedup (flatMap_congr fun slot hslot ↦ ?_)
      simp [oneAddress, AccountStorageEntry.keys, mem_range.mp hslot]
    have hbatched : batched [] = batchSize := rfl
    rw [refCount_cleanStoredDeadSlots, refCount_oneAddressIndex, slotsOf_oneAddress, if_pos rfl,
      Set.ncard_coe_finset, HashOrder.asIs, hbatched]
    simp [hstored, ← map_take, countP_map, Function.comp_def]
  rw [slotsOf_oneAddress, if_pos rfl]
  ext slot
  simp

end Renec.AccountsDb
