import Renec.Bank.StatusCache
import Renec.Machine.Outcome

/-!
# Snapshots of the status cache

A snapshot of the status cache is the list of the deltas of its roots (`slot_deltas`), and the cache
is built again by replaying them (`from_slot_deltas`).

`Coherent` ties the maps together along every run.
-/

namespace Renec

open List
open Option hiding guard mem_map mem_map_of_mem mem_toFinset min_eq_left or_assoc

/-- `SlotDelta<T>`; the statuses are in the order in which the hash map lists them. -/
structure SlotDelta (τ : Type) where
  slot : ℕ
  isRoot : Bool
  statuses : List (Hash × ℕ × List (KeySlice × τ))

variable {τ : Type}

namespace SlotDelta

/-- A slice is listed under a blockhash. -/
def Lists (d : SlotDelta τ) (h : Hash) (slice : KeySlice) : Prop :=
  ∃ status, (h, status) ∈ d.statuses ∧ ∃ res, (slice, res) ∈ status.2

/-- Two listings of one delta. -/
def Same (d d' : SlotDelta τ) : Prop :=
  d'.slot = d.slot ∧ d'.isRoot = d.isRoot ∧ d'.statuses.Perm d.statuses

end SlotDelta

namespace StatusCache

/-- `slot_deltas`: the statuses of the given slots. -/
def slotDeltasOf (c : StatusCache τ) (slots : List ℕ) : List (SlotDelta τ) := slots.map fun slot ↦
    ⟨slot, decide (slot ∈ c.roots), ((c.slotDeltas.get? slot).getD .empty).entries⟩

/-- Replay the statuses of a slot under one blockhash. -/
def appendStatuses (slot : ℕ) (c : StatusCache τ) (statuses : Hash × ℕ × List (KeySlice × τ)) :
    StatusCache τ :=
  statuses.2.2.foldl
    (fun c status ↦ c.insertWithSlice statuses.1 slot statuses.2.1 status.1 status.2) c

def appendDelta (c : StatusCache τ) (d : SlotDelta τ) : StatusCache τ :=
  let c := d.statuses.foldl (appendStatuses d.slot) c
  if d.isRoot then c.addRoot d.slot else c

def append (c : StatusCache τ) (deltas : List (SlotDelta τ)) : StatusCache τ :=
  deltas.foldl appendDelta c

def fromSlotDeltas (deltas : List (SlotDelta τ)) : StatusCache τ := new.append deltas

/-! ### Coherence -/

/-- **Coherence** of the two maps of a cache, where `ℓ` is the length of a shortest key under each
blockhash. -/
structure Coherent (ℓ : Hash → ℕ) (c : StatusCache τ) : Prop where
  roots_nonempty : c.roots.Nonempty
  card_roots : c.roots.card ≤ maxCacheEntries
  /-- The root 0 goes only when there are enough others. -/
  zero_mem : 0 ∈ c.roots ∨ c.roots.card = maxCacheEntries
  stored_of_recorded : ∀ h slice slot, c.Recorded h slice slot → c.Stored h slice slot
  /-- What is stored without a record is older than every root. -/
  recorded_of_stored : ∀ h slice slot, c.Stored h slice slot →
    c.Recorded h slice slot ∨ ∀ r ∈ c.roots, slot < r
  upToTop : c.UpToTop
  offset_of_delta : ∀ slot h i, c.deltaOffset slot h = some i → c.offset h = some i
  recorded_of_delta : ∀ slot h i, c.deltaOffset slot h = some i → ∃ slice, c.Recorded h slice slot
  /-- Every key under the blockhash is long enough for its offset. -/
  offset_le : ∀ h i, c.offset h = some i → cachedKeySize ≤ ℓ h ∧ i ≤ ℓ h - (cachedKeySize + 1)

variable {ℓ : Hash → ℕ} {c c' : StatusCache τ} {h h' : Hash} {key : List UInt8}
  {slice slice' : KeySlice} {slot slot' draw i : ℕ} {res : τ}

lemma Stored.exists_offset (hstored : c.Stored h slice slot) : ∃ i, c.offset h = some i :=
  exists_top_iff.mp hstored.exists_top

lemma coherent_new : Coherent ℓ (new : StatusCache τ) where
  roots_nonempty := Finset.singleton_nonempty 0
  card_roots := (by decide : ({0} : Finset ℕ).card ≤ maxCacheEntries)
  zero_mem := .inl (Finset.mem_singleton_self 0)
  stored_of_recorded := by rintro _ _ _ ⟨_, hnone, -⟩; cases hnone
  recorded_of_stored := by rintro _ _ _ ⟨_, hnone, -⟩; cases hnone
  upToTop := by rintro _ _ _ ⟨_, hnone, -⟩; cases hnone
  offset_of_delta := by intro _ _ _ hnone; cases hnone
  recorded_of_delta := by intro _ _ _ hnone; cases hnone
  offset_le := by intro _ _ hnone; cases hnone

lemma Coherent.freshOffset_le (hc : c.Coherent ℓ) (draw : ℕ) (hlen : ℓ h ≤ key.length)
    (hfirst : c.offset h = none → key.length = ℓ h) :
    c.freshOffset h key draw ≤ ℓ h - (cachedKeySize + 1) ∧
      c.freshOffset h key draw ≤ maxKeyIndex key := by
  rw [freshOffset, maxKeyIndex]
  cases hoffset : c.offset h with
  | none =>
    have hmod : draw % (key.length - (cachedKeySize + 1) + 1) <
        key.length - (cachedKeySize + 1) + 1 := Nat.mod_lt _ (Nat.succ_pos _)
    have hkey := hfirst hoffset
    rw [getD_none]
    omega
  | some i =>
    have hi := (hc.offset_le h i hoffset).2
    rw [getD_some]
    omega

lemma Coherent.insert (hc : c.Coherent ℓ) (hlen : ℓ h ≤ key.length)
    (hfirst : c.offset h = none → key.length = ℓ h)
    (hrun : c.insert h key slot res draw = some c') : c'.Coherent ℓ := by
  obtain ⟨slice, hslice, hins⟩ := inserted_of_insert hrun
  obtain ⟨hle, hlekey⟩ := hc.freshOffset_le draw hlen hfirst
  rw [min_eq_left hlekey] at hslice hins
  have hoffset : c'.offset h = some (c.freshOffset h key draw) := by
    rw [hins.offset, if_pos rfl, getD_freshOffset]
  refine ⟨?_, ?_, ?_, ?_, ?_, ?_, ?_, ?_, ?_⟩
  · exact hins.roots ▸ hc.roots_nonempty
  · exact hins.roots ▸ hc.card_roots
  · exact hins.roots ▸ hc.zero_mem
  · intro h' slice' slot' hrec
    rw [hins.recorded] at hrec
    exact (hins.stored _ _ _).mpr (hrec.imp_right (hc.stored_of_recorded _ _ _))
  · intro h' slice' slot' hstored
    rw [hins.recorded, hins.roots, or_assoc]
    exact ((hins.stored _ _ _).mp hstored).imp_right (hc.recorded_of_stored _ _ _)
  · exact hc.upToTop.inserted hins
  · intro slot' h' i hdelta
    rw [hins.deltaOffset] at hdelta
    split_ifs at hdelta with hsame
    · rw [hsame.2, hoffset, ← hdelta]
      cases hold : c.deltaOffset slot h with
      | none => rfl
      | some i =>
        rw [freshOffset, hc.offset_of_delta slot h i hold]
        rfl
    have hi := hc.offset_of_delta slot' h' i hdelta
    by_cases hh : h' = h
    · rw [hh, hoffset, ← hi, hh]
      rw [hh] at hi
      rw [freshOffset, hi, getD_some]
    · rw [hins.offset, if_neg hh, hi]
  · intro slot' h' i hdelta
    rw [hins.deltaOffset] at hdelta
    split_ifs at hdelta with hsame
    · exact ⟨slice, (hins.recorded _ _ _).mpr (.inl ⟨hsame.2, rfl, hsame.1⟩)⟩
    obtain ⟨slice', hrec⟩ := hc.recorded_of_delta slot' h' i hdelta
    exact ⟨slice', (hins.recorded _ _ _).mpr (.inr hrec)⟩
  intro h' i hi
  by_cases hh : h' = h
  · subst hh
    obtain rfl : c.freshOffset h' key draw = i := some.inj (hoffset.symm.trans hi)
    refine ⟨?_, hle⟩
    cases hold : c.offset h' with
    | none =>
      have hkey := (ite_none_right_eq_some.mp hslice).1
      rw [← hfirst hold]
      omega
    | some j => exact (hc.offset_le h' j hold).1
  rw [hins.offset, if_neg hh] at hi
  exact hc.offset_le h' i hi

variable {fork : ℕ}

section

variable (hc : c.Coherent ℓ)

include hc

lemma Coherent.lt_next (hfork : ∀ r ∈ c.roots, r ≤ fork) (hslot : ∀ r ∈ c.roots, slot < r) :
    ∀ r ∈ Insert.insert fork c.roots, slot < r := by
  intro r hr
  rcases Finset.mem_insert.mp hr with rfl | hr
  · obtain ⟨r₀, hr₀⟩ := hc.roots_nonempty
    exact (hslot r₀ hr₀).trans_le (hfork r₀ hr₀)
  · exact hslot r hr

lemma Coherent.addRoot (hfork : ∀ r ∈ c.roots, r ≤ fork) : (c.addRoot fork).Coherent ℓ := by
  rcases c.addRoot_cases fork with ⟨hcard, heq⟩ | ⟨min, hpurge⟩
  · rw [heq]
    refine ⟨Finset.insert_nonempty _ _, hcard, ?_, hc.stored_of_recorded, ?_, hc.upToTop,
      hc.offset_of_delta, hc.recorded_of_delta, hc.offset_le⟩
    · refine hc.zero_mem.imp (Finset.mem_insert_of_mem) fun hfull ↦ le_antisymm hcard ?_
      exact hfull ▸ Finset.card_le_card (Finset.subset_insert fork c.roots)
    intro h slice slot hstored
    exact (hc.recorded_of_stored h slice slot hstored).imp_right (hc.lt_next hfork)
  have hcard : (c.addRoot fork).roots.card = maxCacheEntries := by
    have hle := Finset.card_insert_le fork c.roots
    have hold := hc.card_roots
    have hfull := hpurge.full
    rw [hpurge.roots, Finset.card_erase_of_mem hpurge.mem]
    omega
  -- a slot that stays recorded is after the purged root, and so is its blockhash
  have hstays : ∀ h slice slot, c.Stored h slice slot → min < slot →
      ∃ t, c.top h = some t ∧ min < t := by
    intro h slice slot hstored hmin
    obtain ⟨t, ht, hle⟩ := hc.upToTop h slice slot hstored
    exact ⟨t, ht, hmin.trans_le hle⟩
  refine ⟨?_, hcard.le, .inr hcard, ?_, ?_, ?_, ?_, ?_, ?_⟩
  · exact Finset.card_pos.mp (hcard ▸ by decide)
  · intro h slice slot hrec
    obtain ⟨hrec, hmin⟩ := (hpurge.recorded _ _ _).mp hrec
    have hstored := hc.stored_of_recorded _ _ _ hrec
    exact (hpurge.stored _ _ _).mpr ⟨hstored, hstays _ _ _ hstored hmin⟩
  · intro h slice slot hstored
    rw [hpurge.recorded, hpurge.roots]
    have hstored := ((hpurge.stored _ _ _).mp hstored).1
    rcases hc.recorded_of_stored _ _ _ hstored with hrec | hold
    · refine (Nat.lt_or_ge min slot).imp (fun hmin ↦ ⟨hrec, hmin⟩) fun hmin r hr ↦ ?_
      obtain ⟨hne, hr⟩ := Finset.mem_erase.mp hr
      exact hmin.trans_lt (lt_of_le_of_ne (hpurge.least r hr) hne.symm)
    · exact .inr fun r hr ↦ hc.lt_next hfork hold r (Finset.mem_of_mem_erase hr)
  · exact hc.upToTop.purged hpurge
  · intro slot h i hdelta
    obtain ⟨hdelta, hmin⟩ := (hpurge.deltaOffset slot h i).mp hdelta
    obtain ⟨slice, hrec⟩ := hc.recorded_of_delta slot h i hdelta
    exact (hpurge.offset h i).mpr ⟨hc.offset_of_delta slot h i hdelta,
      hstays _ _ _ (hc.stored_of_recorded _ _ _ hrec) hmin⟩
  · intro slot h i hdelta
    obtain ⟨hdelta, hmin⟩ := (hpurge.deltaOffset slot h i).mp hdelta
    obtain ⟨slice, hrec⟩ := hc.recorded_of_delta slot h i hdelta
    exact ⟨slice, (hpurge.recorded _ _ _).mpr ⟨hrec, hmin⟩⟩
  intro h i hi
  exact hc.offset_le h i ((hpurge.offset h i).mp hi).1

lemma Coherent.clear (hrun : c.clearSlotEntries slot = some c') : c'.Coherent ℓ := by
  have hclear := cleared_of_clearSlotEntries hrun
  have hstays : ∀ h slice slot', c'.Recorded h slice slot' → c'.Stored h slice slot' := by
    intro h slice slot' hrec
    obtain ⟨hrec, hne⟩ := (hclear.recorded _ _ _).mp hrec
    exact (hclear.stored _ _ _).mpr ⟨hc.stored_of_recorded _ _ _ hrec, fun hsame ↦ hne hsame.1⟩
  have hlists : ∀ slot' h i, c'.deltaOffset slot' h = some i →
      ∃ slice, c'.Recorded h slice slot' := by
    intro slot' h i hdelta
    obtain ⟨hdelta, hne⟩ := (hclear.deltaOffset slot' h i).mp hdelta
    obtain ⟨slice, hrec⟩ := hc.recorded_of_delta slot' h i hdelta
    exact ⟨slice, (hclear.recorded _ _ _).mpr ⟨hrec, hne⟩⟩
  refine ⟨hclear.roots ▸ hc.roots_nonempty, hclear.roots ▸ hc.card_roots,
    hclear.roots ▸ hc.zero_mem, hstays, ?_, ?_, ?_, hlists, ?_⟩
  · intro h slice slot' hstored
    obtain ⟨hstored, hleft⟩ := (hclear.stored _ _ _).mp hstored
    rw [hclear.recorded, hclear.roots]
    refine (hc.recorded_of_stored _ _ _ hstored).imp_left fun hrec ↦ ⟨hrec, ?_⟩
    rintro rfl
    exact hleft ⟨rfl, hrec⟩
  · intro h slice slot' hstored
    obtain ⟨t, ht⟩ := hstored.exists_top
    obtain ⟨t', ht', hle⟩ := hc.upToTop _ _ _ ((hclear.stored _ _ _).mp hstored).1
    obtain rfl : t = t' := some.inj ((hclear.top h t ht).symm.trans ht')
    exact ⟨t, ht, hle⟩
  · intro slot' h i hdelta
    obtain ⟨slice, hrec⟩ := hlists slot' h i hdelta
    obtain ⟨j, hj⟩ := (hstays _ _ _ hrec).exists_offset
    have hi := hc.offset_of_delta slot' h i ((hclear.deltaOffset slot' h i).mp hdelta).1
    rw [hj, ← hi, hclear.offset h j hj]
  intro h i hi
  exact hc.offset_le h i (hclear.offset h i hi)

end

/-! ### Replay -/

/-- **The replay of a snapshot**, as far as `listed` has been replayed: exactly this is stored, at
the offsets of the original `c`. -/
structure Rebuilding (c : StatusCache τ) (listed : Hash → KeySlice → ℕ → Prop)
    (c' : StatusCache τ) : Prop where
  stored : ∀ h slice slot, c'.Stored h slice slot ↔ listed h slice slot
  offset : ∀ h i, c'.offset h = some i → c.offset h = some i
  upToTop : c'.UpToTop

variable {statuses : Hash × ℕ × List (KeySlice × τ)} {deltas : List (SlotDelta τ)} {d : SlotDelta τ}

section

variable {listed : Hash → KeySlice → ℕ → Prop}

section

variable (hc : Rebuilding c listed c')

include hc

lemma Rebuilding.insertWithSlice (hi : c.offset h = some i) :
    Rebuilding c (fun h' slice' slot' ↦ (h' = h ∧ slice' = slice ∧ slot' = slot) ∨
      listed h' slice' slot') (c'.insertWithSlice h slot i slice res) := by
  have hins := c'.inserted_insertWithSlice h slice slot i res
  refine ⟨fun h' slice' slot' ↦ ?_, fun h' j hj ↦ ?_, hc.upToTop.inserted hins⟩
  · rw [hins.stored, hc.stored]
  rw [hins.offset] at hj
  split_ifs at hj with hh
  · rw [hh, hi, ← hj]
    cases hold : c'.offset h with
    | none => rfl
    | some k => rw [getD_some, ← hi, hc.offset h k hold]
  · exact hc.offset h' j hj

lemma Rebuilding.congr {listed' : Hash → KeySlice → ℕ → Prop}
    (h : ∀ h slice slot, listed h slice slot ↔ listed' h slice slot) : Rebuilding c listed' c' :=
  ⟨fun _ _ _ ↦ (hc.stored _ _ _).trans (h _ _ _), hc.offset, hc.upToTop⟩

lemma Rebuilding.appendStatuses (hi : c.offset statuses.1 = some statuses.2.1) :
    Rebuilding c (fun h' slice' slot' ↦ listed h' slice' slot' ∨
      slot' = slot ∧ h' = statuses.1 ∧ ∃ res, (slice', res) ∈ statuses.2.2)
      (appendStatuses slot c' statuses) := by
  obtain ⟨h, i, list⟩ := statuses
  replace hi : c.offset h = some i := hi
  rw [StatusCache.appendStatuses]
  simp only
  induction list generalizing c' listed with
  | nil => exact hc.congr fun _ _ _ ↦ by simp
  | cons status list ih =>
    obtain ⟨slice, res⟩ := status
    refine (ih (hc.insertWithSlice hi)).congr fun h' slice' slot' ↦ ?_
    simp only [mem_cons, Prod.mk.injEq, exists_or, exists_and_left, exists_eq, and_true]
    tauto

end

variable {slots : Finset ℕ} {list : List (Hash × ℕ × List (KeySlice × τ))}

lemma Rebuilding.foldl_appendStatuses (hc : Rebuilding c listed c') (slot : ℕ)
    (hi : ∀ statuses ∈ list, c.offset statuses.1 = some statuses.2.1) :
    Rebuilding c (fun h' slice' slot' ↦ listed h' slice' slot' ∨
      slot' = slot ∧ ∃ status, (h', status) ∈ list ∧ ∃ res, (slice', res) ∈ status.2)
      (list.foldl (StatusCache.appendStatuses slot) c') := by
  induction list generalizing c' listed with
  | nil => exact hc.congr fun _ _ _ ↦ by simp
  | cons statuses list ih =>
    obtain ⟨hhead, htail⟩ := forall_mem_cons.mp hi
    refine (ih (hc.appendStatuses hhead) htail).congr fun h' slice' slot' ↦ ?_
    obtain ⟨h, status⟩ := statuses
    simp only [mem_cons, Prod.mk.injEq, or_and_right, exists_or, and_assoc, exists_eq_left,
      exists_and_left]
    rw [and_or_left, or_assoc]

lemma roots_foldl_appendStatuses : (list.foldl (appendStatuses slot) c').roots = c'.roots := by
  induction list generalizing c' with
  | nil => rfl
  | cons statuses list ih =>
    rw [foldl_cons, ih, appendStatuses]
    induction statuses.2.2 generalizing c' with
    | nil => rfl
    | cons status rest ih' => exact ih'

lemma Rebuilding.addRoot (hc : Rebuilding c listed c') (h0 : 0 ∈ c'.roots)
    (hpos : maxCacheEntries < (Insert.insert fork c'.roots).card →
      ∀ h slice slot, listed h slice slot → 0 < slot) : Rebuilding c listed (c'.addRoot fork) := by
  rcases c'.addRoot_cases fork with ⟨-, heq⟩ | ⟨min, hpurge⟩
  · rw [heq]
    exact ⟨hc.stored, hc.offset, hc.upToTop⟩
  obtain rfl : min = 0 := Nat.le_zero.mp (hpurge.least 0 (Finset.mem_insert_of_mem h0))
  refine ⟨fun h slice slot ↦ ?_, fun h i hi ↦ ?_, hc.upToTop.purged hpurge⟩
  · rw [hpurge.stored, ← hc.stored]
    refine and_iff_left_of_imp fun hstored ↦ ?_
    obtain ⟨t, ht, hle⟩ := hc.upToTop _ _ _ hstored
    have hslot := hpos hpurge.full _ _ _ ((hc.stored _ _ _).mp hstored)
    exact ⟨t, ht, hslot.trans_le hle⟩
  · exact hc.offset h i ((hpurge.offset h i).mp hi).1

/-- The roots of a replay: those replayed and 0, which goes when there are 300 others. -/
def ReplayedRoots (slots roots : Finset ℕ) : Prop :=
  ((Insert.insert 0 slots).card ≤ maxCacheEntries → roots = Insert.insert 0 slots) ∧
    (maxCacheEntries < (Insert.insert 0 slots).card → roots = slots)

lemma ReplayedRoots.eq_insert {roots : Finset ℕ} (hroots : ReplayedRoots slots roots)
    (hslot : slot ∉ slots) (hcard : (Insert.insert slot slots).card ≤ maxCacheEntries) :
    roots = Insert.insert 0 slots := by
  refine hroots.1 ?_
  have hle := Finset.card_insert_le 0 slots
  rw [Finset.card_insert_of_notMem hslot] at hcard
  omega

lemma zero_notMem_of_card (hcard : slots.card ≤ maxCacheEntries)
    (hfull : maxCacheEntries < (Insert.insert 0 slots).card) : 0 ∉ slots := by
  intro h0
  rw [Finset.insert_eq_of_mem h0] at hfull
  omega

lemma ReplayedRoots.addRoot (hroots : ReplayedRoots slots c'.roots) (hslot : slot ∉ slots)
    (hcard : (Insert.insert slot slots).card ≤ maxCacheEntries) :
    ReplayedRoots (Insert.insert slot slots) (c'.addRoot slot).roots := by
  have hinsert : Insert.insert slot c'.roots = Insert.insert 0 (Insert.insert slot slots) := by
    rw [hroots.eq_insert hslot hcard, Finset.insert_comm]
  rcases c'.addRoot_cases slot with ⟨hle, heq⟩ | ⟨min, hpurge⟩
  · rw [hinsert] at hle
    rw [heq]
    exact ⟨fun _ ↦ hinsert, fun hlt ↦ absurd hle (Nat.not_le_of_lt hlt)⟩
  have hfull := hpurge.full
  rw [hinsert] at hfull
  refine ⟨fun hle ↦ absurd hfull (Nat.not_lt_of_le hle), fun _ ↦ ?_⟩
  obtain rfl : min = 0 := by
    refine Nat.le_zero.mp (hpurge.least 0 ?_)
    rw [hinsert]
    exact Finset.mem_insert_self _ _
  rw [hpurge.roots, hinsert]
  exact Finset.erase_insert (zero_notMem_of_card hcard hfull)

lemma mem_insert_of_listed (hlisted : ∀ h slice slot, listed h slice slot → slot ∈ slots)
    (h : Hash) (slice : KeySlice) (slot : ℕ)
    (hl : listed h slice slot ∨ slot = d.slot ∧ d.Lists h slice) :
    slot ∈ Insert.insert d.slot slots := by
  rcases hl with hl | ⟨rfl, -⟩
  · exact Finset.mem_insert_of_mem (hlisted h slice slot hl)
  · exact Finset.mem_insert_self _ _

section

variable (hc : Rebuilding c listed c') (hroots : ReplayedRoots slots c'.roots)
  (hlisted : ∀ h slice slot, listed h slice slot → slot ∈ slots)

include hc hroots hlisted

lemma Rebuilding.appendDelta (hroot : d.isRoot = true)
    (hi : ∀ statuses ∈ d.statuses, c.offset statuses.1 = some statuses.2.1) (hslot : d.slot ∉ slots)
    (hcard : (Insert.insert d.slot slots).card ≤ maxCacheEntries) :
    Rebuilding c (fun h slice slot ↦ listed h slice slot ∨ slot = d.slot ∧ d.Lists h slice)
      (c'.appendDelta d) ∧
    ReplayedRoots (Insert.insert d.slot slots) (c'.appendDelta d).roots := by
  have hstatuses := hc.foldl_appendStatuses d.slot hi
  have hsame : ReplayedRoots slots
      (d.statuses.foldl (StatusCache.appendStatuses d.slot) c').roots := by
    rw [roots_foldl_appendStatuses]
    exact hroots
  rw [StatusCache.appendDelta, if_pos hroot]
  refine ⟨hstatuses.addRoot ?_ fun hfull h slice slot hl ↦ ?_, hsame.addRoot hslot hcard⟩
  · rw [hsame.eq_insert hslot hcard]
    exact Finset.mem_insert_self _ _
  rw [hsame.eq_insert hslot hcard, Finset.insert_comm] at hfull
  refine Nat.pos_of_ne_zero fun h0 ↦ zero_notMem_of_card hcard hfull ?_
  exact h0 ▸ mem_insert_of_listed hlisted h slice slot hl

/-- The replay of deltas of at most 300 different roots, whose offsets are those of `c`. -/
theorem Rebuilding.append
    (hdeltas : ∀ d ∈ deltas, d.isRoot = true ∧
      ∀ statuses ∈ d.statuses, c.offset statuses.1 = some statuses.2.1)
    (hnodup : (deltas.map SlotDelta.slot).Nodup) (hnew : ∀ d ∈ deltas, d.slot ∉ slots)
    (hcard : (slots ∪ (deltas.map SlotDelta.slot).toFinset).card ≤ maxCacheEntries) :
    Rebuilding c (fun h slice slot ↦ listed h slice slot ∨
      ∃ d ∈ deltas, slot = d.slot ∧ d.Lists h slice) (c'.append deltas) ∧
    ReplayedRoots (slots ∪ (deltas.map SlotDelta.slot).toFinset) (c'.append deltas).roots := by
  induction deltas generalizing c' listed slots with
  | nil =>
    refine ⟨hc.congr fun _ _ _ ↦ by simp, ?_⟩
    rw [map_nil, toFinset_nil, Finset.union_empty]
    exact hroots
  | cons d deltas ih =>
    obtain ⟨⟨hroot, hi⟩, hdeltas⟩ := forall_mem_cons.mp hdeltas
    obtain ⟨hd, hnew⟩ := forall_mem_cons.mp hnew
    rw [map_cons, nodup_cons] at hnodup
    have hunion : slots ∪ ((d :: deltas).map SlotDelta.slot).toFinset =
        Insert.insert d.slot slots ∪ (deltas.map SlotDelta.slot).toFinset := by
      rw [map_cons, toFinset_cons, Finset.union_insert, Finset.insert_union]
    rw [hunion] at hcard ⊢
    obtain ⟨hc, hroots⟩ := hc.appendDelta hroots hlisted hroot hi hd
      ((Finset.card_le_card Finset.subset_union_left).trans hcard)
    have hnew' : ∀ d' ∈ deltas, d'.slot ∉ Insert.insert d.slot slots := by
      intro d' hd' hmem
      rcases Finset.mem_insert.mp hmem with heq | hmem
      · exact hnodup.1 (heq ▸ mem_map_of_mem hd')
      · exact hnew d' hd' hmem
    obtain ⟨hc, hroots⟩ := ih hc hroots (mem_insert_of_listed hlisted) hdeltas hnodup.2 hnew' hcard
    refine ⟨hc.congr fun h slice slot ↦ ?_, hroots⟩
    rw [exists_mem_cons_iff, or_assoc]

end

end

/-! ### What a snapshot lists -/

/-- A snapshot of slots, as any iteration order of the hash maps lists it. -/
def IsSnapshot (c : StatusCache τ) (slots : List ℕ) (deltas : List (SlotDelta τ)) : Prop :=
  Forall₂ SlotDelta.Same (c.slotDeltasOf slots) deltas

section

variable {slots : List ℕ}

section

variable (hsnap : c.IsSnapshot slots deltas)

include hsnap

lemma IsSnapshot.map_slot : deltas.map SlotDelta.slot = slots := by
  induction slots generalizing deltas with
  | nil =>
    cases hsnap
    rfl
  | cons slot slots ih =>
    rw [IsSnapshot, slotDeltasOf, map_cons, forall₂_cons_left_iff] at hsnap
    obtain ⟨d, rest, hsame, hrest, rfl⟩ := hsnap
    rw [map_cons, ih hrest, hsame.1]

lemma IsSnapshot.same (hd : d ∈ deltas) :
    d.slot ∈ slots ∧ (d.isRoot = true ↔ d.slot ∈ c.roots) ∧ ∀ h status, (h, status) ∈ d.statuses ↔
      ((c.slotDeltas.get? d.slot).getD .empty).get? h = some status := by
  obtain ⟨i, hget⟩ := mem_iff_getElem?.mp hd
  obtain ⟨d₀, hd₀, hslot, hroot, hperm⟩ := exists_getElem?_of_forall₂ hsnap hget
  obtain ⟨slot, hslots, rfl⟩ := mem_map.mp (mem_of_getElem? hd₀)
  simp only at hslot hroot hperm
  rw [hslot, hroot]
  refine ⟨hslots, by simp, fun h status ↦ ?_⟩
  rw [hperm.mem_iff, SortedMap.get?_eq_some]

lemma IsSnapshot.lists (hd : d ∈ deltas) : d.Lists h slice ↔ c.Recorded h slice d.slot := by
  simp only [SlotDelta.Lists, (hsnap.same hd).2.2, Recorded]
  cases c.slotDeltas.get? d.slot with
  | none | some statuses => simp

lemma IsSnapshot.deltaOffset (hd : d ∈ deltas) (hmem : statuses ∈ d.statuses) :
    c.deltaOffset d.slot statuses.1 = some statuses.2.1 := by
  have hget := ((hsnap.same hd).2.2 statuses.1 statuses.2).mp hmem
  rw [StatusCache.deltaOffset]
  cases hold : c.slotDeltas.get? d.slot with
  | none =>
    rw [hold] at hget
    cases hget
  | some status =>
    rw [hold] at hget
    exact map_eq_some_iff.mpr ⟨_, hget, rfl⟩

end

/-- The cache of a snapshot: the roots of the original, and of their slots what is stored. -/
theorem Coherent.fromSlotDeltas (hc : c.Coherent ℓ) (hsnap : c.IsSnapshot slots deltas)
    (hslots : slots.Perm c.roots.toList) :
    (fromSlotDeltas deltas).roots = c.roots ∧
      Rebuilding c (fun h slice slot ↦ slot ∈ c.roots ∧ c.Stored h slice slot)
        (fromSlotDeltas deltas) := by
  have hroots : (deltas.map SlotDelta.slot).toFinset = c.roots := by
    ext slot
    rw [hsnap.map_slot, mem_toFinset, hslots.mem_iff, Finset.mem_toList]
  have hstart : Rebuilding c (fun _ _ _ ↦ False) (new : StatusCache τ) := by
    refine ⟨fun h slice slot ↦ ⟨?_, False.elim⟩, ?_, ?_⟩
    · rintro ⟨entry, hnone, -⟩
      cases hnone
    · intro h i hnone
      cases hnone
    rintro h slice slot ⟨entry, hnone, -⟩
    cases hnone
  have hdeltas : ∀ d ∈ deltas, d.isRoot = true ∧
      ∀ statuses ∈ d.statuses, c.offset statuses.1 = some statuses.2.1 := by
    intro d hd
    refine ⟨(hsnap.same hd).2.1.mpr ?_, fun statuses hmem ↦ ?_⟩
    · rw [← hroots]
      exact mem_toFinset.mpr (mem_map_of_mem hd)
    · exact hc.offset_of_delta d.slot _ _ (hsnap.deltaOffset hd hmem)
  have hnodup : (deltas.map SlotDelta.slot).Nodup := by
    rw [hsnap.map_slot]
    exact hslots.nodup_iff.mpr c.roots.nodup_toList
  have hzero : ReplayedRoots ∅ (new : StatusCache τ).roots :=
    ⟨fun _ ↦ rfl, fun hlt ↦ absurd hlt (by decide)⟩
  obtain ⟨hbuilt, hreplayed⟩ := hstart.append hzero (fun _ _ _ hf ↦ hf.elim) hdeltas hnodup
    (fun _ _ ↦ Finset.notMem_empty _) (by rw [Finset.empty_union, hroots]; exact hc.card_roots)
  rw [Finset.empty_union, hroots] at hreplayed
  refine ⟨?_, hbuilt.congr fun h slice slot ↦ ?_⟩
  · by_cases hle : (Insert.insert 0 c.roots).card ≤ maxCacheEntries
    · refine (hreplayed.1 hle).trans (Finset.insert_eq_of_mem ?_)
      by_contra h0
      have hfull := hc.zero_mem.resolve_left h0
      rw [Finset.card_insert_of_notMem h0] at hle
      omega
    · exact hreplayed.2 (Nat.lt_of_not_le hle)
  rw [false_or]
  constructor
  · rintro ⟨d, hd, rfl, hlists⟩
    refine ⟨?_, hc.stored_of_recorded _ _ _ ((hsnap.lists hd).mp hlists)⟩
    rw [← hroots]
    exact mem_toFinset.mpr (mem_map_of_mem hd)
  rintro ⟨hroot, hstored⟩
  -- a root is not before every root, so what is stored for it is recorded
  have hrec := (hc.recorded_of_stored _ _ _ hstored).resolve_right
    fun hlt ↦ (hlt slot hroot).false
  rw [← hroots] at hroot
  obtain ⟨d, hd, rfl⟩ := mem_map.mp (mem_toFinset.mp hroot)
  exact ⟨d, hd, rfl, (hsnap.lists hd).mpr hrec⟩

end

/-! ### Runs -/

/-- A status cache, with the blockhashes that keys have been inserted under. -/
structure World (τ : Type) where
  cache : StatusCache τ
  inserted : Finset Hash

/-- What is done to a status cache. -/
inductive Op (τ : Type) where
  | insert (blockhash : Hash) (key : List UInt8) (slot : ℕ) (res : τ) (draw : ℕ)
  | addRoot (slot : ℕ)
  | clearSlotEntries (slot : ℕ)

namespace World

def init : World τ := ⟨.new, ∅⟩

section

variable (first : World τ → Hash → Bool) (ℓ : Hash → ℕ) (w : World τ)

/-- One operation. No key under a blockhash is shorter than `ℓ`, and a key that is a `first` one has
that length; roots are added in increasing order, and only slots that are no roots are cleared. -/
def step : Op τ → Option (World τ)
  | .insert h key slot res draw => do
    guard (ℓ h ≤ key.length ∧ (first w h → key.length = ℓ h))
    let cache ← w.cache.insert h key slot res draw
    return ⟨cache, Insert.insert h w.inserted⟩
  | .addRoot slot => do
    guard (∀ r ∈ w.cache.roots, r ≤ slot)
    return { w with cache := w.cache.addRoot slot }
  | .clearSlotEntries slot => do
    guard (slot ∉ w.cache.roots)
    let cache ← w.cache.clearSlotEntries slot
    return { w with cache := cache }

/-- There is no entry for the blockhash, be it new or dropped. -/
def absent (h : Hash) : Bool := (w.cache.offset h).isNone

/-- No key has been inserted under the blockhash before. -/
def neverInserted (h : Hash) : Bool := decide (h ∉ w.inserted)

/-- The worlds that runs lead to. -/
def Reached : Prop := ∃ ops : List (Op τ), ops.foldlM (step first ℓ) init = some w

end

variable {w w' : World τ}

lemma coherent_step {op : Op τ} (hw : w.cache.Coherent ℓ)
    (hstep : step absent ℓ w op = some w') : w'.cache.Coherent ℓ := by
  cases op with
  | insert h key slot res draw =>
    simp only [step, absent, bind_eq_some, guard_eq_some', pure_eq_some,
      isNone_iff_eq_none, exists_const] at hstep
    obtain ⟨⟨hlen, hfirst⟩, cache, hrun, rfl⟩ := hstep
    exact hw.insert hlen hfirst hrun
  | addRoot slot =>
    simp only [step, bind_eq_some, guard_eq_some', pure_eq_some, exists_const] at hstep
    obtain ⟨hmono, rfl⟩ := hstep
    exact hw.addRoot hmono
  | clearSlotEntries slot =>
    simp only [step, bind_eq_some, guard_eq_some', pure_eq_some, exists_const] at hstep
    obtain ⟨-, cache, hrun, rfl⟩ := hstep
    exact hw.clear hrun

lemma coherent_of_reached (hw : Reached absent ℓ w) : w.cache.Coherent ℓ := by
  obtain ⟨ops, hops⟩ := hw
  exact foldlM_some_induction (P := fun w ↦ w.cache.Coherent ℓ)
    (fun _ _ _ _ hw hstep ↦ coherent_step hw hstep) hops coherent_new

/-- **The status cache survives a snapshot.** Every key that is inserted under a blockhash without
an entry is a shortest one, of length `ℓ`. Then the cache that is built from the deltas of all
roots, in any order, has the same roots, and finds the keys of that length or longer that the
original finds, when only roots count. -/
theorem snapshot_roundtrip {slots : List ℕ} {deltas : List (SlotDelta τ)}
    (hw : Reached absent ℓ w) (hslots : slots.Perm w.cache.roots.toList)
    (hsnap : w.cache.IsSnapshot slots deltas) :
    (fromSlotDeltas deltas).roots = w.cache.roots ∧ ∀ h key, ℓ h ≤ key.length → ∃ status status',
        w.cache.getStatus key h ∅ = some status ∧
        (fromSlotDeltas deltas).getStatus key h ∅ = some status' ∧
        (status'.isSome ↔ status.isSome) := by
  have hc := coherent_of_reached hw
  obtain ⟨hroots, hbuilt⟩ := hc.fromSlotDeltas hsnap hslots
  refine ⟨hroots, fun h key hlen ↦ ?_⟩
  cases hoffset : w.cache.offset h with
  | none =>
    have hnone : w.cache.cache.get? h = none := offset_eq_none.mp hoffset
    have hnone' : (fromSlotDeltas deltas).cache.get? h = none := by
      refine offset_eq_none.mp (eq_none_iff_forall_ne_some.mpr fun i hi ↦ ?_)
      rw [hbuilt.offset h i hi] at hoffset
      cases hoffset
    exact ⟨none, none, by rw [getStatus, hnone], by rw [getStatus, hnone'], Iff.rfl⟩
  | some i =>
    have hkey := (hc.offset_le h i hoffset).1.trans hlen
    obtain ⟨status, hstatus⟩ := w.cache.exists_getStatus (h := h) hkey ∅
    obtain ⟨status', hstatus'⟩ := (fromSlotDeltas deltas).exists_getStatus (h := h) hkey ∅
    refine ⟨status, status', hstatus, hstatus', ?_⟩
    rw [isSome_of_getStatus hstatus, isSome_of_getStatus hstatus', hroots]
    simp only [Finset.notMem_empty, false_or, hbuilt.stored]
    constructor
    · rintro ⟨j, slice, slot, hj, hslice, ⟨-, hstored⟩, hroot⟩
      exact ⟨j, slice, slot, hbuilt.offset h j hj, hslice, hstored, hroot⟩
    rintro ⟨j, slice, slot, hj, hslice, hstored, hroot⟩
    have hboth : (fromSlotDeltas deltas).Stored h slice slot :=
      (hbuilt.stored _ _ _).mpr ⟨hroot, hstored⟩
    obtain ⟨k, hk⟩ := hboth.exists_offset
    obtain rfl : j = k := some.inj (hj.symm.trans (hbuilt.offset h k hk))
    exact ⟨j, slice, slot, hk, hslice, ⟨hroot, hstored⟩, hroot⟩

def countingKey (n : ℕ) : List UInt8 := (range n).map UInt8.ofNat

/-- A cache with two keys under one blockhash, of two rooted slots. -/
theorem snapshot_roundtrip_two : ∃ w : World Unit,
    [.insert default (countingKey 32) 1 () 7, .insert default (countingKey 64) 2 () 0,
      .addRoot 1, .addRoot 2].foldlM (step absent fun _ ↦ 32) init = some w ∧
    (fromSlotDeltas (w.cache.slotDeltasOf [2, 0, 1])).roots = w.cache.roots ∧
    ∃ status status', w.cache.getStatus (countingKey 64) default ∅ = some status ∧
      (fromSlotDeltas (w.cache.slotDeltasOf [2, 0, 1])).getStatus (countingKey 64) default ∅ =
        some status' ∧ (status'.isSome ↔ status.isSome) := by
  have hrun : ((([.insert default (countingKey 32) 1 () 7, .insert default (countingKey 64) 2 () 0,
      .addRoot 1, .addRoot 2] : List (Op Unit)).foldlM (step absent fun _ ↦ 32) init).any
      fun w ↦ decide (w.cache.roots = {2, 0, 1})) = true := by decide +kernel
  obtain ⟨w, hw, hroots⟩ := (Option.any_eq_true _ _).mp hrun
  have hslots : [2, 0, 1].Perm w.cache.roots.toList := by
    rw [of_decide_eq_true hroots, ← Multiset.coe_eq_coe, Finset.coe_toList]
    rfl
  obtain ⟨hsame, hfound⟩ := snapshot_roundtrip ⟨_, hw⟩ hslots
    (forall₂_same.mpr fun d _ ↦ ⟨rfl, rfl, Perm.refl _⟩)
  exact ⟨w, hw, hsame, hfound default (countingKey 64) (by decide)⟩

/-- The first key under a blockhash is a shortest one, but its slot is cleared and the entry made
again by a longer key. The offset of that key is not one of the shorter keys, which have their own
in their deltas; built from these, the cache does not find the longer key. -/
theorem longer_key_lost : ∃ w : World Unit,
    Reached neverInserted (fun _ ↦ 32) w ∧ [6, 5, 0].Perm w.cache.roots.toList ∧
    w.cache.getStatus (countingKey 64) default ∅ = some (some (5, ())) ∧
    (fromSlotDeltas (w.cache.slotDeltasOf [6, 5, 0])).getStatus (countingKey 64) default ∅ =
      some none := by
  have hrun : ((([.insert default (replicate 32 0) 1 () 0, .clearSlotEntries 1,
      .insert default (countingKey 64) 5 () 43, .insert default (replicate 32 0) 6 () 0,
      .addRoot 5, .addRoot 6] : List (Op Unit)).foldlM (step neverInserted fun _ ↦ 32) init).any
      fun w ↦ decide (w.cache.roots = {6, 5, 0} ∧
        w.cache.getStatus (countingKey 64) default ∅ = some (some (5, ())) ∧
        (fromSlotDeltas (w.cache.slotDeltasOf [6, 5, 0])).getStatus (countingKey 64) default ∅ =
          some none)) = true := by decide +kernel
  obtain ⟨w, hw, hfacts⟩ := (Option.any_eq_true _ _).mp hrun
  obtain ⟨hroots, hfound, hlost⟩ := of_decide_eq_true hfacts
  refine ⟨w, ⟨_, hw⟩, ?_, hfound, hlost⟩
  rw [hroots, ← Multiset.coe_eq_coe, Finset.coe_toList]
  rfl

end World

end StatusCache

end Renec
