import Renec.Machine.Outcome
import Renec.Sdk.Types

/-!
# Rolling bit fields

A set of slots that is kept in a ring of bits, for the keys between `min` and `max`, and in a hash
set for the keys below `min` (`runtime/src/accounts_index.rs`).
-/

namespace Renec.AccountsDb

open Finset

lemma isLeast_fold_min {s : Finset ℕ} {b : ℕ} (hs : s.Nonempty) (hb : ∀ k ∈ s, k ≤ b) :
    s.fold min b id ∈ s ∧ ∀ k ∈ s, s.fold min b id ≤ k := by
  have hle : ∀ k ∈ s, s.fold min b id ≤ k := fun k hk ↦
    fold_min_le _ |>.mpr (.inr ⟨k, hk, le_refl k⟩)
  have hmin := s.min'_mem hs
  have hge : s.min' hs ≤ s.fold min b id :=
    (le_fold_min _).mpr ⟨hb _ hmin, fun k hk ↦ s.min'_le k hk⟩
  exact ⟨le_antisymm hge (hle _ hmin) ▸ hmin, hle⟩

structure RollingBitField where
  maxWidth : ℕ
  min : ℕ
  /-- One more than the greatest key. -/
  max : ℕ
  bits : Finset ℕ
  count : ℕ
  /-- Keys lower than `min`. -/
  excess : Finset ℕ
  deriving DecidableEq

namespace RollingBitField

def new (maxWidth : ℕ) : Option RollingBitField :=
  if maxWidth > 0 ∧ 2 ^ maxWidth.log2 = maxWidth then some ⟨maxWidth, 0, 0, ∅, 0, ∅⟩ else none

variable (f : RollingBitField)

section

variable (key : ℕ)

/-- Find the array index. -/
def getAddress : ℕ := key % f.maxWidth

def allItemsInExcess : Bool := f.excess.card = f.count

def containsAssumeInRange : Bool := f.getAddress key ∈ f.bits

/-- After a removal of `key`, make `min` the correct new value. -/
def purge : RollingBitField :=
  if f.count > 0 ∧ f.allItemsInExcess = false then
    if key = f.min then
      match (List.range' (f.min + 1) (f.max - (f.min + 1))).find? f.containsAssumeInRange with
      | some key => { f with min := key }
      | none => f
    else f
  else { f with min := f.max }

/-- The loop that moves the least key of the ring to `excess` until a new maximum fits, and whether
it has emptied the ring. It runs as often as there are keys, at most. -/
def makeRoom (newMax : ℕ) : ℕ → RollingBitField → Option (RollingBitField × Bool)
  | 0, _ => none
  | fuel + 1, f =>
    if newMax - f.min ≤ f.maxWidth then some (f, false)
    else if f.min ∈ f.excess then none
    else
      let moved := { f with
        excess := insert f.min f.excess
        bits := f.bits.erase (f.getAddress f.min) }.purge f.min
      if moved.allItemsInExcess then some (moved, true) else makeRoom newMax fuel moved

/-- Set the bit of a key, if it is not set. -/
def updateBits (bitsEmpty : Bool) : Option RollingBitField :=
  if f.containsAssumeInRange key then some f
  else
    let f := { f with bits := insert (f.getAddress key) f.bits }
    if bitsEmpty then do
      return { f with min := key, max := ← checkedAdd 64 key 1, count := f.count + 1 }
    else do
      let min := Nat.min f.min key
      let max := Nat.max f.max (← checkedAdd 64 key 1)
      let limit ← checkedAdd 64 min f.maxWidth
      if limit ≥ max then return { f with min := min, max := max, count := f.count + 1 } else none

def insert : Option RollingBitField :=
  if f.count = 0 ∨ f.allItemsInExcess then f.updateBits key true
  else if key < f.min then
    if key ∈ f.excess then some f
    else some { f with excess := Insert.insert key f.excess, count := f.count + 1 }
  else if key < f.max then f.updateBits key false
  else do
    let (f, bitsEmpty) ← makeRoom (← checkedAdd 64 key 1) (f.count + 1) f
    f.updateBits key bitsEmpty

def remove : Option (RollingBitField × Bool) :=
  if key ≥ f.min then
    if key < f.max then
      if f.containsAssumeInRange key then
        (checkedSub f.count 1).map fun count ↦
          ({ f with count := count, bits := f.bits.erase (f.getAddress key) }.purge key, true)
      else some (f, false)
    else some (f, false)
  else if key ∈ f.excess then
    (checkedSub f.count 1).map fun count ↦
      ({ f with count := count, excess := f.excess.erase key }, true)
  else some (f, false)

def contains : Bool :=
  if key < f.max then
    if key ≥ f.min then f.containsAssumeInRange key else key ∈ f.excess
  else false

end

def len : ℕ := f.count

def isEmpty : Bool := f.len = 0

def clear : Option RollingBitField := new f.maxWidth

/-- The method `min`. -/
def min? : Option ℕ :=
  if f.isEmpty then none
  else if f.excess = ∅ then some f.min
  else some (f.excess.fold Nat.min (if f.allItemsInExcess then u64Max else f.min) id)

def getAll : List ℕ :=
  f.excess.sort (· ≤ ·) ++ (List.range' f.min (f.max - f.min)).filter f.containsAssumeInRange

/-! ### The keys in the ring -/

/-- The bits stand for these keys. -/
structure Window (f : RollingBitField) (ring : Finset ℕ) : Prop where
  bounds : ∀ k ∈ ring, f.min ≤ k ∧ k < f.max
  width : f.max ≤ f.min + f.maxWidth
  bits : ∀ a, a ∈ f.bits ↔ ∃ k ∈ ring, f.getAddress k = a
  count : f.count = f.excess.card + ring.card

/-- **The keys in the ring.** The least key in the ring is `min`, and the other keys are below. -/
structure Ring (f : RollingBitField) (ring : Finset ℕ) : Prop extends Window f ring where
  least : ring.Nonempty → f.min ∈ ring
  empty : ring = ∅ → f.min = f.max
  excess : ∀ k ∈ f.excess, k < f.min
  /-- The assertion of an insertion does not overflow. -/
  fits : ∀ k ∈ ring, k + f.maxWidth ≤ u64Max
  fitsExcess : ∀ k ∈ f.excess, k + f.maxWidth ≤ u64Max

variable {f : RollingBitField} {ring : Finset ℕ} {key : ℕ}

lemma injOn_getAddress : Set.InjOn f.getAddress (Ico f.min (f.min + f.maxWidth)) :=
  Nat.mod_injOn_Ico _ _

lemma Window.mem_window (h : Window f ring) (hkey : key ∈ ring) :
    key ∈ Ico f.min (f.min + f.maxWidth) :=
  mem_Ico.mpr ⟨(h.bounds key hkey).1, (h.bounds key hkey).2.trans_le h.width⟩

lemma Window.containsAssumeInRange_iff (h : Window f ring) (hmin : f.min ≤ key)
    (hmax : key < f.min + f.maxWidth) : f.containsAssumeInRange key = true ↔ key ∈ ring := by
  rw [containsAssumeInRange, decide_eq_true_eq, h.bits]
  constructor
  · rintro ⟨k, hk, haddress⟩
    rwa [← injOn_getAddress (h.mem_window hk) (mem_Ico.mpr ⟨hmin, hmax⟩) haddress]
  · exact fun hk ↦ ⟨key, hk, rfl⟩

lemma Window.allItemsInExcess_iff (h : Window f ring) : f.allItemsInExcess = true ↔ ring = ∅ := by
  rw [allItemsInExcess, decide_eq_true_eq, h.count, ← card_eq_zero]
  omega

lemma Window.mem_erase_bits (h : Window f ring) (hkey : key ∈ ring) (a : ℕ) :
    a ∈ f.bits.erase (f.getAddress key) ↔ ∃ k ∈ ring.erase key, f.getAddress k = a := by
  rw [mem_erase, h.bits]
  constructor
  · rintro ⟨hne, k, hk, rfl⟩
    exact ⟨k, mem_erase.mpr ⟨fun heq ↦ hne (heq ▸ rfl), hk⟩, rfl⟩
  rintro ⟨k, hk, rfl⟩
  obtain ⟨hne, hk⟩ := mem_erase.mp hk
  exact ⟨fun heq ↦ hne (injOn_getAddress (h.mem_window hk) (h.mem_window hkey) heq), k, hk, rfl⟩

lemma Window.mem_insert_bits (h : Window f ring) (key a : ℕ) :
    a ∈ Insert.insert (f.getAddress key) f.bits ↔
      ∃ k ∈ Insert.insert key ring, f.getAddress k = a := by
  rw [mem_insert, h.bits, exists_mem_insert, eq_comm]

lemma Window.purge_min (h : Window f ring) (hmin : f.min ∉ ring) (hlt : f.min < f.max)
    (hexcess : ∀ k ∈ f.excess, k ≤ f.min) (hfits : ∀ k ∈ ring, k + f.maxWidth ≤ u64Max)
    (hfits' : ∀ k ∈ f.excess, k + f.maxWidth ≤ u64Max) :
    ∃ m > f.min, f.purge f.min = { f with min := m } ∧ Ring { f with min := m } ring := by
  have hwidth := h.width
  rw [purge, if_pos rfl]
  rcases eq_empty_or_nonempty ring with hring | hring
  · rw [if_neg fun hcount ↦ by rw [h.allItemsInExcess_iff.mpr hring] at hcount; cases hcount.2]
    refine ⟨f.max, hlt, rfl, ⟨⟨?_, Nat.le_add_right _ _, h.bits, h.count⟩, ?_,
      fun _ ↦ rfl, ?_, hfits,
      hfits'⟩⟩
    · rw [hring]
      exact fun k hk ↦ absurd hk (notMem_empty k)
    · exact fun hne ↦ absurd hring hne.ne_empty
    · exact fun k hk ↦ lt_of_le_of_lt (hexcess k hk) hlt
  have hcount : f.count > 0 ∧ f.allItemsInExcess = false := by
    refine ⟨?_, Bool.eq_false_iff.mpr fun hall ↦ hring.ne_empty (h.allItemsInExcess_iff.mp hall)⟩
    have := h.count
    have := hring.card_pos
    omega
  have hmem : ∀ k ∈ ring, k ∈ List.range' (f.min + 1) (f.max - (f.min + 1)) := by
    intro k hk
    have hbounds := h.bounds k hk
    have hne : k ≠ f.min := fun heq ↦ hmin (heq ▸ hk)
    rw [List.mem_range'_1]
    omega
  have hcontains : ∀ k ∈ List.range' (f.min + 1) (f.max - (f.min + 1)),
      (f.containsAssumeInRange k = true ↔ k ∈ ring) := by
    intro k hk
    rw [List.mem_range'_1] at hk
    exact h.containsAssumeInRange_iff (by omega) (by omega)
  rw [if_pos hcount]
  cases hfind : (List.range' (f.min + 1) (f.max - (f.min + 1))).find? f.containsAssumeInRange with
  | none =>
    obtain ⟨k, hk⟩ := hring
    exact absurd ((hcontains k (hmem k hk)).mpr hk) (List.find?_eq_none.mp hfind k (hmem k hk))
  | some m =>
    obtain ⟨hm, hmrange, hbefore⟩ := List.find?_range'_eq_some.mp hfind
    have hmring := (hcontains m hmrange).mp hm
    rw [List.mem_range'_1] at hmrange
    -- the keys before it in the range are not in the ring
    have hle : ∀ k ∈ ring, m ≤ k := by
      refine fun k hk ↦ not_lt.mp fun hlt ↦ ?_
      have hnot := hbefore k (List.mem_range'_1.mp (hmem k hk)).1 hlt
      rw [(hcontains k (hmem k hk)).mpr hk] at hnot
      cases hnot
    refine ⟨m, by omega, rfl, ⟨⟨fun k hk ↦ ⟨hle k hk, (h.bounds k hk).2⟩, ?_, h.bits, h.count⟩,
      fun _ ↦ hmring, fun hnil ↦ absurd hnil hring.ne_empty, fun k hk ↦ ?_, hfits, hfits'⟩⟩
    · show f.max ≤ m + f.maxWidth
      omega
    have := hexcess k hk
    show k < m
    omega

/-! ### Operations -/

lemma checkedAdd_one (hkey : key < u64Max) : checkedAdd 64 key 1 = some (key + 1) := by
  rw [u64Max] at hkey
  exact if_pos (by omega)

lemma Ring.makeRoom_spec {fuel : ℕ} (h : Ring f ring) (hring : ring.Nonempty) (hkey : f.max ≤ key)
    (hfuel : ring.card < fuel) :
    ∃ f' ring', makeRoom (key + 1) fuel f = some (f', decide (ring' = ∅)) ∧ Ring f' ring' ∧
      f'.excess ∪ ring' = f.excess ∪ ring ∧ f'.maxWidth = f.maxWidth ∧ f'.max ≤ key ∧
      (ring'.Nonempty → key + 1 ≤ f'.min + f'.maxWidth) := by
  induction fuel generalizing f ring with
  | zero => omega
  | succ fuel ih =>
    have hmin := h.least hring
    have hbounds := h.bounds _ hmin
    rw [makeRoom]
    split_ifs with hroom hmem
    · refine ⟨f, ring, ?_, h, rfl, rfl, hkey, fun _ ↦ by omega⟩
      rw [decide_eq_false hring.ne_empty]
    · exact absurd (h.excess _ hmem) (lt_irrefl _)
    have hwindow : Window { f with
        excess := Insert.insert f.min f.excess
        bits := f.bits.erase (f.getAddress f.min) } (ring.erase f.min) := by
      refine ⟨fun k hk ↦ h.bounds k (mem_of_mem_erase hk), h.width, h.mem_erase_bits hmin, ?_⟩
      show f.count = (Insert.insert f.min f.excess).card + (ring.erase f.min).card
      rw [card_insert_of_notMem hmem, card_erase_of_mem hmin, h.count]
      have := hring.card_pos
      omega
    obtain ⟨m, hm, hpurge, hring'⟩ := hwindow.purge_min (notMem_erase _ _)
      (lt_of_le_of_lt hbounds.1 hbounds.2)
      (fun k hk ↦ (mem_insert.mp hk).elim (fun heq ↦ heq.le) fun hk ↦ (h.excess k hk).le)
      (fun k hk ↦ h.fits k (mem_of_mem_erase hk))
      (fun k hk ↦ (mem_insert.mp hk).elim (fun heq ↦ heq.symm ▸ h.fits f.min hmin)
        fun hk ↦ h.fitsExcess k hk)
    have hunion : Insert.insert f.min f.excess ∪ ring.erase f.min = f.excess ∪ ring := by
      rw [insert_union, ← union_insert, insert_erase hmin]
    simp only at hpurge ⊢
    rw [hpurge]
    rcases eq_empty_or_nonempty (ring.erase f.min) with hempty | hne
    · rw [if_pos (hring'.allItemsInExcess_iff.mpr hempty)]
      refine ⟨_, _, by rw [decide_eq_true hempty], hring', hunion, rfl, hkey, fun hne ↦ ?_⟩
      exact absurd hempty hne.ne_empty
    rw [if_neg fun hall ↦ hne.ne_empty (hring'.allItemsInExcess_iff.mp hall)]
    obtain ⟨f', ring'', heq, hr, hu, hw, hmax, hlt⟩ := ih hring' hne hkey (by
      have := hring.card_pos
      rw [card_erase_of_mem hmin]
      omega)
    exact ⟨f', ring'', heq, hr, hu.trans hunion, hw, hmax, hlt⟩

lemma Ring.updateBits_empty (h : Ring f ∅) (hkey : key + f.maxWidth ≤ u64Max)
    (hwidth : 0 < f.maxWidth) (habove : ∀ k ∈ f.excess, k < key) :
    ∃ f', f.updateBits key true = some f' ∧ Ring f' (Insert.insert key ∅) ∧ f'.excess = f.excess ∧
      f'.maxWidth = f.maxWidth ∧ f'.min ≤ key := by
  have hbits : f.bits = ∅ := by
    refine eq_empty_of_forall_notMem fun a ha ↦ ?_
    obtain ⟨k, hk, -⟩ := (h.bits a).mp ha
    exact notMem_empty k hk
  have hcontains : ¬f.containsAssumeInRange key = true := by
    rw [containsAssumeInRange, hbits, decide_eq_true_eq]
    exact notMem_empty _
  rw [updateBits, if_neg hcontains, if_pos rfl, checkedAdd_one (by omega)]
  refine ⟨_, rfl, ⟨⟨fun k hk ↦ ?_, ?_, h.mem_insert_bits key, ?_⟩, fun _ ↦ mem_singleton_self _,
    fun hnil ↦ absurd hnil (singleton_ne_empty _), habove, fun k hk ↦ ?_, h.fitsExcess⟩, rfl,
    rfl, le_refl _⟩
  · rw [mem_singleton.mp hk]
    exact ⟨le_refl _, Nat.lt_succ_self _⟩
  · exact Nat.add_le_add_left hwidth key
  · show f.count + 1 = f.excess.card + _
    rw [h.count, card_empty, insert_empty_eq, card_singleton]
  rw [mem_singleton.mp hk]
  exact hkey

lemma Ring.updateBits_spec (h : Ring f ring) (hring : ring.Nonempty)
    (hkey : key + f.maxWidth ≤ u64Max) (hwidth : 0 < f.maxWidth) (hmin : f.min ≤ key)
    (hroom : key + 1 ≤ f.min + f.maxWidth) :
    ∃ f', f.updateBits key false = some f' ∧ Ring f' (Insert.insert key ring) ∧
      f'.excess = f.excess ∧ f'.maxWidth = f.maxWidth ∧ f'.min ≤ key := by
  have hcontains := h.containsAssumeInRange_iff hmin (by omega)
  rw [updateBits]
  by_cases hmem : f.containsAssumeInRange key = true
  · rw [if_pos hmem, insert_eq_of_mem (hcontains.mp hmem)]
    exact ⟨f, rfl, h, rfl, rfl, hmin⟩
  rw [if_neg hmem]
  rw [hcontains] at hmem
  have hfits : checkedAdd 64 f.min f.maxWidth = some (f.min + f.maxWidth) := by
    rw [u64Max] at hkey
    exact if_pos (by omega)
  have hmin' : Nat.min f.min key = f.min := Nat.min_eq_left hmin
  have hmax : Nat.max f.max (key + 1) ≤ f.min + f.maxWidth := Nat.max_le.mpr ⟨h.width, hroom⟩
  rw [checkedAdd_one (by omega)]
  simp only [some_bind, hmin', hfits, if_pos hmax, Bool.false_eq_true, if_false]
  refine ⟨_, rfl, ⟨⟨fun k hk ↦ ?_, hmax, h.mem_insert_bits key, ?_⟩,
    fun _ ↦ mem_insert_of_mem (h.least hring),
    fun hnil ↦ absurd hnil (insert_ne_empty _ _), h.excess, fun k hk ↦ ?_, h.fitsExcess⟩,
    rfl, rfl, hmin⟩
  · rcases mem_insert.mp hk with rfl | hk
    · exact ⟨hmin, lt_of_lt_of_le (Nat.lt_succ_self _) (Nat.le_max_right _ _)⟩
    · exact ⟨(h.bounds k hk).1, lt_of_lt_of_le (h.bounds k hk).2 (Nat.le_max_left _ _)⟩
  · show f.count + 1 = f.excess.card + _
    rw [h.count, card_insert_of_notMem hmem, Nat.add_assoc]
  rcases mem_insert.mp hk with rfl | hk
  · exact hkey
  · exact h.fits k hk

/-- The keys of a bit field. -/
def Keys (f : RollingBitField) (keys : Finset ℕ) : Prop :=
  0 < f.maxWidth ∧ ∃ ring, Ring f ring ∧ keys = f.excess ∪ ring

/-- A key can be inserted: all its window is below the end of the numbers, and if the ring is empty,
the key is above the keys that there are. -/
def Admits (f : RollingBitField) (key : ℕ) : Prop :=
  key + f.maxWidth ≤ u64Max ∧ (f.allItemsInExcess = true → ∀ k ∈ f.excess, k < key)

instance (f : RollingBitField) (key : ℕ) : Decidable (f.Admits key) :=
  inferInstanceAs (Decidable (_ ∧ _))

variable {keys : Finset ℕ} {n : ℕ}

lemma keys_of_updateBits {f₁ : RollingBitField} {bitsEmpty : Bool} (hwidth : 0 < f.maxWidth)
    (hw : f₁.maxWidth = f.maxWidth) (hunion : f₁.excess ∪ ring = keys)
    (h : ∃ f', f₁.updateBits key bitsEmpty = some f' ∧ Ring f' (Insert.insert key ring) ∧
      f'.excess = f₁.excess ∧ f'.maxWidth = f₁.maxWidth ∧ f'.min ≤ key) :
    ∃ f', f₁.updateBits key bitsEmpty = some f' ∧ Keys f' (Insert.insert key keys) ∧
      f'.maxWidth = f.maxWidth ∧ ((∀ k ∈ keys, k ≤ key) → ∀ k ∈ f'.excess, k < key) := by
  obtain ⟨f', hf', hring', hexcess, hw', hmin⟩ := h
  have hwidth' := hw'.trans hw
  refine ⟨f', hf', ⟨hwidth' ▸ hwidth, _, hring', ?_⟩, hwidth',
    fun _ k hk ↦ lt_of_lt_of_le (hring'.excess k hk) hmin⟩
  rw [hexcess, union_insert, hunion]

/-- Insertion. A key that is not below the others goes into the ring. -/
theorem Keys.insert_spec (h : Keys f keys) (hkey : f.Admits key) :
    ∃ f', f.insert key = some f' ∧ Keys f' (Insert.insert key keys) ∧ f'.maxWidth = f.maxWidth ∧
      ((∀ k ∈ keys, k ≤ key) → ∀ k ∈ f'.excess, k < key) := by
  obtain ⟨hwidth, ring, hring, rfl⟩ := h
  obtain ⟨hfits, habove⟩ := hkey
  have hempty : f.count = 0 ∨ f.allItemsInExcess = true ↔ ring = ∅ := by
    rw [hring.allItemsInExcess_iff, or_iff_right_iff_imp, hring.count, ← card_eq_zero]
    omega
  rw [insert]
  by_cases hcount : f.count = 0 ∨ f.allItemsInExcess = true
  · obtain rfl := hempty.mp hcount
    rw [if_pos hcount]
    exact keys_of_updateBits hwidth rfl rfl
      (hring.updateBits_empty hfits hwidth (habove (hring.allItemsInExcess_iff.mpr rfl)))
  have hne : ring.Nonempty := nonempty_iff_ne_empty.mpr fun hnil ↦ hcount (hempty.mpr hnil)
  have hleast := mem_union_right f.excess (hring.least hne)
  rw [if_neg hcount]
  split_ifs with hlow hmem hmid
  · refine ⟨f, rfl, ⟨hwidth, ring, hring, ?_⟩, rfl, fun hall _ _ ↦ ?_⟩
    · exact insert_eq_of_mem (mem_union_left _ hmem)
    · exact absurd (hall _ hleast) (not_le.mpr hlow)
  · refine ⟨_, rfl, ⟨hwidth, ring, ⟨⟨hring.bounds, hring.width, hring.bits, ?_⟩, hring.least,
      hring.empty, fun k hk ↦ ?_, hring.fits, fun k hk ↦ ?_⟩, ?_⟩, rfl, fun hall _ _ ↦ ?_⟩
    · show f.count + 1 = (Insert.insert key f.excess).card + _
      rw [card_insert_of_notMem hmem, hring.count]
      omega
    · exact (mem_insert.mp hk).elim (fun heq ↦ heq ▸ hlow) (hring.excess k)
    · exact (mem_insert.mp hk).elim (fun heq ↦ heq ▸ hfits) (hring.fitsExcess k)
    · exact (insert_union _ _ _).symm
    · exact absurd (hall _ hleast) (not_le.mpr hlow)
  · have hw := hring.width
    exact keys_of_updateBits hwidth rfl rfl
      (hring.updateBits_spec hne hfits hwidth (not_lt.mp hlow) (by omega))
  obtain ⟨f₁, ring₁, hroom, hring₁, hunion, hw₁, hmax₁, hlt₁⟩ := hring.makeRoom_spec hne
    (not_lt.mp hmid) (show ring.card < f.count + 1 by rw [hring.count]; omega)
  rw [checkedAdd_one (by omega)]
  simp only [some_bind, hroom]
  rw [← hw₁] at hfits
  refine keys_of_updateBits hwidth hw₁ hunion ?_
  rw [← hw₁] at hwidth
  rcases eq_empty_or_nonempty ring₁ with rfl | hne₁
  · rw [decide_eq_true rfl]
    refine hring₁.updateBits_empty hfits hwidth fun k hk ↦ ?_
    have := hring₁.excess k hk
    have := hring₁.empty rfl
    omega
  rw [decide_eq_false hne₁.ne_empty]
  have hbounds := hring₁.bounds _ (hring₁.least hne₁)
  exact hring₁.updateBits_spec hne₁ hfits hwidth (by omega) (hlt₁ hne₁)

lemma Ring.remove_bit (h : Ring f ring) (hkey : key ∈ ring) :
    Window { f with count := f.count - 1, bits := f.bits.erase (f.getAddress key) }
      (ring.erase key) := by
  have hcard := card_pos.mpr ⟨key, hkey⟩
  refine ⟨fun k hk ↦ h.bounds k (mem_of_mem_erase hk), h.width, h.mem_erase_bits hkey, ?_⟩
  show f.count - 1 = f.excess.card + (ring.erase key).card
  rw [card_erase_of_mem hkey, h.count]
  omega

lemma Ring.excess_disjoint (h : Ring f ring) {k : ℕ} (hk : k ∈ f.excess) : k ∉ ring := fun hring ↦
  absurd (h.bounds k hring).1 (not_le.mpr (h.excess k hk))

lemma Ring.remove_of_notMem (h : Ring f ring) (hkey : key ∉ f.excess ∪ ring) :
    f.remove key = some (f, false) := by
  have hwidth := h.width
  rw [notMem_union] at hkey
  rw [remove]
  split_ifs with hmin hmax hcontains hmem
  · exact absurd ((h.containsAssumeInRange_iff hmin (by omega)).mp hcontains) hkey.2
  · rfl
  · rfl
  · exact absurd hmem hkey.1
  · rfl

/-- Removal reports whether the key was there. -/
theorem Keys.remove_spec (h : Keys f keys) (key : ℕ) :
    ∃ f', f.remove key = some (f', decide (key ∈ keys)) ∧ Keys f' (keys.erase key) ∧
      f'.maxWidth = f.maxWidth ∧ f'.excess ⊆ f.excess := by
  obtain ⟨hwidth, ring, hring, rfl⟩ := h
  by_cases hkey : key ∈ f.excess ∪ ring
  swap
  · exact ⟨f, by rw [hring.remove_of_notMem hkey, decide_eq_false hkey],
      ⟨hwidth, ring, hring, erase_eq_of_notMem hkey⟩, rfl, Finset.Subset.refl _⟩
  have hcount : checkedSub f.count 1 = some (f.count - 1) := by
    have := hring.count
    have := card_pos.mpr ⟨key, hkey⟩
    have := card_union_le f.excess ring
    exact if_pos (by omega)
  rw [decide_eq_true hkey]
  rcases mem_union.mp hkey with hmem | hkey
  · rw [remove, if_neg (not_le.mpr (hring.excess key hmem)), if_pos hmem, hcount]
    have hcard := card_pos.mpr ⟨key, hmem⟩
    refine ⟨_, rfl, ⟨hwidth, ring, ⟨⟨hring.bounds, hring.width, hring.bits, ?_⟩, hring.least,
      hring.empty, fun k hk ↦ hring.excess k (mem_of_mem_erase hk), hring.fits,
      fun k hk ↦ hring.fitsExcess k (mem_of_mem_erase hk)⟩, ?_⟩, rfl, erase_subset _ _⟩
    · show f.count - 1 = (f.excess.erase key).card + ring.card
      rw [card_erase_of_mem hmem, hring.count]
      omega
    · rw [erase_union_distrib, erase_eq_of_notMem (hring.excess_disjoint hmem)]
  have hbounds := hring.bounds key hkey
  have hcontains := (hring.containsAssumeInRange_iff hbounds.1
    (hbounds.2.trans_le hring.width)).mpr hkey
  have hnot : key ∉ f.excess := fun hexcess ↦ hring.excess_disjoint hexcess hkey
  have hwindow := hring.remove_bit hkey
  have hunion : (f.excess ∪ ring).erase key = f.excess ∪ ring.erase key := by
    rw [erase_union_distrib, erase_eq_of_notMem hnot]
  rw [remove, if_pos hbounds.1, if_pos hbounds.2, if_pos hcontains, hcount, hunion]
  rcases eq_or_ne key f.min with rfl | hne
  · obtain ⟨m, -, hpurge, hring'⟩ := hwindow.purge_min (notMem_erase _ _) hbounds.2
      (fun k hk ↦ (hring.excess k hk).le)
      (fun k hk ↦ hring.fits k (mem_of_mem_erase hk)) hring.fitsExcess
    refine ⟨_, rfl, ?_⟩
    simp only at hpurge
    rw [hpurge]
    exact ⟨⟨hwidth, _, hring', rfl⟩, rfl, Finset.Subset.refl _⟩
  have hleast : f.min ∈ ring.erase key := mem_erase.mpr ⟨hne.symm, hring.least ⟨key, hkey⟩⟩
  have hpurge : purge { f with count := f.count - 1, bits := f.bits.erase (f.getAddress key) }
      key = { f with count := f.count - 1, bits := f.bits.erase (f.getAddress key) } := by
    have hall := hwindow.allItemsInExcess_iff.not.mpr (ne_empty_of_mem hleast)
    have hpos : f.count - 1 > 0 := by
      have hcard := hwindow.count
      have := card_pos.mpr ⟨_, hleast⟩
      show f.count - 1 > 0
      simp only at hcard
      omega
    rw [purge, if_pos ⟨hpos, Bool.eq_false_iff.mpr hall⟩, if_neg hne]
  refine ⟨_, rfl, ?_⟩
  rw [hpurge]
  refine ⟨⟨hwidth, _, ⟨hwindow, fun _ ↦ hleast, ?_, hring.excess, ?_, hring.fitsExcess⟩, rfl⟩, rfl,
    Finset.Subset.refl _⟩
  · exact fun hnil ↦ absurd hnil (ne_empty_of_mem hleast)
  · exact fun k hk ↦ hring.fits k (mem_of_mem_erase hk)

lemma new_spec : ∃ f, new (2 ^ n) = some f ∧ Keys f ∅ ∧ f.maxWidth = 2 ^ n ∧ f.excess = ∅ := by
  have hpos : 0 < 2 ^ n := Nat.pow_pos (by omega)
  refine ⟨⟨2 ^ n, 0, 0, ∅, 0, ∅⟩, if_pos ⟨hpos, by rw [Nat.log2_two_pow]⟩,
    ⟨hpos, ∅, ?_, rfl⟩, rfl, rfl⟩
  exact ⟨⟨by simp, Nat.zero_le _, by simp, rfl⟩, by simp, fun _ ↦ rfl, by simp, by simp, by simp⟩

/-! ### Answers -/

/-- The bit field answers as the set of the keys. -/
structure Answers (f : RollingBitField) (keys : Finset ℕ) : Prop where
  contains : ∀ k, f.contains k = decide (k ∈ keys)
  remove : ∀ k, ∃ f', f.remove k = some (f', decide (k ∈ keys))
  len : f.len = keys.card
  getAll : f.getAll.Nodup ∧ ∀ k, k ∈ f.getAll ↔ k ∈ keys
  min : ∀ m, f.min? = some m ↔ m ∈ keys ∧ ∀ k ∈ keys, m ≤ k

lemma Ring.contains_eq (h : Ring f ring) (k : ℕ) :
    f.contains k = decide (k ∈ f.excess ∪ ring) := by
  have hwidth := h.width
  rw [RollingBitField.contains, Bool.eq_iff_iff, decide_eq_true_eq, mem_union]
  split_ifs with hmax hmin
  · rw [h.containsAssumeInRange_iff hmin (by omega)]
    refine ⟨.inr, fun hk ↦ hk.resolve_left fun hexcess ↦ ?_⟩
    exact absurd (h.excess k hexcess) (not_lt.mpr hmin)
  · rw [decide_eq_true_eq]
    exact ⟨.inl, fun hk ↦ hk.resolve_right fun hring ↦ hmin (h.bounds k hring).1⟩
  refine ⟨fun hfalse ↦ hfalse.elim, fun hk ↦ absurd ?_ hmax⟩
  rcases hk with hexcess | hring
  · have hlt := h.excess k hexcess
    rcases eq_empty_or_nonempty ring with hnil | hne
    · rwa [h.empty hnil] at hlt
    · exact hlt.trans (h.bounds _ (h.least hne)).2
  · exact (h.bounds k hring).2

lemma Ring.getAll_spec (h : Ring f ring) :
    f.getAll.Nodup ∧ ∀ k, k ∈ f.getAll ↔ k ∈ f.excess ∪ ring := by
  have hwidth := h.width
  have hring : ∀ k, k ∈ (List.range' f.min (f.max - f.min)).filter f.containsAssumeInRange ↔
      k ∈ ring := by
    intro k
    rw [List.mem_filter, List.mem_range'_1]
    constructor
    · rintro ⟨hk, hcontains⟩
      exact (h.containsAssumeInRange_iff hk.1 (by omega)).mp hcontains
    intro hk
    have hbounds := h.bounds k hk
    exact ⟨⟨hbounds.1, by omega⟩, (h.containsAssumeInRange_iff hbounds.1 (by omega)).mpr hk⟩
  refine ⟨List.nodup_append'.mpr ⟨sort_nodup _ _, (List.nodup_range' ..).filter _, ?_⟩, fun k ↦ ?_⟩
  · intro k hk hk'
    exact h.excess_disjoint ((mem_sort _).mp hk) ((hring k).mp hk')
  · rw [RollingBitField.getAll, List.mem_append, mem_sort, hring, mem_union]

lemma eq_iff_isLeast {v : ℕ} (hv : v ∈ keys) (hle : ∀ k ∈ keys, v ≤ k) (m : ℕ) :
    some v = some m ↔ m ∈ keys ∧ ∀ k ∈ keys, m ≤ k := by
  constructor
  · rintro h
    cases h
    exact ⟨hv, hle⟩
  rintro ⟨hm, hmin⟩
  rw [le_antisymm (hle m hm) (hmin v hv)]

lemma Ring.min?_eq_some (h : Ring f ring) (m : ℕ) :
    f.min? = some m ↔ m ∈ f.excess ∪ ring ∧ ∀ k ∈ f.excess ∪ ring, m ≤ k := by
  have hempty : f.isEmpty = true ↔ f.excess = ∅ ∧ ring = ∅ := by
    rw [isEmpty, len, decide_eq_true_eq, h.count, Nat.add_eq_zero_iff, card_eq_zero, card_eq_zero]
  rw [min?]
  by_cases hnone : f.isEmpty = true
  · rw [if_pos hnone, (hempty.mp hnone).1, (hempty.mp hnone).2]
    exact ⟨fun h ↦ absurd h nofun, fun hm ↦ absurd hm.1 (notMem_empty m)⟩
  rw [if_neg hnone]
  by_cases hexcess : f.excess = ∅
  · have hne : ring.Nonempty :=
      nonempty_iff_ne_empty.mpr fun hnil ↦ hnone (hempty.mpr ⟨hexcess, hnil⟩)
    rw [if_pos hexcess, hexcess, empty_union]
    exact eq_iff_isLeast (h.least hne) (fun k hk ↦ (h.bounds k hk).1) m
  -- the keys in the hash set are below the ring
  have hbound : ∀ k ∈ f.excess, k ≤ if f.allItemsInExcess = true then u64Max else f.min := by
    intro k hk
    have hfits := h.fitsExcess k hk
    split_ifs
    · omega
    · exact (h.excess k hk).le
  obtain ⟨hmem, hle⟩ := isLeast_fold_min (nonempty_iff_ne_empty.mpr hexcess) hbound
  rw [if_neg hexcess]
  refine eq_iff_isLeast (mem_union_left _ hmem) (fun k hk ↦ ?_) m
  rcases mem_union.mp hk with hk | hk
  · exact hle k hk
  · exact ((h.excess _ hmem).trans_le (h.bounds k hk).1).le

lemma Keys.answers (h : Keys f keys) : Answers f keys := by
  have hremove := h.remove_spec
  obtain ⟨-, ring, hring, rfl⟩ := h
  refine ⟨hring.contains_eq, fun k ↦ ?_, ?_, hring.getAll_spec, hring.min?_eq_some⟩
  · obtain ⟨f', hf', -⟩ := hremove k
    exact ⟨f', hf'⟩
  rw [len, hring.count, card_union_of_disjoint]
  exact disjoint_left.mpr fun k hk ↦ hring.excess_disjoint hk

/-! ### Runs -/

inductive Operation where
  | insert (key : ℕ)
  | remove (key : ℕ)
  | clear
  deriving DecidableEq

def Operation.inserted : Operation → Option ℕ
  | .insert key => some key
  | .remove _ | .clear => none

def step (f : RollingBitField) : Operation → Option RollingBitField
  | .insert key => f.insert key
  | .remove key => (f.remove key).map Prod.fst
  | .clear => f.clear

/-- What an operation does to the set. -/
def keysAfter (keys : Finset ℕ) : Operation → Finset ℕ
  | .insert key => Insert.insert key keys
  | .remove key => keys.erase key
  | .clear => ∅

/-- A run from a new bit field. -/
def run (maxWidth : ℕ) (ops : List Operation) : Option RollingBitField := do
  ops.foldlM step (← new maxWidth)

/-- Every key that is inserted in a run can be. -/
def AdmitsAll (f : RollingBitField) : List Operation → Prop
  | [] => True
  | op :: ops =>
    (∀ key ∈ op.inserted, f.Admits key) ∧ ∀ f' ∈ f.step op, f'.AdmitsAll ops

instance decidableAdmitsAll : (f : RollingBitField) → (ops : List Operation) →
    Decidable (f.AdmitsAll ops)
  | _, [] => isTrue trivial
  | f, op :: ops =>
    have : DecidablePred fun f' : RollingBitField ↦ f'.AdmitsAll ops := fun f' ↦
      decidableAdmitsAll f' ops
    inferInstanceAs (Decidable (_ ∧ ∀ f' ∈ f.step op, f'.AdmitsAll ops))

lemma Keys.step_spec (h : Keys f keys) (hwidth : f.maxWidth = 2 ^ n) {op : Operation}
    (hop : ∀ key ∈ op.inserted, f.Admits key) :
    ∃ f', f.step op = some f' ∧ Keys f' (keysAfter keys op) ∧ f'.maxWidth = 2 ^ n := by
  cases op with
  | insert key =>
    obtain ⟨f', hf', hkeys, hw, -⟩ := h.insert_spec (hop key rfl)
    exact ⟨f', hf', hkeys, hw.trans hwidth⟩
  | remove key =>
    obtain ⟨f', hf', hkeys, hw, -⟩ := h.remove_spec key
    exact ⟨f', by rw [step, hf']; rfl, hkeys, hw.trans hwidth⟩
  | clear =>
    obtain ⟨f', hf', hkeys, hw, -⟩ := @new_spec n
    exact ⟨f', by rw [step, RollingBitField.clear, hwidth, hf'], hkeys, hw⟩

lemma Keys.run_spec (h : Keys f keys) (hwidth : f.maxWidth = 2 ^ n) {ops : List Operation}
    (hops : f.AdmitsAll ops) :
    ∃ f', ops.foldlM step f = some f' ∧ Keys f' (ops.foldl keysAfter keys) := by
  induction ops generalizing f keys with
  | nil => exact ⟨f, rfl, h⟩
  | cons op ops ih =>
    obtain ⟨hop, hrest⟩ := hops
    obtain ⟨f₁, hstep, hkeys, hw⟩ := h.step_spec hwidth hop
    obtain ⟨f', hf', hkeys'⟩ := ih hkeys hw (hrest f₁ hstep)
    refine ⟨f', ?_, hkeys'⟩
    rw [List.foldlM_cons, hstep]
    exact hf'

/-! ### Keys in ascending order -/

/-- All keys are below a bound or equal to it, and those in the hash set are not equal. -/
structure Ascending (f : RollingBitField) (keys : Finset ℕ) (bound : ℕ) : Prop where
  toKeys : Keys f keys
  le : ∀ k ∈ keys, k ≤ bound
  lt : ∀ k ∈ f.excess, k < bound

lemma Ascending.insert_spec {bound : ℕ} (h : Ascending f keys bound) (hbound : bound ≤ key)
    (hfits : key + f.maxWidth ≤ u64Max) :
    ∃ f', f.insert key = some f' ∧ Ascending f' (Insert.insert key keys) key ∧
      f'.maxWidth = f.maxWidth := by
  have hle : ∀ k ∈ keys, k ≤ key := fun k hk ↦ (h.le k hk).trans hbound
  obtain ⟨f', hf', hkeys, hw, hlt⟩ := h.toKeys.insert_spec
    (show f.Admits key from ⟨hfits, fun _ k hk ↦ (h.lt k hk).trans_le hbound⟩)
  refine ⟨f', hf', ⟨hkeys, fun k hk ↦ ?_, hlt hle⟩, hw⟩
  rcases mem_insert.mp hk with rfl | hk
  · exact le_refl _
  · exact hle k hk

lemma Ascending.remove_spec {bound : ℕ} (h : Ascending f keys bound) (key : ℕ) :
    ∃ f', f.remove key = some (f', decide (key ∈ keys)) ∧ Ascending f' (keys.erase key) bound ∧
      f'.maxWidth = f.maxWidth := by
  obtain ⟨f', hf', hkeys, hw, hsub⟩ := h.toKeys.remove_spec key
  exact ⟨f', hf', ⟨hkeys, fun k hk ↦ h.le k (mem_of_mem_erase hk), fun k hk ↦ h.lt k (hsub hk)⟩, hw⟩

lemma new_ascending (bound : ℕ) :
    ∃ f, new (2 ^ n) = some f ∧ Ascending f ∅ bound ∧ f.maxWidth = 2 ^ n := by
  obtain ⟨f, hf, hkeys, hw, hexcess⟩ := @new_spec n
  exact ⟨f, hf, ⟨hkeys, by simp, by simp [hexcess]⟩, hw⟩

end RollingBitField

end Renec.AccountsDb
