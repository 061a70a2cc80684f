import Mathlib

/-!
# Sorted maps

A map from the keys of a linear order, kept as the list of its entries with strictly increasing
keys. The order is a field, so that there is no map with a key twice, and every operation is a
filter of the list or an entry put between two filters of it.

Each operation has one specification, in terms of the entries of the map; nothing else about the
list is used from outside.
-/

/-- A finite map with entries in the order of their keys. -/
structure SortedMap (K V : Type) [LinearOrder K] where
  entries : List (K × V)
  /-- The keys increase. -/
  sorted : entries.Pairwise fun a b ↦ a.1 < b.1

namespace SortedMap

open List Prod Option

variable {K V : Type} [LinearOrder K] {m : SortedMap K V} {k k' : K} {v v' : V}

/-- The map without entries. -/
def empty : SortedMap K V := ⟨[], Pairwise.nil⟩

section

variable (m : SortedMap K V) (k : K)

/-- The map with one entry. -/
def singleton (v : V) : SortedMap K V := ⟨[(k, v)], pairwise_singleton _ _⟩

/-- The value at a key. -/
def get? : Option V := (m.entries.find? fun e ↦ decide (e.1 = k)).map snd

/-- The entries whose keys satisfy a predicate. -/
def filterKeys (p : K → Bool) (m : SortedMap K V) : SortedMap K V :=
  ⟨m.entries.filter fun e ↦ p e.1, m.sorted.filter _⟩

/-- The entries that satisfy a predicate. -/
def filter (p : K → V → Bool) (m : SortedMap K V) : SortedMap K V :=
  ⟨m.entries.filter fun e ↦ p e.1 e.2, m.sorted.filter _⟩

/-- The entry with the greatest key. -/
def last? : Option (K × V) := m.entries.getLast?

/-- Set the value at a key. -/
def insert (v : V) : SortedMap K V where
  entries := (m.filterKeys fun x ↦ decide (x < k)).entries ++
    (k, v) :: (m.filterKeys fun x ↦ decide (k < x)).entries
  sorted := by
    refine pairwise_append.mpr ⟨(m.filterKeys _).sorted, ?_, ?_⟩
    · refine pairwise_cons.mpr ⟨fun e he ↦ ?_, (m.filterKeys _).sorted⟩
      exact of_decide_eq_true (mem_filter.mp he).2
    intro a ha b hb
    have hak : a.1 < k := of_decide_eq_true (mem_filter.mp ha).2
    rcases mem_cons.mp hb with rfl | hb
    · exact hak
    · exact hak.trans (of_decide_eq_true (mem_filter.mp hb).2)

/-! ### Specifications -/

lemma nodup_keys : (m.entries.map fst).Nodup := pairwise_map.mpr (m.sorted.imp fun h ↦ h.ne)

end

lemma eq_of_mem (h : (k, v) ∈ m.entries) (h' : (k, v') ∈ m.entries) : v = v' :=
  congrArg snd (inj_on_of_nodup_map m.nodup_keys h h' rfl)

lemma get?_eq_some : m.get? k = some v ↔ (k, v) ∈ m.entries := by
  have hkey : ∀ e, m.entries.find? (fun e ↦ decide (e.1 = k)) = some e → e.1 = k :=
    fun e he ↦ by simpa using find?_some he
  rw [get?, map_eq_some_iff]
  constructor
  · rintro ⟨⟨k', v'⟩, hfind, rfl⟩
    obtain rfl : k' = k := hkey _ hfind
    exact mem_of_find?_eq_some hfind
  intro h
  have hsome : (m.entries.find? fun e ↦ decide (e.1 = k)).isSome :=
    find?_isSome.mpr ⟨(k, v), h, by simp⟩
  obtain ⟨⟨k', v'⟩, hfind⟩ := isSome_iff_exists.mp hsome
  obtain rfl : k' = k := hkey _ hfind
  exact ⟨_, hfind, eq_of_mem (mem_of_find?_eq_some hfind) h⟩

lemma get?_eq_none : m.get? k = none ↔ ∀ v, (k, v) ∉ m.entries := by
  rw [eq_none_iff_forall_ne_some]
  exact forall_congr' fun v ↦ not_congr get?_eq_some

@[simp] lemma mem_singleton : (k', v') ∈ (singleton k v).entries ↔ k' = k ∧ v' = v := by
  rw [singleton, List.mem_singleton, Prod.mk.injEq]

@[simp] lemma mem_filterKeys {p : K → Bool} :
    (k, v) ∈ (m.filterKeys p).entries ↔ (k, v) ∈ m.entries ∧ p k :=
  mem_filter

@[simp] lemma mem_insert : (k', v') ∈ (m.insert k v).entries ↔
    k' = k ∧ v' = v ∨ k' ≠ k ∧ (k', v') ∈ m.entries := by
  simp only [insert, mem_append, mem_cons, mem_filterKeys, decide_eq_true_eq,
    Prod.mk.injEq, ne_iff_lt_or_gt]
  constructor
  · rintro (⟨h, hlt⟩ | heq | ⟨h, hlt⟩)
    · exact .inr ⟨.inl hlt, h⟩
    · exact .inl heq
    · exact .inr ⟨.inr hlt, h⟩
  rintro (heq | ⟨hlt | hlt, h⟩)
  · exact .inr (.inl heq)
  · exact .inl ⟨h, hlt⟩
  · exact .inr (.inr ⟨h, hlt⟩)

@[simp] lemma get?_empty : (empty : SortedMap K V).get? k = none := rfl

lemma get?_insert : (m.insert k v).get? k' = if k' = k then some v else m.get? k' := by
  ext w
  rw [get?_eq_some, mem_insert]
  split_ifs with hk
  · simp [hk, eq_comm]
  · simp [hk, get?_eq_some]

@[simp] lemma get?_insert_self : (m.insert k v).get? k = some v := by
  rw [get?_insert, if_pos rfl]

lemma get?_insert_of_ne (h : k' ≠ k) : (m.insert k v).get? k' = m.get? k' := by
  rw [get?_insert, if_neg h]

lemma get?_filter_eq_some {p : K → V → Bool} :
    (m.filter p).get? k = some v ↔ m.get? k = some v ∧ p k v := by
  rw [get?_eq_some, get?_eq_some]
  exact mem_filter

lemma get?_filterKeys_eq_some {p : K → Bool} :
    (m.filterKeys p).get? k = some v ↔ m.get? k = some v ∧ p k := by
  rw [get?_eq_some, get?_eq_some, mem_filterKeys]

lemma exists_last? (h : (k, v) ∈ m.entries) : ∃ e, m.last? = some e :=
  isSome_iff_exists.mp (getLast?_isSome.mpr (ne_nil_of_mem h))

lemma mem_and_le_of_last? (h : m.last? = some (k, v)) :
    (k, v) ∈ m.entries ∧ ∀ e ∈ m.entries, e.1 ≤ k := by
  obtain ⟨init, hinit⟩ := getLast?_eq_some_iff.mp h
  have hsorted := m.sorted
  rw [hinit] at hsorted ⊢
  refine ⟨mem_append_right _ (mem_singleton_self _), fun e he ↦ ?_⟩
  rcases mem_append.mp he with he | he
  · exact ((pairwise_append.mp hsorted).2.2 e he _ (mem_singleton_self _)).le
  · rw [List.mem_singleton.mp he]

lemma last?_eq_some : m.last? = some (k, v) ↔ (k, v) ∈ m.entries ∧ ∀ e ∈ m.entries, e.1 ≤ k := by
  refine ⟨mem_and_le_of_last?, fun ⟨hmem, hmax⟩ ↦ ?_⟩
  obtain ⟨⟨k', v'⟩, hlast⟩ := exists_last? hmem
  obtain ⟨hmem', hmax'⟩ := mem_and_le_of_last? hlast
  obtain rfl : k' = k := le_antisymm (hmax _ hmem') (hmax' _ hmem)
  rw [hlast, eq_of_mem hmem' hmem]

lemma length_entries_le {s : Finset K} (h : ∀ e ∈ m.entries, e.1 ∈ s) :
    m.entries.length ≤ s.card := by
  rw [← length_map fst, ← toFinset_card_of_nodup m.nodup_keys]
  refine Finset.card_le_card fun k hk ↦ ?_
  obtain ⟨e, he, rfl⟩ := mem_map.mp (mem_toFinset.mp hk)
  exact h e he

lemma length_entries_eq {s : Finset K} (h : ∀ k, k ∈ s ↔ ∃ v, m.get? k = some v) :
    m.entries.length = s.card := by
  refine le_antisymm (length_entries_le fun e he ↦ (h e.1).mpr ⟨e.2, get?_eq_some.mpr he⟩) ?_
  rw [← length_map fst, ← toFinset_card_of_nodup m.nodup_keys]
  refine Finset.card_le_card fun k hk ↦ ?_
  obtain ⟨v, hv⟩ := (h k).mp hk
  exact mem_toFinset.mpr (mem_map.mpr ⟨_, get?_eq_some.mp hv, rfl⟩)

end SortedMap
