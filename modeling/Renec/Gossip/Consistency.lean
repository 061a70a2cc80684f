import Renec.Gossip.Mirror

/-!
# Consistency of the store

**The indexes of the store mirror its table**, whatever is inserted, updated, removed or trimmed
(`indexes_mirror_table`). So no position that an index gives is out of range, and the queries since
a cursor return the values that have been inserted or updated since, in this order.
-/

namespace Renec.Gossip

open List Indexes
open Prod hiding lex
open Option hiding mem_map

section

variable (hash : CrdsValue → Hash)

/-- **The invariant of the store.** -/
structure Mirrors (crds : Crds) : Prop where
  labels : ∀ (i j : ℕ) (e e' : Entry), crds.table[i]? = some e → crds.table[j]? = some e' →
    e.1 = e'.1 → i = j
  keyed : ∀ e ∈ crds.table, e.1 = e.2.value.label ∧ e.2.valueHash = hash e.2.value
  below : ∀ e ∈ crds.table, e.2.ordinal < crds.cursor
  entries : Indexes (ordinalOf fun _ ↦ true) crds.table fun o i ↦ crds.entries.get? o = some i
  votes : Indexes (ordinalOf CrdsData.isVote) crds.table fun o i ↦ crds.votes.get? o = some i
  epochSlots : Indexes (ordinalOf CrdsData.isEpochSlots) crds.table fun o i ↦
    crds.epochSlots.get? o = some i
  nodes : Indexes nodeOf crds.table fun _ i ↦ i ∈ crds.nodes
  records : Indexes (fun e ↦ some e.2.value.pubkey) crds.table (RecordAt crds.records)
  recordsNonempty : ∀ key s, crds.records.get? key = some s → s ≠ ∅
  sized : crds.shards.Sized
  shards : Indexes crds.shards.keyOf crds.table crds.shards.At
  shredKeys : ∀ key version, crds.shredVersions.get? key = some version →
    ∃ s, crds.records.get? key = some s
  shredVersions : ∀ e ∈ crds.table, ∀ info, e.2.value.data = .contactInfo info →
    crds.shredVersions.get? info.id = some info.shredVersion

variable {hash} {crds : Crds} {i : ℕ} {label : CrdsValueLabel} {value entry : VersionedCrdsValue}

lemma mirrors_default : Mirrors hash .default where
  labels := fun _ _ _ _ h ↦ by cases h
  keyed := fun _ h ↦ by cases h
  below := fun _ h ↦ by cases h
  entries := nil.congr fun _ _ ↦ ⟨nofun, False.elim⟩
  votes := nil.congr fun _ _ ↦ ⟨nofun, False.elim⟩
  epochSlots := nil.congr fun _ _ ↦ ⟨nofun, False.elim⟩
  nodes := nil.congr fun _ i ↦ ⟨fun h ↦ absurd h (Finset.notMem_empty i), False.elim⟩
  records := nil.congr fun _ _ ↦ ⟨fun ⟨_, h, _⟩ ↦ (by cases h), False.elim⟩
  recordsNonempty := nofun
  sized := ⟨by decide, (length_replicate ..).trans (Nat.one_shiftLeft 12)⟩
  shards := nil.congr fun k _ ↦ by
    refine ⟨fun ⟨shard, hshard, h⟩ ↦ ?_, False.elim⟩
    obtain rfl := eq_of_mem_replicate (mem_of_getElem? hshard)
    cases h
  shredKeys := nofun
  shredVersions := nofun

/-! ### Later stores -/

/-- Entries that differ in their timestamp only. -/
def SameButTime (e e' : Entry) : Prop :=
  e.1 = e'.1 ∧ e.2.value = e'.2.value ∧ e.2.ordinal = e'.2.ordinal ∧ e.2.valueHash = e'.2.valueHash

/-- Every entry is an old one, or is new and has an ordinal not below the cursor. -/
def Extends (crds crds' : Crds) : Prop := crds.cursor ≤ crds'.cursor ∧ ∀ e ∈ crds'.table,
    (∃ e₀ ∈ crds.table, SameButTime e e₀) ∨ crds.cursor ≤ e.2.ordinal

lemma Extends.trans {a b c : Crds} (hab : Extends a b) (hbc : Extends b c) : Extends a c := by
  refine ⟨hab.1.trans hbc.1, fun e he ↦ ?_⟩
  rcases hbc.2 e he with ⟨e₁, he₁, hs₁⟩ | hle
  · rcases hab.2 e₁ he₁ with ⟨e₂, he₂, hs₂⟩ | hle
    · exact .inl ⟨e₂, he₂, hs₁.1.trans hs₂.1, hs₁.2.1.trans hs₂.2.1,
        hs₁.2.2.1.trans hs₂.2.2.1, hs₁.2.2.2.trans hs₂.2.2.2⟩
    · exact .inr (hs₁.2.2.1 ▸ hle)
  · exact .inr (hab.1.trans hle)

lemma Extends.of_subset {a b : Crds} (hcursor : b.cursor = a.cursor)
    (hsub : ∀ e ∈ b.table, e ∈ a.table) : Extends a b :=
  ⟨hcursor.ge, fun e he ↦ .inl ⟨e, hsub e he, rfl, rfl, rfl, rfl⟩⟩

variable (hash) in
/-- `overrides`, for two values of one label. -/
def beats (v w : CrdsValue) : Bool := (overridesInstance v.data w).getD
    (if v.wallclock < w.wallclock then false
    else if v.wallclock > w.wallclock then true
    else decide (hash w < hash v))

lemma Crds.table_of_lookup (h : crds.lookup label = some (i, entry)) :
    crds.table[i]? = some (label, entry) := by
  rw [lookup, bind_eq_some] at h
  obtain ⟨index, hindex, h⟩ := h
  rw [bind_eq_some] at h
  obtain ⟨e, he, h⟩ := h
  obtain ⟨hlt, hlabel, -⟩ := findIdx?_eq_some_iff_getElem.mp hindex
  cases h
  rw [getElem?_eq_getElem hlt, some.injEq] at he
  rw [he, decide_eq_true_eq] at hlabel
  rw [getElem?_eq_getElem hlt, he, ← hlabel]

lemma Crds.ne_of_lookup (h : crds.lookup label = none) : ∀ e ∈ crds.table, e.1 ≠ label := by
  cases hfind : crds.table.findIdx? fun e ↦ decide (e.1 = label) with
  | none =>
    intro e he heq
    have hfalse := findIdx?_eq_none_iff.mp hfind e he
    rw [decide_eq_false_iff_not] at hfalse
    exact hfalse heq
  | some index =>
    obtain ⟨hlt, -⟩ := findIdx?_eq_some_iff_getElem.mp hfind
    rw [lookup, hfind, some_bind, getElem?_eq_getElem hlt] at h
    cases h

variable {v : CrdsValue}

lemma label_of_contactInfo {info : ContactInfo} (h : v.data = .contactInfo info) :
    v.label = .contactInfo info.id ∧ v.pubkey = info.id := by
  rw [CrdsValue.label, CrdsValue.pubkey, h]
  exact ⟨rfl, rfl⟩

variable {p : CrdsData → Bool} {m : SortedMap ℕ ℕ}

namespace Mirrors

lemma labels_iff_nodup {table : List Entry} :
    (∀ (i j : ℕ) (e e' : Entry), table[i]? = some e → table[j]? = some e' → e.1 = e'.1 → i = j) ↔
      (table.map fst).Nodup := by
  constructor
  · intro h
    refine nodup_iff_injective_getElem.mpr fun i j heq ↦ Fin.ext ?_
    simp only [getElem_map] at heq
    exact h i j _ _ (getElem?_eq_getElem _) (getElem?_eq_getElem _) heq
  intro h i j e e' hi hj heq
  have hlt := (List.getElem?_eq_some_iff.mp hi).1
  refine (getElem?_inj (by rwa [length_map]) h).mp ?_
  rw [getElem?_map, getElem?_map, hi, hj, map_some, heq]
  rfl

lemma storeShredVersion_spec (value : CrdsValue) (m : SortedMap Pubkey ℕ) :
    (∀ key version, (Crds.storeShredVersion m value).get? key = some version →
        m.get? key = some version ∨ key = value.pubkey) ∧
      (∀ info, value.data = .contactInfo info →
        (Crds.storeShredVersion m value).get? info.id = some info.shredVersion) ∧
      ∀ key, value.label ≠ .contactInfo key →
        (Crds.storeShredVersion m value).get? key = m.get? key := by
  rw [Crds.storeShredVersion]
  split
  · rename_i node hdata
    obtain ⟨hlabel, hpubkey⟩ := label_of_contactInfo hdata
    rw [hpubkey, hlabel]
    refine ⟨fun key version hkey ↦ ?_, fun info hinfo ↦ ?_, fun key hkey ↦ ?_⟩
    · rw [SortedMap.get?_insert] at hkey
      split_ifs at hkey with heq
      · exact .inr heq
      · exact .inl hkey
    · rw [hdata, CrdsData.contactInfo.injEq] at hinfo
      rw [hinfo, SortedMap.get?_insert_self]
    · exact SortedMap.get?_insert_of_ne fun heq ↦ hkey (heq ▸ rfl)
  rename_i hdata
  exact ⟨fun key version hkey ↦ .inl hkey, fun info hinfo ↦ absurd hinfo (hdata info),
    fun _ _ ↦ rfl⟩

variable {a e : Entry}

lemma mem_set_cases {table : List Entry} (he : e ∈ table.set i a) :
    e = a ∨ ∃ j ≠ i, table[j]? = some e := by
  obtain ⟨j, hj⟩ := mem_iff_getElem?.mp he
  rcases eq_or_ne j i with rfl | hne
  · rw [getElem?_set] at hj
    simp only [if_true] at hj
    split_ifs at hj
    exact .inl (some.inj hj).symm
  rw [getElem?_set_ne hne.symm] at hj
  exact .inr ⟨j, hne, hj⟩

lemma forall_mem_set {P : Entry → Prop} {table : List Entry} (ha : P a) (h : ∀ e ∈ table, P e) :
    ∀ e ∈ table.set i a, P e := by
  intro e he
  rcases mem_or_eq_of_mem_set he with he | rfl
  · exact h e he
  · exact ha

variable (h : Mirrors hash crds)

include h

lemma fresh_ordinal (hm : Indexes (ordinalOf p) crds.table fun o i ↦ m.get? o = some i) (j : ℕ) :
    m.get? crds.cursor ≠ some j := by
  intro hj
  obtain ⟨e, he, ho⟩ := (hm _ _).mp hj
  have hlt := h.below e (mem_of_getElem? he)
  rw [ordinalOf] at ho
  split_ifs at ho
  exact hlt.ne (some.inj ho)

/-! ### Insertion -/

lemma insertVacant_spec (hlabel : ∀ e ∈ crds.table, e.1 ≠ value.value.label)
    (hordinal : value.ordinal = crds.cursor) (hhash : value.valueHash = hash value.value) :
    ∃ crds', crds.insertVacant value = some crds' ∧ Mirrors hash crds' ∧
      crds'.table = crds.table ++ [(value.value.label, value)] ∧
        crds'.cursor = crds.cursor + 1 := by
  have hshards : ∀ k, ¬crds.shards.At k crds.table.length := fun k hk ↦
    absurd (h.shards.lt_length hk) (lt_irrefl _)
  obtain ⟨shards, hinsert, hbits, hsized, hat⟩ :=
    h.sized.insert_spec hshards (value.value.label, value)
  have hcursor : consume crds.cursor value.ordinal = crds.cursor + 1 := by
    rw [consume, hordinal]
    exact Nat.max_eq_right (Nat.le_succ _)
  have hfresh : ∀ {p : CrdsData → Bool} {m : SortedMap ℕ ℕ},
      Indexes (ordinalOf p) crds.table (fun o i ↦ m.get? o = some i) →
      ∀ j, m.get? value.ordinal ≠ some j := by
    intro p m hm j
    rw [hordinal]
    exact h.fresh_ordinal hm j
  have hversions := storeShredVersion_spec value.value crds.shredVersions
  refine ⟨_, by rw [Crds.insertVacant, hinsert]; rfl, ?_, rfl, hcursor⟩
  exact {
    labels := by
      rw [labels_iff_nodup, map_append]
      refine (labels_iff_nodup.mp h.labels).append (nodup_singleton _)
        (disjoint_singleton.mpr fun hmem ↦ ?_)
      obtain ⟨e, he, heq⟩ := mem_map.mp hmem
      exact hlabel e he heq
    keyed := forall_mem_append.mpr ⟨h.keyed, forall_mem_singleton.mpr ⟨rfl, hhash⟩⟩
    below := by
      show ∀ e ∈ crds.table ++ [_], e.2.ordinal < consume crds.cursor value.ordinal
      rw [hcursor, forall_mem_append, forall_mem_singleton]
      exact ⟨fun e he ↦ (h.below e he).trans (Nat.lt_succ_self _), hordinal ▸ Nat.lt_succ_self _⟩
    entries := (h.entries.concat _).congr
      (@ordinals_add (fun _ ↦ true) _ (value.value.label, value) _ (hfresh h.entries))
    votes := (h.votes.concat _).congr
      (@ordinals_add CrdsData.isVote _ (value.value.label, value) _ (hfresh h.votes))
    epochSlots := (h.epochSlots.concat _).congr
      (@ordinals_add CrdsData.isEpochSlots _ (value.value.label, value) _ (hfresh h.epochSlots))
    nodes := (h.nodes.concat _).congr (@nodes_add _ (value.value.label, value) _)
    records := (h.records.concat _).congr records_add
    recordsNonempty := by
      intro key s hs
      rw [SortedMap.get?_insert] at hs
      split_ifs at hs
      · rw [← some.inj hs]
        exact Finset.insert_ne_empty _ _
      · exact h.recordsNonempty key s hs
    sized := hsized
    shards := by
      show Indexes shards.keyOf _ shards.At
      rw [CrdsShards.keyOf_eq hbits]
      exact (h.shards.concat _).congr hat
    shredKeys := by
      intro key version hkey
      show ∃ s, SortedMap.get? (SortedMap.insert _ _ _) key = some s
      rw [SortedMap.get?_insert]
      split_ifs with heq
      · exact ⟨_, rfl⟩
      · exact h.shredKeys key version ((hversions.1 key version hkey).resolve_right heq)
    shredVersions := by
      intro e he info hinfo
      show (Crds.storeShredVersion _ _).get? info.id = _
      rcases mem_append.mp he with he | he
      · rw [hversions.2.2]
        · exact h.shredVersions e he info hinfo
        intro heq
        have := hlabel e he
        rw [(h.keyed e he).1, (label_of_contactInfo hinfo).1, ← heq] at this
        exact this rfl
      rw [mem_singleton.mp he] at hinfo
      exact hversions.2.1 info hinfo }

lemma labels_set (hi : crds.table[i]? = some a) {b : Entry}
    (hlabel : b.1 = a.1) : ((crds.table.set i b).map fst).Nodup := by
  obtain ⟨hlt, rfl⟩ := List.getElem?_eq_some_iff.mp hi
  rw [map_set, hlabel, ← map_set, set_getElem_self]
  exact labels_iff_nodup.mp h.labels

lemma ordinals_replace (hm : Indexes (ordinalOf p) crds.table fun o i ↦ m.get? o = some i)
    (hi : crds.table[i]? = some (label, entry)) (hp : p value.value.data = p entry.value.data)
    (hordinal : value.ordinal = crds.cursor) :
    Indexes (ordinalOf p) (crds.table.set i (value.value.label, value)) fun o j ↦
      (if p value.value.data then Crds.replaceOrdinal m entry.ordinal value.ordinal i
        else m).get? o = some j := by
  have hlt := (List.getElem?_eq_some_iff.mp hi).1
  refine (hm.set hlt _).congr fun o j ↦ ?_
  have herase := ordinals_erase (hm.at_iff hi) o j
  rw [← herase]
  have hadd := @ordinals_add p (if p entry.value.data then
    m.filterKeys fun ordinal ↦ ordinal ≠ entry.ordinal else m) (value.value.label, value) i ?_ o j
  · rw [← hadd, hp]
    split_ifs <;> rfl
  intro j hj
  rw [ordinals_erase (hm.at_iff hi), hordinal] at hj
  exact h.fresh_ordinal hm j hj.1

lemma insertOccupied_spec (hi : crds.table[i]? = some (label, entry))
    (hlabel : value.value.label = label) (hordinal : value.ordinal = crds.cursor)
    (hhash : value.valueHash = hash value.value) (now : ℕ) :
    ∃ crds', crds.insertOccupied i entry value now = some crds' ∧ Mirrors hash crds' ∧
      crds'.table = crds.table.set i (value.value.label, value) ∧
      crds'.cursor = crds.cursor + 1 := by
  have hlt := (List.getElem?_eq_some_iff.mp hi).1
  have hsame : value.value.label = entry.value.label :=
    hlabel.trans (h.keyed _ (mem_of_getElem? hi)).1
  obtain ⟨hcontact, hvote, hslots⟩ := CrdsValue.kind_eq_of_label hsame
  have hpubkey := CrdsValue.pubkey_eq_of_label hsame
  obtain ⟨s₁, hremove, hbits₁, hsized₁, hat₁⟩ :=
    h.sized.remove_spec (e := (label, entry)) (h.shards.at_iff hi)
  have hfree : ∀ k, ¬s₁.At k i := fun k hk ↦ ((hat₁ k i).mp hk).2 rfl
  obtain ⟨s₂, hinsert, hbits₂, hsized₂, hat₂⟩ :=
    hsized₁.insert_spec hfree (value.value.label, value)
  have hcursor : consume crds.cursor value.ordinal = crds.cursor + 1 := by
    rw [consume, hordinal]
    exact Nat.max_eq_right (Nat.le_succ _)
  have hversions := storeShredVersion_spec value.value crds.shredVersions
  have hassert : (value.value.data.isContactInfo = true → entry.value.data.isContactInfo = true) ∧
      entry.value.pubkey = value.value.pubkey := ⟨fun hc ↦ hcontact ▸ hc, hpubkey.symm⟩
  refine ⟨_, by
    rw [Crds.insertOccupied, hremove, some_bind, hinsert, some_bind, if_pos hassert]
    rfl, ?_, rfl, hcursor⟩
  exact {
    labels := labels_iff_nodup.mpr (h.labels_set hi hlabel)
    keyed := forall_mem_set ⟨rfl, hhash⟩ h.keyed
    below := by
      show ∀ e ∈ crds.table.set i _, e.2.ordinal < consume crds.cursor value.ordinal
      rw [hcursor]
      exact forall_mem_set (hordinal ▸ Nat.lt_succ_self _) fun e he ↦
        (h.below e he).trans (Nat.lt_succ_self _)
    entries := h.ordinals_replace h.entries hi rfl hordinal
    votes := h.ordinals_replace h.votes hi hvote hordinal
    epochSlots := h.ordinals_replace h.epochSlots hi hslots hordinal
    nodes := h.nodes.set_of_key_eq hi (by rw [nodeOf, nodeOf, hcontact])
    records := h.records.set_of_key_eq hi (by rw [hpubkey])
    recordsNonempty := h.recordsNonempty
    sized := hsized₂
    shards := by
      show Indexes s₂.keyOf _ s₂.At
      rw [CrdsShards.keyOf_eq (hbits₂.trans hbits₁)]
      refine (h.shards.set hlt _).congr fun k j ↦ ?_
      rw [hat₂, hat₁, CrdsShards.keyOf_eq hbits₁]
    shredKeys := by
      intro key version hkey
      rcases hversions.1 key version hkey with hkey | rfl
      · exact h.shredKeys key version hkey
      obtain ⟨s, hs, -⟩ := (h.records _ i).mpr ⟨_, hi, rfl⟩
      exact ⟨s, hpubkey ▸ hs⟩
    shredVersions := by
      intro e he info hinfo
      show (Crds.storeShredVersion _ _).get? info.id = _
      rcases mem_set_cases he with rfl | ⟨j, hne, hj⟩
      · exact hversions.2.1 info hinfo
      have hmem := mem_of_getElem? hj
      rw [hversions.2.2]
      · exact h.shredVersions e hmem info hinfo
      intro heq
      refine hne (h.labels j i e _ hj hi ?_)
      rw [(h.keyed e hmem).1, (label_of_contactInfo hinfo).1, ← heq, hlabel] }

/-- The table has this value. -/
def Has (crds : Crds) (l : CrdsValueLabel) (v : CrdsValue) : Prop :=
  ∃ e ∈ crds.table, e.1 = l ∧ e.2.value = v

variable (hash) in
/-- The value is stored, with this label. -/
def Accepts (crds : Crds) (v : CrdsValue) (l : CrdsValueLabel) : Prop :=
  l = v.label ∧ ∀ w, Has crds l w → beats hash v w = true

lemma has_iff_of_getElem? (hi : crds.table[i]? = some (label, entry))
    (v : CrdsValue) : Has crds label v ↔ v = entry.value := by
  constructor
  · rintro ⟨e, he, hl, rfl⟩
    obtain ⟨j, hj⟩ := mem_iff_getElem?.mp he
    obtain rfl := h.labels j i e _ hj hi hl
    rw [hi, some.injEq] at hj
    rw [← hj]
  rintro rfl
  exact ⟨_, mem_of_getElem? hi, rfl, rfl⟩

lemma overrides_eq (hi : crds.table[i]? = some (label, entry))
    (hlabel : v.label = label) : overrides hash v entry = some (beats hash v entry.value) := by
  obtain ⟨hl, hh⟩ := h.keyed _ (mem_of_getElem? hi)
  rw [overrides, if_pos (hlabel.trans hl), show entry.valueHash = hash entry.value from hh]
  rfl

/-- An insertion stores the value unless there is one that it does not override. -/
theorem insert_spec (v : CrdsValue) (now : ℕ) :
    ∃ crds' result, crds.insert hash v now = some (crds', result) ∧ Mirrors hash crds' ∧
      Extends crds crds' ∧ ∀ l w, Has crds' l w ↔
        Accepts hash crds v l ∧ w = v ∨ ¬Accepts hash crds v l ∧ Has crds l w := by
  rw [Crds.insert]
  generalize hvalue : VersionedCrdsValue.new hash v crds.cursor now = value
  have hv : value.value = v := by rw [← hvalue]; rfl
  have hordinal : value.ordinal = crds.cursor := by rw [← hvalue]; rfl
  have hhash : value.valueHash = hash value.value := by rw [← hvalue]; rfl
  rw [hv]
  cases hlookup : crds.lookup v.label with
  | none =>
    have hne := Crds.ne_of_lookup hlookup
    obtain ⟨crds', hinsert, h', htable, hcursor⟩ := h.insertVacant_spec (by rwa [hv]) hordinal hhash
    refine ⟨crds', .ok (), by rw [hinsert]; rfl, h', ⟨hcursor ▸ Nat.le_succ _, ?_⟩, fun l w ↦ ?_⟩
    · rw [htable, forall_mem_append, forall_mem_singleton]
      exact ⟨fun e he ↦ .inl ⟨e, he, rfl, rfl, rfl, rfl⟩, .inr hordinal.ge⟩
    have hnone : ∀ w, ¬Has crds v.label w := fun w ⟨e, he, hl, _⟩ ↦ hne e he hl
    have hhas : Has crds' l w ↔ Has crds l w ∨ l = v.label ∧ w = v := by
      rw [Has, htable, ← hv]
      constructor
      · rintro ⟨e, he, rfl, rfl⟩
        rcases mem_append.mp he with he | he
        · exact .inl ⟨e, he, rfl, rfl⟩
        rw [mem_singleton.mp he]
        exact .inr ⟨rfl, rfl⟩
      rintro (⟨e, he, rfl, rfl⟩ | ⟨rfl, rfl⟩)
      · exact ⟨e, mem_append_left _ he, rfl, rfl⟩
      · exact ⟨_, mem_append_right _ mem_cons_self, rfl, rfl⟩
    rw [hhas]
    rcases eq_or_ne l v.label with rfl | hl
    · have haccepts : Accepts hash crds v v.label := ⟨rfl, fun w hw ↦ absurd hw (hnone w)⟩
      rw [or_iff_right (hnone w), and_iff_right rfl, and_iff_right haccepts]
      exact (or_iff_left fun hc ↦ hc.1 haccepts).symm
    have hnot : ¬Accepts hash crds v l := fun hc ↦ hl hc.1
    rw [or_iff_left fun hc ↦ hl hc.1, and_iff_right hnot]
    exact (or_iff_right fun hc ↦ hnot hc.1).symm
  | some found =>
    obtain ⟨i, entry⟩ := found
    have hi := Crds.table_of_lookup hlookup
    have hlt := (List.getElem?_eq_some_iff.mp hi).1
    have hhas := h.has_iff_of_getElem? hi
    simp only [h.overrides_eq hi rfl, some_bind]
    by_cases hbeats : beats hash v entry.value = true
    · obtain ⟨crds', hinsert, h', htable, hcursor⟩ :=
        h.insertOccupied_spec hi (by rw [hv]) hordinal hhash now
      refine ⟨crds', .ok (), by rw [if_pos hbeats, hinsert]; rfl, h',
        ⟨hcursor ▸ Nat.le_succ _, ?_⟩, fun l w ↦ ?_⟩
      · rw [htable]
        exact forall_mem_set (.inr hordinal.ge) fun e he ↦ .inl ⟨e, he, rfl, rfl, rfl, rfl⟩
      rcases eq_or_ne l v.label with rfl | hl
      · have haccepts : Accepts hash crds v v.label := ⟨rfl, fun w hw ↦ by rwa [(hhas w).mp hw]⟩
        have hget : crds'.table[i]? = some (v.label, value) := by
          rw [htable, getElem?_set_self hlt, hv]
        rw [h'.has_iff_of_getElem? hget, hv, and_iff_right haccepts]
        exact (or_iff_left fun hc ↦ hc.1 haccepts).symm
      have hnot : ¬Accepts hash crds v l := fun hc ↦ hl hc.1
      rw [or_iff_right fun hc ↦ hnot hc.1, and_iff_right hnot, Has, htable]
      constructor
      · rintro ⟨e, he, rfl, rfl⟩
        rcases mem_set_cases he with rfl | ⟨j, -, hj⟩
        · exact absurd (by rw [hv]) hl
        · exact ⟨e, mem_of_getElem? hj, rfl, rfl⟩
      rintro ⟨e, he, rfl, rfl⟩
      obtain ⟨j, hj⟩ := mem_iff_getElem?.mp he
      have hne : i ≠ j := by
        rintro rfl
        rw [hi, some.injEq] at hj
        rw [← hj] at hl
        exact hl rfl
      exact ⟨e, mem_of_getElem? ((getElem?_set_ne hne).trans hj), rfl, rfl⟩
    have hnot : ∀ l, ¬Accepts hash crds v l := fun l hc ↦
      hbeats (hc.2 _ (by rw [hc.1]; exact (hhas _).mpr rfl))
    refine ⟨_, .error .insertFailed, by rw [if_neg hbeats]; rfl, ?_, ?_, fun l w ↦ ?_⟩
    · exact { h with }
    · exact .of_subset rfl fun e he ↦ he
    rw [or_iff_right fun hc ↦ hnot l hc.1, and_iff_right (hnot l)]
    rfl

/-! ### Removal -/

section

variable {init : List Entry} {last : Entry}

/-- A relation between the indexes of two stores, each with the key that it is by. -/
structure EachIndex
    (R : ∀ {κ : Type}, (Entry → Option κ) → (κ → ℕ → Prop) → (κ → ℕ → Prop) → Prop)
    (crds crds' : Crds) : Prop where
  entries : R (ordinalOf fun _ ↦ true) (fun o j ↦ crds.entries.get? o = some j)
    fun o j ↦ crds'.entries.get? o = some j
  votes : R (ordinalOf CrdsData.isVote) (fun o j ↦ crds.votes.get? o = some j)
    fun o j ↦ crds'.votes.get? o = some j
  epochSlots : R (ordinalOf CrdsData.isEpochSlots) (fun o j ↦ crds.epochSlots.get? o = some j)
    fun o j ↦ crds'.epochSlots.get? o = some j
  nodes : R nodeOf (fun _ j ↦ j ∈ crds.nodes) fun _ j ↦ j ∈ crds'.nodes
  records : R (fun e ↦ some e.2.value.pubkey) (RecordAt crds.records) (RecordAt crds'.records)
  shards : R crds.shards.keyOf crds.shards.At crds'.shards.At

lemma unindex_spec (hi : crds.table[i]? = some (label, entry)) (now : ℕ) : ∃ s crds₁,
      Crds.unindex { crds with table := crds.table.swapRemove i } i entry now = some crds₁ ∧
      crds₁.table = crds.table.swapRemove i ∧ crds₁.cursor = crds.cursor ∧
      EachIndex (fun _ index index₁ ↦ ∀ x j, index₁ x j ↔ index x j ∧ j ≠ i) crds crds₁ ∧
      crds.records.get? entry.value.pubkey = some s ∧
      crds₁.records = (if s.erase i = ∅ then
        crds.records.filterKeys fun key ↦ key ≠ entry.value.pubkey
        else crds.records.insert entry.value.pubkey (s.erase i)) ∧
      crds₁.shredVersions = (if s.erase i = ∅ then
        crds.shredVersions.filterKeys fun key ↦ key ≠ entry.value.pubkey
        else crds.shredVersions) ∧
      crds₁.shards.shardBits = crds.shards.shardBits ∧ crds₁.shards.Sized := by
  obtain ⟨s, hs, -⟩ := (h.records _ i).mpr ⟨_, hi, rfl⟩
  obtain ⟨shards, hremove, hbits, hsized, hat⟩ :=
    h.sized.remove_spec (e := (label, entry)) (h.shards.at_iff hi)
  refine ⟨s, _, by
    rw [Crds.unindex, hs, some_bind, hremove]
    rfl, ?_⟩
  refine ⟨rfl, rfl, ⟨?_, ?_, ?_, ?_, ?_, hat⟩, hs, rfl, rfl, hbits, hsized⟩
  · exact @ordinals_erase (fun _ ↦ true) _ (label, entry) i (h.entries.at_iff hi)
  · exact @ordinals_erase CrdsData.isVote _ (label, entry) i (h.votes.at_iff hi)
  · exact @ordinals_erase CrdsData.isEpochSlots _ (label, entry) i (h.epochSlots.at_iff hi)
  · exact @nodes_erase _ (label, entry) i (h.nodes.at_iff hi)
  · exact records_erase hs (h.records.at_iff hi)

omit h in
lemma moveIndex_spec {crds : Crds} {e : Entry} {size : ℕ} {s : Finset ℕ} (i : ℕ)
    (hat : EachIndex (fun k index _ ↦ ∀ x, index x size ↔ k e = some x) crds crds)
    (hs : crds.records.get? e.2.value.pubkey = some s) (hsized : crds.shards.Sized)
    (hfree : ∀ k, ¬crds.shards.At k i) :
    ∃ crds', crds.moveIndex size i e.2 = some crds' ∧ crds'.table = crds.table ∧
      crds'.cursor = crds.cursor ∧
      EachIndex (fun k index index' ↦ ∀ x j, index' x j ↔
        index x j ∧ j ≠ size ∨ k e = some x ∧ j = i) crds crds' ∧
      crds'.records = crds.records.insert e.2.value.pubkey (insert i (s.erase size)) ∧
      crds'.shredVersions = crds.shredVersions ∧
      crds'.shards.shardBits = crds.shards.shardBits ∧ crds'.shards.Sized := by
  obtain ⟨s₁, hremove, hbits₁, hsized₁, hat₁⟩ := hsized.remove_spec hat.shards
  have hfree₁ : ∀ k, ¬s₁.At k i := fun k hk ↦ hfree k ((hat₁ k i).mp hk).1
  obtain ⟨s₂, hinsert, hbits₂, hsized₂, hat₂⟩ := hsized₁.insert_spec hfree₁ e
  refine ⟨_, by
    rw [Crds.moveIndex, hremove, some_bind, hinsert, some_bind, hs]
    rfl, ?_⟩
  refine ⟨rfl, rfl, ⟨?_, ?_, ?_, ?_, ?_, fun k j ↦ ?_⟩, rfl, rfl, hbits₂.trans hbits₁, hsized₂⟩
  · exact ordinals_move hat.entries
  · exact ordinals_move hat.votes
  · exact ordinals_move hat.epochSlots
  · exact nodes_move hat.nodes
  · exact records_move hs hat.records
  · rw [hat₂, hat₁, CrdsShards.keyOf_eq hbits₁]

omit h in
lemma mem_swapRemove (htable : crds.table = init ++ [last]) (he : e ∈ crds.table.swapRemove i) :
    ∃ j ≠ i, crds.table[j]? = some e := by
  obtain ⟨j, hj⟩ := mem_iff_getElem?.mp he
  rw [htable] at hj ⊢
  obtain ⟨hj, hne⟩ := getElem?_of_swapRemove hj
  exact ⟨_, hne, hj⟩

lemma labels_swapRemove (htable : crds.table = init ++ [last]) :
    ((crds.table.swapRemove i).map fst).Nodup := by
  have hnodup := labels_iff_nodup.mp h.labels
  rw [htable, map_append] at hnodup
  obtain ⟨hinit, -, hlast⟩ := nodup_append'.mp hnodup
  rw [htable, swapRemove_concat, map_set]
  exact hinit.set fun hmem ↦ hlast hmem mem_cons_self

lemma remove_spec (key : CrdsValueLabel) (now : ℕ) :
    ∃ crds', crds.remove key now = some crds' ∧ Mirrors hash crds' ∧ crds'.cursor = crds.cursor ∧
      ∀ e ∈ crds'.table, e ∈ crds.table := by
  rw [Crds.remove]
  cases hlookup : crds.lookup key with
  | none => exact ⟨crds, rfl, h, rfl, fun e he ↦ he⟩
  | some found =>
    obtain ⟨i, entry⟩ := found
    have hi := Crds.table_of_lookup hlookup
    have hlt := (List.getElem?_eq_some_iff.mp hi).1
    obtain ⟨init, last, htable⟩ := (eq_nil_or_concat crds.table).resolve_left
      (ne_nil_of_length_pos (Nat.zero_lt_of_lt hlt))
    rw [concat_eq_append] at htable
    obtain ⟨s, crds₁, hunindex, htable₁, hcursor₁, h₁, hs, hrec₁, hversions₁, hbits₁, hsized₁⟩ :=
      h.unindex_spec hi now
    have hle : i ≤ init.length := by
      rw [htable, length_append] at hlt
      exact Nat.le_of_lt_succ hlt
    have hsize : crds₁.table.length = init.length := by
      rw [htable₁, htable, swapRemove_concat, length_set]
    have hlast : crds.table[init.length]? = some last := by
      rw [htable, getElem?_concat_length]
    have hmem : ∀ e ∈ crds₁.table, ∃ j ≠ i, crds.table[j]? = some e := fun e he ↦
      mem_swapRemove htable (htable₁ ▸ he)
    have hold : ∀ e ∈ crds₁.table, e ∈ crds.table := fun e he ↦ by
      obtain ⟨j, -, hj⟩ := hmem e he
      exact mem_of_getElem? hj
    -- the shred versions that stay
    have hversions : ∀ e ∈ crds₁.table, ∀ info, e.2.value.data = .contactInfo info →
        crds₁.shredVersions.get? info.id = some info.shredVersion := by
      intro e he info hinfo
      obtain ⟨j, hne, hj⟩ := hmem e he
      have hold := h.shredVersions e (mem_of_getElem? hj) info hinfo
      rw [hversions₁]
      split_ifs with hempty
      · rw [SortedMap.get?_filterKeys_eq_some, decide_eq_true_eq]
        refine ⟨hold, fun heq ↦ ?_⟩
        obtain ⟨s', hs', hjs⟩ := (h.records _ j).mpr ⟨e, hj, rfl⟩
        rw [(label_of_contactInfo hinfo).2, heq, hs] at hs'
        cases hs'
        exact absurd (Finset.mem_erase.mpr ⟨hne, hjs⟩) (hempty ▸ Finset.notMem_empty j)
      · exact hold
    have hnonempty : ∀ key s', crds₁.records.get? key = some s' → s' ≠ ∅ := by
      intro key s' hs'
      rw [hrec₁] at hs'
      split_ifs at hs' with hempty
      · exact h.recordsNonempty key s' (SortedMap.get?_filterKeys_eq_some.mp hs').1
      rw [SortedMap.get?_insert] at hs'
      split_ifs at hs'
      · rwa [← some.inj hs']
      · exact h.recordsNonempty key s' hs'
    have hkeys : ∀ key version, crds₁.shredVersions.get? key = some version →
        ∃ s', crds₁.records.get? key = some s' := by
      intro key version hkey
      rw [hversions₁] at hkey
      rw [hrec₁]
      split_ifs at hkey ⊢
      · obtain ⟨hkey, hne⟩ := SortedMap.get?_filterKeys_eq_some.mp hkey
        obtain ⟨s', hs'⟩ := h.shredKeys key version hkey
        exact ⟨s', SortedMap.get?_filterKeys_eq_some.mpr ⟨hs', hne⟩⟩
      obtain ⟨s', hs'⟩ := h.shredKeys key version hkey
      rw [SortedMap.get?_insert]
      split_ifs
      · exact ⟨_, rfl⟩
      · exact ⟨s', hs'⟩
    simp only [hunindex, some_bind]
    rcases Nat.lt_or_eq_of_le hle with hlt' | heq
    · -- the last entry has moved to the place of the one that is removed
      have hne : init.length ≠ i := hlt'.ne'
      have hmoved : crds₁.table[i]? = some last := by
        rw [htable₁, htable, swapRemove_concat, getElem?_set_self hlt']
      have hat : ∀ {κ : Type} {k : Entry → Option κ} {index index₁ : κ → ℕ → Prop},
          Indexes k crds.table index → (∀ x j, index₁ x j ↔ index x j ∧ j ≠ i) →
          ∀ x, index₁ x init.length ↔ k last = some x := by
        intro κ k index index₁ hindex hindex₁ x
        rw [hindex₁, hindex.at_iff hlast]
        exact and_iff_left hne
      obtain ⟨s', hs', -⟩ := (hat h.records h₁.records last.2.value.pubkey).mpr rfl
      obtain ⟨crds₂, hmove, htable₂, hcursor₂, h₂, hrec₂, hversions₂, hbits₂, hsized₂⟩ :=
        @moveIndex_spec crds₁ last init.length s' i
          ⟨hat h.entries h₁.entries, hat h.votes h₁.votes, hat h.epochSlots h₁.epochSlots,
            hat h.nodes h₁.nodes, hat h.records h₁.records,
            by rw [CrdsShards.keyOf_eq hbits₁]; exact hat h.shards h₁.shards⟩ hs' hsized₁
          (fun k hk ↦ ((h₁.shards k i).mp hk).2 rfl)
      rw [hsize, if_pos hlt', hmoved, some_bind, hmove]
      have hkeep : ∀ {κ : Type} {k : Entry → Option κ} {index index₁ index₂ : κ → ℕ → Prop},
          Indexes k crds.table index → (∀ x j, index₁ x j ↔ index x j ∧ j ≠ i) →
          (∀ x j, index₂ x j ↔ index₁ x j ∧ j ≠ init.length ∨ k last = some x ∧ j = i) →
          Indexes k crds₂.table index₂ := by
        intro κ k index index₁ index₂ hindex hindex₁ hindex₂
        rw [htable₂, htable₁, htable]
        exact (htable ▸ hindex).swapRemove hle hindex₁ (fun _ ↦ hindex₂) fun heq ↦
          absurd heq hlt'.ne
      refine ⟨crds₂, rfl, ?_, hcursor₂.trans hcursor₁, fun e he ↦ hold e (htable₂ ▸ he)⟩
      exact {
        labels := by
          rw [htable₂, htable₁]
          exact labels_iff_nodup.mpr (h.labels_swapRemove htable)
        keyed := fun e he ↦ h.keyed e (hold e (htable₂ ▸ he))
        below := fun e he ↦ (hcursor₂.trans hcursor₁) ▸ h.below e (hold e (htable₂ ▸ he))
        entries := hkeep h.entries h₁.entries h₂.entries
        votes := hkeep h.votes h₁.votes h₂.votes
        epochSlots := hkeep h.epochSlots h₁.epochSlots h₂.epochSlots
        nodes := hkeep h.nodes h₁.nodes h₂.nodes
        records := hkeep h.records h₁.records h₂.records
        recordsNonempty := by
          intro key t ht
          rw [hrec₂, SortedMap.get?_insert] at ht
          split_ifs at ht
          · rw [← some.inj ht]
            exact Finset.insert_ne_empty _ _
          · exact hnonempty key t ht
        sized := hsized₂
        shards := by
          rw [CrdsShards.keyOf_eq (hbits₂.trans hbits₁)]
          refine hkeep h.shards h₁.shards ?_
          rw [← CrdsShards.keyOf_eq hbits₁]
          exact h₂.shards
        shredKeys := by
          intro key version hkey
          rw [hversions₂] at hkey
          rw [hrec₂, SortedMap.get?_insert]
          split_ifs
          · exact ⟨_, rfl⟩
          · exact hkeys key version hkey
        shredVersions := fun e he info hinfo ↦ hversions₂ ▸ hversions e (htable₂ ▸ he) info hinfo }
    have hnot : ¬i < init.length := not_lt.mpr heq.ge
    rw [hsize, if_neg hnot]
    have hkeep : ∀ {κ : Type} {k : Entry → Option κ} {index index₁ : κ → ℕ → Prop},
        Indexes k crds.table index → (∀ x j, index₁ x j ↔ index x j ∧ j ≠ i) →
        Indexes k crds₁.table index₁ := by
      intro κ k index index₁ hindex hindex₁
      rw [htable₁, htable]
      exact (htable ▸ hindex).swapRemove hle hindex₁ (fun hlt ↦ absurd hlt hnot) fun _ _ _ ↦ Iff.rfl
    exact ⟨crds₁, rfl, {
      labels := by
        rw [htable₁]
        exact labels_iff_nodup.mpr (h.labels_swapRemove htable)
      keyed := fun e he ↦ h.keyed e (hold e he)
      below := fun e he ↦ hcursor₁ ▸ h.below e (hold e he)
      entries := hkeep h.entries h₁.entries
      votes := hkeep h.votes h₁.votes
      epochSlots := hkeep h.epochSlots h₁.epochSlots
      nodes := hkeep h.nodes h₁.nodes
      records := hkeep h.records h₁.records
      recordsNonempty := hnonempty
      sized := hsized₁
      shards := by
        rw [CrdsShards.keyOf_eq hbits₁]
        exact hkeep h.shards h₁.shards
      shredKeys := hkeys
      shredVersions := hversions }, hcursor₁, hold⟩

end

/-! ### Timestamps -/

lemma touch_spec (now : ℕ) (hi : i < crds.table.length) :
    ∃ table, Crds.touch now crds.table i = some table ∧ Mirrors hash { crds with table := table } ∧
      table.length = crds.table.length ∧ ∀ e ∈ table, ∃ e₀ ∈ crds.table, SameButTime e e₀ := by
  have hget := getElem?_eq_getElem hi
  generalize crds.table[i] = e₀ at hget
  have hmem := mem_of_getElem? hget
  refine ⟨_, by rw [Crds.touch, hget]; rfl, ?_, length_set .., ?_⟩
  · exact {
      labels := labels_iff_nodup.mpr (h.labels_set hget rfl)
      keyed := forall_mem_set (h.keyed e₀ hmem) h.keyed
      below := forall_mem_set (h.below e₀ hmem) h.below
      entries := h.entries.set_of_key_eq hget rfl
      votes := h.votes.set_of_key_eq hget rfl
      epochSlots := h.epochSlots.set_of_key_eq hget rfl
      nodes := h.nodes.set_of_key_eq hget rfl
      records := h.records.set_of_key_eq hget rfl
      recordsNonempty := h.recordsNonempty
      sized := h.sized
      shards := h.shards.set_of_key_eq hget rfl
      shredKeys := h.shredKeys
      shredVersions := forall_mem_set (h.shredVersions e₀ hmem) h.shredVersions }
  · exact forall_mem_set ⟨e₀, hmem, rfl, rfl, rfl, rfl⟩ fun e he ↦ ⟨e, he, rfl, rfl, rfl, rfl⟩

lemma updateRecordTimestamp_spec (pubkey : Pubkey) (now : ℕ) :
    ∃ crds', crds.updateRecordTimestamp pubkey now = some crds' ∧ Mirrors hash crds' ∧
      crds'.cursor = crds.cursor ∧ ∀ e ∈ crds'.table, ∃ e₀ ∈ crds.table, SameButTime e e₀ := by
  rw [Crds.updateRecordTimestamp]
  cases hlookup : crds.lookup (.contactInfo pubkey) with
  | some found =>
    obtain ⟨i, entry⟩ := found
    have hlt := (List.getElem?_eq_some_iff.mp (Crds.table_of_lookup hlookup)).1
    obtain ⟨table, htouch, h', -, hsame⟩ := h.touch_spec now hlt
    exact ⟨_, by simp only [htouch, map_some], h', rfl, hsame⟩
  | none =>
    cases hrecords : crds.records.get? pubkey with
    | none => exact ⟨crds, rfl, h, rfl, fun e he ↦ ⟨e, he, rfl, rfl, rfl, rfl⟩⟩
    | some indices =>
      -- the positions in the loop are those of the table
      obtain ⟨table, hloop, h', -, hsame⟩ := @exists_foldlM_eq_some _ _
        (indices.sort (· ≤ ·)) (Crds.touch now)
          (fun table ↦ Mirrors hash { crds with table := table } ∧
          table.length = crds.table.length ∧ ∀ e ∈ table, ∃ e₀ ∈ crds.table, SameButTime e e₀)
        crds.table (fun i hi table ⟨htable, hlen, hsame⟩ ↦ by
          have hlt := h.records.lt_length ⟨indices, hrecords, (Finset.mem_sort _).mp hi⟩
          obtain ⟨table', htouch, h', hlen', hsame'⟩ :=
            htable.touch_spec now (show i < table.length by rw [hlen]; exact hlt)
          refine ⟨table', htouch, h', hlen'.trans hlen, fun e he ↦ ?_⟩
          obtain ⟨e₁, he₁, hs₁⟩ := hsame' e he
          obtain ⟨e₂, he₂, hs₂⟩ := hsame e₁ he₁
          exact ⟨e₂, he₂, hs₁.1.trans hs₂.1, hs₁.2.1.trans hs₂.2.1, hs₁.2.2.1.trans hs₂.2.2.1,
            hs₁.2.2.2.trans hs₂.2.2.2⟩)
        ⟨h, rfl, fun e he ↦ ⟨e, he, rfl, rfl, rfl, rfl⟩⟩
      exact ⟨_, by simp only [hloop, map_some], h', rfl, hsame⟩

/-! ### Trimming -/

lemma drop_spec (size : ℕ) (keep : List Pubkey) (stakes : SortedMap Pubkey ℕ) (now : ℕ) :
    ∃ crds' result, crds.drop size keep stakes now = some (crds', result) ∧ Mirrors hash crds' ∧
      crds'.cursor = crds.cursor ∧ ∀ e ∈ crds'.table, e ∈ crds.table := by
  rw [Crds.drop]
  split_ifs
  · exact ⟨crds, _, rfl, h, rfl, fun e he ↦ he⟩
  generalize hkeys : (((crds.records.entries.map fun e ↦
    toLex ((stakes.get? e.1).getD 0, e.1)).mergeSort (· ≤ ·)).take size).map
      (fun k ↦ (ofLex k).2) = keys
  have hmem : ∀ k ∈ keys.filter fun k ↦ k ∉ keep, ∃ s, crds.records.get? k = some s := by
    intro k hk
    rw [mem_filter, ← hkeys, mem_map] at hk
    obtain ⟨⟨lex, hlex, rfl⟩, -⟩ := hk
    have hlex := mem_of_mem_take hlex
    rw [mem_mergeSort, mem_map] at hlex
    obtain ⟨e, he, rfl⟩ := hlex
    exact ⟨e.2, SortedMap.get?_eq_some.mpr he⟩
  obtain ⟨indices, hindices⟩ := exists_mapM_eq_some hmem
  have hpositions : ∀ i ∈ indices.flatMap fun s ↦ s.sort (· ≤ ·),
      ∃ l, (crds.table[i]?).map fst = some l := by
    intro i hi
    obtain ⟨s, hs, his⟩ := mem_flatMap.mp hi
    obtain ⟨k, -, hk⟩ := (mem_iff_of_mapM_eq_some hindices).mp hs
    have hlt := h.records.lt_length ⟨s, hk, (Finset.mem_sort _).mp his⟩
    exact ⟨_, by rw [getElem?_eq_getElem hlt]; rfl⟩
  obtain ⟨labels, hlabels⟩ := exists_mapM_eq_some hpositions
  obtain ⟨crds', hloop, h', hcursor, hsub⟩ := @exists_foldlM_eq_some _ _ labels
    (fun crds key ↦ crds.remove key now)
    (fun crds' ↦ Mirrors hash crds' ∧ crds'.cursor = crds.cursor ∧
      ∀ e ∈ crds'.table, e ∈ crds.table) crds
    (fun key _ crds₁ ⟨h₁, hcursor₁, hsub₁⟩ ↦ by
      obtain ⟨crds₂, hremove, h₂, hcursor₂, hsub₂⟩ := h₁.remove_spec key now
      exact ⟨crds₂, hremove, h₂, hcursor₂.trans hcursor₁, fun e he ↦ hsub₁ e (hsub₂ e he)⟩)
    ⟨h, rfl, fun e he ↦ he⟩
  refine ⟨crds', .ok labels.length, ?_, h', hcursor, hsub⟩
  simp only [hkeys, hindices, some_bind, hlabels, hloop]
  rfl

end Mirrors

/-! ### Runs -/

inductive Operation where
  | insert (value : CrdsValue) (now : ℕ)
  | remove (key : CrdsValueLabel) (now : ℕ)
  | trim (cap : ℕ) (keep : List Pubkey) (stakes : SortedMap Pubkey ℕ) (now : ℕ)
  | updateRecordTimestamp (pubkey : Pubkey) (now : ℕ)

variable (hash) in
def Crds.step (crds : Crds) : Operation → Option Crds
  | .insert value now => (crds.insert hash value now).map fst
  | .remove key now => crds.remove key now
  | .trim cap keep stakes now => (crds.trim cap keep stakes now).map fst
  | .updateRecordTimestamp pubkey now => crds.updateRecordTimestamp pubkey now

lemma Mirrors.step_spec (h : Mirrors hash crds) (op : Operation) :
    ∃ crds', crds.step hash op = some crds' ∧ Mirrors hash crds' ∧ Extends crds crds' := by
  cases op with
  | insert value now =>
    obtain ⟨crds', result, hinsert, h', hext, -⟩ := h.insert_spec value now
    exact ⟨crds', by rw [Crds.step, hinsert]; rfl, h', hext⟩
  | remove key now =>
    obtain ⟨crds', hremove, h', hcursor, hsub⟩ := h.remove_spec key now
    exact ⟨crds', hremove, h', .of_subset hcursor hsub⟩
  | trim cap keep stakes now =>
    rw [Crds.step, Crds.trim]
    split_ifs
    · obtain ⟨crds', result, hdrop, h', hcursor, hsub⟩ := h.drop_spec _ keep stakes now
      exact ⟨crds', by rw [hdrop]; rfl, h', .of_subset hcursor hsub⟩
    · exact ⟨crds, rfl, h, .of_subset rfl fun e he ↦ he⟩
  | updateRecordTimestamp pubkey now =>
    obtain ⟨crds', hupdate, h', hcursor, hsame⟩ := h.updateRecordTimestamp_spec pubkey now
    exact ⟨crds', hupdate, h', hcursor.ge, fun e he ↦ .inl (hsame e he)⟩

lemma Mirrors.run_spec (h : Mirrors hash crds) (ops : List Operation) :
    ∃ crds', ops.foldlM (Crds.step hash) crds = some crds' ∧ Mirrors hash crds' ∧
      Extends crds crds' :=
  exists_foldlM_eq_some (fun op _ crds₁ ⟨h₁, hext⟩ ↦ by
    obtain ⟨crds₂, hstep, h₂, hext₂⟩ := h₁.step_spec op
    exact ⟨crds₂, hstep, h₂, hext.trans hext₂⟩) ⟨h, .of_subset rfl fun _ he ↦ he⟩

/-! ### Queries -/

/-- The values of some kinds since a cursor, each once and in the order of insertion. -/
def SinceCursor (crds : Crds) (p : CrdsData → Bool) (cursor : ℕ)
    (result : Option (List VersionedCrdsValue)) : Prop :=
  ∃ values, result = some values ∧ values.Pairwise (fun v w ↦ v.ordinal < w.ordinal) ∧
    ∀ v, v ∈ values ↔ v ∈ crds.table.map snd ∧ p v.value.data = true ∧ cursor ≤ v.ordinal

lemma valuesSince_spec (hm : Indexes (ordinalOf p) crds.table fun o i ↦ m.get? o = some i)
    (cursor : ℕ) : SinceCursor crds p cursor (crds.valuesSince m cursor) := by
  have hget : ∀ {o j}, (o, j) ∈ m.entries → ∃ e, crds.table[j]? = some e ∧ p e.2.value.data = true ∧
      e.2.ordinal = o := by
    intro o j hmem
    obtain ⟨e, he, ho⟩ := (hm o j).mp (SortedMap.get?_eq_some.mpr hmem)
    rw [ordinalOf] at ho
    split_ifs at ho with hp
    exact ⟨e, he, hp, some.inj ho⟩
  have hsome : ∀ x ∈ m.entries.filter fun e ↦ cursor ≤ e.1,
      ∃ v, (crds.table[x.2]?).map snd = some v := by
    intro x hx
    obtain ⟨e, he, -⟩ := hget (mem_filter.mp hx).1
    exact ⟨e.2, by rw [he]; rfl⟩
  obtain ⟨values, hvalues⟩ := exists_mapM_eq_some hsome
  refine ⟨values, hvalues, ?_, fun v ↦ ?_⟩
  · have hordinals : values.map VersionedCrdsValue.ordinal =
        (m.entries.filter fun e ↦ cursor ≤ e.1).map fst := by
      refine map_eq_of_mapM_eq_some hvalues fun x hx v hv ↦ ?_
      obtain ⟨e, he, -, ho⟩ := hget (mem_filter.mp hx).1
      rw [he, map_some, some.injEq] at hv
      rw [← hv, ho]
    have hsorted := (m.sorted.filter fun e ↦ decide (cursor ≤ e.1))
    rw [← pairwise_map, hordinals, pairwise_map]
    exact hsorted
  rw [mem_iff_of_mapM_eq_some hvalues, mem_map]
  constructor
  · rintro ⟨x, hx, hv⟩
    obtain ⟨hmem, hle⟩ := mem_filter.mp hx
    obtain ⟨e, he, hp, ho⟩ := hget hmem
    rw [he, map_some, some.injEq] at hv
    subst hv
    exact ⟨⟨e, mem_of_getElem? he, rfl⟩, hp, ho.symm ▸ of_decide_eq_true hle⟩
  rintro ⟨⟨e, he, rfl⟩, hp, hle⟩
  obtain ⟨j, hj⟩ := mem_iff_getElem?.mp he
  have ho : m.get? e.2.ordinal = some j := (hm _ _).mpr ⟨e, hj, if_pos hp⟩
  refine ⟨(e.2.ordinal, j), mem_filter.mpr ⟨SortedMap.get?_eq_some.mp ho, ?_⟩, ?_⟩
  · exact decide_eq_true hle
  rw [hj]
  rfl

/-- **The indexes mirror the table.** After any sequence of operations nothing has panicked, and
each index has exactly the positions of the values that it is an index of. The ordinals are
distinct. The queries return the values whose ordinal is not below a cursor, each once and in order;
for the cursor of an earlier store these are the values that are there and have not been there then.
An insertion puts the value in if it is accepted, and changes no other. -/
theorem indexes_mirror_table (hash : CrdsValue → Hash) (before ops : List Operation) :
    ∃ crds₀ crds, before.foldlM (Crds.step hash) .default = some crds₀ ∧
      (before ++ ops).foldlM (Crds.step hash) .default = some crds ∧ Mirrors hash crds ∧
      (∀ (i j : ℕ) (e e' : Entry), crds.table[i]? = some e → crds.table[j]? = some e' →
        e.2.ordinal = e'.2.ordinal → i = j) ∧
      (∀ cursor, SinceCursor crds CrdsData.isVote cursor (crds.getVotes cursor) ∧
        SinceCursor crds CrdsData.isEpochSlots cursor (crds.getEpochSlots cursor) ∧
        SinceCursor crds (fun _ ↦ true) cursor (crds.getEntries cursor)) ∧
      (∀ e ∈ crds.table, crds₀.cursor ≤ e.2.ordinal ↔ ¬∃ e₀ ∈ crds₀.table, SameButTime e e₀) ∧
      ∀ v now, ∃ crds' result, crds.insert hash v now = some (crds', result) ∧
        ∀ l w, Mirrors.Has crds' l w ↔ Mirrors.Accepts hash crds v l ∧ w = v ∨
          ¬Mirrors.Accepts hash crds v l ∧ Mirrors.Has crds l w := by
  obtain ⟨crds₀, hrun₀, h₀, -⟩ := (@mirrors_default hash).run_spec before
  obtain ⟨crds, hrun, h, hext⟩ := h₀.run_spec ops
  refine ⟨crds₀, crds, hrun₀, ?_, h, fun i j e e' hi hj heq ↦ ?_, fun cursor ↦ ⟨?_, ?_, ?_⟩,
    fun e he ↦ ⟨?_, fun hnew ↦ (hext.2 e he).resolve_left hnew⟩, fun v now ↦ ?_⟩
  · rw [foldlM_append, hrun₀]
    exact hrun
  · have hi' : crds.entries.get? e.2.ordinal = some i := (h.entries _ i).mpr ⟨e, hi, rfl⟩
    have hj' : crds.entries.get? e'.2.ordinal = some j := (h.entries _ j).mpr ⟨e', hj, rfl⟩
    rw [heq, hj'] at hi'
    exact (some.inj hi').symm
  · exact valuesSince_spec h.votes cursor
  · exact valuesSince_spec h.epochSlots cursor
  · exact valuesSince_spec h.entries cursor
  · rintro hle ⟨e₀, he₀, hsame⟩
    exact absurd (h₀.below e₀ he₀) (not_lt.mpr (hsame.2.2.1 ▸ hle))
  obtain ⟨crds', result, hinsert, -, -, hhas⟩ := h.insert_spec v now
  exact ⟨crds', result, hinsert, hhas⟩

end

end Renec.Gossip
