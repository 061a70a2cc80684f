import Renec.Gossip.Crds

/-!
# The indexes mirror the table

`Mirrors` says of each index of the store that it has exactly the positions of the values it is an
index of, by `Indexes`.
-/

namespace Renec.Gossip

open SortedMap List Finset

open Option

abbrev Entry := CrdsValueLabel × VersionedCrdsValue

/-! ### Indexes by ordinal -/

/-- The ordinal of an entry of some kinds. -/
def ordinalOf (p : CrdsData → Bool) (e : Entry) : Option ℕ :=
  if p e.2.value.data then some e.2.ordinal else none

section

variable {p : CrdsData → Bool} {m : SortedMap ℕ ℕ} {e : Entry} {i o j : ℕ}

lemma ordinals_erase (he : ∀ o, m.get? o = some i ↔ ordinalOf p e = some o) (o j : ℕ) :
    (if p e.2.value.data then m.filterKeys fun ordinal ↦ ordinal ≠ e.2.ordinal else m).get? o =
      some j ↔ m.get? o = some j ∧ j ≠ i := by
  have hi := he o
  rw [ordinalOf] at hi
  split_ifs at hi ⊢ with hp
  · have hself : m.get? e.2.ordinal = some i := by
      rw [he, ordinalOf, if_pos hp]
    rw [get?_filterKeys_eq_some, decide_eq_true_eq]
    refine and_congr_right fun hj ↦ not_congr ⟨?_, ?_⟩
    · rintro rfl
      exact some.inj (hj.symm.trans hself)
    rintro rfl
    exact (some.inj (hi.mp hj)).symm
  refine ⟨fun hj ↦ ⟨hj, ?_⟩, fun h ↦ h.1⟩
  rintro rfl
  exact absurd (hi.mp hj) nofun

lemma ordinals_add (hfresh : ∀ j, m.get? e.2.ordinal ≠ some j) (o j : ℕ) :
    (if p e.2.value.data then m.insert e.2.ordinal i else m).get? o = some j ↔
      m.get? o = some j ∨ ordinalOf p e = some o ∧ j = i := by
  rw [ordinalOf]
  split_ifs with hp
  · rw [get?_insert]
    split_ifs with ho
    · rw [ho, or_iff_right (hfresh j), some.injEq, some.injEq, eq_comm]
      exact (and_iff_right rfl).symm
    rw [some.injEq]
    exact (or_iff_left fun h ↦ ho h.1.symm).symm
  · exact (or_iff_left fun h ↦ nomatch h.1).symm

lemma ordinals_move {size : ℕ} (he : ∀ o, m.get? o = some size ↔ ordinalOf p e = some o)
    (o j : ℕ) :
    (if p e.2.value.data then m.insert e.2.ordinal i else m).get? o = some j ↔
      m.get? o = some j ∧ j ≠ size ∨ ordinalOf p e = some o ∧ j = i := by
  have ho := he o
  rw [ordinalOf] at ho ⊢
  split_ifs at ho ⊢ with hp
  · rw [get?_insert]
    rw [some.injEq] at ho ⊢
    split_ifs with heq
    · rw [ho.mpr heq.symm, some.injEq, some.injEq, or_iff_right fun h ↦ h.2 h.1.symm,
        and_iff_right heq.symm, eq_comm]
    rw [or_iff_left fun h ↦ heq h.1.symm, iff_self_and]
    rintro hj rfl
    exact heq (ho.mp hj).symm
  refine ⟨fun hj ↦ .inl ⟨hj, ?_⟩, fun h ↦ h.elim (fun h ↦ h.1) fun h ↦ nomatch h.1⟩
  rintro rfl
  exact absurd (ho.mp hj) nofun

end

/-! ### Nodes -/

/-- The entry is a contact info. -/
def nodeOf (e : Entry) : Option Unit := if e.2.value.data.isContactInfo then some () else none

section

variable {nodes : Finset ℕ} {e : Entry} {i : ℕ}

lemma nodes_erase (he : ∀ u, i ∈ nodes ↔ nodeOf e = some u) (_u : Unit) (j : ℕ) :
    j ∈ (if e.2.value.data.isContactInfo then nodes.erase i else nodes) ↔ j ∈ nodes ∧ j ≠ i := by
  have hi := he ()
  rw [nodeOf] at hi
  split_ifs at hi ⊢
  · rw [mem_erase, and_comm]
  refine ⟨fun hj ↦ ⟨hj, ?_⟩, fun h ↦ h.1⟩
  rintro rfl
  exact absurd (hi.mp hj) nofun

lemma nodes_add (u : Unit) (j : ℕ) :
    j ∈ (if e.2.value.data.isContactInfo then insert i nodes else nodes) ↔
      j ∈ nodes ∨ nodeOf e = some u ∧ j = i := by
  rw [nodeOf]
  split_ifs
  · rw [Finset.mem_insert, or_comm, and_iff_right rfl]
  · exact (or_iff_left fun h ↦ nomatch h.1).symm

lemma nodes_move {size : ℕ} (he : ∀ u, size ∈ nodes ↔ nodeOf e = some u) (u : Unit) (j : ℕ) :
    j ∈ (if e.2.value.data.isContactInfo then insert i (nodes.erase size) else nodes) ↔
      j ∈ nodes ∧ j ≠ size ∨ nodeOf e = some u ∧ j = i := by
  have herase := nodes_erase he u j
  have hadd := @nodes_add (if e.2.value.data.isContactInfo then nodes.erase size else nodes) e i u j
  rw [herase] at hadd
  rw [← hadd]
  split_ifs <;> rfl

end

/-! ### Records -/

def RecordAt (records : SortedMap Pubkey (Finset ℕ)) (key : Pubkey) (i : ℕ) : Prop :=
  ∃ s, records.get? key = some s ∧ i ∈ s

section

variable {records : SortedMap Pubkey (Finset ℕ)} {key : Pubkey} {i : ℕ}

lemma recordAt_iff : RecordAt records key i ↔ i ∈ (records.get? key).getD ∅ := by
  rw [RecordAt]
  cases records.get? key <;> simp

lemma records_add (k : Pubkey) (j : ℕ) :
    RecordAt (records.insert key (insert i ((records.get? key).getD ∅))) k j ↔
      RecordAt records k j ∨ some key = some k ∧ j = i := by
  rw [recordAt_iff, recordAt_iff, get?_insert, some.injEq]
  split_ifs with hk
  · rw [hk, and_iff_right rfl, getD_some, Finset.mem_insert, or_comm]
  · exact (or_iff_left fun h ↦ hk h.1.symm).symm

variable {s : Finset ℕ}

lemma records_erase (hs : records.get? key = some s)
    (he : ∀ k, RecordAt records k i ↔ some key = some k) (k : Pubkey) (j : ℕ) :
    RecordAt (if s.erase i = ∅ then records.filterKeys fun k ↦ k ≠ key
      else records.insert key (s.erase i)) k j ↔ RecordAt records k j ∧ j ≠ i := by
  rcases eq_or_ne k key with rfl | hk
  · rw [recordAt_iff, recordAt_iff, hs, getD_some, and_comm, ← mem_erase]
    split_ifs with hempty
    · have hnone : (records.filterKeys fun k' ↦ k' ≠ k).get? k = none := by
        simp [eq_none_iff_forall_ne_some, get?_filterKeys_eq_some]
      rw [hnone, hempty]
      rfl
    · rw [get?_insert_self, getD_some]
  have hget : (if s.erase i = ∅ then records.filterKeys fun k ↦ k ≠ key
      else records.insert key (s.erase i)).get? k = records.get? k := by
    split_ifs
    · exact Option.ext fun s ↦ by simp [get?_filterKeys_eq_some, hk]
    · exact get?_insert_of_ne hk
  rw [RecordAt, hget]
  refine ⟨fun hj ↦ ⟨hj, ?_⟩, fun h ↦ h.1⟩
  rintro rfl
  exact hk (some.inj ((he k).mp hj)).symm

lemma records_move {size : ℕ} (hs : records.get? key = some s)
    (he : ∀ k, RecordAt records k size ↔ some key = some k) (k : Pubkey) (j : ℕ) :
    RecordAt (records.insert key (insert i (s.erase size))) k j ↔
      RecordAt records k j ∧ j ≠ size ∨ some key = some k ∧ j = i := by
  rw [RecordAt, get?_insert]
  split_ifs with hk
  · rw [recordAt_iff, hk, hs, getD_some, and_iff_right rfl, and_comm, ← mem_erase, or_comm,
      ← Finset.mem_insert]
    simp
  refine ⟨fun hj ↦ .inl ⟨hj, ?_⟩, fun h ↦ h.elim (fun h ↦ h.1) fun h ↦ ?_⟩
  · rintro rfl
    exact hk (some.inj ((he k).mp hj)).symm
  · exact absurd (some.inj h.1).symm hk

end

/-! ### Shards -/

lemma foldl_bytes_lt {byte : ℕ → ℕ} (hbyte : ∀ i, byte i < 256) (n : ℕ) :
    (List.range n).foldl (fun word i ↦ word + byte i * 256 ^ i) 0 < 256 ^ n := by
  induction n with
  | zero => exact Nat.one_pos
  | succ n ih =>
    rw [range_succ, foldl_append, foldl_cons, foldl_nil]
    have hmul := Nat.mul_le_mul_right (256 ^ n) (Nat.le_of_lt_succ (hbyte n))
    rw [Nat.pow_succ]
    omega

lemma hashAsU64_lt (hash : Hash) : hashAsU64 hash < 2 ^ 64 :=
  lt_of_lt_of_eq (foldl_bytes_lt (fun _ ↦ Nat.mod_lt _ (by omega)) 8) (by norm_num)

namespace CrdsShards

/-- The index of the shards. -/
def At (s : CrdsShards) (k : ℕ × ℕ) (i : ℕ) : Prop :=
  ∃ shard, s.shards[k.1]? = some shard ∧ shard.get? i = some k.2

/-- The shards have a shard for every hash. -/
def Sized (s : CrdsShards) : Prop := s.shardBits ≤ 64 ∧ s.shards.length = 2 ^ s.shardBits

/-- The shard and the hash of an entry. -/
def keyOf (s : CrdsShards) (e : Entry) : Option (ℕ × ℕ) :=
  some (s.shardIndex (hashAsU64 e.2.valueHash), hashAsU64 e.2.valueHash)

variable {s : CrdsShards} {e : Entry} {i : ℕ} {hash : ℕ}

lemma shardIndex_eq (hbits : s.shardBits ≤ 64) (hhash : hash < 2 ^ 64) :
    s.shardIndex hash = hash / 2 ^ (64 - s.shardBits) := by
  rw [shardIndex, checkedShr]
  split_ifs with hlt
  · rw [Nat.shiftRight_eq_div_pow]
    rfl
  have hzero : 64 - s.shardBits = 64 := by omega
  rw [hzero, Nat.div_eq_of_lt hhash]
  rfl

lemma Sized.shardIndex_lt (h : s.Sized) (hhash : hash < 2 ^ 64) :
    s.shardIndex hash < s.shards.length := by
  rw [shardIndex_eq h.1 hhash, h.2]
  refine Nat.div_lt_of_lt_mul ?_
  rwa [← Nat.pow_add, Nat.sub_add_cancel h.1]

lemma Sized.modifyShard_spec (h : s.Sized) (hhash : hash < 2 ^ 64)
    (f : SortedMap ℕ ℕ → SortedMap ℕ ℕ) :
    ∃ shard s', (∀ k i, k.1 = s.shardIndex hash → (s.At k i ↔ shard.get? i = some k.2)) ∧
      s.modifyShard hash f = some s' ∧ s'.shardBits = s.shardBits ∧ s'.Sized ∧
      ∀ k i, s'.At k i ↔
        if k.1 = s.shardIndex hash then (f shard).get? i = some k.2 else s.At k i := by
  have hlt := h.shardIndex_lt hhash
  have hget := getElem?_eq_getElem hlt
  refine ⟨s.shards[s.shardIndex hash], { s with
    shards := s.shards.set (s.shardIndex hash) (f s.shards[s.shardIndex hash]) }, fun k i hk ↦ ?_,
    ?_, rfl, ⟨h.1, (length_set ..).trans h.2⟩, fun k i ↦ ?_⟩
  · rw [At, hk, hget]
    exact ⟨fun ⟨_, hs, hi⟩ ↦ some.inj hs ▸ hi, fun hi ↦ ⟨_, rfl, hi⟩⟩
  · rw [modifyShard, hget]
    rfl
  rw [At]
  split_ifs with hk
  · rw [hk, getElem?_set_self hlt]
    exact ⟨fun ⟨_, hs, hi⟩ ↦ some.inj hs ▸ hi, fun hi ↦ ⟨_, rfl, hi⟩⟩
  rw [getElem?_set_ne (Ne.symm hk)]
  rfl

lemma Sized.insert_spec (h : s.Sized) (hfresh : ∀ k, ¬s.At k i) (e : Entry) :
    ∃ s', s.insert i e.2.valueHash = some s' ∧ s'.shardBits = s.shardBits ∧ s'.Sized ∧
      ∀ k j, s'.At k j ↔ s.At k j ∨ s.keyOf e = some k ∧ j = i := by
  obtain ⟨shard, s', hold, hs', hbits, hsized, hat⟩ := h.modifyShard_spec
    (hashAsU64_lt e.2.valueHash) fun shard ↦ shard.insert i (hashAsU64 e.2.valueHash)
  refine ⟨s', hs', hbits, hsized, fun ⟨k, hash⟩ j ↦ ?_⟩
  rw [hat, keyOf, some.injEq, Prod.mk.injEq]
  split_ifs with hk
  · rw [get?_insert]
    split_ifs with hj
    · rw [hj, some.injEq]
      exact ⟨fun heq ↦ .inr ⟨⟨hk.symm, heq⟩, rfl⟩,
        fun hor ↦ hor.elim (fun hj ↦ absurd hj (hfresh _)) fun h ↦ h.1.2⟩
    rw [hold (k, hash) j hk]
    exact (or_iff_left fun h ↦ hj h.2).symm
  · exact (or_iff_left fun h ↦ hk h.1.1.symm).symm

lemma Sized.remove_spec (h : s.Sized) (he : ∀ k, s.At k i ↔ s.keyOf e = some k) :
    ∃ s', s.remove i e.2.valueHash = some s' ∧ s'.shardBits = s.shardBits ∧ s'.Sized ∧
      ∀ k j, s'.At k j ↔ s.At k j ∧ j ≠ i := by
  obtain ⟨shard, s', hold, hs', hbits, hsized, hat⟩ := h.modifyShard_spec
    (hashAsU64_lt e.2.valueHash) fun shard ↦ shard.filterKeys fun j ↦ j ≠ i
  refine ⟨s', hs', hbits, hsized, fun ⟨k, hash⟩ j ↦ ?_⟩
  rw [hat]
  split_ifs with hk
  · rw [get?_filterKeys_eq_some, decide_eq_true_eq, hold (k, hash) j hk]
  refine ⟨fun hj ↦ ⟨hj, ?_⟩, fun h ↦ h.1⟩
  rintro rfl
  have hkey := (he _).mp hj
  rw [keyOf, some.injEq, Prod.mk.injEq] at hkey
  exact hk hkey.1.symm

lemma keyOf_eq {s' : CrdsShards} (h : s'.shardBits = s.shardBits) : s'.keyOf = s.keyOf := by
  funext e
  rw [keyOf, keyOf, shardIndex, shardIndex, h]

end CrdsShards

end Renec.Gossip
