import Renec.Gossip.Consistency
import Renec.Machine.Words

/-!
# Values by the first bits of their hash

What `CrdsShards::find` and `Crds::filter_bitmask` return: the values the first bits of whose hash
are those of a mask, each once.
-/

namespace Renec.Gossip

open List
open Option hiding map_map mem_map

def firstBits (bits word : ℕ) : ℕ := word / 2 ^ (64 - bits)

lemma getD_checkedShr (bits : ℕ) : (checkedShr u64Max bits).getD 0 = 2 ^ (64 - bits) - 1 := by
  rw [checkedShr]
  split_ifs with h
  · rw [getD_some, Nat.shiftRight_eq_div_pow]
    exact Nat.two_pow_sub_one_div h.le
  rw [getD_none, Nat.sub_eq_zero_of_le (Nat.le_of_not_lt h)]
  rfl

lemma lor_ones_lt {word : ℕ} (h : word < 2 ^ 64) (bits : ℕ) :
    word ||| (2 ^ (64 - bits) - 1) < 2 ^ 64 := by
  refine Nat.or_lt_two_pow h ?_
  have hle : 2 ^ (64 - bits) ≤ 2 ^ 64 := Nat.pow_le_pow_right (by decide) (Nat.sub_le ..)
  have hpos := Nat.two_pow_pos (64 - bits)
  omega

variable {mask : ℕ}

namespace CrdsShards

section

variable (table : List Entry) (mask maskBits : ℕ)

/-- The positions of the entries whose hash starts with the first bits of a mask. -/
def positions : List ℕ := (range table.length).filter fun i ↦ (table[i]?).any fun e ↦
    firstBits maskBits (hashAsU64 e.2.valueHash) = firstBits maskBits mask

lemma nodup_positions : (positions table mask maskBits).Nodup := nodup_range.filter _

end

variable {table : List Entry} {i : ℕ}

lemma mem_positions {maskBits : ℕ} : i ∈ positions table mask maskBits ↔ ∃ e, table[i]? = some e ∧
      firstBits maskBits (hashAsU64 e.2.valueHash) = firstBits maskBits mask := by
  rw [positions, mem_filter, mem_range, Option.any_eq_true]
  constructor
  · rintro ⟨-, e, he, hbits⟩
    exact ⟨e, he, of_decide_eq_true hbits⟩
  rintro ⟨e, he, hbits⟩
  exact ⟨(List.getElem?_eq_some_iff.mp he).1, e, he, decide_eq_true hbits⟩

variable {s : CrdsShards} {maskBits : ℕ} {shard : SortedMap ℕ ℕ}

lemma mem_shard (hindex : Indexes s.keyOf table s.At) {q hash : ℕ}
    (hshard : s.shards[q]? = some shard) : (i, hash) ∈ shard.entries ↔
      ∃ e, table[i]? = some e ∧ s.shardIndex (hashAsU64 e.2.valueHash) = q ∧
        hashAsU64 e.2.valueHash = hash := by
  have hat : (i, hash) ∈ shard.entries ↔ s.At (q, hash) i := by
    rw [At, hshard, ← SortedMap.get?_eq_some]
    simp
  rw [hat, hindex (q, hash) i]
  simp only [keyOf, some.injEq, Prod.mk.injEq]

lemma mem_shard_keys (hindex : Indexes s.keyOf table s.At) {q : ℕ}
    (hshard : s.shards[q]? = some shard) : i ∈ shard.entries.map Prod.fst ↔
      ∃ e, table[i]? = some e ∧ s.shardIndex (hashAsU64 e.2.valueHash) = q := by
  rw [mem_map]
  constructor
  · rintro ⟨⟨j, hash⟩, hmem, rfl⟩
    obtain ⟨e, he, hq, -⟩ := (mem_shard hindex hshard).mp hmem
    exact ⟨e, he, hq⟩
  rintro ⟨e, he, hq⟩
  exact ⟨(i, _), (mem_shard hindex hshard).mpr ⟨e, he, hq, rfl⟩, rfl⟩

lemma filterMap_ite_eq (entries : List (ℕ × ℕ)) (p : ℕ → Prop) [DecidablePred p] :
    (entries.filterMap fun (index, hash) ↦ if p hash then some index else none) =
      (entries.filter fun e ↦ p e.2).map Prod.fst := by
  induction entries with
  | nil => rfl
  | cons e entries ih =>
    obtain ⟨index, hash⟩ := e
    by_cases hp : p hash <;> simp [hp, ih]

section

variable (hsized : s.Sized) (hindex : Indexes s.keyOf table s.At) (hmask : mask < 2 ^ 64)

include hsized hindex hmask

lemma find_less (hlt : s.shardBits < maskBits) :
    ∃ l, s.find mask maskBits = some l ∧ l.Perm (positions table mask maskBits) := by
  have hmask' := lor_ones_lt hmask maskBits
  obtain ⟨shard, hget⟩ : ∃ shard, s.shards[s.shardIndex (mask ||| (2 ^ (64 - maskBits) - 1))]? =
      some shard := ⟨_, getElem?_eq_getElem (hsized.shardIndex_lt hmask')⟩
  have hle : 64 - maskBits ≤ 64 - s.shardBits := by omega
  refine ⟨_, by rw [find, getD_checkedShr, if_pos hlt, hget]; rfl, ?_⟩
  refine (Perm.of_eq (filterMap_ite_eq shard.entries fun hash ↦
    hash ||| (2 ^ (64 - maskBits) - 1) = mask ||| (2 ^ (64 - maskBits) - 1))).trans ?_
  refine (perm_ext_iff_of_nodup ((filter_sublist.map _).nodup
    (SortedMap.nodup_keys _)) (nodup_positions ..)).mpr fun i ↦ ?_
  rw [mem_positions, mem_map]
  constructor
  · rintro ⟨⟨j, hash⟩, hmem, rfl⟩
    obtain ⟨hmem, heq⟩ := mem_filter.mp hmem
    obtain ⟨e, he, -, rfl⟩ := (mem_shard hindex hget).mp hmem
    exact ⟨e, he, Nat.lor_ones_inj.mp (of_decide_eq_true heq)⟩
  rintro ⟨e, he, heq⟩
  refine ⟨(i, hashAsU64 e.2.valueHash), mem_filter.mpr
    ⟨(mem_shard hindex hget).mpr ⟨e, he, ?_, rfl⟩, decide_eq_true (Nat.lor_ones_inj.mpr heq)⟩, rfl⟩
  -- the first bits of the shard are among the first bits of the mask
  rw [shardIndex_eq hsized.1 (hashAsU64_lt _), shardIndex_eq hsized.1 hmask',
    ← Nat.lor_ones_div_of_le hle, Nat.lor_ones_inj.mpr heq]

lemma find_equal (heq : s.shardBits = maskBits) :
    ∃ l, s.find mask maskBits = some l ∧ l.Perm (positions table mask maskBits) := by
  have hmask' := lor_ones_lt hmask maskBits
  have hget := getElem?_eq_getElem (hsized.shardIndex_lt hmask')
  refine ⟨_, by rw [find, getD_checkedShr, if_neg (by omega), if_pos heq, hget]; rfl, ?_⟩
  refine (perm_ext_iff_of_nodup (SortedMap.nodup_keys _) (nodup_positions ..)).mpr fun i ↦ ?_
  rw [mem_positions, mem_shard_keys hindex hget]
  refine exists_congr fun e ↦ and_congr_right fun _ ↦ ?_
  rw [shardIndex_eq hsized.1 (hashAsU64_lt _), shardIndex_eq hsized.1 hmask', heq,
    Nat.lor_ones_div, firstBits, firstBits]

lemma find_greater (hlt : maskBits < s.shardBits) :
    ∃ l, s.find mask maskBits = some l ∧ l.Perm (positions table mask maskBits) := by
  have hmask' := lor_ones_lt hmask maskBits
  have hstop := hsized.shardIndex_lt hmask'
  have hbits := hsized.1
  -- the shards are those from the first one with these bits to the last one
  have hlast : s.shardIndex (mask ||| (2 ^ (64 - maskBits) - 1)) =
      2 ^ (s.shardBits - maskBits) * firstBits maskBits mask +
        (2 ^ (s.shardBits - maskBits) - 1) := by
    have hsub : 64 - maskBits - (64 - s.shardBits) = s.shardBits - maskBits := by omega
    rw [shardIndex_eq hbits hmask', Nat.lor_ones_div_of_ge (by omega), hsub, firstBits]
  generalize hcount : 2 ^ (s.shardBits - maskBits) = count at hlast
  have hpos : 0 < count := hcount ▸ Nat.two_pow_pos _
  have hstart : checkedSub (s.shardIndex (mask ||| (2 ^ (64 - maskBits) - 1)) + 1) count =
      some (count * firstBits maskBits mask) := by
    rw [checkedSub_eq_some, hlast]
    omega
  have hmem : ∀ q, firstBits maskBits mask = q / count ↔ count * firstBits maskBits mask ≤ q ∧
      q < s.shardIndex (mask ||| (2 ^ (64 - maskBits) - 1)) + 1 := by
    intro q
    rw [eq_comm, Nat.div_eq_iff hpos, hlast, Nat.mul_comm count]
    omega
  refine ⟨_, by
    rw [find, getD_checkedShr, if_neg (by omega), if_neg (by omega), Nat.one_shiftLeft, hcount]
    simp only [hstart, some_bind]
    exact if_pos hstop, ?_⟩
  generalize hm : s.shardIndex (mask ||| (2 ^ (64 - maskBits) - 1)) + 1 = stop at *
  generalize hn : count * firstBits maskBits mask = start at *
  have hshards : ∀ k shard, ((s.shards.take stop).drop start)[k]? = some shard ↔
      start + k < stop ∧ s.shards[start + k]? = some shard := by
    intro k shard
    rw [getElem?_drop, getElem?_take]
    split_ifs with hk
    · exact (and_iff_right hk).symm
    · exact ⟨nofun, fun h ↦ absurd h.1 hk⟩
  refine (perm_ext_iff_of_nodup ?_ (nodup_positions ..)).mpr fun i ↦ ?_
  · refine nodup_flatMap.mpr ⟨fun shard _ ↦ SortedMap.nodup_keys shard, ?_⟩
    refine pairwise_iff_getElem.mpr fun k k' hk hk' hkk i hi hi' ↦ ?_
    -- a position is in one shard only
    obtain ⟨-, hget⟩ := (hshards k _).mp (getElem?_eq_getElem hk)
    obtain ⟨-, hget'⟩ := (hshards k' _).mp (getElem?_eq_getElem hk')
    obtain ⟨e, he, hq⟩ := (mem_shard_keys hindex hget).mp hi
    obtain ⟨e', he', hq'⟩ := (mem_shard_keys hindex hget').mp hi'
    obtain rfl := some.inj (he.symm.trans he')
    omega
  have hfirst : ∀ e : Entry, firstBits maskBits (hashAsU64 e.2.valueHash) =
      s.shardIndex (hashAsU64 e.2.valueHash) / count := by
    intro e
    have hsum : 64 - maskBits = 64 - s.shardBits + (s.shardBits - maskBits) := by omega
    rw [shardIndex_eq hbits (hashAsU64_lt _), firstBits, hsum, Nat.pow_add, hcount,
      Nat.div_div_eq_div_mul]
  rw [mem_positions, mem_flatMap]
  constructor
  · rintro ⟨shard, hshard, hi⟩
    obtain ⟨k, hk⟩ := mem_iff_getElem?.mp hshard
    obtain ⟨hlt', hget⟩ := (hshards k shard).mp hk
    obtain ⟨e, he, hq⟩ := (mem_shard_keys hindex hget).mp hi
    refine ⟨e, he, ?_⟩
    rw [hfirst, hq]
    exact ((hmem (start + k)).mpr ⟨Nat.le_add_right .., hlt'⟩).symm
  rintro ⟨e, he, heq⟩
  rw [hfirst] at heq
  obtain ⟨hle, hlt'⟩ := (hmem _).mp heq.symm
  have hget := getElem?_eq_getElem (hsized.shardIndex_lt (hashAsU64_lt e.2.valueHash))
  refine ⟨_, mem_iff_getElem?.mpr
    ⟨s.shardIndex (hashAsU64 e.2.valueHash) - start, (hshards _ _).mpr ⟨?_, ?_⟩⟩,
    (mem_shard_keys hindex hget).mpr ⟨e, he, rfl⟩⟩
  · omega
  rw [Nat.add_sub_cancel' hle]
  exact hget

/-- The search in the shards finds the positions of the values with the first bits of a mask. -/
theorem find_spec (maskBits : ℕ) :
    ∃ l, s.find mask maskBits = some l ∧ l.Perm (positions table mask maskBits) := by
  rcases lt_trichotomy s.shardBits maskBits with hlt | heq | hgt
  · exact find_less hsized hindex hmask hlt
  · exact find_equal hsized hindex hmask heq
  · exact find_greater hsized hindex hmask hgt

end

end CrdsShards

/-- The values the first bits of whose hash are those of a mask. -/
def Crds.filterBitmask (crds : Crds) (mask maskBits : ℕ) : Option (List VersionedCrdsValue) := do
  let indices ← crds.shards.find mask maskBits
  indices.mapM fun i ↦ (crds.table[i]?).map Prod.snd

/-- The values of a mask, each once. -/
theorem Mirrors.filterBitmask_spec {hash : CrdsValue → Hash} {crds : Crds} (h : Mirrors hash crds)
    (hmask : mask < 2 ^ 64) (maskBits : ℕ) :
    ∃ values, crds.filterBitmask mask maskBits = some values ∧
      (values.map VersionedCrdsValue.value).Nodup ∧ ∀ v, v ∈ values ↔ v ∈ crds.table.map Prod.snd ∧
        firstBits maskBits (hashAsU64 v.valueHash) = firstBits maskBits mask := by
  obtain ⟨l, hfind, hperm⟩ := CrdsShards.find_spec h.sized h.shards hmask maskBits
  have hpos : ∀ i ∈ l, ∃ e, crds.table[i]? = some e ∧
      firstBits maskBits (hashAsU64 e.2.valueHash) = firstBits maskBits mask :=
    fun i hi ↦ CrdsShards.mem_positions.mp (hperm.mem_iff.mp hi)
  obtain ⟨values, hvalues⟩ : ∃ values,
      l.mapM (fun i ↦ (crds.table[i]?).map Prod.snd) = some values := by
    refine exists_mapM_eq_some fun i hi ↦ ?_
    obtain ⟨e, he, -⟩ := hpos i hi
    exact ⟨e.2, by rw [he]; rfl⟩
  refine ⟨values, by rw [Crds.filterBitmask, hfind]; exact hvalues, ?_, fun v ↦ ?_⟩
  · have hmap : values.map (fun v ↦ some v.value) =
        l.map fun i ↦ (crds.table[i]?).map fun e ↦ e.2.value := by
      refine map_eq_of_mapM_eq_some hvalues fun i hi v hv ↦ ?_
      obtain ⟨e, he, -⟩ := hpos i hi
      rw [he, map_some, some.injEq] at hv
      rw [he, map_some, hv]
    refine Nodup.of_map some ?_
    rw [map_map]
    refine hmap ▸ (hperm.nodup_iff.mpr (CrdsShards.nodup_positions ..)).map_on ?_
    intro i hi j hj heq
    obtain ⟨e, he, -⟩ := hpos i hi
    obtain ⟨e', he', -⟩ := hpos j hj
    rw [he, he', map_some, map_some, some.injEq] at heq
    refine h.labels i j e e' he he' ?_
    rw [(h.keyed e (mem_of_getElem? he)).1, (h.keyed e' (mem_of_getElem? he')).1, heq]
  rw [mem_iff_of_mapM_eq_some hvalues, mem_map]
  constructor
  · rintro ⟨i, hi, hv⟩
    obtain ⟨e, he, hbits⟩ := hpos i hi
    rw [he, map_some, some.injEq] at hv
    subst hv
    exact ⟨⟨e, mem_of_getElem? he, rfl⟩, hbits⟩
  rintro ⟨⟨e, he, rfl⟩, hbits⟩
  obtain ⟨i, hi⟩ := mem_iff_getElem?.mp he
  exact ⟨i, hperm.mem_iff.mpr (CrdsShards.mem_positions.mpr ⟨e, hi, hbits⟩), by rw [hi]; rfl⟩

end Renec.Gossip
