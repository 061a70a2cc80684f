import Renec.Gossip.Prefixes

/-!
# Pull requests

A node asks its peers for the values that it does not have (`gossip/src/crds_gossip_pull.rs`). It
adds the hashes of what it has to a set of Bloom filters, one for each value of the first bits of a
hash, and sends every filter to a peer; the peer answers a filter with its values that have these
first bits and are not in the filter.

Bloom filters are abstract here: `BloomFilter` has what is added to them, whatever else.
-/

namespace Renec.Gossip

open List

/-- Bloom filters without false negatives. -/
structure BloomFilter (B : Type) where
  add : B → Hash → B
  contains : B → Hash → Bool
  contains_add_self : ∀ b item, contains (add b item) item = true
  contains_add : ∀ b item item', contains b item = true → contains (add b item') item = true

structure CrdsFilter (B : Type) where
  filter : B
  mask : ℕ
  maskBits : ℕ

namespace CrdsFilter

variable {B : Type}

def computeMask (seed maskBits : ℕ) : Option ℕ := do
  let bound ← checkedPow 64 2 maskBits
  if seed ≤ bound then
    return (checkedShl seed (64 - maskBits)).getD 0 ||| (checkedShr u64Max maskBits).getD u64Max
  else none

/-- Only the first bits of the hash count, the rest is set to ones. -/
def testMask (filter : CrdsFilter B) (item : Hash) : Bool :=
  let ones := (checkedShr u64Max filter.maskBits).getD u64Max
  decide (hashAsU64 item ||| ones = filter.mask)

end CrdsFilter

/-- Filters that together hold a complete set of hashes. -/
structure CrdsFilterSet (B : Type) where
  filters : List B
  maskBits : ℕ

namespace CrdsFilterSet

variable {B : Type}

/-- Where a hash is added. -/
def index (set : CrdsFilterSet B) (item : Hash) : Option ℕ := do
  let shift ← checkedSub 64 set.maskBits
  return (checkedShr (hashAsU64 item) shift).getD 0

def add (bloom : BloomFilter B) (set : CrdsFilterSet B) (item : Hash) :
    Option (CrdsFilterSet B) := do
  let index ← set.index item
  let filter ← set.filters[index]?
  return { set with filters := set.filters.set index (bloom.add filter item) }

/-- `From<CrdsFilterSet> for Vec<CrdsFilter>`. -/
def into (set : CrdsFilterSet B) : Option (List (CrdsFilter B)) :=
  set.filters.zipIdx.mapM fun (filter, seed) ↦
    (CrdsFilter.computeMask seed set.maskBits).map fun mask ↦ ⟨filter, mask, set.maskBits⟩

end CrdsFilterSet

/-- `CRDS_GOSSIP_PULL_CRDS_TIMEOUT_MS`. -/
def crdsGossipPullCrdsTimeoutMs : ℕ := 15000

def i64Max : ℕ := 2 ^ 63 - 1

/-- The time up to which a caller is sent values, if its request is not dropped. -/
def callerBound (now jitter : ℕ) (caller : CrdsValue) : Option ℕ :=
  let callerWallclock := caller.wallclock
  if now - crdsGossipPullCrdsTimeoutMs ≤ callerWallclock ∧
      callerWallclock < saturatingAdd 64 now crdsGossipPullCrdsTimeoutMs then
    some ((checkedAdd 64 callerWallclock jitter).getD 0)
  else none

section

variable {B : Type} (bloom : BloomFilter B) (crds : Crds) (now jitter : ℕ)

/-- The values that are sent for a filter. -/
def answer (bound : ℕ) (filter : CrdsFilter B) (entry : VersionedCrdsValue) : Bool :=
  decide (entry.value.wallclock ≤ bound) && !bloom.contains filter.filter entry.valueHash

/-- The closure `apply_filter`, with the number of values that may still be sent. -/
def applyFilter (limit : ℤ) (caller : CrdsValue) (filter : CrdsFilter B) :
    Option (List CrdsValue) :=
  if limit ≤ 0 then some []
  else
    match callerBound now jitter caller with
    | none => some []
    | some bound => do
      let entries ← crds.filterBitmask filter.mask filter.maskBits
      -- the debug assertion of the predicate
      if entries.all fun entry ↦ filter.testMask entry.valueHash then
        return ((entries.filter (answer bloom bound filter)).map
          VersionedCrdsValue.value).take limit.toNat
      else none

/-- The filters one after another, as they share the limit. -/
def applyFilters : ℤ → List (CrdsValue × CrdsFilter B) → Option (List (List CrdsValue))
  | _, [] => some []
  | limit, (caller, filter) :: filters => do
    let out ← applyFilter bloom crds now jitter limit caller filter
    let outs ← applyFilters (limit - out.length) filters
    return out :: outs

def filterCrdsValues (filters : List (CrdsValue × CrdsFilter B)) (outputSizeLimit : ℕ) :
    Option (List (List CrdsValue)) :=
  applyFilters bloom crds now jitter (min outputSizeLimit i64Max) filters

end

/-! ### Masks -/

lemma getD_checkedShr_u64Max {bits : ℕ} (h : bits < 64) :
    (checkedShr u64Max bits).getD u64Max = 2 ^ (64 - bits) - 1 := by
  rw [← getD_checkedShr, checkedShr, if_pos h]
  rfl

lemma shifted_seed_lt {seed maskBits : ℕ} (hbits : maskBits < 64) (hseed : seed < 2 ^ maskBits) :
    2 ^ (64 - maskBits) * seed < 2 ^ 64 := by
  calc 2 ^ (64 - maskBits) * seed < 2 ^ (64 - maskBits) * 2 ^ maskBits :=
        Nat.mul_lt_mul_of_pos_left hseed (Nat.two_pow_pos _)
    _ = 2 ^ 64 := by rw [← Nat.pow_add, Nat.sub_add_cancel hbits.le]

lemma computeMask_eq {seed maskBits : ℕ} (hbits : maskBits < 64) (hseed : seed < 2 ^ maskBits) :
    CrdsFilter.computeMask seed maskBits =
      some (2 ^ (64 - maskBits) * seed ||| (2 ^ (64 - maskBits) - 1)) := by
  have hpow : checkedPow 64 2 maskBits = some (2 ^ maskBits) :=
    checkedPow_eq_some.mpr ⟨Nat.pow_lt_pow_right (by decide) hbits, rfl⟩
  have hshl : (checkedShl seed (64 - maskBits)).getD 0 = 2 ^ (64 - maskBits) * seed := by
    rw [checkedShl]
    split_ifs with hshift
    · rw [Option.getD_some, Nat.shiftLeft_eq, Nat.mul_comm,
        Nat.mod_eq_of_lt (shifted_seed_lt hbits hseed)]
    -- without mask bits there is one filter, and nothing to shift
    obtain rfl : maskBits = 0 := by omega
    obtain rfl : seed = 0 := by omega
    rfl
  rw [CrdsFilter.computeMask, hpow, getD_checkedShr_u64Max hbits, hshl]
  exact if_pos hseed.le

lemma testMask_iff {B : Type} {filter : CrdsFilter B} {seed : ℕ} (hbits : filter.maskBits < 64)
    (hmask : filter.mask = 2 ^ (64 - filter.maskBits) * seed ||| (2 ^ (64 - filter.maskBits) - 1))
    (item : Hash) :
    filter.testMask item = true ↔ firstBits filter.maskBits (hashAsU64 item) = seed := by
  rw [CrdsFilter.testMask, decide_eq_true_eq, getD_checkedShr_u64Max hbits, hmask,
    Nat.lor_ones_inj, Nat.mul_div_cancel_left _ (Nat.two_pow_pos _), firstBits]

/-! ### Sets of filters -/

namespace CrdsFilterSet

variable {B : Type} {bloom : BloomFilter B} {set : CrdsFilterSet B}

/-- There is a filter for each value of the first bits. -/
def Sized (set : CrdsFilterSet B) : Prop :=
  set.maskBits < 64 ∧ set.filters.length = 2 ^ set.maskBits

lemma Sized.index_eq (h : set.Sized) (item : Hash) :
    set.index item = some (firstBits set.maskBits (hashAsU64 item)) := by
  have hsub : checkedSub 64 set.maskBits = some (64 - set.maskBits) :=
    checkedSub_eq_some.mpr ⟨h.1.le, rfl⟩
  rw [index, hsub]
  refine congrArg some ?_
  rw [checkedShr, firstBits]
  split_ifs with hlt
  · rw [Option.getD_some, Nat.shiftRight_eq_div_pow]
  have hzero : 64 - set.maskBits = 64 := by omega
  rw [hzero, Nat.div_eq_of_lt (hashAsU64_lt item), Option.getD_none]

lemma Sized.firstBits_lt (h : set.Sized) (item : Hash) :
    firstBits set.maskBits (hashAsU64 item) < set.filters.length := by
  rw [h.2, firstBits]
  refine Nat.div_lt_of_lt_mul ?_
  rw [← Nat.pow_add, Nat.sub_add_cancel h.1.le]
  exact hashAsU64_lt item

/-- A filter of the set has an item. -/
def Has (bloom : BloomFilter B) (set : CrdsFilterSet B) (item : Hash) : Prop :=
  ∃ filter, set.filters[firstBits set.maskBits (hashAsU64 item)]? = some filter ∧
    bloom.contains filter item = true

lemma Sized.add_spec (h : set.Sized) (item : Hash) :
    ∃ set', set.add bloom item = some set' ∧ set'.maskBits = set.maskBits ∧ set'.Sized ∧
      set'.Has bloom item ∧ ∀ item', set.Has bloom item' → set'.Has bloom item' := by
  have hlt := h.firstBits_lt item
  obtain ⟨filter, hfilter⟩ : ∃ filter,
      set.filters[firstBits set.maskBits (hashAsU64 item)]? = some filter :=
    ⟨_, getElem?_eq_getElem hlt⟩
  refine ⟨⟨set.filters.set (firstBits set.maskBits (hashAsU64 item)) (bloom.add filter item),
    set.maskBits⟩, ?_, rfl, ⟨h.1, (length_set ..).trans h.2⟩, ?_, ?_⟩
  · rw [add, h.index_eq]
    simp only [some_bind, hfilter]
    rfl
  · exact ⟨_, getElem?_set_self hlt, bloom.contains_add_self filter item⟩
  rintro item' ⟨filter', hfilter', hcontains⟩
  by_cases heq : firstBits set.maskBits (hashAsU64 item) =
      firstBits set.maskBits (hashAsU64 item')
  · rw [← heq, hfilter] at hfilter'
    cases hfilter'
    refine ⟨bloom.add filter item, ?_, bloom.contains_add _ _ _ hcontains⟩
    simp only
    rw [← heq, getElem?_set_self hlt]
  refine ⟨filter', ?_, hcontains⟩
  simp only
  rw [getElem?_set_ne heq]
  exact hfilter'

/-- All items are added. -/
theorem Sized.addAll_spec (h : set.Sized) (items : List Hash) :
    ∃ set', items.foldlM (add bloom) set = some set' ∧ set'.maskBits = set.maskBits ∧ set'.Sized ∧
      (∀ item ∈ items, set'.Has bloom item) ∧ ∀ item, set.Has bloom item → set'.Has bloom item := by
  induction items generalizing set with
  | nil => exact ⟨set, rfl, rfl, h, nofun, fun _ ↦ id⟩
  | cons item items ih =>
    obtain ⟨set₁, hadd, hbits₁, hsized₁, hnew, hold⟩ :=
      @Sized.add_spec B bloom set h item
    obtain ⟨set₂, hadds, hbits₂, hsized₂, hitems, hkept⟩ := ih hsized₁
    refine ⟨set₂, ?_, hbits₂.trans hbits₁, hsized₂, ?_, fun item h ↦ hkept item (hold item h)⟩
    · rw [foldlM_cons, hadd]
      exact hadds
    · exact forall_mem_cons.mpr ⟨hkept item hnew, hitems⟩

lemma Sized.into_spec (h : set.Sized) :
    ∃ filters, set.into = some filters ∧ filters.length = set.filters.length ∧
      ∀ j filter, filters[j]? = some filter → set.filters[j]? = some filter.filter ∧
        filter.maskBits = set.maskBits ∧
        filter.mask = 2 ^ (64 - set.maskBits) * j ||| (2 ^ (64 - set.maskBits) - 1) := by
  have hinto : set.into = some (set.filters.zipIdx.map fun (filter, seed) ↦
      ⟨filter, 2 ^ (64 - set.maskBits) * seed ||| (2 ^ (64 - set.maskBits) - 1),
        set.maskBits⟩) := by
    refine mapM_of_forall fun ⟨filter, seed⟩ hmem ↦ ?_
    have hseed : seed < 2 ^ set.maskBits := by
      rw [← h.2]
      exact (List.getElem?_eq_some_iff.mp (mem_zipIdx_iff_getElem?.mp hmem)).1
    simp only [computeMask_eq h.1 hseed, Option.map_some]
  refine ⟨_, hinto, by rw [length_map, length_zipIdx], fun j filter hj ↦ ?_⟩
  rw [getElem?_map, getElem?_zipIdx, Option.map_map, Option.map_eq_some_iff] at hj
  obtain ⟨b, hb, rfl⟩ := hj
  refine ⟨hb, rfl, ?_⟩
  simp only [Function.comp_apply, Nat.zero_add]

end CrdsFilterSet

/-! ### Answers -/

section

variable {B : Type} {bloom : BloomFilter B} {hash : CrdsValue → Hash} {crds : Crds}
  {now jitter : ℕ} {caller : CrdsValue}

/-- A value of the store that is sent for a filter: its hash passes the mask and is not in the
filter, and it is not too new. -/
def Sent (bloom : BloomFilter B) (crds : Crds) (now jitter : ℕ) (caller : CrdsValue)
    (filter : CrdsFilter B) (v : CrdsValue) : Prop :=
  ∃ e ∈ crds.table, e.2.value = v ∧ filter.testMask e.2.valueHash = true ∧
    (∃ bound, callerBound now jitter caller = some bound ∧ v.wallclock ≤ bound) ∧
    bloom.contains filter.filter e.2.valueHash = false

def CrdsFilter.Numbered (filter : CrdsFilter B) (seed : ℕ) : Prop :=
  filter.maskBits < 64 ∧ seed < 2 ^ filter.maskBits ∧
    filter.mask = 2 ^ (64 - filter.maskBits) * seed ||| (2 ^ (64 - filter.maskBits) - 1)

lemma CrdsFilter.Numbered.mask_lt {filter : CrdsFilter B} {seed : ℕ} (h : filter.Numbered seed) :
    filter.mask < 2 ^ 64 := by
  rw [h.2.2]
  exact lor_ones_lt (shifted_seed_lt h.1 h.2.1) _

/-- The answer to a filter, if the limit leaves room for it. -/
theorem applyFilter_spec (h : Mirrors hash crds) {filter : CrdsFilter B} {seed : ℕ}
    (hfilter : filter.Numbered seed) :
    ∃ out, (∀ limit : ℤ, out.length < limit →
        applyFilter bloom crds now jitter limit caller filter = some out) ∧
      out.Nodup ∧ ∀ v, v ∈ out ↔ Sent bloom crds now jitter caller filter v := by
  cases hbound : callerBound now jitter caller with
  | none =>
    refine ⟨[], fun limit hlimit ↦ ?_, nodup_nil, fun v ↦ ⟨nofun, ?_⟩⟩
    · rw [applyFilter, hbound]
      split_ifs <;> rfl
    rintro ⟨e, -, -, -, ⟨bound, hsome, -⟩, -⟩
    rw [hbound] at hsome
    cases hsome
  | some bound =>
    obtain ⟨entries, hentries, hnodup, hmem⟩ := h.filterBitmask_spec hfilter.mask_lt filter.maskBits
    have hmask : ∀ item, filter.testMask item = true ↔
        firstBits filter.maskBits (hashAsU64 item) = firstBits filter.maskBits filter.mask := by
      intro item
      rw [testMask_iff hfilter.1 hfilter.2.2, hfilter.2.2, firstBits, firstBits, Nat.lor_ones_div,
        Nat.mul_div_cancel_left _ (Nat.two_pow_pos _)]
    have hall : (entries.all fun entry ↦ filter.testMask entry.valueHash) = true :=
      all_eq_true.mpr fun entry hentry ↦ (hmask _).mpr ((hmem entry).mp hentry).2
    refine ⟨(entries.filter (answer bloom bound filter)).map VersionedCrdsValue.value,
      fun limit hlimit ↦ ?_, (filter_sublist.map _).nodup hnodup, fun v ↦ ?_⟩
    · rw [applyFilter, if_neg (by omega), hbound]
      simp only [hentries, some_bind]
      rw [if_pos hall, take_of_length_le (by omega)]
      rfl
    rw [mem_map]
    constructor
    · rintro ⟨entry, hentry, rfl⟩
      obtain ⟨hentry, hanswer⟩ := mem_filter.mp hentry
      obtain ⟨htable, hbits⟩ := (hmem entry).mp hentry
      obtain ⟨e, he, rfl⟩ := mem_map.mp htable
      rw [answer, Bool.and_eq_true, decide_eq_true_eq, Bool.not_eq_true'] at hanswer
      exact ⟨e, he, rfl, (hmask _).mpr hbits, ⟨bound, hbound, hanswer.1⟩, hanswer.2⟩
    rintro ⟨e, he, rfl, htest, ⟨bound', hbound', hle⟩, hcontains⟩
    obtain rfl := Option.some.inj (hbound.symm.trans hbound')
    refine ⟨e.2, mem_filter.mpr ⟨(hmem e.2).mpr
      ⟨mem_map_of_mem he, (hmask _).mp htest⟩, ?_⟩, rfl⟩
    rw [answer, Bool.and_eq_true, decide_eq_true_eq, Bool.not_eq_true']
    exact ⟨hle, hcontains⟩

lemma applyFilters_spec (h : Mirrors hash crds) {filters : List (CrdsFilter B)}
    (hfilters : ∀ filter ∈ filters, ∃ seed, filter.Numbered seed) :
    ∃ outs, Forall₂ (fun filter out ↦ out.Nodup ∧
        ∀ v, v ∈ out ↔ Sent bloom crds now jitter caller filter v) filters outs ∧
      ∀ limit : ℤ, outs.flatten.length < limit →
        applyFilters bloom crds now jitter limit (filters.map fun filter ↦ (caller, filter)) =
          some outs := by
  induction filters with
  | nil => exact ⟨[], .nil, fun _ _ ↦ rfl⟩
  | cons filter filters ih =>
    obtain ⟨⟨seed, hfilter⟩, hrest⟩ := forall_mem_cons.mp hfilters
    obtain ⟨out, hout, hspec⟩ :=
      @applyFilter_spec B bloom hash crds now jitter caller h filter seed hfilter
    obtain ⟨outs, hforall, houts⟩ := ih hrest
    refine ⟨out :: outs, .cons hspec hforall, fun limit hlimit ↦ ?_⟩
    rw [flatten_cons, length_append] at hlimit
    rw [map_cons, applyFilters, hout limit (by omega)]
    simp only [some_bind]
    rw [houts (limit - out.length) (by omega)]
    rfl

lemma Sent.seed_eq (h : Mirrors hash crds) {filter filter' : CrdsFilter B} {seed seed' : ℕ}
    (hbits : filter.maskBits = filter'.maskBits) (hfilter : filter.Numbered seed)
    (hfilter' : filter'.Numbered seed') {v : CrdsValue}
    (hv : Sent bloom crds now jitter caller filter v)
    (hv' : Sent bloom crds now jitter caller filter' v) : seed = seed' := by
  obtain ⟨e, he, rfl, htest, -⟩ := hv
  obtain ⟨e', he', heq, htest', -⟩ := hv'
  rw [(h.keyed e he).2, testMask_iff hfilter.1 hfilter.2.2] at htest
  rw [(h.keyed e' he').2, heq, testMask_iff hfilter'.1 hfilter'.2.2, ← hbits] at htest'
  exact htest.symm.trans htest'

/-- The answers to the filters of a set. No value is sent twice, so that a limit above the number of
values is not reached. -/
theorem filterCrdsValues_spec (h : Mirrors hash crds) {filters : List (CrdsFilter B)} {bits : ℕ}
    (hfilters : ∀ (j : ℕ) filter, filters[j]? = some filter →
      filter.maskBits = bits ∧ filter.Numbered j)
    {outputSizeLimit : ℕ} (hlimit : crds.table.length < min outputSizeLimit i64Max) :
    ∃ outs, filterCrdsValues bloom crds now jitter (filters.map fun filter ↦ (caller, filter))
        outputSizeLimit = some outs ∧
      outs.length = filters.length ∧ outs.flatten.Nodup ∧
      ∀ (j : ℕ) filter out, filters[j]? = some filter → outs[j]? = some out →
        ∀ v, v ∈ out ↔ Sent bloom crds now jitter caller filter v := by
  obtain ⟨outs, hforall, houts⟩ := @applyFilters_spec B bloom hash crds now jitter caller h
    filters fun filter hfilter ↦ by
      obtain ⟨j, hj⟩ := mem_iff_getElem?.mp hfilter
      exact ⟨j, (hfilters j filter hj).2⟩
  obtain ⟨hlen, hget⟩ := forall₂_iff_get.mp hforall
  have hspec : ∀ (j : ℕ) out, outs[j]? = some out → ∃ filter, filters[j]? = some filter ∧
      out.Nodup ∧ ∀ v, v ∈ out ↔ Sent bloom crds now jitter caller filter v := by
    intro j out hout
    obtain ⟨hlt, rfl⟩ := List.getElem?_eq_some_iff.mp hout
    exact ⟨_, getElem?_eq_getElem (hlen ▸ hlt : j < filters.length), hget j (hlen ▸ hlt) hlt⟩
  have hnodup : outs.flatten.Nodup := by
    refine nodup_flatten.mpr ⟨fun out hout ↦ ?_, ?_⟩
    · obtain ⟨j, hj⟩ := mem_iff_getElem?.mp hout
      obtain ⟨-, -, hout, -⟩ := hspec j out hj
      exact hout
    refine pairwise_iff_getElem.mpr fun i j hi hj hij v hvi hvj ↦ ?_
    obtain ⟨filter, hfi, -, hsent⟩ := hspec i _ (getElem?_eq_getElem hi)
    obtain ⟨filter', hfj, -, hsent'⟩ := hspec j _ (getElem?_eq_getElem hj)
    obtain ⟨hbits, hnum⟩ := hfilters i filter hfi
    obtain ⟨hbits', hnum'⟩ := hfilters j filter' hfj
    exact hij.ne (Sent.seed_eq h (hbits.trans hbits'.symm) hnum hnum' ((hsent v).mp hvi)
      ((hsent' v).mp hvj))
  have hcount : outs.flatten.length ≤ crds.table.length := by
    rw [← length_map fun e : Entry ↦ e.2.value]
    refine (hnodup.subperm fun v hv ↦ ?_).length_le
    obtain ⟨out, hout, hv⟩ := mem_flatten.mp hv
    obtain ⟨j, hj⟩ := mem_iff_getElem?.mp hout
    obtain ⟨filter, -, -, hsent⟩ := hspec j out hj
    obtain ⟨e, he, rfl, -⟩ := (hsent v).mp hv
    exact mem_map_of_mem he
  refine ⟨outs, houts _ (by omega), hlen.symm, hnodup, fun j filter out hj hout ↦ ?_⟩
  obtain ⟨filter', hj', -, hsent⟩ := hspec j out hout
  obtain rfl := Option.some.inj (hj.symm.trans hj')
  exact hsent

end

/-- **Pull requests miss nothing and ask for nothing known.** Every hash passes the mask of exactly
one filter of a set, the one it is added to. If a store answers all filters and the limit is not
reached, each is answered with the values that pass its mask, are not in it and are not later than
the bound of the caller; no value is sent twice, and none whose hash was added. -/
theorem pull_requests_miss_nothing {B : Type} (bloom : BloomFilter B) (hash : CrdsValue → Hash)
    (empty : List B) (maskBits : ℕ) (hashes : List Hash) (hbits : maskBits < 64)
    (hempty : empty.length = 2 ^ maskBits) :
    (∃ set filters, hashes.foldlM (CrdsFilterSet.add bloom) ⟨empty, maskBits⟩ = some set ∧
      set.into = some filters ∧
      (∀ item, ∃ i filter, set.index item = some i ∧ filters[i]? = some filter ∧
        ∀ j filter', filters[j]? = some filter' → (filter'.testMask item = true ↔ j = i)) ∧
      ∀ (ops : List Operation) crds, ops.foldlM (Crds.step hash) .default = some crds →
        ∀ caller now jitter outputSizeLimit, crds.table.length < min outputSizeLimit i64Max →
        ∃ outs, filterCrdsValues bloom crds now jitter
            (filters.map fun filter ↦ (caller, filter)) outputSizeLimit = some outs ∧
          outs.length = filters.length ∧ outs.flatten.Nodup ∧
          (∀ (j : ℕ) filter out, filters[j]? = some filter → outs[j]? = some out →
            ∀ v, v ∈ out ↔ Sent bloom crds now jitter caller filter v) ∧
          ∀ v ∈ outs.flatten, hash v ∉ hashes) ∧
    ∀ (s : CrdsShards) (table : List Entry) (mask bits : ℕ), s.Sized →
      Indexes s.keyOf table s.At → mask < 2 ^ 64 →
      ∃ l, s.find mask bits = some l ∧ l.Perm (CrdsShards.positions table mask bits) := by
  refine ⟨?_, fun s table mask bits hsized hindex hmask ↦
    CrdsShards.find_spec hsized hindex hmask bits⟩
  have hsized₀ : CrdsFilterSet.Sized ⟨empty, maskBits⟩ := ⟨hbits, hempty⟩
  obtain ⟨set, hadd, -, hsized, hhas, -⟩ :=
    @CrdsFilterSet.Sized.addAll_spec B bloom ⟨empty, maskBits⟩ hsized₀ hashes
  obtain ⟨filters, hinto, hlen, hfilters⟩ := hsized.into_spec
  have hnumbered : ∀ (j : ℕ) filter, filters[j]? = some filter →
      filter.maskBits = set.maskBits ∧ filter.Numbered j := by
    intro j filter hj
    obtain ⟨-, hmaskBits, hmask⟩ := hfilters j filter hj
    have hlt : j < 2 ^ set.maskBits := by
      rw [← hsized.2, ← hlen]
      exact (List.getElem?_eq_some_iff.mp hj).1
    refine ⟨hmaskBits, ?_⟩
    rw [CrdsFilter.Numbered, hmaskBits]
    exact ⟨hsized.1, hlt, hmask⟩
  have htest : ∀ (j : ℕ) filter, filters[j]? = some filter → ∀ item,
      filter.testMask item = true ↔ j = firstBits set.maskBits (hashAsU64 item) := by
    intro j filter hj item
    obtain ⟨hmaskBits, hnum⟩ := hnumbered j filter hj
    rw [testMask_iff hnum.1 hnum.2.2, hmaskBits, eq_comm]
  refine ⟨set, filters, hadd, hinto, fun item ↦ ?_, ?_⟩
  · have hlt := hsized.firstBits_lt item
    rw [← hlen] at hlt
    exact ⟨_, _, hsized.index_eq item, getElem?_eq_getElem hlt,
      fun j filter' hj ↦ htest j filter' hj item⟩
  intro ops crds hrun caller now jitter outputSizeLimit hlimit
  obtain ⟨crds', hrun', hmirrors, -⟩ := (@mirrors_default hash).run_spec ops
  obtain rfl := Option.some.inj (hrun.symm.trans hrun')
  obtain ⟨outs, houts, hlen', hnodup, hsent⟩ :=
    @filterCrdsValues_spec B bloom hash crds now jitter caller hmirrors filters set.maskBits
      hnumbered outputSizeLimit hlimit
  refine ⟨outs, houts, hlen', hnodup, hsent, fun v hv hmem ↦ ?_⟩
  obtain ⟨out, hout, hv⟩ := mem_flatten.mp hv
  obtain ⟨j, hj⟩ := mem_iff_getElem?.mp hout
  have hlt : j < filters.length := hlen' ▸ (List.getElem?_eq_some_iff.mp hj).1
  have hfilter := getElem?_eq_getElem hlt
  obtain ⟨e, he, rfl, htrue, -, hnot⟩ := (hsent j _ out hfilter hj v).mp hv
  -- a hash that was added is in the filter whose mask it passes
  rw [(hmirrors.keyed e he).2] at htrue hnot
  obtain ⟨b, hb, hcontains⟩ := hhas _ hmem
  rw [← (htest j _ hfilter _).mp htrue, (hfilters j _ hfilter).1] at hb
  cases hb
  rw [hcontains] at hnot
  cases hnot

/-- Lists of hashes are filters without false negatives. -/
def listFilter : BloomFilter (List Hash) where
  add b item := item :: b
  contains b item := decide (item ∈ b)
  contains_add_self _ _ := decide_eq_true mem_cons_self
  contains_add _ _ _ h := decide_eq_true (mem_cons_of_mem _ (of_decide_eq_true h))

/-- Two filters, with a hash in one of them. -/
theorem pull_requests_two_filters :
    ∃ set filters, [(⟨5⟩ : Hash)].foldlM (CrdsFilterSet.add listFilter) ⟨[[], []], 1⟩ = some set ∧
      set.into = some filters ∧ ∀ item, ∃ i filter, set.index item = some i ∧
        filters[i]? = some filter ∧
        ∀ j filter', filters[j]? = some filter' → (filter'.testMask item = true ↔ j = i) := by
  obtain ⟨⟨set, filters, hadd, hinto, hpartition, -⟩, -⟩ := pull_requests_miss_nothing listFilter
    (fun _ ↦ ⟨0⟩) [[], []] 1 [⟨5⟩] (by decide) rfl
  exact ⟨set, filters, hadd, hinto, hpartition⟩

end Renec.Gossip
