import Renec.Collections.SortedMap
import Renec.Machine.Outcome
import Renec.Sdk.Types

/-!
# The blockhash queue

`BlockhashQueue` (`runtime/src/blockhash_queue.rs`) holds the recent blockhashes of a bank, each
with the height of the queue when it was registered. A transaction names one of them and is accepted
as long as that one is not too old.
-/

namespace Renec

/-- The hashes with their heights; their fees and times are left out. -/
structure BlockhashQueue where
  hashHeight : ℕ
  lastHash : Option Hash
  ages : SortedMap Hash ℕ
  maxAge : ℕ
  /-- No hash is higher than the queue. -/
  le_hashHeight : ∀ h r, ages.get? h = some r → r ≤ hashHeight

namespace BlockhashQueue

def new (maxAge : ℕ) : BlockhashQueue where
  hashHeight := 0
  lastHash := none
  ages := .empty
  maxAge := maxAge
  le_hashHeight := by intro h r hr; cases hr

variable (q : BlockhashQueue)

/-- Whether a hash is at most `maxAge` old; no answer for a hash that is not there. -/
def checkHashAge (hash : Hash) (maxAge : ℕ) : Option Bool :=
  (q.ages.get? hash).map fun age ↦ decide (q.hashHeight - age ≤ maxAge)

/-- `genesis_hash`: put the first hash into the queue, at height 0. -/
def genesisHash (hash : Hash) : BlockhashQueue where
  hashHeight := q.hashHeight
  lastHash := some hash
  ages := q.ages.insert hash 0
  maxAge := q.maxAge
  le_hashHeight := by
    intro h r hr
    rw [SortedMap.get?_insert] at hr
    split_ifs at hr
    · exact Option.some.inj hr ▸ Nat.zero_le _
    · exact q.le_hashHeight h r hr

/-- What the clean-up leaves of the hashes, once the queue has its new height. -/
def cleaned (hashHeight : ℕ) : SortedMap Hash ℕ :=
  if q.maxAge ≤ q.ages.entries.length then
    q.ages.filter fun _ age ↦ decide (hashHeight - age ≤ q.maxAge)
  else q.ages

lemma get?_of_cleaned {q : BlockhashQueue} {hashHeight r : ℕ} {h : Hash}
    (hr : (q.cleaned hashHeight).get? h = some r) : q.ages.get? h = some r := by
  rw [cleaned] at hr
  split_ifs at hr
  · exact (SortedMap.get?_filter_eq_some.mp hr).1
  · exact hr

/-- The queue with one more hash, on top of it. -/
def push (hash : Hash) : BlockhashQueue where
  hashHeight := q.hashHeight + 1
  lastHash := some hash
  ages := (q.cleaned (q.hashHeight + 1)).insert hash (q.hashHeight + 1)
  maxAge := q.maxAge
  le_hashHeight := by
    intro h r hr
    rw [SortedMap.get?_insert] at hr
    split_ifs at hr
    · exact Option.some.inj hr ▸ le_refl _
    · exact (q.le_hashHeight h r (get?_of_cleaned hr)).trans (Nat.le_succ _)

def registerHash (hash : Hash) : Option BlockhashQueue := do
  let _ ← checkedAdd 64 q.hashHeight 1
  return q.push hash

variable {q q' : BlockhashQueue} {h hash : Hash} {r maxAge : ℕ}

lemma registerHash_eq_some : q.registerHash hash = some q' ↔
    q.hashHeight + 1 < 2 ^ 64 ∧ q.push hash = q' := by
  simp only [registerHash, bind_eq_some, checkedAdd_eq_some, pure_eq_some, exists_and_left,
    exists_eq_left', and_assoc]

lemma checkHashAge_eq_true : q.checkHashAge hash maxAge = some true ↔
    ∃ r, q.ages.get? hash = some r ∧ q.hashHeight - r ≤ maxAge := by
  simp [checkHashAge]

lemma get?_ages_push (hne : h ≠ hash) (hr : (q.push hash).ages.get? h = some r) :
    q.ages.get? h = some r := by
  rw [push, SortedMap.get?_insert_of_ne hne] at hr
  exact get?_of_cleaned hr

/-! ### Whole runs -/

section

open List

variable {hashes : List Hash}

/-- A bank starts from the genesis hash and registers one hash after the other. -/
def registerAll (maxAge : ℕ) (genesis : Hash) (hashes : List Hash) : Option BlockhashQueue :=
  hashes.foldlM registerHash ((new maxAge).genesisHash genesis)

/-- The hashes since genesis are `hashes`. A hash has the height where it comes last, and is there
if it is not too old. -/
structure Holds (q : BlockhashQueue) (hashes : List Hash) : Prop where
  height : q.hashHeight + 1 = hashes.length
  sound : ∀ h r, q.ages.get? h = some r → hashes[r]? = some h ∧ h ∉ hashes.drop (r + 1)
  complete : ∀ h r, hashes[r]? = some h → h ∉ hashes.drop (r + 1) →
    q.hashHeight ≤ r + q.maxAge → q.ages.get? h = some r

lemma Holds.push (hq : q.Holds hashes) (hash : Hash) :
    (q.push hash).Holds (hashes ++ [hash]) where
  height := by simp [BlockhashQueue.push, hq.height]
  sound h r hr := by
    by_cases heq : h = hash
    · subst heq
      rw [BlockhashQueue.push, SortedMap.get?_insert_self, Option.some_inj, hq.height] at hr
      simp [← hr]
    obtain ⟨hget, hnot⟩ := hq.sound h r (get?_ages_push heq hr)
    have hlt := (List.getElem?_eq_some_iff.mp hget).1
    rw [getElem?_append_left hlt, drop_append_of_le_length hlt]
    simp [hget, hnot, heq]
  complete h r hget hnot hage := by
    have hle : r ≤ hashes.length := by simpa using (List.getElem?_eq_some_iff.mp hget).1
    rcases hle.lt_or_eq with hlt | rfl
    · rw [drop_append_of_le_length hlt, mem_append, not_or, mem_singleton] at hnot
      rw [getElem?_append_left hlt] at hget
      have hkept := hq.complete h r hget hnot.1 (Nat.le_of_succ_le hage)
      rw [BlockhashQueue.push, SortedMap.get?_insert_of_ne hnot.2, cleaned]
      split_ifs
      · have hyoung := Nat.sub_le_iff_le_add'.mpr hage
        exact SortedMap.get?_filter_eq_some.mpr ⟨hkept, decide_eq_true hyoung⟩
      · exact hkept
    obtain rfl : hash = h := by simpa using hget
    rw [BlockhashQueue.push, SortedMap.get?_insert_self, hq.height]

/-- The last place of an element. -/
theorem exists_last {l : List Hash} {k : ℕ} (hmem : h ∈ l.drop k) :
    ∃ r ≥ k, l[r]? = some h ∧ h ∉ l.drop (r + 1) := by
  induction hn : l.length - k generalizing k with
  | zero => simp [drop_eq_nil_of_le (Nat.sub_eq_zero_iff_le.mp hn)] at hmem
  | succ n ih =>
    by_cases hlater : h ∈ l.drop (k + 1)
    · obtain ⟨r, hr, hlast⟩ := ih hlater (by omega)
      exact ⟨r, Nat.le_of_succ_le hr, hlast⟩
    have hlt : k < l.length := by omega
    rw [drop_eq_getElem_cons hlt, mem_cons, or_iff_left hlater] at hmem
    exact ⟨k, le_rfl, hmem ▸ getElem?_eq_getElem hlt, hlater⟩

/-- Every run registers all its hashes. -/
theorem exists_registerAll (maxAge : ℕ) (genesis : Hash) (hlen : hashes.length < 2 ^ 64) :
    ∃ q, registerAll maxAge genesis hashes = some q ∧ q.maxAge = maxAge ∧
      q.Holds (genesis :: hashes) := by
  induction hashes using reverseRecOn with
  | nil =>
    refine ⟨_, rfl, rfl, rfl, fun h r hr ↦ ?_, fun h r hget _ _ ↦ ?_⟩
    · rw [genesisHash, SortedMap.get?_insert] at hr
      split_ifs at hr with heq
      · simp [← Option.some_inj.mp hr, heq]
      · cases hr
    cases r with
    | zero =>
      cases hget
      exact SortedMap.get?_insert_self
    | succ r => cases hget
  | append_singleton hashes hash ih =>
    rw [length_append, length_singleton] at hlen
    obtain ⟨q, hrun, hmax, hq⟩ := ih (by omega)
    have hheight : q.hashHeight = hashes.length := Nat.succ_injective hq.height
    refine ⟨q.push hash, ?_, hmax, hq.push hash⟩
    rw [registerAll, foldlM_append]
    rw [registerAll] at hrun
    rw [hrun, some_bind, foldlM_cons, registerHash_eq_some.mpr ⟨by omega, rfl⟩]
    rfl

/-- **Blockhashes are valid for exactly their age.** After any run of registrations, in which hashes
may come again, a hash is accepted for an age that the queue keeps exactly if it is among so many
last ones and one more. -/
theorem hashes_valid_for_age (maxAge : ℕ) (genesis : Hash) (hashes : List Hash)
    (hlen : hashes.length < 2 ^ 64) :
    ∃ q, registerAll maxAge genesis hashes = some q ∧ ∀ age ≤ maxAge, ∀ h,
      q.checkHashAge h age = some true ↔ h ∈ (genesis :: hashes).drop (hashes.length - age) := by
  obtain ⟨q, hrun, hmax, hq⟩ := exists_registerAll maxAge genesis hlen
  have hheight : q.hashHeight = hashes.length := Nat.succ_injective hq.height
  refine ⟨q, hrun, fun age hage h ↦ checkHashAge_eq_true.trans ⟨?_, fun hmem ↦ ?_⟩⟩
  · rintro ⟨r, hr, hle⟩
    have hfrom : hashes.length - age ≤ r := by omega
    refine mem_of_getElem? (i := r - (hashes.length - age)) ?_
    rw [getElem?_drop, Nat.add_sub_cancel' hfrom]
    exact (hq.sound h r hr).1
  obtain ⟨r, hr, hget, hnot⟩ := exists_last hmem
  exact ⟨r, hq.complete h r hget hnot (by omega), by omega⟩

/-- A queue that keeps one hash besides the last one, in which the first hash comes again. -/
theorem hashes_valid_for_age_twice : ∃ q, registerAll 1 ⟨0⟩ [⟨1⟩, ⟨0⟩, ⟨2⟩] = some q ∧
    q.checkHashAge ⟨0⟩ 1 = some true ∧ q.checkHashAge ⟨1⟩ 1 ≠ some true := by
  obtain ⟨q, hrun, h⟩ := hashes_valid_for_age 1 ⟨0⟩ [⟨1⟩, ⟨0⟩, ⟨2⟩] (by decide)
  exact ⟨q, hrun, (h 1 le_rfl _).mpr (by decide), fun hold ↦ by simpa using (h 1 le_rfl _).mp hold⟩

end

end BlockhashQueue

end Renec
