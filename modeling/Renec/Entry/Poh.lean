import Renec.Collections.Chunks
import Renec.Machine.Outcome
import Renec.Sdk.Types

/-!
# Proof of history

A leader hashes its last hash over and over, mixes in the transactions it records and ends a tick
with one more hash (`entry/src/poh.rs`). A validator computes the hashes of the entries again, each
from the one before (`entry/src/entry.rs`): entry by entry, or in the lanes of a vector instruction,
which leave the last hash of an entry to a comparison.
-/

namespace Renec

open List

/-- The hash functions, and the root of a Merkle tree over signatures. -/
structure EntryHashing (σ : Type) where
  hash : Hash → Hash
  hashv : Hash → Hash → Hash
  merkleRoot : List σ → Option Hash

variable {σ : Type} (H : EntryHashing σ)

/-! ### The producer -/

/-- The state of a producer. The number of the tick and the times, which only `target_poh_time`
reads, are left out. -/
structure Poh where
  hash : Hash
  numHashes : ℕ
  hashesPerTick : ℕ
  remainingHashes : ℕ

structure PohEntry where
  numHashes : ℕ
  hash : Hash

namespace Poh

def new (hash : Hash) (hashesPerTick : Option ℕ) : Option Poh :=
  let hashesPerTick := hashesPerTick.getD u64Max
  if 1 < hashesPerTick then some ⟨hash, 0, hashesPerTick, hashesPerTick⟩ else none

/-- `Poh::hash`. -/
def advance (p : Poh) (maxNumHashes : ℕ) : Option (Bool × Poh) := do
  let numHashes := min (← checkedSub p.remainingHashes 1) maxNumHashes
  let total ← checkedAdd 64 p.numHashes numHashes
  let remaining ← checkedSub p.remainingHashes numHashes
  if remaining = 0 then none
  else some (remaining == 1, ⟨H.hash^[numHashes] p.hash, total, p.hashesPerTick, remaining⟩)

def record (p : Poh) (mixin : Hash) : Option (Option PohEntry × Poh) :=
  if p.remainingHashes = 1 then some (none, p)
  else do
    let hash := H.hashv p.hash mixin
    let numHashes ← checkedAdd 64 p.numHashes 1
    let remaining ← checkedSub p.remainingHashes 1
    return (some ⟨numHashes, hash⟩, ⟨hash, 0, p.hashesPerTick, remaining⟩)

def tick (p : Poh) : Option (Option PohEntry × Poh) := do
  let hash := H.hash p.hash
  let numHashes ← checkedAdd 64 p.numHashes 1
  let remaining ← checkedSub p.remainingHashes 1
  if p.hashesPerTick < u64Max ∧ remaining ≠ 0 then
    some (none, ⟨hash, numHashes, p.hashesPerTick, remaining⟩)
  else some (some ⟨numHashes, hash⟩, ⟨hash, 0, p.hashesPerTick, p.hashesPerTick⟩)

/-- There is a hash left, and the counters do not overflow. -/
def Ready (p : Poh) : Prop := 0 < p.remainingHashes ∧ p.numHashes + p.remainingHashes < 2 ^ 64

variable {H} {p : Poh}

lemma ready_new (start : Hash) : Ready ⟨start, 0, u64Max, u64Max⟩ :=
  ⟨show 0 < u64Max by decide, show 0 + u64Max < 2 ^ 64 by decide⟩

lemma advance_eq (h : p.Ready) {n m : ℕ} (hm : m = min (p.remainingHashes - 1) n) :
    p.advance H n = some (p.remainingHashes - m == 1, ⟨H.hash^[m] p.hash, p.numHashes + m,
      p.hashesPerTick, p.remainingHashes - m⟩) := by
  obtain ⟨hpos, hlt⟩ := h
  simp only [advance, checkedSub, checkedAdd]
  rw [if_pos (by omega), some_bind, ← hm, if_pos (by omega), some_bind, if_pos (by omega),
    some_bind, if_neg (by omega)]

lemma record_eq (h : p.Ready) (hmore : p.remainingHashes ≠ 1) (mixin : Hash) :
    p.record H mixin = some (some ⟨p.numHashes + 1, H.hashv p.hash mixin⟩,
      ⟨H.hashv p.hash mixin, 0, p.hashesPerTick, p.remainingHashes - 1⟩) := by
  obtain ⟨hpos, hlt⟩ := h
  simp only [record, checkedSub, checkedAdd]
  rw [if_neg hmore, if_pos (by omega), some_bind, if_pos (by omega)]
  rfl

lemma tick_eq (h : p.Ready) :
    p.tick H = if p.hashesPerTick < u64Max ∧ p.remainingHashes - 1 ≠ 0 then
      some (none, ⟨H.hash p.hash, p.numHashes + 1, p.hashesPerTick, p.remainingHashes - 1⟩)
    else some (some ⟨p.numHashes + 1, H.hash p.hash⟩,
      ⟨H.hash p.hash, 0, p.hashesPerTick, p.hashesPerTick⟩) := by
  obtain ⟨hpos, hlt⟩ := h
  simp only [tick, checkedSub, checkedAdd]
  rw [if_pos (by omega), some_bind, if_pos (by omega), some_bind]

end Poh

/-! ### The verifications -/

/-- An entry; of its transactions only the signatures are hashed. -/
structure Entry (σ : Type) where
  numHashes : ℕ
  hash : Hash
  transactions : List (List σ)

namespace Entry

def isTick (e : Entry σ) : Bool := e.transactions.isEmpty

def hashTransactions (transactions : List (List σ)) : Hash :=
  (H.merkleRoot transactions.flatten).getD ⟨0⟩

/-- `.unwrap().hash` on what a call returned. -/
def unwrapHash (result : Option (Option PohEntry × Poh)) : Option Hash := do
  return (← (← result).1).hash

section

variable (start : Hash) (entries : List (Entry σ))

def nextHash (numHashes : ℕ) (transactions : List (List σ)) : Option Hash :=
  if numHashes = 0 ∧ transactions.isEmpty then some start
  else do
    let (_, poh) ← (← Poh.new start none).advance H (numHashes - 1)
    if transactions.isEmpty then unwrapHash (poh.tick H)
    else unwrapHash (poh.record H (hashTransactions H transactions))

def verify (e : Entry σ) (start : Hash) : Option Bool := do
  return (← nextHash H start e.numHashes e.transactions) == e.hash

def compareHashes (computed : Hash) (e : Entry σ) : Option Bool :=
  let actual :=
    if !e.transactions.isEmpty then do
      unwrapHash ((← Poh.new computed none).record H (hashTransactions H e.transactions))
    else if 0 < e.numHashes then do unwrapHash ((← Poh.new computed none).tick H)
    else some computed
  actual.map (· == e.hash)

/-- The entries, each with the hash of the one before. -/
def pairs : List (Hash × Entry σ) := (start :: entries.map hash).zip entries

def verifyCpuGeneric : Option Bool := (pairs start entries).allM fun (start, e) ↦ e.verify H start

/-- `verify_cpu_x86_simd`; its primitive iterates the hash of every lane. -/
def verifyCpuX86Simd (simdLen : ℕ) : Option Bool :=
  let alignedLen := (entries.length + simdLen - 1) / simdLen * simdLen
  let padding := alignedLen - entries.length
  let hashes := (start :: entries.map hash).take entries.length ++ replicate padding ⟨0⟩
  let numHashes := (entries.map fun e ↦ e.numHashes - 1) ++ replicate padding 0
  ((hashes.chunksOf simdLen).zip (numHashes.chunksOf simdLen)).zipIdx.allM
    fun ((chunk, numHashes), i) ↦
      if simdLen = 8 ∨ simdLen = 16 then
        let chunk := zipWith (fun hash n ↦ H.hash^[n] hash) chunk numHashes
        (((entries.drop (i * simdLen)).take simdLen).zip chunk).allM
          fun (e, computed) ↦ compareHashes H computed e
      else none

end

/-- The body of the loop of `verify_tick_hash_count`; the error is the count it returns with. -/
def countHashes (hashesPerTick tickHashCount : ℕ) (e : Entry σ) : Except ℕ ℕ :=
  let tickHashCount := saturatingAdd 64 tickHashCount e.numHashes
  if e.isTick then if tickHashCount ≠ hashesPerTick then .error tickHashCount else .ok 0
  else .ok tickHashCount

def verifyTickHashCount (hashesPerTick tickHashCount : ℕ) (entries : List (Entry σ)) : Bool × ℕ :=
  if hashesPerTick = 0 then (true, tickHashCount)
  else match entries.foldlM (countHashes hashesPerTick) tickHashCount with
    | .error tickHashCount => (false, tickHashCount)
    | .ok tickHashCount => (tickHashCount < hashesPerTick, tickHashCount)

/-- Slices that are verified one after the other, with the count carried over. -/
def verifySlices (hashesPerTick : ℕ) : ℕ → List (List (Entry σ)) → Bool
  | _, [] => true
  | tickHashCount, slice :: slices =>
    let (verified, tickHashCount) := verifyTickHashCount hashesPerTick tickHashCount slice
    verified && verifySlices hashesPerTick tickHashCount slices

/-! ### One meaning of both verifications -/

/-- The last action on the hash of an entry. -/
def finish (e : Entry σ) (computed : Hash) : Hash :=
  if e.isTick then if 0 < e.numHashes then H.hash computed else computed
  else H.hashv computed (hashTransactions H e.transactions)

/-- An entry has the hash it must have behind another. -/
def follows (q : Hash × Entry σ) : Bool := q.2.finish H (H.hash^[q.2.numHashes - 1] q.1) == q.2.hash

/-- The number of hashes is a `u64`, and leaves one to mix in transactions. -/
def Checkable (e : Entry σ) : Prop :=
  e.numHashes ≤ u64Max ∧ (e.isTick = false → e.numHashes < u64Max)

variable {H} {e : Entry σ} {entries : List (Entry σ)} {start : Hash}

lemma compareHashes_eq (computed : Hash) :
    compareHashes H computed e = some (e.finish H computed == e.hash) := by
  rw [compareHashes, finish, isTick]
  cases e.transactions.isEmpty with
  | false => rfl
  | true =>
    by_cases hzero : 0 < e.numHashes
    · simp only [if_pos hzero]
      rfl
    simp only [if_neg hzero]
    rfl

lemma verify_eq (h : e.Checkable) : e.verify H start = some (follows H (start, e)) := by
  obtain ⟨hle, hrecord⟩ := h
  have hmax : u64Max = 2 ^ 64 - 1 := rfl
  obtain ⟨m, hm⟩ : ∃ m, m = e.numHashes - 1 := ⟨_, rfl⟩
  have hadvance := Poh.advance_eq (H := H) (Poh.ready_new start) (n := m) (m := m)
    (by simp only; omega)
  have hready' : Poh.Ready ⟨H.hash^[m] start, 0 + m, u64Max, u64Max - m⟩ :=
    ⟨by simp only; omega, by simp only; omega⟩
  have hnext : nextHash H start e.numHashes e.transactions =
      some (e.finish H (H.hash^[m] start)) := by
    rw [nextHash, finish, ← hm]
    have hnew : Poh.new start none = some ⟨start, 0, u64Max, u64Max⟩ := rfl
    simp only [hnew, some_bind, hadvance]
    cases htick : e.isTick with
    | true =>
      rw [isTick] at htick
      by_cases hzero : e.numHashes = 0
      · rw [if_pos ⟨hzero, htick⟩, if_pos rfl, if_neg (by omega)]
        rw [hzero] at hm
        rw [hm]
        rfl
      rw [if_neg fun h ↦ hzero h.1, if_pos htick, if_pos rfl, if_pos (by omega),
        Poh.tick_eq hready', if_neg fun h ↦ lt_irrefl _ h.1]
      rfl
    | false =>
      rw [isTick] at htick
      have hlt := hrecord htick
      rw [if_neg (by simp [htick]), if_neg (by simp [htick]), if_neg (by decide),
        Poh.record_eq hready' (by simp only; omega)]
      rfl
  rw [verify, hnext, follows, ← hm]
  rfl

lemma allM_eq_all {α : Type} {l : List α} {f : α → Option Bool} {g : α → Bool}
    (h : ∀ a ∈ l, f a = some (g a)) : l.allM f = some (l.all g) := by
  induction l with
  | nil => rfl
  | cons a l ih =>
    rw [allM, h a mem_cons_self, some_bind, all_cons]
    cases g a with
    | false => rfl
    | true => exact ih fun b hb ↦ h b (mem_cons_of_mem a hb)

lemma verifyCpuGeneric_eq (h : ∀ e ∈ entries, e.Checkable) :
    verifyCpuGeneric H start entries = some ((pairs start entries).all (follows H)) :=
  allM_eq_all fun _ hq ↦ verify_eq (h _ (of_mem_zip hq).2)

lemma zip_zipWith_pairs {β : Type} (f : Hash → ℕ → β) (x : List Hash) (y : List ℕ) :
    entries.zip (zipWith f ((start :: entries.map hash).take entries.length ++ x)
      ((entries.map fun e ↦ e.numHashes - 1) ++ y)) =
      (pairs start entries).map fun q ↦ (q.2, f q.1 (q.2.numHashes - 1)) := by
  induction entries generalizing start with
  | nil => rfl
  | cons e entries ih => exact congrArg _ ih

/-- The lanes compute what the entries are compared with one by one. -/
theorem verifyCpuX86Simd_eq {simdLen : ℕ} (hlen : simdLen = 8 ∨ simdLen = 16) :
    verifyCpuX86Simd H start entries simdLen = some ((pairs start entries).all (follows H)) := by
  have hpos : 0 < simdLen := by omega
  obtain ⟨k, hk⟩ : ∃ k, k = (entries.length + simdLen - 1) / simdLen := ⟨_, rfl⟩
  have hle : entries.length ≤ k * simdLen := by
    have hmod := Nat.div_add_mod' (entries.length + simdLen - 1) simdLen
    have hlt := Nat.mod_lt (entries.length + simdLen - 1) hpos
    rw [← hk] at hmod
    omega
  have hchunks : (k * simdLen + simdLen - 1) / simdLen = k := by
    rw [Nat.add_sub_assoc hpos, Nat.mul_comm, Nat.mul_add_div hpos,
      Nat.div_eq_of_lt (Nat.sub_lt hpos Nat.one_pos), Nat.add_zero]
  have hzip := @zip_zipWith_pairs _ entries start _ (fun hash n ↦ H.hash^[n] hash)
    (replicate (k * simdLen - entries.length) ⟨0⟩)
    (replicate (k * simdLen - entries.length) 0)
  simp only [verifyCpuX86Simd, ← hk, if_pos hlen]
  rw [allM_eq_all fun q _ ↦ allM_eq_all fun p _ ↦ compareHashes_eq p.2,
    all_chunksOf_zip hpos (k := k), hzip, all_map]
  · rfl
  · simp [Nat.add_sub_of_le hle, hchunks]
  · simp [Nat.add_sub_of_le hle, hchunks]
  rw [hzip, hk]
  simp [pairs]

/-! ### Hashes between ticks -/

def sinceTick (entries : List (Entry σ)) : ℕ :=
  entries.foldl (fun n e ↦ if e.isTick then 0 else n + e.numHashes) 0

lemma sinceTick_concat :
    sinceTick (entries ++ [e]) = if e.isTick then 0 else sinceTick entries + e.numHashes := by
  rw [sinceTick, foldl_append]
  rfl

/-- An entry behind others: a tick closes the hashes of a tick, and other entries leave one. -/
def Closes (hashesPerTick : ℕ) (entries : List (Entry σ)) (e : Entry σ) : Prop :=
  if e.isTick then sinceTick entries + e.numHashes = hashesPerTick
  else sinceTick entries + e.numHashes < hashesPerTick

/-- Every entry closes the hashes of a tick, or leaves one. -/
def Regular (hashesPerTick : ℕ) (entries : List (Entry σ)) : Prop :=
  ∀ a e b, entries = a ++ e :: b → Closes hashesPerTick a e

variable {n : ℕ}

lemma Regular.concat (h : Regular n entries) (he : Closes n entries e) :
    Regular n (entries ++ [e]) := by
  intro a e' b heq
  rcases eq_nil_or_concat b with rfl | ⟨b, x, rfl⟩
  · obtain ⟨rfl, hlast⟩ := append_inj' heq rfl
    obtain rfl := singleton_inj.mp hlast
    exact he
  rw [concat_eq_append, ← cons_append, ← append_assoc] at heq
  exact h a e' b (append_inj' heq rfl).1

lemma Regular.sinceTick_lt (hpos : 0 < n) (h : Regular n entries) : sinceTick entries < n := by
  rcases eq_nil_or_concat entries with rfl | ⟨a, e, rfl⟩
  · exact hpos
  rw [concat_eq_append] at h ⊢
  have he := h a e [] rfl
  rw [Closes] at he
  rw [sinceTick_concat]
  split at he
  next htick => rwa [if_pos htick]
  next htick => rwa [if_neg htick]

lemma Closes.countHashes_eq (hmax : n < u64Max) (h : Closes n entries e) :
    countHashes n (sinceTick entries) e = .ok (sinceTick (entries ++ [e])) := by
  have hsum : saturatingAdd 64 (sinceTick entries) e.numHashes =
      sinceTick entries + e.numHashes := by
    rw [u64Max] at hmax
    rw [Closes] at h
    rw [saturatingAdd]
    split at h <;> omega
  rw [Closes] at h
  rw [countHashes, sinceTick_concat, hsum]
  split at h
  next htick => simp only [if_pos htick, h, ne_eq, not_true, if_false]
  next htick => simp only [if_neg htick]

variable {a s : List (Entry σ)}

lemma Regular.foldlM_countHashes (hmax : n < u64Max) (h : Regular n (a ++ s)) :
    s.foldlM (countHashes n) (sinceTick a) = .ok (sinceTick (a ++ s)) := by
  induction s generalizing a with
  | nil =>
    rw [append_nil]
    rfl
  | cons e s ih =>
    have he := h a e s rfl
    rw [append_cons] at h ⊢
    rw [foldlM_cons, he.countHashes_eq hmax]
    exact ih h

/-- Slices: what was counted in one is carried over to the next. -/
theorem Regular.verifySlices (hpos : 0 < n) (hmax : n < u64Max) {slices : List (List (Entry σ))}
    (h : Regular n (a ++ slices.flatten)) : verifySlices n (sinceTick a) slices = true := by
  induction slices generalizing a with
  | nil => rfl
  | cons slice slices ih =>
    rw [flatten_cons, ← append_assoc] at h
    have hslice : Regular n (a ++ slice) := by
      intro b e c heq
      exact h b e (c ++ slices.flatten) (by rw [heq, append_assoc, cons_append])
    rw [Entry.verifySlices, verifyTickHashCount, if_neg hpos.ne', hslice.foldlM_countHashes hmax]
    simp only [decide_eq_true (hslice.sinceTick_lt hpos), Bool.true_and]
    exact ih h

end Entry

/-! ### Every run of a producer -/

/-- A call of a producer; transactions are recorded by their hash. -/
inductive PohCall (σ : Type) where
  | hash (maxNumHashes : ℕ)
  | record (transactions : List (List σ)) (nonempty : transactions.isEmpty = false)
  | tick

namespace Poh

open Entry

/-- The entry that a call returned, with its transactions. -/
def send (entries : List (Entry σ)) (transactions : List (List σ)) :
    Option PohEntry × Poh → Poh × List (Entry σ)
  | (none, p) => (p, entries)
  | (some e, p) => (p, entries ++ [⟨e.numHashes, e.hash, transactions⟩])

def step (s : Poh × List (Entry σ)) : PohCall σ → Option (Poh × List (Entry σ))
  | .hash maxNumHashes => (s.1.advance H maxNumHashes).map fun r ↦ (r.2, s.2)
  | .record transactions _ =>
    (s.1.record H (hashTransactions H transactions)).map (send s.2 transactions)
  | .tick => (s.1.tick H).map (send s.2 [])

/-- The hash of the last entry. -/
def tip (start : Hash) (entries : List (Entry σ)) : Hash := entries.foldl (fun _ e ↦ e.hash) start

/-- **What a producer keeps**: its hash is the last one sent, hashed as often as it counted, and its
entries follow each other. -/
structure Produced (start : Hash) (hashesPerTick : ℕ) (s : Poh × List (Entry σ)) : Prop where
  perTick : s.1.hashesPerTick = hashesPerTick
  pos : 0 < s.1.remainingHashes
  le : s.1.numHashes + s.1.remainingHashes ≤ hashesPerTick
  hash : s.1.hash = H.hash^[s.1.numHashes] (tip start s.2)
  chained : (pairs start s.2).all (follows H) = true
  checkable : ∀ e ∈ s.2, e.Checkable
  regular : hashesPerTick < u64Max → Regular hashesPerTick s.2 ∧
    sinceTick s.2 + s.1.numHashes + s.1.remainingHashes = hashesPerTick

variable {H} {start : Hash} {n : ℕ} {p : Poh} {entries : List (Entry σ)} {e : Entry σ}

lemma all_pairs_concat (f : Hash × Entry σ → Bool) : (pairs start (entries ++ [e])).all f =
    ((pairs start entries).all f && f (tip start entries, e)) := by
  induction entries generalizing start with
  | nil => exact Bool.and_comm _ _
  | cons e' entries ih =>
    have hcons : ∀ l, pairs start (e' :: l) = (start, e') :: pairs e'.hash l := fun _ ↦ rfl
    rw [cons_append, hcons, hcons, all_cons, all_cons, ih, Bool.and_assoc]
    rfl

/-- An entry is sent: it follows the others, and the counter of hashes starts again. -/
theorem Produced.concat (h : Produced H start n (p, entries)) {r : ℕ} (hpos : 0 < r) (hle : r ≤ n)
    (hfollows : follows H (tip start entries, e) = true) (hcheck : e.Checkable)
    (hregular : n < u64Max → Closes n entries e ∧ sinceTick (entries ++ [e]) + r = n) :
    Produced H start n (⟨e.hash, 0, n, r⟩, entries ++ [e]) := by
  refine ⟨rfl, hpos, by simpa using hle, ?_, ?_, ?_, fun hmax ↦ ⟨?_, (hregular hmax).2⟩⟩
  · simp [tip]
  · rw [all_pairs_concat, h.chained, hfollows]
    rfl
  · exact forall_mem_append.mpr ⟨h.checkable, forall_mem_singleton.mpr hcheck⟩
  · exact (h.regular hmax).1.concat (hregular hmax).1

/-- Hashes that are only counted, of which one is left. -/
theorem Produced.advance (h : Produced H start n (p, entries)) {m : ℕ}
    (hm : m < p.remainingHashes) :
    Produced H start n (⟨H.hash^[m] p.hash, p.numHashes + m, p.hashesPerTick,
      p.remainingHashes - m⟩, entries) := by
  obtain ⟨hper, hpos, hle, hhash, hfollows, hcheck, hregular⟩ := h
  simp only at hpos hle hhash hregular
  refine ⟨hper, ?_, ?_, ?_, hfollows, hcheck, fun hlt ↦ ⟨(hregular hlt).1, ?_⟩⟩
  · simp only
    omega
  · simp only
    omega
  · simp only
    rw [hhash, ← Function.iterate_add_apply, Nat.add_comm]
  have hsum := (hregular hlt).2
  simp only
  omega

/-- One call: it returns, and what was produced stays so. -/
theorem Produced.step (hmax : n ≤ u64Max) {s : Poh × List (Entry σ)}
    (h : Produced H start n s) (call : PohCall σ) :
    ∃ s', Poh.step H s call = some s' ∧ Produced H start n s' := by
  obtain ⟨p, entries⟩ := s
  have hready : p.Ready := ⟨h.pos, (h.le.trans hmax).trans_lt (by decide)⟩
  obtain ⟨hper, hpos, hle, hhash, -, -, hregular⟩ := id h
  simp only at hper hpos hle hhash hregular
  subst hper
  cases call with
  | hash n =>
    rw [Poh.step, advance_eq hready rfl]
    exact ⟨_, rfl, h.advance (by omega)⟩
  | record transactions hne =>
    by_cases hone : p.remainingHashes = 1
    · rw [Poh.step, record, if_pos hone]
      exact ⟨_, rfl, h⟩
    rw [Poh.step, record_eq hready hone]
    let e : Entry σ := ⟨p.numHashes + 1,
      H.hashv p.hash (hashTransactions H transactions), transactions⟩
    have hnum : e.numHashes = p.numHashes + 1 := rfl
    have htick : e.isTick = false := hne
    refine ⟨_, rfl, h.concat (e := e) (r := p.remainingHashes - 1) (by omega) (by omega) ?_
      ⟨by omega, fun _ ↦ by omega⟩ fun hlt ↦ ?_⟩
    · rw [follows, finish, htick, if_neg (by decide), hnum, Nat.add_sub_cancel, ← hhash]
      exact beq_self_eq_true _
    have hsum := (hregular hlt).2
    rw [Closes, sinceTick_concat, htick, if_neg (by decide), if_neg (by decide)]
    omega
  | tick =>
    rw [Poh.step, tick_eq hready]
    split
    next hopen => exact ⟨_, rfl, h.advance (m := 1) (by omega)⟩
    next hopen =>
      let e : Entry σ := ⟨p.numHashes + 1, H.hash p.hash, []⟩
      have hnum : e.numHashes = p.numHashes + 1 := rfl
      have htick : e.isTick = true := rfl
      refine ⟨_, rfl, h.concat (e := e) (r := p.hashesPerTick) (by omega) le_rfl ?_
        ⟨by omega, nofun⟩ fun hlt ↦ ?_⟩
      · rw [follows, finish, htick, if_pos rfl, hnum, if_pos (Nat.succ_pos _),
          Nat.add_sub_cancel, ← hhash]
        exact beq_self_eq_true _
      have hsum := (hregular hlt).2
      rw [Closes, sinceTick_concat, htick, if_pos rfl, if_pos rfl]
      omega

/-- Every run of a new producer returns, and keeps what it produced. -/
theorem Produced.run (hmax : n ≤ u64Max) (hone : 1 < n) (calls : List (PohCall σ)) :
    ∃ s, calls.foldlM (Poh.step H) (⟨start, 0, n, n⟩, []) = some s ∧ Produced H start n s := by
  refine exists_foldlM_eq_some (fun call _ s h ↦ h.step hmax call) ?_
  refine ⟨rfl, zero_lt_one.trans hone, (Nat.zero_add _).le, rfl, rfl, nofun, fun _ ↦ ⟨?_, ?_⟩⟩
  · intro a e b heq
    simp at heq
  · simp [sinceTick]

/-- **What a producer emits, the verifications accept**, whatever calls it is given: entry by entry
and in lanes, and with a fixed number of hashes for every tick however the entries are cut into
slices. On any entries the verifications agree, unless a tick is used up by one with transactions.
-/
theorem produced_accepted (H : EntryHashing σ) (start : Hash) :
    (∀ (hashesPerTick : Option ℕ) (p : Poh) (calls : List (PohCall σ)),
      (∀ n ∈ hashesPerTick, n ≤ u64Max) → Poh.new start hashesPerTick = some p →
      ∃ p' entries, calls.foldlM (Poh.step H) (p, []) = some (p', entries) ∧
        verifyCpuGeneric H start entries = some true ∧
        (∀ simdLen, simdLen = 8 ∨ simdLen = 16 →
          verifyCpuX86Simd H start entries simdLen = some true) ∧
        ∀ n ∈ hashesPerTick, n < u64Max →
          (∀ a e b, entries = a ++ e :: b → e.isTick = true → sinceTick a + e.numHashes = n) ∧
          ∀ slices, slices.flatten = entries → verifySlices n 0 slices = true) ∧
    ∀ entries : List (Entry σ), (∀ e ∈ entries, e.Checkable) → ∃ verdict,
      verifyCpuGeneric H start entries = some verdict ∧
      (∀ simdLen, simdLen = 8 ∨ simdLen = 16 →
        verifyCpuX86Simd H start entries simdLen = some verdict) ∧
      (verdict = true ↔ ∀ q ∈ pairs start entries, q.2.verify H q.1 = some true) := by
  refine ⟨fun hashesPerTick p calls hu64 hnew ↦ ?_, fun entries hcheck ↦ ?_⟩
  · obtain ⟨n, hn⟩ : ∃ n, n = hashesPerTick.getD u64Max := ⟨_, rfl⟩
    have hmax : n ≤ u64Max := by
      cases hashesPerTick with
      | none => exact hn.le
      | some m => exact hn ▸ hu64 m rfl
    simp only [Poh.new, ← hn, Option.ite_none_right_eq_some, Option.some.injEq] at hnew
    obtain ⟨hone, rfl⟩ := hnew
    obtain ⟨⟨p', entries⟩, hrun, h⟩ := @Produced.run _ H start _ hmax hone calls
    refine ⟨p', entries, hrun, ?_, fun simdLen hlen ↦ ?_, fun m hm hlt ↦ ?_⟩
    · rw [verifyCpuGeneric_eq h.checkable, h.chained]
    · rw [verifyCpuX86Simd_eq hlen, h.chained]
    obtain rfl : hashesPerTick = some m := hm
    obtain rfl : n = m := hn
    have hregular := (h.regular hlt).1
    refine ⟨fun a e b heq htick ↦ ?_, fun slices hslices ↦ ?_⟩
    · have hcloses := hregular a e b heq
      rwa [Closes, if_pos htick] at hcloses
    subst hslices
    exact Regular.verifySlices (a := []) (zero_lt_one.trans hone) hlt hregular
  refine ⟨_, verifyCpuGeneric_eq hcheck, fun _ ↦ verifyCpuX86Simd_eq, ?_⟩
  rw [all_eq_true]
  refine forall₂_congr fun q hq ↦ ?_
  rw [verify_eq (hcheck _ (of_mem_zip hq).2), Option.some.injEq]

/-- A hash that changes nothing. -/
def trivialHashing : EntryHashing Unit := ⟨id, fun hash _ ↦ hash, fun _ ↦ none⟩

theorem produced_accepted_two : ∃ p' entries,
    [.record [[()]] rfl, .hash 5, .tick].foldlM (Poh.step trivialHashing) (⟨⟨0⟩, 0, 2, 2⟩, []) =
        some (p', entries) ∧
      verifyCpuGeneric trivialHashing ⟨0⟩ entries = some true := by
  obtain ⟨p', entries, hrun, haccepted, -⟩ := (produced_accepted trivialHashing ⟨0⟩).1 (some 2)
    ⟨⟨0⟩, 0, 2, 2⟩ [.record [[()]] rfl, .hash 5, .tick] (by decide) rfl
  exact ⟨p', entries, hrun, haccepted⟩

/-- **Transactions with `u64::MAX` hashes**: one verification panics, the other accepts. -/
theorem verifications_differ : verifyCpuGeneric trivialHashing ⟨0⟩ [⟨u64Max, ⟨0⟩, [[()]]⟩] = none ∧
      verifyCpuX86Simd trivialHashing ⟨0⟩ [⟨u64Max, ⟨0⟩, [[()]]⟩] 8 = some true := by
  refine ⟨?_, ?_⟩
  · have hnew : Poh.new ⟨0⟩ none = some ⟨⟨0⟩, 0, u64Max, u64Max⟩ := rfl
    have hadvance := advance_eq (H := trivialHashing) (ready_new ⟨0⟩) (n := u64Max - 1)
      (m := u64Max - 1) rfl
    simp only [verifyCpuGeneric, pairs, map_cons, zip_cons_cons, allM, verify, nextHash, hnew,
      some_bind, hadvance]
    rfl
  rw [verifyCpuX86Simd_eq (.inl rfl)]
  simp [pairs, follows, finish, trivialHashing, isTick]

end Poh

end Renec
