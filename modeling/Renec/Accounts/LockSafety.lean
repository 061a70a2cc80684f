import Renec.Accounts.Locks

/-!
# The lock table is exact

One lemma for each operation says how `held` changes, and the run theorem follows: the batches of a
bank are locked and dropped in any interleaving, each atomically, and in every state the table is
exact for the transactions of the live batches whose result is `Ok`.
-/

namespace Renec

open List AccountLocks
open Option hiding any_eq_true map_id map_map mem_map
open Finmap hiding insert keys

/-! ### The locks of a transaction -/

variable {keys : List Pubkey}

lemma hasDuplicateKeys_eq_false : Message.hasDuplicateKeys keys = false ↔ keys.Nodup := by
  induction keys with
  | nil => simp [Message.hasDuplicateKeys]
  | cons key keys ih =>
    simp [Message.hasDuplicateKeys, ih, nodup_cons]

lemma anyRepeated_eq_false {uniq : List Pubkey} :
    LoadedMessage.anyRepeated uniq keys = false ↔ keys.Nodup ∧ ∀ k ∈ keys, k ∉ uniq := by
  induction keys generalizing uniq with
  | nil => simp [LoadedMessage.anyRepeated]
  | cons key keys ih =>
    simp only [LoadedMessage.anyRepeated, Bool.or_eq_false_iff, ih, nodup_cons,
      mem_cons, forall_eq_or_imp, not_or, contains_eq_mem, decide_eq_false_iff_not]
    constructor
    · rintro ⟨hkey, hn, hne⟩
      exact ⟨⟨fun hmem ↦ (hne key hmem).1 rfl, hn⟩, hkey, fun k hk ↦ (hne k hk).2⟩
    rintro ⟨⟨hmem, hn⟩, hkey, hnot⟩
    exact ⟨hkey, hn, fun k hk ↦ ⟨fun heq ↦ hmem (heq ▸ hk), hnot k hk⟩⟩

variable {tx : SanitizedTransaction} {active : Bool}

namespace SanitizedTransaction

variable {locks : TransactionAccountLocks}

lemma perm_of_getAccountLocksUnchecked (h : tx.getAccountLocksUnchecked = some locks) :
    (locks.writable ++ locks.readonly).Perm tx.message.accountKeys := by
  simp only [getAccountLocksUnchecked, bind_eq_some, pure_eq_some] at h
  obtain ⟨flagged, hflagged, rfl⟩ := h
  have hkeys : flagged.map Prod.fst = tx.message.accountKeys := by
    rw [map_eq_of_mapM_eq_some (g := Prod.fst) hflagged, zipIdx_map_fst]
    rintro ⟨key, i⟩ - b hb
    obtain ⟨w, -, rfl⟩ := map_eq_some_iff.1 hb
    rfl
  have hperm : ((flagged.filter fun p ↦ p.2) ++ flagged.filter fun p ↦ !p.2).Perm flagged :=
    filter_append_perm _ _
  rw [← map_append, ← hkeys]
  exact hperm.map Prod.fst

lemma exists_isWritable (tx : SanitizedTransaction) {i : ℕ}
    (hi : i < tx.message.accountKeys.length) : ∃ b, tx.message.isWritable i = some b := by
  have hsane := tx.sane
  rcases hm : tx.message with m | m
  · rw [hm] at hi hsane
    obtain ⟨hunsigned, hsigned⟩ := hsane
    have hindex : ∃ b, m.isWritableIndex i = some b := by
      have hsub : checkedSub m.header.numRequiredSignatures m.header.numReadonlySignedAccounts =
          some _ := if_pos hsigned.le
      have hsub' : checkedSub m.accountKeys.length m.header.numReadonlyUnsignedAccounts =
          some _ := if_pos (by omega)
      simp only [Message.isWritableIndex, hsub, hsub', some_bind]
      split
      · exact ⟨_, rfl⟩
      · split <;> exact ⟨_, rfl⟩
    obtain ⟨b, hb⟩ := hindex
    have hkey : m.accountKeys[i]? = some m.accountKeys[i] := List.getElem?_eq_getElem hi
    show ∃ b, m.isWritable i = some b
    simp only [Message.isWritable, hb, hkey, some_bind]
    split <;> exact ⟨_, rfl⟩
  · exact ⟨_, rfl⟩

lemma exists_getAccountLocksUnchecked (tx : SanitizedTransaction) :
    ∃ locks, tx.getAccountLocksUnchecked = some locks := by
  have hflagged (f : Pubkey × ℕ → Option (Pubkey × Bool))
      (hf : ∀ p, f p = (tx.message.isWritable p.2).map (p.1, ·)) :
      ∃ flagged, tx.message.accountKeys.zipIdx.mapM f = some flagged := by
    refine exists_mapM_eq_some fun p hp ↦ ?_
    obtain ⟨b, hb⟩ := tx.exists_isWritable (snd_lt_of_mem_zipIdx hp)
    exact ⟨(p.1, b), by rw [hf, hb]; rfl⟩
  obtain ⟨flagged, hflagged⟩ := hflagged _ fun _ ↦ rfl
  exact ⟨_, by rw [getAccountLocksUnchecked, hflagged]; rfl⟩

lemma nodup_of_hasDuplicates (h : tx.message.hasDuplicates = false) :
    tx.message.accountKeys.Nodup := by
  rcases hm : tx.message with m | m
  · rw [hm] at h
    exact hasDuplicateKeys_eq_false.1 h
  rw [hm] at h
  exact (anyRepeated_eq_false.1 h).1

lemma getAccountLocks_cases {result : Except TransactionError TransactionAccountLocks}
    (h : tx.getAccountLocks active = some result) :
    (∃ locks, result = .ok locks ∧ tx.getAccountLocksUnchecked = some locks ∧
        (locks.writable ++ locks.readonly).Nodup) ∨
      result = .error .accountLoadedTwice ∨ result = .error .tooManyAccountLocks := by
  unfold getAccountLocks at h
  rcases hdup : tx.message.hasDuplicates with - | -
  · simp only [hdup, Bool.false_eq_true, if_false] at h
    split at h
    · exact .inr (.inr (some.inj h).symm)
    obtain ⟨locks, hlocks, rfl⟩ := map_eq_some_iff.1 h
    exact .inl ⟨locks, rfl, hlocks,
      (perm_of_getAccountLocksUnchecked hlocks).nodup_iff.mpr (nodup_of_hasDuplicates hdup)⟩
  simp only [hdup, if_true, some.injEq] at h
  exact .inr (.inl h.symm)

end SanitizedTransaction

/-- Two transactions can hold their locks at the same time. -/
def TransactionAccountLocks.Compatible (h g : TransactionAccountLocks) : Prop :=
  ∀ k, (k ∈ h.writable → k ∉ g.writable ∧ k ∉ g.readonly) ∧
    (k ∈ g.writable → k ∉ h.writable ∧ k ∉ h.readonly)

variable {h : TransactionAccountLocks}

lemma TransactionAccountLocks.Compatible.symm {g : TransactionAccountLocks} (hc : h.Compatible g) :
    g.Compatible h :=
  fun k ↦ (hc k).symm

variable {txLocks : List (Except TransactionError TransactionAccountLocks)} {l : AccountLocks}

namespace AccountLocks

/-- The number of readers of an account. -/
def readonlyCount (l : AccountLocks) (key : Pubkey) : ℕ := (l.readonlyLocks.lookup key).getD 0

/-- Accounts without readers are not kept. -/
def Positive (l : AccountLocks) : Prop := ∀ k c, l.readonlyLocks.lookup k = some c → 0 < c

variable {l' : AccountLocks} {key : Pubkey}

lemma isLockedReadonly_eq_false : l.isLockedReadonly key = false ↔ l.readonlyCount key = 0 := by
  unfold isLockedReadonly readonlyCount
  cases l.readonlyLocks.lookup key <;> simp

/-! ### Readers -/

lemma readonlyCount_insert (c : ℕ) (k : Pubkey) :
    ({ l with readonlyLocks := l.readonlyLocks.insert key c } : AccountLocks).readonlyCount k =
      if k = key then c else l.readonlyCount k := by
  unfold readonlyCount
  split
  · subst k
    rw [lookup_insert, getD_some]
  · rw [lookup_insert_of_ne _ (by assumption)]

lemma Positive.insert (h : l.Positive) {c : ℕ} (hc : 0 < c) :
    ({ l with readonlyLocks := l.readonlyLocks.insert key c } : AccountLocks).Positive := by
  intro k c' hk
  by_cases hkey : k = key
  · subst k
    rw [lookup_insert, some.injEq] at hk
    rwa [← hk]
  rw [lookup_insert_of_ne _ hkey] at hk
  exact h k c' hk

lemma addReader_spec (h : l.addReader key = some l') : l'.writeLocks = l.writeLocks ∧
      (∀ k, l'.readonlyCount k = l.readonlyCount k + if k = key then 1 else 0) ∧
      (l.Positive → l'.Positive) := by
  unfold addReader lockReadonly insertNewReadonly at h
  rcases hkey : l.readonlyLocks.lookup key with - | c
  · simp only [hkey, some_bind, Bool.false_eq_true, if_false, some.injEq] at h
    subst h
    refine ⟨rfl, fun k ↦ ?_, fun hpos ↦ hpos.insert Nat.one_pos⟩
    rw [readonlyCount_insert]
    split
    · subst k
      simp [readonlyCount, hkey]
    · rfl
  simp only [hkey, bind_eq_some, checkedAdd_eq_some, Option.pure_def, some.injEq,
    Prod.exists, Prod.mk.injEq] at h
  obtain ⟨b, l₁, ⟨_, ⟨-, rfl⟩, rfl, rfl⟩, h⟩ := h
  simp only [if_true, some.injEq] at h
  subst h
  refine ⟨rfl, fun k ↦ ?_, fun hpos ↦ hpos.insert (Nat.succ_pos c)⟩
  rw [readonlyCount_insert]
  split
  · subst k
    simp [readonlyCount, hkey]
  · rfl

lemma addReaders_spec (h : keys.foldlM addReader l = some l') :
    l'.writeLocks = l.writeLocks ∧ (∀ k, l'.readonlyCount k = l.readonlyCount k + keys.count k) ∧
      (l.Positive → l'.Positive) := by
  induction keys generalizing l with
  | nil =>
    obtain rfl : l = l' := by simpa using h
    exact ⟨rfl, fun k ↦ by simp, id⟩
  | cons key keys ih =>
    simp only [foldlM_cons, bind_eq_some] at h
    obtain ⟨l₁, h₁, h⟩ := h
    obtain ⟨hw, hc, hp⟩ := addReader_spec h₁
    obtain ⟨hw', hc', hp'⟩ := ih h
    refine ⟨hw'.trans hw, fun k ↦ ?_, hp' ∘ hp⟩
    rw [hc', hc, count_cons]
    simp only [beq_iff_eq, eq_comm (a := key)]
    omega

lemma exists_unlockReadonly (h : l.Positive) (key : Pubkey) :
    ∃ l', l.unlockReadonly key = some l' ∧ l'.writeLocks = l.writeLocks ∧
      (∀ k, l'.readonlyCount k = l.readonlyCount k - if k = key then 1 else 0) ∧ l'.Positive := by
  rcases hkey : l.readonlyLocks.lookup key with - | c
  · refine ⟨l, by simp only [unlockReadonly, hkey], rfl, fun k ↦ ?_, h⟩
    split_ifs with hk
    · rw [hk, readonlyCount, hkey]
      rfl
    · rfl
  have hc : l.readonlyCount key = c := by simp [readonlyCount, hkey]
  have hsub : checkedSub c 1 = some (c - 1) := if_pos (h key c hkey)
  by_cases hone : c - 1 = 0
  · -- the last reader: the key is removed
    refine ⟨{ l with readonlyLocks := l.readonlyLocks.erase key }, ?_, rfl, fun k ↦ ?_, ?_⟩
    · simp [unlockReadonly, hkey, hsub, hone]
    · split_ifs with hk
      · rw [hk, hc, hone, readonlyCount, lookup_erase]
        rfl
      rw [readonlyCount, lookup_erase_ne hk]
      rfl
    intro k c' hk'
    by_cases hk : k = key
    · rw [hk, lookup_erase] at hk'
      exact absurd hk' (by simp)
    rw [lookup_erase_ne hk] at hk'
    exact h k c' hk'
  refine ⟨{ l with readonlyLocks := l.readonlyLocks.insert key (c - 1) }, ?_, rfl, fun k ↦ ?_,
    h.insert (Nat.pos_of_ne_zero hone)⟩
  · simp [unlockReadonly, hkey, hsub, hone]
  rw [readonlyCount_insert]
  split_ifs with hk
  · rw [hk, hc]
  · rfl

lemma exists_unlockReaders (h : l.Positive) (keys : List Pubkey) :
    ∃ l', keys.foldlM unlockReadonly l = some l' ∧ l'.writeLocks = l.writeLocks ∧
      (∀ k, l'.readonlyCount k = l.readonlyCount k - keys.count k) ∧ l'.Positive := by
  induction keys generalizing l with
  | nil => exact ⟨l, rfl, rfl, fun k ↦ rfl, h⟩
  | cons key keys ih =>
    obtain ⟨l₁, h₁, hwrite, hreaders, hpos⟩ := exists_unlockReadonly h key
    obtain ⟨l', h', hwrite', hreaders', hpos'⟩ := ih hpos
    refine ⟨l', by simp [h₁, h'], hwrite'.trans hwrite, fun k ↦ ?_, hpos'⟩
    have hk := hreaders k
    have hk' := hreaders' k
    rw [count_cons]
    simp only [beq_iff_eq, eq_comm (a := key)]
    omega

/-! ### Writers -/

lemma mem_foldl_insert (s : Finset Pubkey) (k : Pubkey) :
    k ∈ keys.foldl (fun s k ↦ insert k s) s ↔ k ∈ s ∨ k ∈ keys := by
  induction keys generalizing s with
  | nil => simp
  | cons key keys ih =>
    rw [foldl_cons, ih, Finset.mem_insert, mem_cons]
    tauto

lemma foldl_unlockWrite (l : AccountLocks) (keys : List Pubkey) :
    (keys.foldl unlockWrite l).readonlyLocks = l.readonlyLocks ∧
      ∀ k, k ∈ (keys.foldl unlockWrite l).writeLocks ↔ k ∈ l.writeLocks ∧ k ∉ keys := by
  induction keys generalizing l with
  | nil => simp
  | cons key keys ih =>
    obtain ⟨hr, hw⟩ := ih (l.unlockWrite key)
    refine ⟨hr, fun k ↦ ?_⟩
    rw [foldl_cons, hw, unlockWrite, Finset.mem_erase, mem_cons]
    tauto

lemma exists_unlockAccount (h : l.Positive) (writable readonly : List Pubkey) :
    ∃ l', l.unlockAccount writable readonly = some l' ∧
      (∀ k, k ∈ l'.writeLocks ↔ k ∈ l.writeLocks ∧ k ∉ writable) ∧
      (∀ k, l'.readonlyCount k = l.readonlyCount k - readonly.count k) ∧ l'.Positive := by
  obtain ⟨hsame, hwrite⟩ := foldl_unlockWrite l writable
  obtain ⟨l', hunlock, hw, hc, hp⟩ := exists_unlockReaders (l := writable.foldl unlockWrite l)
    (fun k c hk ↦ h k c (hsame ▸ hk)) readonly
  refine ⟨l', hunlock, fun k ↦ by rw [hw, hwrite], fun k ↦ ?_, hp⟩
  rw [hc, readonlyCount, hsame]
  rfl

/-! ### One transaction -/

/-- The table is what the transactions that hold locks account for, and these are compatible. -/
structure Exact (l : AccountLocks) (held : List TransactionAccountLocks) : Prop where
  write : ∀ k, k ∈ l.writeLocks ↔ ∃ h ∈ held, k ∈ h.writable
  readers : ∀ k, l.readonlyCount k = held.countP fun h ↦ decide (k ∈ h.readonly)
  positive : l.Positive
  compatible : held.Pairwise TransactionAccountLocks.Compatible
  nodup : ∀ h ∈ held, (h.writable ++ h.readonly).Nodup

variable {held : List TransactionAccountLocks}

lemma exact_default : Exact default [] where
  write := fun k ↦ by simp [default]
  readers := fun k ↦ by simp [default, readonlyCount]
  positive := fun k c hk ↦ by simp [default] at hk
  compatible := List.Pairwise.nil
  nodup := forall_mem_nil _

lemma Exact.perm {held' : List TransactionAccountLocks} (hl : Exact l held)
    (hp : held.Perm held') : Exact l held' where
  write := fun k ↦ by simpa only [hp.mem_iff] using hl.write k
  readers := fun k ↦ (hl.readers k).trans (hp.countP_eq _)
  positive := hl.positive
  compatible := hp.pairwise hl.compatible fun hc ↦ hc.symm
  nodup := fun h hh ↦ hl.nodup h (hp.mem_iff.2 hh)

lemma count_readonly (hn : (h.writable ++ h.readonly).Nodup) (k : Pubkey) :
    h.readonly.count k = if k ∈ h.readonly then 1 else 0 :=
  (nodup_append.1 hn).2.1.count

variable {result : Except TransactionError Unit}

/-- One transaction: it finds an account in use and changes nothing, or all its accounts are free
for it and it takes the locks. -/
theorem lockAccount_cases {w r : List Pubkey} (h : l.lockAccount w r = some (result, l')) :
    (result = .error .accountInUse ∧ l' = l) ∨
      (result = .ok () ∧ (∀ k ∈ w, k ∉ l.writeLocks ∧ l.readonlyCount k = 0) ∧
        (∀ k ∈ r, k ∉ l.writeLocks) ∧
        r.foldlM addReader { l with writeLocks := w.foldl (fun s k ↦ insert k s) l.writeLocks } =
          some l') := by
  unfold lockAccount at h
  split at h
  · cases h
    exact .inl ⟨rfl, rfl⟩
  rename_i hw
  split at h
  · cases h
    exact .inl ⟨rfl, rfl⟩
  rename_i hr
  simp only [bind_eq_some, pure_eq_some, Prod.mk.injEq] at h
  obtain ⟨l₁, hfold, rfl, rfl⟩ := h
  refine .inr ⟨rfl, fun k hk ↦ ?_, fun k hk ↦ ?_, hfold⟩
  · simp only [any_eq_true, Bool.or_eq_true, not_exists, not_and, not_or, Bool.not_eq_true] at hw
    obtain ⟨hwrite, hread⟩ := hw k hk
    exact ⟨of_decide_eq_false hwrite, isLockedReadonly_eq_false.1 hread⟩
  simp only [any_eq_true, not_exists, not_and, Bool.not_eq_true] at hr
  exact of_decide_eq_false (hr k hk)

/-- Locking a transaction adds it to those that hold locks. -/
theorem Exact.lockAccount (hl : Exact l held) (hn : (h.writable ++ h.readonly).Nodup)
    (hlock : l.lockAccount h.writable h.readonly = some (.ok (), l')) : Exact l' (h :: held) := by
  rcases lockAccount_cases hlock with ⟨herr, -⟩ | ⟨-, hw, hr, hfold⟩
  · exact absurd herr (by simp)
  obtain ⟨hwrite, hcount, hpos⟩ := addReaders_spec hfold
  refine ⟨fun k ↦ ?_, fun k ↦ ?_, hpos hl.positive, ?_, ?_⟩
  · rw [hwrite, mem_foldl_insert, hl.write]
    simp only [exists_mem_cons_iff]
    exact or_comm
  · rw [hcount, count_readonly hn, countP_cons, ← hl.readers k]
    simp only [decide_eq_true_eq]
    rfl
  · refine pairwise_cons.2 ⟨fun g hg k ↦ ⟨fun hk ↦ ?_, fun hk ↦ ?_⟩, hl.compatible⟩
    · -- an account that was free has no writer and no reader
      obtain ⟨hkw, hkr⟩ := hw k hk
      refine ⟨fun hgw ↦ hkw ((hl.write k).2 ⟨g, hg, hgw⟩), fun hgr ↦ ?_⟩
      rw [hl.readers, countP_eq_zero] at hkr
      exact hkr g hg (decide_eq_true hgr)
    have hkw : k ∈ l.writeLocks := (hl.write k).2 ⟨g, hg, hk⟩
    exact ⟨fun hh ↦ (hw k hh).1 hkw, fun hh ↦ hr k hh hkw⟩
  · exact forall_mem_cons.mpr ⟨hn, hl.nodup⟩

/-- Unlocking a transaction that holds locks releases exactly these. -/
theorem Exact.unlockAccount (hl : Exact l (h :: held)) :
    ∃ l', l.unlockAccount h.writable h.readonly = some l' ∧ Exact l' held := by
  have hn := hl.nodup h mem_cons_self
  obtain ⟨hcompat, hcompat'⟩ := pairwise_cons.1 hl.compatible
  obtain ⟨l', hunlock, hwrite, hcount, hpos⟩ :=
    exists_unlockAccount hl.positive h.writable h.readonly
  refine ⟨l', hunlock, fun k ↦ ?_, fun k ↦ ?_, hpos, hcompat',
    fun g hg ↦ hl.nodup g (mem_cons_of_mem _ hg)⟩
  · rw [hwrite, hl.write]
    simp only [exists_mem_cons_iff]
    constructor
    · rintro ⟨hk | hk, hnot⟩
      · exact absurd hk hnot
      · exact hk
    rintro ⟨g, hg, hk⟩
    exact ⟨.inr ⟨g, hg, hk⟩, ((hcompat g hg k).2 hk).1⟩
  rw [hcount, hl.readers, countP_cons, count_readonly hn]
  simp only [decide_eq_true_eq, Nat.add_sub_cancel]

/-! ### Batches -/

section

variable {results : List (Except TransactionError Unit)}
  {pairs : List (SanitizedTransaction × Except TransactionError Unit)}

/-- The locks a transaction holds, by its result. -/
def heldWith (tx : SanitizedTransaction) :
    Except TransactionError Unit → Option TransactionAccountLocks
  | .ok () => tx.getAccountLocksUnchecked
  | .error _ => none

/-- The transactions of a batch that hold locks. -/
def heldBy (txs : List SanitizedTransaction) (results : List (Except TransactionError Unit)) :
    List TransactionAccountLocks :=
  (txs.zip results).filterMap fun p ↦ heldWith p.1 p.2

lemma Exact.lockRequested {pre : Except TransactionError Unit}
    {request : Except TransactionError TransactionAccountLocks} (hl : Exact l held)
    (hpre : pre = .ok () ∨ holdsNoLocks pre = true) (hreq : requested active tx pre = some request)
    (hlock : l.lockRequested request = some (result, l')) :
    (result = .ok () ∨ holdsNoLocks result = true) ∧
      Exact l' ((heldWith tx result).toList ++ held) := by
  have herror (e : TransactionError) (he : holdsNoLocks (.error e) = true)
      (hrequest : request = .error e) :
      (result = .ok () ∨ holdsNoLocks result = true) ∧
        Exact l' ((heldWith tx result).toList ++ held) := by
    subst hrequest
    cases hlock
    exact ⟨.inr he, hl⟩
  rcases pre with e | ⟨⟩
  · have he : holdsNoLocks (.error e) = true := by simpa using hpre
    exact herror e he (some.inj hreq).symm
  rcases SanitizedTransaction.getAccountLocks_cases hreq with ⟨locks, rfl, htx, hn⟩ | h | h
  · rcases lockAccount_cases hlock with ⟨rfl, rfl⟩ | ⟨rfl, -⟩
    · exact ⟨.inr rfl, hl⟩
    refine ⟨.inl rfl, ?_⟩
    rw [heldWith, htx]
    exact hl.lockAccount hn hlock
  · exact herror _ rfl h
  · exact herror _ rfl h

/-- A batch: its transactions that could be locked hold locks, and every other one has a result that
says so. -/
theorem Exact.lockAccountsInner (hl : Exact l held)
    (hpre : ∀ p ∈ pairs, p.2 = .ok () ∨ holdsNoLocks p.2 = true)
    (hreq : (pairs.mapM fun p ↦ requested active p.1 p.2) = some txLocks)
    (hlock : l.lockAccountsInner txLocks = some (results, l')) :
    (∀ result ∈ results, result = .ok () ∨ holdsNoLocks result = true) ∧
      Exact l' (heldBy (pairs.map Prod.fst) results ++ held) := by
  induction pairs generalizing l held txLocks results with
  | nil =>
    obtain rfl : [] = txLocks := by simpa using hreq
    obtain ⟨rfl, rfl⟩ : [] = results ∧ l = l' := by
      simpa [lockAccountsInner] using hlock
    exact ⟨by simp, hl⟩
  | cons p pairs ih =>
    simp only [mapM_cons, bind_eq_some, pure_eq_some] at hreq
    obtain ⟨request, hrequest, requests, hrequests, rfl⟩ := hreq
    simp only [lockAccountsInner, bind_eq_some, pure_eq_some, Prod.exists, Prod.mk.injEq] at hlock
    obtain ⟨result, l₁, hfirst, rest, l₂, hrest, rfl, rfl⟩ := hlock
    obtain ⟨hresult, hl₁⟩ := hl.lockRequested (hpre p mem_cons_self) hrequest hfirst
    obtain ⟨hresults, hl₂⟩ := ih hl₁ (fun q hq ↦ hpre q (mem_cons_of_mem _ hq)) hrequests hrest
    refine ⟨?_, hl₂.perm ?_⟩
    · exact forall_mem_cons.mpr ⟨hresult, hresults⟩
    have hcons : heldBy ((p :: pairs).map Prod.fst) (result :: rest) =
        (heldWith p.1 result).toList ++ heldBy (pairs.map Prod.fst) rest := by
      simp only [heldBy, map_cons, zip_cons_cons, filterMap_cons]
      cases heldWith p.1 result <;> rfl
    rw [hcons, append_assoc]
    exact perm_append_comm_assoc _ _ _

lemma length_lockAccountsInner (h : l.lockAccountsInner txLocks = some (results, l')) :
    results.length = txLocks.length := by
  induction txLocks generalizing l results with
  | nil =>
    obtain ⟨rfl, -⟩ : [] = results ∧ l = l' := by simpa [lockAccountsInner] using h
    rfl
  | cons request requests ih =>
    simp only [lockAccountsInner, bind_eq_some, pure_eq_some, Prod.exists, Prod.mk.injEq] at h
    obtain ⟨result, l₁, -, rest, l₂, hrest, rfl, rfl⟩ := h
    rw [length_cons, length_cons, ih hrest]

variable {txs : List SanitizedTransaction}

lemma mapM_filter_eq_heldBy
    (hresults : ∀ result ∈ results, result = .ok () ∨ holdsNoLocks result = true) :
    (((txs.zip results).filter fun p ↦ !holdsNoLocks p.2).mapM fun p ↦
      p.1.getAccountLocksUnchecked) = some (heldBy txs results) := by
  induction txs generalizing results with
  | nil => rfl
  | cons tx txs ih =>
    rcases results with - | ⟨result, results⟩
    · rfl
    obtain ⟨hresult, hrest⟩ := forall_mem_cons.1 hresults
    have hih := ih hrest
    rw [zip_cons_cons]
    rcases hresult with rfl | hskip
    · obtain ⟨locks, hlocks⟩ := tx.exists_getAccountLocksUnchecked
      rw [filter_cons_of_pos rfl, mapM_cons, hih, hlocks]
      simp [heldBy, heldWith, hlocks]
    rw [filter_cons_of_neg (by simpa using hskip), hih]
    rcases result with e | ⟨⟩
    · rfl
    · exact absurd hskip (by simp [holdsNoLocks])

lemma exists_unlockAccounts {P : AccountLocks → List TransactionAccountLocks → Prop}
    (hunlock : ∀ {l h held}, P l (h :: held) →
      ∃ l', l.unlockAccount h.writable h.readonly = some l' ∧ P l' held)
    (hl : P l (heldBy txs results ++ held))
    (hresults : ∀ result ∈ results, result = .ok () ∨ holdsNoLocks result = true) :
    ∃ l', l.unlockAccounts txs results = some l' ∧ P l' held := by
  rw [unlockAccounts, mapM_filter_eq_heldBy hresults]
  generalize heldBy txs results = hs at hl
  show ∃ l', hs.foldlM (fun l keys ↦ l.unlockAccount keys.writable keys.readonly) l = some l' ∧ _
  induction hs generalizing l with
  | nil => exact ⟨l, rfl, hl⟩
  | cons h hs ih =>
    obtain ⟨l₁, h₁, hl₁⟩ := hunlock hl
    obtain ⟨l', h', hl'⟩ := ih hl₁
    exact ⟨l', by simp [h₁, h'], hl'⟩

/-- Unlocking a batch releases the locks of its transactions, and never panics. -/
theorem Exact.unlockAccounts (hl : Exact l (heldBy txs results ++ held))
    (hresults : ∀ result ∈ results, result = .ok () ∨ holdsNoLocks result = true) :
    ∃ l', l.unlockAccounts txs results = some l' ∧ Exact l' held :=
  exists_unlockAccounts Exact.unlockAccount hl hresults

end

end AccountLocks

/-! ### Runs -/

/-- Transactions with their results of locking; the two lists belong together. -/
structure TransactionBatch where
  sanitizedTxs : List SanitizedTransaction
  lockResults : List (Except TransactionError Unit)
  length_eq : lockResults.length = sanitizedTxs.length

def TransactionBatch.held (batch : TransactionBatch) : List TransactionAccountLocks :=
  heldBy batch.sanitizedTxs batch.lockResults

/-- The lock table of a bank, and the batches that have not been dropped yet. -/
structure LockState where
  locks : AccountLocks
  live : List TransactionBatch

namespace LockState

def held (s : LockState) : List TransactionAccountLocks := s.live.flatMap TransactionBatch.held

/-- The mutex makes the locking and the unlocking of a batch one step each. The results a batch can
be prepared with are those of the QoS service. -/
inductive Step : LockState → LockState → Prop
  | lock {s : LockState} {txs : List SanitizedTransaction} {active : Bool}
      {results : List (Except TransactionError Unit)} {l : AccountLocks}
      (h : s.locks.lockAccounts txs active = some (results, l))
      (hlen : results.length = txs.length) :
      Step s ⟨l, ⟨txs, results, hlen⟩ :: s.live⟩
  | lockWithResults {s : LockState} {txs : List SanitizedTransaction} {active : Bool}
      {costs : List (Option CostTrackerError)} {results : List (Except TransactionError Unit)}
      {l : AccountLocks}
      (h : s.locks.lockAccountsWithResults txs (costs.map selectResult) active = some (results, l))
      (hlen : results.length = txs.length) :
      Step s ⟨l, ⟨txs, results, hlen⟩ :: s.live⟩
  | unlock {s : LockState} {before after : List TransactionBatch} {batch : TransactionBatch}
      {l : AccountLocks} (hlive : s.live = before ++ batch :: after)
      (h : s.locks.unlockAccounts batch.sanitizedTxs batch.lockResults = some l) :
      Step s ⟨l, before ++ after⟩

/-- The state of a bank that has prepared no batch. -/
def empty : LockState := ⟨default, []⟩

/-- The invariant: the table is exact, and the results of the live batches can be relied on. -/
structure Sound (s : LockState) : Prop where
  exact : s.locks.Exact s.held
  results : ∀ batch ∈ s.live, ∀ result ∈ batch.lockResults,
    result = .ok () ∨ holdsNoLocks result = true

lemma holdsNoLocks_selectResult (cost : Option CostTrackerError) :
    selectResult cost = .ok () ∨ holdsNoLocks (selectResult cost) = true := by
  rcases cost with - | (- | - | -)
  · exact .inl rfl
  all_goals exact .inr rfl

variable {s : LockState} {batch : TransactionBatch} {before after : List TransactionBatch}

lemma held_perm (hlive : s.live = before ++ batch :: after) :
    s.held.Perm (batch.held ++ (before ++ after).flatMap TransactionBatch.held) := by
  rw [held, hlive, flatMap_append, flatMap_cons, flatMap_append]
  exact perm_append_comm_assoc _ _ _

lemma Sound.lock (hs : s.Sound) (active : Bool)
    (pairs : List (SanitizedTransaction × Except TransactionError Unit))
    (hpre : ∀ p ∈ pairs, p.2 = .ok () ∨ holdsNoLocks p.2 = true)
    (htxs : pairs.map Prod.fst = batch.sanitizedTxs)
    (hreq : (pairs.mapM fun p ↦ requested active p.1 p.2) = some txLocks)
    (hlock : s.locks.lockAccountsInner txLocks = some (batch.lockResults, l)) :
    Sound ⟨l, batch :: s.live⟩ := by
  obtain ⟨hresults, hexact⟩ := hs.exact.lockAccountsInner hpre hreq hlock
  refine ⟨?_, fun b hb ↦ ?_⟩
  · rw [htxs] at hexact
    exact hexact
  rcases mem_cons.1 hb with rfl | hb
  · exact hresults
  · exact hs.results b hb

lemma Sound.unlock (hs : s.Sound) (hlive : s.live = before ++ batch :: after) :
    ∃ l, s.locks.unlockAccounts batch.sanitizedTxs batch.lockResults = some l ∧
      l.Exact ((before ++ after).flatMap TransactionBatch.held) := by
  refine (hs.exact.perm (held_perm hlive)).unlockAccounts (hs.results batch ?_)
  rw [hlive]
  exact mem_append_right _ mem_cons_self

/-- Every step keeps the table exact. -/
theorem Sound.step {t : LockState} (hs : s.Sound) (h : Step s t) : t.Sound := by
  cases h with
  | @lock txs active results l h hlen =>
    simp only [lockAccounts, bind_eq_some] at h
    obtain ⟨txLocks, htx, hlock⟩ := h
    -- no transaction has an error yet
    refine hs.lock active (txs.map fun tx ↦ (tx, .ok ())) ?_ ?_ ?_ hlock
    · intro p hp
      obtain ⟨tx, -, rfl⟩ := mem_map.1 hp
      exact .inl rfl
    · rw [map_map]
      exact map_id txs
    rw [mapM_eq_some_iff, List.forall₂_map_left_iff]
    exact mapM_eq_some_iff.1 htx
  | @lockWithResults txs active costs results l h hlen =>
    simp only [lockAccountsWithResults, bind_eq_some] at h
    obtain ⟨txLocks, htx, hlock⟩ := h
    refine hs.lock active _ ?_ ?_ htx hlock
    · intro p hp
      obtain ⟨cost, -, hcost⟩ := mem_map.1 (of_mem_zip hp).2
      rw [← hcost]
      exact holdsNoLocks_selectResult cost
    have hlen' := length_lockAccountsInner hlock
    have hle := (mapM_eq_some_iff.1 htx).length_eq
    rw [length_zip] at hle
    exact map_fst_zip (by omega)
  | @unlock before after batch l hlive h =>
    obtain ⟨l', h', hl'⟩ := hs.unlock hlive
    obtain rfl : l' = l := some.inj (h'.symm.trans h)
    refine ⟨hl', fun b hb ↦ hs.results b ?_⟩
    rw [hlive]
    exact ((sublist_cons_self batch after).append_left before).subset hb

lemma sound_of_reachable (h : Relation.ReflTransGen Step empty s) : s.Sound := by
  induction h with
  | refl => exact ⟨exact_default, forall_mem_nil _⟩
  | tail _ hstep ih => exact ih.step hstep

/-- **Locks are exclusive and released exactly.** In every state that batches reach by locking and
unlocking in any interleaving:

* the live transactions that hold locks are compatible, and the table holds exactly their locks;
* a transaction that fails to lock changes nothing;
* a live batch can be unlocked, and that releases its own locks and no others. -/
theorem locks_exclusive_and_released {s : LockState} (h : Relation.ReflTransGen Step empty s) :
    s.held.Pairwise TransactionAccountLocks.Compatible ∧
      (∀ k, s.locks.readonlyCount k = s.held.countP fun g ↦ decide (k ∈ g.readonly)) ∧
      (∀ k, k ∈ s.locks.writeLocks ↔ ∃ g ∈ s.held, k ∈ g.writable) ∧
      (∀ w r e l, s.locks.lockAccount w r = some (.error e, l) → l = s.locks) ∧
      ∀ before batch after, s.live = before ++ batch :: after →
        ∃ l, s.locks.unlockAccounts batch.sanitizedTxs batch.lockResults = some l ∧
          (∀ k, k ∈ l.writeLocks ↔ k ∈ s.locks.writeLocks ∧ ∀ g ∈ batch.held, k ∉ g.writable) ∧
          (∀ k, l.readonlyCount k + batch.held.countP (fun g ↦ decide (k ∈ g.readonly)) =
            s.locks.readonlyCount k) ∧
          ∀ g ∈ (before ++ after).flatMap TransactionBatch.held,
            (∀ k ∈ g.writable, k ∈ l.writeLocks) ∧ ∀ k ∈ g.readonly, 0 < l.readonlyCount k := by
  have hs := sound_of_reachable h
  refine ⟨hs.exact.compatible, hs.exact.readers, hs.exact.write, ?_, ?_⟩
  · intro w r e l hlock
    rcases lockAccount_cases hlock with ⟨-, hl⟩ | ⟨hok, -⟩
    · exact hl
    · exact absurd hok (by simp)
  intro before batch after hlive
  obtain ⟨l, hunlock, hl⟩ := hs.unlock hlive
  have hall := hs.exact.perm (held_perm hlive)
  obtain ⟨-, -, hcompat⟩ := pairwise_append.1 hall.compatible
  refine ⟨l, hunlock, fun k ↦ ?_, fun k ↦ ?_, fun g hg ↦ ⟨fun k hk ↦ ?_, fun k hk ↦ ?_⟩⟩
  · rw [hl.write, hall.write]
    constructor
    · rintro ⟨g, hg, hk⟩
      exact ⟨⟨g, mem_append_right _ hg, hk⟩, fun b hb ↦ ((hcompat b hb g hg k).2 hk).1⟩
    rintro ⟨⟨g, hg, hk⟩, hnot⟩
    rcases mem_append.1 hg with hg | hg
    · exact absurd hk (hnot g hg)
    · exact ⟨g, hg, hk⟩
  · rw [hl.readers, hall.readers, countP_append, Nat.add_comm]
  · exact (hl.write k).2 ⟨g, hg, hk⟩
  rw [hl.readers]
  exact countP_pos_iff.2 ⟨g, hg, decide_eq_true hk⟩

/-- A transaction with one account, its fee payer. -/
def payment (key : Pubkey) : SanitizedTransaction :=
  ⟨.legacy ⟨⟨1, 0, 0⟩, [key], default, []⟩, le_rfl, Nat.one_pos⟩

/-- Of two transactions for one account the second is refused, and only the first is held. -/
theorem locks_exclusive_and_released_conflict : ∃ s, Relation.ReflTransGen Step empty s ∧
      s.live.map TransactionBatch.lockResults = [[.ok (), .error .accountInUse]] ∧
      (∀ k, k ∈ s.locks.writeLocks ↔ ∃ g ∈ s.held, k ∈ g.writable) := by
  have hlock : empty.locks.lockAccounts [payment ⟨1⟩, payment ⟨1⟩] true =
      some ([.ok (), .error .accountInUse], ⟨{⟨1⟩}, ∅⟩) := rfl
  have hreach := Relation.ReflTransGen.single (Step.lock hlock rfl)
  exact ⟨_, hreach, rfl, (locks_exclusive_and_released hreach).2.2.1⟩

end LockState

end Renec
