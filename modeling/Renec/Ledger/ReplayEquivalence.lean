import Renec.Ledger.Replay

/-!
# Parallel replay is sequential replay

At any time the loop over the entries has put aside transactions and ticks. `ReplayState.remaining`
are the entries that the state still stands for: the transactions put aside, the ticks, then the
rest. Replaying them one by one from its bank gives what replaying all entries from the start does
(`process_step`, `process_run`). The transactions put aside hold their locks, so their tasks are
independent, and executing them in any order is executing them in ledger order
(`foldlM_of_execution`).
-/

namespace Renec

open List TransactionBatch ReplayBank ReplayState SanitizedTransaction AccountLocks

variable {σ τ : Type}

/-! ### Releasing locks twice -/

variable {batch : TransactionBatch}

namespace AccountLocks

variable {l l' : AccountLocks} {key : Pubkey}

/-- Nothing is locked but what some transactions account for. They may hold less. -/
structure Covered (l : AccountLocks) (held : List TransactionAccountLocks) : Prop where
  write : ∀ k ∈ l.writeLocks, ∃ h ∈ held, k ∈ h.writable
  readers : ∀ k, l.readonlyCount k ≤ (held.flatMap TransactionAccountLocks.readonly).count k
  positive : l.Positive

variable {held : List TransactionAccountLocks}

lemma Exact.covered (h : Exact l held) : Covered l held where
  write := fun k hk ↦ (h.write k).mp hk
  readers := by
    intro k
    rw [h.readers]
    clear h
    induction held with
    | nil => exact le_refl _
    | cons g held ih =>
      rw [countP_cons, flatMap_cons, count_append, Nat.add_comm]
      refine Nat.add_le_add ?_ ih
      split_ifs with hk
      · exact count_pos_iff.mpr (of_decide_eq_true hk)
      · exact Nat.zero_le _
  positive := h.positive

lemma Covered.mono {held' : List TransactionAccountLocks} (h : Covered l held)
    (hsub : held.Sublist held') : Covered l held' where
  write := fun k hk ↦ by
    obtain ⟨g, hg, hkg⟩ := h.write k hk
    exact ⟨g, hsub.subset hg, hkg⟩
  readers := fun k ↦ (h.readers k).trans ((hsub.flatMap _).count_le k)
  positive := h.positive

/-- Releasing the locks of a transaction, held or not. -/
theorem Covered.unlockAccount {g : TransactionAccountLocks} (h : Covered l (g :: held)) :
    ∃ l', l.unlockAccount g.writable g.readonly = some l' ∧ Covered l' held := by
  obtain ⟨l', hunlock, hwrite, hcount, hpos⟩ :=
    exists_unlockAccount h.positive g.writable g.readonly
  refine ⟨l', hunlock, fun k hk ↦ ?_, fun k ↦ ?_, hpos⟩
  · rw [hwrite] at hk
    obtain ⟨g', hg', hkg'⟩ := h.write k hk.1
    rcases mem_cons.mp hg' with rfl | hg'
    · exact absurd hkg' hk.2
    · exact ⟨g', hg', hkg'⟩
  have hcover := h.readers k
  rw [flatMap_cons, count_append] at hcover
  rw [hcount]
  omega

lemma Covered.unlockAccounts (h : Covered l (batch.held ++ held))
    (hresults : ∀ result ∈ batch.lockResults, result = .ok () ∨ holdsNoLocks result = true) :
    ∃ l', l.unlockAccounts batch.sanitizedTxs batch.lockResults = some l' ∧ Covered l' held :=
  exists_unlockAccounts Covered.unlockAccount h hresults

lemma Covered.eq_default (h : Covered l []) : l = default := by
  obtain ⟨writeLocks, readonlyLocks⟩ := l
  have hwrite : writeLocks = ∅ := by
    refine Finset.eq_empty_of_forall_notMem fun k hk ↦ ?_
    obtain ⟨g, hg, -⟩ := h.write k hk
    cases hg
  have hread : readonlyLocks = ∅ := by
    refine Finmap.ext_lookup fun k ↦ ?_
    rw [Finmap.lookup_empty]
    by_contra hsome
    obtain ⟨c, hc⟩ := Option.ne_none_iff_exists'.mp hsome
    have hpos := h.positive k c hc
    have hle := h.readers k
    rw [readonlyCount, hc] at hle
    exact absurd (lt_of_lt_of_le hpos hle) (lt_irrefl 0)
  rw [hwrite, hread]
  rfl

end AccountLocks

/-! ### Groups -/

variable {batches groups : List TransactionBatch}

section

variable {cost : SanitizedTransaction → ℕ} {threadCount : ℕ}
  {lockResults : List (Except TransactionError Unit)} {sanitizedTxs : List SanitizedTransaction}

lemma pairs_new? (h : new? lockResults sanitizedTxs = some batch) :
    batch.pairs = sanitizedTxs.zip lockResults ∧ batch.sanitizedTxs = sanitizedTxs ∧
      batch.lockResults = lockResults := by
  rw [new?] at h
  split_ifs at h
  cases h
  exact ⟨rfl, rfl, rfl⟩

lemma zip_flatMap (batches : List TransactionBatch) :
    (batches.flatMap TransactionBatch.sanitizedTxs).zip
      (batches.flatMap TransactionBatch.lockResults) = batches.flatMap TransactionBatch.pairs := by
  induction batches with
  | nil => rfl
  | cons batch batches ih =>
    rw [flatMap_cons, flatMap_cons, flatMap_cons, zip_append batch.length_eq.symm, ih]
    rfl

variable {α : Type}

lemma take_append_slice (l : List α) {first last : ℕ} (h : first ≤ last + 1) :
    l.take first ++ slice l first last = l.take (last + 1) := by
  have htake : l.take first = (l.take (last + 1)).take first := by
    rw [take_take, min_eq_left h]
  rw [slice, htake, take_append_drop]

lemma zip_slice {β : Type} (l : List α) (l' : List β) (first last : ℕ) :
    (slice l first last).zip (slice l' first last) = slice (l.zip l') first last := by
  rw [slice, slice, slice, zip_eq_zipWith, zip_eq_zipWith, take_zipWith, drop_zipWith]

/-- One transaction of the loop: the groups cover what comes before the next slice, and the last
transaction ends a group. -/
theorem Regrouping.step_spec {target cost index : ℕ} {r r' : Regrouping}
    (hstart : r.sliceStart ≤ index)
    (hpairs : r.txBatches.flatMap pairs = (sanitizedTxs.zip lockResults).take r.sliceStart)
    (h : r.step lockResults sanitizedTxs target (cost, index) = some r') :
    r'.sliceStart ≤ index + 1 ∧ r'.txBatches.flatMap pairs =
        (sanitizedTxs.zip lockResults).take r'.sliceStart ∧
      (index + 1 = sanitizedTxs.length → r'.sliceStart = sanitizedTxs.length) := by
  rw [Regrouping.step] at h
  split_ifs at h with hclose
  · simp only [bind_eq_some, pure_eq_some] at h
    obtain ⟨txBatch, hbatch, rfl⟩ := h
    obtain ⟨hnew, -, -⟩ := pairs_new? hbatch
    refine ⟨le_refl _, ?_, id⟩
    rw [flatMap_append, hpairs, flatMap_cons, flatMap_nil, append_nil, hnew,
      zip_slice, take_append_slice _ (by omega)]
  cases h
  exact ⟨Nat.le_succ_of_le hstart, hpairs, fun hlast ↦ absurd (.inr hlast) hclose⟩

/-- The groups are the batches: every transaction once, in order, with its own result. -/
theorem pairs_of_regroup (h : regroup cost threadCount batches = some (some groups)) :
    groups.flatMap TransactionBatch.pairs = batches.flatMap TransactionBatch.pairs := by
  rw [regroup] at h
  split at h
  swap
  · cases h
  split at h
  · cases h
  simp only [bind_eq_some, Option.pure_def, Option.some.injEq] at h
  obtain ⟨r, hfold, rfl⟩ := h
  rw [← zip_flatMap batches]
  generalize batches.flatMap TransactionBatch.sanitizedTxs = txs at hfold ⊢
  generalize batches.flatMap TransactionBatch.lockResults = results at hfold ⊢
  generalize ((txs.map cost).foldl (saturatingAdd 64) 0) / threadCount = target at hfold
  -- the loop from index `i` on, for any remaining costs
  have hloop : ∀ (costs : List ℕ) (i : ℕ) (r₀ : Regrouping), i + costs.length = txs.length →
      r₀.sliceStart ≤ i → (costs = [] → r₀.sliceStart = txs.length) →
      r₀.txBatches.flatMap TransactionBatch.pairs = (txs.zip results).take r₀.sliceStart →
      (costs.zipIdx i).foldlM (Regrouping.step results txs target) r₀ = some r →
      r.txBatches.flatMap TransactionBatch.pairs = txs.zip results := by
    intro costs
    induction costs with
    | nil =>
      intro i r₀ _ _ hend hpairs hrun
      cases hrun
      rw [hpairs, hend rfl, take_of_length_le]
      rw [length_zip]
      exact min_le_left _ _
    | cons cost costs ih =>
      intro i r₀ hlen hstart _ hpairs hrun
      rw [zipIdx_cons, foldlM_cons, bind_eq_some] at hrun
      obtain ⟨r₁, hstep, hrun⟩ := hrun
      obtain ⟨hstart', hpairs', hlast⟩ := Regrouping.step_spec hstart hpairs hstep
      rw [length_cons] at hlen
      refine ih (i + 1) r₁ (by omega) hstart' (fun hnil ↦ hlast ?_) hpairs' hrun
      rw [hnil, length_nil] at hlen
      omega
  cases htxs : txs with
  | nil =>
    subst htxs
    cases hfold
    rfl
  | cons tx rest =>
    rw [← htxs]
    refine hloop (txs.map cost) 0 ⟨0, 0, []⟩ ?_ (le_refl _) ?_ rfl hfold
    · rw [length_map, Nat.zero_add]
    rw [htxs]
    intro hnil
    cases hnil

end

/-! ### Independent transactions -/

variable {txs : List SanitizedTransaction}

section

variable [DecidableEq σ] {p : TransactionProcessor σ τ} {queue : BlockhashQueue}
  {tx tx' : SanitizedTransaction}

lemma SanitizedTransaction.getAccountLocksUnchecked_eq (tx : SanitizedTransaction) :
    tx.getAccountLocksUnchecked = some tx.locks := by
  obtain ⟨locks, hlocks⟩ := tx.exists_getAccountLocksUnchecked
  rw [SanitizedTransaction.locks, hlocks]
  rfl

lemma SanitizedTransaction.mem_locks (tx : SanitizedTransaction) (key : Pubkey) :
    key ∈ tx.message.accountKeys ↔ key ∈ tx.locks.writable ∨ key ∈ tx.locks.readonly := by
  rw [← mem_append]
  exact (perm_of_getAccountLocksUnchecked tx.getAccountLocksUnchecked_eq).mem_iff.symm

/-- Compatible locks make independent tasks, if anything is written at all. -/
theorem independent_of_compatible (h : tx.locks.Compatible tx'.locks)
    (hwritable : tx.locks.writable ≠ []) : (p.task queue tx).Independent (p.task queue tx') := by
  have hsignature : p.signature tx ≠ p.signature tx' := by
    intro heq
    have hmessage : tx.message = tx'.message := p.signature_injective tx tx' heq
    have hlocks : tx.locks = tx'.locks := by
      rw [SanitizedTransaction.locks, SanitizedTransaction.locks, getAccountLocksUnchecked,
        getAccountLocksUnchecked, hmessage]
    obtain ⟨key, hkey⟩ := exists_mem_of_ne_nil _ hwritable
    exact ((h key).1 hkey).1 (hlocks ▸ hkey)
  have haccount : ∀ {tx tx' : SanitizedTransaction}, tx.locks.Compatible tx'.locks → ∀ key,
      tx.locks.writable.contains key = true →
      tx'.message.accountKeys.contains key = false ∧ tx'.locks.writable.contains key = false := by
    intro tx tx' h key hkey
    obtain ⟨hw, hr⟩ := (h key).1 (contains_iff_mem.mp hkey)
    simp only [contains_eq_mem, decide_eq_false_iff_not, tx'.mem_locks key, not_or]
    exact ⟨⟨hw, hr⟩, hw⟩
  intro c
  cases c with
  | account key => exact ⟨haccount h key, haccount h.symm key⟩
  | status signature =>
    refine ⟨fun hs ↦ ?_, fun hs ↦ ?_⟩
    · obtain rfl := of_decide_eq_true hs
      exact ⟨decide_eq_false hsignature, decide_eq_false hsignature⟩
    obtain rfl := of_decide_eq_true hs
    exact ⟨decide_eq_false hsignature.symm, decide_eq_false hsignature.symm⟩

lemma foldlM_executeTransaction [AddCommMonoid τ] {bank : ReplayBank σ τ}
    (hindep : (txs.map (p.task bank.blockhashQueue)).Pairwise Task.Independent)
    (hresults : ∀ tx ∈ txs, ((p.task bank.blockhashQueue tx).run bank.memory).result = none) :
    txs.foldlM (executeTransaction p) bank = .ok { bank with
      memory := (applyAll (txs.map (p.task bank.blockhashQueue)) (bank.memory, bank.total)).1
      total := (applyAll (txs.map (p.task bank.blockhashQueue)) (bank.memory, bank.total)).2 } := by
  induction txs generalizing bank with
  | nil => rfl
  | cons tx txs ih =>
    rw [map_cons, pairwise_cons] at hindep
    obtain ⟨hfirst, hrest⟩ := forall_mem_cons.mp hresults
    let task := p.task bank.blockhashQueue tx
    let bank' : ReplayBank σ τ :=
      { bank with
        memory := (task.apply (bank.memory, bank.total)).1
        total := (task.apply (bank.memory, bank.total)).2 }
    have hexecute : executeTransaction p bank tx = .ok bank' := by
      rw [executeTransaction]
      simp only [hfirst]
      rfl
    have hrest' : ∀ tx' ∈ txs,
        ((p.task bank'.blockhashQueue tx').run bank'.memory).result = none := by
      intro tx' htx'
      have hind := hindep.1 _ (mem_map_of_mem htx')
      show ((p.task bank.blockhashQueue tx').run (task.write _ bank.memory)).result = none
      rw [hind.run_write]
      exact hrest tx' htx'
    rw [foldlM_cons, hexecute]
    show txs.foldlM (executeTransaction p) bank' = _
    rw [@ih bank' hindep.2 hrest']
    rfl

end

/-! ### Executing what was put aside -/

section

variable [DecidableEq σ] [AddCommMonoid τ] {p : TransactionProcessor σ τ}
  {bank bank' : ReplayBank σ τ}

/-- All transactions of the batches are locked. -/
def AllLocked (batches : List TransactionBatch) : Prop :=
  ∀ batch ∈ batches, ∀ result ∈ batch.lockResults, result = .ok ()

lemma pairs_of_allLocked (h : AllLocked batches) : batches.flatMap pairs =
      (batches.flatMap sanitizedTxs).map fun tx ↦ (tx, .ok ()) := by
  induction batches with
  | nil => rfl
  | cons batch batches ih =>
    obtain ⟨hbatch, hrest⟩ := forall_mem_cons.mp h
    rw [flatMap_cons, flatMap_cons, map_append, ih hrest]
    congr 1
    have hresults : batch.lockResults = replicate batch.sanitizedTxs.length (.ok ()) :=
      eq_replicate_iff.mpr ⟨batch.length_eq, hbatch⟩
    rw [pairs, hresults, ← map_const', map_prod_left_eq_zip]

lemma held_eq_filterMap (batches : List TransactionBatch) : batches.flatMap held =
      (batches.flatMap pairs).filterMap fun q ↦ heldWith q.1 q.2 := by
  rw [filterMap_flatMap]
  rfl

lemma held_of_allLocked (h : AllLocked batches) : batches.flatMap held =
      (batches.flatMap sanitizedTxs).map SanitizedTransaction.locks := by
  rw [held_eq_filterMap, pairs_of_allLocked h, filterMap_map]
  have hlocks : ((fun q : SanitizedTransaction × Except TransactionError Unit ↦
      heldWith q.1 q.2) ∘ fun tx ↦ (tx, .ok ())) = some ∘ SanitizedTransaction.locks := by
    funext tx
    exact tx.getAccountLocksUnchecked_eq
  rw [hlocks, ← filterMap_map, filterMap_some]

/-- An execution in any order, if it succeeds, is the execution in ledger order. -/
theorem foldlM_of_execution {schedule : Schedule} (hlocked : AllLocked batches)
    (hpairs : groups.flatMap pairs = batches.flatMap pairs)
    (hcompatible : (batches.flatMap held).Pairwise TransactionAccountLocks.Compatible)
    (h : bank.executeBatchesInternal p schedule groups = some (.ok bank')) :
    (batches.flatMap sanitizedTxs).foldlM (executeTransaction p) bank =
      .ok bank' ∧ bank'.locks = bank.locks := by
  rw [held_of_allLocked hlocked] at hcompatible
  rw [executeBatchesInternal, hpairs, pairs_of_allLocked hlocked, map_map] at h
  generalize batches.flatMap sanitizedTxs = txs at h hcompatible ⊢
  have htasks : txs.map (p.taskOf bank.blockhashQueue ∘ fun tx ↦ (tx, .ok ())) =
      txs.map (p.task bank.blockhashQueue) := rfl
  rw [htasks] at h
  generalize hrun : interleave (txs.map (p.task bank.blockhashQueue)) schedule.events bank.memory
    bank.total = run at h
  split_ifs at h with hcomplete
  split at h
  · cases h
  next hnone =>
    cases h
    have herrors : ((range (txs.map (p.task bank.blockhashQueue)).length).findSome? fun i ↦
        (run.results i).join) = none := (Option.or_eq_none_iff.mp hnone).1
    rw [findSome?_eq_none_iff] at herrors
    -- no transaction failed, so every one writes something
    have hresult : ∀ i r, run.results i = some r → r = none := by
      intro i r hr
      have hr' := hr
      rw [← hrun] at hr'
      obtain ⟨t, copy, ht, -⟩ := result_of_interleave hr'
      have hi := (List.getElem?_eq_some_iff.mp ht).1
      have hjoin := herrors i (mem_range.mpr hi)
      rw [hr] at hjoin
      exact hjoin
    have htask : ∀ tx ∈ txs, ∃ i : ℕ, (txs.map (p.task bank.blockhashQueue))[i]? =
        some (p.task bank.blockhashQueue tx) := fun tx htx ↦
      mem_iff_getElem?.mp (mem_map_of_mem htx)
    have hwritable : ∀ tx ∈ txs, tx.locks.writable ≠ [] := by
      intro tx htx hnil
      obtain ⟨i, ht⟩ := htask tx htx
      have hlt := (List.getElem?_eq_some_iff.mp ht).1
      obtain ⟨r, hr⟩ := Option.isSome_iff_exists.mp (all_eq_true.mp hcomplete i (mem_range.mpr hlt))
      have hr' := hr
      rw [← hrun] at hr'
      obtain ⟨t, copy, ht', rfl⟩ := result_of_interleave hr'
      rw [ht] at ht'
      cases ht'
      exact p.error_of_not_writable _ tx _ _ hnil (hresult i _ hr)
    have hindep : (txs.map (p.task bank.blockhashQueue)).Pairwise Task.Independent := by
      rw [pairwise_map] at hcompatible ⊢
      exact hcompatible.imp_of_mem fun htx _ hc ↦ independent_of_compatible hc (hwritable _ htx)
    rw [← hrun] at hcomplete
    obtain ⟨hmemory, htotal, hresults⟩ := interleaved_eq_sequential hindep hcomplete
    refine ⟨?_, rfl⟩
    rw [foldlM_executeTransaction hindep, ← hmemory, ← htotal, hrun]
    intro tx htx
    obtain ⟨i, ht⟩ := htask tx htx
    have hr := hresults i _ ht
    rw [hrun] at hr
    exact hresult i _ hr

end

/-! ### Locking and dropping batches -/

/-- The bank without its locks. -/
def ReplayBank.unlocked (bank : ReplayBank σ τ) : ReplayBank σ τ := { bank with locks := default }

/-- A bank some ticks later, none of which ends the slot. -/
structure Ticking (bank : ReplayBank σ τ) (ticks : ℕ) : Prop where
  noBoundary : ∀ n, 0 < n → n ≤ ticks → bank.isBlockBoundary (bank.tickHeight + n) = some false
  lt : 0 < ticks → bank.tickHeight + ticks < 2 ^ 64

variable {ticks : ℕ}

lemma Ticking.unlocked {bank : ReplayBank σ τ} (h : Ticking bank ticks) :
    Ticking bank.unlocked ticks :=
  ⟨h.noBoundary, h.lt⟩

lemma ticking_of_unlocked {bank bank' : ReplayBank σ τ} {ticks : ℕ}
    (h : bank.unlocked = bank'.unlocked) (hticking : Ticking bank ticks) : Ticking bank' ticks := by
  have hunlocked := hticking.unlocked
  rw [h] at hunlocked
  exact ⟨hunlocked.noBoundary, hunlocked.lt⟩

section

variable {bank bank' : ReplayBank σ τ} {s : ReplayState σ τ}

lemma unlockBatch_spec {extra : List TransactionAccountLocks}
    (hresults : ∀ result ∈ batch.lockResults, result = .ok () ∨ holdsNoLocks result = true)
    (hcovered : bank.locks.Covered (batch.held ++ extra))
    (h : bank.unlockBatch batch = some bank') :
    bank'.unlocked = bank.unlocked ∧ bank'.locks.Covered extra := by
  obtain ⟨l, hl, hcovered'⟩ := hcovered.unlockAccounts hresults
  rw [unlockBatch, hl] at h
  cases h
  exact ⟨rfl, hcovered'⟩

lemma unlockBatches_spec {extra : List TransactionAccountLocks} (hlocked : AllLocked batches)
    (hcovered : bank.locks.Covered (batches.flatMap held ++ extra))
    (h : batches.foldlM unlockBatch bank = some bank') :
    bank'.unlocked = bank.unlocked ∧ bank'.locks.Covered extra := by
  induction batches generalizing bank with
  | nil =>
    cases h
    exact ⟨rfl, hcovered⟩
  | cons batch batches ih =>
    obtain ⟨hbatch, hrest⟩ := forall_mem_cons.mp hlocked
    rw [flatMap_cons, append_assoc] at hcovered
    rw [foldlM_cons, bind_eq_some] at h
    obtain ⟨bank₁, hfirst, hfold⟩ := h
    obtain ⟨hsame, hcovered'⟩ := unlockBatch_spec (fun r hr ↦ .inl (hbatch r hr)) hcovered hfirst
    obtain ⟨hsame', hfinal⟩ := ih hrest hcovered' hfold
    exact ⟨hsame'.trans hsame, hfinal⟩

lemma allLocked_of_pairs (hlocked : AllLocked batches)
    (hpairs : groups.flatMap pairs = batches.flatMap pairs) :
    AllLocked groups := by
  intro batch hbatch result hresult
  have hsnd : batch.pairs.map Prod.snd = batch.lockResults := map_snd_zip (le_of_eq batch.length_eq)
  rw [← hsnd] at hresult
  obtain ⟨pair, hpair, rfl⟩ := mem_map.mp hresult
  have hmem : pair ∈ groups.flatMap pairs := mem_flatMap.mpr ⟨batch, hbatch, hpair⟩
  rw [hpairs, pairs_of_allLocked hlocked] at hmem
  obtain ⟨tx, -, rfl⟩ := mem_map.mp hmem
  rfl

/-- The entries that a state still stands for. -/
def ReplayState.remaining (s : ReplayState σ τ) (rest : List EntryType) : List EntryType :=
  .transactions (s.batches.flatMap sanitizedTxs) :: (s.tickHashes.map .tick ++ rest)

/-- **The invariant of the loop**: what was put aside is locked, and its ticks do not end the
slot. -/
structure ReplayState.Sound (s : ReplayState σ τ) : Prop where
  locks : LockState.Sound ⟨s.bank.locks, s.batches⟩
  locked : AllLocked s.batches
  ticking : Ticking s.bank s.tickHashes.length

lemma prepareSanitizedBatch_spec (hsound : LockState.Sound ⟨bank.locks, batches⟩)
    (h : bank.prepareSanitizedBatch txs = some (batch, bank')) :
    bank'.unlocked = bank.unlocked ∧ batch.sanitizedTxs = txs ∧
      LockState.Sound ⟨bank'.locks, batch :: batches⟩ := by
  simp only [prepareSanitizedBatch, bind_eq_some, pure_eq_some, Prod.exists, Prod.mk.injEq] at h
  obtain ⟨lockResults, locks, hlock, batch', hbatch, rfl, rfl⟩ := h
  obtain ⟨-, htxs, hresults⟩ := pairs_new? hbatch
  subst htxs hresults
  exact ⟨rfl, rfl, hsound.step (.lock hlock batch'.length_eq)⟩

lemma firstErr_eq_none {results : List (Except TransactionError Unit)}
    (h : firstErr results = none) : ∀ result ∈ results, result = .ok () := by
  intro result hresult
  have hnone := findSome?_eq_none_iff.mp h result hresult
  rcases result with e | ⟨⟩
  · cases hnone
  · rfl

lemma LockState.Sound.push {locks : AccountLocks} (h : LockState.Sound ⟨locks, batch :: batches⟩) :
    LockState.Sound ⟨locks, batches ++ [batch]⟩ := by
  have hperm : (batch :: batches).Perm (batches ++ [batch]) :=
    (perm_append_singleton batch batches).symm
  exact ⟨h.exact.perm (hperm.flatMap_right _), fun b hb ↦ h.results b (hperm.mem_iff.mpr hb)⟩

lemma allLocked_push (h : AllLocked batches)
    (hbatch : ∀ result ∈ batch.lockResults, result = .ok ()) : AllLocked (batches ++ [batch]) :=
  forall_mem_append.mpr ⟨h, forall_mem_singleton.mpr hbatch⟩

lemma sound_default : LockState.Sound ⟨default, []⟩ := ⟨exact_default, forall_mem_nil _⟩

lemma sound_idle (h : bank.locks = default) (executions : ℕ) :
    ReplayState.Sound ⟨bank, [], [], executions⟩ := by
  refine ⟨?_, forall_mem_nil _, fun n hpos hn ↦ absurd hpos (by simpa using hn),
    fun hpos ↦ absurd hpos (by simp)⟩
  show LockState.Sound ⟨bank.locks, []⟩
  rw [h]
  exact sound_default

end

/-! ### The loop -/

section

variable {p : TransactionProcessor σ τ} {bank bank' : ReplayBank σ τ}

lemma registerTick_spec {hash : Hash} (h : bank.registerTick p hash = some bank') :
    bank.unlocked.registerTick p hash = some bank'.unlocked ∧ bank'.locks = bank.locks := by
  simp only [ReplayBank.registerTick, bind_eq_some] at h ⊢
  obtain ⟨tickHeight, hheight, isBoundary, hboundary, h⟩ := h
  cases isBoundary with
  | true =>
    simp only [if_true, bind_eq_some, pure_eq_some] at h
    obtain ⟨queue, hqueue, rfl⟩ := h
    refine ⟨⟨tickHeight, hheight, true, hboundary, ?_⟩, rfl⟩
    simp only [if_true, bind_eq_some]
    exact ⟨queue, hqueue, rfl⟩
  | false =>
    cases h
    exact ⟨⟨tickHeight, hheight, false, hboundary, rfl⟩, rfl⟩

lemma Ticking.registerTick (h : Ticking bank (ticks + 1)) (hash : Hash) :
    bank.registerTick p hash = some { bank with tickHeight := bank.tickHeight + 1 } ∧
      Ticking { bank with tickHeight := bank.tickHeight + 1 } ticks := by
  have hlt := h.lt (Nat.succ_pos ticks)
  have hheight : checkedAdd 64 bank.tickHeight 1 = some (bank.tickHeight + 1) :=
    checkedAdd_eq_some.mpr ⟨by omega, rfl⟩
  refine ⟨?_, fun n hpos hn ↦ ?_, ?_⟩
  · rw [ReplayBank.registerTick, hheight]
    simp only [some_bind, h.noBoundary 1 Nat.one_pos (Nat.le_add_left 1 ticks)]
    rfl
  · have hn' := h.noBoundary (n + 1) (Nat.succ_pos n) (Nat.succ_le_succ hn)
    rw [Nat.add_comm n 1, ← Nat.add_assoc] at hn'
    exact hn'
  intro _
  show bank.tickHeight + 1 + ticks < 2 ^ 64
  omega

end

section

variable [DecidableEq σ] [AddCommMonoid τ] {p : TransactionProcessor σ τ} {ctx : ReplayContext σ τ}
  {bank bank' : ReplayBank σ τ} {s s' : ReplayState σ τ} {rest : List EntryType}
  {hashes : List Hash}

lemma foldlM_comm {g : ReplayBank σ τ → ReplayBank σ τ}
    (hg : ∀ bank tx, executeTransaction p (g bank) tx = (executeTransaction p bank tx).map g)
    (txs : List SanitizedTransaction) (bank : ReplayBank σ τ) :
    txs.foldlM (executeTransaction p) (g bank) =
      (txs.foldlM (executeTransaction p) bank).map g := by
  induction txs generalizing bank with
  | nil => rfl
  | cons tx txs ih =>
    rw [foldlM_cons, foldlM_cons, hg]
    cases executeTransaction p bank tx with
    | error e => rfl
    | ok bank₁ => exact ih bank₁

lemma foldlM_unlocked (h : txs.foldlM (executeTransaction p) bank = .ok bank') :
    txs.foldlM (executeTransaction p) bank.unlocked = .ok bank'.unlocked := by
  rw [foldlM_comm, h]
  · rfl
  intro bank tx
  simp only [executeTransaction, ReplayBank.unlocked]
  cases ((p.task bank.blockhashQueue tx).run bank.memory).result <;> rfl

lemma sequentialReplay_transactions (txs : List SanitizedTransaction)
    (h : txs.foldlM (executeTransaction p) bank = .ok bank') :
    sequentialReplay p bank (.transactions txs :: rest) = sequentialReplay p bank' rest := by
  rw [sequentialReplay, sequentialEntry, h]
  rfl

lemma sequentialReplay_append (txs txs' : List SanitizedTransaction) :
    sequentialReplay p bank (.transactions txs :: .transactions txs' :: rest) =
      sequentialReplay p bank (.transactions (txs ++ txs') :: rest) := by
  cases h : txs.foldlM (executeTransaction p) bank with
  | error e =>
    have happend : (txs ++ txs').foldlM (executeTransaction p) bank = .error e := by
      rw [foldlM_append, h]
      rfl
    rw [sequentialReplay, sequentialReplay, sequentialEntry, sequentialEntry, h, happend]
    rfl
  | ok bank₁ =>
    rw [sequentialReplay_transactions txs h, sequentialReplay, sequentialReplay,
      sequentialEntry, sequentialEntry, foldlM_append, h]
    rfl

lemma sequentialReplay_tick {hash : Hash} (h : bank.registerTick p hash = some bank') :
    sequentialReplay p bank (.tick hash :: rest) = sequentialReplay p bank' rest := by
  rw [sequentialReplay, sequentialEntry, h]
  rfl

lemma foldlM_withHeight (txs : List SanitizedTransaction) (bank : ReplayBank σ τ) (height : ℕ) :
    txs.foldlM (executeTransaction p) { bank with tickHeight := height } =
      (txs.foldlM (executeTransaction p) bank).map fun bank ↦
        { bank with tickHeight := height } := by
  refine foldlM_comm (g := fun bank ↦ { bank with tickHeight := height })
    (fun bank tx ↦ ?_) txs bank
  simp only [executeTransaction]
  cases ((p.task bank.blockhashQueue tx).run bank.memory).result <;> rfl

lemma foldlM_frame (h : txs.foldlM (executeTransaction p) bank = .ok bank') :
    bank' = { bank with
      memory := bank'.memory
      total := bank'.total } := by
  induction txs generalizing bank with
  | nil =>
    cases h
    rfl
  | cons tx txs ih =>
    rw [foldlM_cons] at h
    cases hfirst : executeTransaction p bank tx with
    | error e =>
      rw [hfirst] at h
      cases h
    | ok bank₁ =>
      rw [hfirst] at h
      have hframe := @ih bank₁ h
      rw [executeTransaction] at hfirst
      split at hfirst
      · cases hfirst
      cases hfirst
      exact hframe

lemma ticking_of_foldlM (h : Ticking bank ticks)
    (hrun : txs.foldlM (executeTransaction p) bank = .ok bank') :
    Ticking bank' ticks := by
  rw [foldlM_frame hrun]
  exact ⟨h.noBoundary, h.lt⟩

/-- Ticks that do not end the slot can wait for transactions that come after them. -/
theorem sequentialReplay_swap (txs : List SanitizedTransaction) (h : Ticking bank hashes.length) :
    sequentialReplay p bank (hashes.map .tick ++ .transactions txs :: rest) =
      sequentialReplay p bank (.transactions txs :: (hashes.map .tick ++ rest)) := by
  induction hashes generalizing bank with
  | nil => rfl
  | cons hash hashes ih =>
    obtain ⟨htick, hticking⟩ := Ticking.registerTick (p := p) h hash
    rw [map_cons, cons_append, cons_append, sequentialReplay_tick htick, ih hticking]
    have hrun := foldlM_withHeight (p := p) txs bank (bank.tickHeight + 1)
    cases hexec : txs.foldlM (executeTransaction p) bank with
    | error e =>
      rw [hexec] at hrun
      rw [sequentialReplay, sequentialReplay, sequentialEntry, sequentialEntry, hrun, hexec]
      rfl
    | ok bank₁ =>
      rw [hexec] at hrun
      have hticking₁ := ticking_of_foldlM h hexec
      have hheight : bank₁.tickHeight = bank.tickHeight := by rw [foldlM_frame hexec]
      rw [sequentialReplay_transactions txs hexec, sequentialReplay_transactions txs hrun,
        sequentialReplay_tick (Ticking.registerTick (p := p) hticking₁ hash).1, hheight]

lemma sequentialReplay_join (txs txs' : List SanitizedTransaction)
    (h : Ticking bank hashes.length) :
    sequentialReplay p bank (.transactions txs ::
      (hashes.map .tick ++ .transactions txs' :: rest)) =
      sequentialReplay p bank (.transactions (txs ++ txs') :: (hashes.map .tick ++ rest)) := by
  rw [← sequentialReplay_append]
  cases hexec : txs.foldlM (executeTransaction p) bank with
  | error e =>
    rw [sequentialReplay, sequentialReplay, sequentialEntry, hexec]
    rfl
  | ok bank₁ =>
    rw [sequentialReplay_transactions txs hexec, sequentialReplay_transactions txs hexec,
      sequentialReplay_swap txs' (ticking_of_foldlM h hexec)]

lemma sequentialReplay_ticks
    (h : hashes.foldlM (fun bank hash ↦ bank.registerTick p hash) bank = some bank') :
    sequentialReplay p bank.unlocked (hashes.map .tick ++ rest) =
      sequentialReplay p bank'.unlocked rest ∧ bank'.locks = bank.locks := by
  induction hashes generalizing bank with
  | nil =>
    cases h
    exact ⟨rfl, rfl⟩
  | cons hash hashes ih =>
    rw [foldlM_cons, bind_eq_some] at h
    obtain ⟨bank₁, htick, hrest⟩ := h
    obtain ⟨hsequential, hlocks⟩ := ih hrest
    obtain ⟨htick', hlocks'⟩ := registerTick_spec htick
    refine ⟨?_, hlocks.trans hlocks'⟩
    rw [map_cons, cons_append, sequentialReplay_tick htick', hsequential]

/-- Executing what was put aside executes it in ledger order and releases its locks. -/
theorem flush_spec {extra : List TransactionAccountLocks} (hlocked : AllLocked s.batches)
    (hcompatible : (s.batches.flatMap held).Pairwise TransactionAccountLocks.Compatible)
    (hcovered : s.bank.locks.Covered (s.batches.flatMap held ++ extra))
    (h : s.flush ctx = some (.ok s')) :
    s'.batches = [] ∧ s'.tickHashes = s.tickHashes ∧ (s.batches.flatMap sanitizedTxs).foldlM
        (executeTransaction ctx.processor) s.bank.unlocked = .ok s'.bank.unlocked ∧
      s'.bank.locks.Covered extra := by
  simp only [flush, executeBatches, bind_eq_some] at h
  obtain ⟨result, ⟨groups, hgroups, run, hrun, hresult⟩, h⟩ := h
  cases run with
  | error e =>
    cases hresult
    cases h
  | ok bank₁ =>
    obtain ⟨bank₂, hdrop, hresult⟩ := bind_eq_some.mp hresult
    cases hresult
    obtain ⟨bank₃, hclear, h⟩ := bind_eq_some.mp h
    cases h
    have hpairs : (groups.getD s.batches).flatMap pairs = s.batches.flatMap pairs := by
      cases groups with
      | none => rfl
      | some groups => exact pairs_of_regroup hgroups
    obtain ⟨hexec, hlocks⟩ := foldlM_of_execution hlocked hpairs hcompatible hrun
    -- the groups first, which are the same transactions
    have hdropped : bank₂.unlocked = bank₁.unlocked ∧
        bank₂.locks.Covered (s.batches.flatMap held ++ extra) := by
      rw [← hlocks] at hcovered
      cases groups with
      | none =>
        cases hdrop
        exact ⟨rfl, hcovered⟩
      | some groups =>
        exact unlockBatches_spec (allLocked_of_pairs hlocked hpairs)
          (hcovered.mono (sublist_append_right _ _)) hdrop
    obtain ⟨hcleared, hrest⟩ := unlockBatches_spec hlocked hdropped.2 hclear
    refine ⟨rfl, rfl, ?_, hrest⟩
    rw [foldlM_unlocked hexec, hcleared, hdropped.1]

lemma sequentialReplay_nil :
    sequentialReplay p bank (.transactions [] :: rest) = sequentialReplay p bank rest :=
  sequentialReplay_transactions [] rfl

/-- The end of a slot: what was put aside is executed, then its ticks are registered. -/
theorem finish_spec {s₁ : ReplayState σ τ} (hflush : s.flush ctx = some (.ok s₁))
    (hticks : s₁.registerTicks ctx = some s') (hs : LockState.Sound ⟨s.bank.locks, s.batches⟩)
    (hlocked : AllLocked s.batches) (rest : List EntryType) :
    ∃ bank' n, s' = ⟨bank', [], [], n⟩ ∧ bank'.locks = default ∧
      sequentialReplay ctx.processor s.bank.unlocked (s.remaining rest) =
        sequentialReplay ctx.processor bank'.unlocked rest := by
  have hcovered : s.bank.locks.Covered (s.batches.flatMap held ++ []) := by
    rw [append_nil]
    exact hs.exact.covered
  obtain ⟨hbatches, hhashes, hexec, hnone⟩ := flush_spec hlocked hs.exact.compatible hcovered hflush
  simp only [registerTicks, bind_eq_some, pure_eq_some] at hticks
  obtain ⟨bank', hfold, rfl⟩ := hticks
  obtain ⟨hsequential, hlocks⟩ := @sequentialReplay_ticks _ _ _ _ _ _ _ rest _ hfold
  refine ⟨bank', s₁.executions, by rw [hbatches], hlocks.trans hnone.eq_default, ?_⟩
  rw [remaining, sequentialReplay_transactions _ hexec, ← hhashes, hsequential]

section

variable (hs : s.Sound)

include hs

/-- A tick is put aside, or ends the slot. -/
theorem processTick_spec {hash : Hash} (h : s.processTick ctx hash = some (.ok s'))
    (rest : List EntryType) :
    s'.Sound ∧ sequentialReplay ctx.processor s.bank.unlocked (s.remaining (.tick hash :: rest)) =
      sequentialReplay ctx.processor s'.bank.unlocked (s'.remaining rest) := by
  simp only [processTick, bind_eq_some, checkedAdd_eq_some, length_append,
    length_cons, length_nil, Nat.zero_add] at h
  obtain ⟨tickHeight, ⟨hlt, rfl⟩, isBoundary, hboundary, h⟩ := h
  have hremaining : s.remaining (.tick hash :: rest) =
      .transactions (s.batches.flatMap sanitizedTxs) ::
        ((s.tickHashes ++ [hash]).map .tick ++ rest) := by
    rw [remaining, map_append, append_assoc]
    rfl
  rw [hremaining]
  cases isBoundary with
  | false =>
    cases h
    refine ⟨⟨hs.locks, hs.locked, fun n hpos hn ↦ ?_, fun _ ↦ ?_⟩, rfl⟩
    · simp only [length_append, length_cons, length_nil, Nat.zero_add] at hn
      rcases Nat.lt_or_ge s.tickHashes.length n with hlast | hle
      · obtain rfl : n = s.tickHashes.length + 1 := by omega
        exact hboundary
      · exact hs.ticking.noBoundary n hpos hle
    simp only [length_append, length_cons, length_nil, Nat.zero_add]
    exact hlt
  | true =>
    simp only [if_true, bind_eq_some] at h
    obtain ⟨result, hflush, h⟩ := h
    cases result with
    | error e => cases h
    | ok s₁ =>
      obtain ⟨s₂, hticks, h⟩ := bind_eq_some.mp h
      cases h
      obtain ⟨bank₂, n, rfl, hlocks, hsequential⟩ :=
        finish_spec hflush hticks hs.locks hs.locked rest
      exact ⟨sound_idle hlocks n, hsequential.trans sequentialReplay_nil.symm⟩

/-- Transactions join those that were put aside, or these are executed first. -/
theorem processTransactions_spec (h : s.processTransactions ctx txs = some (.ok s'))
    (rest : List EntryType) :
    s'.Sound ∧
      sequentialReplay ctx.processor s.bank.unlocked (s.remaining (.transactions txs :: rest)) =
        sequentialReplay ctx.processor s'.bank.unlocked (s'.remaining rest) := by
  simp only [processTransactions, bind_eq_some, Prod.exists] at h
  obtain ⟨batch, bank₁, hprepare, h⟩ := h
  obtain ⟨hbank₁, hbatchTxs, hsound₁⟩ := prepareSanitizedBatch_spec hs.locks hprepare
  split at h
  next hnone =>
    cases h
    refine ⟨⟨hsound₁.push, allLocked_push hs.locked (firstErr_eq_none hnone), ?_⟩, ?_⟩
    · exact ticking_of_unlocked hbank₁.symm hs.ticking
    rw [remaining, remaining, sequentialReplay_join _ _ hs.ticking.unlocked,
      ← hbank₁, flatMap_append, flatMap_cons, flatMap_nil, append_nil, hbatchTxs]
  next e _ =>
    split at h
    · cases h
    obtain ⟨result, hflush, h⟩ := bind_eq_some.mp h
    cases result with
    | error e => cases h
    | ok s₁ =>
      simp only [bind_eq_some, Prod.exists] at h
      obtain ⟨bank₂, hdrop, batch', bank₃, hprepare', h⟩ := h
      have hcovered : bank₁.locks.Covered (s.batches.flatMap held ++ batch.held) :=
        (hsound₁.exact.perm perm_append_comm).covered
      obtain ⟨hbatches, hhashes, hexec, hcovered₁⟩ :=
        @flush_spec σ τ _ _ ctx { s with bank := bank₁ } s₁ batch.held hs.locked
          hs.locks.exact.compatible hcovered hflush
      -- the batch that failed releases what it had locked
      obtain ⟨hsame, hcovered₂⟩ := unlockBatch_spec
        (hsound₁.results batch mem_cons_self) ((append_nil batch.held).symm ▸ hcovered₁) hdrop
      have hempty : LockState.Sound ⟨bank₂.locks, []⟩ := by
        rw [hcovered₂.eq_default]
        exact sound_default
      obtain ⟨hbank₃, hbatchTxs', hsound₃⟩ := prepareSanitizedBatch_spec hempty hprepare'
      split at h
      next hnone' =>
        cases h
        have hticking₁ : Ticking s₁.bank.unlocked s.tickHashes.length :=
          ticking_of_foldlM (ticking_of_unlocked hbank₁.symm hs.ticking).unlocked hexec
        have hbank : bank₃.unlocked = s₁.bank.unlocked := hbank₃.trans hsame
        refine ⟨⟨?_, ?_, ?_⟩, ?_⟩
        · show LockState.Sound ⟨bank₃.locks, s₁.batches ++ [batch']⟩
          rw [hbatches]
          exact hsound₃
        · show AllLocked (s₁.batches ++ [batch'])
          rw [hbatches]
          exact allLocked_push (forall_mem_nil _) (firstErr_eq_none hnone')
        · show Ticking bank₃ s₁.tickHashes.length
          rw [hhashes]
          exact @ticking_of_unlocked σ τ s₁.bank.unlocked bank₃ _ hbank.symm hticking₁
        have hexec' : (s.batches.flatMap sanitizedTxs).foldlM
            (executeTransaction ctx.processor) s.bank.unlocked =
              .ok s₁.bank.unlocked := hbank₁ ▸ hexec
        rw [remaining, remaining,
          sequentialReplay_transactions _ hexec', sequentialReplay_swap txs hticking₁,
          ← hbank, hbatches, hhashes, nil_append, flatMap_cons, flatMap_nil,
          append_nil, hbatchTxs']
      · cases h

/-- Every entry keeps the invariant, and the meaning of what remains. -/
theorem process_step {entry : EntryType} (h : s.processEntry ctx entry = some (.ok s'))
    (rest : List EntryType) :
    s'.Sound ∧ sequentialReplay ctx.processor s.bank.unlocked (s.remaining (entry :: rest)) =
      sequentialReplay ctx.processor s'.bank.unlocked (s'.remaining rest) := by
  cases entry with
  | tick hash => exact processTick_spec hs h rest
  | transactions txs => exact processTransactions_spec hs h rest

/-- A run of the loop does. -/
theorem process_run {entries : List EntryType} (h : s.processAll ctx entries = some (.ok s')) :
    s'.Sound ∧ sequentialReplay ctx.processor s.bank.unlocked (s.remaining entries) =
      sequentialReplay ctx.processor s'.bank.unlocked (s'.remaining []) := by
  induction entries generalizing s with
  | nil =>
    cases h
    exact ⟨hs, rfl⟩
  | cons entry entries ih =>
    simp only [processAll, bind_eq_some] at h
    obtain ⟨result, hentry, h⟩ := h
    cases result with
    | error e => cases h
    | ok s₁ =>
      obtain ⟨hs₁, hstep⟩ := process_step hs hentry entries
      obtain ⟨hs', hrun⟩ := ih hs₁ h
      exact ⟨hs', hstep.trans hrun⟩

end

/-- **Parallel replay is sequential replay.** If entries are replayed from a bank without locks, in
whatever order the threads run and however the transactions are grouped, and this succeeds, then the
bank is the one that executing the transactions one at a time in ledger order and registering each
tick where it stands leads to. Grouping by cost keeps every transaction once, with its own lock
result. -/
theorem parallel_replay_eq_sequential {entries : List EntryType} (hlocks : bank.locks = default)
    (h : processEntries ctx bank entries = some (.ok bank')) :
    sequentialReplay ctx.processor bank entries = some (.ok bank') ∧
      ∀ batches groups, regroup ctx.processor.cost ctx.threadCount batches = some (some groups) →
        groups.flatMap pairs = batches.flatMap pairs := by
  refine ⟨?_, fun batches groups hgroups ↦ pairs_of_regroup hgroups⟩
  have hunlocked {bank : ReplayBank σ τ} (h : bank.locks = default) : bank.unlocked = bank := by
    rw [ReplayBank.unlocked, ← h]
  simp only [processEntries, bind_eq_some] at h
  obtain ⟨result, hall, h⟩ := h
  cases result with
  | error e => cases h
  | ok s =>
    obtain ⟨result, hflush, h⟩ := bind_eq_some.mp h
    cases result with
    | error e => cases h
    | ok s₁ =>
      obtain ⟨s₂, hticks, h⟩ := bind_eq_some.mp h
      cases h
      obtain ⟨hs, hrun⟩ := process_run (sound_idle hlocks 0) hall
      obtain ⟨bank₂, n, rfl, hlocks₂, hsequential⟩ :=
        finish_spec hflush hticks hs.locks hs.locked []
      replace hrun : sequentialReplay ctx.processor bank.unlocked (.transactions [] :: entries) =
        sequentialReplay ctx.processor s.bank.unlocked (s.remaining []) := hrun
      rw [sequentialReplay_nil, hunlocked hlocks] at hrun
      rw [hrun, hsequential, hunlocked hlocks₂]
      rfl

end

/-! ### A small ledger -/

/-- A transaction that is paid for by one account and reads another one. -/
def smallTransaction (payer recentBlockhash : ℕ) : SanitizedTransaction where
  message := .legacy ⟨⟨1, 0, 1⟩, [⟨BitVec.ofNat 256 payer⟩, ⟨9⟩],
    ⟨BitVec.ofNat 256 recentBlockhash⟩, []⟩
  sane := ⟨le_refl _, Nat.one_pos⟩

/-- Transactions add a lamport to every account they write. -/
def smallProcessor : TransactionProcessor SanitizedMessage ℕ where
  signature := message
  execute _ tx accounts status :=
    { accounts := fun key ↦
        match (tx.message.accountKeys.zip accounts).find? fun p ↦ decide (p.1 = key) with
        | some (_, account) => { account with lamports := account.lamports + 1 }
        | none => ⟨0, [], systemProgramId, false, 0⟩
      status := some (.ok ())
      amount := 1
      error := if status.isSome then some .alreadyProcessed
        else if tx.locks.writable = [] then some .accountNotFound else none }
  cost _ := 1
  recentBlockhashes _ account := account
  signature_injective := fun _ _ h ↦ h
  error_of_not_writable := by
    intro _ tx _ status hnil
    simp only [hnil, if_true]
    split_ifs <;> simp

/-- One thread; the two transactions that are executed first commit in the other order. -/
def smallReplay : ReplayContext SanitizedMessage ℕ where
  processor := smallProcessor
  threadCount := 1
  schedule
    | 0 => ⟨[.load 0, .load 1, .commit 1, .commit 0], none⟩
    | 1 => ⟨[.load 0, .commit 0], none⟩
    | _ => ⟨[], none⟩

/-- Two ticks in a slot, and accounts without lamports. -/
def smallReplayBank : ReplayBank SanitizedMessage ℕ where
  memory
    | .account _ => ⟨0, [], systemProgramId, false, 0⟩
    | .status _ => none
  total := 0
  blockhashQueue := .new 300
  tickHeight := 0
  ticksPerSlot := 2
  locks := default
  maxTxAccountLocksActive := true

/-- Two transactions, one that conflicts with the first after a tick, and the end of the slot. -/
def smallEntries : List EntryType :=
  [.transactions [smallTransaction 1 0, smallTransaction 2 0], .tick ⟨5⟩,
    .transactions [smallTransaction 1 1], .tick ⟨6⟩]

theorem parallel_replay_eq_sequential_small : ∃ bank,
    processEntries smallReplay smallReplayBank smallEntries = some (.ok bank) ∧
    sequentialReplay smallProcessor smallReplayBank smallEntries = some (.ok bank) ∧
    (bank.memory (.account ⟨1⟩) : Account).lamports = 2 ∧ bank.tickHeight = 2 := by
  have hrun : ((processEntries smallReplay smallReplayBank smallEntries).any fun
      | .ok bank => decide ((bank.memory (.account ⟨1⟩) : Account).lamports = 2 ∧
          bank.tickHeight = 2)
      | .error _ => false) = true := by decide +kernel
  obtain ⟨result, hresult, hbank⟩ := (Option.any_eq_true _ _).mp hrun
  cases result with
  | error e => cases hbank
  | ok bank =>
    obtain ⟨hlamports, hheight⟩ := of_decide_eq_true hbank
    exact ⟨bank, hresult, (parallel_replay_eq_sequential rfl hresult).1, hlamports, hheight⟩

end Renec
