import Renec.Ledger.ReplayEquivalence

/-!
# The locks of replay

Between two entries the table of locks is exact for the batches put aside (`process_run`). Where
they are executed in groups it is not exact: a group releases the locks of its transactions when it
is dropped, the batches then release them again, and this takes read locks away from an entry that
could be locked in part (`read_lock_lost`).
-/

namespace Renec

open ReplayBank ReplayState

variable {σ τ : Type} [DecidableEq σ] [AddCommMonoid τ] {ctx : ReplayContext σ τ}
  {bank bank' bank₀ : ReplayBank σ τ} {batch : TransactionBatch} {batches : List TransactionBatch}

/-- **The points of replay** and the batches that are alive: between two entries, and from there
after locking a batch, executing batches as they are, or dropping a batch. An error drops all. -/
inductive LocksAt (ctx : ReplayContext σ τ) (bank₀ : ReplayBank σ τ) :
    ReplayBank σ τ → List TransactionBatch → Prop where
  | loop {entries : List EntryType} {s : ReplayState σ τ}
      (h : processAll ctx ⟨bank₀, [], [], 0⟩ entries = some (.ok s)) :
      LocksAt ctx bank₀ s.bank s.batches
  | lock {bank bank' : ReplayBank σ τ} {live : List TransactionBatch} {batch : TransactionBatch}
      {txs : List SanitizedTransaction} (hat : LocksAt ctx bank₀ bank live)
      (h : bank.prepareSanitizedBatch txs = some (batch, bank')) :
      LocksAt ctx bank₀ bank' (batch :: live)
  | execute {bank bank' : ReplayBank σ τ} {live batches : List TransactionBatch}
      {schedule : Schedule} (hat : LocksAt ctx bank₀ bank live)
      (hkept : regroup ctx.processor.cost ctx.threadCount batches = some none)
      (h : bank.executeBatches ctx.processor ctx.threadCount schedule batches = some (.ok bank')) :
      LocksAt ctx bank₀ bank' live
  | drop {bank bank' : ReplayBank σ τ} {before after : List TransactionBatch}
      {batch : TransactionBatch} (hat : LocksAt ctx bank₀ bank (before ++ batch :: after))
      (h : bank.unlockBatch batch = some bank') : LocksAt ctx bank₀ bank' (before ++ after)

lemma locks_executeBatches {schedule : Schedule}
    (hkept : regroup ctx.processor.cost ctx.threadCount batches = some none)
    (h : bank.executeBatches ctx.processor ctx.threadCount schedule batches = some (.ok bank')) :
    bank'.locks = bank.locks := by
  simp only [executeBatches, hkept, bind_eq_some] at h
  obtain ⟨groups, hgroups, run, hrun, h⟩ := h
  cases hgroups
  cases run with
  | error e => cases h
  | ok bank₁ =>
    cases h
    rw [executeBatchesInternal] at hrun
    split_ifs at hrun
    split at hrun <;> cases hrun
    rfl

/-- Every point is sound. -/
theorem LocksAt.sound {live : List TransactionBatch} (hlocks : bank₀.locks = default)
    (h : LocksAt ctx bank₀ bank live) : LockState.Sound ⟨bank.locks, live⟩ := by
  induction h with
  | loop h => exact (process_run (sound_idle hlocks 0) h).1.locks
  | lock _ h ih => exact (prepareSanitizedBatch_spec ih h).2.2
  | execute _ hkept h ih =>
    rw [locks_executeBatches hkept h]
    exact ih
  | drop _ h ih =>
    simp only [unlockBatch, bind_eq_some, pure_eq_some] at h
    obtain ⟨l, hl, rfl⟩ := h
    exact ih.step (.unlock rfl hl)

/-- **Replay releases exactly the locks it holds**, where batches are executed as they are. At every
point the table holds the locks of the batches alive, and any of these can be dropped, which leaves
the locks of the others. -/
theorem replay_locks_exact {live : List TransactionBatch} (hlocks : bank₀.locks = default)
    (h : LocksAt ctx bank₀ bank live) :
    bank.locks.Exact (live.flatMap TransactionBatch.held) ∧
      ∀ before batch after, live = before ++ batch :: after →
        ∃ bank', bank.unlockBatch batch = some bank' ∧
          bank'.locks.Exact ((before ++ after).flatMap TransactionBatch.held) := by
  have hsound := h.sound hlocks
  refine ⟨hsound.exact, fun before batch after hlive ↦ ?_⟩
  obtain ⟨l, hl, hexact⟩ := hsound.unlock hlive
  refine ⟨{ bank with locks := l }, ?_, hexact⟩
  rw [unlockBatch, hl]
  rfl

/-- A transaction that is put aside, executed and dropped. -/
theorem replay_locks_exact_small : ∃ bank bank' batch,
    LocksAt smallReplay smallReplayBank bank [batch] ∧ batch.held ≠ [] ∧
      bank.locks.Exact batch.held ∧ bank.unlockBatch batch = some bank' ∧
      bank'.locks.Exact [] := by
  have hloop := LocksAt.loop (show processAll smallReplay ⟨smallReplayBank, [], [], 0⟩
    [.transactions [smallTransaction 1 0]] = _ from rfl)
  have hexecuted := hloop.execute
    (show regroup _ _ [⟨[smallTransaction 1 0], [.ok ()], rfl⟩] = some none from rfl)
    (show executeBatches _ _ _ (smallReplay.schedule 1) _ = _ from rfl)
  obtain ⟨hexact, hdrop⟩ := replay_locks_exact rfl hexecuted
  obtain ⟨bank', hbank', hempty⟩ := hdrop [] _ [] rfl
  exact ⟨_, bank', _, hexecuted, List.cons_ne_nil _ _, hexact, hbank', hempty⟩

/-- **A read lock is lost.** Two transactions that read an account are put aside, and an entry is
locked in part: its first transaction reads the account too, its second one has to wait. The first
two are executed in groups and dropped. The entry is alive, and its read lock is gone. -/
theorem read_lock_lost : (do
    let .ok s ← processAll smallReplay ⟨smallReplayBank, [], [], 0⟩
      [.transactions [smallTransaction 1 0, smallTransaction 2 0]] | none
    let (batch, bank) ← s.bank.prepareSanitizedBatch [smallTransaction 3 0, smallTransaction 1 1]
    let .ok s ← flush smallReplay { s with bank := bank } | none
    return (batch.held.any fun g ↦ decide (⟨9⟩ ∈ g.readonly), s.bank.locks.readonlyCount ⟨9⟩)) =
    some (true, 0) := by
  decide +kernel

end Renec
