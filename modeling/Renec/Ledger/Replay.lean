import Renec.Accounts.LockSafety
import Renec.Bank.BlockhashQueue
import Renec.Machine.Interleaving
import Renec.Sdk.Account

/-!
# Replay of entries

The replay stage processes the entries of a slot in order (`ledger/src/blockstore_processor.rs`).
Transactions are locked and put aside until one finds an account in use or a tick ends the slot;
then all that were put aside are executed in parallel, cut into groups of about the same cost.

`sequentialReplay` is the meaning of the entries: one transaction after the other, every tick where
it stands.
-/

namespace Renec

open TransactionBatch

/-- What a transaction can touch: an account, or the status of a signature. -/
inductive Cell (σ : Type) where
  | account (key : Pubkey)
  | status (signature : σ)

abbrev TransactionStatus := Option (Except TransactionError Unit)

abbrev Cell.Value {σ : Type} : Cell σ → Type
  | account _ => Account
  | status _ => TransactionStatus

/-- The accounts and the statuses of a bank. -/
abbrev Memory (σ : Type) := ∀ c : Cell σ, c.Value

/-- What the execution of a transaction results in: the accounts, the status and the totals, and the
error if it was not processed. -/
structure TransactionOutput (τ : Type) where
  accounts : Pubkey → Account
  status : TransactionStatus
  amount : τ
  error : Option TransactionError

namespace SanitizedTransaction

/-- The locks of a transaction; a sanitized one always has them. -/
def locks (tx : SanitizedTransaction) : TransactionAccountLocks :=
  tx.getAccountLocksUnchecked.getD ⟨[], []⟩

end SanitizedTransaction

/-- How transactions are executed: from the recent blockhashes, the accounts that are locked, in the
order of the message, and the status of the signature. -/
structure TransactionProcessor (σ τ : Type) where
  signature : SanitizedTransaction → σ
  execute : BlockhashQueue → SanitizedTransaction → List Account → TransactionStatus →
    TransactionOutput τ
  cost : SanitizedTransaction → ℕ
  /-- The account of the recent blockhashes sysvar after an update. -/
  recentBlockhashes : BlockhashQueue → Account → Account
  /-- A signature is that of one message. -/
  signature_injective : ∀ tx tx', signature tx = signature tx' → tx.message = tx'.message
  /-- A transaction without a writable fee payer fails with `InvalidAccountForFee`. -/
  error_of_not_writable : ∀ queue tx accounts status, tx.locks.writable = [] →
    (execute queue tx accounts status).error ≠ none

/-- `SysvarRecentB1ockHashes11111111111111111111`. -/
def recentBlockhashesSysvarId : Pubkey :=
  ⟨0x6a7d517192c568ee08a845f73d29788cf035c3145b21ab344d8062ea9400000#256⟩

structure ReplayBank (σ τ : Type) where
  memory : Memory σ
  total : τ
  blockhashQueue : BlockhashQueue
  tickHeight : ℕ
  ticksPerSlot : ℕ
  locks : AccountLocks
  /-- Whether the number of accounts a transaction may lock is limited. -/
  maxTxAccountLocksActive : Bool

/-- The order in which the threads load and commit transactions, and whether a limit on the block is
exceeded on the way. -/
structure Schedule where
  events : List TaskEvent
  limitError : Option TransactionError

inductive EntryType where
  | tick (hash : Hash)
  | transactions (transactions : List SanitizedTransaction)

variable {σ τ : Type}

/-! ### Batches -/

namespace TransactionBatch

/-- Transactions with their results. -/
def pairs (batch : TransactionBatch) :
    List (SanitizedTransaction × Except TransactionError Unit) :=
  batch.sanitizedTxs.zip batch.lockResults

/-- `TransactionBatch::new`, with its assertion. -/
def new? (lockResults : List (Except TransactionError Unit))
    (sanitizedTxs : List SanitizedTransaction) : Option TransactionBatch :=
  if h : lockResults.length = sanitizedTxs.length then some ⟨sanitizedTxs, lockResults, h⟩
  else none

end TransactionBatch

/-- The first error of a list of results. -/
def firstErr (results : List (Except TransactionError Unit)) : Option TransactionError :=
  results.findSome? fun
    | .ok () => none
    | .error e => some e

/-- The elements `first..=last`. -/
def slice {α : Type} (l : List α) (first last : ℕ) : List α := (l.take (last + 1)).drop first

/-- The state of the loop that cuts transactions into groups. -/
structure Regrouping where
  batchCost : ℕ
  sliceStart : ℕ
  txBatches : List TransactionBatch

/-- One transaction of the loop. -/
def Regrouping.step (lockResults : List (Except TransactionError Unit))
    (sanitizedTxs : List SanitizedTransaction) (targetBatchCost : ℕ) (r : Regrouping)
    (next : ℕ × ℕ) : Option Regrouping :=
  let (cost, index) := next
  let batchCost := saturatingAdd 64 r.batchCost cost
  if batchCost ≥ targetBatchCost ∨ index + 1 = sanitizedTxs.length then do
    let txBatch ← new? (slice lockResults r.sliceStart index)
      (slice sanitizedTxs r.sliceStart index)
    return ⟨0, index + 1, r.txBatches ++ [txBatch]⟩
  else return { r with batchCost := batchCost }

/-- The groups that are executed in place of the batches, if there is enough to share. -/
def regroup (cost : SanitizedTransaction → ℕ) (threadCount : ℕ) (batches : List TransactionBatch) :
    Option (Option (List TransactionBatch)) :=
  let lockResults := batches.flatMap lockResults
  let sanitizedTxs := batches.flatMap sanitizedTxs
  let txCosts := sanitizedTxs.map cost
  let minimalTxCost := txCosts.foldl min (2 ^ 64 - 1)
  let totalCost := txCosts.foldl (saturatingAdd 64) 0
  if totalCost > min (threadCount * minimalTxCost) (2 ^ 64 - 1) then
    -- a division by zero panics
    if threadCount = 0 then none
    else do
      let r ← txCosts.zipIdx.foldlM
        (Regrouping.step lockResults sanitizedTxs (totalCost / threadCount)) ⟨0, 0, []⟩
      return some r.txBatches
  else return none

/-! ### Execution -/

def TransactionProcessor.task [DecidableEq σ] (p : TransactionProcessor σ τ)
    (queue : BlockhashQueue) (tx : SanitizedTransaction) :
    Task (Cell.Value (σ := σ)) τ (Option TransactionError) where
  reads
    | .account key => tx.message.accountKeys.contains key
    | .status signature => decide (signature = p.signature tx)
  writes
    | .account key => tx.locks.writable.contains key
    | .status signature => decide (signature = p.signature tx)
  run m :=
    let output := p.execute queue tx (tx.message.accountKeys.map fun key ↦ m (.account key))
      (m (.status (p.signature tx)))
    { cells
        | .account key => output.accounts key
        | .status _ => output.status
      amount := output.amount
      result := output.error }
  run_congr := by
    intro m m' h
    have haccounts : (tx.message.accountKeys.map fun key ↦ m (.account key)) =
        tx.message.accountKeys.map fun key ↦ m' (.account key) := by
      refine List.map_congr_left fun key hkey ↦ h (.account key) ?_
      exact List.contains_iff_mem.mpr hkey
    have hstatus : m (.status (p.signature tx)) = m' (.status (p.signature tx)) :=
      h (.status (p.signature tx)) (decide_eq_true rfl)
    rw [haccounts, hstatus]

/-- The task of a transaction whose accounts could not be locked: it is not executed. -/
def skipTask [Zero τ] (error : TransactionError) :
    Task (Cell.Value (σ := σ)) τ (Option TransactionError) where
  reads _ := false
  writes _ := false
  run _ :=
    { cells
        | .account _ => ⟨0, [], systemProgramId, false, 0⟩
        | .status _ => none
      amount := 0
      result := some error }
  run_congr _ _ _ := rfl

section

variable [DecidableEq σ] [AddCommMonoid τ]

def TransactionProcessor.taskOf (p : TransactionProcessor σ τ) (queue : BlockhashQueue) :
    SanitizedTransaction × Except TransactionError Unit →
      Task (Cell.Value (σ := σ)) τ (Option TransactionError)
  | (tx, .ok ()) => p.task queue tx
  | (_, .error e) => skipTask e

namespace ReplayBank

variable (bank : ReplayBank σ τ)

variable (p : TransactionProcessor σ τ)

/-- The threads execute the batches, in the order of the schedule. The first error is that of the
first batch that has one, and there that of the first transaction. -/
def executeBatchesInternal (schedule : Schedule) (batches : List TransactionBatch) :
    Option (Except TransactionError (ReplayBank σ τ)) :=
  let tasks := (batches.flatMap pairs).map (p.taskOf bank.blockhashQueue)
  let run := interleave tasks schedule.events bank.memory bank.total
  if run.isComplete tasks then
    match ((List.range tasks.length).findSome? fun i ↦ (run.results i).join).or
      schedule.limitError with
    | some e => some (.error e)
    | none => some (.ok { bank with
        memory := run.memory
        total := run.total })
  else none

def unlockBatch (batch : TransactionBatch) : Option (ReplayBank σ τ) := do
  return { bank with locks := ← bank.locks.unlockAccounts batch.sanitizedTxs batch.lockResults }

/-- Execute batches, possibly in other groups. The groups are batches themselves, and are dropped
at the end. -/
def executeBatches (threadCount : ℕ) (schedule : Schedule) (batches : List TransactionBatch) :
    Option (Except TransactionError (ReplayBank σ τ)) := do
  let groups ← regroup p.cost threadCount batches
  match ← bank.executeBatchesInternal p schedule (groups.getD batches) with
  | .error e => return .error e
  | .ok bank => return .ok (← (groups.getD []).foldlM unlockBatch bank)

def isBlockBoundary (tickHeight : ℕ) : Option Bool :=
  -- a remainder of zero panics
  if bank.ticksPerSlot = 0 then none else some (tickHeight % bank.ticksPerSlot == 0)

def registerTick (hash : Hash) : Option (ReplayBank σ τ) := do
  let tickHeight ← checkedAdd 64 bank.tickHeight 1
  if ← bank.isBlockBoundary tickHeight then
    let queue ← bank.blockhashQueue.registerHash hash
    return { bank with
      blockhashQueue := queue
      memory := fun
        | .account key =>
          if key = recentBlockhashesSysvarId then
            p.recentBlockhashes queue (bank.memory (.account key))
          else bank.memory (.account key)
        | .status signature => bank.memory (.status signature)
      tickHeight := tickHeight }
  else return { bank with tickHeight := tickHeight }

/-- Lock the accounts of transactions. -/
def prepareSanitizedBatch (txs : List SanitizedTransaction) :
    Option (TransactionBatch × ReplayBank σ τ) := do
  let (lockResults, locks) ← bank.locks.lockAccounts txs bank.maxTxAccountLocksActive
  return (← new? lockResults txs, { bank with locks := locks })

end ReplayBank

/-! ### Entries -/

/-- The loop over the entries: the batches and the ticks that were put aside, and how often batches
have been executed. -/
structure ReplayState (σ τ : Type) where
  bank : ReplayBank σ τ
  batches : List TransactionBatch
  tickHashes : List Hash
  executions : ℕ

/-- What does not change during replay: the processor, the threads and their schedules. -/
structure ReplayContext (σ τ : Type) where
  processor : TransactionProcessor σ τ
  threadCount : ℕ
  schedule : ℕ → Schedule

variable (ctx : ReplayContext σ τ)

namespace ReplayState

variable (s : ReplayState σ τ)

/-- Execute the batches that were put aside. -/
def flush : Option (Except TransactionError (ReplayState σ τ)) := do
  match ← s.bank.executeBatches ctx.processor ctx.threadCount (ctx.schedule s.executions)
    s.batches with
  | .error e => return .error e
  | .ok bank =>
    let bank ← s.batches.foldlM ReplayBank.unlockBatch bank
    return .ok ⟨bank, [], s.tickHashes, s.executions + 1⟩

/-- Register the ticks that were put aside. -/
def registerTicks : Option (ReplayState σ τ) := do
  let bank ← s.tickHashes.foldlM (fun bank hash ↦ bank.registerTick ctx.processor hash) s.bank
  return { s with
    bank := bank
    tickHashes := [] }

/-- A tick is saved for later, unless it creates a new blockhash. -/
def processTick (hash : Hash) : Option (Except TransactionError (ReplayState σ τ)) := do
  let s := { s with tickHashes := s.tickHashes ++ [hash] }
  let tickHeight ← checkedAdd 64 s.bank.tickHeight s.tickHashes.length
  if ← s.bank.isBlockBoundary tickHeight then
    match ← s.flush ctx with
    | .error e => return .error e
    | .ok s => return .ok (← s.registerTicks ctx)
  else return .ok s

/-- Lock the transactions of an entry. If they cannot be locked, execute the batches that were put
aside and try again; if there are none, the entry conflicts with itself. -/
def processTransactions (txs : List SanitizedTransaction) :
    Option (Except TransactionError (ReplayState σ τ)) := do
  let (batch, bank) ← s.bank.prepareSanitizedBatch txs
  match firstErr batch.lockResults with
  | none => return .ok { s with
      bank := bank
      batches := s.batches ++ [batch] }
  | some e =>
    if s.batches.isEmpty then return .error e
    else
      match ← flush ctx { s with bank := bank } with
      | .error e => return .error e
      | .ok s =>
        -- the batch that failed is dropped before the next attempt, which is the last one
        let bank ← s.bank.unlockBatch batch
        let (batch, bank) ← bank.prepareSanitizedBatch txs
        match firstErr batch.lockResults with
        | none => return .ok { s with
            bank := bank
            batches := s.batches ++ [batch] }
        | some e => return .error e

def processEntry : EntryType → Option (Except TransactionError (ReplayState σ τ))
  | .tick hash => s.processTick ctx hash
  | .transactions txs => s.processTransactions ctx txs

/-- The loop over the entries, left at the first error. -/
def processAll (s : ReplayState σ τ) :
    List EntryType → Option (Except TransactionError (ReplayState σ τ))
  | [] => some (.ok s)
  | entry :: entries => do
    match ← s.processEntry ctx entry with
    | .error e => return .error e
    | .ok s => processAll s entries

end ReplayState

/-- `process_entries_with_callback`, without shuffling. What is left at the end is executed, the
ticks are registered, and the batches are dropped. -/
def processEntries (bank : ReplayBank σ τ) (entries : List EntryType) :
    Option (Except TransactionError (ReplayBank σ τ)) := do
  match ← ReplayState.processAll ctx ⟨bank, [], [], 0⟩ entries with
  | .error e => return .error e
  | .ok s =>
    match ← s.flush ctx with
    | .error e => return .error e
    | .ok s => return .ok (← s.registerTicks ctx).bank

/-! ### One after the other -/

namespace ReplayBank

variable (p : TransactionProcessor σ τ) (bank : ReplayBank σ τ)

def executeTransaction (tx : SanitizedTransaction) : Except TransactionError (ReplayBank σ τ) :=
  let task := p.task bank.blockhashQueue tx
  match (task.run bank.memory).result with
  | some e => .error e
  | none =>
    let s := task.apply (bank.memory, bank.total)
    .ok { bank with
      memory := s.1
      total := s.2 }

/-- Register the tick, or execute the transactions of an entry in order. -/
def sequentialEntry : EntryType → Option (Except TransactionError (ReplayBank σ τ))
  | .tick hash => (bank.registerTick p hash).map .ok
  | .transactions txs => some (txs.foldlM (executeTransaction p) bank)

end ReplayBank

/-- **The meaning of the entries**: every transaction in ledger order, every tick where it stands.
-/
def sequentialReplay (p : TransactionProcessor σ τ) (bank : ReplayBank σ τ) :
    List EntryType → Option (Except TransactionError (ReplayBank σ τ))
  | [] => some (.ok bank)
  | entry :: entries => do
    match ← bank.sequentialEntry p entry with
    | .error e => return .error e
    | .ok bank => sequentialReplay p bank entries

end

end Renec
