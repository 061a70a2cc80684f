import Renec.Sdk.Errors
import Renec.Sdk.Message

/-!
# Account locks

Transactions that run in parallel lock the accounts they use (`runtime/src/accounts.rs`): an account
is held by one writer or by any number of readers. The results are kept with the batch, and when the
batch is dropped `unlockAccounts` decides *from the result codes* which of its transactions hold
locks.
-/

namespace Renec

/-! ### The locks of a transaction -/

/-- `MAX_TX_ACCOUNT_LOCKS`: the accounts a transaction may lock. -/
def maxTxAccountLocks : ℕ := 64

structure TransactionAccountLocks where
  readonly : List Pubkey
  writable : List Pubkey
  deriving DecidableEq

/-- The header of a sanitized legacy message: the signed keys and the read-only unsigned ones do
not overlap, and there is a writable fee payer. -/
def SanitizedMessage.Sane : SanitizedMessage → Prop
  | legacy m =>
    m.header.numRequiredSignatures + m.header.numReadonlyUnsignedAccounts ≤ m.accountKeys.length ∧
      m.header.numReadonlySignedAccounts < m.header.numRequiredSignatures
  | v0 _ => True

/-- A transaction whose message passed `sanitize`. -/
structure SanitizedTransaction where
  message : SanitizedMessage
  sane : message.Sane

namespace SanitizedTransaction

/-- The list of accounts that must be locked during processing this transaction. -/
def getAccountLocksUnchecked (tx : SanitizedTransaction) : Option TransactionAccountLocks := do
  let flagged ← tx.message.accountKeys.zipIdx.mapM fun (key, i) ↦
    (tx.message.isWritable i).map fun isWritable ↦ (key, isWritable)
  return ⟨(flagged.filter fun p ↦ !p.2).map Prod.fst, (flagged.filter fun p ↦ p.2).map Prod.fst⟩

/-- Validate and return the accounts locked by this transaction. The limit on their number is a
feature of the cluster. -/
def getAccountLocks (tx : SanitizedTransaction) (maxTxAccountLocksActive : Bool) :
    Option (Except TransactionError TransactionAccountLocks) :=
  if tx.message.hasDuplicates then some (.error .accountLoadedTwice)
  else if maxTxAccountLocksActive && decide (tx.message.accountKeys.length > maxTxAccountLocks) then
    some (.error .tooManyAccountLocks)
  else tx.getAccountLocksUnchecked.map .ok

end SanitizedTransaction

/-! ### The lock table -/

/-- The accounts in use: those held by a writer, and for the others the number of readers. -/
structure AccountLocks where
  writeLocks : Finset Pubkey
  readonlyLocks : Finmap fun _ : Pubkey ↦ ℕ

instance : Inhabited AccountLocks := ⟨⟨∅, ∅⟩⟩

namespace AccountLocks

variable (l : AccountLocks)

variable (key : Pubkey)

def isLockedReadonly : Bool :=
  (l.readonlyLocks.lookup key).any fun count ↦ decide (count > 0)

def isLockedWrite : Bool := decide (key ∈ l.writeLocks)

def insertNewReadonly : Option AccountLocks :=
  match l.readonlyLocks.lookup key with
  | none => some { l with readonlyLocks := l.readonlyLocks.insert key 1 }
  -- the assertion that the key was not there
  | some _ => none

/-- Count one more reader, if there is a count. -/
def lockReadonly : Option (Bool × AccountLocks) :=
  match l.readonlyLocks.lookup key with
  | none => some (false, l)
  | some count => do
    let count ← checkedAdd 64 count 1
    return (true, { l with readonlyLocks := l.readonlyLocks.insert key count })

def unlockReadonly : Option AccountLocks :=
  match l.readonlyLocks.lookup key with
  | none => some l
  | some count => do
    let count ← checkedSub count 1
    if count = 0 then return { l with readonlyLocks := l.readonlyLocks.erase key }
    else return { l with readonlyLocks := l.readonlyLocks.insert key count }

def unlockWrite : AccountLocks :=
  { l with writeLocks := l.writeLocks.erase key }

/-- Take one read lock in `lock_account`. -/
def addReader : Option AccountLocks := do
  let (locked, l) ← l.lockReadonly key
  if locked then return l else l.insertNewReadonly key

variable (writableKeys readonlyKeys : List Pubkey)

/-- Lock the accounts of one transaction, or none of them. -/
def lockAccount : Option (Except TransactionError Unit × AccountLocks) :=
  if writableKeys.any fun k ↦ l.isLockedWrite k || l.isLockedReadonly k then
    some (.error .accountInUse, l)
  else if readonlyKeys.any fun k ↦ l.isLockedWrite k then some (.error .accountInUse, l)
  else do
    let l := { l with writeLocks := writableKeys.foldl (fun s k ↦ insert k s) l.writeLocks }
    let l ← readonlyKeys.foldlM addReader l
    return (.ok (), l)

def unlockAccount : Option AccountLocks :=
  readonlyKeys.foldlM unlockReadonly (writableKeys.foldl unlockWrite l)

/-! ### Batches -/

/-- Lock a transaction whose locks could be computed. -/
def lockRequested : Except TransactionError TransactionAccountLocks →
    Option (Except TransactionError Unit × AccountLocks)
  | .ok locks => l.lockAccount locks.writable locks.readonly
  | .error e => some (.error e, l)

/-- Lock the transactions of a batch one after the other, under the mutex. -/
def lockAccountsInner (l : AccountLocks) :
    List (Except TransactionError TransactionAccountLocks) →
      Option (List (Except TransactionError Unit) × AccountLocks)
  | [] => some ([], l)
  | txLocks :: rest => do
    let (result, l) ← l.lockRequested txLocks
    let (results, l) ← lockAccountsInner l rest
    return (result :: results, l)

variable (txs : List SanitizedTransaction) (results : List (Except TransactionError Unit))

variable (active : Bool)

def lockAccounts : Option (List (Except TransactionError Unit) × AccountLocks) := do
  l.lockAccountsInner (← txs.mapM fun tx ↦ tx.getAccountLocks active)

/-- The locks a transaction asks for, unless it already has an error. -/
def requested (tx : SanitizedTransaction) :
    Except TransactionError Unit → Option (Except TransactionError TransactionAccountLocks)
  | .ok () => tx.getAccountLocks active
  | .error e => some (.error e)

/-- The same for transactions of which some already have an error. -/
def lockAccountsWithResults : Option (List (Except TransactionError Unit) × AccountLocks) := do
  l.lockAccountsInner (← (txs.zip results).mapM fun p ↦ requested active p.1 p.2)

/-- The results that `unlock_accounts` takes to mean that no locks are held. -/
def holdsNoLocks : Except TransactionError Unit → Bool
  | .error .accountLoadedTwice | .error .accountInUse | .error .sanitizeFailure
  | .error .tooManyAccountLocks | .error .wouldExceedMaxBlockCostLimit
  | .error .wouldExceedMaxVoteCostLimit | .error .wouldExceedMaxAccountCostLimit
  | .error .wouldExceedMaxAccountDataCostLimit => true
  | _ => false

/-- Once accounts are unlocked, new transactions that modify that state can enter the pipeline. -/
def unlockAccounts : Option AccountLocks := do
  let keys ← ((txs.zip results).filter fun p ↦ !holdsNoLocks p.2).mapM fun p ↦
    p.1.getAccountLocksUnchecked
  keys.foldlM (fun l keys ↦ l.unlockAccount keys.writable keys.readonly) l

end AccountLocks

/-- Why the cost model keeps a transaction out of the block. -/
inductive CostTrackerError where
  | wouldExceedBlockMaxLimit
  | wouldExceedVoteMaxLimit
  | wouldExceedAccountMaxLimit
  deriving DecidableEq

/-- The results that `select_transactions_per_cost` of the QoS service passes on. -/
def selectResult : Option CostTrackerError → Except TransactionError Unit
  | none => .ok ()
  | some .wouldExceedBlockMaxLimit => .error .wouldExceedMaxBlockCostLimit
  | some .wouldExceedVoteMaxLimit => .error .wouldExceedMaxVoteCostLimit
  | some .wouldExceedAccountMaxLimit => .error .wouldExceedMaxAccountCostLimit

end Renec
