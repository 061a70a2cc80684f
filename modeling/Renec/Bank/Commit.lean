import Renec.Sdk.Nonce

/-!
# Loading and committing transactions

What a bank does with the accounts of a transaction before and after it is executed
(`runtime/src/accounts.rs`, `runtime/src/bank.rs`).

* `loadTransaction` takes copies of the accounts. It collects rent from the writable ones and the
  fee from the fee payer, in the copies only.
* `collectAccountsToStore` decides what is written back. A transaction that succeeded writes all its
  writable accounts. One that failed writes nothing, unless it has a durable nonce: then it writes
  the fee payer and the nonce account, from the copies put aside, with the nonce advanced. Accounts
  that look new are charged rent on the way.

Sums of lamports are bounded by the capitalization of the cluster; they are natural numbers here.
Loading may also refuse a transaction for its programs, which add nothing to what is written back.
-/

namespace Renec

open NonceVersions

/-- `Sysvar1nstructions1111111111111111111111111`. -/
def instructionsSysvarId : Pubkey :=
  ⟨0x6a7d517187bd16635dad40455fdc2c0c124c68f215675a5dbbacb5f08000000#256⟩

/-- `1nc1nerator11111111111111111111111111111111`. -/
def incineratorId : Pubkey := ⟨0x3390728d34116079bdc911bfff00dbd44d2ecdccf79ca6e10038e100000000#256⟩

/-- `INITIAL_RENT_EPOCH`: the rent epoch of an account that is being created. -/
def initialRentEpoch : ℕ := 0

/-- `AccountSharedData::default()`. -/
instance : Inhabited Account := ⟨⟨0, [], systemProgramId, false, initialRentEpoch⟩⟩

/-! ### Rent -/

inductive RentDue where
  | exempt
  | paying (lamports : ℕ)
  deriving DecidableEq

def RentDue.lamports : RentDue → ℕ
  | exempt => 0
  | paying lamports => lamports

/-- The rent of an epoch. What an account owes since its rent epoch is computed in floating point.
-/
structure RentCollector where
  epoch : ℕ
  getRentDue : Account → RentDue
  minimumBalance : ℕ → ℕ

namespace RentCollector

def shouldCollectRent (address : Pubkey) (account : Account) (rentForSysvars : Bool) : Bool :=
  !(account.executable || (!rentForSysvars && decide (account.owner = sysvarProgramId)) ||
    decide (address = incineratorId))

variable (rc : RentCollector)

variable (address : Pubkey) (account : Account) (rentForSysvars : Bool)

/-- The account after rent is collected, and the rent. -/
def collectFromExistingAccount : Account × ℕ :=
  if !shouldCollectRent address account rentForSysvars || decide (account.rentEpoch > rc.epoch) then
    (account, 0)
  else
    match rc.getRentDue account with
    -- maybe collect rent later, leave account alone
    | .paying 0 => (account, 0)
    | due =>
      -- an exempt account is checked again later in the epoch
      let epochIncrement := match due with
        | .exempt => 0
        | .paying _ => 1
      let endLamports := account.lamports - due.lamports
      (if endLamports = 0 then default
        else { account with lamports := endLamports, rentEpoch := rc.epoch + epochIncrement },
        account.lamports - endLamports)

def collectFromCreatedAccount : Account × ℕ :=
  -- initialize rent_epoch as created at this epoch
  rc.collectFromExistingAccount address { account with rentEpoch := rc.epoch } rentForSysvars

lemma lamports_collectFromExistingAccount :
    (rc.collectFromExistingAccount address account rentForSysvars).1.lamports +
      (rc.collectFromExistingAccount address account rentForSysvars).2 = account.lamports := by
  rw [collectFromExistingAccount]
  split_ifs
  · rfl
  split
  · rfl
  next due _ =>
    simp only
    split_ifs with hzero
    · rw [hzero]
      exact Nat.zero_add _
    · exact Nat.add_sub_cancel' (Nat.sub_le _ _)

lemma lamports_collectFromCreatedAccount :
    (rc.collectFromCreatedAccount address account rentForSysvars).1.lamports +
      (rc.collectFromCreatedAccount address account rentForSysvars).2 = account.lamports :=
  rc.lamports_collectFromExistingAccount _ _ _

lemma collectFromExistingAccount_cases :
    (rc.collectFromExistingAccount address account rentForSysvars).1 = default ∨
      ∃ lamports rentEpoch, (rc.collectFromExistingAccount address account rentForSysvars).1 =
        { account with lamports := lamports, rentEpoch := rentEpoch } := by
  rw [collectFromExistingAccount]
  split_ifs
  · exact .inr ⟨_, _, rfl⟩
  split
  · exact .inr ⟨_, _, rfl⟩
  simp only
  split_ifs
  · exact .inl rfl
  · exact .inr ⟨_, _, rfl⟩

end RentCollector

/-! ### Transactions -/

namespace SanitizedMessage

def instructions : SanitizedMessage → List CompiledInstruction
  | legacy m => m.instructions
  | v0 m => m.instructions

def isInvoked : SanitizedMessage → ℕ → Bool
  | legacy m, i => m.isKeyCalledAsProgram i
  | v0 m, i => m.isKeyCalledAsProgram i

variable (m : SanitizedMessage) (keyIndex : ℕ)

def isKeyPassedToProgram : Bool :=
  decide (keyIndex < 2 ^ 8) && m.instructions.any fun ix ↦ ix.accounts.contains keyIndex

/-- Whether the account is not invoked as a program or, if invoked, is passed to a program. -/
def isNonLoaderKey : Bool := !m.isInvoked keyIndex || m.isKeyPassedToProgram keyIndex

end SanitizedMessage

structure MessageKey where
  key : Pubkey
  isWritable : Bool
  isNonLoaderKey : Bool
  deriving DecidableEq

def SanitizedMessage.messageKeys (m : SanitizedMessage) : Option (List MessageKey) :=
  m.accountKeys.zipIdx.mapM fun (key, i) ↦
    (m.isWritable i).map fun isWritable ↦ ⟨key, isWritable, m.isNonLoaderKey i⟩

/-- A sanitized transaction whose keys have been locked: no key is there twice, and the first one,
the fee payer, signs for itself: it is writable and no program. -/
structure LockedTransaction where
  message : SanitizedMessage
  recentBlockhash : Hash
  feePayer : MessageKey
  others : List MessageKey
  messageKeys_eq : message.messageKeys = some (feePayer :: others)
  nodup : ((feePayer :: others).map MessageKey.key).Nodup
  isWritable_feePayer : feePayer.isWritable = true
  isNonLoaderKey_feePayer : feePayer.isNonLoaderKey = true

def LockedTransaction.keys (tx : LockedTransaction) : List MessageKey := tx.feePayer :: tx.others

/-! ### Loading -/

/-- The accounts of a bank; an account that does not exist is the default one. -/
abbrev BankAccounts := Pubkey → Account

/-- `LoadedTransaction`: copies of the accounts, and the rent collected from them. -/
structure LoadedTransaction where
  accounts : List (Pubkey × Account)
  rent : ℕ
  rentDebits : Finmap fun _ : Pubkey ↦ ℕ

section

variable (rentDebits : Finmap fun _ : Pubkey ↦ ℕ) (address : Pubkey)

/-- `RentDebits::insert`. -/
def insertRentDebit (rent : ℕ) : Finmap fun _ : Pubkey ↦ ℕ :=
  if rent ≠ 0 then rentDebits.insert address rent else rentDebits

/-- `RentDebits::get_account_rent_debit`. -/
def getAccountRentDebit : ℕ := (rentDebits.lookup address).getD 0

end

inductive SystemAccountKind where
  | system
  | nonce
  deriving DecidableEq

/-- `nonce::State::size()`. -/
def nonceStateSize : ℕ := 80

def getSystemAccountKind (account : Account) : Option SystemAccountKind :=
  if account.owner = systemProgramId then
    if account.data.isEmpty then some .system
    else if account.data.length = nonceStateSize then do
      match (← decode account.data).state with
      | .uninitialized => none
      | .initialized _ => some .nonce
    else none
  else none

/-- What loading and committing depend on: the rent of the epoch, the features, the data of the
instructions sysvar, the fee of a message and the fee rate of a blockhash in the queue. -/
structure CommitContext where
  rentCollector : RentCollector
  rentForSysvars : Bool
  leaveNonceOnSuccess : Bool
  instructionsData : SanitizedMessage → List UInt8
  calculateFee : SanitizedMessage → ℕ → ℕ
  lamportsPerSignatureOfHash : Hash → Option ℕ
  /-- The durable nonce of the last blockhash, whether it has a domain of its own, and the fee rate
  that nonce accounts are advanced to. -/
  durableNonce : Hash
  separateDomains : Bool
  lamportsPerSignature : UInt64

variable (ctx : CommitContext) (db : BankAccounts)

/-- The copy of the account at a key, and the rent collected from it. -/
def loadKey (m : SanitizedMessage) (k : MessageKey) : Account × ℕ :=
  if !k.isNonLoaderKey then (default, 0)
  else if k.key = instructionsSysvarId then
    ({ (default : Account) with data := ctx.instructionsData m, owner := sysvarProgramId }, 0)
  else if k.isWritable then
    ctx.rentCollector.collectFromExistingAccount k.key (db k.key) ctx.rentForSysvars
  else (db k.key, 0)

variable (tx : LockedTransaction)

/-- Copy all the accounts, with rent collected and the fee deducted. -/
def loadTransaction (fee : ℕ) : Except TransactionError LoadedTransaction :=
  let loaded := tx.keys.map fun k ↦ (k.key, loadKey ctx db tx.message k)
  let rentDebits := loaded.foldl (fun debits l ↦ insertRentDebit debits l.1 l.2.2) ∅
  let accounts := loaded.map fun l ↦ (l.1, l.2.1)
  match tx.keys.findIdx? MessageKey.isNonLoaderKey with
  | none => .error .accountNotFound
  | some payerIndex =>
    match accounts[payerIndex]? with
    | none => .error .accountNotFound
    | some (payerAddress, payer) =>
      if payer.lamports = 0 then .error .accountNotFound
      else
        match getSystemAccountKind payer with
        | none => .error .invalidAccountForFee
        | some kind =>
          let minBalance := match kind with
            | .system => 0
            | .nonce => ctx.rentCollector.minimumBalance nonceStateSize
          if payer.lamports < fee + minBalance then .error .insufficientFundsForFee
          else .ok ⟨accounts.set payerIndex
            (payerAddress, { payer with lamports := payer.lamports - fee }),
            (loaded.map fun l ↦ l.2.2).sum, rentDebits⟩

/-! ### Durable nonces -/

/-- The nonce account a transaction was checked with. -/
structure NoncePartial where
  address : Pubkey
  account : Account

/-- The accounts to go back to if a transaction with a durable nonce fails. -/
structure NonceFull where
  address : Pubkey
  account : Account
  feePayerAccount : Option Account

/-- The fee payer gets the rent back; it is put aside on its own unless it is the nonce account. -/
def NonceFull.fromPartial (partialNonce : NoncePartial) (tx : LockedTransaction)
    (loaded : LoadedTransaction) : Except TransactionError NonceFull :=
  match (tx.keys.zip loaded.accounts).find? fun p ↦ p.1.isNonLoaderKey with
  | none => .error .accountNotFound
  | some (_, feePayerAddress, feePayerAccount) =>
    let rentDebit := getAccountRentDebit loaded.rentDebits feePayerAddress
    let feePayerAccount :=
      { feePayerAccount with lamports := saturatingAdd 64 feePayerAccount.lamports rentDebit }
    if feePayerAddress = partialNonce.address then
      .ok ⟨partialNonce.address, feePayerAccount, none⟩
    else .ok ⟨partialNonce.address, partialNonce.account, some feePayerAccount⟩

/-- `load_accounts`, for one transaction. -/
def loadWithNonce (nonce : Option NoncePartial) :
    Except TransactionError (LoadedTransaction × Option NonceFull × ℕ) :=
  let lamportsPerSignature := match nonce with
    | some nonce => lamportsPerSignatureOf nonce.account
    | none => ctx.lamportsPerSignatureOfHash tx.recentBlockhash
  match lamportsPerSignature with
  | none => .error .blockhashNotFound
  | some lamportsPerSignature => do
    let fee := ctx.calculateFee tx.message lamportsPerSignature
    let loaded ← loadTransaction ctx db tx fee
    match nonce with
    | none => return (loaded, none, fee)
    | some nonce => return (loaded, some (← NonceFull.fromPartial nonce tx loaded), fee)

/-! ### Storing -/

/-- Roll back and advance the nonce account; roll back the fee payer of a transaction that failed.
Also whether the account is the nonce account. -/
def prepareIfNonceAccount (address : Pubkey) (account : Account) (failed isFeePayer : Bool)
    (maybeNonce : Option (NonceFull × Bool)) : Option (Account × Bool) :=
  match maybeNonce with
  | none => some (account, false)
  | some (nonce, rollback) =>
    if address = nonce.address then do
      let account := if rollback then nonce.account else account
      match (← decode nonce.account.data).state with
      | .initialized data =>
        let versions := new
          (.initialized ⟨data.authority, ctx.durableNonce, ctx.lamportsPerSignature⟩)
          ctx.separateDomains
        match account.setNonceState versions with
        | .ok account => some (account, true)
        | .error _ => none
      | .uninitialized => some (account, true)
    else if failed && isFeePayer then some (nonce.feePayerAccount.getD account, false)
    else some (account, false)

lemma prepareIfNonceAccount_nonce {ctx : CommitContext} {nonce : NonceFull}
    {account account' : Account} {failed isFeePayer rollback isNonce : Bool}
    (h : prepareIfNonceAccount ctx nonce.address account failed isFeePayer
      (some (nonce, rollback)) =
      some (account', isNonce)) :
    isNonce = true ∧
      account' = { (if rollback then nonce.account else account) with data := account'.data } ∧
      ∃ versions, decode nonce.account.data = some versions ∧
        ∀ data, versions.state = .initialized data → decode account'.data =
          some (new (.initialized
            ⟨data.authority, ctx.durableNonce, ctx.lamportsPerSignature⟩) ctx.separateDomains) := by
  simp only [prepareIfNonceAccount, if_true, bind_eq_some] at h
  obtain ⟨versions, hversions, h⟩ := h
  split at h
  next data hdata =>
    split at h
    next hset =>
      cases h
      obtain ⟨hdecode, hrest, -⟩ := Account.setNonceState_eq_ok hset
      refine ⟨rfl, hrest, versions, hversions, fun data' hdata' ↦ ?_⟩
      rw [hdata] at hdata'
      obtain rfl := NonceState.initialized.inj hdata'
      exact hdecode
    · cases h
  next huninit =>
    cases h
    refine ⟨rfl, rfl, versions, hversions, fun data hdata ↦ ?_⟩
    rw [huninit] at hdata
    cases hdata

lemma prepareIfNonceAccount_other {ctx : CommitContext} {nonce : NonceFull} {address : Pubkey}
    {account : Account} {failed isFeePayer rollback : Bool} (h : address ≠ nonce.address) :
    prepareIfNonceAccount ctx address account failed isFeePayer (some (nonce, rollback)) =
      some (if failed && isFeePayer then nonce.feePayerAccount.getD account else account,
        false) := by
  simp only [prepareIfNonceAccount, if_neg h]
  split_ifs <;> rfl

/-- What is stored for one key, and the rent charged on the way. -/
def collectKey (failed : Bool) (maybeNonce : Option (NonceFull × Bool)) (isFeePayer : Bool)
    (slot : MessageKey × Pubkey × Account) : Option (Option (Pubkey × Account) × ℕ) :=
  let (k, address, account) := slot
  if k.isWritable then do
    let (account, isNonceAccount) ←
      prepareIfNonceAccount ctx address account failed isFeePayer maybeNonce
    if !failed || isNonceAccount || isFeePayer then
      let (account, rent) := if account.rentEpoch = initialRentEpoch then
          ctx.rentCollector.collectFromCreatedAccount address account ctx.rentForSysvars
        else (account, 0)
      return (some (address, account), rent)
    else return (none, 0)
  else return (none, 0)

/-- The accounts of a transaction that are no loaders. -/
def nonLoaderSlots (accounts : List (Pubkey × Account)) : List (MessageKey × Pubkey × Account) :=
  (tx.keys.zip accounts).filter fun p ↦ p.1.isNonLoaderKey

/-- What is stored for an executed transaction. The first account that is no loader is the fee
payer. -/
def collectTransaction (accounts : List (Pubkey × Account)) (nonce : Option NonceFull)
    (failed : Bool) : Option (List (Option (Pubkey × Account) × ℕ)) :=
  let collect (maybeNonce : Option (NonceFull × Bool)) :=
    match nonLoaderSlots tx accounts with
    | [] => some []
    | feePayer :: others => do
      let feePayer ← collectKey ctx failed maybeNonce true feePayer
      return feePayer :: (← others.mapM (collectKey ctx failed maybeNonce false))
  match failed, nonce with
  | false, some nonce => collect (if ctx.leaveNonceOnSuccess then none else some (nonce, false))
  | true, some nonce => collect (some (nonce, true))
  | false, none => collect none
  -- fees for failed transactions which don't use durable nonces are deducted later
  | true, none => some []

/-- `TransactionExecutionResult`: whether the transaction failed, and the fee rate of its nonce. -/
inductive ExecutionResult where
  | executed (failed : Bool) (durableNonceFee : Option (Option ℕ))
  | notExecuted (error : TransactionError)

structure ProcessedTransaction where
  tx : LockedTransaction
  loadResult : Except TransactionError LoadedTransaction
  nonce : Option NonceFull
  execution : ExecutionResult

/-- What is stored for a transaction of a batch: nothing if it failed to load or wasn't executed. -/
def ProcessedTransaction.collect (p : ProcessedTransaction) :
    Option (List (Option (Pubkey × Account) × ℕ)) :=
  match p.loadResult, p.execution with
  | .error _, _ => some []
  | .ok _, .notExecuted _ => some []
  | .ok loaded, .executed failed _ => collectTransaction ctx p.tx loaded.accounts p.nonce failed

section

variable (collected : List (Option (Pubkey × Account) × ℕ))

def storedAccounts : List (Pubkey × Account) := collected.filterMap Prod.fst

def chargedRent : ℕ := (collected.map Prod.snd).sum

end

variable (batch : List ProcessedTransaction)

/-- `collect_accounts_to_store`: what is collected for every transaction. -/
def collectAccountsToStore : Option (List (List (Option (Pubkey × Account) × ℕ))) :=
  batch.mapM (ProcessedTransaction.collect ctx)

/-- Write accounts to the bank. -/
def storeAccounts (accounts : List (Pubkey × Account)) : BankAccounts :=
  accounts.foldl (fun db p ↦ Function.update db p.1 p.2) db

/-! ### Rent and fees -/

/-- The rent of a transaction that counts: that of one executed successfully, with what was charged
while its accounts were collected. -/
def ProcessedTransaction.rent (p : ProcessedTransaction) (charged : ℕ) : ℕ :=
  match p.loadResult, p.execution with
  | .ok loaded, .executed false _ => loaded.rent + charged
  | _, _ => 0

/-- `collect_rent`. -/
def collectRent (collected : List (List (Option (Pubkey × Account) × ℕ))) : ℕ :=
  (List.zipWith (fun p c ↦ p.rent (chargedRent c)) batch collected).sum

/-- `Bank::withdraw`. -/
def withdraw (pubkey : Pubkey) (lamports : ℕ) : Except TransactionError BankAccounts :=
  let account := db pubkey
  if account.lamports = 0 then .error .accountNotFound
  else
    let minBalance := match getSystemAccountKind account with
      | some .nonce => ctx.rentCollector.minimumBalance nonceStateSize
      | _ => 0
    if lamports + minBalance ≤ account.lamports ∧ lamports + minBalance < 2 ^ 64 then
      .ok (Function.update db pubkey { account with lamports := account.lamports - lamports })
    else .error .insufficientFundsForFee

/-- The fee of one transaction: the accounts of the bank after it, and the fee if it counts. In case
of an instruction error the payer is still charged, except for durable nonces, which already have
their fee deducted. -/
def ProcessedTransaction.collectFee (p : ProcessedTransaction) :
    Except TransactionError (BankAccounts × ℕ) :=
  match p.execution with
  | .notExecuted error => .error error
  | .executed failed durableNonceFee =>
    let lamportsPerSignature :=
      durableNonceFee.getD (ctx.lamportsPerSignatureOfHash p.tx.recentBlockhash)
    match lamportsPerSignature with
    | none => .error .blockhashNotFound
    | some lamportsPerSignature => do
      let fee := ctx.calculateFee p.tx.message lamportsPerSignature
      if failed && durableNonceFee.isNone then
        return (← withdraw ctx db p.tx.feePayer.key fee, fee)
      else return (db, fee)

/-- Count the fee of a transaction; one that cannot be charged is left out. -/
def chargeFee (s : BankAccounts × ℕ) (p : ProcessedTransaction) : BankAccounts × ℕ :=
  match p.collectFee ctx s.1 with
  | .ok (db, fee) => (db, s.2 + fee)
  | .error _ => s

/-- `filter_program_errors_and_collect_fee`: the accounts and the fees of the batch. -/
def filterProgramErrorsAndCollectFee : BankAccounts × ℕ := batch.foldl (chargeFee ctx) (db, 0)

/-- The part of a bank that a commit changes. -/
structure BankBalances where
  accounts : BankAccounts
  collectorFees : ℕ
  collectedRent : ℕ

/-- The lamports of `commit_transactions`: accounts are stored, rent is counted, fees are taken. -/
def commitTransactions (bank : BankBalances) (batch : List ProcessedTransaction) :
    Option BankBalances := do
  let collected ← collectAccountsToStore ctx batch
  let stored := storeAccounts bank.accounts (collected.flatMap storedAccounts)
  let (accounts, fees) := filterProgramErrorsAndCollectFee ctx stored batch
  return ⟨accounts, bank.collectorFees + fees, bank.collectedRent + collectRent batch collected⟩

end Renec
