import Renec.Runtime.PreAccount
import Renec.Sdk.Nonce

/-!
# The system program

The system program creates accounts, moves lamports and keeps nonce accounts
(`runtime/src/system_instruction_processor.rs`, `runtime/src/nonce_keyed_account.rs`). Its
instructions act on accounts by address; the same account may be passed twice.

`SystemWrite` says once what an instruction can do to the data of an account: nothing, fill it with
zeros, or write one of the nonce states; `process_write` is the case analysis.
-/

namespace Renec

open NonceVersions Bincode Account Outcome Function

/-- `SystemError`. -/
inductive SystemError where
  | accountAlreadyInUse
  | resultWithNegativeLamports
  | invalidProgramId
  | invalidAccountDataLength
  | maxSeedLengthExceeded
  | addressWithSeedMismatch
  | nonceNoRecentBlockhashes
  | nonceBlockhashNotExpired
  | nonceUnexpectedBlockhashValue
  deriving DecidableEq

/-- The number of the variant. -/
def SystemError.toInstructionError : SystemError → InstructionError
  | accountAlreadyInUse => .custom 0
  | resultWithNegativeLamports => .custom 1
  | invalidProgramId => .custom 2
  | invalidAccountDataLength => .custom 3
  | maxSeedLengthExceeded => .custom 4
  | addressWithSeedMismatch => .custom 5
  | nonceNoRecentBlockhashes => .custom 6
  | nonceBlockhashNotExpired => .custom 7
  | nonceUnexpectedBlockhashValue => .custom 8

/-- `NonceError`. -/
inductive NonceError where
  | noRecentBlockhashes
  | notExpired
  | unexpectedValue
  | badAccountState
  deriving DecidableEq

def nonceToInstructionError (error : NonceError) (useSystemVariant : Bool) : InstructionError :=
  if useSystemVariant then
    match error with
    | .noRecentBlockhashes => SystemError.nonceNoRecentBlockhashes.toInstructionError
    | .notExpired => SystemError.nonceBlockhashNotExpired.toInstructionError
    | .unexpectedValue => SystemError.nonceUnexpectedBlockhashValue.toInstructionError
    | .badAccountState => .invalidAccountData
  else
    match error with
    | .noRecentBlockhashes => .custom 0
    | .notExpired => .custom 1
    | .unexpectedValue => .custom 2
    | .badAccountState => .custom 3

/-- `SystemInstruction`. -/
inductive SystemInstruction where
  | createAccount (lamports space : ℕ) (owner : Pubkey)
  | assign (owner : Pubkey)
  | transfer (lamports : ℕ)
  | createAccountWithSeed (base : Pubkey) (seed : String) (lamports space : ℕ) (owner : Pubkey)
  | advanceNonceAccount
  | withdrawNonceAccount (lamports : ℕ)
  | initializeNonceAccount (authorized : Pubkey)
  | authorizeNonceAccount (nonceAuthority : Pubkey)
  | allocate (space : ℕ)
  | allocateWithSeed (base : Pubkey) (seed : String) (space : ℕ) (owner : Pubkey)
  | assignWithSeed (base : Pubkey) (seed : String) (owner : Pubkey)
  | transferWithSeed (lamports : ℕ) (fromSeed : String) (fromOwner : Pubkey)
  | upgradeNonceAccount
  deriving DecidableEq

namespace SystemInstruction

/-- A text is its length, a `u64`, and that many bytes of UTF-8. -/
def decodeString (bytes : List UInt8) : Option (String × List UInt8) := do
  let (length, rest) ← uint 8 bytes
  let (text, rest) ← take length rest
  return (← String.fromUTF8? ⟨text.toArray⟩, rest)

/-- `limited_deserialize` for system instructions. -/
def decode (data : List UInt8) : Option SystemInstruction := do
  match ← uint 4 data with
  | (0, rest) =>
    let (lamports, rest) ← uint 8 rest
    let (space, rest) ← uint 8 rest
    return createAccount lamports space (← pubkey rest).1
  | (1, rest) => return assign (← pubkey rest).1
  | (2, rest) => return transfer (← uint 8 rest).1
  | (3, rest) =>
    let (base, rest) ← pubkey rest
    let (seed, rest) ← decodeString rest
    let (lamports, rest) ← uint 8 rest
    let (space, rest) ← uint 8 rest
    return createAccountWithSeed base seed lamports space (← pubkey rest).1
  | (4, _) => return advanceNonceAccount
  | (5, rest) => return withdrawNonceAccount (← uint 8 rest).1
  | (6, rest) => return initializeNonceAccount (← pubkey rest).1
  | (7, rest) => return authorizeNonceAccount (← pubkey rest).1
  | (8, rest) => return allocate (← uint 8 rest).1
  | (9, rest) =>
    let (base, rest) ← pubkey rest
    let (seed, rest) ← decodeString rest
    let (space, rest) ← uint 8 rest
    return allocateWithSeed base seed space (← pubkey rest).1
  | (10, rest) =>
    let (base, rest) ← pubkey rest
    let (seed, rest) ← decodeString rest
    return assignWithSeed base seed (← pubkey rest).1
  | (11, rest) =>
    let (lamports, rest) ← uint 8 rest
    let (seed, rest) ← decodeString rest
    return transferWithSeed lamports seed (← pubkey rest).1
  | (12, _) => return upgradeNonceAccount
  | _ => none

end SystemInstruction

/-- What the system program reads from the invoke context: the last blockhash and its fee rate, the
features, and the decoders of sysvar accounts. -/
structure SystemContext where
  blockhash : Hash
  /-- The hash of a blockhash in the domain of durable nonces. -/
  domainHash : Hash → Hash
  lamportsPerSignature : UInt64
  separateNonceFromBlockhash : Bool
  nonceMustBeWritable : Bool
  mergeNonceErrorIntoSystemError : Bool
  rentForSysvars : Bool
  systemTransferZeroCheck : Bool
  createWithSeed : Pubkey → String → Pubkey → Outcome InstructionError Pubkey
  /-- Whether the recent blockhashes in an account are empty. -/
  recentBlockhashesIsEmpty : Pubkey → Account → Outcome InstructionError Bool
  /-- The minimum balance by data length, from the rent sysvar in an account. -/
  minimumBalance : Pubkey → Account → Outcome InstructionError (ℕ → ℕ)

namespace SystemContext

/-- `get_durable_nonce` of the nonce accounts. -/
def nextDurableNonce (ctx : SystemContext) : Hash :=
  durableNonceFromBlockhash ctx.domainHash ctx.blockhash ctx.separateNonceFromBlockhash

def nonceError (ctx : SystemContext) (error : NonceError) : InstructionError :=
  nonceToInstructionError error ctx.mergeNonceErrorIntoSystemError

end SystemContext

open Outcome

/-! ### Nonce accounts -/

namespace Account

variable (ctx : SystemContext) (account : Account)

/-- `state()` of a nonce account. -/
def nonceState : Outcome InstructionError NonceVersions :=
  okOr .invalidAccountData (decode account.data)

/-- `set_state()` of a nonce account. -/
def writeNonceState (versions : NonceVersions) : Outcome InstructionError Account :=
  match account.setNonceState versions with
  | .ok account => .ok account
  | .error e => .err e

variable (isWritable : Bool)

def checkNonceWritable : Outcome InstructionError Unit :=
  failIf (ctx.nonceMustBeWritable && !isWritable) .invalidArgument

def advanceNonceAccount (signers : List Pubkey) : Outcome InstructionError Account := do
  checkNonceWritable ctx isWritable
  let versions ← account.nonceState
  match versions.state with
  | .initialized data =>
    failIf (!signers.contains data.authority) .missingRequiredSignature
    -- a nonce can only advance once per slot
    failIf (decide (data.durableNonce = ctx.nextDurableNonce)) (ctx.nonceError .notExpired)
    account.writeNonceState (.new
      (.initialized ⟨data.authority, ctx.nextDurableNonce, ctx.lamportsPerSignature⟩)
      ctx.separateNonceFromBlockhash)
  | .uninitialized => .err (ctx.nonceError .badAccountState)

def initializeNonceAccount (nonceAuthority : Pubkey) (minimumBalance : ℕ → ℕ) :
    Outcome InstructionError Account := do
  checkNonceWritable ctx isWritable
  let versions ← account.nonceState
  match versions.state with
  | .uninitialized =>
    failIf (decide (account.lamports < minimumBalance account.data.length)) .insufficientFunds
    account.writeNonceState (.new
      (.initialized ⟨nonceAuthority, ctx.nextDurableNonce, ctx.lamportsPerSignature⟩)
      ctx.separateNonceFromBlockhash)
  | .initialized _ => .err (ctx.nonceError .badAccountState)

def authorizeNonceAccount (nonceAuthority : Pubkey) (signers : List Pubkey) :
    Outcome InstructionError Account := do
  checkNonceWritable ctx isWritable
  let versions ← account.nonceState
  match versions.state with
  | .initialized data =>
    failIf (!signers.contains data.authority) .missingRequiredSignature
    account.writeNonceState (.new
      (.initialized ⟨nonceAuthority, data.durableNonce, data.lamportsPerSignature⟩)
      versions.separateDomains)
  | .uninitialized => .err (ctx.nonceError .badAccountState)

/-- The account to withdraw from, closed if all is withdrawn, and who has to sign. -/
def closeNonceAccount (address : Pubkey) (lamports : ℕ) (minimumBalance : ℕ → ℕ) :
    Outcome InstructionError (Account × Pubkey) := do
  let versions ← account.nonceState
  match versions.state with
  | .uninitialized =>
    failIf (decide (lamports > account.lamports)) .insufficientFunds
    return (account, address)
  | .initialized data =>
    if lamports = account.lamports then
      failIf (decide (data.durableNonce = ctx.nextDurableNonce)) (ctx.nonceError .notExpired)
      return (← account.writeNonceState (.new .uninitialized ctx.separateNonceFromBlockhash),
        data.authority)
    else
      let amount ← okOr .insufficientFunds
        (checkedAdd 64 lamports (minimumBalance account.data.length))
      failIf (decide (amount > account.lamports)) .insufficientFunds
      return (account, data.authority)

def upgradeNonceAccount : Outcome InstructionError Account := do
  failIf (decide (account.owner ≠ systemProgramId)) .invalidAccountOwner
  failIf (!isWritable) .invalidArgument
  let versions ← account.nonceState
  account.writeNonceState (← okOr .invalidArgument (versions.upgrade ctx.domainHash))

end Account

/-! ### Accounts by address -/

/-- The accounts of a transaction while it is executed. -/
abbrev WorkingAccounts := Pubkey → Account

/-- `checked_sub_lamports` and `checked_add_lamports`, from one account to another. -/
def moveLamports (accounts : WorkingAccounts) (source target : Pubkey) (lamports : ℕ) :
    Outcome InstructionError WorkingAccounts := do
  let left ← okOr .arithmeticOverflow (checkedSub (accounts source).lamports lamports)
  let accounts := update accounts source { accounts source with lamports := left }
  let sum ← okOr .arithmeticOverflow (checkedAdd 64 (accounts target).lamports lamports)
  return update accounts target { accounts target with lamports := sum }

variable (ctx : SystemContext)

def withdrawNonceAccount (accounts : WorkingAccounts) (me : AccountMeta) (target : Pubkey)
    (lamports : ℕ) (minimumBalance : ℕ → ℕ) (signers : List Pubkey) :
    Outcome InstructionError WorkingAccounts := do
  checkNonceWritable ctx me.isWritable
  let (account, signer) ←
    (accounts me.pubkey).closeNonceAccount ctx me.pubkey lamports minimumBalance
  failIf (!signers.contains signer) .missingRequiredSignature
  moveLamports (update accounts me.pubkey account) me.pubkey target lamports

/-- `Address`: an address that may or may not have been generated from a seed. -/
structure SystemAddress where
  address : Pubkey
  base : Option Pubkey

namespace SystemAddress

def isSigner (a : SystemAddress) (signers : List Pubkey) : Bool :=
  signers.contains (a.base.getD a.address)

def create (address : Pubkey) (withSeed : Option (Pubkey × String × Pubkey)) :
    Outcome InstructionError SystemAddress :=
  match withSeed with
  | some (base, seed, owner) => do
    let addressWithSeed ← ctx.createWithSeed base seed owner
    -- re-derive the address, must match the supplied address
    failIf (decide (address ≠ addressWithSeed))
      SystemError.addressWithSeedMismatch.toInstructionError
    return ⟨address, some base⟩
  | none => return ⟨address, none⟩

end SystemAddress

variable (account : Account)

def allocate (address : SystemAddress) (space : ℕ) (signers : List Pubkey) :
    Outcome InstructionError Account := do
  failIf (!address.isSigner signers) .missingRequiredSignature
  failIf (!account.data.isEmpty || decide (account.owner ≠ systemProgramId))
    SystemError.accountAlreadyInUse.toInstructionError
  failIf (decide (space > maxPermittedDataLength))
    SystemError.invalidAccountDataLength.toInstructionError
  return { account with data := List.replicate space 0 }

def assign (address : SystemAddress) (owner : Pubkey) (signers : List Pubkey) :
    Outcome InstructionError Account :=
  if account.owner = owner then return account
  else do
    failIf (!address.isSigner signers) .missingRequiredSignature
    failIf (!ctx.rentForSysvars && decide (owner = sysvarProgramId))
      SystemError.invalidProgramId.toInstructionError
    return { account with owner := owner }

def allocateAndAssign (address : SystemAddress) (space : ℕ) (owner : Pubkey)
    (signers : List Pubkey) : Outcome InstructionError Account := do
  assign ctx (← allocate account address space signers) address owner signers

section

variable (accounts : WorkingAccounts) (source target : AccountMeta)

def transferVerified (source target : Pubkey) (lamports : ℕ) :
    Outcome InstructionError WorkingAccounts := do
  failIf (!(accounts source).data.isEmpty) .invalidArgument
  failIf (decide (lamports > (accounts source).lamports))
    SystemError.resultWithNegativeLamports.toInstructionError
  moveLamports accounts source target lamports

def transfer (lamports : ℕ) : Outcome InstructionError WorkingAccounts :=
  if !ctx.systemTransferZeroCheck && decide (lamports = 0) then return accounts
  else do
    failIf (!source.isSigner) .missingRequiredSignature
    transferVerified accounts source.pubkey target.pubkey lamports

def transferWithSeed (source sourceBase : AccountMeta) (seed : String) (owner : Pubkey)
    (target : AccountMeta) (lamports : ℕ) : Outcome InstructionError WorkingAccounts :=
  if !ctx.systemTransferZeroCheck && decide (lamports = 0) then return accounts
  else do
    failIf (!sourceBase.isSigner) .missingRequiredSignature
    let addressFromSeed ← ctx.createWithSeed sourceBase.pubkey seed owner
    failIf (decide (source.pubkey ≠ addressFromSeed))
      SystemError.addressWithSeedMismatch.toInstructionError
    transferVerified accounts source.pubkey target.pubkey lamports

def createAccount (address : SystemAddress) (lamports space : ℕ) (owner : Pubkey)
    (signers : List Pubkey) : Outcome InstructionError WorkingAccounts := do
  failIf (decide ((accounts target.pubkey).lamports > 0))
    SystemError.accountAlreadyInUse.toInstructionError
  let created ← allocateAndAssign ctx (accounts target.pubkey) address space owner signers
  transfer ctx (update accounts target.pubkey created) source target lamports

/-! ### Instructions -/

def keyedAccountAtIndex (metas : List AccountMeta) (i : ℕ) : Outcome InstructionError AccountMeta :=
  okOr .notEnoughAccountKeys metas[i]?

def WorkingAccounts.modify (key : Pubkey) (f : Account → Outcome InstructionError Account) :
    Outcome InstructionError WorkingAccounts := do
  return update accounts key (← f (accounts key))

end

/-- `process_instruction` of the system program. -/
def SystemInstruction.process (instruction : SystemInstruction) (ctx : SystemContext)
    (metas : List AccountMeta) (accounts : WorkingAccounts) :
    Outcome InstructionError WorkingAccounts := do
  let me ← keyedAccountAtIndex metas 0
  let signers := (metas.filter AccountMeta.isSigner).map AccountMeta.pubkey
  match instruction with
  | createAccount lamports space owner =>
    let target ← keyedAccountAtIndex metas 1
    let address ← SystemAddress.create ctx target.pubkey none
    Renec.createAccount ctx accounts me target address lamports space owner signers
  | createAccountWithSeed base seed lamports space owner =>
    let target ← keyedAccountAtIndex metas 1
    let address ← SystemAddress.create ctx target.pubkey (some (base, seed, owner))
    Renec.createAccount ctx accounts me target address lamports space owner signers
  | assign owner =>
    let address ← SystemAddress.create ctx me.pubkey none
    accounts.modify me.pubkey fun account ↦ Renec.assign ctx account address owner signers
  | transfer lamports =>
    let target ← keyedAccountAtIndex metas 1
    Renec.transfer ctx accounts me target lamports
  | transferWithSeed lamports fromSeed fromOwner =>
    let base ← keyedAccountAtIndex metas 1
    let target ← keyedAccountAtIndex metas 2
    Renec.transferWithSeed ctx accounts me base fromSeed fromOwner target lamports
  | advanceNonceAccount =>
    let sysvar ← keyedAccountAtIndex metas 1
    failIf (← ctx.recentBlockhashesIsEmpty sysvar.pubkey (accounts sysvar.pubkey))
      (nonceToInstructionError .noRecentBlockhashes false)
    accounts.modify me.pubkey fun account ↦ account.advanceNonceAccount ctx me.isWritable signers
  | withdrawNonceAccount lamports =>
    let target ← keyedAccountAtIndex metas 1
    let sysvar ← keyedAccountAtIndex metas 2
    let _ ← ctx.recentBlockhashesIsEmpty sysvar.pubkey (accounts sysvar.pubkey)
    let rent ← keyedAccountAtIndex metas 3
    let minimumBalance ← ctx.minimumBalance rent.pubkey (accounts rent.pubkey)
    Renec.withdrawNonceAccount ctx accounts me target.pubkey lamports minimumBalance signers
  | initializeNonceAccount authorized =>
    let sysvar ← keyedAccountAtIndex metas 1
    failIf (← ctx.recentBlockhashesIsEmpty sysvar.pubkey (accounts sysvar.pubkey))
      (nonceToInstructionError .noRecentBlockhashes false)
    let rent ← keyedAccountAtIndex metas 2
    let minimumBalance ← ctx.minimumBalance rent.pubkey (accounts rent.pubkey)
    accounts.modify me.pubkey fun account ↦
      account.initializeNonceAccount ctx me.isWritable authorized minimumBalance
  | authorizeNonceAccount nonceAuthority =>
    accounts.modify me.pubkey fun account ↦
      account.authorizeNonceAccount ctx me.isWritable nonceAuthority signers
  | upgradeNonceAccount =>
    failIf (!ctx.separateNonceFromBlockhash) .invalidInstructionData
    accounts.modify me.pubkey fun account ↦ account.upgradeNonceAccount ctx me.isWritable
  | allocate space =>
    let address ← SystemAddress.create ctx me.pubkey none
    accounts.modify me.pubkey fun account ↦ Renec.allocate account address space signers
  | allocateWithSeed base seed space owner =>
    let address ← SystemAddress.create ctx me.pubkey (some (base, seed, owner))
    accounts.modify me.pubkey fun account ↦
      allocateAndAssign ctx account address space owner signers
  | assignWithSeed base seed owner =>
    let address ← SystemAddress.create ctx me.pubkey (some (base, seed, owner))
    accounts.modify me.pubkey fun account ↦ Renec.assign ctx account address owner signers

/-! ### What an instruction writes -/

/-- **What the system program does to the data of an account.** -/
inductive SystemWrite (ctx : SystemContext) (before after : List UInt8) : Prop
  | same (h : after = before)
  | zeroed (h : after.all (· == 0) = true)
  | closed (h : decode after =
      some (.new .uninitialized ctx.separateNonceFromBlockhash))
  | advanced (authority : Pubkey) (h : decode after = some (.new
      (.initialized ⟨authority, ctx.nextDurableNonce, ctx.lamportsPerSignature⟩)
      ctx.separateNonceFromBlockhash))
  | authorized (versions : NonceVersions) (data : NonceData) (authority : Pubkey)
      (hbefore : decode before = some versions)
      (hstate : versions.state = .initialized data)
      (h : decode after = some (.new (.initialized { data with
        authority := authority }) versions.separateDomains))
  | upgraded (data : NonceData)
      (hbefore : decode before = some (.legacy (.initialized data)))

section

variable {account : Account} {ctx : SystemContext} {account' : Account} {isWritable : Bool}
  {signers : List Pubkey} {accounts accounts' : WorkingAccounts}

lemma writeNonceState_eq_ok {versions : NonceVersions}
    (h : account.writeNonceState versions = .ok account') :
    decode account'.data = some versions := by
  rw [writeNonceState] at h
  split at h
  next hset =>
    cases h
    exact (setNonceState_eq_ok hset).1
  · cases h

/-- An advance writes the next durable nonce. -/
theorem advanceNonceAccount_eq_ok
    (h : account.advanceNonceAccount ctx isWritable signers = .ok account') :
    ∃ authority, decode account'.data = some (.new
      (.initialized ⟨authority, ctx.nextDurableNonce, ctx.lamportsPerSignature⟩)
      ctx.separateNonceFromBlockhash) := by
  simp only [advanceNonceAccount, bind_eq_ok] at h
  obtain ⟨-, -, versions, -, h⟩ := h
  split at h
  next data _ =>
    simp only [bind_eq_ok] at h
    obtain ⟨-, -, -, -, hwrite⟩ := h
    exact ⟨data.authority, writeNonceState_eq_ok hwrite⟩
  · cases h

variable {lamports : ℕ} {source target : AccountMeta} {minimumBalance : ℕ → ℕ}
  {address : SystemAddress} {owner : Pubkey} {metas : List AccountMeta} {authority : Pubkey}

lemma initializeNonceAccount_write
    (h : account.initializeNonceAccount ctx isWritable authority minimumBalance = .ok account') :
    SystemWrite ctx account.data account'.data := by
  simp only [initializeNonceAccount, bind_eq_ok] at h
  obtain ⟨-, -, versions, -, h⟩ := h
  split at h
  · simp only [bind_eq_ok] at h
    obtain ⟨-, -, hwrite⟩ := h
    exact .advanced authority (writeNonceState_eq_ok hwrite)
  · cases h

lemma authorizeNonceAccount_write
    (h : account.authorizeNonceAccount ctx isWritable authority signers = .ok account') :
    SystemWrite ctx account.data account'.data := by
  simp only [authorizeNonceAccount, nonceState, bind_eq_ok, okOr_eq_ok] at h
  obtain ⟨-, -, versions, hversions, h⟩ := h
  split at h
  next data hdata =>
    simp only [bind_eq_ok] at h
    obtain ⟨-, -, hwrite⟩ := h
    exact .authorized versions data authority hversions hdata (writeNonceState_eq_ok hwrite)
  · cases h

lemma upgradeNonceAccount_write
    (h : account.upgradeNonceAccount ctx isWritable = .ok account') :
    SystemWrite ctx account.data account'.data := by
  simp only [upgradeNonceAccount, nonceState, bind_eq_ok, okOr_eq_ok] at h
  obtain ⟨-, -, -, -, versions, hversions, upgraded, hupgrade, -⟩ := h
  -- only a legacy nonce can be upgraded
  rcases versions with (_ | data) | _
  · cases hupgrade
  · exact .upgraded data hversions
  · cases hupgrade

lemma closeNonceAccount_write {address signer : Pubkey}
    (h : account.closeNonceAccount ctx address lamports minimumBalance = .ok (account', signer)) :
    SystemWrite ctx account.data account'.data := by
  simp only [closeNonceAccount, bind_eq_ok] at h
  obtain ⟨versions, -, h⟩ := h
  split at h
  · simp only [bind_eq_ok, pure_eq_ok, ok.injEq, Prod.mk.injEq] at h
    obtain ⟨-, -, rfl, -⟩ := h
    exact .same rfl
  split_ifs at h
  · simp only [bind_eq_ok, pure_eq_ok, ok.injEq, Prod.mk.injEq] at h
    obtain ⟨-, -, closed, hwrite, rfl, -⟩ := h
    exact .closed (writeNonceState_eq_ok hwrite)
  simp only [bind_eq_ok, pure_eq_ok, ok.injEq, Prod.mk.injEq] at h
  obtain ⟨-, -, -, -, rfl, -⟩ := h
  exact .same rfl

variable {space : ℕ}

lemma allocate_write (h : allocate account address space signers = .ok account') :
    account'.data.all (· == 0) = true := by
  simp only [allocate, bind_eq_ok, pure_eq_ok, ok.injEq] at h
  obtain ⟨-, -, -, -, -, -, rfl⟩ := h
  simp

lemma data_of_assign (h : assign ctx account address owner signers = .ok account') :
    account'.data = account.data := by
  rw [assign] at h
  split_ifs at h
  · cases h
    rfl
  simp only [bind_eq_ok, pure_eq_ok, ok.injEq] at h
  obtain ⟨-, -, -, -, rfl⟩ := h
  rfl

lemma allocateAndAssign_write
    (h : allocateAndAssign ctx account address space owner signers = .ok account') :
    account'.data.all (· == 0) = true := by
  simp only [allocateAndAssign, bind_eq_ok] at h
  obtain ⟨allocated, hallocate, hassign⟩ := h
  rw [data_of_assign hassign]
  exact allocate_write hallocate

lemma data_update {key : Pubkey} (h : account.data = (accounts key).data) (k : Pubkey) :
    (update accounts key account k).data = (accounts k).data := by
  by_cases hkey : k = key
  · subst hkey
    rwa [update_self]
  · rw [update_of_ne hkey]

lemma data_of_moveLamports {source target : Pubkey}
    (h : moveLamports accounts source target lamports = .ok accounts') (key : Pubkey) :
    (accounts' key).data = (accounts key).data := by
  simp only [moveLamports, bind_eq_ok, pure_eq_ok, ok.injEq] at h
  obtain ⟨left, -, sum, -, rfl⟩ := h
  refine (data_update ?_ key).trans (data_update ?_ key)
  · rfl
  · rfl

lemma data_of_transferVerified {source target : Pubkey}
    (h : transferVerified accounts source target lamports = .ok accounts') (key : Pubkey) :
    (accounts' key).data = (accounts key).data := by
  simp only [transferVerified, bind_eq_ok] at h
  obtain ⟨-, -, -, -, hmove⟩ := h
  exact data_of_moveLamports hmove key

lemma data_of_transfer (h : transfer ctx accounts source target lamports = .ok accounts')
    (key : Pubkey) : (accounts' key).data = (accounts key).data := by
  rw [transfer] at h
  split_ifs at h
  · cases h
    rfl
  simp only [bind_eq_ok] at h
  obtain ⟨-, -, hverified⟩ := h
  exact data_of_transferVerified hverified key

lemma data_of_transferWithSeed {base : AccountMeta} {seed : String}
    (h : transferWithSeed ctx accounts source base seed owner target lamports = .ok accounts')
    (key : Pubkey) : (accounts' key).data = (accounts key).data := by
  rw [transferWithSeed] at h
  split_ifs at h
  · cases h
    rfl
  simp only [bind_eq_ok] at h
  obtain ⟨-, -, -, -, -, -, hverified⟩ := h
  exact data_of_transferVerified hverified key

variable {key : Pubkey}

lemma write_of_update (hwrite : SystemWrite ctx (accounts key).data account.data)
    (hdata : ∀ k, (accounts' k).data = (update accounts key account k).data) (k : Pubkey) :
    SystemWrite ctx (accounts k).data (accounts' k).data := by
  rw [hdata]
  by_cases hkey : k = key
  · subst hkey
    rwa [update_self]
  rw [update_of_ne hkey]
  exact .same rfl

lemma modify_write {f : Account → Outcome InstructionError Account}
    (hf : ∀ account, f (accounts key) = .ok account →
      SystemWrite ctx (accounts key).data account.data) (h : accounts.modify key f = .ok accounts')
    (k : Pubkey) : SystemWrite ctx (accounts k).data (accounts' k).data := by
  simp only [WorkingAccounts.modify, bind_eq_ok, pure_eq_ok, ok.injEq] at h
  obtain ⟨account, haccount, rfl⟩ := h
  exact write_of_update (hf account haccount) (fun _ ↦ rfl) k

lemma createAccount_write
    (h : createAccount ctx accounts source target address lamports space owner signers =
      .ok accounts') (k : Pubkey) : SystemWrite ctx (accounts k).data (accounts' k).data := by
  simp only [createAccount, bind_eq_ok] at h
  obtain ⟨-, -, created, hcreated, htransfer⟩ := h
  exact write_of_update (.zeroed (allocateAndAssign_write hcreated)) (data_of_transfer htransfer) k

lemma withdrawNonceAccount_write {me : AccountMeta} {target : Pubkey}
    (h : withdrawNonceAccount ctx accounts me target lamports minimumBalance signers =
      .ok accounts') (k : Pubkey) : SystemWrite ctx (accounts k).data (accounts' k).data := by
  simp only [withdrawNonceAccount, bind_eq_ok] at h
  obtain ⟨-, -, ⟨account, signer⟩, hclose, -, -, hmove⟩ := h
  exact write_of_update (closeNonceAccount_write hclose) (data_of_moveLamports hmove) k

/-- Every instruction writes what `SystemWrite` allows, to every account. -/
theorem process_write {instruction : SystemInstruction}
    (h : instruction.process ctx metas accounts = .ok accounts') (k : Pubkey) :
    SystemWrite ctx (accounts k).data (accounts' k).data := by
  simp only [SystemInstruction.process, bind_eq_ok] at h
  obtain ⟨me, -, h⟩ := h
  cases instruction with (try simp only [bind_eq_ok] at h)
  | createAccount lamports space owner =>
    obtain ⟨target, -, address, -, h⟩ := h
    exact createAccount_write h k
  | createAccountWithSeed base seed lamports space owner =>
    obtain ⟨target, -, address, -, h⟩ := h
    exact createAccount_write h k
  | assign owner =>
    obtain ⟨address, -, h⟩ := h
    exact modify_write (fun _ hf ↦ .same (data_of_assign hf)) h k
  | transfer lamports =>
    obtain ⟨target, -, h⟩ := h
    exact .same (data_of_transfer h k)
  | transferWithSeed lamports seed owner =>
    obtain ⟨base, -, target, -, h⟩ := h
    exact .same (data_of_transferWithSeed h k)
  | advanceNonceAccount =>
    obtain ⟨sysvar, -, isEmpty, -, -, -, h⟩ := h
    refine modify_write (fun _ hf ↦ ?_) h k
    obtain ⟨authority, hdecode⟩ := advanceNonceAccount_eq_ok hf
    exact .advanced authority hdecode
  | withdrawNonceAccount lamports =>
    obtain ⟨target, -, sysvar, -, -, -, rent, -, minimumBalance, -, h⟩ := h
    exact withdrawNonceAccount_write h k
  | initializeNonceAccount authorized =>
    obtain ⟨sysvar, -, isEmpty, -, -, -, rent, -, minimumBalance, -, h⟩ := h
    exact modify_write (fun _ hf ↦ initializeNonceAccount_write hf) h k
  | authorizeNonceAccount nonceAuthority =>
    exact modify_write (fun _ hf ↦ authorizeNonceAccount_write hf) h k
  | upgradeNonceAccount =>
    obtain ⟨-, -, h⟩ := h
    exact modify_write (fun _ hf ↦ upgradeNonceAccount_write hf) h k
  | allocate space =>
    obtain ⟨address, -, h⟩ := h
    exact modify_write (fun _ hf ↦ .zeroed (allocate_write hf)) h k
  | allocateWithSeed base seed space owner =>
    obtain ⟨address, -, h⟩ := h
    exact modify_write (fun _ hf ↦ .zeroed (allocateAndAssign_write hf)) h k
  | assignWithSeed base seed owner =>
    obtain ⟨address, -, h⟩ := h
    exact modify_write (fun _ hf ↦ .same (data_of_assign hf)) h k

lemma process_advanceNonceAccount
    (h : SystemInstruction.advanceNonceAccount.process ctx metas accounts = .ok accounts') :
    ∃ me account authority, metas[0]? = some me ∧
      accounts' = update accounts me.pubkey account ∧
      decode account.data =
        some (.new (.initialized ⟨authority, ctx.nextDurableNonce, ctx.lamportsPerSignature⟩)
          ctx.separateNonceFromBlockhash) := by
  simp only [SystemInstruction.process, keyedAccountAtIndex, WorkingAccounts.modify, bind_eq_ok,
    okOr_eq_ok, pure_eq_ok, ok.injEq] at h
  obtain ⟨me, hme, -, -, -, -, -, -, account, hadvance, rfl⟩ := h
  obtain ⟨authority, hdecode⟩ := advanceNonceAccount_eq_ok hadvance
  exact ⟨me, account, authority, hme, rfl, hdecode⟩

end

end Renec
