import Renec.Machine.Exec
import Renec.Runtime.PreAccount

/-!
# The invoke context

The part of the runtime that runs instructions (`program-runtime/src/invoke_context.rs`). A program
can call another one: `createMessage` compiles the instruction and checks it against the caller's
frame, and `processInstruction` runs it between two checks of the accounts against their reference
copies.

Left out are the borrow state of the accounts, the compute budget, the logs, the timings, the
executor cache and the return data: no function modelled here decides anything by them.
-/

namespace Renec

open Exec Outcome

/-! ### The state -/

/-- An account passed to a program. The index is its place among the accounts of the
transaction. -/
structure KeyedAccount where
  isSigner : Bool
  isWritable : Bool
  key : Pubkey
  index : ℕ
  deriving DecidableEq

/-- The frame of a running program: first the accounts of the program itself, then the accounts of
the instruction. -/
structure StackFrame where
  numberOfProgramAccounts : ℕ
  keyedAccounts : List KeyedAccount
  deriving DecidableEq

/-- The key of the last program account. -/
def StackFrame.programId (frame : StackFrame) : Option Pubkey :=
  frame.keyedAccounts[frame.numberOfProgramAccounts - 1]?.map KeyedAccount.key

structure Features where
  rejectEmptyInstructionWithoutProgram : Bool
  doSupportRealloc : Bool
  capAccountsDataLen : Bool
  removeNativeLoader : Bool
  deriving DecidableEq

structure InvokeContext where
  /-- The frame of the running program comes first. -/
  invokeStack : List StackFrame
  /-- The rent rule: whether a balance exempts data of a length from rent. -/
  isExempt : ℕ → ℕ → Bool
  preAccounts : List PreAccount
  /-- The accounts of the transaction. -/
  accounts : List (Pubkey × Account)
  /-- The ids of the builtin programs. -/
  builtinPrograms : List Pubkey
  maxInvokeDepth : ℕ
  accountsDataMeter : AccountsDataMeter
  features : Features

/-- A method of the invoke context. -/
abbrev Invoke (α : Type) : Type := Exec InvokeContext InstructionError α

namespace InvokeContext

/-! ### Frames -/

/-- The loop over the distinct account indices of an instruction. The work is done for the number
of the index among them and the index, and carries on the locals of the loop. -/
def visitEachAccount {β : Type} (instruction : CompiledInstruction) (work : β → ℕ → ℕ → Invoke β)
    (init : β) : Invoke β :=
  instruction.accounts.eraseDups.zipIdx.foldlM (fun b p ↦ work b p.2 p.1) init

/-- Keep a reference copy of an account. -/
def pushPreAccount (accountIndex : ℕ) : Invoke Unit := do
  let ctx ← get
  let (key, account) ← okOr .missingAccount ctx.accounts[accountIndex]?
  modify fun ctx ↦ { ctx with preAccounts := ctx.preAccounts ++ [PreAccount.new key account] }

/-- Start a top-level instruction with copies of its accounts. -/
def startPreAccounts (instruction : CompiledInstruction) : Invoke Unit := do
  modify fun ctx ↦ { ctx with preAccounts := [] }
  visitEachAccount instruction (fun _ _ accountIndex ↦ pushPreAccount accountIndex) ()

variable (ctx : InvokeContext)

/-- Whether a call of the program enters a program that is running but did not make the call. -/
def isReentrant (programId : Option Pubkey) : Bool :=
  let contains := ctx.invokeStack.any fun frame ↦ frame.programId == programId
  let isLast := ctx.invokeStack.head?.any fun frame ↦ frame.programId == programId
  contains && !isLast

/-- What `push` does to the reference copies, or checks instead. -/
def enter (instruction : CompiledInstruction) (programId : Option Pubkey) : Invoke Unit := do
  let ctx ← get
  if ctx.invokeStack.isEmpty then startPreAccounts instruction
  else failIf (ctx.isReentrant programId) .reentrancyNotAllowed

/-- A program account is passed without privileges. -/
def programKeyedAccount (accountIndex : ℕ) : Option KeyedAccount :=
  ctx.accounts[accountIndex]?.map fun p ↦ ⟨false, false, p.1, accountIndex⟩

/-- The place of an instruction account among the accounts of the transaction: without a list of
account indices it is the index in the message. -/
def accountIndex (accountIndices : List ℕ) (indexInInstruction : ℕ) : Option ℕ :=
  if accountIndices.isEmpty then some indexInInstruction else accountIndices[indexInInstruction]?

variable (message : SanitizedMessage)

/-- An instruction account is passed with the flags its index has in the message. -/
def instructionKeyedAccount (accountIndices : List ℕ) (indexInInstruction : ℕ) :
    Option KeyedAccount := do
  let accountIndex ← accountIndex accountIndices indexInInstruction
  let (key, _) ← ctx.accounts[accountIndex]?
  let isWritable ← message.isWritable indexInInstruction
  return ⟨message.isSigner indexInInstruction, isWritable, key, accountIndex⟩

variable (instruction : CompiledInstruction)

def newFrame (programIndices accountIndices : List ℕ) : Option StackFrame := do
  let programs ← programIndices.mapM ctx.programKeyedAccount
  let accounts ← instruction.accounts.mapM (ctx.instructionKeyedAccount message accountIndices)
  return ⟨programIndices.length, programs ++ accounts⟩

/-- Push a stack frame onto the invocation stack. -/
def push (programIndices accountIndices : List ℕ) : Invoke Unit := do
  let ctx ← get
  failIf (decide (ctx.invokeStack.length > ctx.maxInvokeDepth)) .callDepth
  let program ← ofOption (programIndices.getLast?.mapM fun i ↦ ctx.accounts[i]?)
  let programId := program.map Prod.fst
  failIf (programId.isNone && ctx.features.rejectEmptyInstructionWithoutProgram)
    .unsupportedProgramId
  enter instruction programId
  let frame ← ofOption (ctx.newFrame message instruction programIndices accountIndices)
  modify fun ctx ↦ { ctx with invokeStack := frame :: ctx.invokeStack }

/-- Pop a stack frame from the invocation stack. -/
def pop : InvokeContext := { ctx with invokeStack := ctx.invokeStack.tail }

/-! ### Verification -/

/-- Meter a change of the length of data. -/
def consumeData (dataLenDelta : ℤ) : Invoke Unit := do
  let ctx ← get
  let meter ← ofOutcome fun _ ↦
    if ctx.features.capAccountsDataLen then ctx.accountsDataMeter.consume dataLenDelta
    else .ok (ctx.accountsDataMeter.consumeUnchecked dataLenDelta)
  modify fun ctx ↦ { ctx with accountsDataMeter := meter }

/-- The data grows from `pre` to `post` by so much. -/
def dataLenDelta (pre post : Account) : ℤ :=
  saturateI64 ((post.data.length : ℤ) - (pre.data.length : ℤ))

/-- Add a balance to a sum in `u128`. -/
def addLamports (sum lamports : ℕ) : Invoke ℕ :=
  okOr .unbalancedInstruction (checkedAdd 128 sum lamports)

/-- The work of `verify` on one account. -/
def verifyAccount (programId : Pubkey) (sums : ℕ × ℕ) (uniqueIndex accountIndex : ℕ) :
    Invoke (ℕ × ℕ) := do
  let ctx ← get
  let (_, account) ← ofOption ctx.accounts[accountIndex]?
  let preAccount ← ofOption ctx.preAccounts[uniqueIndex]?
  let isWritable ← ofOption (message.isWritable accountIndex)
  ofOutcome fun _ ↦
    preAccount.verify programId isWritable ctx.isExempt account ctx.features.doSupportRealloc
  let preSum ← addLamports sums.1 preAccount.account.lamports
  let postSum ← addLamports sums.2 account.lamports
  consumeData (dataLenDelta preAccount.account account)
  return (preSum, postSum)

/-- Verify the results of a top-level instruction. -/
def verify : Invoke Unit := do
  let programId ← ofOption message.accountKeys[instruction.programIdIndex]?
  let (preSum, postSum) ← visitEachAccount instruction (verifyAccount message programId) (0, 0)
  failIf (preSum != postSum) .unbalancedInstruction

/-- The reference copy takes over a verified account that may have changed. -/
def updatedPreAccount (preAccount : PreAccount) (isWritable : Bool) (account : Account) :
    PreAccount :=
  if isWritable && !preAccount.account.executable then preAccount.update account else preAccount

/-- The work of `verifyAndUpdate` on one account: the reference copy is the first one of the
account's key. The copy is updated before the growth of the data is computed. -/
def verifyAndUpdateAccount (programId : Pubkey) (accountIndices : List ℕ)
    (writePrivileges : List Bool) (sums : ℕ × ℕ) (_uniqueIndex indexInInstruction : ℕ) :
    Invoke (ℕ × ℕ) := do
  let ctx ← get
  let isWritable ← okOr .missingAccount writePrivileges[indexInInstruction]?
  let accountIndex ← okOr .missingAccount accountIndices[indexInInstruction]?
  let (key, account) ← ofOption ctx.accounts[accountIndex]?
  let i ← okOr .missingAccount (ctx.preAccounts.findIdx? fun preAccount ↦ preAccount.key == key)
  let preAccount ← ofOption ctx.preAccounts[i]?
  ofOutcome fun _ ↦
    preAccount.verify programId isWritable ctx.isExempt account ctx.features.doSupportRealloc
  let preSum ← addLamports sums.1 preAccount.account.lamports
  let postSum ← addLamports sums.2 account.lamports
  let updated := updatedPreAccount preAccount isWritable account
  modify fun ctx ↦ { ctx with preAccounts := ctx.preAccounts.set i updated }
  consumeData (dataLenDelta updated.account account)
  return (preSum, postSum)

/-- Verify the accounts of a call against the reference copies, and update these. -/
def verifyAndUpdate (accountIndices : List ℕ) (writePrivileges : List Bool) : Invoke Unit := do
  let ctx ← get
  let programId ← okOr .callDepth (ctx.invokeStack.head?.bind StackFrame.programId)
  let (preSum, postSum) ← visitEachAccount instruction
    (verifyAndUpdateAccount programId accountIndices writePrivileges) (0, 0)
  failIf (preSum != postSum) .unbalancedInstruction

/-! ### Instructions -/

variable (entrypoint : Invoke Unit)

/-- Calls the instruction's program entrypoint: the root account is a builtin program itself, or a
builtin program owns it. The native loader serves the other programs it owns until it is removed. -/
def processExecutableChain : Invoke Unit := do
  let ctx ← get
  let frame ← okOr .callDepth ctx.invokeStack.head?
  let root ← okOr .unsupportedProgramId frame.keyedAccounts.head?
  let (_, account) ← ofOption ctx.accounts[root.index]?
  let served :=
    if account.owner = nativeLoaderId then
      ctx.builtinPrograms.contains root.key || !ctx.features.removeNativeLoader
    else ctx.builtinPrograms.contains account.owner
  failIf (!served) .unsupportedProgramId
  entrypoint

/-- Verify that the calling program has not misbehaved; at the top level there is none. -/
def verifyCaller (accountIndices : List ℕ) (callerWritePrivileges : List Bool) : Invoke Unit := do
  let ctx ← get
  if ctx.invokeStack.isEmpty then pure ()
  else verifyAndUpdate instruction accountIndices callerWritePrivileges

/-- Verify that the called program has not misbehaved. -/
def verifyCallee (isLowestInvocationLevel : Bool) (message : SanitizedMessage)
    (instruction : CompiledInstruction) (accountIndices : List ℕ) : Invoke Unit :=
  if isLowestInvocationLevel then verify message instruction
  else do
    let writePrivileges ← ofOption
      ((List.range message.accountKeys.length).mapM message.isWritable)
    verifyAndUpdate instruction accountIndices writePrivileges

/-- Processes an instruction, at the top level or for a calling program. The frame is popped also
when it could not be pushed. -/
def processInstruction (message : SanitizedMessage) (instruction : CompiledInstruction)
    (programIndices accountIndices : List ℕ) (callerWritePrivileges : List Bool) : Invoke Unit := do
  let isLowestInvocationLevel := (← get).invokeStack.isEmpty
  verifyCaller instruction accountIndices callerWritePrivileges
  thenAlways (do
    push message instruction programIndices accountIndices
    let _ ← ofOption message.accountKeys[instruction.programIdIndex]?
    processExecutableChain entrypoint
    verifyCallee isLowestInvocationLevel message instruction accountIndices) pop

/-! ### Cross-program invocations -/

/-- The list of keyed accounts without the chain of program accounts. -/
def getInstructionKeyedAccounts : Outcome InstructionError (List KeyedAccount) := do
  let frame ← okOr .callDepth ctx.invokeStack.head?
  assert (decide (frame.numberOfProgramAccounts ≤ frame.keyedAccounts.length))
  return frame.keyedAccounts.drop frame.numberOfProgramAccounts

/-- Find an account and its index by its key, from the end of the list. -/
def getAccount (pubkey : Pubkey) : Option (ℕ × Account) :=
  (ctx.accounts.zipIdx.reverse.find? fun p ↦ p.1.1 == pubkey).map fun p ↦ (p.2, p.1.2)

def findKeyedAccount (keyedAccounts : List KeyedAccount) (pubkey : Pubkey) :
    Outcome InstructionError KeyedAccount :=
  okOr .missingAccount (keyedAccounts.find? fun keyedAccount ↦ keyedAccount.key == pubkey)

section

variable (calleeKeyedAccounts : List KeyedAccount)

/-- Check an account of an instruction for privilege escalation. -/
def checkPrivileges (signers : List Pubkey) (account : AccountMeta) :
    Outcome InstructionError Unit := do
  let keyedAccount ← findKeyedAccount calleeKeyedAccounts account.pubkey
  -- a read-only account cannot become writable
  failIf (account.isWritable && !keyedAccount.isWritable) .privilegeEscalation
  -- a signer signed the parent instruction, or the program signs for it
  failIf (account.isSigner && !(keyedAccount.isSigner || signers.contains account.pubkey))
    .privilegeEscalation

/-- The account that holds the executable of a program of the upgradeable loader. -/
def programdataIndices (programAccount : Account) : Outcome InstructionError (List ℕ) :=
  if programAccount.owner = bpfLoaderUpgradeableId then do
    match ← okOr .invalidAccountData (UpgradeableLoaderState.decode programAccount.data) with
    | .program programdataAddress =>
      let (index, _) ← okOr .missingAccount (ctx.getAccount programdataAddress)
      return [index]
    | _ => .err .missingAccount
  else .ok []

/-- Find and validate the executables of a program that is among the keyed accounts. -/
def findProgramIndices (calleeProgramId : Pubkey) : Outcome InstructionError (List ℕ) := do
  let _ ← findKeyedAccount calleeKeyedAccounts calleeProgramId
  let (programAccountIndex, programAccount) ←
    okOr .missingAccount (ctx.getAccount calleeProgramId)
  failIf (!programAccount.executable) .accountNotExecutable
  return (← ctx.programdataIndices programAccount) ++ [programAccountIndex]

end

/-- Prepare for `processInstruction`: the message of an instruction, the caller's write privileges
on its keys, and the indices of the program accounts. -/
def createMessage (instruction : Instruction) (signers : List Pubkey) :
    Outcome InstructionError (Message × List Bool × List ℕ) := do
  let message ← ofOption (Message.new [instruction] none)
  let callerKeyedAccounts ← ctx.getInstructionKeyedAccounts
  let calleeKeyedAccounts ← message.accountKeys.mapM (findKeyedAccount callerKeyedAccounts)
  instruction.accounts.forM (checkPrivileges calleeKeyedAccounts signers)
  let callerWritePrivileges := calleeKeyedAccounts.map KeyedAccount.isWritable
  let programIndices ← ctx.findProgramIndices calleeKeyedAccounts instruction.programId
  return (message, callerWritePrivileges, programIndices)

/-- The places of the accounts of a message among those of the transaction. -/
def accountIndices (message : Message) : Outcome InstructionError (List ℕ) :=
  message.accountKeys.mapM fun accountKey ↦ do
    return (← okOr .missingAccount (ctx.getAccount accountKey)).1

end InvokeContext

end Renec
