import Renec.LookupTable.State
import Renec.Runtime.SystemProgram

/-!
# The lookup table program

The instructions of the program (`programs/address-lookup-table/src/processor.rs`) on one table
account, and a chain of banks in which they run. The address of a table is derived from an authority
and a recent slot; the derivation is a parameter.
-/

namespace Renec.LookupTable

open Outcome

/-- `AddressLookupTab1e1111111111111111111111111`. -/
def programId : Pubkey := ⟨0x277a6af97339b7ac88d1892c90446f50002309266f62e53c118244982000000#256⟩

/-- The account of a table, with its data deserialized; `none` is an account without data. -/
structure TableAccount where
  lamports : ℕ
  owner : Pubkey
  data : Option AddressLookupTable

/-- Another account of an instruction, and whether it signed. -/
structure Party where
  key : Pubkey
  isSigner : Bool
  account : Account

/-- What the instructions use of their environment. -/
structure Context where
  /-- `Pubkey::create_program_address` with the seeds of a table. -/
  createProgramAddress : Pubkey → Slot → UInt8 → Outcome InstructionError Pubkey
  /-- `Rent::minimum_balance`. -/
  minimumBalance : ℕ → ℕ

/-- The bank an instruction runs in: its slot, and the recent slots, which are below it. -/
structure Bank where
  slot : Slot
  slotHashes : SlotHashes
  recent : ∀ x ∈ slotHashes.slots, x < slot

/-- The system instruction `transfer`, from the payer to the table. -/
def transfer (payer : Party) (table : TableAccount) (lamports : ℕ) :
    Outcome InstructionError (TableAccount × Party) := do
  failIf (!payer.account.data.isEmpty) .invalidArgument
  failIf (payer.account.lamports < lamports)
    SystemError.resultWithNegativeLamports.toInstructionError
  let target ← okOr .arithmeticOverflow (checkedAdd 64 table.lamports lamports)
  return ({ table with lamports := target },
    { payer with account :=
      { payer.account with lamports := payer.account.lamports - lamports } })

variable (ctx : Context)

/-- The payer tops the table up to the minimum balance for a data length. -/
def fund (payer : Party) (table : TableAccount) (dataLen : ℕ) :
    Outcome InstructionError (TableAccount × Party) :=
  let requiredLamports := max (ctx.minimumBalance dataLen) 1 - table.lamports
  if requiredLamports > 0 then transfer payer table requiredLamports else .ok (table, payer)

variable (bank : Bank) (tableKey : Pubkey) (table : TableAccount)

/-- `Processor::create_lookup_table`. -/
def createLookupTable (authority payer : Party) (untrustedRecentSlot : Slot) (bumpSeed : UInt8) :
    Outcome InstructionError (TableAccount × Party) := do
  failIf table.data.isSome .accountAlreadyInitialized
  failIf (!authority.isSigner) .missingRequiredSignature
  failIf (!payer.isSigner) .missingRequiredSignature
  failIf (bank.slotHashes.get untrustedRecentSlot).isNone .invalidInstructionData
  let derivedTableKey ← ctx.createProgramAddress authority.key untrustedRecentSlot bumpSeed
  failIf (tableKey ≠ derivedTableKey) .invalidArgument
  let (table, payer) ← fund ctx payer table lookupTableMetaSize
  -- the system instruction `allocate`, then `assign`
  failIf (table.owner ≠ systemProgramId) SystemError.accountAlreadyInUse.toInstructionError
  return ({ table with
    owner := programId
    data := some ⟨LookupTableMeta.new authority.key, []⟩ }, payer)

/-- What the instructions on an existing table check first: the owner, the signature of the
authority, and that the table is there. -/
def ownedTable (authority : Party) : Outcome InstructionError AddressLookupTable := do
  failIf (table.owner ≠ programId) .invalidAccountOwner
  failIf (!authority.isSigner) .missingRequiredSignature
  okOr .invalidAccountData table.data

/-- The table is not frozen, and this is its authority. -/
def checkAuthority (lookupTable : AddressLookupTable) (authority : Party) :
    Outcome InstructionError Unit := do
  failIf lookupTable.metadata.authority.isNone .immutable
  failIf (lookupTable.metadata.authority ≠ some authority.key) .incorrectAuthority

/-- `Processor::freeze_lookup_table`. -/
def freezeLookupTable (authority : Party) : Outcome InstructionError TableAccount := do
  let lookupTable ← ownedTable table authority
  checkAuthority lookupTable authority
  failIf (lookupTable.metadata.deactivationSlot ≠ u64Max) .invalidArgument
  failIf lookupTable.addresses.isEmpty .invalidInstructionData
  return { table with
    data := some { lookupTable with metadata := { lookupTable.metadata with authority := none } } }

/-- The metadata of a table that is extended: only the first extension in a slot moves the start
index. -/
def extendedMeta (lookupTable : AddressLookupTable) (slot : Slot) :
    Outcome InstructionError LookupTableMeta :=
  if slot ≠ lookupTable.metadata.lastExtendedSlot then
    if lookupTable.addresses.length < 256 then
      .ok { lookupTable.metadata with
        lastExtendedSlot := slot
        lastExtendedSlotStartIndex := lookupTable.addresses.length }
    else .err .invalidAccountData
  else .ok lookupTable.metadata

/-- `Processor::extend_lookup_table`. -/
def extendLookupTable (authority payer : Party) (newAddresses : List Pubkey) :
    Outcome InstructionError (TableAccount × Party) := do
  failIf (table.owner ≠ programId) .invalidAccountOwner
  failIf (!authority.isSigner) .missingRequiredSignature
  failIf (!payer.isSigner) .missingRequiredSignature
  let lookupTable ← okOr .invalidAccountData table.data
  checkAuthority lookupTable authority
  failIf (lookupTable.metadata.deactivationSlot ≠ u64Max) .invalidArgument
  failIf (lookupTableMaxAddresses ≤ lookupTable.addresses.length) .invalidArgument
  failIf newAddresses.isEmpty .invalidInstructionData
  let newTableAddressesLen := saturatingAdd 64 lookupTable.addresses.length newAddresses.length
  failIf (lookupTableMaxAddresses < newTableAddressesLen) .invalidInstructionData
  let lookupTableMeta ← extendedMeta lookupTable bank.slot
  let newTableDataLen ← okOr .arithmeticOverflow
    (checkedAdd 64 lookupTableMetaSize (min (newTableAddressesLen * 32) u64Max))
  fund ctx payer
    { table with data := some ⟨lookupTableMeta, lookupTable.addresses ++ newAddresses⟩ }
    newTableDataLen

/-- `Processor::deactivate_lookup_table`. -/
def deactivateLookupTable (authority : Party) : Outcome InstructionError TableAccount := do
  let lookupTable ← ownedTable table authority
  checkAuthority lookupTable authority
  failIf (lookupTable.metadata.deactivationSlot ≠ u64Max) .invalidArgument
  return { table with
    data := some { lookupTable with
      metadata := { lookupTable.metadata with deactivationSlot := bank.slot } } }

/-- `Processor::close_lookup_table`. -/
def closeLookupTable (authority recipient : Party) :
    Outcome InstructionError (TableAccount × Party) := do
  failIf (table.owner ≠ programId) .invalidAccountOwner
  failIf (!authority.isSigner) .missingRequiredSignature
  failIf (recipient.key = tableKey) .invalidArgument
  let lookupTable ← okOr .invalidAccountData table.data
  checkAuthority lookupTable authority
  failIf (lookupTable.metadata.status bank.slot bank.slotHashes ≠ .deactivated) .invalidArgument
  let received ← okOr .arithmeticOverflow (checkedAdd 64 recipient.account.lamports table.lamports)
  return ({ table with
      lamports := 0
      data := none },
    { recipient with account := { recipient.account with lamports := received } })

/-! ### Chains of banks -/

/-- `Bank::new_from_parent`: the slot of the parent becomes a recent slot. -/
def Bank.child (parent : Bank) (slot : Slot) (parentHash : Hash) (h : parent.slot < slot) :
    Bank where
  slot := slot
  slotHashes := parent.slotHashes.add parent.slot parentHash
  recent x hx := by
    rcases SlotHashes.mem_of_mem_slots_add hx with rfl | hx
    · exact h
    · exact (parent.recent x hx).trans h

/-- The current bank, and the account at the address of a table. -/
structure World where
  bank : Bank
  table : TableAccount

inductive Op where
  /-- A bank for a later slot, with the hash of its parent. -/
  | newBank (slot : Slot) (parentHash : Hash)
  | create (authority payer : Party) (untrustedRecentSlot : Slot) (bumpSeed : UInt8)
  | extend (authority payer : Party) (newAddresses : List Pubkey)
  | freeze (authority : Party)
  | deactivate (authority : Party)
  | close (authority recipient : Party)

/-- Not the start of a new bank. -/
def Op.isInstruction : Op → Bool
  | newBank _ _ => false
  | _ => true

/-- The account an instruction leaves. -/
def execute (bank : Bank) (table : TableAccount) : Op → Outcome InstructionError TableAccount
  | .newBank _ _ => .ok table
  | .create authority payer slot bump => do
    return (← createLookupTable ctx bank tableKey table authority payer slot bump).1
  | .extend authority payer newAddresses => do
    return (← extendLookupTable ctx bank table authority payer newAddresses).1
  | .freeze authority => freezeLookupTable table authority
  | .deactivate authority => deactivateLookupTable bank table authority
  | .close authority recipient => do
    return (← closeLookupTable bank tableKey table authority recipient).1

/-- The account is changed if the instruction succeeds. -/
def World.settle (w : World) : Outcome InstructionError TableAccount → World
  | .ok table => { w with table := table }
  | _ => w

def step (w : World) : Op → World
  | .newBank slot parentHash =>
    if h : w.bank.slot < slot then { w with bank := w.bank.child slot parentHash h } else w
  | op => w.settle (execute ctx tableKey w.bank w.table op)

def run (w : World) (ops : List Op) : World :=
  ops.foldl (step ctx tableKey) w

end Renec.LookupTable
