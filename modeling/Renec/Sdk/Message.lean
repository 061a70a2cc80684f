import Renec.Machine.Outcome
import Renec.Sdk.Types

/-!
# Messages

Instructions, and the messages they are compiled to (`sdk/program/src/message`). A message lists
every account key once; the header says by position which keys sign and which are writable:

```
[ signed, writable | signed, read-only | unsigned, writable | unsigned, read-only ]
```

`getKeys` puts the keys of a list of instructions into that order: it sorts the account metas by
privilege, keeps the first meta of each key, and counts. A later meta that asks for write access
promotes the kept one where it stands.

The flags of an account are then read back from its position (`isSigner`, `isWritable`). Sysvars,
builtin programs and a program that is called are never writable, whatever the position says.
-/

namespace Renec

/-! ### Ids -/

/-- `BPFLoader1111111111111111111111111111111111`. -/
def bpfLoaderDeprecatedId : Pubkey :=
  ⟨0x2a8f6914e88a16bbd2395855f6404d9b4f456b7821bb0145749428c00000000#256⟩

/-- `BPFLoader2111111111111111111111111111111111`. -/
def bpfLoaderId : Pubkey := ⟨0x2a8f6914e88a16e395ae128948ffa695693376818dd47435221f3c600000000#256⟩

/-- `BPFLoaderUpgradeab1e11111111111111111111111`. -/
def bpfLoaderUpgradeableId : Pubkey :=
  ⟨0x2a8f6914e88a1b0e210153ef763ae2b00c2b93d16c124d2c0537a1004800000#256⟩

/-- `11111111111111111111111111111111`. -/
def systemProgramId : Pubkey := ⟨0#256⟩

/-- `sysvar::ALL_IDS`: clock, epoch schedule, fees, recent blockhashes, rent, rewards, slot hashes,
slot history, stake history and instructions. -/
def sysvarIds : List Pubkey :=
  [⟨0x6a7d51718c774c928566398691d5eb68b5eb8a39b4b6d5c73555b2100000000#256⟩,
    ⟨0x6a7d51718dc3fee02d3e47f0100f8b054f7942e60591e3f508719a805000000#256⟩,
    ⟨0x6a7d51718e25a8d83503c251a7af07126fd7200df6fc4ed526a9c9000000000#256⟩,
    ⟨0x6a7d517192c568ee08a845f73d29788cf035c3145b21ab344d8062ea9400000#256⟩,
    ⟨0x6a7d517192c5c51218cc94c3d4af17f58daee089ba1fd44e3dbd98a00000000#256⟩,
    ⟨0x6a7d517192c6137cee092d9b6923ee1ccd61903fa82b8a16191578d80000000#256⟩,
    ⟨0x6a7d517192f0aafc6f265e3fb77cc7ada82c529d0be3b136e2d005520000000#256⟩,
    ⟨0x6a7d517192f0aafc875e2e184577c5069cfc84649e3eb92782f958d48000000#256⟩,
    ⟨0x6a7d517193584d0feed9bb3431d13206be544281b57b8566cc5375ff4000000#256⟩,
    ⟨0x6a7d517187bd16635dad40455fdc2c0c124c68f215675a5dbbacb5f08000000#256⟩]

/-- `BUILTIN_PROGRAMS_KEYS`: config, feature, native loader, stake, stake config and vote, then the
system program and the three loaders. -/
def builtinProgramsKeys : List Pubkey :=
  [⟨0x3064aa3002f74dcc86e43310f0c052af8c5da27f6104019a323efa000000000#256⟩,
    ⟨0x3c0a0cdcb06d2daefae82d16fee7acf61ec737b23481b21946a767000000000#256⟩,
    ⟨0x58784bf148ba4282fb012574888a9f153a07dadf765c0455c9a970380000000#256⟩,
    ⟨0x6a1d8179137542a983437bdfe2a7ab2557f535c8a78722b68a49dc000000000#256⟩,
    ⟨0x6a1d817a502050b680791e6ce6db88e1e5b7150f61fc6790a4eb4d100000000#256⟩,
    ⟨0x761481d357474bb7c4d7624ebd3bdb3d8355e73d11043fc0da3538000000000#256⟩,
    systemProgramId, bpfLoaderId, bpfLoaderDeprecatedId, bpfLoaderUpgradeableId]

def isSysvarId (key : Pubkey) : Bool := sysvarIds.contains key

/-! ### Instructions -/

/-- An account an instruction uses, and the access it needs. -/
structure AccountMeta where
  pubkey : Pubkey
  isSigner : Bool
  isWritable : Bool
  deriving DecidableEq

/-- A directive for a single invocation of a program. -/
structure Instruction where
  programId : Pubkey
  accounts : List AccountMeta
  data : List UInt8
  deriving DecidableEq

/-- An instruction whose keys are indices (`u8`) into the keys of its message. -/
structure CompiledInstruction where
  programIdIndex : ℕ
  accounts : List ℕ
  data : List UInt8
  deriving DecidableEq

/-- The organisation of the account keys of a message; each count is a `u8`. -/
structure MessageHeader where
  numRequiredSignatures : ℕ
  numReadonlySignedAccounts : ℕ
  numReadonlyUnsignedAccounts : ℕ
  deriving DecidableEq

structure Message where
  header : MessageHeader
  accountKeys : List Pubkey
  recentBlockhash : Hash
  instructions : List CompiledInstruction
  deriving DecidableEq

/-! ### Compilation -/

/-- The keys referenced by a set of instructions, and the read-only counts. -/
structure InstructionKeys where
  signedKeys : List Pubkey
  unsignedKeys : List Pubkey
  numReadonlySignedAccounts : ℕ
  numReadonlyUnsignedAccounts : ℕ
  deriving DecidableEq

/-- The comparison of `get_keys`: signers first, writable first among equals. -/
def compareMetas (x y : AccountMeta) : Ordering :=
  (compare y.isSigner x.isSigner).then (compare y.isWritable x.isWritable)

/-- `sort_by`, which is stable. -/
def sortMetas (metas : List AccountMeta) : List AccountMeta :=
  metas.insertionSort fun x y ↦ (compareMetas x y).isLE

/-- Add a meta to the unique ones. If its key is there already, promote that to writable if the
meta requires it. -/
def insertMeta : List AccountMeta → AccountMeta → List AccountMeta
  | [], m => [m]
  | x :: unique, m =>
    if x.pubkey = m.pubkey then { x with isWritable := x.isWritable || m.isWritable } :: unique
    else x :: insertMeta unique m

def uniqueMetas (metas : List AccountMeta) : List AccountMeta := metas.foldl insertMeta []

/-- Count and file one of the unique metas. -/
def pushMeta (keys : InstructionKeys) (m : AccountMeta) : Option InstructionKeys :=
  if m.isSigner then do
    let numReadonly ← if m.isWritable then some keys.numReadonlySignedAccounts
      else checkedAdd 8 keys.numReadonlySignedAccounts 1
    return { keys with
      signedKeys := keys.signedKeys ++ [m.pubkey]
      numReadonlySignedAccounts := numReadonly }
  else do
    let numReadonly ← if m.isWritable then some keys.numReadonlyUnsignedAccounts
      else checkedAdd 8 keys.numReadonlyUnsignedAccounts 1
    return { keys with
      unsignedKeys := keys.unsignedKeys ++ [m.pubkey]
      numReadonlyUnsignedAccounts := numReadonly }

variable (instructions : List Instruction)

/-- The program ids of all instructions. No duplicates and order is preserved. -/
def getProgramIds : List Pubkey :=
  (instructions.map Instruction.programId).eraseDups

variable (payer : Option Pubkey)

/-- All metas of a list of instructions in the order of `get_keys`: programs are read-only and do
not sign, and the payer comes first. -/
def orderedMetas : List AccountMeta :=
  let programs := (getProgramIds instructions).map fun programId ↦ ⟨programId, false, false⟩
  (payer.map fun payer ↦ ⟨payer, true, true⟩).toList ++
    sortMetas (instructions.flatMap Instruction.accounts ++ programs)

/-- The keys referenced by all instructions, with the ones needing signatures first. -/
def getKeys : Option InstructionKeys :=
  (uniqueMetas (orderedMetas instructions payer)).foldlM pushMeta ⟨[], [], 0, 0⟩

/-- The index of a key, cast to `u8`. -/
def position (keys : List Pubkey) (key : Pubkey) : Option ℕ :=
  (keys.findIdx? fun k ↦ decide (k = key)).map (· % 2 ^ 8)

def compileInstruction (ix : Instruction) (keys : List Pubkey) : Option CompiledInstruction := do
  let accounts ← ix.accounts.mapM fun accountMeta ↦ position keys accountMeta.pubkey
  return ⟨← position keys ix.programId, accounts, ix.data⟩

def compileInstructions (ixs : List Instruction) (keys : List Pubkey) :
    Option (List CompiledInstruction) :=
  ixs.mapM fun ix ↦ compileInstruction ix keys

/-- `Message::new_with_blockhash`. The number of signed keys is cast to `u8`. -/
def Message.newWithBlockhash (blockhash : Hash) : Option Message := do
  let keys ← getKeys instructions payer
  let accountKeys := keys.signedKeys ++ keys.unsignedKeys
  let instructions ← compileInstructions instructions accountKeys
  return ⟨⟨keys.signedKeys.length % 2 ^ 8, keys.numReadonlySignedAccounts,
    keys.numReadonlyUnsignedAccounts⟩, accountKeys, blockhash, instructions⟩

/-- `Message::new`. -/
def Message.new : Option Message :=
  Message.newWithBlockhash instructions payer default

/-! ### Legacy messages -/

namespace Message

variable (m : Message)

def isSigner (i : ℕ) : Bool := decide (i < m.header.numRequiredSignatures)

/-- Whether the account is called as a program; an index that is not a `u8` is not. -/
def isKeyCalledAsProgram (keyIndex : ℕ) : Bool :=
  decide (keyIndex < 2 ^ 8) && m.instructions.any fun ix ↦ ix.programIdIndex == keyIndex

def isUpgradeableLoaderPresent : Bool := m.accountKeys.contains bpfLoaderUpgradeableId

/-- Whether the position is in one of the two writable segments. The right side of a comparison is
not computed when the left side decides. -/
def isWritableIndex (i : ℕ) : Option Bool := do
  let h := m.header
  if i < (← checkedSub h.numRequiredSignatures h.numReadonlySignedAccounts) then return true
  else if i ≥ h.numRequiredSignatures then
    return decide (i < (← checkedSub m.accountKeys.length h.numReadonlyUnsignedAccounts))
  else return false

/-- Whether the account is writable: by position, and neither a sysvar, a builtin program nor a
program called while the upgradeable loader is absent. -/
def isWritable (i : ℕ) : Option Bool := do
  let demoteProgramId := m.isKeyCalledAsProgram i && !m.isUpgradeableLoaderPresent
  if ← m.isWritableIndex i then
    let key ← m.accountKeys[i]?
    return !(isSysvarId key || builtinProgramsKeys.contains key) && !demoteProgramId
  else return false

/-- Whether a key occurs again later in the list. -/
def hasDuplicateKeys : List Pubkey → Bool
  | [] => false
  | key :: keys => keys.contains key || hasDuplicateKeys keys

def hasDuplicates : Bool := hasDuplicateKeys m.accountKeys

end Message

/-! ### Versioned messages -/

/-- The addresses a message loads from on-chain lookup tables. -/
structure LoadedAddresses where
  writable : List Pubkey
  readonly : List Pubkey
  deriving DecidableEq

/-- A version 0 message with its loaded addresses; `accountKeys` are the static keys. -/
structure LoadedMessage where
  header : MessageHeader
  accountKeys : List Pubkey
  instructions : List CompiledInstruction
  loadedAddresses : LoadedAddresses
  deriving DecidableEq

namespace LoadedMessage

variable (m : LoadedMessage)

/-- All keys: the static ones, then the loaded writable and the loaded read-only ones. -/
def accountKeysIter : List Pubkey :=
  m.accountKeys ++ m.loadedAddresses.writable ++ m.loadedAddresses.readonly

/-- Whether a key was seen before in the list. -/
def anyRepeated (uniq : List Pubkey) : List Pubkey → Bool
  | [] => false
  | key :: keys => uniq.contains key || anyRepeated (key :: uniq) keys

def hasDuplicates : Bool := anyRepeated [] m.accountKeysIter

variable (keyIndex : ℕ)

/-- Whether the account at the index was requested to be writable. All subtractions saturate. -/
def isWritableIndex : Bool :=
  let numAccountKeys := m.accountKeys.length
  let numSignedAccounts := m.header.numRequiredSignatures
  if keyIndex ≥ numAccountKeys then
    decide (keyIndex - numAccountKeys < m.loadedAddresses.writable.length)
  else if keyIndex ≥ numSignedAccounts then
    decide (keyIndex - numSignedAccounts <
      numAccountKeys - numSignedAccounts - m.header.numReadonlyUnsignedAccounts)
  else decide (keyIndex < numSignedAccounts - m.header.numReadonlySignedAccounts)

def isKeyCalledAsProgram : Bool :=
  decide (keyIndex < 2 ^ 8) && m.instructions.any fun ix ↦ ix.programIdIndex == keyIndex

def isUpgradeableLoaderPresent : Bool :=
  m.accountKeysIter.contains bpfLoaderUpgradeableId

/-- Whether the account at the index was loaded as writable. -/
def isWritable : Bool :=
  if m.isWritableIndex keyIndex then
    match m.accountKeysIter[keyIndex]? with
    | some key =>
      let demoteProgramId := m.isKeyCalledAsProgram keyIndex && !m.isUpgradeableLoaderPresent
      !(isSysvarId key || builtinProgramsKeys.contains key || demoteProgramId)
    | none => false
  else false

end LoadedMessage

/-- The message of a transaction that has been sanitized. -/
inductive SanitizedMessage where
  | legacy (message : Message)
  | v0 (message : LoadedMessage)
  deriving DecidableEq

namespace SanitizedMessage

def hasDuplicates : SanitizedMessage → Bool
  | legacy m => m.hasDuplicates
  | v0 m => m.hasDuplicates

/-- `account_keys_iter`. -/
def accountKeys : SanitizedMessage → List Pubkey
  | legacy m => m.accountKeys
  | v0 m => m.accountKeysIter

def isWritable (m : SanitizedMessage) (i : ℕ) : Option Bool :=
  match m with
  | legacy m => m.isWritable i
  | v0 m => some (m.isWritable i)

def header : SanitizedMessage → MessageHeader
  | legacy m => m.header
  | v0 m => m.header

def isSigner (m : SanitizedMessage) (i : ℕ) : Bool :=
  decide (i < m.header.numRequiredSignatures)

end SanitizedMessage

end Renec
