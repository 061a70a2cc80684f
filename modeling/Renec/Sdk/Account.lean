import Renec.Sdk.Errors
import Renec.Sdk.Types

/-!
# Accounts

The account record (`sdk/src/account.rs`), and the state the upgradeable BPF loader keeps in the
data of its accounts (`sdk/program/src/bpf_loader_upgradeable.rs`), with its decoder: `bincode`
writes the variant as a little-endian `u32`, an integer in little-endian bytes, an address as its
32 bytes and an option as a byte 0 or 1 before the value, and does not mind bytes after the end.
-/

namespace Renec

/-- `NativeLoader1111111111111111111111111111111`. -/
def nativeLoaderId : Pubkey :=
  ⟨0x58784bf148ba4282fb012574888a9f153a07dadf765c0455c9a970380000000#256⟩

/-- `Sysvar1111111111111111111111111111111111111`. -/
def sysvarProgramId : Pubkey :=
  ⟨0x6a7d5171875f729c73d93408f216120067ed88c76e08c287fc1946000000000#256⟩

/-- `AccountSharedData`. -/
structure Account where
  lamports : ℕ
  data : List UInt8
  /-- The program that owns the account. -/
  owner : Pubkey
  /-- The data holds a loaded program (and is now read-only). -/
  executable : Bool
  rentEpoch : Epoch
  deriving DecidableEq

/-! ### Accounts of the upgradeable loader -/

inductive UpgradeableLoaderState where
  | uninitialized
  | buffer (authorityAddress : Option Pubkey)
  | program (programdataAddress : Pubkey)
  | programData (slot : Slot) (upgradeAuthorityAddress : Option Pubkey)
  deriving DecidableEq

namespace Bincode

/-- Take `n` bytes. -/
def take (n : ℕ) (bytes : List UInt8) : Option (List UInt8 × List UInt8) :=
  if n ≤ bytes.length then some (bytes.splitAt n) else none

def littleEndian (bytes : List UInt8) : ℕ := bytes.foldr (fun b n ↦ b.toNat + 256 * n) 0

variable (n : ℕ) (bytes : List UInt8)

/-- An unsigned integer of `n` bytes. -/
def uint : Option (ℕ × List UInt8) :=
  (take n bytes).map fun p ↦ (littleEndian p.1, p.2)

def pubkey : Option (Pubkey × List UInt8) :=
  (take 32 bytes).map fun p ↦ (⟨BitVec.ofNat 256 (littleEndian p.1.reverse)⟩, p.2)

def optionPubkey : Option (Option Pubkey × List UInt8) := do
  match ← uint 1 bytes with
  | (0, rest) => return (none, rest)
  | (1, rest) => return (← pubkey rest).map some id
  | _ => none

end Bincode

/-- `account.state()` for an account of the upgradeable loader. -/
def UpgradeableLoaderState.decode (data : List UInt8) : Option UpgradeableLoaderState := do
  match ← Bincode.uint 4 data with
  | (0, _) => return uninitialized
  | (1, rest) => return buffer (← Bincode.optionPubkey rest).1
  | (2, rest) => return program (← Bincode.pubkey rest).1
  | (3, rest) =>
    let (slot, rest) ← Bincode.uint 8 rest
    return programData slot (← Bincode.optionPubkey rest).1
  | _ => none

end Renec
