import Renec.Collections.Slices
import Renec.Runtime.InvokeContext
import Renec.Sdk.Nonce

/-!
# The input of a program

The BPF loader passes the accounts of an instruction to a program in one buffer, and reads the
changes of the program back from it (`programs/bpf_loader/src/serialization.rs`). There are two
formats, the one of the deprecated loader and an aligned one with room for the data of each account
to grow.

`AlignedMemory` is a buffer of a fixed capacity at an aligned address.
-/

namespace Renec

/-- The accounts of the transaction, which keyed accounts refer to by their index. -/
abbrev Cells := ℕ → Account

/-- Change an account. -/
def Cells.modify (cells : Cells) (index : ℕ) (f : Account → Account) : Cells :=
  Function.update cells index (f (cells index))

/-- Look for a duplicate account and return its position if found. -/
def isDup (accounts : List KeyedAccount) (keyedAccount : KeyedAccount) : Bool × ℕ :=
  match accounts.findIdx? fun account ↦ account.key == keyedAccount.key with
  | some i => (true, i)
  | none => (false, 0)

/-- Each account with those before it, `keyed_accounts[..i]`. -/
def withEarlier {α : Type} (earlier : List α) : List α → List (List α × α)
  | [] => []
  | a :: l => (earlier, a) :: withEarlier (earlier ++ [a]) l

/-! ### Writing -/

/-- A buffer that is written from its start. -/
structure AlignedMemory where
  maxLen : ℕ
  mem : List UInt8
  deriving DecidableEq

namespace AlignedMemory

def new (maxLen : ℕ) : AlignedMemory := ⟨maxLen, []⟩

variable (v : AlignedMemory)

def writeAll (bytes : List UInt8) : Outcome InstructionError AlignedMemory :=
  if v.mem.length + bytes.length ≤ v.maxLen then .ok { v with mem := v.mem ++ bytes }
  else .err .invalidArgument

def resize (num : ℕ) (value : UInt8) : Outcome InstructionError AlignedMemory :=
  v.writeAll (List.replicate num value)

end AlignedMemory

variable (programId : Pubkey) (keyedAccounts : List KeyedAccount) (instructionData : List UInt8)
  (cells : Cells)

variable (buffer : List UInt8) (start : ℕ)

variable (accountLengths : List ℕ)

variable (doSupportRealloc : Bool)

end Renec
