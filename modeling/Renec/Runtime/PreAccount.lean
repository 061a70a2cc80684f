import Renec.Sdk.Account
import Renec.Sdk.Message

/-!
# Reference copies of accounts

While a top-level instruction runs, the runtime keeps a copy of each of its accounts
(`program-runtime/src/pre_account.rs`). `PreAccount.verify` compares an account with its copy and
refuses what the executing program was not allowed to do;
-/

namespace Renec

/-- `MAX_PERMITTED_DATA_LENGTH`. -/
def maxPermittedDataLength : ℕ := 10 * 1024 * 1024

/-- The state of an account before an instruction, to verify the integrity of the account after
it. -/
structure PreAccount where
  key : Pubkey
  account : Account
  changed : Bool
  deriving DecidableEq

namespace PreAccount

open Outcome

def new (key : Pubkey) (account : Account) : PreAccount := ⟨key, account, false⟩

/-- The size of the data. Its owner can change it, up to a maximum; before reallocation was
supported, only the system program could. -/
def verifyDataLen (pre post : Account) (programId : Pubkey) (doSupportRealloc : Bool) :
    Outcome InstructionError Unit :=
  let dataLenChanged := pre.data.length != post.data.length
  if doSupportRealloc then do
    failIf (decide (post.data.length > maxPermittedDataLength)) .invalidRealloc
    failIf (dataLenChanged && programId != pre.owner) .accountDataSizeChanged
  else
    failIf (dataLenChanged && (programId != systemProgramId || pre.owner != systemProgramId))
      .accountDataSizeChanged

/-- Compare an account with its reference copy. `isExempt` is the rent rule: whether a balance
exempts data of a length from rent. -/
def verify (self : PreAccount) (programId : Pubkey) (isWritable : Bool) (isExempt : ℕ → ℕ → Bool)
    (post : Account) (doSupportRealloc : Bool) : Outcome InstructionError Unit := do
  let pre := self.account
  -- only the owner of a writable account that is not executable, and with zeroed data
  failIf (pre.owner != post.owner && (!isWritable || pre.executable || programId != pre.owner ||
    !post.data.all (· == 0))) .modifiedProgramId
  failIf (programId != pre.owner && decide (pre.lamports > post.lamports))
    .externalAccountLamportSpend
  failIf (pre.lamports != post.lamports && !isWritable) .readonlyLamportChange
  failIf (pre.lamports != post.lamports && pre.executable) .executableLamportChange
  verifyDataLen pre post programId doSupportRealloc
  failIf (!(programId == pre.owner && isWritable && !pre.executable) && pre.data != post.data)
    (if pre.executable then .executableDataModified
      else if isWritable then .externalAccountDataModified else .readonlyDataModified)
  failIf (pre.executable != post.executable && !isExempt post.lamports post.data.length)
    .executableAccountNotRentExempt
  -- one-way, and the owner meant is the one after the instruction
  failIf (pre.executable != post.executable &&
    (!isWritable || pre.executable || programId != post.owner)) .executableModified
  failIf (pre.rentEpoch != post.rentEpoch) .rentEpochModified

/-- Take over an account, except for its rent epoch. -/
def update (self : PreAccount) (account : Account) : PreAccount :=
  { self with account := { account with rentEpoch := self.account.rentEpoch }, changed := true }

end PreAccount

/-! ### The accounts data meter -/

/-- Saturation to the range of `i64`. -/
def saturateI64 (n : ℤ) : ℤ := max (-2 ^ 63) (min (2 ^ 63 - 1) n)

structure AccountsDataMeter where
  maximum : ℕ
  initial : ℕ
  /-- The change since `initial`, an `i64`. -/
  delta : ℤ
  deriving DecidableEq

namespace AccountsDataMeter

variable (m : AccountsDataMeter)

/-- The current amount of space used, saturating in `u64`. -/
def current : ℕ := min (m.initial + m.delta).toNat u64Max

def remaining : ℕ := m.maximum - m.current

/-- Unconditionally consume space. -/
def consumeUnchecked (amount : ℤ) : AccountsDataMeter :=
  { m with delta := saturateI64 (m.delta + amount) }

/-- Consume space, unless less remains; the remaining space is cast to `i64`. -/
def consume (amount : ℤ) : Outcome InstructionError AccountsDataMeter := do
  let remaining : ℤ := if m.remaining < 2 ^ 63 then m.remaining else m.remaining - 2 ^ 64
  Outcome.failIf (decide (amount > remaining)) .maxAccountsDataSizeExceeded
  return m.consumeUnchecked amount

end AccountsDataMeter

end Renec
