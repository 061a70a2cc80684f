import Renec.Machine.Exec
import Renec.Stake.Rewards

/-!
# The stake program

The operations on stake accounts (`programs/stake/src/stake_state.rs`), on a map of all accounts.
Each is written in the order of the source, also where it changes one account before it checks
another: the operations take accounts by their keys, and the keys may be the same.
-/

namespace Renec

open Exec

/-- `Stake11111111111111111111111111111111111111`. -/
def stakeProgramId : Pubkey :=
  ⟨0x6a1d8179137542a983437bdfe2a7ab2557f535c8a78722b68a49dc000000000#256⟩

/-- `Vote111111111111111111111111111111111111111`. -/
def voteProgramId : Pubkey :=
  ⟨0x761481d357474bb7c4d7624ebd3bdb3d8355e73d11043fc0da3538000000000#256⟩

/-- `ACCOUNT_STORAGE_OVERHEAD`. -/
def accountStorageOverhead : ℕ := 128

structure StakeAccount where
  owner : Pubkey
  lamports : ℕ
  dataLen : ℕ
  state : Option StakeState
  deriving DecidableEq

structure VoteAccount where
  key : Pubkey
  owner : Pubkey
  state : Option VoteState
  deriving DecidableEq

/-- All accounts, by their keys. -/
abbrev StakeAccounts : Type := Pubkey → StakeAccount

namespace StakeAccounts

variable (accounts : StakeAccounts) (key : Pubkey)

def withState (state : StakeState) : StakeAccounts :=
  Function.update accounts key { accounts key with state := some state }

def withLamports (lamports : ℕ) : StakeAccounts :=
  Function.update accounts key { accounts key with lamports := lamports }

end StakeAccounts

/-- A method on the accounts. -/
abbrev StakeProgram (α : Type) : Type := Exec StakeAccounts InstructionError α

namespace StakeProgram

/-! ### Accounts -/

variable (key : Pubkey)

def getState : StakeProgram StakeState := do
  let accounts ← get
  okOr .invalidAccountData (accounts key).state

def setState (state : StakeState) : StakeProgram Unit := do
  let accounts ← get
  failIf (decide (state.size > (accounts key).dataLen)) .accountDataTooSmall
  modify (StakeAccounts.withState · key state)

def getLamports : StakeProgram ℕ := do
  let accounts ← get
  return (accounts key).lamports

section

variable (lamports : ℕ)

def setLamports : StakeProgram Unit :=
  modify (StakeAccounts.withLamports · key lamports)

def checkedAddLamports : StakeProgram Unit := do
  let sum ← okOr .arithmeticOverflow (checkedAdd 64 (← getLamports key) lamports)
  setLamports key sum

def checkedSubLamports : StakeProgram Unit := do
  let difference ← okOr .arithmeticOverflow (checkedSub (← getLamports key) lamports)
  setLamports key difference

/-- `checked_add`, whose overflow is an error of its own. -/
def checkedSum (a b : ℕ) : StakeProgram ℕ := okOr .insufficientFunds (checkedAdd 64 a b)

/-- A check that does not depend on the accounts. -/
def ensure {α : Type} (x : Outcome InstructionError α) : StakeProgram α := ofOutcome fun _ ↦ x

/-- A check with an error of the stake program. -/
def ensureStake {α : Type} : Outcome StakeError α → StakeProgram α
  | .ok a => pure a
  | .err e => throw e.into
  | .panic => fun _ ↦ none

/-- Deinitialize the state of an account that is about to be emptied. -/
def deinitializeIfAll : StakeProgram Unit := do
  if lamports = (← getLamports key) then setState key .uninitialized else pure ()

end

/-! ### Initialization and authority -/

variable (self : Pubkey)

/-- `initialize`; `rent` is the minimum balance for a data length. -/
def initializeStake (authorized : Authorized) (lockup : Lockup) (rent : ℕ → ℕ) :
    StakeProgram Unit := do
  let account := (← get) self
  failIf (account.dataLen != stakeStateSize) .invalidAccountData
  let state ← getState self
  failIf (state != .uninitialized) .invalidAccountData
  let rentExemptReserve := rent account.dataLen
  failIf (!decide (rentExemptReserve < account.lamports)) .insufficientFunds
  setState self (.initialized ⟨rentExemptReserve, authorized, lockup⟩)

/-- Change the meta data of an initialized account. -/
def changeMeta (change : Meta → Outcome InstructionError Meta) : StakeProgram Unit := do
  match ← getState self with
  | .stake data stake => do
    let data ← ensure (change data)
    setState self (.stake data stake)
  | .initialized data => do
    let data ← ensure (change data)
    setState self (.initialized data)
  | _ => throw .invalidAccountData

def authorize (signers : Finset Pubkey) (newAuthority : Pubkey) (stakeAuthorize : StakeAuthorize)
    (requireCustodianForLockedStakeAuthorize : Bool) (clock : Clock) (custodian : Option Pubkey) :
    StakeProgram Unit :=
  changeMeta self fun data ↦ do
    let args := if requireCustodianForLockedStakeAuthorize then
      some (data.lockup, clock, custodian) else none
    return { data with
      authorized := ← data.authorized.authorize signers newAuthority stakeAuthorize args }

/-- The signer is the key derived from a base key, a seed and an owner, if the base key signs.
`createWithSeed` is the derivation, which hashes the three. -/
def authorizeWithSeed (createWithSeed : Pubkey → String → Pubkey → Outcome InstructionError Pubkey)
    (self : Pubkey) (authorityBase : Option Pubkey) (authoritySeed : String)
    (authorityOwner newAuthority : Pubkey) (stakeAuthorize : StakeAuthorize)
    (requireCustodianForLockedStakeAuthorize : Bool) (clock : Clock) (custodian : Option Pubkey) :
    StakeProgram Unit := do
  let signers ← ensure (match authorityBase with
    | some base => do return {← createWithSeed base authoritySeed authorityOwner}
    | none => .ok ∅)
  authorize self signers newAuthority stakeAuthorize requireCustodianForLockedStakeAuthorize clock
    custodian

def setLockup (lockup : LockupArgs) (signers : Finset Pubkey) (clock : Option Clock) :
    StakeProgram Unit :=
  changeMeta self fun data ↦ data.setLockup lockup signers clock

/-! ### Delegation -/

variable (ops : FloatOps)

def newStake (stake : ℕ) (voterPubkey : Pubkey) (voteState : VoteState) (activationEpoch : Epoch)
    (warmupCooldownRate : F64) : Stake :=
  ⟨.new voterPubkey stake activationEpoch warmupCooldownRate, voteState.credits⟩

/-- Delegate a stake anew. An active one can only have its deactivation rescinded, in the epoch in
which that is scheduled to start and for the same voter. -/
def redelegate (stake : Stake) (stakeLamports : ℕ) (voterPubkey : Pubkey) (voteState : VoteState)
    (clock : Clock) (stakeHistory : StakeHistory) (warmupCooldownRate : F64)
    (canReverseDeactivation : Bool) : Outcome StakeError Stake := do
  let effective ← Outcome.ofOption
    (stake.delegation.effectiveStake ops clock.epoch (some stakeHistory))
  if effective ≠ 0 then
    if stake.delegation.voterPubkey = voterPubkey ∧
        clock.epoch = stake.delegation.deactivationEpoch ∧ canReverseDeactivation then
      return { stake with delegation := { stake.delegation with deactivationEpoch := u64Max } }
    else .err .tooSoonToRedelegate
  else
    return ⟨⟨voterPubkey, stakeLamports, clock.epoch, u64Max, warmupCooldownRate⟩,
      voteState.credits⟩

variable (self : Pubkey) (lamports : ℕ)

def delegate (voteAccount : VoteAccount) (clock : Clock) (stakeHistory : StakeHistory)
    (warmupCooldownRate : F64) (signers : Finset Pubkey) (canReverseDeactivation : Bool) :
    StakeProgram Unit := do
  failIf (voteAccount.owner != voteProgramId) .incorrectProgramId
  match ← getState self with
  | .initialized data => do
    ensure (data.authorized.check signers .staker)
    -- can't stake the rent
    let stakeLamports := (← getLamports self) - data.rentExemptReserve
    let voteState ← okOr .invalidAccountData voteAccount.state
    setState self (.stake data
      (newStake stakeLamports voteAccount.key voteState clock.epoch warmupCooldownRate))
  | .stake data stake => do
    ensure (data.authorized.check signers .staker)
    let stakeLamports := (← getLamports self) - data.rentExemptReserve
    let voteState ← okOr .invalidAccountData voteAccount.state
    let stake ← ensureStake (redelegate ops stake stakeLamports voteAccount.key voteState clock
      stakeHistory warmupCooldownRate canReverseDeactivation)
    setState self (.stake data stake)
  | _ => throw .invalidAccountData

def deactivate (clock : Clock) (signers : Finset Pubkey) : StakeProgram Unit := do
  match ← getState self with
  | .stake data stake => do
    ensure (data.authorized.check signers .staker)
    let stake ← ensureStake (stake.deactivate clock.epoch)
    setState self (.stake data stake)
  | _ => throw .invalidAccountData

/-! ### Split -/

/-- The reserve of the new account, from the per-byte rent of the old one. -/
def calculateSplitRentExemptReserve (sourceRentExemptReserve sourceDataLen splitDataLen : ℕ) :
    Option ℕ :=
  checkedMul 64 (sourceRentExemptReserve / (sourceDataLen + accountStorageOverhead))
    (splitDataLen + accountStorageOverhead)

/-- The checks of both kinds of split, and the reserve of the new account: enough lamports for its
rent and more than 0 stake in it, and more than 0 stake left unless all is taken. -/
def checkSplit (split : Pubkey) (data : Meta) : StakeProgram ℕ := do
  let accounts ← get
  let reserve ← ofOption (calculateSplitRentExemptReserve data.rentExemptReserve
    (accounts self).dataLen (accounts split).dataLen)
  failIf (decide (lamports ≤ reserve - (accounts split).lamports)) .insufficientFunds
  if lamports ≠ (accounts self).lamports then do
    let sum ← checkedSum lamports data.rentExemptReserve
    failIf (decide (sum ≥ (accounts self).lamports)) .insufficientFunds
    return reserve
  else return reserve

/-- What the delegation is reduced by, and the delegation of the new account. Of a full split the
reserve stays out of the stake; else the new account's reserve does, as far as it is not there. -/
def splitAmounts (lamports selfLamports splitLamports rentExemptReserve : ℕ)
    (splitRentExemptReserve : ℕ) : Option (ℕ × ℕ) :=
  if lamports = selfLamports then
    some (lamports - rentExemptReserve, lamports - rentExemptReserve)
  else do
    return (lamports, ← checkedSub lamports (splitRentExemptReserve - splitLamports))

/-- The part of a split that depends on the state of the source. -/
def splitState (split : Pubkey) (signers : Finset Pubkey) : StakeState → StakeProgram Unit
  | .stake data stake => do
    ensure (data.authorized.check signers .staker)
    let splitRentExemptReserve ← checkSplit self lamports split data
    let (remainingStakeDelta, splitStakeAmount) ← ofOption (splitAmounts lamports
      (← getLamports self) (← getLamports split) data.rentExemptReserve splitRentExemptReserve)
    let (stake, splitStake) ← ensureStake (stake.split remainingStakeDelta splitStakeAmount)
    setState self (.stake data stake)
    setState split (.stake { data with rentExemptReserve := splitRentExemptReserve } splitStake)
  | .initialized data => do
    ensure (data.authorized.check signers .staker)
    let splitRentExemptReserve ← checkSplit self lamports split data
    setState split (.initialized { data with rentExemptReserve := splitRentExemptReserve })
  | .uninitialized => failIf (decide (self ∉ signers)) .missingRequiredSignature
  | .rewardsPool => throw .invalidAccountData

def split (split : Pubkey) (signers : Finset Pubkey) : StakeProgram Unit := do
  let accounts ← get
  failIf ((accounts split).owner != stakeProgramId) .incorrectProgramId
  failIf ((accounts split).dataLen != stakeStateSize) .invalidAccountData
  let newState ← getState split
  failIf (newState != .uninitialized) .invalidAccountData
  failIf (decide (lamports > (accounts self).lamports)) .insufficientFunds
  let state ← getState self
  splitState self lamports split signers state
  deinitializeIfAll self lamports
  checkedAddLamports split lamports
  checkedSubLamports self lamports

/-! ### Merge -/

/-- How a stake account can take part in a merge. -/
inductive MergeKind where
  | inactive (data : Meta) (lamports : ℕ)
  | activationEpoch (data : Meta) (stake : Stake)
  | fullyActive (data : Meta) (stake : Stake)
  deriving DecidableEq

namespace MergeKind

def data : MergeKind → Meta
  | inactive data _ => data
  | activationEpoch data _ => data
  | fullyActive data _ => data

def activeStake : MergeKind → Option Stake
  | inactive _ _ => none
  | activationEpoch _ stake => some stake
  | fullyActive _ stake => some stake

/-- A stake must not be activating or deactivating with non-zero effective stake. -/
def getIfMergeable (key : Pubkey) (clock : Clock) (stakeHistory : StakeHistory) :
    StakeProgram MergeKind := do
  match ← getState key with
  | .stake data stake => do
    let status ← ofOption
      (stake.delegation.stakeActivatingAndDeactivating ops clock.epoch (some stakeHistory))
    if status.effective = 0 then
      if status.activating = 0 ∧ status.deactivating = 0 then
        return inactive data (← getLamports key)
      else return activationEpoch data stake
    else if status.activating = 0 ∧ status.deactivating = 0 then return fullyActive data stake
    else throw StakeError.mergeTransientStake.into
  | .initialized data => return inactive data (← getLamports key)
  | _ => throw .invalidAccountData

/-- Lockups may differ, when a clock is given, as long as both have expired. -/
def metasCanMerge (stake source : Meta) (clock : Option Clock) : Outcome StakeError Unit :=
  let expired := clock.any fun clock ↦
    !stake.lockup.isInForce clock none && !source.lockup.isInForce clock none
  let canMergeLockups := stake.lockup == source.lockup || expired
  Outcome.failIf (!(stake.authorized == source.authorized && canMergeLockups)) .mergeMismatch

def activeDelegationsCanMerge (stake source : Delegation) : Outcome StakeError Unit := do
  Outcome.failIf (stake.voterPubkey != source.voterPubkey) .mergeMismatch
  Outcome.failIf (!(ops.close stake.warmupCooldownRate source.warmupCooldownRate &&
    stake.deactivationEpoch == u64Max && source.deactivationEpoch == u64Max)) .mergeMismatch

variable (unmatchedCredits : Bool)

/-- Two active stakes; their credits observed must match unless they are averaged. -/
def activeStakesCanMerge (stake source : Stake) : Outcome StakeError Unit := do
  activeDelegationsCanMerge ops stake.delegation source.delegation
  Outcome.failIf (!unmatchedCredits && stake.creditsObserved != source.creditsObserved)
    .mergeMismatch

section

variable (stake : Stake) (absorbedLamports absorbedCreditsObserved : ℕ)

/-- The stake-weighted average of the credits observed, rounded up. -/
def stakeWeightedCreditsObserved : Option ℕ :=
  if stake.creditsObserved = absorbedCreditsObserved then some stake.creditsObserved
  else do
    let totalStake ← checkedAdd 64 stake.delegation.stake absorbedLamports
    let stakeWeightedCredits ← checkedMul 128 stake.creditsObserved stake.delegation.stake
    let absorbedWeightedCredits ← checkedMul 128 absorbedCreditsObserved absorbedLamports
    let sum ← checkedAdd 128 stakeWeightedCredits absorbedWeightedCredits
    let totalWeightedCredits ← checkedSub (← checkedAdd 128 sum totalStake) 1
    if totalStake = 0 then none
    else if totalWeightedCredits / totalStake < 2 ^ 64 then
      some (totalWeightedCredits / totalStake)
    else none

def mergeDelegationStakeAndCreditsObserved : StakeProgram Stake := do
  let creditsObserved ← okOr .arithmeticOverflow (if unmatchedCredits then
    stakeWeightedCreditsObserved stake absorbedLamports absorbedCreditsObserved
    else some stake.creditsObserved)
  let sum ← checkedSum stake.delegation.stake absorbedLamports
  return ⟨{ stake.delegation with stake := sum }, creditsObserved⟩

end

/-- The state of the destination after a merge, if it changes. -/
def mergedState : MergeKind → MergeKind →
    StakeProgram (Option StakeState)
  | inactive _ _, inactive _ _ => return none
  | inactive _ _, activationEpoch _ _ => return none
  | activationEpoch data stake, inactive _ sourceLamports => do
    let sum ← checkedSum stake.delegation.stake sourceLamports
    return some (.stake data { stake with delegation := { stake.delegation with stake := sum } })
  | activationEpoch data stake, activationEpoch sourceData sourceStake => do
    let sourceLamports ← checkedSum sourceData.rentExemptReserve sourceStake.delegation.stake
    let stake ← mergeDelegationStakeAndCreditsObserved unmatchedCredits stake sourceLamports
      sourceStake.creditsObserved
    return some (.stake data stake)
  | fullyActive data stake, fullyActive _ sourceStake => do
    -- the source's reserve is not staked, against magic activation
    let stake ← mergeDelegationStakeAndCreditsObserved unmatchedCredits stake
      sourceStake.delegation.stake sourceStake.creditsObserved
    return some (.stake data stake)
  | _, _ => throw StakeError.mergeMismatch.into

/-- `MergeKind::merge`. `unmatchedCredits` is the feature
`stake_merge_with_unmatched_credits_observed`. -/
def merge (kind source : MergeKind) (clock : Option Clock) : StakeProgram (Option StakeState) := do
  ensureStake (metasCanMerge kind.data source.data clock)
  ensureStake (match kind.activeStake, source.activeStake with
    | some stake, some source => activeStakesCanMerge ops unmatchedCredits stake source
    | _, _ => .ok ())
  mergedState unmatchedCredits kind source

end MergeKind

def setMergedState : Option StakeState → StakeProgram Unit
  | some state => setState self state
  | none => pure ()

def merge (self source : Pubkey) (clock : Clock) (stakeHistory : StakeHistory)
    (signers : Finset Pubkey) (canMergeExpiredLockups unmatchedCredits : Bool) :
    StakeProgram Unit := do
  let accounts ← get
  failIf ((accounts source).owner != stakeProgramId) .incorrectProgramId
  -- close the self-reference loophole
  failIf (source == self) .invalidArgument
  let kind ← MergeKind.getIfMergeable ops self clock stakeHistory
  ensure (kind.data.authorized.check signers .staker)
  let sourceKind ← MergeKind.getIfMergeable ops source clock stakeHistory
  let merged ← MergeKind.merge ops unmatchedCredits kind sourceKind
    (if canMergeExpiredLockups then some clock else none)
  setMergedState self merged
  -- drain the source
  setState source .uninitialized
  let lamports ← getLamports source
  checkedSubLamports source lamports
  checkedAddLamports self lamports

/-! ### Withdrawal -/

/-- Accounts must have a balance over their reserve, to be delegated. -/
def initializedReserve (preventWithdrawToZero : Bool) (data : Meta) : StakeProgram ℕ :=
  if preventWithdrawToZero then checkedSum data.rentExemptReserve 1
  else pure data.rentExemptReserve

/-- What a withdrawal must leave: the lockup, the lamports to be kept, and whether stake is active.
A stake that is not deactivated counts in full, because more of it may become effective. -/
def withdrawTerms (clock : Clock) (stakeHistory : StakeHistory) (signers : Finset Pubkey)
    (preventWithdrawToZero : Bool) : StakeState → StakeProgram (Lockup × ℕ × Bool)
  | .stake data stake => do
    ensure (data.authorized.check signers .withdrawer)
    let staked ← ofOption (if clock.epoch ≥ stake.delegation.deactivationEpoch then
      stake.delegation.effectiveStake ops clock.epoch (some stakeHistory)
      else some stake.delegation.stake)
    let stakedAndReserve ← checkedSum staked data.rentExemptReserve
    return (data.lockup, stakedAndReserve, staked != 0)
  | .initialized data => do
    ensure (data.authorized.check signers .withdrawer)
    let reserve ← initializedReserve preventWithdrawToZero data
    return (data.lockup, reserve, false)
  | .uninitialized => do
    failIf (decide (self ∉ signers)) .missingRequiredSignature
    return (default, 0, false)
  | .rewardsPool => throw .invalidAccountData

/-- `withdrawAuthority` and `custodian` are the keys of the accounts given, if they sign. -/
def withdraw (recipient : Pubkey) (clock : Clock) (stakeHistory : StakeHistory)
    (withdrawAuthority custodian : Option Pubkey) (preventWithdrawToZero : Bool) :
    StakeProgram Unit := do
  let withdrawAuthority ← okOr .missingRequiredSignature withdrawAuthority
  let state ← getState self
  let (lockup, reserve, isStaked) ← withdrawTerms ops self clock stakeHistory {withdrawAuthority}
    preventWithdrawToZero state
  failIf (lockup.isInForce clock custodian) StakeError.lockupInForce.into
  let lamportsAndReserve ← checkedSum lamports reserve
  let balance ← getLamports self
  -- if the stake is active, the account must not go away
  failIf (isStaked && decide (lamportsAndReserve > balance)) .insufficientFunds
  -- not a full withdrawal; that the stake is not active here is asserted by the source
  failIf (lamports != balance && decide (lamportsAndReserve > balance)) .insufficientFunds
  deinitializeIfAll self lamports
  checkedSubLamports self lamports
  checkedAddLamports recipient lamports

/-! ### Rewards -/

/-- Pay out a stake, as the bank does at the end of an epoch. -/
def redeemRewards (rewardedEpoch : Epoch) (self : Pubkey) (voteState : VoteState)
    (pointValue : PointValue) (stakeHistory : Option StakeHistory) : StakeProgram (ℕ × ℕ) := do
  match ← getState self with
  | .stake data stake => do
    match ← ofOption
      (stake.redeemStakeRewards ops rewardedEpoch pointValue voteState stakeHistory) with
    | some (stake, stakersReward, votersReward) => do
      checkedAddLamports self stakersReward
      setState self (.stake data stake)
      return (stakersReward, votersReward)
    | none => throw StakeError.noCreditsToRedeem.into
  | _ => throw .invalidAccountData

end StakeProgram

/-! ### Operations

What happens to stake accounts: the instructions of the program, the payout of rewards by the bank,
and transfers of lamports to an account by other programs. -/

inductive StakeOp where
  | initializeStake (self : Pubkey) (authorized : Authorized) (lockup : Lockup) (rent : ℕ → ℕ)
  | authorize (self : Pubkey) (signers : Finset Pubkey) (newAuthority : Pubkey)
      (stakeAuthorize : StakeAuthorize) (requireCustodianForLockedStakeAuthorize : Bool)
      (custodian : Option Pubkey)
  | setLockup (self : Pubkey) (lockup : LockupArgs) (signers : Finset Pubkey) (useClock : Bool)
  | delegate (self : Pubkey) (voteAccount : VoteAccount) (stakeHistory : StakeHistory)
      (warmupCooldownRate : F64) (signers : Finset Pubkey) (canReverseDeactivation : Bool)
  | deactivate (self : Pubkey) (signers : Finset Pubkey)
  | split (self : Pubkey) (lamports : ℕ) (split : Pubkey) (signers : Finset Pubkey)
  | merge (self source : Pubkey) (stakeHistory : StakeHistory) (signers : Finset Pubkey)
      (canMergeExpiredLockups unmatchedCredits : Bool)
  | withdraw (self : Pubkey) (lamports : ℕ) (recipient : Pubkey) (stakeHistory : StakeHistory)
      (withdrawAuthority custodian : Option Pubkey) (preventWithdrawToZero : Bool)
  | redeemRewards (rewardedEpoch : Epoch) (self : Pubkey) (voteState : VoteState)
      (pointValue : PointValue) (stakeHistory : Option StakeHistory)
  | deposit (self : Pubkey) (lamports : ℕ)

namespace StakeOp

open StakeProgram

/-- `process_instruction` works on accounts of the stake program only. -/
def processInstruction (self : Pubkey) (instruction : StakeProgram Unit) : StakeProgram Unit := do
  let accounts ← get
  failIf ((accounts self).owner != stakeProgramId) .invalidAccountOwner
  instruction

def exec (ops : FloatOps) (clock : Clock) : StakeOp → StakeProgram Unit
  | initializeStake self authorized lockup rent =>
    processInstruction self (StakeProgram.initializeStake self authorized lockup rent)
  | authorize self signers newAuthority stakeAuthorize requireCustodian custodian =>
    processInstruction self (StakeProgram.authorize self signers newAuthority stakeAuthorize
      requireCustodian clock custodian)
  | setLockup self lockup signers useClock =>
    processInstruction self (StakeProgram.setLockup self lockup signers
      (if useClock then some clock else none))
  | delegate self voteAccount stakeHistory warmupCooldownRate signers canReverseDeactivation =>
    processInstruction self (StakeProgram.delegate ops self voteAccount clock stakeHistory
      warmupCooldownRate signers canReverseDeactivation)
  | deactivate self signers => processInstruction self (StakeProgram.deactivate self clock signers)
  | split self lamports splitKey signers =>
    processInstruction self (StakeProgram.split self lamports splitKey signers)
  | merge self source stakeHistory signers canMergeExpiredLockups unmatchedCredits =>
    processInstruction self (StakeProgram.merge ops self source clock stakeHistory signers
      canMergeExpiredLockups unmatchedCredits)
  | withdraw self lamports recipient stakeHistory withdrawAuthority custodian prevent =>
    processInstruction self (StakeProgram.withdraw ops self lamports recipient clock stakeHistory
      withdrawAuthority custodian prevent)
  | redeemRewards rewardedEpoch self voteState pointValue stakeHistory => do
    let _ ← StakeProgram.redeemRewards ops rewardedEpoch self voteState pointValue stakeHistory
  | deposit self lamports => checkedAddLamports self lamports

end StakeOp

end Renec
