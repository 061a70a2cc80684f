import Renec.Machine.Outcome
import Renec.Sdk.Errors
import Renec.Sdk.Types

/-!
# Stake state

The state of a stake account (`sdk/program/src/stake/state.rs`) and the warm-up and cool-down of a
delegation.

Floating-point numbers are kept as their bits, and the two computations made with them are
parameters (`FloatOps`).
-/

namespace Renec

/-! ### Errors and sysvars -/

/-- Reasons the stake might have had an error. -/
inductive StakeError where
  | noCreditsToRedeem
  | lockupInForce
  | alreadyDeactivated
  | tooSoonToRedelegate
  | insufficientStake
  | mergeTransientStake
  | mergeMismatch
  | custodianMissing
  | custodianSignatureMissing
  deriving DecidableEq

/-- The error of an instruction: the number of the variant. -/
def StakeError.into : StakeError → InstructionError
  | noCreditsToRedeem => .custom 0
  | lockupInForce => .custom 1
  | alreadyDeactivated => .custom 2
  | tooSoonToRedelegate => .custom 3
  | insufficientStake => .custom 4
  | mergeTransientStake => .custom 5
  | mergeMismatch => .custom 6
  | custodianMissing => .custom 7
  | custodianSignatureMissing => .custom 8

/-- The fields of the clock sysvar that stakes depend on. -/
structure Clock where
  epoch : Epoch
  unixTimestamp : UnixTimestamp
  deriving DecidableEq

/-- The cluster's stake at an epoch, or the status of one delegation. -/
structure StakeHistoryEntry where
  effective : ℕ
  /-- The sum of the portions of stakes that are not fully warmed up. -/
  activating : ℕ
  /-- What is requested to be cooled down, but not fully deactivated yet. -/
  deactivating : ℕ
  deriving DecidableEq

namespace StakeHistoryEntry

def withEffective (effective : ℕ) : StakeHistoryEntry := ⟨effective, 0, 0⟩

def withEffectiveAndActivating (effective activating : ℕ) : StakeHistoryEntry :=
  ⟨effective, activating, 0⟩

def withDeactivating (deactivating : ℕ) : StakeHistoryEntry := ⟨deactivating, 0, deactivating⟩

instance : Inhabited StakeHistoryEntry := ⟨⟨0, 0, 0⟩⟩

end StakeHistoryEntry

abbrev StakeActivationStatus := StakeHistoryEntry

/-- The history of the cluster's stake, latest epoch first. -/
structure StakeHistory where
  entries : List (Epoch × StakeHistoryEntry)
  sorted : entries.Pairwise fun a b ↦ b.1 < a.1
  deriving DecidableEq

/-- The entry of an epoch. The source searches by bisection, which in a sorted list finds the same
entry. -/
def StakeHistory.get (history : StakeHistory) (epoch : Epoch) : Option StakeHistoryEntry :=
  history.entries.lookup epoch

/-! ### Floating point -/

/-- An `f64`, as its bits. -/
abbrev F64 := BitVec 64

/-- The floating-point computations made with stakes. -/
structure FloatOps where
  /-- `((stake / cluster) * (effective * rate)) as u64`: the portion of the newly (not) effective
  stake of the cluster that a stake is entitled to. -/
  portion (stake cluster effective : ℕ) (rate : F64) : ℕ
  /-- `(a - b).abs() < f64::EPSILON`. -/
  close (a b : F64) : Bool

/-! ### Authority and lockup -/

inductive StakeAuthorize where
  | staker
  | withdrawer
  deriving DecidableEq

structure Lockup where
  /-- The time at which the stake will allow withdrawal, unless the custodian signs. -/
  unixTimestamp : UnixTimestamp
  /-- The epoch at which the stake will allow withdrawal, unless the custodian signs. -/
  epoch : Epoch
  custodian : Pubkey
  deriving DecidableEq

instance : Inhabited Lockup := ⟨⟨0, 0, default⟩⟩

def Lockup.isInForce (lockup : Lockup) (clock : Clock) (custodian : Option Pubkey) : Bool :=
  if custodian = some lockup.custodian then false
  else decide (lockup.unixTimestamp > clock.unixTimestamp) || decide (lockup.epoch > clock.epoch)

structure Authorized where
  staker : Pubkey
  withdrawer : Pubkey
  deriving DecidableEq

namespace Authorized

open Outcome

variable (authorized : Authorized) (signers : Finset Pubkey)

def check : StakeAuthorize → Outcome InstructionError Unit
  | .staker => failIf (decide (authorized.staker ∉ signers)) .missingRequiredSignature
  | .withdrawer => failIf (decide (authorized.withdrawer ∉ signers)) .missingRequiredSignature

/-- While a lockup is in force, the custodian signs for a new withdrawer too. -/
def checkCustodian (lockup : Lockup) (clock : Clock) (custodian : Option Pubkey) :
    Outcome InstructionError Unit :=
  if lockup.isInForce clock none then
    match custodian with
    | none => err StakeError.custodianMissing.into
    | some custodian => do
      failIf (decide (custodian ∉ signers)) StakeError.custodianSignatureMissing.into
      failIf (lockup.isInForce clock (some custodian)) StakeError.lockupInForce.into
  else ok ()

def authorize (newAuthorized : Pubkey) (stakeAuthorize : StakeAuthorize)
    (lockupCustodianArgs : Option (Lockup × Clock × Option Pubkey)) :
    Outcome InstructionError Authorized :=
  match stakeAuthorize with
  | .staker => do
    -- either the staker or the withdrawer may change the staker key
    failIf (decide (authorized.staker ∉ signers) && decide (authorized.withdrawer ∉ signers))
      .missingRequiredSignature
    return { authorized with staker := newAuthorized }
  | .withdrawer => do
    match lockupCustodianArgs with
    | some (lockup, clock, custodian) => checkCustodian signers lockup clock custodian
    | none => ok ()
    authorized.check signers .withdrawer
    return { authorized with withdrawer := newAuthorized }

end Authorized

/-- The new values for a lockup. -/
structure LockupArgs where
  unixTimestamp : Option UnixTimestamp
  epoch : Option Epoch
  custodian : Option Pubkey
  deriving DecidableEq

structure Meta where
  rentExemptReserve : ℕ
  authorized : Authorized
  lockup : Lockup
  deriving DecidableEq

/-- With a clock, the custodian can update a lockup in force, and the withdrawer can set a new one;
without, the custodian at any time. -/
def Meta.setLockup (data : Meta) (lockup : LockupArgs) (signers : Finset Pubkey)
    (clock : Option Clock) : Outcome InstructionError Meta := do
  let authority := match clock with
    | none => data.lockup.custodian
    | some clock =>
      if data.lockup.isInForce clock none then data.lockup.custodian
      else data.authorized.withdrawer
  Outcome.failIf (decide (authority ∉ signers)) .missingRequiredSignature
  return { data with
    lockup := ⟨lockup.unixTimestamp.getD data.lockup.unixTimestamp,
      lockup.epoch.getD data.lockup.epoch, lockup.custodian.getD data.lockup.custodian⟩ }

/-! ### Delegation -/

structure Delegation where
  /-- To whom the stake is delegated. -/
  voterPubkey : Pubkey
  /-- The activated stake amount, set when the stake is delegated. -/
  stake : ℕ
  /-- The epoch at which this stake was activated, `u64::MAX` for a bootstrap stake. -/
  activationEpoch : Epoch
  /-- The epoch at which this stake was deactivated, `u64::MAX` if it was not. -/
  deactivationEpoch : Epoch
  /-- How much stake can become effective in an epoch, as a fraction of the effective stake. -/
  warmupCooldownRate : F64
  deriving DecidableEq

namespace Delegation

def new (voterPubkey : Pubkey) (stake : ℕ) (activationEpoch : Epoch) (warmupCooldownRate : F64) :
    Delegation :=
  ⟨voterPubkey, stake, activationEpoch, u64Max, warmupCooldownRate⟩

variable (ops : FloatOps) (d : Delegation)

def isBootstrap : Bool := d.activationEpoch == u64Max

/-- The loop from the activation epoch to the target epoch, summing up what becomes effective. -/
def warmup (history : StakeHistory) (targetEpoch prevEpoch : Epoch)
    (prevClusterStake : StakeHistoryEntry) (currentEffectiveStake : ℕ) : Option ℕ := do
  let currentEpoch := prevEpoch + 1
  -- without activating stake in the cluster, this one should be fully effective
  if prevClusterStake.activating = 0 then return currentEffectiveStake
  else
    let remainingActivatingStake := d.stake - currentEffectiveStake
    let newlyEffectiveStake := max 1 (ops.portion remainingActivatingStake
      prevClusterStake.activating prevClusterStake.effective d.warmupCooldownRate)
    let effective ← checkedAdd 64 currentEffectiveStake newlyEffectiveStake
    if effective ≥ d.stake then return d.stake
    else if currentEpoch ≥ targetEpoch ∨ currentEpoch ≥ d.deactivationEpoch then return effective
    else
      match history.get currentEpoch with
      | some currentClusterStake =>
        warmup history targetEpoch currentEpoch currentClusterStake effective
      | none => return effective
  termination_by targetEpoch - prevEpoch
  decreasing_by lia

def stakeAndActivating (targetEpoch : Epoch) (history : Option StakeHistory) : Option (ℕ × ℕ) :=
  if d.isBootstrap then some (d.stake, 0)
  else if d.activationEpoch = d.deactivationEpoch then some (0, 0)
  else if targetEpoch = d.activationEpoch then some (0, d.stake)
  else if targetEpoch < d.activationEpoch then some (0, 0)
  else
    match history.bind fun history ↦
      (history.get d.activationEpoch).map fun entry ↦ (history, entry) with
    | some (history, entry) => do
      let effective ← d.warmup ops history targetEpoch d.activationEpoch entry 0
      return (effective, ← checkedSub d.stake effective)
    -- no history or dropped out of history, so assume fully effective
    | none => some (d.stake, 0)

/-- The loop from the deactivation epoch to the target epoch. -/
def cooldown (history : StakeHistory) (targetEpoch prevEpoch : Epoch)
    (prevClusterStake : StakeHistoryEntry) (currentEffectiveStake : ℕ) : ℕ :=
  let currentEpoch := prevEpoch + 1
  -- without deactivating stake in the cluster, this one should be fully undelegated
  if prevClusterStake.deactivating = 0 then currentEffectiveStake
  else
    let newlyNotEffectiveStake := max 1 (ops.portion currentEffectiveStake
      prevClusterStake.deactivating prevClusterStake.effective d.warmupCooldownRate)
    let effective := currentEffectiveStake - newlyNotEffectiveStake
    if effective = 0 then 0
    else if currentEpoch ≥ targetEpoch then effective
    else
      match history.get currentEpoch with
      | some currentClusterStake =>
        cooldown history targetEpoch currentEpoch currentClusterStake effective
      | none => effective
  termination_by targetEpoch - prevEpoch
  decreasing_by lia

def stakeActivatingAndDeactivating (targetEpoch : Epoch) (history : Option StakeHistory) :
    Option StakeActivationStatus := do
  let (effectiveStake, activatingStake) ← d.stakeAndActivating ops targetEpoch history
  if targetEpoch < d.deactivationEpoch then
    return if activatingStake = 0 then .withEffective effectiveStake
      else .withEffectiveAndActivating effectiveStake activatingStake
  else if targetEpoch = d.deactivationEpoch then
    -- can only deactivate what's activated
    return .withDeactivating effectiveStake
  else
    match history.bind fun history ↦
      (history.get d.deactivationEpoch).map fun entry ↦ (history, entry) with
    | some (history, entry) =>
      return .withDeactivating
        (d.cooldown ops history targetEpoch d.deactivationEpoch entry effectiveStake)
    -- no history or dropped out of history, so assume fully deactivated
    | none => return default

def effectiveStake (epoch : Epoch) (history : Option StakeHistory) : Option ℕ :=
  (d.stakeActivatingAndDeactivating ops epoch history).map StakeHistoryEntry.effective

end Delegation

/-! ### Stake -/

structure Stake where
  delegation : Delegation
  /-- The credits of the vote account when the stake was delegated or redeemed. -/
  creditsObserved : ℕ
  deriving DecidableEq

namespace Stake

/-- Take `remainingStakeDelta` off a stake, and make a new one of `splitStakeAmount`. -/
def split (s : Stake) (remainingStakeDelta splitStakeAmount : ℕ) :
    Outcome StakeError (Stake × Stake) := do
  Outcome.failIf (decide (remainingStakeDelta > s.delegation.stake)) .insufficientStake
  let rest := { s with
    delegation := { s.delegation with stake := s.delegation.stake - remainingStakeDelta } }
  return (rest, { s with delegation := { s.delegation with stake := splitStakeAmount } })

def deactivate (s : Stake) (epoch : Epoch) : Outcome StakeError Stake :=
  if s.delegation.deactivationEpoch ≠ u64Max then .err .alreadyDeactivated
  else .ok { s with delegation := { s.delegation with deactivationEpoch := epoch } }

end Stake

inductive StakeState where
  | uninitialized
  | initialized (data : Meta)
  | stake (data : Meta) (stake : Stake)
  | rewardsPool
  deriving DecidableEq

def StakeState.size : StakeState → ℕ
  | uninitialized => 4
  | initialized _ => 124
  | stake _ _ => 196
  | rewardsPool => 4

/-- `std::mem::size_of::<StakeState>()`. -/
def stakeStateSize : ℕ := 200

end Renec
