import Renec.Stake.Effects

/-!
# Solvency of stake accounts

Whether the lamports of an account cover the stake it delegates. The invariant `Backed` says what an
account has to keep in each state: the rent-exempt reserve, and the whole delegated stake as long as
the delegation is not deactivated, since it can become effective in full. Every operation keeps it
but two. A withdrawal from a deactivated account in warm-up leaves only what is effective, and a
delegation in the same epoch then rescinds the deactivation of the whole stake
(`rescinded_uncovered`); and at the last epoch a delegation that is not deactivated passes for one
that is. `stake_covered_of_reached` is the solvency of all runs without these steps.
-/

namespace Renec

open StakeProgram Nat

/-! ### What an account keeps -/

namespace StakeState

/-- An account in the state was initialized. -/
def HasMeta : StakeState → Prop
  | initialized _ => True
  | stake _ _ => True
  | uninitialized => False
  | rewardsPool => False

/-- The lamports an account in the state has to keep. -/
def owed : StakeState → ℕ
  | initialized data => data.rentExemptReserve
  | stake data staked => data.rentExemptReserve +
      if staked.delegation.deactivationEpoch = u64Max then staked.delegation.stake else 0
  | uninitialized => 0
  | rewardsPool => 0

variable {data data' : Meta} {stake stake' : Stake}

lemma owed_stake_of_active (h : stake.delegation.deactivationEpoch = u64Max) :
    (StakeState.stake data stake).owed = data.rentExemptReserve + stake.delegation.stake := by
  rw [owed, if_pos h]

lemma owed_stake_of_not_active (h : stake.delegation.deactivationEpoch ≠ u64Max) :
    (StakeState.stake data stake).owed = data.rentExemptReserve := by
  rw [owed, if_neg h, Nat.add_zero]

lemma reserve_le_owed_stake : data.rentExemptReserve ≤ (StakeState.stake data stake).owed :=
  le_add_right _ _

lemma owed_stake_le :
    (StakeState.stake data stake).owed ≤ data.rentExemptReserve + stake.delegation.stake := by
  rw [owed]
  split_ifs <;> omega

lemma owed_stake_of_delegation {n : ℕ}
    (h : stake'.delegation = { stake.delegation with stake := n }) :
    (StakeState.stake data stake').owed = data.rentExemptReserve +
      if stake.delegation.deactivationEpoch = u64Max then n else 0 := by
  rw [owed, h]

end StakeState

/-- An account has the size of a stake account once it is initialized, and it holds what it has to
keep. -/
structure StakeAccount.Backed (account : StakeAccount) : Prop where
  dataLen_eq : ∀ state, account.state = some state → state.HasMeta →
    account.dataLen = stakeStateSize
  owed_le : ∀ state, account.state = some state → state.owed ≤ account.lamports

namespace StakeAccount

variable {account account' : StakeAccount}

lemma backed_of_state (state : StakeState) (hstate : account.state = some state)
    (hlen : state.HasMeta → account.dataLen = stakeStateSize)
    (howed : state.owed ≤ account.lamports) : account.Backed := by
  constructor
  · intro state' hstate'
    obtain rfl := Option.some.inj (hstate.symm.trans hstate')
    exact hlen
  intro state' hstate'
  obtain rfl := Option.some.inj (hstate.symm.trans hstate')
  exact howed

lemma backed_of_uninitialized (h : account.state = some .uninitialized) : account.Backed :=
  backed_of_state _ h False.elim (zero_le _)

lemma Backed.mono (h : account.Backed) (hstate : account'.state = account.state)
    (hlen : account'.dataLen = account.dataLen) (hle : account.lamports ≤ account'.lamports) :
    account'.Backed := by
  constructor
  · intro state hst hmeta
    rw [hlen]
    exact h.dataLen_eq state (hstate ▸ hst) hmeta
  intro state hst
  exact (h.owed_le state (hstate ▸ hst)).trans hle

end StakeAccount

/-- All accounts hold what they have to keep. -/
def StakeAccounts.Backed (accounts : StakeAccounts) : Prop := ∀ key, (accounts key).Backed

open StakeAccount Exec

open StakeState hiding stake

variable {clock : Clock} {u : Unit} {s s' : StakeAccounts}

namespace StakeAccounts.Backed

variable {self key : Pubkey} {state : StakeState} {lamports : ℕ} {ops : FloatOps}
  {stakeHistory : StakeHistory} {signers : Finset Pubkey}

section

variable (hs : s.Backed)

include hs

lemma withState (hlen : (s key).dataLen = stakeStateSize) (howed : state.owed ≤ (s key).lamports) :
    (s.withState key state).Backed := by
  intro k
  by_cases hk : k = key
  · subst hk
    refine backed_of_state state ?_ ?_ ?_
    · simp
    · intro _
      rw [dataLen_withState, hlen]
    rw [lamports_withState]
    exact howed
  · refine (hs k).mono ?_ ?_ ?_ <;> simp [hk]

lemma credit : (s.credit key lamports).Backed := by
  intro k
  refine (hs k).mono ?_ ?_ ?_ <;> simp

/-! ### The operations -/

lemma initializeStake {authorized : Authorized} {lockup : Lockup} {rent : ℕ → ℕ}
    (h : initializeStake self authorized lockup rent s = some (.ok u, s')) : s'.Backed := by
  obtain ⟨hlen, -, hrent, rfl⟩ := initializeStake_eq_ok h
  exact hs.withState hlen hrent.le

lemma changeMeta {change : Meta → Outcome InstructionError Meta}
    (hchange : ∀ data data', change data = .ok data' →
      data'.rentExemptReserve = data.rentExemptReserve)
    (h : changeMeta self change s = some (.ok u, s')) : s'.Backed := by
  obtain ⟨data, data', hdata, ⟨hstate, rfl⟩ | ⟨stake, hstate, rfl⟩⟩ := changeMeta_eq_ok h
  all_goals
    refine hs.withState ((hs self).dataLen_eq _ hstate trivial) ?_
    rw [owed, hchange data data' hdata]
    exact (hs self).owed_le _ hstate

variable {custodian : Option Pubkey}

lemma authorize {newAuthority : Pubkey} {stakeAuthorize : StakeAuthorize}
    {requireCustodian : Bool}
    (h : authorize self signers newAuthority stakeAuthorize requireCustodian clock
      custodian s = some (.ok u, s')) : s'.Backed := by
  refine hs.changeMeta (fun data data' hdata ↦ ?_) h
  obtain ⟨_, -, hdata⟩ := Outcome.bind_eq_ok.mp hdata
  cases hdata
  rfl

lemma setLockup {lockup : LockupArgs} {clock : Option Clock}
    (h : setLockup self lockup signers clock s = some (.ok u, s')) : s'.Backed := by
  refine hs.changeMeta (fun data data' hdata ↦ ?_) h
  obtain ⟨_, -, hdata⟩ := Outcome.bind_eq_ok.mp hdata
  cases hdata
  rfl

lemma delegate {voteAccount : VoteAccount} {warmupCooldownRate : F64}
    {canReverseDeactivation : Bool}
    (hrescind : ∀ data stake, (s self).state = some (.stake data stake) →
      canReverseDeactivation = true →
      stake.delegation.effectiveStake ops clock.epoch (some stakeHistory) ≠ some 0 →
      stake.delegation.voterPubkey = voteAccount.key →
      clock.epoch = stake.delegation.deactivationEpoch →
      data.rentExemptReserve + stake.delegation.stake ≤ (s self).lamports)
    (h : delegate ops self voteAccount clock stakeHistory warmupCooldownRate signers
      canReverseDeactivation s = some (.ok u, s')) : s'.Backed := by
  obtain ⟨data, voteState, stake', -, rfl, ⟨hstate, rfl⟩ | ⟨stake, hstate, hstake'⟩⟩ :=
    delegate_eq_ok h
  · refine hs.withState ((hs self).dataLen_eq _ hstate trivial) (owed_stake_le.trans ?_)
    have hreserve : data.rentExemptReserve ≤ (s self).lamports := (hs self).owed_le _ hstate
    exact (add_sub_of_le hreserve).le
  refine hs.withState ((hs self).dataLen_eq _ hstate trivial) (owed_stake_le.trans ?_)
  have hreserve : data.rentExemptReserve ≤ (s self).lamports :=
    reserve_le_owed_stake.trans ((hs self).owed_le _ hstate)
  obtain ⟨-, rfl⟩ | ⟨heffective, hvoter, hepoch, hcan, rfl⟩ := redelegate_eq_ok hstake'
  · exact (add_sub_of_le hreserve).le
  · exact hrescind data stake hstate hcan heffective hvoter hepoch

lemma deactivate (h : deactivate self clock signers s = some (.ok u, s')) : s'.Backed := by
  obtain ⟨data, stake, stake', hstate, hstake', rfl⟩ := deactivate_eq_ok h
  refine hs.withState ((hs self).dataLen_eq _ hstate trivial) ?_
  rw [Stake.deactivate] at hstake'
  split_ifs at hstake' with hactive
  cases hstake'
  have howed := (hs self).owed_le _ hstate
  rw [owed_stake_of_active (not_not.mp hactive)] at howed
  exact owed_stake_le.trans howed

end

variable {reserve : ℕ}

lemma splitReserve_le {reserve' : ℕ}
    (h : calculateSplitRentExemptReserve reserve stakeStateSize stakeStateSize =
      some reserve') : reserve' ≤ reserve := by
  obtain ⟨-, rfl⟩ := checkedMul_eq_some.mp h
  exact div_mul_le_self _ _

section

variable {data : Meta} {stake rest new : Stake} {delta amount selfLamports : ℕ} {splitLamports : ℕ}
  (hsplit : stake.split delta amount = .ok (rest, new))
  (hamounts : splitAmounts lamports selfLamports splitLamports data.rentExemptReserve reserve =
    some (delta, amount))
  (howed : (StakeState.stake data stake).owed ≤ selfLamports)

include hsplit hamounts howed

lemma owed_rest_le (hall : lamports ≠ selfLamports)
    (hlt : lamports + data.rentExemptReserve < selfLamports) :
    (StakeState.stake data rest).owed ≤ selfLamports - lamports := by
  obtain ⟨hdelta, hrest, -⟩ := stakeSplit_eq_ok hsplit
  obtain ⟨h, -⟩ | ⟨-, rfl, -⟩ := splitAmounts_eq_some hamounts
  · exact absurd h hall
  rw [owed_stake_of_delegation hrest]
  rw [owed] at howed
  split_ifs at howed ⊢ <;> omega

/-- What goes to the new account of a split covers the new stake, unless it is a full split, by
what the new account needs for its reserve; then by what the source kept for its own. -/
theorem owed_new_le (hreserve : reserve ≤ data.rentExemptReserve)
    (hlt : reserve - splitLamports < lamports) :
    (StakeState.stake { data with rentExemptReserve := reserve } new).owed ≤
      splitLamports + lamports := by
  obtain ⟨-, -, hnew⟩ := stakeSplit_eq_ok hsplit
  have hle := reserve_le_owed_stake.trans howed
  rw [owed_stake_of_delegation hnew]
  show reserve + _ ≤ _
  obtain ⟨rfl, -, rfl⟩ | ⟨-, -, rfl⟩ := splitAmounts_eq_some hamounts
  · split_ifs <;> omega
  · split_ifs <;> omega

end

variable {splitKey : Pubkey} {t : StakeAccounts}

/-- A split that writes two states: the source is closed or keeps what it owes, and the new account
is given what it owes. -/
theorem split_between (state new : StakeState) (hs : s.Backed) (hne : splitKey ≠ self)
    (hstate : ∀ k, (t k).state = if k = splitKey then some new else if k = self then some state
      else (s k).state)
    (hdata : ∀ k, (t k).dataLen = (s k).dataLen) (hlamports : ∀ k, (t k).lamports = (s k).lamports)
    (hself : (s self).dataLen = stakeStateSize) (hsplit : (s splitKey).dataLen = stakeStateSize)
    (hrest : lamports ≠ (s self).lamports → state.owed ≤ (s self).lamports - lamports)
    (hnew : new.owed ≤ (s splitKey).lamports + lamports) :
    (((t.closeIfAll self lamports).credit splitKey lamports).debit self lamports).Backed := by
  intro k
  by_cases hk : k = self
  · subst hk
    by_cases hall : lamports = (s k).lamports
    · refine backed_of_uninitialized ?_
      simp [hall, hlamports]
    refine backed_of_state state ?_ ?_ ?_
    · simp [hall, hstate, hlamports, hne.symm]
    · intro _
      simp [hdata, hself]
    · simpa [hne.symm, hlamports] using hrest hall
  by_cases hk' : k = splitKey
  · subst hk'
    refine backed_of_state new ?_ ?_ ?_
    · simp [hne, hstate]
    · intro _
      simp [hdata, hsplit]
    · simpa [hne, hlamports] using hnew
  · refine (hs k).mono ?_ ?_ ?_ <;> simp [hk, hk', hstate, hdata, hlamports]

lemma split (hs : s.Backed)
    (h : split self lamports splitKey signers s = some (.ok u, s')) : s'.Backed := by
  obtain ⟨hlen, hnew, hle, t, heffect, rfl⟩ := split_eq_ok h
  have hne {state : StakeState} (hstate : (s self).state = some state) (hmeta : state.HasMeta) :
      splitKey ≠ self := by
    rintro rfl
    cases hnew.symm.trans hstate
    exact hmeta
  cases heffect with
  | uninitialized hstate =>
    intro k
    by_cases hk : k = self
    · subst hk
      refine backed_of_uninitialized ?_
      simp [hstate]
    · refine (hs k).mono ?_ ?_ ?_ <;> simp [hk]
  | @initialized data reserve hstate hcheck =>
    obtain ⟨-, hlt, hrest, -⟩ := checkSplit_eq_ok hcheck
    refine split_between (.initialized data)
      (.initialized { data with rentExemptReserve := reserve }) hs (hne hstate trivial)
        (fun k ↦ ?_) ?_ ?_
      ((hs self).dataLen_eq _ hstate trivial) hlen ?_ ?_
    · by_cases hk : k = self <;> simp [hk, hstate]
    · simp
    · simp
    · intro hall
      have := hrest hall
      show data.rentExemptReserve ≤ _
      omega
    show reserve ≤ _
    omega
  | @stake data stake rest new reserve delta amount hstate hcheck hamounts hsplit =>
    obtain ⟨hreserve, hlt, hrest, -⟩ := checkSplit_eq_ok hcheck
    have hlen' := (hs self).dataLen_eq _ hstate trivial
    rw [hlen', hlen] at hreserve
    have hreserve := splitReserve_le hreserve
    have howed := (hs self).owed_le _ hstate
    refine split_between (.stake data rest) (.stake { data with rentExemptReserve := reserve } new)
      hs (hne hstate trivial) ?_ ?_ ?_ hlen' hlen
      (fun hall ↦ owed_rest_le hsplit hamounts howed hall (hrest hall))
      (owed_new_le hsplit hamounts howed hreserve hlt)
    · simp
    · simp
    · simp

lemma owed_merged_le {account source : StakeAccount} {kind sourceKind : StakeProgram.MergeKind}
    {merged : StakeState} (haccount : account.Backed) (hsource : source.Backed)
    (hkind : kind.Describes account) (hsourceKind : sourceKind.Describes source)
    (h : StakeProgram.MergeKind.MergeEffect kind sourceKind (some merged)) :
    merged.HasMeta ∧ account.dataLen = stakeStateSize ∧
      merged.owed ≤ account.lamports + source.lamports := by
  cases h with
  | absorbInactive hstake =>
    obtain ⟨rfl, -⟩ := hsourceKind
    have howed := haccount.owed_le _ hkind
    refine ⟨trivial, haccount.dataLen_eq _ hkind trivial, ?_⟩
    rw [owed_stake_of_delegation hstake]
    rw [owed] at howed
    split_ifs at howed ⊢ <;> omega
  | absorbActivating hactive hstake | absorbActive hactive hstake =>
    have howed := haccount.owed_le _ hkind
    have howed' := hsource.owed_le _ hsourceKind
    refine ⟨trivial, haccount.dataLen_eq _ hkind trivial, ?_⟩
    rw [owed_stake_of_active hactive] at howed'
    rw [owed_stake_of_delegation hstake]
    rw [owed] at howed
    split_ifs at howed ⊢ <;> omega

variable (hs : s.Backed)

include hs

lemma merge {source : Pubkey} {canMergeExpiredLockups unmatchedCredits : Bool}
    (h : merge ops self source clock stakeHistory signers canMergeExpiredLockups unmatchedCredits
      s = some (.ok u, s'))
    : s'.Backed := by
  obtain ⟨hne, kind, sourceKind, merged, t, hkind, hsource, -, heffect, ht, rfl⟩ := merge_eq_ok h
  intro k
  by_cases hk : k = source
  · subst hk
    refine backed_of_uninitialized ?_
    simp
  obtain ⟨-, rfl⟩ | ⟨state, rfl, rfl⟩ := ht
  · refine (hs k).mono ?_ ?_ ?_ <;> simp [hk]
  obtain ⟨-, hlen, howed⟩ := owed_merged_le (hs self) (hs source) hkind hsource heffect
  by_cases hk' : k = self
  · subst hk'
    refine backed_of_state state ?_ ?_ ?_
    · simp [hk]
    · intro _
      simp [hlen]
    · simpa [hk] using howed
  · refine (hs k).mono ?_ ?_ ?_ <;> simp [hk, hk']

/-- A withdrawal leaves what is to be kept, but for a delegation that is not deactivated at the
last epoch. -/
theorem withdraw {recipient : Pubkey} {withdrawAuthority : Option Pubkey}
    {preventWithdrawToZero : Bool}
    (hlast : ∀ data stake, (s self).state = some (.stake data stake) →
      stake.delegation.deactivationEpoch = u64Max → u64Max ≤ clock.epoch →
      lamports ≠ (s self).lamports →
      lamports + (data.rentExemptReserve + stake.delegation.stake) ≤ (s self).lamports)
    (h : StakeProgram.withdraw ops self lamports recipient clock stakeHistory withdrawAuthority
      custodian preventWithdrawToZero s = some (.ok u, s'))
    : s'.Backed := by
  obtain ⟨authority, state, lockup, reserve, isStaked, -, hstate, hterms, -, hkeep, hle, rfl⟩ :=
    withdraw_eq_ok h
  obtain ⟨hinitialized, hstake, -⟩ := withdrawTerms_eq_ok hterms
  have howed : lamports ≠ (s self).lamports → lamports + state.owed ≤ (s self).lamports := by
    intro hall
    have hkeep := hkeep (.inr hall)
    cases state with
    | uninitialized | rewardsPool => exact hle
    | initialized data =>
      have := hinitialized data rfl
      rw [owed]
      omega
    | stake data stake =>
      obtain ⟨staked, hstaked, rfl⟩ := hstake data stake rfl
      by_cases hactive : stake.delegation.deactivationEpoch = u64Max
      · rw [owed_stake_of_active hactive]
        by_cases hepoch : u64Max ≤ clock.epoch
        · exact hlast data stake hstate hactive hepoch hall
        rw [countedStake, hactive, if_neg hepoch] at hstaked
        cases hstaked
        omega
      rw [owed_stake_of_not_active hactive]
      omega
  intro k
  by_cases hk : k = self
  · subst hk
    by_cases hall : lamports = (s k).lamports
    · refine backed_of_uninitialized ?_
      simp [hall]
    refine backed_of_state state ?_ ?_ ?_
    · simp [hall, hstate]
    · intro hmeta
      rw [dataLen_credit, dataLen_debit, dataLen_closeIfAll]
      exact (hs k).dataLen_eq state hstate hmeta
    have := howed hall
    rw [lamports_credit, lamports_debit, lamports_closeIfAll, if_pos rfl]
    omega
  · refine (hs k).mono ?_ ?_ ?_ <;> simp [hk]

lemma redeemRewards {rewardedEpoch : Epoch} {pointValue : PointValue} {voteState : VoteState}
    {history : Option StakeHistory} {rewards : ℕ × ℕ}
    (h : redeemRewards ops rewardedEpoch self voteState pointValue history s =
      some (.ok rewards, s'))
    : s'.Backed := by
  obtain ⟨data, stake, stake', hstate, hredeem, rfl⟩ := redeemRewards_eq_ok h
  have hlen := (hs self).dataLen_eq _ hstate trivial
  have howed := (hs self).owed_le _ hstate
  refine hs.credit.withState ?_ ?_
  · rw [dataLen_credit, hlen]
  rw [owed_stake_of_delegation (redeemStakeRewards_eq_some hredeem), lamports_credit, if_pos rfl]
  rw [owed] at howed
  split_ifs at howed ⊢ <;> omega

end StakeAccounts.Backed

/-! ### Runs -/

section

variable (ops : FloatOps) (cond : Clock → StakeAccounts → StakeOp → Bool)
  (world : Epoch × StakeAccounts)

/-- The lamports cover a delegation when its deactivation is rescinded, and a delegation that is not
deactivated is not withdrawn from at the last epoch. -/
def StakeOp.covered (clock : Clock) (accounts : StakeAccounts) : StakeOp → Bool
  | .delegate self voteAccount stakeHistory _ _ canReverseDeactivation =>
    match (accounts self).state with
    | some (.stake data stake) => decide (canReverseDeactivation = true →
        stake.delegation.effectiveStake ops clock.epoch (some stakeHistory) ≠ some 0 →
        stake.delegation.voterPubkey = voteAccount.key →
        clock.epoch = stake.delegation.deactivationEpoch →
        data.rentExemptReserve + stake.delegation.stake ≤ (accounts self).lamports)
    | _ => true
  | .withdraw self lamports _ _ _ _ _ =>
    match (accounts self).state with
    | some (.stake data stake) => decide (stake.delegation.deactivationEpoch = u64Max →
        u64Max ≤ clock.epoch → lamports ≠ (accounts self).lamports →
        lamports + (data.rentExemptReserve + stake.delegation.stake) ≤ (accounts self).lamports)
    | _ => true
  | _ => true

/-- Step lemma: an operation that returns keeps all accounts backed. -/
theorem StakeOp.backed_exec {ops : FloatOps} {op : StakeOp} (hs : s.Backed)
    (hcovered : op.covered ops clock s = true) (h : op.exec ops clock s = some (.ok u, s')) :
    s'.Backed := by
  cases op with
  | initializeStake => exact hs.initializeStake (processInstruction_eq_ok h).2
  | authorize => exact hs.authorize (processInstruction_eq_ok h).2
  | setLockup => exact hs.setLockup (processInstruction_eq_ok h).2
  | delegate =>
    refine hs.delegate (fun data stake hstate ↦ ?_) (processInstruction_eq_ok h).2
    simpa only [covered, hstate, decide_eq_true_eq] using hcovered
  | deactivate => exact hs.deactivate (processInstruction_eq_ok h).2
  | split => exact hs.split (processInstruction_eq_ok h).2
  | merge => exact hs.merge (processInstruction_eq_ok h).2
  | withdraw =>
    refine hs.withdraw (fun data stake hstate ↦ ?_) (processInstruction_eq_ok h).2
    simpa only [covered, hstate, decide_eq_true_eq] using hcovered
  | redeemRewards =>
    obtain ⟨rewards, t, hredeem, ht⟩ := bind_eq_ok.mp h
    obtain ⟨-, rfl⟩ := pure_eq_ok.mp ht
    exact hs.redeemRewards hredeem
  | deposit =>
    obtain ⟨-, rfl⟩ := checkedAddLamports_eq_ok.mp h
    exact hs.credit

/-- No account is initialized yet. -/
def StakeAccounts.Fresh (accounts : StakeAccounts) : Prop :=
  ∀ key state, (accounts key).state = some state → ¬ state.HasMeta

/-- A step of a run: the epoch does not decrease, the operation meets a condition, and it succeeds.
A transaction that fails changes nothing. -/
def stakeStep (event : Clock × StakeOp) : Option (Epoch × StakeAccounts) :=
  if world.1 ≤ event.1.epoch ∧ cond event.1 world.2 event.2 = true then
    match event.2.exec ops event.1 world.2 with
    | some (.ok (), accounts) => some (event.1.epoch, accounts)
    | _ => none
  else none

/-- The worlds reached from fresh accounts by operations that meet a condition. -/
def StakeReached : Prop := ∃ accounts events, StakeAccounts.Fresh accounts ∧
    List.foldlM (stakeStep ops cond) (0, accounts) events = some world

end

lemma stakeStep_eq_some {ops : FloatOps} {cond : Clock → StakeAccounts → StakeOp → Bool}
    {world world' : Epoch × StakeAccounts} {event : Clock × StakeOp}
    (h : stakeStep ops cond world event = some world') :
    cond event.1 world.2 event.2 = true ∧
      event.2.exec ops event.1 world.2 = some (.ok (), world'.2) := by
  rw [stakeStep] at h
  split_ifs at h with hcond
  refine ⟨hcond.2, ?_⟩
  split at h
  · cases h
    assumption
  · cases h

lemma StakeAccounts.Fresh.backed {accounts : StakeAccounts} (h : accounts.Fresh) :
    accounts.Backed := by
  intro key
  constructor
  · intro state hstate hmeta
    exact absurd hmeta (h key state hstate)
  intro state hstate
  have hmeta := h key state hstate
  cases state with
  | uninitialized | rewardsPool => exact zero_le _
  | initialized | stake => exact absurd trivial hmeta

/-- Run lemma: in a run of covered operations all accounts stay backed. -/
theorem StakeReached.backed {ops : FloatOps} {world : Epoch × StakeAccounts}
    (h : StakeReached ops (StakeOp.covered ops) world) : world.2.Backed := by
  obtain ⟨accounts, events, hfresh, hrun⟩ := h
  refine foldlM_some_induction (P := fun world ↦ world.2.Backed) ?_ hrun hfresh.backed
  intro event _ world world' hbacked hstep
  obtain ⟨hcovered, hexec⟩ := stakeStep_eq_some hstep
  exact StakeOp.backed_exec hbacked hcovered hexec

/-- **Solvency**: in every run of covered operations, the lamports of an account whose delegation is
not deactivated are at least its reserve and its delegated stake. -/
theorem stake_covered_of_reached {ops : FloatOps} {world : Epoch × StakeAccounts}
    (h : StakeReached ops (StakeOp.covered ops) world) {key : Pubkey} {data : Meta} {stake : Stake}
    (hstate : (world.2 key).state = some (.stake data stake))
    (hactive : stake.delegation.deactivationEpoch = u64Max) :
    data.rentExemptReserve + stake.delegation.stake ≤ (world.2 key).lamports := by
  rw [← owed_stake_of_active hactive]
  exact (h.backed key).owed_le _ hstate

/-! ### A rescinded deactivation

An account with a reserve of 100 delegates 1000 lamports. One epoch later a single lamport is
effective, as the cluster had no effective stake to grow from. -/

namespace RescindedDeactivation

/-- The portion of a cluster without effective stake. -/
def ops : FloatOps := ⟨fun _ _ _ _ ↦ 0, fun _ _ ↦ true⟩

def stakeKey : Pubkey := ⟨1#256⟩

def authority : Pubkey := ⟨2#256⟩

def recipient : Pubkey := ⟨3#256⟩

def voteAccount : VoteAccount := ⟨⟨4#256⟩, voteProgramId, some default⟩

def data : Meta := ⟨100, ⟨authority, authority⟩, default⟩

def accounts : StakeAccounts := fun key ↦
  if key = stakeKey then ⟨stakeProgramId, 1100, stakeStateSize, some .uninitialized⟩
  else ⟨default, 0, 0, none⟩

def history : StakeHistory := ⟨[(0, ⟨0, 1000, 0⟩)], List.pairwise_singleton _ _⟩

/-- The account delegates its lamports, and deactivates the delegation in the next epoch. -/
def deactivated : List (Clock × StakeOp) :=
  [(⟨0, 0⟩, .initializeStake stakeKey data.authorized data.lockup fun _ ↦ 100),
    (⟨0, 0⟩, .delegate stakeKey voteAccount history 0 {authority} true),
    (⟨1, 0⟩, .deactivate stakeKey {authority})]

/-- All but the reserve and the effective stake is taken. -/
def withdrawal : Clock × StakeOp :=
  (⟨1, 0⟩, .withdraw stakeKey 999 recipient history (some authority) none true)

/-- The deactivation is rescinded in the epoch in which it was made. -/
def rescission : Clock × StakeOp :=
  (⟨1, 0⟩, .delegate stakeKey voteAccount history 0 {authority} true)

def delegated : Stake := ⟨⟨voteAccount.key, 1000, 0, u64Max, 0⟩, 0⟩

lemma fresh : accounts.Fresh := by
  intro key state hstate hmeta
  rw [accounts] at hstate
  split_ifs at hstate
  cases hstate
  exact hmeta

lemma reached_of_foldlM (cond : Clock → StakeAccounts → StakeOp → Bool)
    (events : List (Clock × StakeOp)) (lamports : ℕ)
    (h : (events.foldlM (stakeStep ops cond) (0, accounts)).any (fun world ↦ world.2 stakeKey ==
      ⟨stakeProgramId, lamports, stakeStateSize, some (.stake data delegated)⟩) = true) :
    ∃ world, StakeReached ops cond world ∧ (world.2 stakeKey).state = some (.stake data delegated) ∧
      (world.2 stakeKey).lamports = lamports := by
  obtain ⟨world, hworld, hstake⟩ := (Option.any_eq_true _ _).mp h
  rw [beq_iff_eq] at hstake
  exact ⟨world, ⟨accounts, events, fresh, hworld⟩, by rw [hstake], by rw [hstake]⟩

end RescindedDeactivation

open RescindedDeactivation in
/-- The withdrawal leaves 101 lamports, and the delegation is of 1000 again. -/
theorem rescinded_uncovered : ∃ world, StakeReached ops (fun _ _ _ ↦ true) world ∧
    (world.2 stakeKey).state = some (.stake data delegated) ∧
    delegated.delegation.deactivationEpoch = u64Max ∧
    (world.2 stakeKey).lamports < data.rentExemptReserve + delegated.delegation.stake := by
  obtain ⟨world, hreached, hstate, hlamports⟩ :=
    reached_of_foldlM (fun _ _ _ ↦ true) (deactivated ++ [withdrawal, rescission]) 101
      (by decide +kernel)
  refine ⟨world, hreached, hstate, rfl, ?_⟩
  rw [hlamports]
  decide

open RescindedDeactivation in
/-- Without the withdrawal the run is covered. -/
theorem stake_covered_rescinded : ∃ world, StakeReached ops (StakeOp.covered ops) world ∧
    (world.2 stakeKey).state = some (.stake data delegated) ∧
    data.rentExemptReserve + delegated.delegation.stake ≤ (world.2 stakeKey).lamports := by
  obtain ⟨world, hreached, hstate, -⟩ :=
    reached_of_foldlM (StakeOp.covered ops) (deactivated ++ [rescission]) 1100 (by decide +kernel)
  exact ⟨world, hreached, hstate, stake_covered_of_reached hreached hstate rfl⟩

end Renec
