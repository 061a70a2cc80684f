import Renec.Stake.Program

/-!
# What an operation on stake accounts does

One lemma for each operation, from its return: what it checked, and the accounts it leaves, written
with the updates of single accounts. The methods of the program change the state or the lamports of
one or two accounts, and nothing else.
-/

namespace Renec

open Exec StakeAccounts Function Prod

/-! ### Updates -/

namespace StakeAccounts

variable (accounts : StakeAccounts) (key k : Pubkey) (state : StakeState) (lamports : ℕ)

@[simp] lemma state_withState : (accounts.withState key state k).state =
    if k = key then some state else (accounts k).state := by
  rw [withState, update_apply]
  split_ifs <;> rfl

@[simp] lemma lamports_withState :
    (accounts.withState key state k).lamports = (accounts k).lamports := by
  rw [withState, update_apply]
  split_ifs with h <;> simp [h]

@[simp] lemma dataLen_withState :
    (accounts.withState key state k).dataLen = (accounts k).dataLen := by
  rw [withState, update_apply]
  split_ifs with h <;> simp [h]

@[simp] lemma state_withLamports :
    (accounts.withLamports key lamports k).state = (accounts k).state := by
  rw [withLamports, update_apply]
  split_ifs with h <;> simp [h]

@[simp] lemma lamports_withLamports : (accounts.withLamports key lamports k).lamports =
    if k = key then lamports else (accounts k).lamports := by
  rw [withLamports, update_apply]
  split_ifs <;> rfl

@[simp] lemma dataLen_withLamports :
    (accounts.withLamports key lamports k).dataLen = (accounts k).dataLen := by
  rw [withLamports, update_apply]
  split_ifs with h <;> simp [h]

/-- The accounts after a deposit. -/
def credit : StakeAccounts := accounts.withLamports key ((accounts key).lamports + lamports)

/-- The accounts after lamports are taken. -/
def debit : StakeAccounts := accounts.withLamports key ((accounts key).lamports - lamports)

/-- The accounts once one that is to be emptied is deinitialized. -/
def closeIfAll : StakeAccounts :=
  if lamports = (accounts key).lamports then accounts.withState key .uninitialized else accounts

@[simp] lemma state_credit : (accounts.credit key lamports k).state = (accounts k).state :=
  state_withLamports accounts key k _

@[simp] lemma lamports_credit : (accounts.credit key lamports k).lamports =
    (accounts k).lamports + if k = key then lamports else 0 := by
  rw [credit, lamports_withLamports]
  split_ifs with h
  · rw [h]
  · rfl

@[simp] lemma dataLen_credit : (accounts.credit key lamports k).dataLen = (accounts k).dataLen :=
  dataLen_withLamports accounts key k _

@[simp] lemma state_debit : (accounts.debit key lamports k).state = (accounts k).state :=
  state_withLamports accounts key k _

@[simp] lemma lamports_debit : (accounts.debit key lamports k).lamports =
    (accounts k).lamports - if k = key then lamports else 0 := by
  rw [debit, lamports_withLamports]
  split_ifs with h
  · rw [h]
  · rfl

@[simp] lemma dataLen_debit : (accounts.debit key lamports k).dataLen = (accounts k).dataLen :=
  dataLen_withLamports accounts key k _

@[simp] lemma state_closeIfAll : (accounts.closeIfAll key lamports k).state =
    if k = key ∧ lamports = (accounts key).lamports then some .uninitialized
    else (accounts k).state := by
  by_cases h : lamports = (accounts key).lamports <;> simp [closeIfAll, h]

@[simp] lemma lamports_closeIfAll :
    (accounts.closeIfAll key lamports k).lamports = (accounts k).lamports := by
  by_cases h : lamports = (accounts key).lamports <;> simp [closeIfAll, h]

@[simp] lemma dataLen_closeIfAll :
    (accounts.closeIfAll key lamports k).dataLen = (accounts k).dataLen := by
  by_cases h : lamports = (accounts key).lamports <;> simp [closeIfAll, h]

end StakeAccounts

variable {self : Pubkey} {u : Unit} {s s' : StakeAccounts}

namespace StakeProgram

variable {key : Pubkey} {lamports n : ℕ}

/-! ### Accounts -/

variable {state : StakeState}

@[simp] lemma getState_eq_ok :
    getState key s = some (.ok state, s') ↔ (s key).state = some state ∧ s = s' := by
  simp [getState, bind_eq_ok, and_comm]

@[simp] lemma setState_eq_ok : setState key state s = some (.ok u, s') ↔
      state.size ≤ (s key).dataLen ∧ s.withState key state = s' := by
  simp [setState, bind_eq_ok]

@[simp] lemma getLamports_bind {α : Type} (f : ℕ → StakeProgram α) :
    (getLamports key >>= f) s = f (s key).lamports s := rfl

@[simp] lemma checkedAddLamports_eq_ok : checkedAddLamports key lamports s = some (.ok u, s') ↔
    (s key).lamports + lamports < 2 ^ 64 ∧ s.credit key lamports = s' := by
  simp [checkedAddLamports, setLamports, bind_eq_ok, credit]

@[simp] lemma checkedSubLamports_eq_ok : checkedSubLamports key lamports s = some (.ok u, s') ↔
    lamports ≤ (s key).lamports ∧ s.debit key lamports = s' := by
  simp [checkedSubLamports, setLamports, bind_eq_ok, debit]

@[simp] lemma checkedSum_eq_ok {a b : ℕ} :
    checkedSum a b s = some (.ok n, s') ↔ checkedAdd 64 a b = some n ∧ s = s' :=
  okOr_eq_ok

variable {α : Type} {a : α}

@[simp] lemma ensure_eq_ok {x : Outcome InstructionError α} :
    ensure x s = some (.ok a, s') ↔ x = .ok a ∧ s = s' :=
  ofOutcome_eq_ok

@[simp] lemma ensureStake_eq_ok {x : Outcome StakeError α} :
    ensureStake x s = some (.ok a, s') ↔ x = .ok a ∧ s = s' := by
  cases x <;> simp [ensureStake]

lemma deinitializeIfAll_eq_ok
    (h : deinitializeIfAll key lamports s = some (.ok u, s')) : s.closeIfAll key lamports = s' := by
  rw [deinitializeIfAll, getLamports_bind] at h
  rw [closeIfAll]
  split_ifs at h ⊢
  · exact (setState_eq_ok.mp h).2
  · exact (pure_eq_ok.mp h).2

/-! ### Initialization and authority -/

variable {lockup : Lockup}

lemma initializeStake_eq_ok {authorized : Authorized} {rent : ℕ → ℕ}
    (h : initializeStake self authorized lockup rent s = some (.ok u, s')) :
    (s self).dataLen = stakeStateSize ∧ (s self).state = some .uninitialized ∧
      rent (s self).dataLen < (s self).lamports ∧
      s.withState self (.initialized ⟨rent (s self).dataLen, authorized, lockup⟩) = s' := by
  simp only [initializeStake, bind_eq_ok, get_bind, failIf_eq_ok, getState_eq_ok,
    setState_eq_ok] at h
  obtain ⟨_, _, ⟨hlen, rfl⟩, state, _, ⟨hstate, rfl⟩, _, _, ⟨hstate', rfl⟩, _, _,
    ⟨hlt, rfl⟩, -, hs'⟩ := h
  have hstate' : state = .uninitialized := by simpa using hstate'
  exact ⟨by simpa using hlen, hstate' ▸ hstate, by simpa using hlt, hs'⟩

lemma changeMeta_eq_ok {change : Meta → Outcome InstructionError Meta}
    (h : changeMeta self change s = some (.ok u, s')) :
    ∃ data data', change data = .ok data' ∧
      ((s self).state = some (.initialized data) ∧ s.withState self (.initialized data') = s' ∨
        ∃ stake, (s self).state = some (.stake data stake) ∧
          s.withState self (.stake data' stake) = s') := by
  simp only [changeMeta, bind_eq_ok, getState_eq_ok] at h
  obtain ⟨state, _, ⟨hstate, rfl⟩, h⟩ := h
  cases state with
  | uninitialized | rewardsPool => cases throw_eq_ok.mp h
  | initialized data =>
    simp only [bind_eq_ok, ensure_eq_ok, setState_eq_ok] at h
    obtain ⟨data', _, ⟨hchange, rfl⟩, -, hs'⟩ := h
    exact ⟨data, data', hchange, .inl ⟨hstate, hs'⟩⟩
  | stake data stake =>
    simp only [bind_eq_ok, ensure_eq_ok, setState_eq_ok] at h
    obtain ⟨data', _, ⟨hchange, rfl⟩, -, hs'⟩ := h
    exact ⟨data, data', hchange, .inr ⟨stake, hstate, hs'⟩⟩

/-! ### Delegation -/

variable {signers : Finset Pubkey} {ops : FloatOps} {stakeHistory : StakeHistory}
  {voteState : VoteState} {stake stake' : Stake} {clock : Clock}

section

variable {voteAccount : VoteAccount} {warmupCooldownRate : F64} {canReverseDeactivation : Bool}

lemma redelegate_eq_ok {voterPubkey : Pubkey}
    (h : redelegate ops stake lamports voterPubkey voteState clock stakeHistory warmupCooldownRate
      canReverseDeactivation = .ok stake') :
    stake.delegation.effectiveStake ops clock.epoch (some stakeHistory) = some 0 ∧
        stake' = newStake lamports voterPubkey voteState clock.epoch warmupCooldownRate ∨
      stake.delegation.effectiveStake ops clock.epoch (some stakeHistory) ≠ some 0 ∧
        stake.delegation.voterPubkey = voterPubkey ∧
        clock.epoch = stake.delegation.deactivationEpoch ∧ canReverseDeactivation = true ∧ stake' =
          { stake with delegation := { stake.delegation with deactivationEpoch := u64Max } } := by
  simp only [redelegate, Outcome.bind_eq_ok, Outcome.ofOption_eq_ok] at h
  obtain ⟨effective, heffective, h⟩ := h
  rw [heffective]
  by_cases hzero : effective = 0
  · rw [if_neg (not_not_intro hzero)] at h
    cases h
    exact .inl ⟨by rw [hzero], rfl⟩
  rw [if_pos hzero] at h
  split_ifs at h with hrescind
  cases h
  exact .inr ⟨fun h0 ↦ hzero (Option.some.inj h0), hrescind.1, hrescind.2.1, hrescind.2.2, rfl⟩

lemma delegate_eq_ok (h : delegate ops self voteAccount clock stakeHistory warmupCooldownRate
      signers canReverseDeactivation s = some (.ok u, s')) :
    ∃ data voteState stake', voteAccount.state = some voteState ∧
      s.withState self (.stake data stake') = s' ∧
      ((s self).state = some (.initialized data) ∧
          stake' = newStake ((s self).lamports - data.rentExemptReserve) voteAccount.key voteState
            clock.epoch warmupCooldownRate ∨
        ∃ stake, (s self).state = some (.stake data stake) ∧
          redelegate ops stake ((s self).lamports - data.rentExemptReserve) voteAccount.key
            voteState clock stakeHistory warmupCooldownRate canReverseDeactivation =
              .ok stake') := by
  simp only [delegate, bind_eq_ok, failIf_eq_ok, getState_eq_ok] at h
  obtain ⟨_, _, ⟨-, rfl⟩, state, _, ⟨hstate, rfl⟩, h⟩ := h
  cases state with
  | uninitialized | rewardsPool => cases throw_eq_ok.mp h
  | initialized data =>
    simp only [bind_eq_ok, ensure_eq_ok, getLamports_bind, okOr_eq_ok, setState_eq_ok] at h
    obtain ⟨_, _, ⟨-, rfl⟩, voteState, _, ⟨hvote, rfl⟩, -, hs'⟩ := h
    exact ⟨data, voteState, _, hvote, hs', .inl ⟨hstate, rfl⟩⟩
  | stake data stake =>
    simp only [bind_eq_ok, ensure_eq_ok, getLamports_bind, okOr_eq_ok, ensureStake_eq_ok,
      setState_eq_ok] at h
    obtain ⟨_, _, ⟨-, rfl⟩, voteState, _, ⟨hvote, rfl⟩, stake', _, ⟨hstake', rfl⟩, -, hs'⟩ := h
    exact ⟨data, voteState, stake', hvote, hs', .inr ⟨stake, hstate, hstake'⟩⟩

lemma deactivate_eq_ok (h : deactivate self clock signers s = some (.ok u, s')) :
    ∃ data stake stake', (s self).state = some (.stake data stake) ∧
      stake.deactivate clock.epoch = .ok stake' ∧ s.withState self (.stake data stake') = s' := by
  simp only [deactivate, bind_eq_ok, getState_eq_ok] at h
  obtain ⟨state, _, ⟨hstate, rfl⟩, h⟩ := h
  cases state with
  | uninitialized | initialized data | rewardsPool => cases throw_eq_ok.mp h
  | stake data stake =>
    simp only [bind_eq_ok, ensure_eq_ok, ensureStake_eq_ok, setState_eq_ok] at h
    obtain ⟨_, _, ⟨-, rfl⟩, stake', _, ⟨hstake', rfl⟩, -, hs'⟩ := h
    exact ⟨data, stake, stake', hstate, hstake', hs'⟩

end

/-! ### Split -/

variable {data : Meta}

section

variable {splitKey : Pubkey} {delta amount : ℕ}

lemma stakeSplit_eq_ok {rest new : Stake} (h : stake.split delta amount = .ok (rest, new)) :
    delta ≤ stake.delegation.stake ∧
      rest.delegation = { stake.delegation with stake := stake.delegation.stake - delta } ∧
      new.delegation = { stake.delegation with stake := amount } := by
  simp only [Stake.split, Outcome.bind_eq_ok, Outcome.failIf_eq_ok, decide_eq_false_iff_not,
    not_lt] at h
  obtain ⟨_, hdelta, h⟩ := h
  cases h
  exact ⟨hdelta, rfl, rfl⟩

lemma splitAmounts_eq_some {selfLamports splitLamports reserve splitReserve : ℕ}
    (h : splitAmounts lamports selfLamports splitLamports reserve splitReserve =
      some (delta, amount)) :
    lamports = selfLamports ∧ delta = lamports - reserve ∧ amount = lamports - reserve ∨
      lamports ≠ selfLamports ∧ delta = lamports ∧
        amount = lamports - (splitReserve - splitLamports) := by
  rw [splitAmounts] at h
  split_ifs at h with hall
  · cases h
    exact .inl ⟨hall, rfl, rfl⟩
  simp only [bind_eq_some, checkedSub_eq_some, pure_eq_some, mk.injEq] at h
  obtain ⟨_, ⟨-, rfl⟩, rfl, rfl⟩ := h
  exact .inr ⟨hall, rfl, rfl⟩

lemma checkSplit_eq_ok (h : checkSplit self lamports splitKey data s = some (.ok n, s')) :
    calculateSplitRentExemptReserve data.rentExemptReserve (s self).dataLen (s splitKey).dataLen =
        some n ∧
      n - (s splitKey).lamports < lamports ∧
      (lamports ≠ (s self).lamports → lamports + data.rentExemptReserve < (s self).lamports) ∧
      s = s' := by
  simp only [checkSplit, bind_eq_ok, get_bind, ofOption_eq_ok, failIf_eq_ok,
    decide_eq_false_iff_not, not_le] at h
  obtain ⟨reserve, _, ⟨hreserve, rfl⟩, _, _, ⟨hlt, rfl⟩, h⟩ := h
  split_ifs at h with hfull
  · simp only [bind_eq_ok, checkedSum_eq_ok, failIf_eq_ok, decide_eq_false_iff_not, not_le,
      pure_eq_ok, checkedAdd_eq_some] at h
    obtain ⟨_, _, ⟨⟨-, rfl⟩, rfl⟩, _, _, ⟨hrest, rfl⟩, rfl, rfl⟩ := h
    exact ⟨hreserve, hlt, fun _ ↦ hrest, rfl⟩
  obtain ⟨rfl, rfl⟩ := pure_eq_ok.mp h
  exact ⟨hreserve, hlt, fun hne ↦ absurd hne hfull, rfl⟩

/-- What a split does to the states, by the state of the source. -/
inductive SplitEffect (s : StakeAccounts) (self splitKey : Pubkey) (lamports : ℕ) :
    StakeAccounts → Prop
  | uninitialized (hstate : (s self).state = some .uninitialized) :
      SplitEffect s self splitKey lamports s
  | initialized {data : Meta} {reserve : ℕ} (hstate : (s self).state = some (.initialized data))
      (hcheck : checkSplit self lamports splitKey data s = some (.ok reserve, s)) :
      SplitEffect s self splitKey lamports
        (s.withState splitKey (.initialized { data with rentExemptReserve := reserve }))
  | stake {data : Meta} {stake rest new : Stake} {reserve delta amount : ℕ}
      (hstate : (s self).state = some (.stake data stake))
      (hcheck : checkSplit self lamports splitKey data s = some (.ok reserve, s))
      (hamounts : splitAmounts lamports (s self).lamports (s splitKey).lamports
        data.rentExemptReserve reserve = some (delta, amount))
      (hsplit : stake.split delta amount = .ok (rest, new)) :
      SplitEffect s self splitKey lamports ((s.withState self (.stake data rest)).withState splitKey
        (.stake { data with rentExemptReserve := reserve } new))

lemma splitState_eq_ok (hstate : (s self).state = some state)
    (h : splitState self lamports splitKey signers state s = some (.ok u, s')) :
    SplitEffect s self splitKey lamports s' := by
  cases state with
  | uninitialized =>
    obtain ⟨-, rfl⟩ := failIf_eq_ok.mp h
    exact .uninitialized hstate
  | rewardsPool => cases throw_eq_ok.mp h
  | initialized data =>
    simp only [splitState, bind_eq_ok, ensure_eq_ok, setState_eq_ok] at h
    obtain ⟨_, _, ⟨-, rfl⟩, reserve, t, hcheck, -, rfl⟩ := h
    obtain ⟨-, -, -, rfl⟩ := checkSplit_eq_ok hcheck
    exact .initialized hstate hcheck
  | stake data stake =>
    simp only [splitState, bind_eq_ok, ensure_eq_ok, setState_eq_ok, getLamports_bind,
      ofOption_eq_ok, ensureStake_eq_ok] at h
    obtain ⟨_, _, ⟨-, rfl⟩, reserve, t, hcheck, ⟨delta, amount⟩, _, ⟨hamounts, rfl⟩,
      ⟨rest, new⟩, _, ⟨hsplit, rfl⟩, _, _, ⟨-, rfl⟩, -, rfl⟩ := h
    obtain ⟨-, -, -, rfl⟩ := checkSplit_eq_ok hcheck
    exact .stake hstate hcheck hamounts hsplit

lemma split_eq_ok (h : split self lamports splitKey signers s = some (.ok u, s')) :
    (s splitKey).dataLen = stakeStateSize ∧ (s splitKey).state = some .uninitialized ∧
      lamports ≤ (s self).lamports ∧ ∃ t, SplitEffect s self splitKey lamports t ∧
        ((t.closeIfAll self lamports).credit splitKey lamports).debit self lamports = s' := by
  simp only [split, bind_eq_ok, get_bind, failIf_eq_ok, getState_eq_ok,
    checkedAddLamports_eq_ok, checkedSubLamports_eq_ok, decide_eq_false_iff_not, not_lt] at h
  obtain ⟨_, _, ⟨-, rfl⟩, _, _, ⟨hlen, rfl⟩, new, _, ⟨hnew, rfl⟩, _, _,
    ⟨hnew', rfl⟩, _, _, ⟨hle, rfl⟩, state, _, ⟨hstate, rfl⟩, _, t, hsplit, _, _, hclose, _, _,
    ⟨-, rfl⟩, -, rfl⟩ := h
  obtain rfl := deinitializeIfAll_eq_ok hclose
  have hnew' : new = .uninitialized := by simpa using hnew'
  exact ⟨by simpa using hlen, hnew' ▸ hnew, hle, t, splitState_eq_ok hstate hsplit, rfl⟩

end

/-! ### Merge -/

section

variable {source : Pubkey} {canMergeExpiredLockups unmatchedCredits : Bool}

namespace MergeKind

/-- The account that a kind was made from. -/
def Describes (account : StakeAccount) : MergeKind → Prop
  | inactive data lamports => account.lamports = lamports ∧
      (account.state = some (.initialized data) ∨ ∃ stake, account.state = some (.stake data stake))
  | activationEpoch data stake => account.state = some (.stake data stake)
  | fullyActive data stake => account.state = some (.stake data stake)

variable {kind : MergeKind}

lemma getIfMergeable_eq_ok (h : getIfMergeable ops key clock stakeHistory s = some (.ok kind, s')) :
    kind.Describes (s key) ∧ s = s' := by
  simp only [getIfMergeable, bind_eq_ok, getState_eq_ok] at h
  obtain ⟨state, _, ⟨hstate, rfl⟩, h⟩ := h
  cases state with
  | uninitialized | rewardsPool => cases throw_eq_ok.mp h
  | initialized data =>
    obtain ⟨rfl, rfl⟩ := pure_eq_ok.mp h
    exact ⟨⟨rfl, .inl hstate⟩, rfl⟩
  | stake data stake =>
    simp only [bind_eq_ok, ofOption_eq_ok] at h
    obtain ⟨status, _, ⟨-, rfl⟩, h⟩ := h
    split_ifs at h
    · obtain ⟨rfl, rfl⟩ := pure_eq_ok.mp h
      exact ⟨⟨rfl, .inr ⟨stake, hstate⟩⟩, rfl⟩
    · obtain ⟨rfl, rfl⟩ := pure_eq_ok.mp h
      exact ⟨hstate, rfl⟩
    · obtain ⟨rfl, rfl⟩ := pure_eq_ok.mp h
      exact ⟨hstate, rfl⟩
    · cases throw_eq_ok.mp h

lemma activeStakesCanMerge_eq_ok {sourceStake : Stake}
    (h : activeStakesCanMerge ops unmatchedCredits stake sourceStake = .ok u) :
    stake.delegation.deactivationEpoch = u64Max ∧
      sourceStake.delegation.deactivationEpoch = u64Max := by
  simp only [activeStakesCanMerge, activeDelegationsCanMerge, Outcome.bind_eq_ok,
    Outcome.failIf_eq_ok, Bool.not_eq_false', Bool.and_eq_true, beq_iff_eq] at h
  obtain ⟨_, ⟨_, -, ⟨-, hstake⟩, hsource⟩, -⟩ := h
  exact ⟨hstake, hsource⟩

lemma mergeDelegationStakeAndCreditsObserved_eq_ok {credits : ℕ}
    (h : mergeDelegationStakeAndCreditsObserved unmatchedCredits stake n credits s =
      some (.ok stake', s')) :
    stake'.delegation = { stake.delegation with stake := stake.delegation.stake + n } ∧ s = s' := by
  simp only [mergeDelegationStakeAndCreditsObserved, bind_eq_ok, okOr_eq_ok, checkedSum_eq_ok,
    checkedAdd_eq_some, pure_eq_ok] at h
  obtain ⟨_, _, ⟨-, rfl⟩, _, _, ⟨⟨-, rfl⟩, rfl⟩, rfl, rfl⟩ := h
  exact ⟨rfl, rfl⟩

/-- The merges there are, with the new state of the destination. -/
inductive MergeEffect : MergeKind → MergeKind → Option StakeState → Prop
  | unchanged {data : Meta} {lamports : ℕ} {sourceKind : MergeKind} :
      MergeEffect (inactive data lamports) sourceKind none
  | absorbInactive {data sourceData : Meta} {stake stake' : Stake} {sourceLamports : ℕ}
      (hstake : stake'.delegation =
        { stake.delegation with stake := stake.delegation.stake + sourceLamports }) :
      MergeEffect (activationEpoch data stake) (inactive sourceData sourceLamports)
        (some (.stake data stake'))
  | absorbActivating {data sourceData : Meta} {stake sourceStake stake' : Stake}
      (hsource : sourceStake.delegation.deactivationEpoch = u64Max)
      (hstake : stake'.delegation = { stake.delegation with
        stake := stake.delegation.stake +
          (sourceData.rentExemptReserve + sourceStake.delegation.stake) }) :
      MergeEffect (activationEpoch data stake) (activationEpoch sourceData sourceStake)
        (some (.stake data stake'))
  | absorbActive {data sourceData : Meta} {stake sourceStake stake' : Stake}
      (hsource : sourceStake.delegation.deactivationEpoch = u64Max)
      (hstake : stake'.delegation = { stake.delegation with
        stake := stake.delegation.stake + sourceStake.delegation.stake }) :
      MergeEffect (fullyActive data stake) (fullyActive sourceData sourceStake)
        (some (.stake data stake'))

lemma merge_eq_ok {sourceKind : MergeKind} {clock : Option Clock} {merged : Option StakeState}
    (h : merge ops unmatchedCredits kind sourceKind clock s = some (.ok merged, s')) :
    metasCanMerge kind.data sourceKind.data clock = .ok () ∧
      MergeEffect kind sourceKind merged ∧ s = s' := by
  simp only [merge, bind_eq_ok, ensureStake_eq_ok] at h
  obtain ⟨_, _, ⟨hmetas, rfl⟩, _, _, ⟨hcan, rfl⟩, h⟩ := h
  refine ⟨hmetas, ?_⟩
  match kind, sourceKind with
  | inactive _ _, inactive _ _ | inactive _ _, activationEpoch _ _ =>
    obtain ⟨rfl, rfl⟩ := pure_eq_ok.mp h
    exact ⟨.unchanged, rfl⟩
  | activationEpoch _ _, inactive _ _ =>
    simp only [mergedState, bind_eq_ok, checkedSum_eq_ok, checkedAdd_eq_some, pure_eq_ok] at h
    obtain ⟨_, _, ⟨⟨-, rfl⟩, rfl⟩, rfl, rfl⟩ := h
    exact ⟨.absorbInactive rfl, rfl⟩
  | activationEpoch _ _, activationEpoch _ _ =>
    simp only [mergedState, bind_eq_ok, checkedSum_eq_ok, checkedAdd_eq_some, pure_eq_ok] at h
    obtain ⟨_, _, ⟨⟨-, rfl⟩, rfl⟩, _, _, hmerge, rfl, rfl⟩ := h
    obtain ⟨hstake, rfl⟩ := mergeDelegationStakeAndCreditsObserved_eq_ok hmerge
    exact ⟨.absorbActivating (activeStakesCanMerge_eq_ok hcan).2 hstake, rfl⟩
  | fullyActive _ _, fullyActive _ _ =>
    simp only [mergedState, bind_eq_ok, pure_eq_ok] at h
    obtain ⟨_, _, hmerge, rfl, rfl⟩ := h
    obtain ⟨hstake, rfl⟩ := mergeDelegationStakeAndCreditsObserved_eq_ok hmerge
    exact ⟨.absorbActive (activeStakesCanMerge_eq_ok hcan).2 hstake, rfl⟩
  | inactive _ _, fullyActive _ _ => cases throw_eq_ok.mp h
  | activationEpoch _ _, fullyActive _ _ => cases throw_eq_ok.mp h
  | fullyActive _ _, inactive _ _ | fullyActive _ _, activationEpoch _ _ => cases throw_eq_ok.mp h

end MergeKind

lemma merge_eq_ok (h : merge ops self source clock stakeHistory signers canMergeExpiredLockups
      unmatchedCredits s = some (.ok u, s')) :
    source ≠ self ∧ ∃ kind sourceKind merged t, kind.Describes (s self) ∧
      sourceKind.Describes (s source) ∧ MergeKind.metasCanMerge kind.data sourceKind.data
        (if canMergeExpiredLockups then some clock else none) = .ok () ∧
      MergeKind.MergeEffect kind sourceKind merged ∧
      (merged = none ∧ t = s ∨ ∃ state, merged = some state ∧ t = s.withState self state) ∧
      ((t.withState source .uninitialized).debit source (s source).lamports).credit self
        (s source).lamports = s' := by
  simp only [merge, bind_eq_ok, get_bind, failIf_eq_ok, ensure_eq_ok, setState_eq_ok,
    getLamports_bind, checkedAddLamports_eq_ok, checkedSubLamports_eq_ok] at h
  obtain ⟨_, _, ⟨-, rfl⟩, _, _, ⟨hne, rfl⟩, kind, _, hkind, _, _, ⟨-, rfl⟩,
    sourceKind, _, hsource, merged, _, hmerge, _, t, ht, _, _, ⟨-, rfl⟩, _, _, ⟨-, rfl⟩, -, hs'⟩ :=
      h
  obtain ⟨hdescribes, rfl⟩ := MergeKind.getIfMergeable_eq_ok hkind
  obtain ⟨hdescribes', rfl⟩ := MergeKind.getIfMergeable_eq_ok hsource
  obtain ⟨hmetas, heffect, rfl⟩ := MergeKind.merge_eq_ok hmerge
  have hlamports : (t source).lamports = (s source).lamports ∧
      (merged = none ∧ t = s ∨ ∃ state, merged = some state ∧ t = s.withState self state) := by
    cases merged with
    | none =>
      obtain ⟨-, rfl⟩ := pure_eq_ok.mp ht
      exact ⟨rfl, .inl ⟨rfl, rfl⟩⟩
    | some state =>
      obtain ⟨-, rfl⟩ := setState_eq_ok.mp ht
      exact ⟨lamports_withState .., .inr ⟨state, rfl, rfl⟩⟩
  rw [lamports_withState, hlamports.1] at hs'
  exact ⟨by simpa using hne, kind, sourceKind, merged, t, hdescribes, hdescribes', hmetas, heffect,
    hlamports.2, hs'⟩

end

/-! ### Withdrawal and rewards -/

section

variable {recipient : Pubkey} {withdrawAuthority custodian : Option Pubkey}
  {preventWithdrawToZero : Bool}

def countedStake (ops : FloatOps) (clock : Clock) (stakeHistory : StakeHistory) (d : Delegation) :
    Option ℕ :=
  if clock.epoch ≥ d.deactivationEpoch then d.effectiveStake ops clock.epoch (some stakeHistory)
  else some d.stake

lemma initializedReserve_eq_ok
    (h : initializedReserve preventWithdrawToZero data s = some (.ok n, s')) :
    data.rentExemptReserve ≤ n ∧ s = s' := by
  cases preventWithdrawToZero with
  | false =>
    obtain ⟨rfl, rfl⟩ := pure_eq_ok.mp h
    exact ⟨le_refl _, rfl⟩
  | true =>
    obtain ⟨hadd, rfl⟩ := checkedSum_eq_ok.mp h
    obtain ⟨-, rfl⟩ := checkedAdd_eq_some.mp hadd
    exact ⟨Nat.le_succ _, rfl⟩

lemma withdrawTerms_eq_ok {isStaked : Bool}
    (h : withdrawTerms ops self clock stakeHistory signers preventWithdrawToZero state s =
      some (.ok (lockup, n, isStaked), s')) :
    (∀ data, state = .initialized data → data.rentExemptReserve ≤ n) ∧
      (∀ data stake, state = .stake data stake → ∃ staked,
        countedStake ops clock stakeHistory stake.delegation = some staked ∧
          staked + data.rentExemptReserve = n) ∧ s = s' := by
  cases state with
  | rewardsPool => cases throw_eq_ok.mp h
  | uninitialized =>
    simp only [withdrawTerms, bind_eq_ok, failIf_eq_ok, pure_eq_ok] at h
    obtain ⟨_, _, ⟨-, rfl⟩, -, rfl⟩ := h
    exact ⟨by simp, by simp, rfl⟩
  | initialized data =>
    simp only [withdrawTerms, bind_eq_ok, ensure_eq_ok, pure_eq_ok, mk.injEq] at h
    obtain ⟨_, _, ⟨-, rfl⟩, reserve, _, hreserve, ⟨-, rfl, -⟩, rfl⟩ := h
    obtain ⟨hle, rfl⟩ := initializedReserve_eq_ok hreserve
    refine ⟨fun data' hdata ↦ ?_, by simp, rfl⟩
    cases hdata
    exact hle
  | stake data stake =>
    simp only [withdrawTerms, bind_eq_ok, ensure_eq_ok, ofOption_eq_ok, checkedSum_eq_ok,
      checkedAdd_eq_some, pure_eq_ok, mk.injEq] at h
    obtain ⟨_, _, ⟨-, rfl⟩, staked, _, ⟨hstaked, rfl⟩, _, _, ⟨⟨-, rfl⟩, rfl⟩, ⟨-, rfl, -⟩, rfl⟩ := h
    refine ⟨by simp, fun data' stake' hstate ↦ ?_, rfl⟩
    cases hstate
    exact ⟨staked, hstaked, rfl⟩

lemma withdraw_eq_ok (h : withdraw ops self lamports recipient clock stakeHistory
      withdrawAuthority custodian preventWithdrawToZero s = some (.ok u, s')) :
    ∃ authority state lockup reserve isStaked, withdrawAuthority = some authority ∧
      (s self).state = some state ∧
      withdrawTerms ops self clock stakeHistory {authority} preventWithdrawToZero state s =
        some (.ok (lockup, reserve, isStaked), s) ∧
      lockup.isInForce clock custodian = false ∧
      (isStaked = true ∨ lamports ≠ (s self).lamports → lamports + reserve ≤ (s self).lamports) ∧
      lamports ≤ (s self).lamports ∧
      ((s.closeIfAll self lamports).debit self lamports).credit recipient lamports = s' := by
  simp only [withdraw, bind_eq_ok, okOr_eq_ok, getState_eq_ok, failIf_eq_ok, checkedSum_eq_ok,
    checkedAdd_eq_some, getLamports_bind, checkedAddLamports_eq_ok, checkedSubLamports_eq_ok] at h
  obtain ⟨authority, _, ⟨hauthority, rfl⟩, state, _, ⟨hstate, rfl⟩, ⟨lockup, reserve, isStaked⟩, _,
    hterms, _, _, ⟨hlockup, rfl⟩, _, _, ⟨⟨-, rfl⟩, rfl⟩, _, _, ⟨hstaked, rfl⟩, _, _,
      ⟨hnotAll, rfl⟩, _, _,
    hclose, _, _, ⟨hle, rfl⟩, -, rfl⟩ := h
  obtain ⟨-, -, rfl⟩ := withdrawTerms_eq_ok hterms
  obtain rfl := deinitializeIfAll_eq_ok hclose
  rw [lamports_closeIfAll] at hle
  refine ⟨authority, state, lockup, reserve, isStaked, hauthority, hstate, hterms, hlockup, ?_, hle,
    rfl⟩
  rintro (h | h)
  · simpa [h] using hstaked
  · simpa [h] using hnotAll

end

variable {history : Option StakeHistory} {pointValue : PointValue} {rewardedEpoch : Epoch}

lemma redeemStakeRewards_eq_some {stakersReward votersReward : ℕ}
    (h : stake.redeemStakeRewards ops rewardedEpoch pointValue voteState history =
      some (some (stake', stakersReward, votersReward))) :
    stake'.delegation =
      { stake.delegation with stake := stake.delegation.stake + stakersReward } := by
  simp only [Stake.redeemStakeRewards, bind_eq_some] at h
  obtain ⟨rewards, -, h⟩ := h
  cases rewards with
  | none => simp at h
  | some rewards =>
    simp only [bind_eq_some, checkedAdd_eq_some, Option.pure_def, Option.some.injEq, mk.injEq] at h
    obtain ⟨_, ⟨-, rfl⟩, rfl, rfl, -⟩ := h
    rfl

lemma redeemRewards_eq_ok {rewards : ℕ × ℕ}
    (h : redeemRewards ops rewardedEpoch self voteState pointValue history s =
      some (.ok rewards, s')) :
    ∃ data stake stake', (s self).state = some (.stake data stake) ∧
      stake.redeemStakeRewards ops rewardedEpoch pointValue voteState history =
        some (some (stake', rewards)) ∧
      (s.credit self rewards.1).withState self (.stake data stake') = s' := by
  simp only [redeemRewards, bind_eq_ok, getState_eq_ok] at h
  obtain ⟨state, _, ⟨hstate, rfl⟩, h⟩ := h
  cases state with
  | uninitialized | initialized data | rewardsPool => cases throw_eq_ok.mp h
  | stake data stake =>
    simp only [bind_eq_ok, ofOption_eq_ok] at h
    obtain ⟨payout, _, ⟨hpayout, rfl⟩, h⟩ := h
    cases payout with
    | none => cases throw_eq_ok.mp h
    | some payout =>
      simp only [bind_eq_ok, checkedAddLamports_eq_ok, setState_eq_ok, pure_eq_ok] at h
      obtain ⟨_, _, ⟨-, rfl⟩, _, _, ⟨-, rfl⟩, rfl, rfl⟩ := h
      exact ⟨data, stake, payout.1, hstate, hpayout, rfl⟩

end StakeProgram

namespace StakeOp

lemma processInstruction_eq_ok {instruction : StakeProgram Unit}
    (h : processInstruction self instruction s = some (.ok u, s')) :
    (s self).owner = stakeProgramId ∧ instruction s = some (.ok u, s') := by
  simp only [processInstruction, bind_eq_ok, get_bind, failIf_eq_ok] at h
  obtain ⟨_, _, ⟨howner, rfl⟩, h⟩ := h
  exact ⟨by simpa using howner, h⟩

end StakeOp

end Renec
