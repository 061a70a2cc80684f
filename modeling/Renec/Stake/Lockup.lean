import Renec.Stake.Effects

/-!
# Lockups

A lockup keeps the lamports of a stake account in place until a time or an epoch has passed, unless
its custodian signs.
-/

namespace Renec

open StakeAccounts

open StakeProgram

open Option

open Finset

open Exec

/-! ### Accounts that carry a lockup -/

def StakeState.metaData : StakeState → Option Meta
  | uninitialized => none
  | initialized data => some data
  | .stake data _ => some data
  | rewardsPool => none

variable {L : Lockup} {data : Meta} {account : StakeAccount}

namespace StakeAccount

def metaData (account : StakeAccount) : Option Meta := account.state.bind StakeState.metaData

/-- The account is initialized or staked with a lockup and a withdraw authority. -/
def Carries (L : Lockup) (withdrawer : Pubkey) (account : StakeAccount) : Prop :=
  ∃ data, account.metaData = some data ∧ data.lockup = L ∧ data.authorized.withdrawer = withdrawer

/-- The lamports of an account that carries a lockup. -/
def locked (L : Lockup) (account : StakeAccount) : ℕ :=
  if account.metaData.any fun data ↦ data.lockup == L then account.lamports else 0

variable {W : Pubkey}

lemma Carries.locked_eq (h : account.Carries L W) : account.locked L = account.lamports := by
  obtain ⟨data, hdata, rfl, -⟩ := h
  rw [locked, hdata]
  simp

lemma locked_of_metaData (hdata : account.metaData = some data) :
    account.locked L = if data.lockup = L then account.lamports else 0 := by
  rw [locked, hdata]
  simp

lemma locked_of_none (h : account.metaData = none) : account.locked L = 0 := by
  rw [locked, h]
  simp

lemma locked_eq_zero (h : ∀ W, ¬ account.Carries L W) : account.locked L = 0 := by
  cases hdata : account.metaData with
  | none => exact locked_of_none hdata
  | some data =>
    rw [locked_of_metaData hdata, if_neg fun hL ↦ h _ ⟨data, hdata, hL, rfl⟩]

lemma metaData_eq {state : StakeState} (h : account.state = some state) :
    account.metaData = state.metaData := by
  rw [metaData, h]
  rfl

lemma not_carries_of_none (h : account.metaData = none) : ¬ account.Carries L W := by
  rintro ⟨data, hdata, -⟩
  rw [h] at hdata
  cases hdata

end StakeAccount

open StakeAccount

noncomputable instance : Fintype Pubkey :=
  Fintype.ofInjective (fun key ↦ key.bits.toFin) fun a b h ↦ by
    cases a
    cases b
    exact congrArg Pubkey.mk (BitVec.toFin_inj.mp h)

/-- The total lamports of the accounts that carry a lockup. -/
noncomputable def StakeAccounts.locked (L : Lockup) (accounts : StakeAccounts) : ℕ :=
  ∑ key, (accounts key).locked L

/-! ### Steps -/

/-- Every account that carries the lockup keeps it, its withdraw authority and its lamports. -/
def Keeps (L : Lockup) (s s' : StakeAccounts) : Prop :=
  ∀ k W, (s k).Carries L W → (s' k).Carries L W ∧ (s k).lamports ≤ (s' k).lamports

/-- Lamports move from one account to another, all of them if `full`. -/
structure Transfer (L : Lockup) (source target : Pubkey) (full : Prop) (s s' : StakeAccounts) :
    Prop where
  ne : source ≠ target
  other : ∀ k, k ≠ source → k ≠ target → s' k = s k
  /-- The target carries the lockup of the source, which keeps it unless it is emptied. -/
  source_carries : ∀ W, (s source).Carries L W → (s' target).Carries L W ∧
    (¬ full → (s' source).Carries L W) ∧ (full → (s' source).lamports = 0)
  target_carries : ∀ W, (s target).Carries L W → (s' target).Carries L W
  balance : (s source).locked L + (s target).locked L ≤ (s' source).locked L + (s' target).locked L

variable {s s' : StakeAccounts} {source : Pubkey}

section

variable {target : Pubkey} {full : Prop}

lemma keeps_of_metaData (h : ∀ k W, (s k).Carries L W →
    (s' k).metaData = (s k).metaData ∧ (s k).lamports ≤ (s' k).lamports) : Keeps L s s' := by
  intro k W hk
  obtain ⟨hmeta, hle⟩ := h k W hk
  obtain ⟨data, hdata, hL, hW⟩ := hk
  exact ⟨⟨data, hmeta.trans hdata, hL, hW⟩, hle⟩

lemma Keeps.locked_le (h : Keeps L s s') : s.locked L ≤ s'.locked L := by
  refine sum_le_sum fun k _ ↦ ?_
  by_cases hk : ∃ W, (s k).Carries L W
  · obtain ⟨W, hW⟩ := hk
    obtain ⟨hW', hle⟩ := h k W hW
    rw [hW.locked_eq, hW'.locked_eq]
    exact hle
  rw [locked_eq_zero fun W hW ↦ hk ⟨W, hW⟩]
  exact Nat.zero_le _

lemma Transfer.locked_le (h : Transfer L source target full s s') : s.locked L ≤ s'.locked L := by
  have hsplit : ∀ t : StakeAccounts, t.locked L = (t source).locked L + (t target).locked L +
      ∑ k ∈ (Finset.univ.erase source).erase target, (t k).locked L := by
    intro t
    rw [StakeAccounts.locked, ← add_sum_erase _ _ (mem_univ source),
      ← add_sum_erase _ _ (mem_erase.mpr ⟨h.ne.symm, mem_univ target⟩), Nat.add_assoc]
  rw [hsplit s, hsplit s']
  refine Nat.add_le_add h.balance (sum_le_sum fun k hk ↦ ?_)
  rw [mem_erase, mem_erase] at hk
  rw [h.other k hk.2.1 hk.1]

end

/-! ### What the operations do to a lockup in force -/

variable {clock : Clock} {u : Unit} {k : Pubkey}

section

variable {t : StakeAccounts} {self key : Pubkey} {lamports : ℕ} {signers : Finset Pubkey}
  {ops : FloatOps} {stakeHistory : StakeHistory} {custodian : Option Pubkey}

lemma isInForce_of_custodian (hforce : L.isInForce clock none = true)
    (hcustodian : custodian ≠ some L.custodian) : L.isInForce clock custodian = true := by
  rw [Lockup.isInForce, if_neg hcustodian]
  exact hforce

@[simp] lemma metaData_withState (state : StakeState) (k : Pubkey) :
    (s.withState key state k).metaData = if k = key then state.metaData else (s k).metaData := by
  rw [metaData, state_withState]
  split_ifs <;> rfl

@[simp] lemma metaData_credit (k : Pubkey) :
    (s.credit key lamports k).metaData = (s k).metaData := by
  rw [metaData, state_credit]
  rfl

@[simp] lemma metaData_debit (k : Pubkey) :
    (s.debit key lamports k).metaData = (s k).metaData := by
  rw [metaData, state_debit]
  rfl

@[simp] lemma metaData_closeIfAll (k : Pubkey) : (s.closeIfAll key lamports k).metaData =
      if k = key ∧ lamports = (s key).lamports then none else (s k).metaData := by
  rw [metaData, state_closeIfAll]
  split_ifs <;> rfl

variable {state : StakeState}

lemma keeps_withState (h : ∀ W, (s self).Carries L W → state.metaData = (s self).metaData) :
    Keeps L s (s.withState self state) := by
  refine keeps_of_metaData fun k W hk ↦ ⟨?_, by simp⟩
  rw [metaData_withState]
  split_ifs with heq
  · subst heq
    exact h W hk
  · rfl

lemma keeps_changeMeta {change : Meta → Outcome InstructionError Meta}
    (hchange : ∀ data data', data.lockup = L → change data = .ok data' →
      data'.lockup = L ∧ data'.authorized.withdrawer = data.authorized.withdrawer)
    (h : changeMeta self change s = some (.ok u, s')) : Keeps L s s' := by
  obtain ⟨data, data', hdata, hstate⟩ := changeMeta_eq_ok h
  have hmeta : ∃ state state' : StakeState, (s self).state = some state ∧
      state.metaData = some data ∧ state'.metaData = some data' ∧ s.withState self state' = s' := by
    rcases hstate with ⟨hs, hs'⟩ | ⟨stake, hs, hs'⟩
    · exact ⟨_, _, hs, rfl, rfl, hs'⟩
    · exact ⟨_, _, hs, rfl, rfl, hs'⟩
  obtain ⟨state, state', hs, hmeta, hmeta', rfl⟩ := hmeta
  intro k W hk
  refine ⟨?_, by simp⟩
  by_cases heq : k = self
  · subst heq
    obtain ⟨d, hd, hL, hW⟩ := hk
    rw [metaData, hs, bind_some, hmeta] at hd
    cases hd
    obtain ⟨hL', hW'⟩ := hchange _ _ hL hdata
    exact ⟨data', by rw [metaData_withState, if_pos rfl, hmeta'], hL', hW'.trans hW⟩
  obtain ⟨d, hd, hL, hW⟩ := hk
  exact ⟨d, by rw [metaData_withState, if_neg heq, hd], hL, hW⟩

lemma keeps_authorize {newAuthority : Pubkey} {stakeAuthorize : StakeAuthorize}
    (hforce : L.isInForce clock none = true) (hsigners : L.custodian ∉ signers)
    (h : authorize self signers newAuthority stakeAuthorize true clock custodian s =
      some (.ok u, s')) : Keeps L s s' := by
  refine keeps_changeMeta (fun data data' hL hchange ↦ ?_) h
  simp only [if_true, Outcome.bind_eq_ok, Outcome.pure_eq_ok, Outcome.ok.injEq] at hchange
  obtain ⟨authorized, hauthorize, rfl⟩ := hchange
  refine ⟨hL, ?_⟩
  cases stakeAuthorize with
  | staker =>
    simp only [Authorized.authorize, Outcome.bind_eq_ok, Outcome.pure_eq_ok,
      Outcome.ok.injEq] at hauthorize
    obtain ⟨_, -, rfl⟩ := hauthorize
    rfl
  | withdrawer =>
    simp only [Authorized.authorize, Outcome.bind_eq_ok, Authorized.checkCustodian, hL, hforce,
      if_true] at hauthorize
    obtain ⟨_, hcheck, -⟩ := hauthorize
    cases custodian with
    | none => cases hcheck
    | some custodian =>
      simp only [Outcome.bind_eq_ok, Outcome.failIf_eq_ok, decide_eq_false_iff_not,
        not_not] at hcheck
      obtain ⟨_, hmem, hlockup⟩ := hcheck
      -- the custodian given signs, so it is not the one of the lockup
      have hne : some custodian ≠ some L.custodian := fun heq ↦ hsigners (some.inj heq ▸ hmem)
      rw [isInForce_of_custodian hforce hne] at hlockup
      cases hlockup

lemma keeps_setLockup {lockup : LockupArgs} (hforce : L.isInForce clock none = true)
    (hsigners : L.custodian ∉ signers)
    (h : setLockup self lockup signers (some clock) s = some (.ok u, s')) :
    Keeps L s s' := by
  refine keeps_changeMeta (fun data data' hL hchange ↦ ?_) h
  simp only [Meta.setLockup, hL, hforce, if_true, Outcome.bind_eq_ok, Outcome.failIf_eq_ok,
    decide_eq_false_iff_not, not_not] at hchange
  obtain ⟨_, hmem, -⟩ := hchange
  exact absurd hmem hsigners

lemma keeps_delegate {voteAccount : VoteAccount} {warmupCooldownRate : F64}
    {canReverseDeactivation : Bool}
    (h : delegate ops self voteAccount clock stakeHistory warmupCooldownRate signers
      canReverseDeactivation s = some (.ok u, s')) : Keeps L s s' := by
  obtain ⟨data, _, stake', -, rfl, hstate⟩ := delegate_eq_ok h
  refine keeps_withState fun W _ ↦ ?_
  rcases hstate with ⟨hs, -⟩ | ⟨stake, hs, -⟩
  · exact (metaData_eq hs).symm
  · exact (metaData_eq hs).symm

lemma keeps_deactivate (h : deactivate self clock signers s = some (.ok u, s')) :
    Keeps L s s' := by
  obtain ⟨data, stake, stake', hs, -, rfl⟩ := deactivate_eq_ok h
  refine keeps_withState fun W _ ↦ ?_
  exact (metaData_eq hs).symm

lemma keeps_initializeStake {authorized : Authorized} {lockup : Lockup} {rent : ℕ → ℕ}
    (h : initializeStake self authorized lockup rent s = some (.ok u, s')) :
    Keeps L s s' := by
  obtain ⟨-, hs, -, rfl⟩ := initializeStake_eq_ok h
  refine keeps_withState fun W hW ↦ absurd hW (not_carries_of_none ?_)
  exact metaData_eq hs

lemma keeps_credit : Keeps L s (s.credit self lamports) :=
  keeps_of_metaData fun k _ _ ↦ ⟨by simp, by simp⟩

lemma keeps_redeemRewards {rewardedEpoch : Epoch} {pointValue : PointValue}
    {voteState : VoteState} {history : Option StakeHistory} {rewards : ℕ × ℕ}
    (h : redeemRewards ops rewardedEpoch self voteState pointValue history s =
      some (.ok rewards, s')) : Keeps L s s' := by
  obtain ⟨data, stake, stake', hs, -, rfl⟩ := redeemRewards_eq_ok h
  refine keeps_of_metaData fun k W hk ↦ ⟨?_, by simp⟩
  rw [metaData_withState]
  split_ifs with heq
  · subst heq
    exact (metaData_eq hs).symm
  · exact metaData_credit k

lemma keeps_withdraw {recipient : Pubkey} {withdrawAuthority : Option Pubkey}
    {preventWithdrawToZero : Bool} (hforce : L.isInForce clock none = true)
    (hcustodian : custodian ≠ some L.custodian)
    (h : StakeProgram.withdraw ops self lamports recipient clock stakeHistory withdrawAuthority
      custodian preventWithdrawToZero s = some (.ok u, s')) : Keeps L s s' := by
  obtain ⟨authority, state, lockup, reserve, isStaked, -, hs, hterms, hlockup, -, -, rfl⟩ :=
    withdraw_eq_ok h
  have hself : ∀ W, ¬ (s self).Carries L W := by
    rintro W ⟨data, hdata, hL, -⟩
    have hdata' : lockup = data.lockup := by
      rw [metaData, hs, bind_some] at hdata
      cases state with
      | uninitialized | rewardsPool => cases hdata
      | initialized data =>
        cases hdata
        simp only [withdrawTerms, bind_eq_ok, ensure_eq_ok, pure_eq_ok, Prod.mk.injEq] at hterms
        obtain ⟨_, _, -, _, _, -, ⟨rfl, -, -⟩, -⟩ := hterms
        rfl
      | stake data stake =>
        cases hdata
        simp only [withdrawTerms, bind_eq_ok, ensure_eq_ok,
          ofOption_eq_ok, checkedSum_eq_ok, pure_eq_ok, Prod.mk.injEq] at hterms
        obtain ⟨_, _, -, _, _, -, _, _, -, ⟨rfl, -, -⟩, -⟩ := hterms
        rfl
    rw [hdata', hL, isInForce_of_custodian hforce hcustodian] at hlockup
    cases hlockup
  refine keeps_of_metaData fun k W hk ↦ ?_
  have hne : k ≠ self := fun heq ↦ hself W (heq ▸ hk)
  constructor
  · simp [hne]
  · simp [hne]

/-! ### Split and merge -/

lemma StakeAccounts.withLamports_of_ne (h : k ≠ key) : s.withLamports key lamports k = s k :=
  Function.update_of_ne h _ _

lemma StakeAccounts.withState_of_ne (h : k ≠ key) (state : StakeState) :
    s.withState key state k = s k :=
  Function.update_of_ne h _ _

lemma StakeAccounts.closeIfAll_of_ne (h : k ≠ key) : s.closeIfAll key lamports k = s k := by
  rw [closeIfAll]
  split_ifs
  · exact withState_of_ne h _
  · rfl

lemma transfer_split {splitKey : Pubkey} (data' : Meta) (hne : self ≠ splitKey)
    (hself : (s self).metaData = some data) (hsplit : (s splitKey).metaData = none)
    (hself' : (t self).metaData = some data) (hsplit' : (t splitKey).metaData = some data')
    (hlockup : data'.lockup = data.lockup) (hauthorized : data'.authorized = data.authorized)
    (hother : ∀ k, k ≠ self → k ≠ splitKey → t k = s k)
    (hlamports : ∀ k, (t k).lamports = (s k).lamports) (hle : lamports ≤ (s self).lamports) :
    Transfer L self splitKey (lamports = (s self).lamports) s
      (((t.closeIfAll self lamports).credit splitKey lamports).debit self lamports) := by
  have hmeta : ((((t.closeIfAll self lamports).credit splitKey lamports).debit self lamports)
      self).metaData = if lamports = (s self).lamports then none else some data := by
    simp [hself', hlamports]
  have hmeta' : ((((t.closeIfAll self lamports).credit splitKey lamports).debit self lamports)
      splitKey).metaData = some data' := by
    simp [hne.symm, hsplit']
  refine ⟨hne, fun k hk hk' ↦ ?_, ?_, ?_, ?_⟩
  · rw [debit, withLamports_of_ne hk, credit,
      withLamports_of_ne hk', closeIfAll_of_ne hk, hother k hk hk']
  · rintro W ⟨d, hd, hL, hW⟩
    obtain rfl : data = d := some.inj (hself.symm.trans hd)
    refine ⟨⟨data', hmeta', hlockup.trans hL, by rw [hauthorized, hW]⟩, fun hnot ↦ ?_,
      fun hall ↦ ?_⟩
    · exact ⟨data, by rw [hmeta, if_neg hnot], hL, hW⟩
    · simp [hne, hlamports, hall]
  · exact fun W hW ↦ absurd hW (not_carries_of_none hsplit)
  rw [locked_of_none hsplit, locked_of_metaData hself, locked_of_metaData hmeta', hlockup]
  split_ifs with hL
  · by_cases hall : lamports = (s self).lamports
    · rw [locked_of_none (hmeta.trans (if_pos hall))]
      simp [hne.symm, hall]
    rw [locked_of_metaData (hmeta.trans (if_neg hall)), if_pos hL]
    simp [hne, hne.symm, hlamports]
    omega
  · exact Nat.zero_le _

lemma keeps_or_transfer_split {splitKey : Pubkey}
    (h : split self lamports splitKey signers s = some (.ok u, s')) :
    (Keeps L s s' ∧ ∀ W, ¬ (s self).Carries L W) ∨
      Transfer L self splitKey (lamports = (s self).lamports) s s' := by
  obtain ⟨-, hnew, hle, t, heffect, rfl⟩ := split_eq_ok h
  have hsplit : (s splitKey).metaData = none := metaData_eq hnew
  have hne : ∀ data, (s self).metaData = some data → self ≠ splitKey := by
    rintro data hdata rfl
    rw [hsplit] at hdata
    cases hdata
  cases heffect with
  | uninitialized hstate =>
    have hself : (s self).metaData = none := metaData_eq hstate
    refine .inl ⟨keeps_of_metaData fun k W hk ↦ ?_, fun W ↦ not_carries_of_none hself⟩
    have hk₁ : k ≠ self := fun heq ↦ not_carries_of_none hself (heq ▸ hk)
    constructor
    · simp [hk₁]
    · simp [hk₁]
  | @initialized data reserve hstate hcheck =>
    have hself : (s self).metaData = some data := metaData_eq hstate
    have hne' := hne data hself
    refine .inr (transfer_split { data with rentExemptReserve := reserve } hne' hself hsplit
      ?_ ?_ rfl rfl (fun k _ hk ↦ ?_) (fun k ↦ ?_) hle)
    · rw [metaData_withState, if_neg hne', hself]
    · rw [metaData_withState, if_pos rfl]
      rfl
    · exact withState_of_ne hk _
    · exact lamports_withState ..
  | @stake data stake rest new reserve delta amount hstate hcheck hamounts hstakeSplit =>
    have hself : (s self).metaData = some data := metaData_eq hstate
    have hne' := hne data hself
    refine .inr (transfer_split { data with rentExemptReserve := reserve } hne' hself hsplit
      ?_ ?_ rfl rfl (fun k hk hk' ↦ ?_) (fun k ↦ ?_) hle)
    · rw [metaData_withState, if_neg hne', metaData_withState, if_pos rfl]
      rfl
    · rw [metaData_withState, if_pos rfl]
      rfl
    · rw [withState_of_ne hk', withState_of_ne hk]
    · rw [lamports_withState, lamports_withState]

section

variable {canMergeExpiredLockups unmatchedCredits : Bool} {kind sourceKind : StakeProgram.MergeKind}

lemma metaData_of_describes (h : kind.Describes account) : account.metaData = some kind.data := by
  cases kind with
  | inactive data lamports =>
    rcases h.2 with hstate | ⟨stake, hstate⟩
    · exact metaData_eq hstate
    · exact metaData_eq hstate
  | activationEpoch data stake | fullyActive data stake =>
    rw [metaData, show account.state = _ from h]
    rfl

lemma metaData_of_mergeEffect
    (h : StakeProgram.MergeKind.MergeEffect kind sourceKind (some state)) :
    state.metaData = some kind.data := by
  cases h <;> rfl

lemma eq_of_metasCanMerge {sourceData : Meta} {clock' : Option Clock}
    (hforce : L.isInForce clock none = true) (hclock : ∀ c, clock' = some c → c = clock)
    (hL : data.lockup = L ∨ sourceData.lockup = L)
    (h : StakeProgram.MergeKind.metasCanMerge data sourceData clock' = .ok ()) :
    data.lockup = L ∧ sourceData.lockup = L ∧ data.authorized = sourceData.authorized := by
  simp only [StakeProgram.MergeKind.metasCanMerge, Outcome.failIf_eq_ok, Bool.not_eq_false',
    Bool.and_eq_true, Bool.or_eq_true, beq_iff_eq] at h
  obtain ⟨hauthorized, hlockups⟩ := h
  have hsame : data.lockup = sourceData.lockup := by
    refine hlockups.resolve_right fun hexpired ↦ ?_
    obtain ⟨c, hc, hnot⟩ := (any_eq_true _ _).mp hexpired
    obtain rfl := hclock c hc
    rw [Bool.and_eq_true, Bool.not_eq_true', Bool.not_eq_true'] at hnot
    rcases hL with rfl | rfl
    · rw [hforce] at hnot
      cases hnot.1
    rw [hforce] at hnot
    cases hnot.2
  rcases hL with hL | hL
  · exact ⟨hL, hsame ▸ hL, hauthorized⟩
  · exact ⟨hsame.trans hL, hL, hauthorized⟩

lemma transfer_merge (hforce : L.isInForce clock none = true)
    (h : StakeProgram.merge ops self source clock stakeHistory signers canMergeExpiredLockups
      unmatchedCredits s = some (.ok u, s')) : Transfer L source self True s s' := by
  obtain ⟨hne, kind, sourceKind, merged, t, hkind, hsourceKind, hmetas, heffect, ht, rfl⟩ :=
    merge_eq_ok h
  have hself := metaData_of_describes hkind
  have hsource := metaData_of_describes hsourceKind
  have hsame := fun hL ↦ eq_of_metasCanMerge hforce
    (fun c hc ↦ by cases canMergeExpiredLockups <;> simp_all) hL hmetas
  -- whether its state changes or not, the destination keeps its meta data
  obtain ⟨hself', hother, hlamports⟩ : (t self).metaData = some kind.data ∧
      (∀ k, k ≠ self → t k = s k) ∧ ∀ k, (t k).lamports = (s k).lamports := by
    rcases ht with ⟨-, rfl⟩ | ⟨state, rfl, rfl⟩
    · exact ⟨hself, fun _ _ ↦ rfl, fun _ ↦ rfl⟩
    exact ⟨by rw [metaData_withState, if_pos rfl, metaData_of_mergeEffect heffect],
      fun k hk ↦ withState_of_ne hk _, fun k ↦ lamports_withState ..⟩
  have hmeta : ((((t.withState source .uninitialized).debit source (s source).lamports).credit self
      (s source).lamports) self).metaData = some kind.data := by
    simp [hne.symm, hself']
  refine ⟨hne, fun k hk hk' ↦ ?_, ?_, ?_, ?_⟩
  · rw [credit, withLamports_of_ne hk', debit,
      withLamports_of_ne hk, withState_of_ne hk, hother k hk']
  · rintro W ⟨d, hd, hL, hW⟩
    obtain rfl : sourceKind.data = d := some.inj (hsource.symm.trans hd)
    obtain ⟨hL', -, hauthorized⟩ := hsame (.inr hL)
    refine ⟨⟨kind.data, hmeta, hL', by rw [hauthorized, hW]⟩, fun hnot ↦ absurd trivial hnot,
      fun _ ↦ ?_⟩
    simp [hne, hlamports]
  · rintro W ⟨d, hd, hL, hW⟩
    obtain rfl : kind.data = d := some.inj (hself.symm.trans hd)
    exact ⟨kind.data, hmeta, hL, hW⟩
  rw [locked_of_metaData hsource, locked_of_metaData hself, locked_of_metaData hmeta]
  by_cases hL : kind.data.lockup = L
  · rw [if_pos hL, if_pos hL, if_pos (hsame (.inl hL)).2.1]
    simp [hne.symm, hlamports]
    omega
  rw [if_neg hL, if_neg hL, if_neg fun hL' ↦ hL (hsame (.inr hL')).1]
  exact Nat.zero_le _

end

end

/-! ### Runs -/

/-- The keys that sign an operation. -/
def StakeOp.signers : StakeOp → Finset Pubkey
  | .authorize _ signers _ _ _ _ => signers
  | .setLockup _ _ signers _ => signers
  | .delegate _ _ _ _ signers _ => signers
  | .deactivate _ signers => signers
  | .split _ _ _ signers => signers
  | .merge _ _ _ signers _ _ => signers
  | .withdraw _ _ _ _ withdrawAuthority custodian _ => withdrawAuthority.toFinset ∪
    custodian.toFinset
  | .initializeStake .. => ∅
  | .redeemRewards .. => ∅
  | .deposit .. => ∅

/-- A clock is passed to `set_lockup`, and the custodian is required by `authorize`. -/
def StakeOp.guarded : StakeOp → Bool
  | .authorize _ _ _ _ requireCustodian _ => requireCustodian
  | .setLockup _ _ _ useClock => useClock
  | _ => true

/-- What can happen to the accounts: the operations on stake accounts, with `authorize_with_seed`.
-/
inductive LockupOp where
  | operation (op : StakeOp)
  | authorizeWithSeed (self : Pubkey) (authorityBase : Option Pubkey) (authoritySeed : String)
      (authorityOwner newAuthority : Pubkey) (stakeAuthorize : StakeAuthorize)
      (custodian : Option Pubkey)

section

variable (ops : FloatOps)
  (createWithSeed : Pubkey → String → Pubkey → Outcome InstructionError Pubkey)

namespace LockupOp

def exec (clock : Clock) : LockupOp → StakeProgram Unit
  | operation op => op.exec ops clock
  | authorizeWithSeed self base seed owner newAuthority stakeAuthorize custodian =>
    StakeOp.processInstruction self (StakeProgram.authorizeWithSeed createWithSeed self base seed
      owner newAuthority stakeAuthorize true clock custodian)

/-- Whether a key signs: a derived key does if its base key does. -/
def signedBy (key : Pubkey) : LockupOp → Bool
  | operation op => decide (key ∈ op.signers)
  | authorizeWithSeed _ base seed owner _ _ _ =>
    base.any fun base ↦ decide (createWithSeed base seed owner = .ok key)

def guarded : LockupOp → Bool
  | operation op => op.guarded
  | authorizeWithSeed .. => true

end LockupOp

/-- The accounts, with the accounts of the start whose lamports went to each of them. -/
structure LockupWorld where
  accounts : StakeAccounts
  origins : Pubkey → Finset Pubkey

/-- Lamports move from `source` to `target`, all of them if `full`. -/
def moveOrigins (source target : Pubkey) (full : Bool) (origins : Pubkey → Finset Pubkey) :
    Pubkey → Finset Pubkey := fun k ↦
  if k = target then origins target ∪ origins source
  else if k = source ∧ full then ∅
  else origins k

/-- Only splits and merges move lamports between stake accounts. -/
def LockupOp.origins (accounts : StakeAccounts) (origins : Pubkey → Finset Pubkey) :
    LockupOp → Pubkey → Finset Pubkey
  | operation (.split self lamports splitKey _) =>
    moveOrigins self splitKey (decide (lamports = (accounts self).lamports)) origins
  | operation (.merge self source _ _ _ _) => moveOrigins source self true origins
  | _ => origins

/-- A step, while a lockup is in force and without a signature of its custodian. -/
def lockupStep (L : Lockup) (w : LockupWorld) (event : Clock × LockupOp) : Option LockupWorld :=
  if L.isInForce event.1 none ∧ !event.2.signedBy createWithSeed L.custodian ∧ event.2.guarded then
    match event.2.exec ops createWithSeed event.1 w.accounts with
    | some (.ok (), accounts) => some ⟨accounts, event.2.origins w.accounts w.origins⟩
    | _ => none
  else none

/-- The world at the start: an account that carries the lockup is its own origin. -/
def LockupWorld.init (L : Lockup) (accounts : StakeAccounts) : LockupWorld :=
  ⟨accounts, fun k ↦ if (accounts k).metaData.any fun data ↦ data.lockup == L then {k} else ∅⟩

variable {ops createWithSeed} {w w' : LockupWorld}

section

variable (L : Lockup) (s s' : StakeAccounts) (op : LockupOp)

/-- An account that does not carry the lockup holds no lamports of one that did. -/
def Tracks (s : StakeAccounts) (origins : Pubkey → Finset Pubkey) : Prop :=
  ∀ k, (∀ W, ¬ (s k).Carries L W) → origins k = ∅

/-- All accounts keep the lockup, and no origins are added. -/
def KeepsTracked : Prop :=
  Keeps L s s' ∧ ∀ origins, Tracks L s origins → ∀ k, op.origins s origins k ⊆ origins k

/-- Lamports move, and their origins with them. -/
def TransfersTracked : Prop := ∃ source target full, Transfer L source target (full = true) s s' ∧
    ∀ origins, op.origins s origins = moveOrigins source target full origins

end

variable {op : LockupOp}

lemma Keeps.tracked (h : Keeps L s s') (horigins : ∀ origins, op.origins s origins = origins) :
    KeepsTracked L s s' op :=
  ⟨h, fun origins _ k ↦ by rw [horigins]⟩

/-- What an operation does to a lockup in force: the accounts keep it, or lamports move between two
accounts that carry it. -/
theorem StakeOp.keeps_or_transfers {op : StakeOp} (hforce : L.isInForce clock none = true)
    (hsigners : L.custodian ∉ op.signers) (hguarded : op.guarded = true)
    (h : op.exec ops clock s = some (.ok u, s')) :
    KeepsTracked L s s' (.operation op) ∨ TransfersTracked L s s' (.operation op) := by
  cases op with
  | initializeStake =>
    exact .inl ((keeps_initializeStake (processInstruction_eq_ok h).2).tracked fun _ ↦ rfl)
  | authorize self signers newAuthority stakeAuthorize requireCustodian custodian =>
    obtain rfl : requireCustodian = true := hguarded
    exact .inl ((keeps_authorize hforce hsigners (processInstruction_eq_ok h).2).tracked fun _ ↦
      rfl)
  | setLockup self lockup signers useClock =>
    obtain rfl : useClock = true := hguarded
    exact .inl ((keeps_setLockup hforce hsigners (processInstruction_eq_ok h).2).tracked fun _ ↦
      rfl)
  | delegate => exact .inl ((keeps_delegate (processInstruction_eq_ok h).2).tracked fun _ ↦ rfl)
  | deactivate => exact .inl ((keeps_deactivate (processInstruction_eq_ok h).2).tracked fun _ ↦ rfl)
  | split self lamports splitKey signers =>
    rcases keeps_or_transfer_split (L := L) (processInstruction_eq_ok h).2 with
      ⟨hkeeps, hself⟩ | htransfer
    · -- the source is not initialized, and has no origins to give
      refine .inl ⟨hkeeps, fun origins htracks k ↦ ?_⟩
      show moveOrigins self splitKey _ origins k ⊆ origins k
      rw [moveOrigins, htracks self hself, union_empty]
      split_ifs with hk hk'
      · rw [hk]
      · exact empty_subset _
      · exact subset_refl _
    refine .inr ⟨self, splitKey, decide (lamports = (s self).lamports), ?_, fun _ ↦ rfl⟩
    rwa [decide_eq_true_eq]
  | merge self source stakeHistory signers canMergeExpiredLockups unmatchedCredits =>
    refine .inr ⟨source, self, true, ?_, fun _ ↦ rfl⟩
    rw [eq_self_iff_true]
    exact transfer_merge hforce (processInstruction_eq_ok h).2
  | withdraw self lamports recipient stakeHistory withdrawAuthority custodian prevent =>
    have hcustodian : custodian ≠ some L.custodian := by
      rintro rfl
      exact hsigners (mem_union_right _ (mem_toFinset.mpr rfl))
    exact .inl ((keeps_withdraw hforce hcustodian (processInstruction_eq_ok h).2).tracked
      fun _ ↦ rfl)
  | redeemRewards =>
    obtain ⟨rewards, t, hredeem, ht⟩ := bind_eq_ok.mp h
    obtain ⟨-, rfl⟩ := pure_eq_ok.mp ht
    exact .inl ((keeps_redeemRewards hredeem).tracked fun _ ↦ rfl)
  | deposit =>
    obtain ⟨-, rfl⟩ := checkedAddLamports_eq_ok.mp h
    exact .inl (keeps_credit.tracked fun _ ↦ rfl)

lemma LockupOp.keeps_or_transfers (hforce : L.isInForce clock none = true)
    (hsigned : op.signedBy createWithSeed L.custodian = false) (hguarded : op.guarded = true)
    (h : op.exec ops createWithSeed clock s = some (.ok u, s')) :
    KeepsTracked L s s' op ∨ TransfersTracked L s s' op := by
  cases op with
  | operation op => exact op.keeps_or_transfers hforce (of_decide_eq_false hsigned) hguarded h
  | authorizeWithSeed self base seed owner newAuthority stakeAuthorize custodian =>
    obtain ⟨-, h⟩ := StakeOp.processInstruction_eq_ok h
    simp only [StakeProgram.authorizeWithSeed, bind_eq_ok, ensure_eq_ok] at h
    obtain ⟨signers, _, ⟨hbase, rfl⟩, h⟩ := h
    refine .inl ((keeps_authorize hforce (fun hmem ↦ ?_) h).tracked fun _ ↦ rfl)
    cases base with
    | none =>
      cases hbase
      exact notMem_empty _ hmem
    | some base =>
      obtain ⟨derived, hderived, hsigners⟩ := Outcome.bind_eq_ok.mp hbase
      cases hsigners
      obtain rfl := mem_singleton.mp hmem
      simp only [signedBy, any_some, decide_eq_false_iff_not] at hsigned
      exact hsigned hderived

/-- The invariant: what came from an account that carried the lockup is in accounts that carry it,
with the same withdraw authority. -/
def LockupInv (L : Lockup) (start : StakeAccounts) (w : LockupWorld) : Prop :=
  ∀ k k₀, k₀ ∈ w.origins k → ∃ W, (start k₀).Carries L W ∧ (w.accounts k).Carries L W

lemma LockupInv.tracks {start : StakeAccounts} (h : LockupInv L start w) :
    Tracks L w.accounts w.origins := by
  refine fun k hk ↦ eq_empty_iff_forall_notMem.mpr fun k₀ hk₀ ↦ ?_
  obtain ⟨W, -, hW⟩ := h k k₀ hk₀
  exact hk W hW

variable {event : Clock × LockupOp}

lemma lockupStep_eq_some (h : lockupStep ops createWithSeed L w event = some w') :
    (KeepsTracked L w.accounts w'.accounts event.2 ∨
        TransfersTracked L w.accounts w'.accounts event.2) ∧
      w'.origins = event.2.origins w.accounts w.origins := by
  simp only [lockupStep, ite_none_right_eq_some] at h
  obtain ⟨⟨hforce, hsigned, hguarded⟩, h⟩ := h
  split at h
  · rename_i accounts hexec
    cases h
    exact ⟨event.2.keeps_or_transfers hforce (by simpa using hsigned) hguarded hexec, rfl⟩
  · cases h

/-- One step keeps the invariant. -/
theorem LockupInv.step {start : StakeAccounts} (hw : LockupInv L start w)
    (h : lockupStep ops createWithSeed L w event = some w') : LockupInv L start w' := by
  obtain ⟨heffect, horigins⟩ := lockupStep_eq_some h
  intro k k₀ hk₀
  rw [horigins] at hk₀
  rcases heffect with ⟨hkeeps, hsubset⟩ | ⟨source, target, full, htransfer, hmove⟩
  · obtain ⟨W, hstart, hW⟩ := hw k k₀ (hsubset _ hw.tracks k hk₀)
    exact ⟨W, hstart, (hkeeps k W hW).1⟩
  rw [hmove, moveOrigins] at hk₀
  split_ifs at hk₀ with htarget hsource
  · subst htarget
    rcases mem_union.mp hk₀ with hk₀ | hk₀
    · obtain ⟨W, hstart, hW⟩ := hw k k₀ hk₀
      exact ⟨W, hstart, htransfer.target_carries W hW⟩
    obtain ⟨W, hstart, hW⟩ := hw source k₀ hk₀
    exact ⟨W, hstart, (htransfer.source_carries W hW).1⟩
  · exact absurd hk₀ (notMem_empty _)
  obtain ⟨W, hstart, hW⟩ := hw k k₀ hk₀
  by_cases heq : k = source
  · subst heq
    exact ⟨W, hstart, (htransfer.source_carries W hW).2.1 fun hfull ↦ hsource ⟨rfl, hfull⟩⟩
  rw [htransfer.other k heq htarget]
  exact ⟨W, hstart, hW⟩

lemma lockupInv_init (start : StakeAccounts) : LockupInv L start (.init L start) := by
  intro k k₀ hk₀
  replace hk₀ : k₀ ∈ if (start k).metaData.any fun data ↦ data.lockup == L then {k} else ∅ := hk₀
  split_ifs at hk₀ with hL
  · obtain rfl := mem_singleton.mp hk₀
    obtain ⟨data, hdata, hlockup⟩ := (any_eq_true _ _).mp hL
    have hcarries : (start k₀).Carries L data.authorized.withdrawer :=
      ⟨data, hdata, beq_iff_eq.mp hlockup, rfl⟩
    exact ⟨_, hcarries, hcarries⟩
  · exact absurd hk₀ (notMem_empty _)

lemma locked_le_of_step (h : lockupStep ops createWithSeed L w event = some w') :
    w.accounts.locked L ≤ w'.accounts.locked L := by
  rcases (lockupStep_eq_some h).1 with ⟨hkeeps, -⟩ | ⟨source, target, full, htransfer, -⟩
  · exact hkeeps.locked_le
  · exact htransfer.locked_le

lemma carries_of_step (h : lockupStep ops createWithSeed L w event = some w') {W : Pubkey}
    (hk : (w.accounts k).Carries L W) :
    (w'.accounts k).Carries L W ∨ (w'.accounts k).lamports = 0 := by
  rcases (lockupStep_eq_some h).1 with ⟨hkeeps, -⟩ | ⟨source, target, full, htransfer, -⟩
  · exact .inl (hkeeps k W hk).1
  by_cases hsource : k = source
  · subst hsource
    obtain ⟨-, hkept, hemptied⟩ := htransfer.source_carries W hk
    by_cases hfull : full = true
    · exact .inr (hemptied hfull)
    · exact .inl (hkept hfull)
  by_cases htarget : k = target
  · subst htarget
    exact .inl (htransfer.target_carries W hk)
  rw [htransfer.other k hsource htarget]
  exact .inl hk

/-- **A lockup cannot be escaped.** In every run of operations on stake accounts, while a lockup is
in force and its custodian does not sign: the total lamports of the accounts that carry it never
decrease; an account keeps it, with its withdraw authority, until it holds no lamports; and lamports
from an account that carried it at the start, through any splits and merges, are in one that carries
it with the same withdraw authority. -/
theorem lockup_inescapable {start : StakeAccounts} {events : List (Clock × LockupOp)}
    (h : events.foldlM (lockupStep ops createWithSeed L) (.init L start) = some w) :
    start.locked L ≤ w.accounts.locked L ∧
    (∀ event w', lockupStep ops createWithSeed L w event = some w' →
      w.accounts.locked L ≤ w'.accounts.locked L ∧ ∀ k W, (w.accounts k).Carries L W →
        (w'.accounts k).Carries L W ∨ (w'.accounts k).lamports = 0) ∧
    ∀ k k₀, k₀ ∈ w.origins k → ∃ W, (start k₀).Carries L W ∧ (w.accounts k).Carries L W := by
  have hrun : LockupInv L start w ∧ start.locked L ≤ w.accounts.locked L := by
    refine foldlM_some_induction (P := fun w ↦ LockupInv L start w ∧
      start.locked L ≤ w.accounts.locked L) ?_ h ⟨lockupInv_init start, le_refl _⟩
    intro event _ w₁ w₂ hw hstep
    exact ⟨hw.1.step hstep, hw.2.trans (locked_le_of_step hstep)⟩
  exact ⟨hrun.2, fun event w' hstep ↦ ⟨locked_le_of_step hstep, fun k W ↦ carries_of_step hstep⟩,
    hrun.1⟩

/-! ### A split of locked lamports -/

namespace LockedSplit

/-- A lockup until epoch 10. -/
def lockup : Lockup := ⟨0, 10, ⟨9#256⟩⟩

def stakeKey : Pubkey := ⟨1#256⟩

def splitKey : Pubkey := ⟨2#256⟩

def authority : Pubkey := ⟨3#256⟩

def start : StakeAccounts := fun key ↦
  if key = stakeKey then
    ⟨stakeProgramId, 2000, stakeStateSize,
      some (.initialized ⟨328, ⟨authority, authority⟩, lockup⟩)⟩
  else ⟨stakeProgramId, 0, stakeStateSize, some .uninitialized⟩

def events : List (Clock × LockupOp) :=
  [(⟨0, 0⟩, .operation (.split stakeKey 1000 splitKey {authority}))]

end LockedSplit

open LockedSplit in
theorem lockup_inescapable_split :
    ∃ w, events.foldlM (lockupStep ⟨fun _ _ _ _ ↦ 0, fun _ _ ↦ true⟩ (fun _ _ _ ↦ .panic) lockup)
        (.init lockup start) = some w ∧
      start.locked lockup ≤ w.accounts.locked lockup ∧ (w.accounts splitKey).lamports = 1000 ∧
      ∃ W, (start stakeKey).Carries lockup W ∧ (w.accounts splitKey).Carries lockup W := by
  have hrun : (events.foldlM (lockupStep ⟨fun _ _ _ _ ↦ 0, fun _ _ ↦ true⟩ (fun _ _ _ ↦ .panic)
      lockup) (.init lockup start)).any (fun w ↦ decide ((w.accounts splitKey).lamports = 1000 ∧
        stakeKey ∈ w.origins splitKey)) = true := by decide +kernel
  obtain ⟨w, hw, hlamports⟩ := (any_eq_true _ _).mp hrun
  obtain ⟨hlamports, horigin⟩ := of_decide_eq_true hlamports
  obtain ⟨hle, -, hcarries⟩ := lockup_inescapable hw
  exact ⟨w, hw, hle, hlamports, hcarries _ _ horigin⟩

end

end Renec
