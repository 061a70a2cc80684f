import Renec.Bank.CommitConservation

/-!
# Distribution of rent to validators

The shares are floors of the parts of the stakes in their total, and what is left is handed out one
lamport at a time. With `k` shares less than `k` lamports are left (`sum_shares`), if the total is
that of the stakes which share: an account whose vote state does not deserialize counts in the total
and gets no share, and then the assertion that nothing is left fails (`leftover_remains`).
-/

namespace Renec

open List Nat Prod

/-- A staked vote account, with the node of its vote state if that deserializes. -/
structure StakedVoteAccount where
  staked : ℕ
  nodePubkey : Option Pubkey

/-- A `RewardInfo` for rent. The lamports are cast to an `i64`. -/
structure RentReward where
  pubkey : Pubkey
  lamports : ℤ
  postBalance : ℕ

/-- The bank after payments: its accounts, the lamports taken off its capitalization, the rewards.
-/
structure RentPayments where
  db : BankAccounts
  burned : ℕ := 0
  rewards : List RentReward := []

namespace StakedVoteAccount

section

variable (accounts : List StakedVoteAccount) (rent : ℕ)

def totalStaked : Option ℕ :=
  accounts.foldlM (fun total account ↦ checkedAdd 64 total account.staked) 0

/-- The validators, by descending stake and address. -/
def validatorStakes : List (Pubkey × ℕ) :=
  (accounts.filterMap fun account ↦
    if account.staked = 0 then none else account.nodePubkey.map (·, account.staked)).insertionSort
      fun a b ↦ b.2 < a.2 ∨ a.2 = b.2 ∧ b.1 ≤ a.1

/-- The share of a stake, with the rounding fix. -/
def rentShare (rent total staked : ℕ) : Option ℕ := do
  let product ← checkedMul 128 staked rent
  if total = 0 ∨ 2 ^ 64 ≤ product / total then none else some (product / total)

/-- The lamports to be paid, with one more for the first ones, and what is left in the end. -/
def rentToBePaid : ℕ → List ℕ → Option (List ℕ × ℕ)
  | leftover, [] => some ([], leftover)
  | leftover, share :: shares => do
    let due ← if 0 < leftover then checkedAdd 64 share 1 else some share
    let (dues, left) ← rentToBePaid (leftover - 1) shares
    return (due :: dues, left)

/-- What each validator is due. -/
def rentDues : Option (List (Pubkey × ℕ)) := do
  let total ← totalStaked accounts
  let stakes := validatorStakes accounts
  if stakes.isEmpty then none
  else
    let shares ← stakes.mapM fun v ↦ rentShare rent total v.2
    let distributed ← shares.foldlM (checkedAdd 64) 0
    let (dues, left) ← rentToBePaid (← checkedSub rent distributed) shares
    -- the final assertion
    if left = 0 then some ((stakes.map fst).zip dues) else none

/-- A payment. What does not fit the balance is burned. -/
def pay (s : RentPayments) (due : Pubkey × ℕ) : RentPayments :=
  if due.2 = 0 then s
  else
    match checkedAdd 64 (s.db due.1).lamports due.2 with
    | some lamports =>
      { s with
        db := Function.update s.db due.1 { s.db due.1 with lamports := lamports }
        rewards := s.rewards ++ [⟨due.1, Int.bmod due.2 (2 ^ 64), lamports⟩] }
    | none => { s with burned := s.burned + due.2 }

/-- `distribute_rent_to_validators`, with the rounding fix. -/
def distributeRentToValidators (db : BankAccounts) : Option RentPayments := do
  return (← rentDues accounts rent).foldl pay { db }

end

/-! ### Shares -/

variable {rent total leftover : ℕ} {l shares : List ℕ} {accounts : List StakedVoteAccount}

lemma foldlM_checkedAdd {n m : ℕ} (hn : n < 2 ^ 64) :
    l.foldlM (checkedAdd 64) n = some m ↔ n + l.sum < 2 ^ 64 ∧ n + l.sum = m := by
  induction l generalizing n with
  | nil => exact ⟨fun h ↦ ⟨hn, Option.some.inj h⟩, fun h ↦ congrArg some h.2⟩
  | cons a l ih =>
    rw [foldlM_cons, sum_cons, ← add_assoc]
    by_cases ha : n + a < 2 ^ 64
    · rw [checkedAdd_eq_some.mpr ⟨ha, rfl⟩, some_bind, ih ha]
    have hnone : checkedAdd 64 n a = none := if_neg ha
    rw [hnone]
    exact iff_of_false nofun fun h ↦ ha (by omega)

/-- Less than a lamport a share is lost by the floors. -/
theorem sum_shares (hpos : 0 < total) (stakes : List ℕ) :
    (stakes.map fun s ↦ s * rent / total).sum * total ≤ stakes.sum * rent ∧
      stakes.sum * rent + stakes.length ≤
        (stakes.map fun s ↦ s * rent / total).sum * total + stakes.length * total := by
  induction stakes with
  | nil => simp
  | cons s stakes ih =>
    have hdiv := div_add_mod' (s * rent) total
    have hmod := mod_lt (s * rent) hpos
    simp only [map_cons, sum_cons, length_cons, add_mul, one_mul] at ih ⊢
    omega

/-- Each share gets one lamport of what is left, as long as there is one. -/
theorem exists_rentToBePaid (hfit : ∀ share ∈ shares, share + leftover < 2 ^ 64) :
    ∃ dues, rentToBePaid leftover shares = some (dues, leftover - shares.length) ∧
      dues.sum + (leftover - shares.length) = shares.sum + leftover ∧
      List.Forall₂ (fun share due ↦ share ≤ due ∧ due ≤ share + 1) shares dues := by
  induction shares generalizing leftover with
  | nil => exact ⟨[], rfl, rfl, .nil⟩
  | cons share shares ih =>
    obtain ⟨hshare, hfit⟩ := forall_mem_cons.mp hfit
    obtain ⟨dues, hdues, hsum, hnear⟩ := @ih (leftover - 1)
      fun share hmem ↦ (Nat.add_le_add_left (Nat.sub_le _ _) _).trans_lt (hfit share hmem)
    rw [Nat.sub_sub, Nat.add_comm 1] at hdues hsum
    rcases Nat.eq_zero_or_pos leftover with rfl | hpos
    · refine ⟨share :: dues, by rw [rentToBePaid, hdues]; rfl, ?_, .cons ⟨le_rfl, le_succ _⟩ hnear⟩
      simp only [sum_cons, length_cons]
      omega
    refine ⟨(share + 1) :: dues, ?_, ?_, .cons ⟨le_succ _, le_rfl⟩ hnear⟩
    · have hadd : checkedAdd 64 share 1 = some (share + 1) :=
        checkedAdd_eq_some.mpr ⟨by omega, rfl⟩
      simp only [rentToBePaid, if_pos hpos, hadd, hdues, some_bind]
      rfl
    simp only [sum_cons, length_cons]
    omega

section

variable (accounts : List StakedVoteAccount) (rent : ℕ)

/-- The stakes of the accounts that share the rent: those whose vote state deserializes. -/
def sharingStakes : List ℕ :=
  (accounts.filter fun a ↦ decide (a.staked ≠ 0) && a.nodePubkey.isSome).map staked

/-- Shares of all stakes in the total leave at most one lamport for each stake that shares. -/
def LeftoverCovered : Prop :=
  rent ≤ ((sharingStakes accounts).map fun s ↦ s * rent / (accounts.map staked).sum).sum +
    (sharingStakes accounts).length

lemma validatorStakes_perm : ((validatorStakes accounts).map snd).Perm
    (sharingStakes accounts) := by
  refine ((perm_insertionSort _ _).map snd).trans (.of_eq ?_)
  induction accounts with
  | nil => rfl
  | cons a accounts ih =>
    rw [sharingStakes] at ih ⊢
    by_cases hzero : a.staked = 0
    · simpa [hzero] using ih
    · cases hnode : a.nodePubkey <;> simpa [hzero, hnode] using ih

lemma sum_sharingStakes_le : (sharingStakes accounts).sum ≤ (accounts.map staked).sum :=
  (filter_sublist.map staked).sum_le_sum fun _ _ ↦ Nat.zero_le _

lemma sum_staked_pos (husable : ∃ a ∈ accounts, a.staked ≠ 0 ∧ a.nodePubkey.isSome = true) :
    0 < (accounts.map staked).sum := by
  obtain ⟨a, ha, hstaked, -⟩ := husable
  exact (pos_of_ne_zero hstaked).trans_le (le_sum_of_mem (mem_map_of_mem ha))

/-- Only the floors leave something if the vote state of every staked account deserializes. -/
theorem leftoverCovered_of_forall (h : ∀ a ∈ accounts, a.staked ≠ 0 → a.nodePubkey.isSome = true)
    (husable : ∃ a ∈ accounts, a.staked ≠ 0 ∧ a.nodePubkey.isSome = true) :
    LeftoverCovered accounts rent := by
  have hpos := sum_staked_pos accounts husable
  have hsum : (sharingStakes accounts).sum = (accounts.map staked).sum := by
    clear husable hpos
    rw [sharingStakes]
    induction accounts with
    | nil => rfl
    | cons a accounts ih =>
      obtain ⟨ha, h⟩ := forall_mem_cons.mp h
      by_cases hzero : a.staked = 0
      · simpa [hzero] using ih h
      · simpa [hzero, ha hzero] using ih h
  obtain ⟨-, hupper⟩ := @sum_shares rent _ hpos (sharingStakes accounts)
  rw [hsum] at hupper
  refine le_of_mul_le_mul_left ((le_add_right _ _).trans hupper |>.trans_eq ?_) hpos
  rw [← add_mul, mul_comm]

end

/-- What the validators are due, and whether something is left for the assertion to fail. -/
theorem exists_rentDues (hrent : rent < 2 ^ 64) (hfit : (accounts.map staked).sum < 2 ^ 64)
    (husable : ∃ a ∈ accounts, a.staked ≠ 0 ∧ a.nodePubkey.isSome = true) :
    ∃ dues left, rentDues accounts rent =
        (if left = 0 then some (((validatorStakes accounts).map fst).zip dues) else none) ∧
      (left = 0 ↔ LeftoverCovered accounts rent) ∧ dues.sum + left = rent ∧
      Forall₂ (fun v due ↦ v.2 * rent / (accounts.map staked).sum ≤ due ∧
        due ≤ v.2 * rent / (accounts.map staked).sum + 1) (validatorStakes accounts) dues := by
  have hpos := sum_staked_pos accounts husable
  have hperm := validatorStakes_perm accounts
  have hsum := sum_sharingStakes_le accounts
  rw [LeftoverCovered, ← (hperm.map _).sum_eq, ← hperm.length_eq, List.map_map, length_map]
  rw [← hperm.sum_eq] at hsum
  have hfold : totalStaked accounts = some (accounts.map staked).sum := by
    rw [totalStaked, ← foldlM_map (f := staked), foldlM_checkedAdd (by decide), zero_add]
    exact ⟨hfit, rfl⟩
  have hne : (validatorStakes accounts).isEmpty = false := by
    obtain ⟨a, ha, hstaked, hnode⟩ := husable
    have hmem : a.staked ∈ sharingStakes accounts :=
      mem_map_of_mem (mem_filter.mpr ⟨ha, by simp [hstaked, hnode]⟩)
    rw [isEmpty_eq_false_iff, ← length_pos_iff, ← length_map snd, hperm.length_eq]
    exact length_pos_of_mem hmem
  generalize (accounts.map staked).sum = total at *
  generalize hstakes : validatorStakes accounts = stakes at *
  have hshares : stakes.mapM (fun v ↦ rentShare rent total v.2) =
      some (stakes.map fun v ↦ v.2 * rent / total) := by
    refine mapM_of_forall fun v hv ↦ ?_
    have hle : v.2 ≤ total := (le_sum_of_mem (mem_map_of_mem hv)).trans hsum
    have hproduct : v.2 * rent < 2 ^ 128 :=
      (Nat.mul_lt_mul'' (hle.trans_lt hfit) hrent).trans_eq rfl
    have hshare : v.2 * rent / total ≤ rent := Nat.div_le_of_le_mul (mul_le_mul_right _ hle)
    rw [rentShare, checkedMul_eq_some.mpr ⟨hproduct, rfl⟩, some_bind, if_neg (by omega)]
  have hlower := (@sum_shares rent total hpos (stakes.map snd)).1
  rw [List.map_map] at hlower
  have hdistributed : (stakes.map fun v ↦ v.2 * rent / total).sum ≤ rent :=
    le_of_mul_le_mul_right (hlower.trans ((mul_le_mul_right _ hsum).trans_eq (mul_comm ..))) hpos
  have hshape : (fun s ↦ s * rent / total) ∘ snd = fun v : Pubkey × ℕ ↦ v.2 * rent / total := rfl
  rw [hshape]
  obtain ⟨dues, hdues, hduesSum, hnear⟩ := @exists_rentToBePaid
    (rent - (stakes.map fun v ↦ v.2 * rent / total).sum) (stakes.map fun v ↦ v.2 * rent / total)
    fun share hmem ↦ by
      have := le_sum_of_mem hmem
      omega
  rw [length_map] at hdues hduesSum
  refine ⟨dues, _, ?_, ?_, hduesSum.trans (by omega), forall₂_map_left_iff.mp hnear⟩
  swap
  · rw [Nat.sub_eq_zero_iff_le]
    omega
  have hadd : (stakes.map fun v ↦ v.2 * rent / total).foldlM (checkedAdd 64) 0 = some _ :=
    (foldlM_checkedAdd (by decide)).mpr ⟨by omega, zero_add _⟩
  simp only [rentDues, hfold, some_bind, hstakes, hne, hshares, hadd,
    checkedSub_eq_some.mpr ⟨hdistributed, rfl⟩, hdues]
  rfl

/-! ### Payments -/

section

variable {keys : Finset Pubkey}

lemma totalLamports_pay {s : RentPayments} {due : Pubkey × ℕ} (hkey : due.1 ∈ keys) :
    totalLamports keys (pay s due).db + (pay s due).burned =
      totalLamports keys s.db + s.burned + due.2 := by
  rw [pay]
  split_ifs with hzero
  · rw [hzero, add_zero]
  split
  next lamports hadd =>
    have hupdate := totalLamports_update s.db hkey { s.db due.1 with lamports := lamports }
    obtain ⟨-, rfl⟩ := checkedAdd_eq_some.mp hadd
    simp only at hupdate ⊢
    omega
  · exact (add_assoc _ _ _).symm

/-- What is due is paid or burned. -/
theorem totalLamports_foldl_pay {dues : List (Pubkey × ℕ)} {s : RentPayments}
    (hkeys : ∀ due ∈ dues, due.1 ∈ keys) :
    totalLamports keys (dues.foldl pay s).db + (dues.foldl pay s).burned =
      totalLamports keys s.db + s.burned + (dues.map snd).sum := by
  induction dues generalizing s with
  | nil => rfl
  | cons due dues ih =>
    obtain ⟨hkey, hkeys⟩ := forall_mem_cons.mp hkeys
    rw [foldl_cons, ih hkeys, totalLamports_pay hkey, map_cons, sum_cons, add_assoc]

end

/-- **When rent is distributed exactly.** What is due makes the rent and is paid or burned, and each
validator is due its part of the rent up to a lamport, exactly if the total of the stakes does not
overflow and the shares leave at most a lamport for each. That is so if the vote state of every
staked account deserializes (`leftoverCovered_of_forall`). -/
theorem rent_distributed_iff (accounts : List StakedVoteAccount) (rent : ℕ) (db : BankAccounts)
    (hrent : rent < 2 ^ 64)
    (husable : ∃ a ∈ accounts, a.staked ≠ 0 ∧ a.nodePubkey.isSome = true) :
    (∃ dues s, rentDues accounts rent = some dues ∧ (dues.map snd).sum = rent ∧
      distributeRentToValidators accounts rent db = some s ∧
      (∀ keys, (∀ due ∈ dues, due.1 ∈ keys) →
        totalLamports keys s.db + s.burned = totalLamports keys db + rent) ∧
      Forall₂ (fun v due ↦ due.1 = v.1 ∧ v.2 * rent < (due.2 + 1) * (accounts.map staked).sum ∧
        due.2 * (accounts.map staked).sum ≤ v.2 * rent + (accounts.map staked).sum)
        (validatorStakes accounts) dues) ↔
      (accounts.map staked).sum < 2 ^ 64 ∧ LeftoverCovered accounts rent := by
  constructor
  · rintro ⟨dues, -, hdues, -⟩
    have hfit : (accounts.map staked).sum < 2 ^ 64 := by
      rw [rentDues, bind_eq_some] at hdues
      obtain ⟨total, htotal, -⟩ := hdues
      rw [totalStaked, ← foldlM_map (f := staked), foldlM_checkedAdd (by decide),
        zero_add] at htotal
      exact htotal.1
    obtain ⟨dues', left, hdues', hcovered, -⟩ := exists_rentDues hrent hfit husable
    rw [hdues'] at hdues
    split_ifs at hdues with hleft
    exact ⟨hfit, hcovered.mp hleft⟩
  rintro ⟨hfit, hcovered⟩
  have hpos := sum_staked_pos accounts husable
  obtain ⟨dues, left, hdues, hleft, hsum, hnear⟩ := exists_rentDues hrent hfit husable
  rw [if_pos (hleft.mpr hcovered)] at hdues
  rw [hleft.mpr hcovered, add_zero] at hsum
  have hdue : ((((validatorStakes accounts).map fst).zip dues).map snd).sum = rent := by
    rw [map_snd_zip (by rw [length_map, hnear.length_eq]), hsum]
  refine ⟨_, _, hdues, hdue, by rw [distributeRentToValidators, hdues]; rfl,
    fun keys hkeys ↦ by rw [totalLamports_foldl_pay hkeys, hdue, add_zero], ?_⟩
  clear * - hnear hpos
  generalize (accounts.map staked).sum = total, validatorStakes accounts = stakes at *
  induction hnear with
  | nil => exact .nil
  | @cons v due stakes dues h _ ih =>
    refine .cons ⟨rfl, lt_mul_of_div_lt (lt_succ_of_le h.1) hpos, ?_⟩ ih
    show due * total ≤ v.2 * rent + total
    have := div_mul_le_self (v.2 * rent) total
    have := mul_le_mul_right total h.2
    rw [add_mul, one_mul] at this
    omega

/-- Two nodes of which one has twice the stake, and an account that does not share: the 10 lamports
are distributed, as only one is left for the two. -/
theorem rent_distributed_two_nodes :
    ∃ dues s, rentDues [⟨300, some default⟩, ⟨600, some ⟨1⟩⟩, ⟨1, none⟩] 10 = some dues ∧
      distributeRentToValidators [⟨300, some default⟩, ⟨600, some ⟨1⟩⟩, ⟨1, none⟩] 10
        (fun _ ↦ default) = some s ∧ (dues.map snd).sum = 10 := by
  obtain ⟨dues, s, hdues, hsum, hs, -⟩ := (rent_distributed_iff
    [⟨300, some default⟩, ⟨600, some ⟨1⟩⟩, ⟨1, none⟩] 10 (fun _ ↦ default) (by decide)
    (by decide)).mpr ⟨by decide, by unfold LeftoverCovered; decide⟩
  exact ⟨dues, s, hdues, hs, hsum⟩

/-- Of two accounts with the same stake, the vote state of one does not deserialize: half of the
rent is left, and the assertion fails. -/
theorem leftover_remains :
    distributeRentToValidators [⟨1, some default⟩, ⟨1, none⟩] 10 (fun _ ↦ default) = none := rfl

end StakedVoteAccount

end Renec
