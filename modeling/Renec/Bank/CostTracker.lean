import Renec.Accounts.Locks
import Renec.Machine.Exec

/-!
# The costs of a block

`CostTracker` (`runtime/src/cost_tracker.rs`) decides whether a transaction still fits into the
block being built: it counts the cost of the block, of the votes in it and of every account that is
written.

`CostWorld` keeps, next to the tracker, the transactions that are counted, each with its current
cost; the invariant of its runs, `CostTracker.Exact`, is that every counter is their sum.
-/

namespace Renec

open Multiset

open Option

/-- `TransactionCost`. -/
structure TransactionCost where
  writableAccounts : List Pubkey
  signatureCost : ℕ
  writeLockCost : ℕ
  dataBytesCost : ℕ
  builtinsExecutionCost : ℕ
  bpfExecutionCost : ℕ
  isSimpleVote : Bool
  deriving DecidableEq

variable {tx : TransactionCost}

namespace TransactionCost

def sum (tx : TransactionCost) : ℕ :=
  saturatingAdd 64 (saturatingAdd 64 (saturatingAdd 64 (saturatingAdd 64
    tx.signatureCost tx.writeLockCost) tx.dataBytesCost) tx.builtinsExecutionCost)
    tx.bpfExecutionCost

lemma bpfExecutionCost_le_sum (h : tx.sum < u64Max) : tx.bpfExecutionCost ≤ tx.sum := by
  rw [sum, saturatingAdd_eq_add h]
  exact Nat.le_add_left _ _

end TransactionCost

structure CostTracker where
  accountCostLimit : ℕ
  blockCostLimit : ℕ
  voteCostLimit : ℕ
  costByWritableAccounts : Finmap fun _ : Pubkey ↦ ℕ
  blockCost : ℕ
  voteCost : ℕ
  transactionCount : ℕ

variable {t : CostTracker} {a : ℕ}

namespace CostTracker

/-- `CostTracker::new`, with its two assertions. -/
def new (accountCostLimit blockCostLimit voteCostLimit : ℕ) : Option CostTracker :=
  if accountCostLimit ≤ blockCostLimit ∧ voteCostLimit ≤ blockCostLimit then
    some ⟨accountCostLimit, blockCostLimit, voteCostLimit, ∅, 0, 0, 0⟩
  else none

section

variable (t : CostTracker) (tx : TransactionCost) (adjustment : ℕ)

/-- The cost of an account: an account without an entry has none. -/
def accountCost (key : Pubkey) : ℕ := (t.costByWritableAccounts.lookup key).getD 0

def wouldFit : Except CostTrackerError Unit :=
  let cost := tx.sum
  let voteCost := if tx.isSimpleVote then cost else 0
  -- check against the total package cost
  if saturatingAdd 64 t.blockCost cost > t.blockCostLimit then .error .wouldExceedBlockMaxLimit
  -- if vote transaction, check if it exceeds the vote limit
  else if saturatingAdd 64 t.voteCost voteCost > t.voteCostLimit then
    .error .wouldExceedVoteMaxLimit
  -- check if the transaction itself is more costly than the account limit
  else if cost > t.accountCostLimit then .error .wouldExceedAccountMaxLimit
  -- check each account against the account limit
  else if tx.writableAccounts.any fun key ↦ (t.costByWritableAccounts.lookup key).any fun chained ↦
      decide (saturatingAdd 64 chained cost > t.accountCostLimit) then
    .error .wouldExceedAccountMaxLimit
  else .ok ()

/-- The loop over the writable accounts: the entry of each is changed, from 0 if it has none. -/
def adjustAccounts (f : ℕ → ℕ) (costs : Finmap fun _ : Pubkey ↦ ℕ) (keys : List Pubkey) :
    Finmap fun _ : Pubkey ↦ ℕ :=
  keys.foldl (fun costs key ↦ costs.insert key (f ((costs.lookup key).getD 0))) costs

def addTransactionExecutionCost : CostTracker :=
  { t with
    costByWritableAccounts := adjustAccounts (fun cost ↦ saturatingAdd 64 cost adjustment)
      t.costByWritableAccounts tx.writableAccounts
    blockCost := saturatingAdd 64 t.blockCost adjustment
    voteCost := if tx.isSimpleVote then saturatingAdd 64 t.voteCost adjustment else t.voteCost }

def subTransactionExecutionCost : CostTracker :=
  { t with
    costByWritableAccounts := adjustAccounts (fun cost ↦ cost - adjustment)
      t.costByWritableAccounts tx.writableAccounts
    blockCost := t.blockCost - adjustment
    voteCost := if tx.isSimpleVote then t.voteCost - adjustment else t.voteCost }

def addTransactionCost : CostTracker :=
  let t := t.addTransactionExecutionCost tx tx.sum
  { t with transactionCount := saturatingAdd 64 t.transactionCount 1 }

def removeTransactionCost : CostTracker :=
  let t := t.subTransactionExecutionCost tx tx.sum
  { t with transactionCount := t.transactionCount - 1 }

/-- `try_add`: the cost of the block, or why the transaction does not fit. -/
def tryAdd : Exec CostTracker CostTrackerError ℕ := fun t ↦
  match t.wouldFit tx with
  | .error e => some (.error e, t)
  | .ok () =>
    let t := t.addTransactionCost tx
    some (.ok t.blockCost, t)

def updateExecutionCost (estimated : TransactionCost) (actualExecutionUnits : ℕ) : CostTracker :=
  match compare actualExecutionUnits estimated.bpfExecutionCost with
  | .eq => t
  | .gt => t.addTransactionExecutionCost estimated
      (actualExecutionUnits - estimated.bpfExecutionCost)
  | .lt => t.subTransactionExecutionCost estimated
      (estimated.bpfExecutionCost - actualExecutionUnits)

def remove : CostTracker := t.removeTransactionCost tx

end

/-! ### The accounts of a transaction -/

variable {key : Pubkey}

section

variable {f : ℕ → ℕ} {costs : Finmap fun _ : Pubkey ↦ ℕ} {keys : List Pubkey}

lemma lookup_adjustAccounts (hkeys : keys.Nodup) :
    ((adjustAccounts f costs keys).lookup key).getD 0 =
      if key ∈ keys then f ((costs.lookup key).getD 0) else (costs.lookup key).getD 0 := by
  induction keys generalizing costs with
  | nil => rfl
  | cons k keys ih =>
    obtain ⟨hk, hkeys⟩ := List.nodup_cons.mp hkeys
    show ((adjustAccounts f (costs.insert k _) keys).lookup key).getD 0 = _
    rw [ih hkeys]
    by_cases hkey : key = k
    · subst hkey
      rw [if_neg hk, if_pos List.mem_cons_self, Finmap.lookup_insert, getD_some]
    rw [Finmap.lookup_insert_of_ne _ hkey]
    simp only [List.mem_cons, hkey, false_or]

end

/-! ### What fits -/

/-- A transaction that fits, below a block limit that is not the end of `u64`: no counter would
pass its limit. -/
theorem wouldFit_eq_ok (hlimit : t.blockCostLimit < u64Max) (h : t.wouldFit tx = .ok ()) :
    t.blockCost + tx.sum ≤ t.blockCostLimit ∧
      (tx.isSimpleVote → saturatingAdd 64 t.voteCost tx.sum ≤ t.voteCostLimit) ∧
      tx.sum ≤ t.accountCostLimit ∧ ∀ key ∈ tx.writableAccounts,
        saturatingAdd 64 (t.accountCost key) tx.sum ≤ t.accountCostLimit := by
  simp only [wouldFit, ite_error_eq_ok] at h
  obtain ⟨hblock, hvote, hcost, haccounts, -⟩ := h
  have hfit : saturatingAdd 64 t.blockCost tx.sum ≤ t.blockCostLimit := not_lt.mp hblock
  rw [saturatingAdd_eq_add (hfit.trans_lt hlimit)] at hfit
  refine ⟨hfit, fun hsimple ↦ ?_, not_lt.mp hcost, fun key hkey ↦ ?_⟩
  · rw [if_pos hsimple] at hvote
    exact not_lt.mp hvote
  rw [Bool.not_eq_true, List.any_eq_false] at haccounts
  have hany := haccounts key hkey
  rw [accountCost]
  cases hlookup : t.costByWritableAccounts.lookup key with
  | none =>
    show min (0 + tx.sum) _ ≤ _
    rw [Nat.zero_add]
    exact (min_le_left _ _).trans (not_lt.mp hcost)
  | some chained =>
    rw [hlookup] at hany
    simpa using hany

/-! ### The sums behind the counters -/

/-- A counted transaction, with its current cost. -/
abbrev Counted := TransactionCost × ℕ

/-- The sum of the costs of the counted transactions of a kind. -/
def costWhere (p : TransactionCost → Bool) (counted : Multiset Counted) : ℕ :=
  ((counted.filter fun e ↦ p e.1).map Prod.snd).sum

variable {counted : Multiset Counted} {c : ℕ}

section

variable {p : TransactionCost → Bool}

lemma costWhere_cons :
    costWhere p ((tx, c) ::ₘ counted) = (if p tx then c else 0) + costWhere p counted := by
  unfold costWhere
  split_ifs with h
  · rw [filter_cons_of_pos (p := fun e : Counted ↦ p e.1) _ h, map_cons, sum_cons]
  · rw [filter_cons_of_neg (p := fun e : Counted ↦ p e.1) _ h, Nat.zero_add]

lemma costWhere_le_all : costWhere p counted ≤ costWhere (fun _ ↦ true) counted := by
  induction counted using Multiset.induction with
  | empty => exact le_refl _
  | cons e counted ih =>
    obtain ⟨tx, c⟩ := e
    rw [costWhere_cons, costWhere_cons, if_pos rfl]
    split_ifs <;> omega

end

/-- The costs of a tracker are the sums over the counted transactions: of all, of the votes, and
for every account of those that write it. -/
structure Costs (t : CostTracker) (counted : Multiset Counted) : Prop where
  block : t.blockCost = costWhere (fun _ ↦ true) counted
  vote : t.voteCost = costWhere (fun tx ↦ tx.isSimpleVote) counted
  account : ∀ key, t.accountCost key = costWhere (fun tx ↦ key ∈ tx.writableAccounts) counted

/-- No limit is exceeded. -/
structure WithinLimits (t : CostTracker) : Prop where
  block : t.blockCost ≤ t.blockCostLimit
  vote : t.voteCost ≤ t.voteCostLimit
  account : ∀ key, t.accountCost key ≤ t.accountCostLimit

/-- Taking `adjustment` for a transaction saturates nowhere. -/
structure Covers (t : CostTracker) (tx : TransactionCost) (adjustment : ℕ) : Prop where
  block : adjustment ≤ t.blockCost
  vote : tx.isSimpleVote → adjustment ≤ t.voteCost
  account : ∀ key ∈ tx.writableAccounts, adjustment ≤ t.accountCost key

lemma accountCost_sub (htx : tx.writableAccounts.Nodup) :
    (t.subTransactionExecutionCost tx a).accountCost key =
      if key ∈ tx.writableAccounts then t.accountCost key - a else t.accountCost key :=
  lookup_adjustAccounts htx

lemma accountCost_add (htx : tx.writableAccounts.Nodup) :
    (t.addTransactionExecutionCost tx a).accountCost key =
      if key ∈ tx.writableAccounts then saturatingAdd 64 (t.accountCost key) a
      else t.accountCost key :=
  lookup_adjustAccounts htx

lemma Costs.covers (h : t.Costs ((tx, c) ::ₘ counted)) (ha : a ≤ c) : t.Covers tx a where
  block := by
    rw [h.block, costWhere_cons, if_pos rfl]
    omega
  vote hvote := by
    rw [h.vote, costWhere_cons, if_pos hvote]
    omega
  account key hkey := by
    rw [h.account, costWhere_cons, if_pos (decide_eq_true hkey)]
    omega

/-- Taking back a part of the cost of a counted transaction. -/
theorem Costs.sub (h : t.Costs ((tx, c) ::ₘ counted)) (ha : a ≤ c)
    (htx : tx.writableAccounts.Nodup) :
    (t.subTransactionExecutionCost tx a).Costs ((tx, c - a) ::ₘ counted) where
  block := by
    show t.blockCost - a = _
    rw [h.block, costWhere_cons, costWhere_cons, if_pos rfl, if_pos rfl]
    omega
  vote := by
    show (if tx.isSimpleVote then t.voteCost - a else t.voteCost) = _
    rw [h.vote, costWhere_cons, costWhere_cons]
    split_ifs <;> omega
  account key := by
    rw [accountCost_sub htx, h.account, costWhere_cons, costWhere_cons]
    simp only [decide_eq_true_eq]
    split_ifs <;> omega

lemma costs_cons_zero : t.Costs ((tx, 0) ::ₘ counted) ↔ t.Costs counted := by
  have hcons : ∀ p, costWhere p ((tx, 0) ::ₘ counted) = costWhere p counted := fun p ↦ by
    rw [costWhere_cons, ite_self, Nat.zero_add]
  constructor <;> intro h
  · exact ⟨hcons _ ▸ h.block, hcons _ ▸ h.vote, fun key ↦ hcons _ ▸ h.account key⟩
  exact ⟨(hcons _).symm ▸ h.block, (hcons _).symm ▸ h.vote,
    fun key ↦ (hcons _).symm ▸ h.account key⟩

lemma WithinLimits.sub (h : t.WithinLimits) (htx : tx.writableAccounts.Nodup) :
    (t.subTransactionExecutionCost tx a).WithinLimits where
  block := (Nat.sub_le _ _).trans h.block
  vote := by
    show (if tx.isSimpleVote then t.voteCost - a else t.voteCost) ≤ t.voteCostLimit
    have := h.vote
    split_ifs <;> omega
  account key := by
    show _ ≤ t.accountCostLimit
    rw [accountCost_sub htx]
    have := h.account key
    split_ifs <;> omega

/-- Adding a transaction that fits: no addition saturates, because every counter is at most the cost
of the block. -/
theorem Costs.add (h : t.Costs counted) (hlimit : t.blockCostLimit < u64Max)
    (hfit : t.blockCost + tx.sum ≤ t.blockCostLimit) (htx : tx.writableAccounts.Nodup) :
    (t.addTransactionExecutionCost tx tx.sum).Costs ((tx, tx.sum) ::ₘ counted) := by
  have hadd : ∀ p, saturatingAdd 64 (costWhere p counted) tx.sum =
      costWhere p counted + tx.sum := by
    intro p
    have hle : costWhere p counted ≤ t.blockCost := h.block ▸ costWhere_le_all
    refine min_eq_left ?_
    show _ ≤ u64Max
    omega
  refine ⟨?_, ?_, fun key ↦ ?_⟩
  · show saturatingAdd 64 t.blockCost tx.sum = _
    rw [h.block, hadd, costWhere_cons, if_pos rfl, Nat.add_comm]
  · show (if tx.isSimpleVote then saturatingAdd 64 t.voteCost tx.sum else t.voteCost) = _
    rw [h.vote, hadd, costWhere_cons]
    split_ifs <;> omega
  rw [accountCost_add htx, h.account, hadd, costWhere_cons]
  simp only [decide_eq_true_eq]
  split_ifs <;> omega

lemma WithinLimits.add (h : t.WithinLimits) (hlimit : t.blockCostLimit < u64Max)
    (hfit : t.wouldFit tx = .ok ()) (htx : tx.writableAccounts.Nodup) :
    (t.addTransactionExecutionCost tx tx.sum).WithinLimits := by
  obtain ⟨hblock, hvote, -, haccount⟩ := wouldFit_eq_ok hlimit hfit
  refine ⟨(min_le_left _ _).trans hblock, ?_, fun key ↦ ?_⟩
  · show (if tx.isSimpleVote then saturatingAdd 64 t.voteCost tx.sum else t.voteCost) ≤
      t.voteCostLimit
    split_ifs with hsimple
    · exact hvote hsimple
    · exact h.vote
  show _ ≤ t.accountCostLimit
  rw [accountCost_add htx]
  split_ifs with hkey
  · exact haccount key hkey
  · exact h.account key

lemma tryAdd_error {t' : CostTracker} {e : CostTrackerError}
    (h : tryAdd tx t = some (.error e, t')) : t' = t := by
  simp only [tryAdd] at h
  split at h
  · exact (congrArg Prod.snd (some.inj h)).symm
  · cases congrArg Prod.fst (some.inj h)

end CostTracker

/-! ### Runs -/

open CostTracker

/-- The tracker of a block, with the transactions it counts: `pending` ones at their estimated
cost, `settled` ones with their actual execution units. -/
structure CostWorld where
  tracker : CostTracker
  pending : Multiset TransactionCost
  settled : Multiset (TransactionCost × ℕ)

/-- The operations on the tracker of a block. -/
inductive CostOp where
  | tryAdd (tx : TransactionCost)
  | remove (tx : TransactionCost)
  | updateExecutionCost (tx : TransactionCost) (actualExecutionUnits : ℕ)

namespace CostWorld

/-- The counted transactions, at their current cost. -/
def counted (w : CostWorld) : Multiset Counted := w.pending.map (fun tx ↦ (tx, tx.sum)) +
    w.settled.map fun e ↦ (e.1, e.1.sum - (e.1.bpfExecutionCost - e.2))

/-- One operation. The writable keys of a transaction are distinct; an added transaction is removed
or updated at most once, and the update does not raise its cost. -/
def step (w : CostWorld) : CostOp → Option CostWorld
  | .tryAdd tx =>
    if tx.writableAccounts.Nodup then
      match CostTracker.tryAdd tx w.tracker with
      | some (.ok _, t) => some { w with tracker := t, pending := tx ::ₘ w.pending }
      | some (.error _, t) => some { w with tracker := t }
      | none => none
    else none
  | .remove tx =>
    if tx ∈ w.pending then
      some { w with tracker := w.tracker.remove tx, pending := w.pending.erase tx }
    else none
  | .updateExecutionCost tx actual =>
    if tx ∈ w.pending ∧ actual ≤ tx.bpfExecutionCost then
      some ⟨w.tracker.updateExecutionCost tx actual, w.pending.erase tx, (tx, actual) ::ₘ w.settled⟩
    else none

def run (w : CostWorld) (ops : List CostOp) : Option CostWorld := ops.foldlM step w

/-- A new tracker, with nothing counted. -/
def init (t : CostTracker) : CostWorld := ⟨t, 0, 0⟩

/-- The invariant of the runs. -/
structure Exact (w : CostWorld) : Prop where
  limit : w.tracker.blockCostLimit < u64Max
  costs : w.tracker.Costs w.counted
  count : w.tracker.transactionCount = w.counted.card
  withinLimits : w.tracker.WithinLimits
  /-- The cost of a pending transaction did not saturate, and its keys are distinct. -/
  pending : ∀ tx ∈ w.pending, tx.sum < u64Max ∧ tx.writableAccounts.Nodup

variable {w w' : CostWorld}

lemma counted_of_mem (h : tx ∈ w.pending) :
    w.counted = (tx, tx.sum) ::ₘ { w with pending := w.pending.erase tx }.counted := by
  show _ = (tx, tx.sum) ::ₘ ((w.pending.erase tx).map _ + _)
  rw [← cons_add, ← map_cons (fun tx : TransactionCost ↦ (tx, tx.sum)), cons_erase h]
  rfl

lemma exact_init {accountCostLimit blockCostLimit voteCostLimit : ℕ}
    (h : new accountCostLimit blockCostLimit voteCostLimit = some t)
    (hlimit : blockCostLimit < u64Max) : (init t).Exact := by
  simp only [new, ite_none_right_eq_some, some.injEq] at h
  obtain ⟨-, rfl⟩ := h
  exact ⟨hlimit, ⟨rfl, rfl, fun _ ↦ rfl⟩, rfl,
    ⟨Nat.zero_le _, Nat.zero_le _, fun _ ↦ Nat.zero_le _⟩,
    fun tx htx ↦ absurd htx (notMem_zero tx)⟩

section

variable (h : w.Exact)

include h

lemma Exact.covers (htx : tx ∈ w.pending) (ha : a ≤ tx.sum) : w.tracker.Covers tx a := by
  have hcosts := h.costs
  rw [counted_of_mem htx] at hcosts
  exact hcosts.covers ha

lemma Exact.transactionCount_pos (htx : tx ∈ w.pending) : 1 ≤ w.tracker.transactionCount := by
  rw [h.count, counted_of_mem htx, card_cons]
  exact Nat.le_add_left _ _

lemma Exact.execution_le (htx : tx ∈ w.pending) (actual : ℕ) :
    tx.bpfExecutionCost - actual ≤ tx.sum :=
  (Nat.sub_le _ _).trans (TransactionCost.bpfExecutionCost_le_sum (h.pending tx htx).1)

lemma Exact.tryAdd (htx : tx.writableAccounts.Nodup) (hfit : w.tracker.wouldFit tx = .ok ())
    (hcount : w.counted.card + 1 ≤ u64Max) :
    Exact { w with tracker := w.tracker.addTransactionCost tx, pending := tx ::ₘ w.pending } := by
  have hsum := (wouldFit_eq_ok h.limit hfit).1
  have hcounted : CostWorld.counted ⟨w.tracker.addTransactionCost tx, tx ::ₘ w.pending, w.settled⟩ =
      (tx, tx.sum) ::ₘ w.counted := by
    rw [counted, map_cons, cons_add]
    rfl
  have hlimits := h.withinLimits.add h.limit hfit htx
  refine ⟨h.limit, ?_, ?_, ⟨hlimits.block, hlimits.vote, hlimits.account⟩,
    forall_mem_cons.mpr ⟨⟨?_, htx⟩, h.pending⟩⟩
  · rw [hcounted]
    have hcosts := h.costs.add h.limit hsum htx
    exact ⟨hcosts.block, hcosts.vote, hcosts.account⟩
  · rw [hcounted, card_cons]
    show saturatingAdd 64 w.tracker.transactionCount 1 = _
    rw [h.count]
    exact min_eq_left hcount
  · exact lt_of_le_of_lt ((Nat.le_add_left _ _).trans hsum) h.limit

lemma Exact.remove (htx : tx ∈ w.pending) :
    Exact { w with tracker := w.tracker.remove tx, pending := w.pending.erase tx } := by
  have hnodup := (h.pending tx htx).2
  have hcosts := h.costs
  rw [counted_of_mem htx] at hcosts
  replace hcosts := hcosts.sub (le_refl _) hnodup
  rw [Nat.sub_self, costs_cons_zero] at hcosts
  have hlimits := h.withinLimits.sub (a := tx.sum) hnodup
  refine ⟨h.limit, ⟨hcosts.block, hcosts.vote, hcosts.account⟩, ?_,
    ⟨hlimits.block, hlimits.vote, hlimits.account⟩,
    fun tx' htx' ↦ h.pending tx' (mem_of_mem_erase htx')⟩
  show w.tracker.transactionCount - 1 = _
  rw [h.count, counted_of_mem htx, card_cons, Nat.add_sub_cancel]
  rfl

lemma Exact.updateExecutionCost (htx : tx ∈ w.pending) {actual : ℕ}
    (hactual : actual ≤ tx.bpfExecutionCost) :
    Exact ⟨w.tracker.updateExecutionCost tx actual, w.pending.erase tx,
      (tx, actual) ::ₘ w.settled⟩ := by
  have hcosts := h.costs
  have hcount := h.count
  rw [counted_of_mem htx] at hcosts hcount
  rw [card_cons] at hcount
  have hcounted : CostWorld.counted ⟨w.tracker.updateExecutionCost tx actual, w.pending.erase tx,
        (tx, actual) ::ₘ w.settled⟩ =
      (tx, tx.sum - (tx.bpfExecutionCost - actual)) ::ₘ
        { w with pending := w.pending.erase tx }.counted := by
    rw [counted, map_cons, add_cons]
    rfl
  have hpending : ∀ tx' ∈ w.pending.erase tx, tx'.sum < u64Max ∧ tx'.writableAccounts.Nodup :=
    fun tx' htx' ↦ h.pending tx' (mem_of_mem_erase htx')
  rcases hactual.lt_or_eq with hlt | heq
  · rw [CostTracker.updateExecutionCost, compare_lt_iff_lt.mpr hlt] at hcounted ⊢
    have hnodup := (h.pending tx htx).2
    refine ⟨h.limit, ?_, ?_, h.withinLimits.sub hnodup, hpending⟩
    · rw [hcounted]
      exact hcosts.sub (h.execution_le htx actual) hnodup
    rw [hcounted, card_cons]
    exact hcount
  -- an update to the estimate itself takes nothing
  rw [CostTracker.updateExecutionCost, compare_eq_iff_eq.mpr heq] at hcounted ⊢
  rw [heq, Nat.sub_self, Nat.sub_zero] at hcounted
  rw [heq]
  refine ⟨h.limit, ?_, ?_, h.withinLimits, hpending⟩
  · rw [hcounted]
    exact hcosts
  rw [hcounted, card_cons]
  exact hcount

variable {op : CostOp}

/-- One operation keeps the counters exact, while there is room to count. -/
theorem Exact.step (hstep : w.step op = some w') (hcount : w'.counted.card ≤ u64Max) :
    w'.Exact := by
  cases op with
  | tryAdd tx =>
    simp only [CostWorld.step, ite_none_right_eq_some] at hstep
    obtain ⟨htx, hstep⟩ := hstep
    rcases hfit : w.tracker.wouldFit tx with e | ⟨⟩
    · rw [CostTracker.tryAdd, hfit] at hstep
      cases hstep
      exact h
    rw [CostTracker.tryAdd, hfit] at hstep
    cases hstep
    refine h.tryAdd htx hfit ?_
    rw [counted, map_cons, cons_add, card_cons] at hcount
    exact hcount
  | remove tx =>
    simp only [CostWorld.step, ite_none_right_eq_some, some.injEq] at hstep
    obtain ⟨htx, rfl⟩ := hstep
    exact h.remove htx
  | updateExecutionCost tx actual =>
    simp only [CostWorld.step, ite_none_right_eq_some, some.injEq] at hstep
    obtain ⟨⟨htx, hactual⟩, rfl⟩ := hstep
    exact h.updateExecutionCost htx hactual

/-- Whole runs keep the counters exact, while there is room to count. -/
theorem Exact.run {ops : List CostOp} (hrun : w.run ops = some w')
    (hcount : ∀ ops' w₁, ops' <+: ops → w.run ops' = some w₁ → w₁.counted.card ≤ u64Max) :
    w'.Exact := by
  induction ops using List.reverseRecOn generalizing w' with
  | nil =>
    cases hrun
    exact h
  | append_singleton ops op ih =>
    have hlast := hcount _ w' (List.prefix_refl _) hrun
    simp only [CostWorld.run, List.foldlM_append, List.foldlM_cons, List.foldlM_nil, bind_pure,
      bind_eq_some] at hrun
    obtain ⟨w₁, hrun, hstep⟩ := hrun
    exact (ih hrun fun ops' w₂ hops' ↦
      hcount ops' w₂ (hops'.trans (List.prefix_append _ _))).step hstep hlast

end

/-- **Block cost accounting is exact and within limits.** In every run from a new tracker, in which
never more than `u64::MAX` transactions are counted and whose block limit is not `u64::MAX`: the
counters are the sums over the transactions still counted, at their current cost; no limit is
exceeded; taking a pending transaction back, or lowering its cost, saturates nowhere; and a
transaction that does not fit leaves the tracker as it is. -/
theorem costs_exact_of_run {accountCostLimit blockCostLimit voteCostLimit : ℕ} {t : CostTracker}
    (hnew : CostTracker.new accountCostLimit blockCostLimit voteCostLimit = some t)
    (hlimit : blockCostLimit < u64Max) {ops : List CostOp} (hrun : (init t).run ops = some w)
    (hcount : ∀ ops' w₁, ops' <+: ops → (init t).run ops' = some w₁ → w₁.counted.card ≤ u64Max) :
    (w.tracker.Costs w.counted ∧ w.tracker.transactionCount = w.counted.card) ∧
    w.tracker.WithinLimits ∧
    (∀ tx ∈ w.pending, w.tracker.Covers tx tx.sum ∧ 1 ≤ w.tracker.transactionCount ∧
      ∀ actual, w.tracker.Covers tx (tx.bpfExecutionCost - actual)) ∧
    ∀ tx e t', CostTracker.tryAdd tx w.tracker = some (.error e, t') → t' = w.tracker := by
  have h := (exact_init hnew hlimit).run hrun hcount
  refine ⟨⟨h.costs, h.count⟩, h.withinLimits, fun tx htx ↦ ?_, fun tx e t' ↦ tryAdd_error⟩
  exact ⟨h.covers htx (le_refl _), h.transactionCount_pos htx,
    fun actual ↦ h.covers htx (h.execution_le htx actual)⟩

/-! ### Room to count -/

lemma card_counted (w : CostWorld) : w.counted.card = w.pending.card + w.settled.card := by
  rw [counted, card_add, card_map, card_map]

lemma card_counted_step (h : w.step op = some w') : w'.counted.card ≤ w.counted.card + 1 := by
  simp only [card_counted]
  cases op with
  | tryAdd tx =>
    simp only [step, ite_none_right_eq_some] at h
    obtain ⟨-, h⟩ := h
    split at h
    · cases h
      simp only [card_cons]
      omega
    · cases h
      exact Nat.le_add_right _ _
    · cases h
  | remove tx =>
    simp only [step, ite_none_right_eq_some, some.injEq] at h
    obtain ⟨htx, rfl⟩ := h
    have := card_erase_le (a := tx) (s := w.pending)
    show (w.pending.erase tx).card + w.settled.card ≤ _
    omega
  | updateExecutionCost tx actual =>
    simp only [step, ite_none_right_eq_some, some.injEq] at h
    obtain ⟨⟨htx, -⟩, rfl⟩ := h
    have := card_erase_le (a := tx) (s := w.pending)
    show (w.pending.erase tx).card + ((tx, actual) ::ₘ w.settled).card ≤ _
    rw [card_cons]
    omega

lemma card_counted_run {ops : List CostOp} (h : w.run ops = some w') :
    w'.counted.card ≤ w.counted.card + ops.length := by
  induction ops generalizing w with
  | nil =>
    cases h
    exact le_refl _
  | cons op ops ih =>
    rw [run, List.foldlM_cons, bind_eq_some] at h
    obtain ⟨w₁, hstep, hrun⟩ := h
    have hone := card_counted_step hstep
    have hrest := ih hrun
    rw [List.length_cons]
    omega

/-- A vote that writes one account. -/
def oneWrite (units : ℕ) : TransactionCost := ⟨[default], 1, 0, 0, 0, units, true⟩

/-- Three transactions, of which one does not fit, one is lowered and one is removed. -/
theorem costs_exact_of_run_three : ∃ t w, CostTracker.new 20 30 20 = some t ∧
      (init t).run [.tryAdd (oneWrite 9), .tryAdd (oneWrite 20), .tryAdd (oneWrite 5),
        .updateExecutionCost (oneWrite 9) 4, .remove (oneWrite 5)] = some w ∧
      w.tracker.Costs w.counted ∧ w.tracker.blockCost = 5 := by
  have hnew : CostTracker.new 20 30 20 = some ⟨20, 30, 20, ∅, 0, 0, 0⟩ := rfl
  obtain ⟨w, hrun, hcost⟩ : ∃ w, (init ⟨20, 30, 20, ∅, 0, 0, 0⟩).run [.tryAdd (oneWrite 9),
      .tryAdd (oneWrite 20), .tryAdd (oneWrite 5), .updateExecutionCost (oneWrite 9) 4,
      .remove (oneWrite 5)] = some w ∧ w.tracker.blockCost = 5 := ⟨_, rfl, by decide +kernel⟩
  refine ⟨_, w, hnew, hrun, (costs_exact_of_run hnew (by decide) hrun ?_).1.1, hcost⟩
  intro ops' w₁ hops hrun'
  refine (card_counted_run hrun').trans ?_
  refine (Nat.add_le_add_left hops.length_le _).trans ?_
  decide +kernel

/-! ### The end of `u64` -/

/-- A transaction that writes nothing. -/
def bpfOnly (units : ℕ) : TransactionCost := ⟨[], 0, 0, 0, 0, units, false⟩

lemma run_replicate_free (n : ℕ) :
    ∃ w, (init ⟨1, 1, 1, ∅, 0, 0, 0⟩).run (List.replicate n (.tryAdd (bpfOnly 0))) = some w ∧
      w.tracker = ⟨1, 1, 1, ∅, 0, 0, w.tracker.transactionCount⟩ ∧
      w.tracker.transactionCount ≤ u64Max ∧ w.counted.card = n := by
  induction n with
  | zero => exact ⟨_, rfl, rfl, Nat.zero_le _, rfl⟩
  | succ n ih =>
    obtain ⟨⟨⟨_, _, _, _, _, _, count⟩, pending, settled⟩, hrun, htracker, -, hcard⟩ := ih
    cases htracker
    refine ⟨⟨⟨1, 1, 1, ∅, 0, 0, saturatingAdd 64 count 1⟩, bpfOnly 0 ::ₘ pending, settled⟩,
      ?_, rfl, min_le_right _ _, ?_⟩
    · rw [List.replicate_succ', run, List.foldlM_append, bind_eq_some]
      exact ⟨_, hrun, rfl⟩
    rw [card_counted] at hcard ⊢
    rw [← hcard, card_cons]
    exact Nat.add_right_comm _ _ _

/-- With a block limit of `u64::MAX` the cost of the block saturates unnoticed; and so does the
count of transactions, whatever the limits, when there are enough transactions that cost nothing. -/
theorem costs_saturate :
    (∃ t w, CostTracker.new u64Max u64Max u64Max = some t ∧
      (init t).run [.tryAdd (bpfOnly u64Max), .tryAdd (bpfOnly 1)] = some w ∧
      w.tracker.blockCost ≠ costWhere (fun _ ↦ true) w.counted) ∧
    ∃ t ops w, CostTracker.new 1 1 1 = some t ∧ (init t).run ops = some w ∧
      w.tracker.transactionCount ≠ w.counted.card := by
  constructor
  · exact ⟨_, _, rfl, rfl, by decide +kernel⟩
  obtain ⟨w, hrun, -, hle, hcard⟩ := run_replicate_free (u64Max + 1)
  refine ⟨_, _, w, rfl, hrun, ?_⟩
  omega

end CostWorld

end Renec
