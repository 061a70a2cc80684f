import Renec.Bank.Commit
import Renec.Machine.Codec

/-!
# A commit conserves lamports

The balances of a batch of transactions go through four loops, which must agree on the transactions
they count and on the copies of the accounts they use.

The one exception is the rent charged to the copies that a failed transaction with a durable nonce
is rolled back to: it is taken from the accounts (they look new when their rent epoch is the initial
one) but `collectRent` does not count it, so a batch is conserved exactly if no such copy owes rent
(`commit_conserves_iff`).
-/

namespace Renec

open List ProcessedTransaction MessageKey Function
open Option hiding filter_filter filter_map map_map mem_map_of_mem
open Prod hiding map map_map

/-- The lamports of accounts to store. -/
def lamportsOf (accounts : List (Pubkey × Account)) : ℕ := (accounts.map fun p ↦ p.2.lamports).sum

/-- What the bank has at the addresses of accounts to store. -/
def heldAt (db : BankAccounts) (accounts : List (Pubkey × Account)) : ℕ :=
  (accounts.map fun p ↦ (db p.1).lamports).sum

/-- The total balance of a set of accounts. -/
def totalLamports (keys : Finset Pubkey) (db : BankAccounts) : ℕ := ∑ k ∈ keys, (db k).lamports

/-! ### The bank -/

variable {accounts : List (Pubkey × Account)} {ctx : CommitContext} {db : BankAccounts}
  {key : Pubkey} {keys : Finset Pubkey} {lamports : ℕ}

lemma totalLamports_update (db : BankAccounts) (hkey : key ∈ keys) (account : Account) :
    totalLamports keys (Function.update db key account) + (db key).lamports =
      totalLamports keys db + account.lamports := by
  rw [totalLamports, totalLamports, ← Finset.add_sum_erase _ _ hkey, ← Finset.add_sum_erase keys
    (fun k ↦ (db k).lamports) hkey, update_self]
  have hrest : ∑ k ∈ keys.erase key, (Function.update db key account k).lamports =
      ∑ k ∈ keys.erase key, (db k).lamports := by
    refine Finset.sum_congr rfl fun k hk ↦ ?_
    rw [update_of_ne (Finset.ne_of_mem_erase hk)]
  rw [hrest]
  omega

lemma totalLamports_storeAccounts (db : BankAccounts) (hnodup : (accounts.map fst).Nodup)
    (hkeys : ∀ p ∈ accounts, p.1 ∈ keys) :
    totalLamports keys (storeAccounts db accounts) + heldAt db accounts =
      totalLamports keys db + lamportsOf accounts := by
  induction accounts generalizing db with
  | nil => rfl
  | cons p accounts ih =>
    obtain ⟨hp, hkeys⟩ := forall_mem_cons.mp hkeys
    rw [map_cons, nodup_cons] at hnodup
    have hheld : heldAt (Function.update db p.1 p.2) accounts = heldAt db accounts := by
      rw [heldAt, heldAt]
      refine congrArg sum (map_congr_left fun q hq ↦ ?_)
      rw [update_of_ne]
      rintro heq
      exact hnodup.1 (heq ▸ mem_map_of_mem hq)
    have hupdate := totalLamports_update db hp p.2
    have hrest := ih (Function.update db p.1 p.2) hnodup.2 hkeys
    rw [hheld] at hrest
    rw [storeAccounts, foldl_cons, ← storeAccounts]
    simp only [heldAt, lamportsOf, map_cons, sum_cons] at hrest ⊢
    omega

lemma totalLamports_withdraw {db' : BankAccounts} (hkey : key ∈ keys)
    (h : withdraw ctx db key lamports = .ok db') :
    totalLamports keys db' + lamports = totalLamports keys db := by
  rw [withdraw] at h
  simp only at h
  split_ifs at h with hzero henough
  cases h
  have hupdate := totalLamports_update db hkey
    { db key with lamports := (db key).lamports - lamports }
  simp only at hupdate
  omega

/-! ### Loading -/

variable {tx : LockedTransaction} {loaded : LoadedTransaction} {fee : ℕ} {address : Pubkey}

section

variable {k : MessageKey}

lemma isWritable_ne_sysvar {m : SanitizedMessage} {i : ℕ} (hkey : m.accountKeys[i]? = some key)
    (h : m.isWritable i = some true) : isSysvarId key = false := by
  cases m with
  | legacy m =>
    replace hkey : m.accountKeys[i]? = some key := hkey
    simp only [SanitizedMessage.isWritable, Message.isWritable, bind_eq_some] at h
    obtain ⟨isIndex, -, h⟩ := h
    split_ifs at h
    · simp only [hkey, some_bind, pure_eq_some, Bool.and_eq_true, Bool.not_eq_true',
        Bool.or_eq_false_iff] at h
      exact h.1.1
    · cases h
  | v0 m =>
    replace hkey : m.accountKeysIter[i]? = some key := hkey
    simp only [SanitizedMessage.isWritable, LoadedMessage.isWritable, some.injEq, hkey] at h
    split_ifs at h
    simp only [Bool.not_eq_true', Bool.or_eq_false_iff] at h
    exact h.1.1

lemma LockedTransaction.ne_instructionsSysvarId (hk : k ∈ tx.keys) (h : k.isWritable = true) :
    k.key ≠ instructionsSysvarId := by
  rintro hkey
  have hkeys := mapM_eq_some_iff.mp tx.messageKeys_eq
  obtain ⟨i, hi⟩ := mem_iff_getElem?.mp hk
  obtain ⟨⟨key, j⟩, hj, hflags⟩ := exists_getElem?_of_forall₂ hkeys hi
  obtain ⟨isWritable, hwritable, rfl⟩ := map_eq_some_iff.mp hflags
  rw [getElem?_zipIdx, map_eq_some_iff] at hj
  obtain ⟨key', hkey', heq⟩ := hj
  cases heq
  rw [Nat.zero_add] at hwritable
  simp only at h hkey
  rw [h] at hwritable
  have hsysvar := isWritable_ne_sysvar hkey' hwritable
  rw [hkey] at hsysvar
  revert hsysvar
  decide

/-- The keys whose accounts are written back. -/
def MessageKey.isStored (k : MessageKey) : Bool := k.isWritable && k.isNonLoaderKey

lemma LockedTransaction.isStored_feePayer (tx : LockedTransaction) :
    tx.feePayer.isStored = true := by
  rw [isStored, tx.isWritable_feePayer, tx.isNonLoaderKey_feePayer]
  rfl

section

variable (ctx : CommitContext) (db : BankAccounts)

lemma lamports_loadKey (hk : k ∈ tx.keys) (h : k.isStored = true) :
    (loadKey ctx db tx.message k).1.lamports + (loadKey ctx db tx.message k).2 =
      (db k.key).lamports := by
  rw [isStored, Bool.and_eq_true] at h
  rw [loadKey, if_neg (by simp [h.2]), if_neg (tx.ne_instructionsSysvarId hk h.1), if_pos h.1]
  exact RentCollector.lamports_collectFromExistingAccount _ _ _ _

lemma rent_loadKey (m : SanitizedMessage) (h : k.isStored = false) :
    (loadKey ctx db m k).2 = 0 := by
  rw [loadKey]
  split_ifs with hloader hsysvar hwritable
  · rfl
  · rfl
  · simp only [Bool.not_eq_true', Bool.not_eq_false] at hloader
    rw [isStored, hwritable, hloader] at h
    cases h
  · rfl

end

/-- What loading returns: the fee payer comes first and pays the fee. -/
theorem loadTransaction_eq_ok (h : loadTransaction ctx db tx fee = .ok loaded) :
    fee ≤ (loadKey ctx db tx.message tx.feePayer).1.lamports ∧
      (loadKey ctx db tx.message tx.feePayer).1.lamports ≠ 0 ∧
      loaded.accounts = (tx.feePayer.key, { (loadKey ctx db tx.message tx.feePayer).1 with
        lamports := (loadKey ctx db tx.message tx.feePayer).1.lamports - fee }) ::
        tx.others.map (fun k ↦ (k.key, (loadKey ctx db tx.message k).1)) ∧
      loaded.rent = (tx.keys.map fun k ↦ (loadKey ctx db tx.message k).2).sum ∧
      loaded.rentDebits = (tx.keys.map fun k ↦ (k.key, loadKey ctx db tx.message k)).foldl
        (fun debits l ↦ insertRentDebit debits l.1 l.2.2) ∅ := by
  rw [loadTransaction] at h
  simp only [LockedTransaction.keys, findIdx?_cons, tx.isNonLoaderKey_feePayer, if_true,
    map_cons, getElem?_cons_zero, set_cons_zero] at h
  split_ifs at h with hzero
  split at h
  · cases h
  next kind _ =>
    split_ifs at h with hfee
    cases h
    refine ⟨by omega, hzero, ?_, ?_, ?_⟩
    · simp [map_map, comp_def]
    · simp [LockedTransaction.keys, map_map, comp_def]
    · simp [LockedTransaction.keys]

lemma loadKey_feePayer (h : loadTransaction ctx db tx fee = .ok loaded) :
    ∃ lamports rentEpoch, (loadKey ctx db tx.message tx.feePayer).1 =
      { db tx.feePayer.key with
        lamports := lamports
        rentEpoch := rentEpoch } := by
  obtain ⟨-, hzero, -, -, -⟩ := loadTransaction_eq_ok h
  have hsysvar := tx.ne_instructionsSysvarId mem_cons_self tx.isWritable_feePayer
  rw [loadKey, if_neg (by simp [tx.isNonLoaderKey_feePayer]), if_neg hsysvar,
    if_pos tx.isWritable_feePayer] at hzero ⊢
  rcases ctx.rentCollector.collectFromExistingAccount_cases tx.feePayer.key (db tx.feePayer.key)
    ctx.rentForSysvars with hdefault | heq
  · rw [hdefault] at hzero
    exact absurd rfl hzero
  · exact heq

lemma lookup_insertRentDebits {l : List (Pubkey × Account × ℕ)}
    {debits : Finmap fun _ : Pubkey ↦ ℕ} (h : address ∉ l.map fst) :
    (l.foldl (fun debits l ↦ insertRentDebit debits l.1 l.2.2) debits).lookup address =
      debits.lookup address := by
  induction l generalizing debits with
  | nil => rfl
  | cons p l ih =>
    rw [map_cons, mem_cons, not_or] at h
    rw [foldl_cons, ih h.2, insertRentDebit]
    split_ifs
    · exact Finmap.lookup_insert_of_ne _ h.1
    · rfl

lemma getAccountRentDebit_feePayer (h : loadTransaction ctx db tx fee = .ok loaded) :
    getAccountRentDebit loaded.rentDebits tx.feePayer.key =
      (loadKey ctx db tx.message tx.feePayer).2 := by
  obtain ⟨-, -, -, -, hdebits⟩ := loadTransaction_eq_ok h
  have hnodup := tx.nodup
  rw [map_cons, nodup_cons] at hnodup
  rw [getAccountRentDebit, hdebits, LockedTransaction.keys, map_cons, foldl_cons,
    lookup_insertRentDebits (by simpa [map_map, comp_def] using hnodup.1), insertRentDebit]
  split_ifs with hrent
  · rw [Finmap.lookup_insert, getD_some]
  rw [Finmap.lookup_empty, getD_none]
  exact (not_not.mp hrent).symm

end

/-! ### Collecting -/

/-- The slots of a transaction, with what is collected for each: the slots that are kept are stored
with a certain value, less the rent that is charged. -/
def Collected (isKept : MessageKey × Pubkey × Account → Bool)
    (value : MessageKey × Pubkey × Account → ℕ) (slot : MessageKey × Pubkey × Account)
    (r : Option (Pubkey × Account) × ℕ) : Prop :=
  if isKept slot then ∃ a, r.1 = some (slot.2.1, a) ∧ a.lamports + r.2 = value slot
  else r = (none, 0)

variable {collected : List (Option (Pubkey × Account) × ℕ)} {slot : MessageKey × Pubkey × Account}
  {isKept : MessageKey × Pubkey × Account → Bool} {slots : List (MessageKey × Pubkey × Account)}
  {nonce : NonceFull}

section

variable {r : Option (Pubkey × Account) × ℕ} {isFeePayer : Bool}

lemma sum_collected {value : MessageKey × Pubkey × Account → ℕ}
    (h : Forall₂ (Collected isKept value) slots collected) :
    (storedAccounts collected).map fst = (slots.filter isKept).map (fun slot ↦ slot.2.1) ∧
      lamportsOf (storedAccounts collected) + chargedRent collected =
        ((slots.filter isKept).map value).sum := by
  induction h with
  | nil => exact ⟨rfl, rfl⟩
  | @cons slot r slots collected hr _ ih =>
    rw [Collected] at hr
    by_cases hkept : isKept slot
    · rw [if_pos hkept] at hr
      obtain ⟨a, ha, hsum⟩ := hr
      have hstored : storedAccounts (r :: collected) = (slot.2.1, a) :: storedAccounts collected :=
        filterMap_cons_some ha
      refine ⟨?_, ?_⟩
      · rw [hstored, filter_cons_of_pos hkept, map_cons, map_cons, ih.1]
      have hrest := ih.2
      rw [hstored, filter_cons_of_pos hkept]
      simp only [lamportsOf, chargedRent, map_cons, sum_cons] at hrest ⊢
      omega
    rw [if_neg hkept] at hr
    subst hr
    rw [filter_cons_of_neg hkept]
    refine ⟨ih.1, ?_⟩
    have hrest := ih.2
    simp only [chargedRent, map_cons, sum_cons, Nat.zero_add] at hrest ⊢
    exact hrest

variable {maybeNonce : Option (NonceFull × Bool)} {failed : Bool}

lemma lamports_prepareIfNonceAccount {account account' : Account} {isNonce : Bool}
    (hrollback : ∀ n, maybeNonce ≠ some (n, true))
    (h : prepareIfNonceAccount ctx address account false isFeePayer maybeNonce =
      some (account', isNonce)) : account'.lamports = account.lamports := by
  rcases maybeNonce with _ | ⟨n, rollback⟩
  · obtain ⟨rfl, -⟩ := mk.inj (some.inj h)
    rfl
  obtain rfl : rollback = false := by
    cases rollback with
    | false => rfl
    | true => exact absurd rfl (hrollback n)
  by_cases haddress : address = n.address
  · subst haddress
    obtain ⟨-, haccount, -⟩ := prepareIfNonceAccount_nonce h
    rw [haccount]
    rfl
  rw [prepareIfNonceAccount_other haddress, Bool.false_and] at h
  obtain ⟨rfl, -⟩ := mk.inj (some.inj h)
  rfl

lemma collectKey_eq_some (h : collectKey ctx failed maybeNonce isFeePayer slot = some r)
    (hw : slot.1.isWritable = true) :
    ∃ account isNonce, prepareIfNonceAccount ctx slot.2.1 slot.2.2 failed isFeePayer maybeNonce =
        some (account, isNonce) ∧
      if !failed || isNonce || isFeePayer then
        ∃ a, r.1 = some (slot.2.1, a) ∧ a.lamports + r.2 = account.lamports
      else r = (none, 0) := by
  rw [collectKey, if_pos hw] at h
  simp only [bind_eq_some] at h
  obtain ⟨⟨account, isNonce⟩, hprepare, h⟩ := h
  refine ⟨account, isNonce, hprepare, ?_⟩
  by_cases hstored : (!failed || isNonce || isFeePayer) = true
  · rw [if_pos hstored] at h ⊢
    cases h
    refine ⟨_, rfl, ?_⟩
    simp only
    split_ifs
    · exact RentCollector.lamports_collectFromCreatedAccount _ _ _ _
    · rfl
  rw [if_neg hstored] at h ⊢
  exact (some.inj h).symm

/-- A copy that is written back owes rent: its rent epoch is that of an account which is being
created, rent is collected from it and due, and it has lamports. -/
def OwesRent (ctx : CommitContext) (address : Pubkey) (copy : Account) : Prop :=
  copy.rentEpoch = initialRentEpoch ∧
  RentCollector.shouldCollectRent address copy ctx.rentForSysvars = true ∧
  0 < (ctx.rentCollector.getRentDue
    { copy with rentEpoch := ctx.rentCollector.epoch }).lamports ∧ 0 < copy.lamports

lemma collectFromCreatedAccount_ne_zero {copy : Account} :
    (ctx.rentCollector.collectFromCreatedAccount address copy ctx.rentForSysvars).2 ≠ 0 ↔
      RentCollector.shouldCollectRent address copy ctx.rentForSysvars = true ∧
      0 < (ctx.rentCollector.getRentDue
        { copy with rentEpoch := ctx.rentCollector.epoch }).lamports ∧ 0 < copy.lamports := by
  have hshould : RentCollector.shouldCollectRent address
      { copy with rentEpoch := ctx.rentCollector.epoch } ctx.rentForSysvars =
      RentCollector.shouldCollectRent address copy ctx.rentForSysvars := rfl
  rw [RentCollector.collectFromCreatedAccount, RentCollector.collectFromExistingAccount, hshould]
  cases RentCollector.shouldCollectRent address copy ctx.rentForSysvars with
  | false => simp
  | true =>
    rcases ctx.rentCollector.getRentDue { copy with rentEpoch := ctx.rentCollector.epoch } with
      - | (- | due)
    · simp [RentDue.lamports]
    · simp [RentDue.lamports]
    simp [RentDue.lamports]
    omega

/-- When a rollback is charged rent. -/
theorem collectKey_rent_ne_zero
    (h : collectKey ctx true (some (nonce, true)) isFeePayer slot = some r) :
    r.2 ≠ 0 ↔ slot.1.isWritable = true ∧ ∃ copy isNonce,
      prepareIfNonceAccount ctx slot.2.1 slot.2.2 true isFeePayer (some (nonce, true)) =
        some (copy, isNonce) ∧
      (isNonce || isFeePayer) = true ∧ OwesRent ctx slot.2.1 copy := by
  rw [collectKey] at h
  split_ifs at h with hw
  · simp only [bind_eq_some] at h
    obtain ⟨⟨copy, isNonce⟩, hprepare, h⟩ := h
    have hcharged : r.2 ≠ 0 ↔ (isNonce || isFeePayer) = true ∧ OwesRent ctx slot.2.1 copy := by
      rw [Bool.not_true, Bool.false_or] at h
      by_cases hstored : (isNonce || isFeePayer) = true
      · rw [if_pos hstored] at h
        cases h
        rw [and_iff_right hstored, OwesRent]
        simp only
        split_ifs with hepoch
        · rw [collectFromCreatedAccount_ne_zero, and_iff_right hepoch]
        · simp [hepoch]
      rw [if_neg hstored] at h
      cases h
      simp [hstored]
    refine ⟨fun hne ↦ ⟨hw, copy, isNonce, hprepare, hcharged.mp hne⟩, ?_⟩
    rintro ⟨-, copy', isNonce', hprepare', howes⟩
    obtain ⟨rfl, rfl⟩ := Prod.mk.inj (some.inj (hprepare.symm.trans hprepare'))
    exact hcharged.mpr howes
  cases h
  simp [hw]

lemma chargedRent_ne_zero {P : MessageKey × Pubkey × Account → Prop}
    (h : Forall₂ (fun slot r ↦ r.2 ≠ 0 ↔ P slot) slots collected) :
    chargedRent collected ≠ 0 ↔ ∃ slot ∈ slots, P slot := by
  induction h with
  | nil => simp [chargedRent]
  | cons hr _ ih =>
    rw [chargedRent, map_cons, sum_cons, ne_eq, Nat.add_eq_zero_iff, not_and_or,
      exists_mem_cons_iff]
    exact or_congr hr ih

lemma collectKey_of_not_isWritable (h : collectKey ctx failed maybeNonce isFeePayer slot = some r)
    (hw : slot.1.isWritable = false) : r = (none, 0) := by
  rw [collectKey, if_neg (by simp [hw])] at h
  exact (some.inj h).symm

lemma collected_of_success (hrollback : ∀ n, maybeNonce ≠ some (n, true))
    (h : collectKey ctx false maybeNonce isFeePayer slot = some r) :
    Collected (fun slot ↦ slot.1.isWritable) (fun slot ↦ slot.2.2.lamports) slot r := by
  rw [Collected]
  split_ifs with hw
  · obtain ⟨account, isNonce, hprepare, hstored⟩ := collectKey_eq_some h hw
    rw [if_pos (by simp), lamports_prepareIfNonceAccount hrollback hprepare] at hstored
    exact hstored
  · exact collectKey_of_not_isWritable h (by simpa using hw)

lemma address_of_mem_zip {keys : List MessageKey} (h : accounts.map fst = keys.map MessageKey.key)
    (hslot : slot ∈ keys.zip accounts) : slot.2.1 = slot.1.key := by
  induction keys generalizing accounts with
  | nil => cases hslot
  | cons k keys ih =>
    cases accounts with
    | nil => cases hslot
    | cons p accounts =>
      rw [map_cons, map_cons, cons.injEq] at h
      rcases mem_cons.mp hslot with rfl | hslot
      · exact h.1
      · exact ih h.2 hslot

lemma LockedTransaction.ne_feePayer (tx : LockedTransaction)
    (h : accounts.map fst = tx.others.map MessageKey.key)
    (hslot : slot ∈ tx.others.zip accounts) : slot.2.1 ≠ tx.feePayer.key := by
  have hnodup := tx.nodup
  rw [map_cons, nodup_cons] at hnodup
  intro heq
  rw [address_of_mem_zip h hslot] at heq
  exact hnodup.1 (heq ▸ mem_map_of_mem (of_mem_zip hslot).1)

lemma nonLoaderSlots_cons (tx : LockedTransaction) (first : Pubkey × Account)
    (accounts : List (Pubkey × Account)) :
    nonLoaderSlots tx (first :: accounts) =
      (tx.feePayer, first) :: (tx.others.zip accounts).filter fun p ↦ p.1.isNonLoaderKey := by
  rw [nonLoaderSlots, LockedTransaction.keys, zip_cons_cons, filter_cons,
    if_pos tx.isNonLoaderKey_feePayer]

lemma collect_slots_eq (haddr : accounts.map fst = tx.keys.map MessageKey.key) :
    (match nonLoaderSlots tx accounts with
      | [] => some []
      | feePayer :: others => do
        let feePayer ← collectKey ctx failed maybeNonce true feePayer
        return feePayer :: (← others.mapM (collectKey ctx failed maybeNonce false))) =
      (nonLoaderSlots tx accounts).mapM fun slot ↦
        collectKey ctx failed maybeNonce (decide (slot.2.1 = tx.feePayer.key)) slot := by
  cases accounts with
  | nil => cases haddr
  | cons first accounts =>
    rw [LockedTransaction.keys, map_cons, map_cons, cons.injEq] at haddr
    rw [nonLoaderSlots_cons, mapM_cons, decide_eq_true haddr.1,
      mapM_congr_left (g := collectKey ctx failed maybeNonce false)]
    intro slot hslot
    rw [decide_eq_false (tx.ne_feePayer haddr.2 (mem_of_mem_filter hslot))]

/-- A transaction that succeeded stores all accounts that are writable. -/
theorem collectTransaction_success {nonce : Option NonceFull}
    (haddr : accounts.map fst = tx.keys.map MessageKey.key)
    (h : collectTransaction ctx tx accounts nonce false = some collected) :
    Forall₂ (Collected (fun slot ↦ slot.1.isWritable) fun slot ↦ slot.2.2.lamports)
      (nonLoaderSlots tx accounts) collected := by
  cases nonce with
  | none =>
    have hslots := mapM_eq_some_iff.mp ((collect_slots_eq haddr).symm.trans h)
    exact hslots.imp fun _ _ hr ↦ collected_of_success (by simp) hr
  | some nonce =>
    have hrollback : ∀ n, (if ctx.leaveNonceOnSuccess then none else some (nonce, false)) ≠
        some (n, true) := by
      intro n
      split_ifs <;> simp
    have hslots := mapM_eq_some_iff.mp ((collect_slots_eq haddr).symm.trans h)
    exact hslots.imp fun _ _ hr ↦ collected_of_success hrollback hr

end

/-! ### A transaction that succeeded -/

/-- The balances of the copies that are written back. -/
def storedSum (keys : List MessageKey) (accounts : List (Pubkey × Account)) : ℕ :=
  (((keys.zip accounts).filter fun p ↦ p.1.isStored).map fun p ↦ p.2.2.lamports).sum

/-- What the bank has at the keys whose accounts are written back. -/
def heldSum (db : BankAccounts) (keys : List MessageKey) : ℕ :=
  ((keys.filter isStored).map fun k ↦ (db k.key).lamports).sum

/-- **What an execution that succeeded does to lamports**: their sum is the same, and accounts that
are read only, or stand for a loader, keep theirs. -/
structure Conserves (keys : List MessageKey) (before after : List (Pubkey × Account)) : Prop where
  addresses : after.map fst = before.map fst
  sum_eq : lamportsOf after = lamportsOf before
  eq_of_not_isStored : ∀ slot ∈ keys.zip (before.zip after), slot.1.isStored = false →
    slot.2.2.2.lamports = slot.2.1.2.lamports

section

variable {keys : List MessageKey}

lemma storedSum_cons (k : MessageKey) (p : Pubkey × Account) :
    storedSum (k :: keys) (p :: accounts) =
      (if k.isStored then p.2.lamports else 0) + storedSum keys accounts := by
  rw [storedSum, storedSum, zip_cons_cons, filter_cons]
  split_ifs <;> simp

lemma heldSum_cons (k : MessageKey) : heldSum db (k :: keys) =
      (if k.isStored then (db k.key).lamports else 0) + heldSum db keys := by
  rw [heldSum, heldSum, filter_cons]
  split_ifs <;> simp

lemma storedSum_add_lamportsOf {before after : List (Pubkey × Account)}
    (hbefore : before.length = keys.length) (hafter : after.length = keys.length)
    (h : ∀ slot ∈ keys.zip (before.zip after), slot.1.isStored = false →
      slot.2.2.2.lamports = slot.2.1.2.lamports) :
    storedSum keys after + lamportsOf before = storedSum keys before + lamportsOf after := by
  induction keys generalizing before after with
  | nil =>
    rw [length_nil, length_eq_zero_iff] at hbefore hafter
    rw [hbefore, hafter]
  | cons k keys ih =>
    obtain ⟨b, before, rfl⟩ := exists_cons_of_length_eq_add_one hbefore
    obtain ⟨a, after, rfl⟩ := exists_cons_of_length_eq_add_one hafter
    rw [zip_cons_cons, zip_cons_cons, forall_mem_cons] at h
    have hrest := ih (Nat.succ.inj hbefore) (Nat.succ.inj hafter) h.2
    have hhead := h.1
    rw [storedSum_cons, storedSum_cons]
    simp only [lamportsOf, map_cons, sum_cons] at hrest ⊢
    split_ifs with hstored
    · omega
    have heq := hhead (by simpa using hstored)
    simp only at heq
    omega

lemma storedSum_loadKey (ctx : CommitContext) (db : BankAccounts)
    (hkeys : ∀ k ∈ keys, k ∈ tx.keys) :
    storedSum keys (keys.map fun k ↦ (k.key, (loadKey ctx db tx.message k).1)) +
      (keys.map fun k ↦ (loadKey ctx db tx.message k).2).sum = heldSum db keys := by
  induction keys with
  | nil => rfl
  | cons k keys ih =>
    obtain ⟨hk, hkeys⟩ := forall_mem_cons.mp hkeys
    have hrest := ih hkeys
    rw [map_cons, map_cons, sum_cons, storedSum_cons, heldSum_cons]
    split_ifs with hstored
    · have hload := lamports_loadKey ctx db hk hstored
      simp only
      omega
    have hrent := rent_loadKey ctx db tx.message (by simpa using hstored : k.isStored = false)
    omega

lemma storedSum_loaded (h : loadTransaction ctx db tx fee = .ok loaded) :
    storedSum tx.keys loaded.accounts + loaded.rent + fee = heldSum db tx.keys := by
  obtain ⟨hfee, -, haccounts, hrent, -⟩ := loadTransaction_eq_ok h
  have hall : storedSum tx.keys (tx.keys.map fun k ↦ (k.key, (loadKey ctx db tx.message k).1)) +
      (tx.keys.map fun k ↦ (loadKey ctx db tx.message k).2).sum = heldSum db tx.keys :=
    storedSum_loadKey ctx db fun k hk ↦ hk
  rw [LockedTransaction.keys, map_cons, storedSum_cons, if_pos tx.isStored_feePayer] at hall
  rw [haccounts, hrent, LockedTransaction.keys, storedSum_cons, if_pos tx.isStored_feePayer]
  simp only at hall ⊢
  omega

lemma length_accounts_of_load (h : loadTransaction ctx db tx fee = .ok loaded) :
    loaded.accounts.map fst = tx.keys.map MessageKey.key := by
  obtain ⟨-, -, haccounts, -, -⟩ := loadTransaction_eq_ok h
  rw [haccounts, LockedTransaction.keys]
  simp [map_map, comp_def]

lemma map_fst_zip_of_addresses (h : accounts.map fst = keys.map MessageKey.key) :
    (keys.zip accounts).map fst = keys := by
  refine map_fst_zip (le_of_eq ?_)
  rw [← length_map key, ← h, length_map]

lemma sum_heldAt (h : (storedAccounts collected).map fst = slots.map fun slot ↦ slot.2.1) :
    heldAt db (storedAccounts collected) = (slots.map fun slot ↦ (db slot.2.1).lamports).sum := by
  have hmap := congrArg (map fun key ↦ (db key).lamports) h
  rw [map_map, map_map] at hmap
  exact congrArg sum hmap

/-- A transaction that succeeded stores what its accounts held, less rent and fee. -/
theorem collected_success {nonce : Option NonceFull}
    (hload : loadTransaction ctx db tx fee = .ok loaded)
    (hexec : Conserves tx.keys loaded.accounts accounts)
    (h : collectTransaction ctx tx accounts nonce false = some collected) :
    lamportsOf (storedAccounts collected) + (loaded.rent + chargedRent collected) + fee =
      heldAt db (storedAccounts collected) := by
  have haddr : accounts.map fst = tx.keys.map MessageKey.key :=
    hexec.addresses.trans (length_accounts_of_load hload)
  obtain ⟨hstored, hsum⟩ := sum_collected (collectTransaction_success haddr h)
  have hslots : (nonLoaderSlots tx accounts).filter (fun slot ↦ slot.1.isWritable) =
      (tx.keys.zip accounts).filter fun slot ↦ slot.1.isStored := by
    rw [nonLoaderSlots, filter_filter]
    rfl
  rw [hslots] at hstored hsum
  have hlen : ∀ l : List (Pubkey × Account), l.map fst = tx.keys.map MessageKey.key →
      l.length = tx.keys.length := by
    intro l hl
    rw [← length_map fst, hl, length_map]
  have hheld : heldAt db (storedAccounts collected) = heldSum db tx.keys := by
    rw [sum_heldAt hstored, heldSum, ← map_fst_zip_of_addresses haddr, filter_map,
      map_map, map_fst_zip_of_addresses haddr]
    refine congrArg sum (map_congr_left fun slot hslot ↦ ?_)
    rw [address_of_mem_zip haddr (mem_of_mem_filter hslot)]
    rfl
  have hloaded := storedSum_loaded hload
  have hconserve := storedSum_add_lamportsOf (hlen _ (length_accounts_of_load hload))
    (hlen _ haddr) hexec.eq_of_not_isStored
  rw [hexec.sum_eq] at hconserve
  have hexecSum : lamportsOf (storedAccounts collected) + chargedRent collected =
      storedSum tx.keys accounts := hsum
  rw [hheld]
  omega

end

/-! ### A transaction with a durable nonce that failed -/

section

variable {partialNonce : NoncePartial}

/-- The fee payer with the fee taken but not the rent. -/
def feePayerCopy (ctx : CommitContext) (db : BankAccounts) (tx : LockedTransaction) (fee : ℕ) :
    Account :=
  { (loadKey ctx db tx.message tx.feePayer).1 with lamports := (db tx.feePayer.key).lamports - fee }

/-- The accounts a failed transaction stores. -/
def isRolledBack (tx : LockedTransaction) (nonce : NonceFull)
    (slot : MessageKey × Pubkey × Account) : Bool :=
  slot.1.isWritable && (decide (slot.2.1 = nonce.address) || decide (slot.2.1 = tx.feePayer.key))

def rolledBackLamports (db : BankAccounts) (tx : LockedTransaction) (fee : ℕ)
    (slot : MessageKey × Pubkey × Account) : ℕ :=
  (db slot.2.1).lamports - if slot.2.1 = tx.feePayer.key then fee else 0

variable (hload : loadTransaction ctx db tx fee = .ok loaded)
  (hu64 : (db tx.feePayer.key).lamports < 2 ^ 64)
  (hnonce : NonceFull.fromPartial partialNonce tx loaded = .ok nonce)

include hload hu64 hnonce

/-- What is put aside: the fee payer, and the nonce account as it is in the bank, unless they are
one. -/
theorem fromPartial_eq_ok : fee ≤ (db tx.feePayer.key).lamports ∧
      nonce = if tx.feePayer.key = partialNonce.address then
        ⟨partialNonce.address, feePayerCopy ctx db tx fee, none⟩
        else ⟨partialNonce.address, partialNonce.account, some (feePayerCopy ctx db tx fee)⟩ := by
  obtain ⟨hfee, -, haccounts, -, -⟩ := loadTransaction_eq_ok hload
  have hlamports := lamports_loadKey ctx db mem_cons_self tx.isStored_feePayer
  have hdebit := getAccountRentDebit_feePayer hload
  have hback : saturatingAdd 64 ((loadKey ctx db tx.message tx.feePayer).1.lamports - fee)
      (loadKey ctx db tx.message tx.feePayer).2 = (db tx.feePayer.key).lamports - fee := by
    rw [saturatingAdd]
    omega
  rw [NonceFull.fromPartial, haccounts, LockedTransaction.keys, zip_cons_cons] at hnonce
  simp only [find?_cons, tx.isNonLoaderKey_feePayer, hdebit, hback] at hnonce
  refine ⟨by omega, ?_⟩
  split_ifs at hnonce ⊢
  · exact (Except.ok.inj hnonce).symm
  · exact (Except.ok.inj hnonce).symm

lemma address_fromPartial : nonce.address = partialNonce.address := by
  rw [(fromPartial_eq_ok hload hu64 hnonce).2]
  split_ifs <;> rfl

variable (hinBank : partialNonce.account = db partialNonce.address)
  (haddr : accounts.map fst = tx.keys.map MessageKey.key)

include hinBank haddr

/-- A transaction that failed stores the copies that were put aside. -/
theorem collectTransaction_failed
    (h : collectTransaction ctx tx accounts (some nonce) true = some collected) :
    Forall₂ (Collected (isRolledBack tx nonce) (rolledBackLamports db tx fee))
      (nonLoaderSlots tx accounts) collected := by
  obtain ⟨hfee, hfull⟩ := fromPartial_eq_ok hload hu64 hnonce
  have haddress := address_fromPartial hload hu64 hnonce
  have hslots := mapM_eq_some_iff.mp ((collect_slots_eq haddr).symm.trans h)
  refine hslots.imp fun slot r hr ↦ ?_
  rw [Collected]
  by_cases hw : slot.1.isWritable = true
  · obtain ⟨account, isNonce, hprepare, hstored⟩ := collectKey_eq_some hr hw
    by_cases hsame : slot.2.1 = nonce.address
    · -- the nonce account, which may be the fee payer
      rw [hsame] at hprepare
      obtain ⟨rfl, haccount, -⟩ := prepareIfNonceAccount_nonce hprepare
      rw [if_pos (by simp), haccount, if_pos rfl] at hstored
      obtain ⟨a, ha, hsum⟩ := hstored
      rw [if_pos (by simp [isRolledBack, hw, hsame]), rolledBackLamports]
      refine ⟨a, ha, hsum.trans ?_⟩
      rw [hfull, hsame, haddress]
      by_cases hpayer : tx.feePayer.key = partialNonce.address
      · rw [if_pos hpayer, if_pos hpayer.symm, ← hpayer]
        rfl
      rw [if_neg hpayer, if_neg (Ne.symm hpayer), hinBank]
      rfl
    rw [prepareIfNonceAccount_other hsame] at hprepare
    obtain ⟨rfl, rfl⟩ := mk.inj (some.inj hprepare)
    by_cases hpayer : slot.2.1 = tx.feePayer.key
    · have hother : tx.feePayer.key ≠ partialNonce.address := by
        rw [← hpayer, ← haddress]
        exact hsame
      rw [if_pos (by simp [hpayer]), decide_eq_true hpayer, hfull, if_neg hother] at hstored
      obtain ⟨a, ha, hsum⟩ := hstored
      rw [if_pos (by simp [isRolledBack, hw, hpayer]), rolledBackLamports, if_pos hpayer]
      refine ⟨a, ha, hsum.trans ?_⟩
      rw [hpayer]
      rfl
    rw [if_neg (by simp [isRolledBack, hsame, hpayer])]
    rwa [if_neg (by simp [hpayer])] at hstored
  rw [if_neg (by simp [isRolledBack, hw])]
  exact collectKey_of_not_isWritable hr (by simpa using hw)

lemma collected_failed
    (h : collectTransaction ctx tx accounts (some nonce) true = some collected) :
    lamportsOf (storedAccounts collected) + chargedRent collected + fee =
      heldAt db (storedAccounts collected) := by
  obtain ⟨hfee, -⟩ := fromPartial_eq_ok hload hu64 hnonce
  obtain ⟨hstored, hsum⟩ := sum_collected
    (collectTransaction_failed hload hu64 hnonce hinBank haddr h)
  rw [hsum, sum_heldAt hstored]
  cases accounts with
  | nil => cases haddr
  | cons first accounts =>
    rw [LockedTransaction.keys, map_cons, map_cons, cons.injEq] at haddr
    have hkept : isRolledBack tx nonce (tx.feePayer, first) = true := by
      simp [isRolledBack, tx.isWritable_feePayer, haddr.1]
    have hrest : ((((tx.others.zip accounts).filter fun p ↦ p.1.isNonLoaderKey).filter
        (isRolledBack tx nonce)).map (rolledBackLamports db tx fee)).sum =
        ((((tx.others.zip accounts).filter fun p ↦ p.1.isNonLoaderKey).filter
        (isRolledBack tx nonce)).map fun slot ↦ (db slot.2.1).lamports).sum := by
      refine congrArg sum (map_congr_left fun slot hslot ↦ ?_)
      have hne := tx.ne_feePayer haddr.2 (mem_of_mem_filter (mem_of_mem_filter hslot))
      rw [rolledBackLamports, if_neg hne, Nat.sub_zero]
    rw [nonLoaderSlots_cons, filter_cons_of_pos hkept, map_cons, map_cons, sum_cons, sum_cons,
      hrest, rolledBackLamports, if_pos haddr.1]
    simp only [haddr.1]
    omega

end

/-! ### Batches -/

/-- The writable keys of a transaction; a batch holds write locks on them. -/
def LockedTransaction.writableKeys (tx : LockedTransaction) : List Pubkey :=
  (tx.keys.filter MessageKey.isWritable).map MessageKey.key

/-- **What a commit is given**: a transaction that was loaded from the bank and executed, or was
not. An execution that succeeded conserves lamports; one that failed leaves any accounts behind. -/
inductive IsProcessed (ctx : CommitContext) (db : BankAccounts) : ProcessedTransaction → Prop
  | notLoaded (tx : LockedTransaction) (error error' : TransactionError)
      (nonce : Option NonceFull) :
      IsProcessed ctx db ⟨tx, .error error, nonce, .notExecuted error'⟩
  | notExecuted (tx : LockedTransaction) (loaded : LoadedTransaction) (nonce : Option NonceFull)
      (error : TransactionError) :
      IsProcessed ctx db ⟨tx, .ok loaded, nonce, .notExecuted error⟩
  | succeeded {tx : LockedTransaction} {partialNonce : Option NoncePartial}
      {loaded : LoadedTransaction} {nonce : Option NonceFull} {fee : ℕ}
      {accounts : List (Pubkey × Account)}
      (hinBank : ∀ n ∈ partialNonce, n.account = db n.address)
      (hload : loadWithNonce ctx db tx partialNonce = .ok (loaded, nonce, fee))
      (hexec : Conserves tx.keys loaded.accounts accounts) :
      IsProcessed ctx db ⟨tx, .ok { loaded with accounts := accounts }, nonce,
        .executed false (nonce.map fun n ↦ lamportsPerSignatureOf n.account)⟩
  | failed {tx : LockedTransaction} {partialNonce : Option NoncePartial}
      {loaded : LoadedTransaction} {nonce : Option NonceFull} {fee : ℕ}
      {accounts : List (Pubkey × Account)}
      (hinBank : ∀ n ∈ partialNonce, n.account = db n.address)
      (hload : loadWithNonce ctx db tx partialNonce = .ok (loaded, nonce, fee))
      (hexec : accounts.map fst = loaded.accounts.map fst) :
      IsProcessed ctx db ⟨tx, .ok { loaded with accounts := accounts }, nonce,
        .executed true (nonce.map fun n ↦ lamportsPerSignatureOf n.account)⟩

def ProcessedTransaction.rollbackRent (p : ProcessedTransaction) (charged : ℕ) : ℕ :=
  match p.execution with
  | .executed true _ => charged
  | _ => 0

/-- The rent charged to the transactions of a batch that failed. -/
def rollbackRents (batch : List ProcessedTransaction)
    (collected : List (List (Option (Pubkey × Account) × ℕ))) : ℕ :=
  (zipWith (fun p c ↦ p.rollbackRent (chargedRent c)) batch collected).sum

/-- One of the copies that a failed transaction with a durable nonce writes back, of its fee payer
and its nonce account, owes rent. -/
def ProcessedTransaction.CopyOwesRent (ctx : CommitContext) (p : ProcessedTransaction) : Prop :=
  ∃ loaded nonce fee, p.loadResult = .ok loaded ∧ p.nonce = some nonce ∧
    p.execution = .executed true fee ∧
    ∃ slot ∈ nonLoaderSlots p.tx loaded.accounts, slot.1.isWritable = true ∧ ∃ copy isNonce,
      prepareIfNonceAccount ctx slot.2.1 slot.2.2 true (decide (slot.2.1 = p.tx.feePayer.key))
        (some (nonce, true)) = some (copy, isNonce) ∧
      (isNonce || decide (slot.2.1 = p.tx.feePayer.key)) = true ∧ OwesRent ctx slot.2.1 copy

section

variable {p : ProcessedTransaction}

lemma loadWithNonce_eq_ok {partialNonce : Option NoncePartial} {nonce : Option NonceFull}
    (h : loadWithNonce ctx db tx partialNonce = .ok (loaded, nonce, fee)) :
    (∃ rate, (match partialNonce with
        | some n => lamportsPerSignatureOf n.account
        | none => ctx.lamportsPerSignatureOfHash tx.recentBlockhash) = some rate ∧
      fee = ctx.calculateFee tx.message rate) ∧
    loadTransaction ctx db tx fee = .ok loaded ∧
    (partialNonce = none ∧ nonce = none ∨ ∃ n full, partialNonce = some n ∧ nonce = some full ∧
      NonceFull.fromPartial n tx loaded = .ok full) := by
  unfold loadWithNonce at h
  simp only at h
  split at h
  · cases h
  next rate hrate =>
    obtain ⟨loaded', hl, h⟩ := Codec.bind_eq_ok.mp h
    cases partialNonce with
    | none =>
      cases h
      exact ⟨⟨rate, hrate, rfl⟩, hl, .inl ⟨rfl, rfl⟩⟩
    | some n =>
      obtain ⟨full, hfull, h⟩ := Codec.bind_eq_ok.mp h
      cases h
      exact ⟨⟨rate, hrate, rfl⟩, hl, .inr ⟨n, full, rfl, rfl, hfull⟩⟩

lemma lamportsPerSignatureOf_fromPartial {n : NoncePartial} {full : NonceFull}
    (hload : loadTransaction ctx db tx fee = .ok loaded)
    (hu64 : (db tx.feePayer.key).lamports < 2 ^ 64) (hinBank : n.account = db n.address)
    (h : NonceFull.fromPartial n tx loaded = .ok full) :
    lamportsPerSignatureOf full.account = lamportsPerSignatureOf n.account := by
  obtain ⟨-, hfull⟩ := fromPartial_eq_ok hload hu64 h
  rw [hfull]
  split_ifs with hsame
  · have hdata : (loadKey ctx db tx.message tx.feePayer).1.data = n.account.data := by
      obtain ⟨lamports, rentEpoch, hcopy⟩ := loadKey_feePayer hload
      rw [hcopy, hinBank, hsame]
    rw [lamportsPerSignatureOf, lamportsPerSignatureOf, ← hdata]
    rfl
  · rfl

lemma storedAccounts_sublist (haddr : accounts.map fst = tx.keys.map MessageKey.key)
    (hkept : ∀ slot, isKept slot = true → slot.1.isWritable = true)
    (h : (storedAccounts collected).map fst =
      ((nonLoaderSlots tx accounts).filter isKept).map fun slot ↦ slot.2.1) :
    ((storedAccounts collected).map fst).Sublist tx.writableKeys := by
  have hkeys : ((nonLoaderSlots tx accounts).filter isKept).map (fun slot ↦ slot.2.1) =
      ((nonLoaderSlots tx accounts).filter isKept).map fun slot ↦ slot.1.key := by
    refine map_congr_left fun slot hslot ↦ address_of_mem_zip haddr ?_
    exact mem_of_mem_filter (mem_of_mem_filter hslot)
  have hall : tx.writableKeys = ((tx.keys.zip accounts).filter fun slot ↦ slot.1.isWritable).map
      fun slot ↦ slot.1.key := by
    rw [LockedTransaction.writableKeys, ← map_fst_zip_of_addresses haddr, filter_map,
      map_map, map_fst_zip_of_addresses haddr]
    rfl
  rw [h, hkeys, hall, nonLoaderSlots, filter_filter]
  refine (monotone_filter_right _ fun slot hslot ↦ ?_).map _
  exact hkept slot (Bool.and_elim_left hslot)

/-- The accounting of a transaction: what it stores, its rent and the fee it has already paid are
what its accounts held. What it has not paid is withdrawn when its fee is counted. -/
theorem IsProcessed.accounting (h : IsProcessed ctx db p)
    (hu64 : (db p.tx.feePayer.key).lamports < 2 ^ 64) (hc : p.collect ctx = some collected) :
    ((storedAccounts collected).map fst).Sublist p.tx.writableKeys ∧ ∃ prepaid,
      lamportsOf (storedAccounts collected) + p.rent (chargedRent collected) +
        p.rollbackRent (chargedRent collected) + prepaid = heldAt db (storedAccounts collected) ∧
      ∀ (keys : Finset Pubkey) (bank : BankAccounts), p.tx.feePayer.key ∈ keys →
        match p.collectFee ctx bank with
        | .ok (bank', fee) => totalLamports keys bank' + fee = totalLamports keys bank + prepaid
        | .error _ => prepaid = 0 := by
  cases h with
  | notLoaded | notExecuted =>
    cases hc
    exact ⟨nil_sublist _, 0, rfl, fun _ _ _ ↦ rfl⟩
  | @succeeded tx partialNonce loaded nonce fee accounts hinBank hload hexec =>
    obtain ⟨⟨rate, hrate, hfee⟩, hl, hcase⟩ := loadWithNonce_eq_ok hload
    have haddr := hexec.addresses.trans (length_accounts_of_load hl)
    replace hc : collectTransaction ctx tx accounts nonce false = some collected := hc
    refine ⟨storedAccounts_sublist haddr (fun _ hw ↦ hw)
      (sum_collected (collectTransaction_success haddr hc)).1, fee, ?_, ?_⟩
    · have hsum := collected_success hl hexec hc
      show _ + (loaded.rent + chargedRent collected) + 0 + fee = _
      omega
    intro keys bank _
    have hcommit : (nonce.map fun n ↦ lamportsPerSignatureOf n.account).getD
        (ctx.lamportsPerSignatureOfHash tx.recentBlockhash) = some rate := by
      rcases hcase with ⟨rfl, rfl⟩ | ⟨n, full, rfl, rfl, hfull⟩
      · exact hrate
      · exact (lamportsPerSignatureOf_fromPartial hl hu64 (hinBank n rfl) hfull).trans hrate
    simp only [collectFee, hcommit, Bool.false_and, Bool.false_eq_true, if_false, ← hfee]
    rfl
  | @failed tx partialNonce loaded nonce fee accounts hinBank hload hexec =>
    obtain ⟨⟨rate, hrate, hfee⟩, hl, hcase⟩ := loadWithNonce_eq_ok hload
    have haddr := hexec.trans (length_accounts_of_load hl)
    replace hc : collectTransaction ctx tx accounts nonce true = some collected := hc
    rcases hcase with ⟨rfl, rfl⟩ | ⟨n, full, rfl, rfl, hfull⟩
    · -- nothing is stored, and the fee is withdrawn
      cases hc
      refine ⟨nil_sublist _, 0, rfl, fun keys bank hkey ↦ ?_⟩
      simp only [collectFee, map_none, getD_none, hrate,
        isNone_none, Bool.and_self, if_true, ← hfee]
      cases hw : withdraw ctx bank tx.feePayer.key fee with
      | error e => exact trivial
      | ok bank' => exact totalLamports_withdraw hkey hw
    have hn := hinBank n rfl
    refine ⟨storedAccounts_sublist haddr (fun slot hw ↦ Bool.and_elim_left hw)
      (sum_collected (collectTransaction_failed hl hu64 hfull hn haddr hc)).1, fee, ?_, ?_⟩
    · have hsum := collected_failed hl hu64 hfull hn haddr hc
      show _ + 0 + chargedRent collected + fee = _
      omega
    intro keys bank _
    have hcommit := (lamportsPerSignatureOf_fromPartial hl hu64 hn hfull).trans hrate
    simp only [collectFee, map_some, getD_some, hcommit,
      isNone_some, Bool.and_false, Bool.false_eq_true, if_false, ← hfee]
    rfl

lemma lamportsOf_append (l l' : List (Pubkey × Account)) :
    lamportsOf (l ++ l') = lamportsOf l + lamportsOf l' := by
  rw [lamportsOf, map_append, sum_append]
  rfl

lemma heldAt_append (db : BankAccounts) (l l' : List (Pubkey × Account)) :
    heldAt db (l ++ l') = heldAt db l + heldAt db l' := by
  rw [heldAt, map_append, sum_append]
  rfl

variable {batch : List ProcessedTransaction}

lemma batch_accounting {collected : List (List (Option (Pubkey × Account) × ℕ))}
    (hu64 : ∀ key, (db key).lamports < 2 ^ 64) (hbatch : ∀ p ∈ batch, IsProcessed ctx db p)
    (hc : Forall₂ (fun p c ↦ collect ctx p = some c) batch collected) :
    ((collected.flatMap storedAccounts).map fst).Sublist
        (batch.flatMap fun p ↦ p.tx.writableKeys) ∧ ∃ prepaid,
      lamportsOf (collected.flatMap storedAccounts) + collectRent batch collected +
        rollbackRents batch collected + prepaid = heldAt db (collected.flatMap storedAccounts) ∧
      ∀ (keys : Finset Pubkey) (s : BankAccounts × ℕ), (∀ p ∈ batch, p.tx.feePayer.key ∈ keys) →
        totalLamports keys (batch.foldl (chargeFee ctx) s).1 + (batch.foldl (chargeFee ctx) s).2 =
          totalLamports keys s.1 + s.2 + prepaid := by
  induction hc with
  | nil => exact ⟨nil_sublist _, 0, rfl, fun _ _ _ ↦ rfl⟩
  | @cons p c batch collected hp _ ih =>
    obtain ⟨hproc, hbatch⟩ := forall_mem_cons.mp hbatch
    obtain ⟨hsub, prepaid, hsum, hfees⟩ := hproc.accounting (hu64 _) hp
    obtain ⟨hsubs, prepaids, hsums, hfeess⟩ := ih hbatch
    refine ⟨?_, prepaid + prepaids, ?_, ?_⟩
    · rw [flatMap_cons, flatMap_cons, map_append]
      exact hsub.append hsubs
    · rw [flatMap_cons, lamportsOf_append, heldAt_append]
      simp only [collectRent, rollbackRents, zipWith_cons_cons, sum_cons] at hsums ⊢
      omega
    intro keys s hkeys
    obtain ⟨hkey, hkeys⟩ := forall_mem_cons.mp hkeys
    have hfee := hfees keys s.1 hkey
    rw [foldl_cons, hfeess keys _ hkeys, chargeFee]
    cases hcollect : p.collectFee ctx s.1 with
    | ok charged | error e =>
      rw [hcollect] at hfee
      simp only at hfee ⊢
      omega

/-- The balance of a commit, with the rent that is charged to transactions that failed. -/
theorem commit_accounting {bank bank' : BankBalances}
    (hu64 : ∀ key, (bank.accounts key).lamports < 2 ^ 64)
    (hbatch : ∀ p ∈ batch, IsProcessed ctx bank.accounts p)
    (hlocks : (batch.flatMap fun p ↦ p.tx.writableKeys).Nodup)
    (hkeys : ∀ p ∈ batch, ∀ key ∈ p.tx.writableKeys, key ∈ keys)
    (hrun : commitTransactions ctx bank batch = some bank') :
    ∃ collected, collectAccountsToStore ctx batch = some collected ∧
      totalLamports keys bank'.accounts + bank'.collectorFees + bank'.collectedRent +
        rollbackRents batch collected =
      totalLamports keys bank.accounts + bank.collectorFees + bank.collectedRent := by
  simp only [commitTransactions, bind_eq_some, pure_eq_some] at hrun
  obtain ⟨collected, hcollected, rfl⟩ := hrun
  refine ⟨collected, hcollected, ?_⟩
  obtain ⟨hsub, prepaid, hsum, hfees⟩ :=
    batch_accounting hu64 hbatch (mapM_eq_some_iff.mp hcollected)
  have hstored : ∀ q ∈ collected.flatMap storedAccounts, q.1 ∈ keys := by
    intro q hq
    obtain ⟨p, hp, hkey⟩ := mem_flatMap.mp (hsub.subset (mem_map_of_mem hq))
    exact hkeys p hp _ hkey
  have hpayers : ∀ p ∈ batch, p.tx.feePayer.key ∈ keys := by
    intro p hp
    refine hkeys p hp _ (mem_map_of_mem (mem_filter.mpr ⟨mem_cons_self, ?_⟩))
    exact p.tx.isWritable_feePayer
  have hstore := totalLamports_storeAccounts bank.accounts (hsub.nodup hlocks) hstored
  have hfee := hfees keys (storeAccounts bank.accounts (collected.flatMap storedAccounts), 0)
    hpayers
  rw [← filterProgramErrorsAndCollectFee] at hfee
  simp only at hfee ⊢
  omega

lemma IsProcessed.rollbackRent_ne_zero (h : IsProcessed ctx db p)
    (hc : p.collect ctx = some collected) :
    p.rollbackRent (chargedRent collected) ≠ 0 ↔ p.CopyOwesRent ctx := by
  cases h with
  | notLoaded | notExecuted | succeeded =>
    exact iff_of_false (not_not.mpr rfl) (by rintro ⟨_, _, _, _, _, ⟨⟩, _⟩)
  | @failed tx partialNonce loaded nonce fee accounts hinBank hload hexec =>
    have haddr := hexec.trans (length_accounts_of_load (loadWithNonce_eq_ok hload).2.1)
    cases nonce with
    | none =>
      cases hc
      exact iff_of_false (not_not.mpr rfl) (by rintro ⟨_, _, _, _, ⟨⟩, _⟩)
    | some nonce =>
      have hslots := mapM_eq_some_iff.mp ((collect_slots_eq haddr).symm.trans hc)
      have hcharged := chargedRent_ne_zero (hslots.imp fun _ _ hr ↦ collectKey_rent_ne_zero hr)
      refine hcharged.trans ⟨fun h ↦ ⟨_, nonce, _, rfl, rfl, rfl, h⟩, ?_⟩
      rintro ⟨_, _, _, ⟨⟩, ⟨⟩, ⟨⟩, h⟩
      exact h

/-- **When a commit conserves lamports**: for any mix of transactions that succeeded, failed, or
failed with a durable nonce, the balances of a set of accounts that includes theirs, together with
the fees and the rent collected, are what they were exactly if no copy that is written back for a
failed transaction owes rent. -/
theorem commit_conserves_iff {bank bank' : BankBalances} {batch : List ProcessedTransaction}
    {keys : Finset Pubkey} (hu64 : ∀ key, (bank.accounts key).lamports < 2 ^ 64)
    (hbatch : ∀ p ∈ batch, IsProcessed ctx bank.accounts p)
    (hlocks : (batch.flatMap fun p ↦ p.tx.writableKeys).Nodup)
    (hkeys : ∀ p ∈ batch, ∀ key ∈ p.tx.writableKeys, key ∈ keys)
    (hrun : commitTransactions ctx bank batch = some bank') :
    totalLamports keys bank'.accounts + bank'.collectorFees + bank'.collectedRent =
        totalLamports keys bank.accounts + bank.collectorFees + bank.collectedRent ↔
      ∀ p ∈ batch, ¬p.CopyOwesRent ctx := by
  obtain ⟨collected, hcollected, hsum⟩ := commit_accounting hu64 hbatch hlocks hkeys hrun
  have hnone : rollbackRents batch collected = 0 ↔ ∀ p ∈ batch, ¬p.CopyOwesRent ctx := by
    have hforall := mapM_eq_some_iff.mp hcollected
    clear hcollected hsum hrun hlocks hkeys
    induction hforall with
    | nil => simp [rollbackRents]
    | @cons p c batch collected hp _ ih =>
      obtain ⟨hproc, hbatch⟩ := forall_mem_cons.mp hbatch
      rw [rollbackRents, zipWith_cons_cons, sum_cons, Nat.add_eq_zero_iff, forall_mem_cons,
        ← hproc.rollbackRent_ne_zero hp, not_not]
      exact and_congr_right fun _ ↦ ih hbatch
  rw [← hnone]
  omega

end

/-! ### Rent on a rollback -/

section

variable (ctx : CommitContext) (db : BankAccounts) (tx : LockedTransaction)

/-- A transaction that fails as soon as it is loaded. -/
def failOnce (nonce : NoncePartial) : ProcessedTransaction :=
  match loadWithNonce ctx db tx (some nonce) with
  | .ok (loaded, nonce, _) =>
    ⟨tx, .ok loaded, nonce, .executed true (nonce.map fun n ↦ lamportsPerSignatureOf n.account)⟩
  | .error e => ⟨tx, .error e, none, .notExecuted e⟩

lemma isProcessed_failOnce (address : Pubkey) :
    IsProcessed ctx db (failOnce ctx db tx ⟨address, db address⟩) := by
  rw [failOnce]
  split
  next loaded nonce fee hload =>
    refine IsProcessed.failed (fun n hn ↦ ?_) hload rfl
    rw [← mem_some_iff.mp hn]
  next e _ => exact IsProcessed.notLoaded tx e e none

end

/-- A transaction that advances the nonce account `2`, paid for by `1`. -/
def advanceTransaction : LockedTransaction where
  message := .legacy ⟨⟨1, 0, 2⟩, [⟨1⟩, ⟨2⟩,
    ⟨0x6a7d517192c568ee08a845f73d29788cf035c3145b21ab344d8062ea9400000#256⟩, systemProgramId], ⟨7⟩,
    [⟨3, [1, 2, 0], [4, 0, 0, 0]⟩]⟩
  recentBlockhash := ⟨7⟩
  feePayer := ⟨⟨1⟩, true, true⟩
  others := [⟨⟨2⟩, true, true⟩,
    ⟨⟨0x6a7d517192c568ee08a845f73d29788cf035c3145b21ab344d8062ea9400000#256⟩, false, true⟩,
    ⟨systemProgramId, false, false⟩]
  messageKeys_eq := by decide
  nodup := by decide
  isWritable_feePayer := rfl
  isNonLoaderKey_feePayer := rfl

/-- A bank in epoch 3 where an account with data needs 10 lamports to be exempt and owes 2
otherwise, and a fee is 1. -/
def smallContext : CommitContext where
  rentCollector :=
    { epoch := 3
      getRentDue := fun a ↦ if a.data = [] ∨ 10 ≤ a.lamports then .exempt else .paying 2
      minimumBalance := fun _ ↦ 10 }
  rentForSysvars := true
  leaveNonceOnSuccess := true
  instructionsData := fun _ ↦ []
  calculateFee := fun _ rate ↦ rate
  lamportsPerSignatureOfHash := fun _ ↦ none
  durableNonce := ⟨8⟩
  separateDomains := true
  lamportsPerSignature := 1

/-- The fee payer has 100 lamports, the nonce account some, and a rent epoch of its own. -/
def smallBank (lamports : ℕ) (rentEpoch : ℕ) : BankBalances where
  accounts := fun key ↦
    if key = ⟨1⟩ then ⟨100, [], systemProgramId, false, 1⟩
    else if key = ⟨2⟩ then ⟨lamports,
      NonceVersions.encode (.current (.initialized ⟨⟨1⟩, ⟨7⟩, 1⟩)), systemProgramId,
        false, rentEpoch⟩
    else default
  collectorFees := 0
  collectedRent := 0

lemma smallBank_lt {rentEpoch : ℕ} (h : lamports < 2 ^ 64) (key : Pubkey) :
    ((smallBank lamports rentEpoch).accounts key).lamports < 2 ^ 64 := by
  simp only [smallBank]
  split_ifs
  · decide
  · exact h
  · exact Nat.two_pow_pos 64

/-- It fails in the bank where its nonce account has some lamports, and the initial rent epoch. -/
def failedAdvance (lamports : ℕ) : ProcessedTransaction :=
  failOnce smallContext (smallBank lamports 0).accounts advanceTransaction
    ⟨⟨2⟩, (smallBank lamports 0).accounts ⟨2⟩⟩

/-- A failed transaction with a durable nonce, whose nonce account has the initial rent epoch but
enough lamports to be exempt. -/
theorem commit_conserves_iff_nonce :
    ∃ bank', commitTransactions smallContext (smallBank 50 0) [failedAdvance 50] = some bank' ∧
      totalLamports {⟨1⟩, ⟨2⟩} bank'.accounts + bank'.collectorFees + bank'.collectedRent = 150 ∧
      ¬(failedAdvance 50).CopyOwesRent smallContext := by
  have hrun : ((commitTransactions smallContext (smallBank 50 0) [failedAdvance 50]).any fun b ↦
      decide (totalLamports {⟨1⟩, ⟨2⟩} b.accounts + b.collectorFees + b.collectedRent = 150)) =
      true := by decide +kernel
  obtain ⟨bank', hbank', hsum⟩ := (Option.any_eq_true _ _).mp hrun
  have hkeys : ∀ key ∈ (failedAdvance 50).tx.writableKeys,
      key ∈ ({⟨1⟩, ⟨2⟩} : Finset Pubkey) := by decide +kernel
  have hconserves := commit_conserves_iff (smallBank_lt (by decide))
    (forall_mem_singleton.mpr (isProcessed_failOnce _ _ _ _)) (by decide +kernel)
    (forall_mem_singleton.mpr hkeys) hbank'
  exact ⟨bank', hbank', of_decide_eq_true hsum,
    hconserves.mp ((of_decide_eq_true hsum).trans (by decide +kernel)) _ mem_cons_self⟩

/-- **Rent on a rollback is lost.** A transaction with a durable nonce fails; its nonce account,
with 5 lamports and the initial rent epoch, is rolled back, charged 2 lamports of rent as if it were
new, and written back. Nobody counts them. -/
theorem rollback_rent_lost : ∃ (ctx : CommitContext) (bank bank' : BankBalances)
    (p : ProcessedTransaction), (∀ key, (bank.accounts key).lamports < 2 ^ 64) ∧
    IsProcessed ctx bank.accounts p ∧ p.tx.writableKeys = [⟨1⟩, ⟨2⟩] ∧
    commitTransactions ctx bank [p] = some bank' ∧
    totalLamports {⟨1⟩, ⟨2⟩} bank'.accounts + bank'.collectorFees + bank'.collectedRent + 2 =
      totalLamports {⟨1⟩, ⟨2⟩} bank.accounts + bank.collectorFees + bank.collectedRent := by
  have hrun : ((commitTransactions smallContext (smallBank 5 0) [failedAdvance 5]).any fun b ↦
      decide (totalLamports {⟨1⟩, ⟨2⟩} b.accounts + b.collectorFees + b.collectedRent + 2 =
        105)) = true := by decide +kernel
  obtain ⟨bank', hbank', hsum⟩ := (Option.any_eq_true _ _).mp hrun
  refine ⟨smallContext, smallBank 5 0, bank', _, smallBank_lt (by decide),
    isProcessed_failOnce _ _ _ _, ?_, hbank', (of_decide_eq_true hsum).trans ?_⟩
  · decide +kernel
  · decide +kernel

end Renec
