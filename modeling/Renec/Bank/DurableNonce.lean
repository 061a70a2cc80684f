import Renec.Bank.CommitConservation
import Renec.Runtime.SystemProgram

/-!
# A durable nonce is used once

A transaction with a durable nonce names, in place of a recent blockhash, the value kept in a nonce
account, and its first instruction advances that account (`Bank::check_transaction_for_nonce`). Once
it has been executed, the account that is written back must not verify the value again.
-/

namespace Renec

open List Outcome NonceVersions CommitContext SanitizedMessage
open Option hiding all_eq_true any_eq_true map_map mem_map
open Prod hiding map_map

/-! ### The check -/

namespace SanitizedMessage

variable (m : SanitizedMessage)

/-- The address of the nonce account if the first instruction advances one. -/
def getDurableNonce (nonceMustBeWritable : Bool) : Option (Option Pubkey) :=
  match m.instructions[0]? with
  | none => some none
  | some ix =>
    if m.accountKeys[ix.programIdIndex]? = some systemProgramId ∧
        -- at most the four bytes of the variant are read
        SystemInstruction.decode (ix.data.take 4) = some .advanceNonceAccount then
      match ix.accounts[0]? with
      | none => some none
      | some i => do
        let isRefused ← if nonceMustBeWritable then (m.isWritable i).map (!·) else some false
        return if isRefused then none else m.accountKeys[i]?
    else some none

/-- The accounts of an instruction that sign. -/
def getIxSigners (ixIndex : ℕ) : List Pubkey :=
  match m.instructions[ixIndex]? with
  | none => []
  | some ix => (ix.accounts.filter m.isSigner).filterMap fun i ↦ m.accountKeys[i]?

/-- The accounts of an instruction with their flags. -/
def keyedAccounts (ix : CompiledInstruction) : Option (List AccountMeta) :=
  ix.accounts.mapM fun i ↦ do return ⟨← m.accountKeys[i]?, m.isSigner i, ← m.isWritable i⟩

end SanitizedMessage

/-- A bank that executes transactions: its accounts and features. Checks, execution and commit use
the same blockhash, the last one. -/
structure NonceBank where
  accounts : BankAccounts
  commit : CommitContext
  system : SystemContext
  slot : ℕ
  isMainnetBeta : Bool
  enableDurableNonce : Bool
  nonceMustBeAuthorized : Bool
  nonceMustBeAdvanceable : Bool
  doSupportRealloc : Bool
  isExempt : ℕ → ℕ → Bool
  durableNonce_eq : commit.durableNonce = system.nextDurableNonce
  separateDomains_eq : commit.separateDomains = system.separateNonceFromBlockhash

namespace NonceBank

/-- The features that nonces depend on. -/
structure FeaturesActive (bank : NonceBank) : Prop where
  separateNonceFromBlockhash : bank.system.separateNonceFromBlockhash = true
  nonceMustBeWritable : bank.system.nonceMustBeWritable = true
  nonceMustBeAuthorized : bank.nonceMustBeAuthorized = true
  nonceMustBeAdvanceable : bank.nonceMustBeAdvanceable = true
  leaveNonceOnSuccess : bank.commit.leaveNonceOnSuccess = true

section

variable (bank : NonceBank) (tx : LockedTransaction)

def checkMessageForNonce : Option (Option NoncePartial) := do
  match ← tx.message.getDurableNonce bank.system.nonceMustBeWritable with
  | none => return none
  | some nonceAddress =>
    let nonceAccount := bank.accounts nonceAddress
    if nonceAccount.lamports = 0 then return none
    else
      match verifyNonceAccount nonceAccount tx.recentBlockhash
        bank.system.separateNonceFromBlockhash with
      | none => return none
      | some nonceData =>
        if bank.nonceMustBeAuthorized && !(tx.message.getIxSigners 0).contains nonceData.authority
        then return none
        else return some ⟨nonceAddress, nonceAccount⟩

def checkTransactionForNonce : Option (Option NoncePartial) :=
  let durableNoncesEnabled :=
    bank.enableDurableNonce || decide (bank.slot ≤ 135986379) || !bank.isMainnetBeta
  let nonceIsAdvanceable := decide (tx.recentBlockhash ≠ bank.system.nextDurableNonce)
  if durableNoncesEnabled && (nonceIsAdvanceable || !bank.nonceMustBeAdvanceable) then
    bank.checkMessageForNonce tx
  else some none

end

/-! ### Execution -/

/-- What a program did to the accounts it was given passes the check after it. -/
structure Verified (bank : NonceBank) (programId : Pubkey) (metas : List AccountMeta)
    (before after : WorkingAccounts) : Prop where
  verify : ∀ m ∈ metas, (PreAccount.new m.pubkey (before m.pubkey)).verify programId m.isWritable
    bank.isExempt (after m.pubkey) bank.doSupportRealloc = .ok ()
  frame : ∀ key, key ∉ metas.map AccountMeta.pubkey → after key = before key

/-- **One call** of a program, by a transaction or another program: the system program does what its
instructions do, any other program does what it likes to the accounts it is given. -/
inductive Call (bank : NonceBank) (before after : WorkingAccounts) : Prop
  | system (metas : List AccountMeta) (instruction : SystemInstruction)
      (hprocess : instruction.process bank.system metas before = .ok after)
      (hverified : bank.Verified systemProgramId metas before after)
  | other (programId : Pubkey) (metas : List AccountMeta) (hne : programId ≠ systemProgramId)
      (hverified : bank.Verified programId metas before after)

/-- The first instruction of a message, one of the system program. -/
def FirstInstruction (bank : NonceBank) (m : SanitizedMessage) (before after : WorkingAccounts) :
    Prop :=
  ∃ ix metas instruction, m.instructions[0]? = some ix ∧ m.keyedAccounts ix = some metas ∧
    SystemInstruction.decode ix.data = some instruction ∧
    instruction.process bank.system metas before = .ok after ∧
    bank.Verified systemProgramId metas before after

/-- **The execution of a transaction** whose first instruction is one of the system program, from
the copies of its accounts: if it succeeds, the first instruction did and any calls came after it;
if it fails, nothing is known of the accounts. -/
inductive Executed (bank : NonceBank) (tx : LockedTransaction)
    (loaded accounts : List (Pubkey × Account)) : Bool → Prop
  | succeeded (before first after : WorkingAccounts)
      (hbefore : ∀ p ∈ loaded, before p.1 = p.2)
      (hfirst : bank.FirstInstruction tx.message before first)
      (hcalls : Relation.ReflTransGen bank.Call first after)
      (haccounts : accounts = loaded.map fun p ↦ (p.1, after p.1)) :
      Executed bank tx loaded accounts false
  | failed (haddresses : accounts.map fst = loaded.map fst) :
      Executed bank tx loaded accounts true

end NonceBank

/-! ### Spent nonces -/

/-- The account data has no nonce but the next one, in a domain of its own. -/
def Spent (next : Hash) (bytes : List UInt8) : Prop :=
  ∀ versions data, NonceVersions.decode bytes = some versions → versions.state = .initialized data →
    versions.separateDomains = true ∧ data.durableNonce = next

variable {account : Account} {bank : NonceBank} {versions : NonceVersions}
  {recentBlockhash next : Hash} {separateDomains : Bool} {bytes : List UInt8}
  {first before : WorkingAccounts}

section

variable {bytes' : List UInt8}

lemma spent_of_decode (h : decode bytes = some versions)
    (hstate : ∀ data, versions.state = .initialized data →
      versions.separateDomains = true ∧ data.durableNonce = next) : Spent next bytes := by
  intro versions' data hdecode hdata
  rw [h] at hdecode
  cases hdecode
  exact hstate data hdata

lemma spent_of_new {authority : Pubkey} {lamportsPerSignature : UInt64}
    (h : decode bytes = some (.new (.initialized ⟨authority, next, lamportsPerSignature⟩) true)) :
    Spent next bytes := by
  refine spent_of_decode h fun data hdata ↦ ⟨rfl, ?_⟩
  obtain rfl := NonceState.initialized.inj hdata
  rfl

lemma spent_of_zeros (h : bytes.all (· == 0) = true) : Spent next bytes := by
  intro versions data hdecode hdata
  rw [not_initialized_of_zeros h hdecode] at hdata
  cases hdata

/-- No instruction of the system program goes back. -/
theorem SystemWrite.spent {ctx : SystemContext} (hactive : ctx.separateNonceFromBlockhash = true)
    (hspent : Spent ctx.nextDurableNonce bytes) (h : SystemWrite ctx bytes bytes') :
    Spent ctx.nextDurableNonce bytes' := by
  cases h with
  | same h => rwa [h]
  | zeroed h => exact spent_of_zeros h
  | closed h =>
    rw [hactive] at h
    refine spent_of_decode h fun data hdata ↦ ?_
    cases hdata
  | advanced authority h =>
    rw [hactive] at h
    exact spent_of_new h
  | authorized versions data authority hbefore hstate h =>
    obtain ⟨hdomains, hnonce⟩ := hspent versions data hbefore hstate
    obtain ⟨key, nonce, rate⟩ := data
    obtain rfl : nonce = ctx.nextDurableNonce := hnonce
    rw [hdomains] at h
    exact spent_of_new h
  | upgraded data hbefore =>
    -- a legacy nonce, which this account does not hold
    obtain ⟨hdomains, -⟩ := hspent _ data hbefore rfl
    cases hdomains

lemma owner_of_verify {pre : PreAccount} {programId : Pubkey} {isWritable doSupportRealloc : Bool}
    {isExempt : ℕ → ℕ → Bool} {post : Account}
    (h : pre.verify programId isWritable isExempt post doSupportRealloc = .ok ()) :
    (pre.account.owner ≠ post.owner → post.data.all (· == 0) = true) ∧
      (programId ≠ pre.account.owner → post.data = pre.account.data) := by
  simp only [PreAccount.verify, bind_eq_ok, failIf_eq_ok] at h
  obtain ⟨_, howner, _, -, _, -, _, -, _, -, _, hdata, -⟩ := h
  constructor
  · intro hne
    simp only [bne_iff_ne.mpr hne, Bool.true_and, Bool.or_eq_false_iff,
      Bool.not_eq_false'] at howner
    exact howner.2
  intro hne
  have hforeign : (programId == pre.account.owner) = false := beq_eq_false_iff_ne.mpr hne
  rw [hforeign] at hdata
  simp only [Bool.false_and, Bool.not_false, Bool.true_and, bne_eq_false_iff_eq] at hdata
  exact hdata.symm

/-- The account is no longer owned by the system program, or its nonce is spent. -/
def Account.IsSpent (next : Hash) (account : Account) : Prop :=
  account.owner = systemProgramId → Spent next account.data

variable {key : Pubkey} {after : WorkingAccounts}

/-- What verified accounts can be: those that are given to another program are wiped, and only their
owner writes to them. -/
theorem NonceBank.Verified.data {programId : Pubkey} {metas : List AccountMeta}
    (h : bank.Verified programId metas before after) (key : Pubkey) :
    ((before key).owner ≠ (after key).owner → (after key).data.all (· == 0) = true) ∧
      (programId ≠ (before key).owner → (after key).data = (before key).data) := by
  by_cases hkey : key ∈ metas.map AccountMeta.pubkey
  · obtain ⟨m, hm, rfl⟩ := mem_map.mp hkey
    exact owner_of_verify (h.verify m hm)
  rw [h.frame key hkey]
  exact ⟨fun hne ↦ absurd rfl hne, fun _ ↦ rfl⟩

/-- A call leaves a spent nonce spent. -/
theorem NonceBank.Call.isSpent (hactive : bank.FeaturesActive) (h : bank.Call before after)
    (hspent : (before key).IsSpent bank.system.nextDurableNonce) :
    (after key).IsSpent bank.system.nextDurableNonce := by
  intro howner
  by_cases hbefore : (before key).owner = systemProgramId
  · cases h with
    | system metas instruction hprocess _ =>
      exact (process_write hprocess key).spent hactive.separateNonceFromBlockhash (hspent hbefore)
    | other programId metas hne hverified =>
      rw [(hverified.data key).2 (by rwa [hbefore])]
      exact hspent hbefore
  -- an account that comes back to the system program has been zeroed
  obtain ⟨programId, metas, hverified⟩ :
      ∃ programId metas, bank.Verified programId metas before after := by
    cases h with
    | system metas instruction _ hverified => exact ⟨_, metas, hverified⟩
    | other programId metas _ hverified => exact ⟨programId, metas, hverified⟩
  exact spent_of_zeros ((hverified.data key).1 (by rwa [howner]))

lemma NonceBank.isSpent_of_calls (hactive : bank.FeaturesActive)
    (h : Relation.ReflTransGen bank.Call first after)
    (hspent : (first key).IsSpent bank.system.nextDurableNonce) :
    (after key).IsSpent bank.system.nextDurableNonce := by
  induction h with
  | refl => exact hspent
  | tail _ hcall ih => exact hcall.isSpent hactive ih

lemma Account.IsSpent.verify_eq_none (h : account.IsSpent next) (hne : recentBlockhash ≠ next) :
    verifyNonceAccount account recentBlockhash separateDomains = none := by
  by_cases howner : account.owner = systemProgramId
  · refine verifyNonceAccount_eq_none fun versions data hdecode hdata ↦ ?_
    rw [(h howner versions data hdecode hdata).2]
    exact hne.symm
  · exact if_neg howner

end

/-! ### What is stored -/

namespace CommitContext

variable (ctx : CommitContext) (data : NonceData)

/-- The account that is stored, and the rent it is charged if it looks new. -/
def charge (address : Pubkey) (account : Account) : Account × ℕ :=
  if account.rentEpoch = initialRentEpoch then
    ctx.rentCollector.collectFromCreatedAccount address account ctx.rentForSysvars
  else (account, 0)

/-- The state that a nonce account is advanced to. -/
def nextVersions : NonceVersions :=
  .new (.initialized ⟨data.authority, ctx.durableNonce, ctx.lamportsPerSignature⟩)
    ctx.separateDomains

/-- A nonce account with the nonce advanced. -/
def advance (account : Account) : Account :=
  { account with data := (ctx.nextVersions data).encode ++ account.data.drop 80 }

lemma isSpent_charge {ctx : CommitContext} (address : Pubkey) (h : account.IsSpent next) :
    (ctx.charge address account).1.IsSpent next := by
  rw [charge]
  split_ifs
  · rcases ctx.rentCollector.collectFromExistingAccount_cases address
      { account with rentEpoch := ctx.rentCollector.epoch } ctx.rentForSysvars with
      hdefault | ⟨lamports, rentEpoch, heq⟩
    · rw [RentCollector.collectFromCreatedAccount, hdefault]
      intro _ versions data hdecode
      cases hdecode
    rw [RentCollector.collectFromCreatedAccount, heq]
    exact h
  · exact h

end CommitContext

section

variable {ctx : CommitContext} {db : BankAccounts} {tx : LockedTransaction} {fee : ℕ}
  {loaded : LoadedTransaction} {accounts : List (Pubkey × Account)} {nonce : NonceFull}
  {partialNonce : NoncePartial} {data : NonceData} {maybeNonce : Option (NonceFull × Bool)}
  {slot : MessageKey × Pubkey × Account}

lemma verifyNonceAccount_eq_some
    (h : verifyNonceAccount account recentBlockhash separateDomains = some data) :
    ∃ versions, decode account.data = some versions ∧ versions.state = .initialized data := by
  rw [verifyNonceAccount] at h
  split_ifs at h
  obtain ⟨versions, hdecode, hverify⟩ := bind_eq_some_iff.mp h
  refine ⟨versions, hdecode, ?_⟩
  have hstate : ∀ state, verifyRecentBlockhash.verify recentBlockhash state =
      some data → state = .initialized data := by
    rintro (_ | data') hstate
    · cases hstate
    rw [verifyRecentBlockhash.verify] at hstate
    split_ifs at hstate
    rw [some.inj hstate]
  cases versions with
  | legacy state =>
    rw [verifyRecentBlockhash] at hverify
    split_ifs at hverify
    exact hstate state hverify
  | current state => exact hstate state hverify

lemma isSpent_advance (hdomains : ctx.separateDomains = true) :
    (ctx.advance data account).IsSpent ctx.durableNonce := by
  intro _
  have hdecode : decode (ctx.advance data account).data =
      some (ctx.nextVersions data) := decode_encode _ _
  rw [nextVersions, hdomains] at hdecode
  exact spent_of_new hdecode

variable {isFeePayer : Bool}

lemma prepareIfNonceAccount_rollback (hdecode : decode nonce.account.data = some versions)
    (hdata : versions.state = .initialized data) :
    prepareIfNonceAccount ctx nonce.address account true isFeePayer (some (nonce, true)) =
      some (ctx.advance data nonce.account, true) := by
  have hlen := length_of_decode hdecode hdata
  have hset : nonce.account.setNonceState (ctx.nextVersions data) =
      .ok (ctx.advance data nonce.account) := by
    rw [Account.setNonceState, advance, nextVersions, length_encode_new, if_pos hlen]
  rw [nextVersions] at hset
  simp only [prepareIfNonceAccount, if_true, hdecode, some_bind, hdata, hset]

variable {failed : Bool}

lemma collectKey_of_prepare {isNonce : Bool} (hw : slot.1.isWritable = true)
    (hprepare : prepareIfNonceAccount ctx slot.2.1 slot.2.2 failed isFeePayer maybeNonce =
      some (account, isNonce)) :
    collectKey ctx failed maybeNonce isFeePayer slot =
      if !failed || isNonce || isFeePayer then
        some (some (slot.2.1, (ctx.charge slot.2.1 account).1), (ctx.charge slot.2.1 account).2)
      else some (none, 0) := by
  rw [collectKey, if_pos hw, hprepare]
  rfl

lemma collectKey_of_readonly (hw : ¬ slot.1.isWritable = true) :
    collectKey ctx failed maybeNonce isFeePayer slot = some (none, 0) := by
  rw [collectKey, if_neg hw]
  rfl

lemma mem_storedAccounts_map {slots : List (MessageKey × Pubkey × Account)}
    {isKept : MessageKey × Pubkey × Account → Prop} [DecidablePred isKept]
    {stored : MessageKey × Pubkey × Account → Account × ℕ} (p : Pubkey × Account) :
    p ∈ storedAccounts (slots.map fun slot ↦
        if isKept slot then (some (slot.2.1, (stored slot).1), (stored slot).2) else (none, 0)) ↔
      ∃ slot ∈ slots, isKept slot ∧ p = (slot.2.1, (stored slot).1) := by
  rw [storedAccounts, mem_filterMap]
  simp only [mem_map, exists_exists_and_eq_and]
  refine exists_congr fun slot ↦ and_congr_right fun _ ↦ ?_
  split_ifs with hkept
  · rw [some.injEq, and_iff_right hkept, eq_comm]
  · exact ⟨nofun, fun h ↦ absurd h.1 hkept⟩

/-- A transaction that succeeded stores its writable accounts. -/
theorem collectTransaction_stored (hleave : ctx.leaveNonceOnSuccess = true)
    (haddr : accounts.map fst = tx.keys.map MessageKey.key) :
    ∃ collected, collectTransaction ctx tx accounts (some nonce) false = some collected ∧
      ∀ p, p ∈ storedAccounts collected ↔ ∃ slot ∈ nonLoaderSlots tx accounts,
        slot.1.isWritable = true ∧ p = (slot.2.1, (ctx.charge slot.2.1 slot.2.2).1) := by
  refine ⟨_, ?_, mem_storedAccounts_map⟩
  simp only [collectTransaction, hleave, if_true]
  refine (collect_slots_eq haddr).trans (mapM_of_forall fun slot _ ↦ ?_)
  by_cases hw : slot.1.isWritable = true
  · rw [collectKey_of_prepare hw rfl, if_pos (by simp), if_pos hw]
  · rw [collectKey_of_readonly hw, if_neg hw]

variable {k : MessageKey}

lemma exists_slot (haddr : accounts.map fst = tx.keys.map MessageKey.key) (hk : k ∈ tx.keys)
    (hstored : k.isStored = true) :
    ∃ slot ∈ nonLoaderSlots tx accounts, slot.1.isWritable = true ∧ slot.2.1 = k.key := by
  rw [MessageKey.isStored, Bool.and_eq_true] at hstored
  have hmem : k ∈ (tx.keys.zip accounts).map fst := by
    rwa [map_fst_zip_of_addresses haddr]
  obtain ⟨slot, hslot, rfl⟩ := mem_map.mp hmem
  exact ⟨slot, mem_filter.mpr ⟨hslot, hstored.2⟩, hstored.1, address_of_mem_zip haddr hslot⟩

/-- What an account is rolled back to: the fee payer has paid the fee, the nonce account has its
nonce advanced, and nothing else happened. -/
def rolledBack (ctx : CommitContext) (db : BankAccounts) (tx : LockedTransaction)
    (fee rentEpoch : ℕ) (nonceAddress : Pubkey) (data : NonceData) (address : Pubkey) : Account :=
  let account := if address = tx.feePayer.key then
      { db address with
        lamports := (db address).lamports - fee
        rentEpoch := rentEpoch }
    else db address
  if address = nonceAddress then ctx.advance data account else account

lemma feePayerCopy_eq (hload : loadTransaction ctx db tx fee = .ok loaded) :
    ∃ rentEpoch, feePayerCopy ctx db tx fee =
      { db tx.feePayer.key with
        lamports := (db tx.feePayer.key).lamports - fee
        rentEpoch := rentEpoch } := by
  obtain ⟨lamports, rentEpoch, hcopy⟩ := loadKey_feePayer hload
  refine ⟨rentEpoch, ?_⟩
  rw [feePayerCopy, hcopy]

/-- A transaction that failed stores the fee payer and the nonce account, rolled back. -/
theorem collectTransaction_rollback (hload : loadTransaction ctx db tx fee = .ok loaded)
    (hu64 : (db tx.feePayer.key).lamports < 2 ^ 64)
    (hnonce : NonceFull.fromPartial partialNonce tx loaded = .ok nonce)
    (hinBank : partialNonce.account = db partialNonce.address)
    (hdecode : decode partialNonce.account.data = some versions)
    (hdata : versions.state = .initialized data) (hk : k ∈ tx.keys)
    (hkey : k.key = partialNonce.address) (hstored : k.isStored = true)
    (haddr : accounts.map fst = tx.keys.map MessageKey.key) :
    ∃ collected rentEpoch, collectTransaction ctx tx accounts (some nonce) true = some collected ∧
      ∀ p, p ∈ storedAccounts collected ↔ ∃ address,
        (address = tx.feePayer.key ∨ address = partialNonce.address) ∧
        p = (address, (ctx.charge address
          (rolledBack ctx db tx fee rentEpoch partialNonce.address data address)).1) := by
  obtain ⟨-, hfull⟩ := fromPartial_eq_ok hload hu64 hnonce
  obtain ⟨rentEpoch, hcopy⟩ := feePayerCopy_eq hload
  have haddress := address_fromPartial hload hu64 hnonce
  have hrolled : ctx.advance data nonce.account =
      rolledBack ctx db tx fee rentEpoch partialNonce.address data nonce.address := by
    rw [rolledBack, haddress, if_pos rfl, hfull]
    by_cases hsame : tx.feePayer.key = partialNonce.address
    · rw [if_pos hsame, if_pos hsame.symm, hcopy, hsame]
    · rw [if_neg hsame, if_neg (Ne.symm hsame), hinBank]
  have hdecode' : decode nonce.account.data = some versions := by
    rw [hfull]
    by_cases hsame : tx.feePayer.key = partialNonce.address
    · rw [if_pos hsame, hcopy, hsame, ← hinBank]
      exact hdecode
    rw [if_neg hsame]
    exact hdecode
  refine ⟨_, rentEpoch, (collect_slots_eq haddr).trans (mapM_of_forall (g := fun slot ↦ ?_) ?_), ?_⟩
  · exact if slot.1.isWritable = true ∧
        (slot.2.1 = tx.feePayer.key ∨ slot.2.1 = partialNonce.address) then
      (some (slot.2.1, (ctx.charge slot.2.1 (rolledBack ctx db tx fee rentEpoch
        partialNonce.address data slot.2.1)).1), (ctx.charge slot.2.1 (rolledBack ctx db tx fee
        rentEpoch partialNonce.address data slot.2.1)).2)
    else (none, 0)
  · intro slot _
    by_cases hw : slot.1.isWritable = true
    · by_cases hsame : slot.2.1 = nonce.address
      · -- the nonce account, whether or not it pays the fee
        have hprepare : prepareIfNonceAccount ctx slot.2.1 slot.2.2 true
            (decide (slot.2.1 = tx.feePayer.key)) (some (nonce, true)) =
              some (ctx.advance data nonce.account, true) := by
          rw [hsame]
          exact prepareIfNonceAccount_rollback hdecode' hdata
        rw [collectKey_of_prepare hw hprepare, if_pos (by simp), hrolled, ← hsame,
          if_pos ⟨hw, .inr (hsame.trans haddress)⟩]
      rw [collectKey_of_prepare hw (prepareIfNonceAccount_other hsame)]
      by_cases hpayer : slot.2.1 = tx.feePayer.key
      · have hother : tx.feePayer.key ≠ partialNonce.address := by
          rw [← hpayer, ← haddress]
          exact hsame
        rw [decide_eq_true hpayer, if_pos (Bool.or_true _), if_pos (Bool.and_self _),
          if_pos ⟨hw, .inl hpayer⟩, hpayer, rolledBack, if_neg hother, if_pos rfl, ← hcopy, hfull,
          if_neg hother]
        rfl
      rw [if_neg (by simp [hpayer]), if_neg]
      rintro ⟨-, hpayer' | hnonce⟩
      · exact hpayer hpayer'
      · exact hsame (hnonce.trans haddress.symm)
    · rw [collectKey_of_readonly hw, if_neg fun h ↦ hw h.1]
  intro p
  rw [mem_storedAccounts_map]
  constructor
  · rintro ⟨slot, -, hkept, rfl⟩
    exact ⟨slot.2.1, hkept.2, rfl⟩
  rintro ⟨address, hcase, rfl⟩
  obtain ⟨slot, hmem, hw, rfl⟩ : ∃ slot ∈ nonLoaderSlots tx accounts,
      slot.1.isWritable = true ∧ slot.2.1 = address := by
    rcases hcase with rfl | rfl
    · exact exists_slot haddr mem_cons_self tx.isStored_feePayer
    rw [← hkey]
    exact exists_slot haddr hk hstored
  exact ⟨slot, hmem, ⟨hw, hcase⟩, rfl⟩

end

/-! ### Once -/

lemma decode_of_decode_take
    (h : SystemInstruction.decode (bytes.take 4) = some .advanceNonceAccount) :
    SystemInstruction.decode bytes = some .advanceNonceAccount := by
  have htag : ∀ {tag : ℕ} {rest : List UInt8}, Bincode.uint 4 (bytes.take 4) = some (tag, rest) →
      ∃ rest', Bincode.uint 4 bytes = some (tag, rest') := by
    intro tag rest hrest
    obtain ⟨⟨taken, rest'⟩, htake, heq⟩ := map_eq_some_iff.mp hrest
    cases heq
    rw [Bincode.take] at htake
    split_ifs at htake with hlen
    rw [splitAt_eq, some.injEq, Prod.mk.injEq, take_take, Nat.min_self] at htake
    rw [length_take] at hlen
    refine ⟨bytes.drop 4, ?_⟩
    rw [Bincode.uint, Bincode.take, if_pos (by omega), splitAt_eq, map_some, htake.1]
  simp only [SystemInstruction.decode, bind_eq_some] at h
  obtain ⟨⟨tag, rest⟩, hrest, h⟩ := h
  obtain ⟨rest', hrest'⟩ := htag hrest
  have hadvance : tag = 4 := by
    split at h
    case h_5 heq => exact (mk.inj heq).1
    all_goals simp [bind_eq_some_iff] at h
  subst hadvance
  rw [SystemInstruction.decode, hrest']
  rfl

section

variable {tx : LockedTransaction} {nonce : NoncePartial} {address : Pubkey}
  {ix : CompiledInstruction}

lemma getDurableNonce_eq_some {m : SanitizedMessage}
    (h : m.getDurableNonce true = some (some address)) :
    ∃ ix i, m.instructions[0]? = some ix ∧
      SystemInstruction.decode ix.data = some .advanceNonceAccount ∧ ix.accounts[0]? = some i ∧
      m.accountKeys[i]? = some address ∧ m.isWritable i = some true := by
  rw [getDurableNonce] at h
  split at h
  · cases h
  next ix hix =>
    by_cases hguard : m.accountKeys[ix.programIdIndex]? = some systemProgramId ∧
        SystemInstruction.decode (ix.data.take 4) = some .advanceNonceAccount
    · rw [if_pos hguard] at h
      split at h
      · cases h
      next i hi =>
        simp only [if_true, bind_eq_some, map_eq_some_iff, pure_eq_some] at h
        obtain ⟨isRefused, ⟨isWritable, hwritable, rfl⟩, h⟩ := h
        cases isWritable with
        | false => cases h
        | true => exact ⟨ix, i, hix, decode_of_decode_take hguard.2, hi, h, hwritable⟩
    rw [if_neg hguard] at h
    cases h

/-- What the check says: the nonce account of the bank verifies, with a value that can be advanced.
-/
theorem checkTransactionForNonce_eq_some (hactive : bank.FeaturesActive)
    (h : bank.checkTransactionForNonce tx = some (some nonce)) :
    tx.recentBlockhash ≠ bank.system.nextDurableNonce ∧
      nonce.account = bank.accounts nonce.address ∧
      (∃ data, verifyNonceAccount nonce.account tx.recentBlockhash
        bank.system.separateNonceFromBlockhash = some data) ∧
      tx.message.getDurableNonce true = some (some nonce.address) := by
  rw [NonceBank.checkTransactionForNonce, hactive.nonceMustBeAdvanceable] at h
  split at h
  next hguard =>
    simp only [Bool.not_true, Bool.or_false, Bool.and_eq_true, decide_eq_true_eq] at hguard
    rw [NonceBank.checkMessageForNonce, hactive.nonceMustBeWritable] at h
    obtain ⟨address, haddress, h⟩ := bind_eq_some_iff.mp h
    cases address with
    | none => cases h
    | some nonceAddress =>
      simp only at h
      split at h
      · cases h
      split at h
      · cases h
      next data hdata =>
        split at h
        · cases h
        obtain rfl := some.inj (some.inj h)
        exact ⟨hguard.2, rfl, ⟨data, hdata⟩, haddress⟩
  · cases h

variable {i : ℕ}

lemma exists_nonceKey (hkey : tx.message.accountKeys[i]? = some address)
    (hwritable : tx.message.isWritable i = some true) (hix : tx.message.instructions[0]? = some ix)
    (hi : ix.accounts[0]? = some i) : ∃ k ∈ tx.keys, k.key = address ∧ k.isStored = true := by
  have hloader : tx.message.isNonLoaderKey i = true := by
    rw [isNonLoaderKey, isKeyPassedToProgram, Bool.or_eq_true]
    by_cases hbound : i < 2 ^ 8
    · right
      rw [decide_eq_true hbound, Bool.true_and, any_eq_true]
      exact ⟨ix, mem_of_getElem? hix, contains_iff_mem.mpr (mem_of_getElem? hi)⟩
    left
    have hinvoked : decide (i < 2 ^ 8) = false := decide_eq_false hbound
    cases tx.message with
    | legacy m =>
      rw [isInvoked, Message.isKeyCalledAsProgram, hinvoked, Bool.false_and]
      rfl
    | v0 m =>
      rw [isInvoked, LoadedMessage.isKeyCalledAsProgram, hinvoked, Bool.false_and]
      rfl
  have hmem : (address, i) ∈ tx.message.accountKeys.zipIdx := by
    refine mem_of_getElem? (?_ : _[i]? = _)
    rw [List.getElem?_zipIdx, hkey, map_some, Nat.zero_add]
  refine ⟨⟨address, true, tx.message.isNonLoaderKey i⟩,
    (mem_iff_of_mapM_eq_some tx.messageKeys_eq).mpr ⟨(address, i), hmem, ?_⟩, rfl, ?_⟩
  · simp only [hwritable, map_some]
  rw [MessageKey.isStored, hloader]
  rfl

/-- After the first instruction the nonce is spent. -/
theorem isSpent_of_first (hactive : bank.FeaturesActive)
    (hix : tx.message.instructions[0]? = some ix)
    (hdecode : SystemInstruction.decode ix.data = some .advanceNonceAccount)
    (hi : ix.accounts[0]? = some i) (hkey : tx.message.accountKeys[i]? = some address)
    (h : bank.FirstInstruction tx.message before first) :
    (first address).IsSpent bank.system.nextDurableNonce := by
  obtain ⟨ix', metas, instruction, hix', hmetas, hinstruction, hprocess, -⟩ := h
  rw [hix] at hix'
  cases hix'
  rw [hdecode] at hinstruction
  cases hinstruction
  obtain ⟨me, account, authority, hme, rfl, hadvanced⟩ := process_advanceNonceAccount hprocess
  obtain ⟨j, hj, hflags⟩ := exists_getElem?_of_forall₂ (mapM_eq_some_iff.mp hmetas) hme
  rw [hi] at hj
  cases hj
  simp only [hkey, some_bind, bind_eq_some, pure_eq_some] at hflags
  obtain ⟨isWritable, -, rfl⟩ := hflags
  rw [hactive.separateNonceFromBlockhash] at hadvanced
  rw [Function.update_self]
  exact fun _ ↦ spent_of_new hadvanced

/-- **A durable nonce is used once.** A transaction that passes the check and is executed stores its
nonce account, and what is stored does not verify the value again. If it failed, the fee payer and
the nonce account are all that is stored: the one has paid the fee, the other has its nonce
advanced, and they differ in nothing else from the accounts of the bank, but for rent if their rent
epoch is the initial one. -/
theorem durable_nonce_once {loaded : LoadedTransaction} {full : NonceFull} {fee : ℕ}
    {accounts : List (Pubkey × Account)} {failed : Bool} (hactive : bank.FeaturesActive)
    (hu64 : (bank.accounts tx.feePayer.key).lamports < 2 ^ 64)
    (hcheck : bank.checkTransactionForNonce tx = some (some nonce))
    (hload : loadWithNonce bank.commit bank.accounts tx (some nonce) = .ok (loaded, some full, fee))
    (hexec : bank.Executed tx loaded.accounts accounts failed) :
    ∃ collected, collectTransaction bank.commit tx accounts (some full) failed = some collected ∧
      (∃ account, (nonce.address, account) ∈ storedAccounts collected) ∧
      (∀ account, (nonce.address, account) ∈ storedAccounts collected →
        verifyNonceAccount account tx.recentBlockhash
          bank.system.separateNonceFromBlockhash = none) ∧
      (failed = true → fee ≤ (bank.accounts tx.feePayer.key).lamports ∧
        ∃ data rentEpoch, verifyNonceAccount (bank.accounts nonce.address) tx.recentBlockhash
          bank.system.separateNonceFromBlockhash = some data ∧
        ∀ p, p ∈ storedAccounts collected ↔ ∃ address,
          (address = tx.feePayer.key ∨ address = nonce.address) ∧
          p = (address, (bank.commit.charge address
            (rolledBack bank.commit bank.accounts tx fee rentEpoch nonce.address data
              address)).1)) := by
  obtain ⟨hadvanceable, haccount, ⟨data, hverify⟩, hnonce⟩ :=
    checkTransactionForNonce_eq_some hactive hcheck
  obtain ⟨ix, i, hix, hdecode, hi, hkey, hwritable⟩ := getDurableNonce_eq_some hnonce
  obtain ⟨k, hk, hkaddress, hstored⟩ := exists_nonceKey hkey hwritable hix hi
  obtain ⟨-, hl, hcase⟩ := loadWithNonce_eq_ok hload
  have hfull : NonceFull.fromPartial nonce tx loaded = .ok full := by
    rcases hcase with ⟨hnone, -⟩ | ⟨n, full', hn, hfull', hinBank⟩
    · cases hnone
    cases hn
    cases hfull'
    exact hinBank
  cases hexec with
  | succeeded before first after hbefore hfirst hcalls haccounts =>
    have haddr : accounts.map fst = tx.keys.map MessageKey.key := by
      rw [← length_accounts_of_load hl, haccounts, map_map]
      rfl
    have hspent := NonceBank.isSpent_of_calls hactive hcalls
      (isSpent_of_first hactive hix hdecode hi hkey hfirst)
    obtain ⟨collected, hcollected, hmem⟩ :=
      @collectTransaction_stored bank.commit tx accounts full hactive.leaveNonceOnSuccess haddr
    refine ⟨collected, hcollected, ?_, ?_, nofun⟩
    · obtain ⟨slot, hslot, hw, haddress⟩ := exists_slot haddr hk hstored
      rw [hkaddress] at haddress
      exact ⟨_, (hmem _).mpr ⟨slot, hslot, hw, by rw [haddress]⟩⟩
    intro account hstored'
    obtain ⟨slot, hslot, -, heq⟩ := (hmem _).mp hstored'
    obtain ⟨haddress, rfl⟩ := mk.inj heq
    -- the slot holds what the calls left
    have hafter : slot.2.2 = after nonce.address := by
      have hmem' := (of_mem_zip (mem_of_mem_filter hslot)).2
      rw [haccounts, mem_map] at hmem'
      obtain ⟨p, -, hp⟩ := hmem'
      rw [haddress, ← hp]
    rw [← hafter] at hspent
    exact (isSpent_charge slot.2.1 hspent).verify_eq_none hadvanceable
  | failed haddresses =>
    have haddr : accounts.map fst = tx.keys.map MessageKey.key :=
      haddresses.trans (length_accounts_of_load hl)
    obtain ⟨versions, hversions, hdata⟩ := verifyNonceAccount_eq_some hverify
    obtain ⟨collected, rentEpoch, hcollected, hmem⟩ :=
      collectTransaction_rollback hl hu64 hfull haccount hversions hdata hk hkaddress hstored haddr
    refine ⟨collected, hcollected, ⟨_, (hmem _).mpr ⟨nonce.address, .inr rfl, rfl⟩⟩, ?_, ?_⟩
    · intro account hstored'
      obtain ⟨address, -, heq⟩ := (hmem _).mp hstored'
      cases heq
      have hdomains : bank.commit.separateDomains = true := by
        rw [bank.separateDomains_eq, hactive.separateNonceFromBlockhash]
      rw [← bank.durableNonce_eq] at hadvanceable
      refine (isSpent_charge nonce.address ?_).verify_eq_none hadvanceable
      rw [rolledBack, if_pos rfl]
      exact isSpent_advance hdomains
    intro _
    rw [← haccount]
    exact ⟨(fromPartial_eq_ok hl hu64 hfull).1, data, rentEpoch, hverify, hmem⟩

end

/-! ### A small bank -/

variable (lamports rentEpoch : ℕ)

def smallNonceBank : NonceBank where
  accounts := (smallBank lamports rentEpoch).accounts
  commit := smallContext
  system :=
    { blockhash := ⟨8⟩
      domainHash := id
      lamportsPerSignature := 1
      separateNonceFromBlockhash := true
      nonceMustBeWritable := true
      mergeNonceErrorIntoSystemError := true
      rentForSysvars := true
      systemTransferZeroCheck := true
      createWithSeed := fun _ _ _ ↦ .err .invalidSeeds
      recentBlockhashesIsEmpty := fun _ _ ↦ .ok false
      minimumBalance := fun _ _ ↦ .ok fun _ ↦ 10 }
  slot := 5
  isMainnetBeta := true
  enableDurableNonce := true
  nonceMustBeAuthorized := true
  nonceMustBeAdvanceable := true
  doSupportRealloc := true
  isExempt := fun _ _ ↦ true
  durableNonce_eq := rfl
  separateDomains_eq := rfl

lemma smallNonceBank_active : (smallNonceBank lamports rentEpoch).FeaturesActive :=
  ⟨rfl, rfl, rfl, rfl, rfl⟩

/-- The accounts of the transaction in the small bank, as they are loaded. -/
def smallLoaded : List (Pubkey × Account) :=
  match loadWithNonce smallContext (smallBank lamports rentEpoch).accounts advanceTransaction
    (some ⟨⟨2⟩, (smallBank lamports rentEpoch).accounts ⟨2⟩⟩) with
  | .ok (loaded, _, _) => loaded.accounts
  | .error _ => []

lemma smallNonceBank_checks {lamports rentEpoch : ℕ}
    (hcheck : (((smallNonceBank lamports rentEpoch).checkTransactionForNonce
      advanceTransaction).any fun n ↦ n.any fun n ↦ decide (n.address = ⟨2⟩)) = true)
    (hload : smallLoaded lamports rentEpoch ≠ []) : ∃ loaded full fee,
      (smallNonceBank lamports rentEpoch).checkTransactionForNonce advanceTransaction =
        some (some ⟨⟨2⟩, (smallBank lamports rentEpoch).accounts ⟨2⟩⟩) ∧
      loadWithNonce smallContext (smallBank lamports rentEpoch).accounts advanceTransaction
        (some ⟨⟨2⟩, (smallBank lamports rentEpoch).accounts ⟨2⟩⟩) =
          .ok (loaded, some full, fee) ∧ loaded.accounts = smallLoaded lamports rentEpoch := by
  obtain ⟨nonce, hnonce, hany⟩ := (Option.any_eq_true _ _).mp hcheck
  obtain ⟨⟨address, account⟩, rfl, haddress⟩ := (Option.any_eq_true _ _).mp hany
  obtain rfl : address = ⟨2⟩ := of_decide_eq_true haddress
  obtain ⟨-, haccount, -, -⟩ :=
    checkTransactionForNonce_eq_some (smallNonceBank_active lamports rentEpoch) hnonce
  obtain rfl : account = (smallBank lamports rentEpoch).accounts ⟨2⟩ := haccount
  rw [smallLoaded] at hload
  cases hrun : loadWithNonce smallContext (smallBank lamports rentEpoch).accounts
      advanceTransaction (some ⟨⟨2⟩, (smallBank lamports rentEpoch).accounts ⟨2⟩⟩) with
  | error e =>
    rw [hrun] at hload
    exact absurd rfl hload
  | ok result =>
    obtain ⟨loaded, full, fee⟩ := result
    obtain ⟨-, -, ⟨hnone, -⟩ | ⟨n, full', -, rfl, -⟩⟩ := loadWithNonce_eq_ok hrun
    · cases hnone
    refine ⟨loaded, full', fee, hnonce, rfl, ?_⟩
    rw [smallLoaded, hrun]

/-- The accounts of the transaction while it is executed. -/
def smallWorking : WorkingAccounts := fun key ↦
  (((smallLoaded lamports rentEpoch).find? fun p ↦ decide (p.1 = key)).map snd).getD default

/-- The transaction succeeds, and its nonce account no longer verifies. -/
theorem durable_nonce_once_small : ∃ accounts full collected account,
    (smallNonceBank 50 1).Executed advanceTransaction (smallLoaded 50 1) accounts false ∧
    collectTransaction smallContext advanceTransaction accounts (some full) false = some collected ∧
    (⟨2⟩, account) ∈ storedAccounts collected ∧ verifyNonceAccount account ⟨7⟩ true = none := by
  obtain ⟨loaded, full, fee, hcheck, hload, hloaded⟩ :=
    @smallNonceBank_checks 50 1 (by decide +kernel) (by decide +kernel)
  let metas : List AccountMeta := [⟨⟨2⟩, false, true⟩,
    ⟨⟨0x6a7d517192c568ee08a845f73d29788cf035c3145b21ab344d8062ea9400000#256⟩, false, false⟩,
    ⟨⟨1⟩, true, true⟩]
  have hprocess : (match SystemInstruction.advanceNonceAccount.process (smallNonceBank 50 1).system
      metas (smallWorking 50 1) with
    | .ok first => metas.all fun m ↦ decide ((PreAccount.new m.pubkey
        (smallWorking 50 1 m.pubkey)).verify systemProgramId m.isWritable (fun _ _ ↦ true)
        (first m.pubkey) true = .ok ())
    | _ => false) = true := by decide +kernel
  cases hrun : SystemInstruction.advanceNonceAccount.process (smallNonceBank 50 1).system metas
      (smallWorking 50 1) with
  | ok first =>
    rw [hrun] at hprocess
    have hverified : (smallNonceBank 50 1).Verified systemProgramId metas (smallWorking 50 1)
        first := by
      refine ⟨fun m hm ↦ of_decide_eq_true (all_eq_true.mp hprocess m hm), fun key hkey ↦ ?_⟩
      obtain ⟨me, account, -, hme, rfl, -⟩ := process_advanceNonceAccount hrun
      cases hme
      refine Function.update_of_ne (fun heq ↦ hkey ?_) _ _
      rw [heq]
      exact mem_cons_self
    have hexec : (smallNonceBank 50 1).Executed advanceTransaction loaded.accounts
        (loaded.accounts.map fun p ↦ (p.1, first p.1)) false := by
      refine .succeeded (smallWorking 50 1) first first ?_
        ⟨⟨3, [1, 2, 0], [4, 0, 0, 0]⟩, metas, .advanceNonceAccount, rfl, by decide +kernel,
          by decide +kernel, hrun, hverified⟩ .refl rfl
      rw [hloaded]
      decide +kernel
    obtain ⟨collected, hcollected, ⟨account, haccount⟩, hnone, -⟩ :=
      durable_nonce_once (smallNonceBank_active 50 1) (smallBank_lt (by decide) _)
        hcheck hload hexec
    rw [hloaded] at hexec hcollected
    exact ⟨_, full, collected, account, hexec, hcollected, haccount, hnone account haccount⟩
  | err | panic =>
    rw [hrun] at hprocess
    cases hprocess

/-- **The nonce account is not as it was.** A transaction with a durable nonce fails; its nonce
account, with 5 lamports and the initial rent epoch, does not pay the fee but is stored with 2
lamports less. -/
theorem rollback_not_restored : ∃ (bank : NonceBank) (tx : LockedTransaction)
    (nonce : NoncePartial) (loaded : LoadedTransaction) (full : NonceFull) (fee : ℕ)
    (collected : List (Option (Pubkey × Account) × ℕ)) (account : Account),
    bank.FeaturesActive ∧ bank.checkTransactionForNonce tx = some (some nonce) ∧
    loadWithNonce bank.commit bank.accounts tx (some nonce) = .ok (loaded, some full, fee) ∧
    bank.Executed tx loaded.accounts loaded.accounts true ∧
    collectTransaction bank.commit tx loaded.accounts (some full) true = some collected ∧
    nonce.address ≠ tx.feePayer.key ∧ (nonce.address, account) ∈ storedAccounts collected ∧
    account.lamports + 2 = (bank.accounts nonce.address).lamports := by
  obtain ⟨loaded, full, fee, hcheck, hload, -⟩ :=
    @smallNonceBank_checks 5 0 (by decide +kernel) (by decide +kernel)
  have hstored : (match loadWithNonce smallContext (smallBank 5 0).accounts advanceTransaction
      (some ⟨⟨2⟩, (smallBank 5 0).accounts ⟨2⟩⟩) with
    | .ok (loaded, full, _) =>
      (collectTransaction smallContext advanceTransaction loaded.accounts full true).any
        fun collected ↦ (storedAccounts collected).any fun p ↦
          decide (p.1 = ⟨2⟩ ∧ p.2.lamports + 2 = 5)
    | .error _ => false) = true := by decide +kernel
  rw [hload] at hstored
  obtain ⟨collected, hcollected, hany⟩ := (Option.any_eq_true _ _).mp hstored
  obtain ⟨⟨address, account⟩, hmem, hlamports⟩ := any_eq_true.mp hany
  obtain ⟨rfl, hlamports⟩ := of_decide_eq_true hlamports
  exact ⟨smallNonceBank 5 0, advanceTransaction, _, loaded, full, fee, collected, account,
    smallNonceBank_active 5 0, hcheck, hload, .failed rfl, hcollected, by decide, hmem, hlamports⟩

end Renec
