import Renec.Collections.Pointwise
import Renec.Runtime.Execution

/-!
# Account isolation

What the checks around calls guarantee for a whole instruction. A check by one program with one set
of write privileges allows little (`Account.Isolated`):

* an account that is not writable, or was executable, does not change, and
* an account owned by another program keeps its owner, data and executable flag, and loses no
  lamports.

That relation composes along the checks: the copies at the end of an execution are related to those
at its start by the privileges of the first caller and all programs that ran, and their sum does not
change (`Guarded`).
-/

namespace Renec

open List Exec InvokeContext Pointwise
open Option hiding map_map

/-! ### What a check allows -/

/-- What may happen to an account in the hands of some programs, with or without write access. -/
structure Account.Isolated (writable : Prop) (programs : Set Pubkey) (a b : Account) : Prop where
  frozen : ¬ writable ∨ a.executable = true →
    b.lamports = a.lamports ∧ b.data = a.data ∧ b.owner = a.owner ∧ b.executable = a.executable
  foreign : a.owner ∉ programs →
    b.data = a.data ∧ b.owner = a.owner ∧ b.executable = a.executable ∧ a.lamports ≤ b.lamports

variable {programs : Set Pubkey}

namespace Account.Isolated

variable {writable writable' : Prop} {programs' : Set Pubkey} {a b c : Account}

lemma refl (writable : Prop) (programs : Set Pubkey) (a : Account) :
    Isolated writable programs a a :=
  ⟨fun _ ↦ ⟨rfl, rfl, rfl, rfl⟩, fun _ ↦ ⟨rfl, rfl, rfl, le_refl _⟩⟩

lemma trans (hab : Isolated writable programs a b) (hbc : Isolated writable programs b c) :
    Isolated writable programs a c where
  frozen h := by
    obtain ⟨hl, hd, ho, he⟩ := hab.frozen h
    obtain ⟨hl', hd', ho', he'⟩ := hbc.frozen (by rwa [he])
    exact ⟨hl'.trans hl, hd'.trans hd, ho'.trans ho, he'.trans he⟩
  foreign h := by
    obtain ⟨hd, ho, he, hl⟩ := hab.foreign h
    obtain ⟨hd', ho', he', hl'⟩ := hbc.foreign (by rwa [ho])
    exact ⟨hd'.trans hd, ho'.trans ho, he'.trans he, hl.trans hl'⟩

lemma mono (hw : writable → writable') (hp : programs ⊆ programs')
    (h : Isolated writable programs a b) : Isolated writable' programs' a b where
  frozen h' := h.frozen (h'.imp_left fun hn hw' ↦ hn (hw hw'))
  foreign h' := h.foreign fun hmem ↦ h' (hp hmem)

lemma withRentEpoch (h : Isolated writable programs a b) (epoch : Epoch) :
    Isolated writable programs a { b with rentEpoch := epoch } :=
  ⟨h.frozen, h.foreign⟩

end Account.Isolated

variable {ctx ctx' : InvokeContext} {programId : Pubkey} {isWritable : Bool} {pre : PreAccount}
  {account : Account}

/-- One check: what a program may have done to an account that passes. -/
theorem InvokeContext.Verified.isolated (h : ctx.Verified programId isWritable pre account) :
    Account.Isolated (isWritable = true) {programId} pre.account account := by
  simp only [Verified, PreAccount.verify, Outcome.bind_eq_ok, Outcome.failIf_eq_ok] at h
  obtain ⟨_, howner, _, hspend, _, hreadonly, _, hexec, _, -, _, hdata, _, -, _, hflag, -⟩ := h
  have ho : pre.account.owner ≠ account.owner → isWritable = true ∧
      pre.account.executable = false ∧ programId = pre.account.owner := fun hne ↦ by
    simp [hne] at howner
    exact ⟨howner.1.1.1, howner.1.1.2, howner.1.2⟩
  have hl : pre.account.lamports ≠ account.lamports → isWritable = true ∧
      pre.account.executable = false := fun hne ↦ by
    simp [hne] at hreadonly hexec
    exact ⟨hreadonly, hexec⟩
  have hd : pre.account.data ≠ account.data → isWritable = true ∧
      pre.account.executable = false ∧ programId = pre.account.owner := fun hne ↦ by
    simp [hne] at hdata
    exact ⟨hdata.1.2, hdata.2, hdata.1.1⟩
  have he : pre.account.executable ≠ account.executable → isWritable = true ∧
      pre.account.executable = false ∧ programId = account.owner := fun hne ↦ by
    simp [hne] at hflag
    exact ⟨hflag.1.1, hflag.1.2, hflag.2⟩
  constructor
  · intro hfrozen
    have habsurd : ¬ (isWritable = true ∧ pre.account.executable = false) := by
      rintro ⟨hw, hx⟩
      rcases hfrozen with hn | hn
      · exact hn hw
      rw [hx] at hn
      cases hn
    refine ⟨?_, ?_, ?_, ?_⟩ <;> by_contra hne
    · exact habsurd (hl (Ne.symm hne))
    · exact habsurd ⟨(hd (Ne.symm hne)).1, (hd (Ne.symm hne)).2.1⟩
    · exact habsurd ⟨(ho (Ne.symm hne)).1, (ho (Ne.symm hne)).2.1⟩
    · exact habsurd ⟨(he (Ne.symm hne)).1, (he (Ne.symm hne)).2.1⟩
  intro hforeign
  have hne : programId ≠ pre.account.owner := fun h ↦ hforeign h.symm
  have howner' : account.owner = pre.account.owner := by
    by_contra hchange
    exact hne (ho (Ne.symm hchange)).2.2
  refine ⟨?_, howner', ?_, ?_⟩
  · by_contra hchange
    exact hne (hd (Ne.symm hchange)).2.2
  · by_contra hchange
    exact hne ((he (Ne.symm hchange)).2.2.trans howner')
  · simpa [hne] using hspend

lemma updatedPreAccount_spec (h : ctx.Verified programId isWritable pre account) :
    Account.Isolated (isWritable = true) {programId} pre.account
        (updatedPreAccount pre isWritable account).account ∧
      (updatedPreAccount pre isWritable account).account.lamports = account.lamports ∧
      (updatedPreAccount pre isWritable account).key = pre.key := by
  rw [updatedPreAccount]
  split_ifs with hupdate
  · exact ⟨h.isolated.withRentEpoch _, rfl, rfl⟩
  refine ⟨.refl _ _ _, (h.isolated.frozen ?_).1.symm, rfl⟩
  rw [Bool.and_eq_true, Bool.not_eq_true', not_and, Bool.not_eq_false] at hupdate
  by_cases hw : isWritable = true
  · exact .inr (hupdate hw)
  · exact .inl hw

/-! ### The reference copies along an execution -/

/-- A reference copy and what became of it. -/
def CopyIsolated (writable programs : Set Pubkey) (pre pre' : PreAccount) : Prop :=
  pre'.key = pre.key ∧ Account.Isolated (pre.key ∈ writable) programs pre.account pre'.account

/-- The sum of the lamports of the reference copies. -/
def InvokeContext.preLamports (ctx : InvokeContext) : ℕ :=
  (ctx.preAccounts.map fun pre ↦ pre.account.lamports).sum

/-- Part of an execution: the stack and the keys of the accounts are as before, the copies changed
only as the privileges and programs allow, and their lamports by the difference of two sums, those
seen before and after. -/
structure Guarded (writable programs : Set Pubkey) (sums : ℕ × ℕ) (ctx ctx' : InvokeContext) :
    Prop where
  invokeStack : ctx'.invokeStack = ctx.invokeStack
  accountKeys : ctx'.accountKeys = ctx.accountKeys
  lamports : ctx'.preLamports + sums.1 = ctx.preLamports + sums.2
  copies : Forall₂ (CopyIsolated writable programs) ctx.preAccounts ctx'.preAccounts

variable {instruction : CompiledInstruction} {frame : StackFrame} {rest : List StackFrame}
  {u : Unit} {programIndices : List ℕ} {i : ℕ} {writable : Set Pubkey} {sums' sums : ℕ × ℕ}

section

variable {writable' : Set Pubkey} {ctx'' : InvokeContext} {indices : List ℕ}
  {privileges : List Bool}

instance : Std.Refl (CopyIsolated writable programs) := ⟨fun _ ↦ ⟨rfl, .refl _ _ _⟩⟩

instance : IsTrans PreAccount (CopyIsolated writable programs) :=
  ⟨fun _ _ _ hpq hqr ↦ ⟨hqr.1.trans hpq.1, hpq.2.trans (hpq.1 ▸ hqr.2)⟩⟩

/-- The privileges a check is made with, by the keys they are for. -/
def PrivilegesWithin (writable : Set Pubkey) (ctx : InvokeContext) (indices : List ℕ)
    (privileges : List Bool) : Prop :=
  ∀ (i j : ℕ) (key : Pubkey), privileges[i]? = some true → indices[i]? = some j →
    ctx.accountKeys[j]? = some key → key ∈ writable

namespace Guarded

lemma refl (ctx : InvokeContext) : Guarded writable programs (0, 0) ctx ctx :=
  ⟨rfl, rfl, rfl, forall₂_refl _⟩

lemma trans (h : Guarded writable programs (0, 0) ctx ctx')
    (h' : Guarded writable programs sums ctx' ctx'') :
    Guarded writable programs sums ctx ctx'' where
  invokeStack := h'.invokeStack.trans h.invokeStack
  accountKeys := h'.accountKeys.trans h.accountKeys
  lamports := by
    have h₁ : ctx'.preLamports = ctx.preLamports := h.lamports
    rw [h'.lamports, h₁]
  copies := forall₂_trans h.copies h'.copies

lemma mono (hw : writable ⊆ writable') (h : Guarded writable programs sums ctx ctx') :
    Guarded writable' programs sums ctx ctx' :=
  ⟨h.invokeStack, h.accountKeys, h.lamports,
    h.copies.imp fun _ _ hc ↦ ⟨hc.1, hc.2.mono (fun hk ↦ hw hk) subset_rfl⟩⟩

lemma of_write {accounts : List (Pubkey × Account)}
    (hkeys : accounts.map Prod.fst = ctx.accountKeys) :
    Guarded writable programs (0, 0) ctx { ctx with accounts := accounts } :=
  ⟨rfl, hkeys, rfl, forall₂_refl _⟩

lemma of_verifyAndUpdateAccount {n : ℕ} (hprogram : programId ∈ programs)
    (hprivileges : PrivilegesWithin writable ctx indices privileges)
    (hguard : Guarded writable programs sums ctx ctx')
    (h : verifyAndUpdateAccount programId indices privileges sums n i ctx' =
      some (.ok sums', ctx'')) : Guarded writable programs sums' ctx ctx'' := by
  obtain ⟨isWritable, j, p, k, pre, meter, hw, hj, hp, hpre, hkey, hverified, rfl, rfl, -⟩ :=
    verifyAndUpdateAccount_eq_ok h
  obtain ⟨hisolated, hlamports, hkey'⟩ := updatedPreAccount_spec hverified
  -- a privilege used in the check is one of the caller's
  have hwritable : isWritable = true → pre.key ∈ writable := fun hw' ↦ by
    refine hprivileges i j pre.key (hw' ▸ hw) hj ?_
    rw [← hguard.accountKeys, InvokeContext.accountKeys, getElem?_map, hp, hkey]
    rfl
  refine ⟨hguard.invokeStack, hguard.accountKeys, ?_, ?_⟩
  · have hsum := sum_map_set (fun pre : PreAccount ↦ pre.account.lamports) hpre
      (updatedPreAccount pre isWritable p.2)
    have hbefore := hguard.lamports
    simp only [preLamports] at hbefore ⊢
    rw [hlamports] at hsum
    omega
  refine forall₂_trans hguard.copies (forall₂_set hpre ?_)
  exact ⟨hkey', hisolated.mono hwritable (Set.singleton_subset_iff.mpr hprogram)⟩

section

variable (hstack : ctx.invokeStack = frame :: rest)
  (hprogram : ∀ programId, frame.programId = some programId → programId ∈ programs)

include hstack hprogram

/-- A check with update, by the program of the running frame. -/
theorem of_verifyAndUpdate (hprivileges : PrivilegesWithin writable ctx indices privileges)
    (h : verifyAndUpdate instruction indices privileges ctx = some (.ok u, ctx')) :
    Guarded writable programs (0, 0) ctx ctx' := by
  obtain ⟨frame', rest', programId, sum, hstack', hid, hvisit⟩ := verifyAndUpdate_eq_ok h
  obtain ⟨rfl, rfl⟩ := cons.inj (hstack.symm.trans hstack')
  -- the loop counts what the copies had and have; at its end the two sums agree
  have hloop : Guarded writable programs (sum, sum) ctx ctx' :=
    foldlM_induction (P := fun sums c ↦ Guarded writable programs sums ctx c)
      (fun _ _ _ _ _ _ hguard hstep ↦
        of_verifyAndUpdateAccount (hprogram programId hid) hprivileges hguard hstep)
      hvisit (.refl ctx)
  refine ⟨hloop.invokeStack, hloop.accountKeys, ?_, hloop.copies⟩
  have hsum := hloop.lamports
  show ctx'.preLamports = ctx.preLamports
  simp only at hsum
  omega

/-- A call, if what runs in its frame is guarded. The copies go through the check of the caller, the
callee's execution and the check of the callee; the privileges of the message are the caller's, and
the frame is gone at the end. -/
theorem of_processInstruction {m : Message} {entrypoint : Invoke Unit} {calleeId : Pubkey}
    (hcaller : PrivilegesWithin writable ctx indices privileges)
    (hlast : programIndices.getLast? = some i) (hid : ctx.accountKeys[i]? = some calleeId)
    (hmem : calleeId ∈ programs)
    (hframe : ∀ i j : ℕ, accountIndex indices i = some j → ctx.accountKeys[j]? = m.accountKeys[i]?)
    (hlead : ∀ i j : ℕ, indices[i]? = some j → ctx.accountKeys[j]? = m.accountKeys[i]?)
    (hsub : {key | m.WritableKey key} ⊆ writable)
    (hentry : ∀ callee c c', entrypoint c = some (.ok u, c') →
      c.invokeStack = callee :: ctx.invokeStack → callee.programId = some calleeId →
      (∀ key, callee.Writable key → m.WritableKey key) →
      Guarded {key | m.WritableKey key} programs (0, 0) c c')
    (h : processInstruction entrypoint (.legacy m) instruction programIndices indices privileges
      ctx = some (.ok u, ctx')) : Guarded writable programs (0, 0) ctx ctx' := by
  obtain ⟨ctx₀, ctx₁, ctx₂, ctx₃, flags, _, hverify, hpush, hrun, hflags, hverify', rfl⟩ :=
    processInstruction_eq_ok_of_cons hstack h
  have hguard₀ := of_verifyAndUpdate hstack hprogram hcaller hverify
  obtain ⟨callee, copies, hnew, hcopies, rfl⟩ := push_eq_ok hpush
  rw [if_neg (by rw [hguard₀.invokeStack, hstack]; exact cons_ne_nil _ _)] at hcopies
  subst hcopies
  have hcalleeId : callee.programId = some calleeId := by
    rw [programId_newFrame hnew hlast, hguard₀.accountKeys, hid]
  have hcalleeWritable : ∀ key, callee.Writable key → m.WritableKey key := by
    rintro key ⟨keyedAccount, hk, rfl, hw⟩
    obtain ⟨i, j, hj, hkey, hiw, -⟩ := privileges_newFrame hnew hk
    rw [hguard₀.accountKeys, hframe i j hj] at hkey
    exact ⟨i, hkey, hw ▸ hiw⟩
  have hguard₁ := hentry callee _ _ hrun (congrArg (cons callee) hguard₀.invokeStack)
    hcalleeId hcalleeWritable
  have hkeys₂ : ctx₂.accountKeys = ctx.accountKeys :=
    hguard₁.accountKeys.trans hguard₀.accountKeys
  have hflagsWithin : PrivilegesWithin {key | m.WritableKey key} ctx₂ indices flags := by
    intro i j key hi hj hkey
    obtain ⟨i', hi', hw⟩ := exists_getElem?_of_forall₂ (mapM_eq_some_iff.mp hflags) hi
    obtain ⟨hlt, rfl⟩ := List.getElem?_eq_some_iff.mp hi'
    rw [getElem_range] at hw
    rw [hkeys₂, hlead i j hj] at hkey
    exact ⟨i, hkey, hw⟩
  have hguard₂ := of_verifyAndUpdate hguard₁.invokeStack
    (fun programId hp ↦ by
      rw [hcalleeId, some.injEq] at hp
      rwa [← hp]) hflagsWithin hverify'
  have hguard := (hguard₁.trans hguard₂).mono hsub
  refine ⟨?_, ?_, ?_, ?_⟩
  · show ctx₃.invokeStack.tail = ctx.invokeStack
    rw [hguard.invokeStack]
    exact hguard₀.invokeStack
  · exact hguard.accountKeys.trans hguard₀.accountKeys
  · exact hguard.lamports.trans hguard₀.lamports
  · exact forall₂_trans hguard₀.copies hguard.copies

end

end Guarded

end

/-- Executions are guarded, by induction over the script: whatever runs in a frame, the copies
change only within the privileges of the frame and by the programs that ran. -/
theorem Script.guarded_of_run (script : Script) (hprograms : script.programIds ⊆ programs)
    (hcontained : script.Contained writable) (hstack : ctx.invokeStack = frame :: rest)
    (hprogram : ∀ programId, frame.programId = some programId → programId ∈ programs)
    (hframe : ∀ key, frame.Writable key → key ∈ writable)
    (h : script.run ctx = some (.ok u, ctx')) :
    Guarded writable programs (0, 0) ctx ctx' := by
  induction script generalizing ctx ctx' writable frame rest u with
  | done result =>
    rcases result with e | ⟨⟩
    · cases throw_eq_ok.mp h
    obtain ⟨-, rfl⟩ := pure_eq_ok.mp h
    exact .refl ctx
  | write index account next ih =>
    rw [run, bind_eq_ok] at h
    obtain ⟨_, _, hwrite, h⟩ := h
    obtain rfl := modify_eq_ok.mp hwrite
    have hfirst : Guarded writable programs (0, 0) ctx (ctx.writeAccount index account) :=
      .of_write (accountKeys_writeAccount ctx index account)
    exact hfirst.trans (ih hprograms hcontained hstack hprogram hframe h)
  | invoke ix signers before callee next ihcallee ihnext =>
    rw [run, bind_eq_ok] at h
    obtain ⟨_, ctx₁, hinvoke, h⟩ := h
    obtain ⟨m, privileges, programIndices, indices, compiled, hcreate, hlocate, -, hprocess⟩ :=
      invoke_eq_ok hinvoke
    obtain ⟨hm, frame', rest', hstack', -, -, hprivileges, i, hlast, hid⟩ :=
      createMessage_eq_ok hcreate
    obtain ⟨rfl, rfl⟩ := cons.inj (hstack.symm.trans hstack')
    obtain ⟨hcalls, hnext⟩ := hcontained
    obtain ⟨hsub, hcallee⟩ := hcalls m hm
    simp only [programIds, Set.union_subset_iff, Set.singleton_subset_iff] at hprograms
    obtain ⟨⟨hid', hcalleeIds⟩, hnextIds⟩ := hprograms
    obtain ⟨accounts, hwrites, hkeys⟩ := ctx.writeAccounts_eq before
    have hfirst : Guarded writable programs (0, 0) ctx (ctx.writeAccounts before) := by
      rw [hwrites] at hkeys ⊢
      exact .of_write hkeys
    have hwithin : PrivilegesWithin writable (ctx.writeAccounts before) indices privileges := by
      intro i j key hi hj hkey
      obtain ⟨key', hkey', hw⟩ := hprivileges i hi
      rw [hkeys, (accountIndices_eq_ok hlocate).2 i j hj, hkey'] at hkey
      exact some.inj hkey ▸ hframe key' hw
    have hcall : Guarded writable programs (0, 0) (ctx.writeAccounts before) ctx₁ :=
      .of_processInstruction (hfirst.invokeStack.trans hstack) hprogram hwithin hlast
        (hkeys ▸ hid) hid'
        (fun i j hj ↦ by rw [hkeys]; exact accountKeys_of_accountIndex hm hlocate hj)
        (fun i j hj ↦ by rw [hkeys]; exact (accountIndices_eq_ok hlocate).2 i j hj) hsub
        (fun _ _ _ hrun hc hcid hcw ↦ ihcallee hcalleeIds hcallee hc
          (fun p hp ↦ by rw [hcid, some.injEq] at hp; rwa [← hp]) hcw hrun) hprocess
    have hguard := hfirst.trans hcall
    exact hguard.trans (ihnext hnextIds hnext (hguard.invokeStack.trans hstack) hprogram hframe h)

/-! ### The top-level instruction -/

variable {message : SanitizedMessage}

namespace InvokeContext

section

variable (ctx : InvokeContext)

/-- The lamports of the account at an index. -/
def lamportsAt (i : ℕ) : ℕ := (ctx.accounts[i]?).elim 0 fun p ↦ p.2.lamports

/-- The sum of the lamports of the distinct accounts of an instruction. -/
def totalLamports (instruction : CompiledInstruction) : ℕ :=
  ((distinctAccounts instruction).map ctx.lamportsAt).sum

/-- How much longer the data of an account is than in its reference copy. -/
def growthAt (p : ℕ × ℕ) : ℤ :=
  (ctx.accounts[p.1]?.elim 0 fun q ↦ q.2.data.length : ℕ) -
    (ctx.preAccounts[p.2]?.elim 0 fun pre ↦ pre.account.data.length : ℕ)

/-- The numbers, and their sums along the list, are `i64`s. -/
def Fits (start : ℤ) : List ℤ → Prop
  | [] => True
  | n :: rest => saturateI64 n = n ∧ saturateI64 (start + n) = start + n ∧ Fits (start + n) rest

/-- The programs of the frames of an execution. The program of the top-level frame is the one that
was pushed; the last check goes by the program of the message. -/
def executedPrograms (message : SanitizedMessage) (instruction : CompiledInstruction)
    (programIndices : List ℕ) (script : Script) : Set Pubkey :=
  {programId | message.accountKeys[instruction.programIdIndex]? = some programId} ∪
  {programId | ∃ frame, ctx.newFrame message instruction programIndices [] = some frame ∧
    frame.programId = some programId} ∪ script.programIds

end

lemma foldlM_verifyAccount {l : List (ℕ × ℕ)}
    (h : l.foldlM (fun sums p ↦ verifyAccount message programId sums p.2 p.1) sums ctx =
      some (.ok sums', ctx')) :
    (∀ p ∈ l, ∃ q pre isWritable, ctx.accounts[p.1]? = some q ∧ ctx.preAccounts[p.2]? = some pre ∧
      message.isWritable p.1 = some isWritable ∧ ctx.Verified programId isWritable pre q.2) ∧
    sums'.1 = sums.1 + (l.map fun p ↦
      (ctx.preAccounts[p.2]?).elim 0 fun pre ↦ pre.account.lamports).sum ∧
    sums'.2 = sums.2 + (l.map fun p ↦ ctx.lamportsAt p.1).sum ∧
    ∃ meter, ctx' = { ctx with accountsDataMeter := meter } ∧
      (Fits ctx.accountsDataMeter.delta (l.map ctx.growthAt) →
        meter.delta = ctx.accountsDataMeter.delta + (l.map ctx.growthAt).sum) := by
  induction l generalizing ctx sums with
  | nil =>
    obtain ⟨rfl, rfl⟩ := pure_eq_ok.mp h
    exact ⟨forall_mem_nil _, rfl, rfl, ctx.accountsDataMeter, rfl, fun _ ↦ (add_zero _).symm⟩
  | cons p l ih =>
    rw [foldlM_cons, bind_eq_ok] at h
    obtain ⟨_, _, hp, hl⟩ := h
    obtain ⟨q, pre, isWritable, meter, hq, hpre, hw, hverified, rfl, rfl, hdelta⟩ :=
      verifyAccount_eq_ok hp
    obtain ⟨hall, hpreSum, hpostSum, meter', rfl, hmeter⟩ := ih hl
    refine ⟨forall_mem_cons.mpr ⟨⟨q, pre, isWritable, hq, hpre, hw, hverified⟩, hall⟩, ?_, ?_,
      meter', rfl, fun ⟨hgrowth, hsum, hrest⟩ ↦ ?_⟩
    · rw [hpreSum, map_cons, sum_cons, hpre, Nat.add_assoc]
      rfl
    · have hat : ctx.lamportsAt p.1 = q.2.lamports := by
        rw [lamportsAt, hq]
        rfl
      rw [hpostSum, map_cons, sum_cons, hat, Nat.add_assoc]
      rfl
    have hat : dataLenDelta pre.account q.2 = ctx.growthAt p := by
      rw [growthAt, hq, hpre] at hgrowth ⊢
      exact hgrowth
    rw [hat, hsum] at hdelta
    rw [hmeter (by rw [hdelta]; exact hrest), hdelta, map_cons, sum_cons, add_assoc]
    rfl

lemma copy_eq_some (h : ctx.copy i = some pre) :
    ctx.accounts[i]? = some (pre.key, pre.account) := by
  rw [copy, map_eq_some_iff] at h
  obtain ⟨⟨key, account⟩, hget, rfl⟩ := h
  exact hget

lemma sum_copies {copies : List PreAccount}
    (h : (distinctAccounts instruction).mapM ctx.copy = some copies) :
    (copies.map fun pre ↦ pre.account.lamports).sum = ctx.totalLamports instruction := by
  have hmap : copies.map (fun pre ↦ pre.account.lamports) =
      (distinctAccounts instruction).map ctx.lamportsAt :=
    map_eq_of_mapM_eq_some h fun i _ pre hpre ↦ by
      rw [lamportsAt, copy_eq_some hpre]
      rfl
  rw [hmap, totalLamports]

/-- The last check: every copy is compared with its account, and the lamports of all copies with
those of the accounts. -/
theorem verify_spec (h : verify message instruction ctx = some (.ok u, ctx'))
    (hlength : ctx.preAccounts.length = (distinctAccounts instruction).length) :
    ∃ programId meter, message.accountKeys[instruction.programIdIndex]? = some programId ∧
      ctx' = { ctx with accountsDataMeter := meter } ∧
      ctx.preLamports = ctx.totalLamports instruction ∧
      ∀ i k : ℕ, (distinctAccounts instruction)[k]? = some i → ∃ q pre isWritable,
        ctx.accounts[i]? = some q ∧ ctx.preAccounts[k]? = some pre ∧
        message.isWritable i = some isWritable ∧ ctx.Verified programId isWritable pre q.2 := by
  obtain ⟨programId, sum, hprogram, hvisit⟩ := verify_eq_ok h
  obtain ⟨hall, hpreSum, hpostSum, meter, rfl, -⟩ := foldlM_verifyAccount hvisit
  refine ⟨programId, meter, hprogram, rfl, ?_, fun i k hik ↦
    hall (i, k) (mem_zipIdx_iff_getElem?.mpr hik)⟩
  -- the copies are visited by their numbers, the accounts by their indices
  have hnumbers : (distinctAccounts instruction).zipIdx.map Prod.snd =
      range ctx.preAccounts.length := by
    rw [zipIdx_map_snd, hlength, range_eq_range']
  have hpre : sum = ctx.preLamports := by
    rw [preLamports, ← sum_map_range_getElem?, ← hnumbers, map_map]
    exact hpreSum.trans (Nat.zero_add _)
  have hpost : sum = ctx.totalLamports instruction := by
    rw [totalLamports, ← zipIdx_map_fst 0 (distinctAccounts instruction), map_map]
    exact hpostSum.trans (Nat.zero_add _)
  rw [← hpre, hpost]

end InvokeContext

lemma SanitizedMessage.exists_key_of_isWritable (h : message.isWritable i = some true) :
    ∃ key, message.accountKeys[i]? = some key := by
  cases message with
  | legacy m =>
    obtain ⟨-, key, hkey, -⟩ := Message.isWritable_eq_true.mp h
    exact ⟨key, hkey⟩
  | v0 m =>
    have hw : m.isWritable i = true := some.inj h
    rw [LoadedMessage.isWritable] at hw
    cases hkey : m.accountKeysIter[i]? with
    | none => simp [hkey] at hw
    | some key => exact ⟨key, hkey⟩

/-- The frame of a top-level instruction has the privileges of its message, when the accounts of the
transaction start with the keys of the message. -/
theorem writableKey_of_newFrame {key : Pubkey}
    (hkeys : ∀ (i : ℕ) (key : Pubkey), message.accountKeys[i]? = some key →
      ctx.accountKeys[i]? = some key)
    (hframe : ctx.newFrame message instruction programIndices [] = some frame)
    (h : frame.Writable key) : message.WritableKey key := by
  obtain ⟨keyedAccount, hk, rfl, hw⟩ := h
  obtain ⟨i, j, hj, hkey, hiw, -⟩ := privileges_newFrame hframe hk
  obtain rfl : i = j := some.inj hj
  rw [hw] at hiw
  obtain ⟨key, hkey'⟩ := SanitizedMessage.exists_key_of_isWritable hiw
  obtain rfl := some.inj ((hkeys i key hkey').symm.trans hkey)
  exact ⟨i, hkey', hiw⟩

/-- **Account isolation.** Run a top-level instruction with any execution of its program, in which
no call has write privileges beyond its caller's. If it succeeds, the lamports of its distinct
accounts have the sum they had before; an account that is not writable in the message, or was
executable, did not change; and an account whose owner did not run kept its data, owner and
executable flag, and lost no lamports. -/
theorem processInstruction_isolated {script : Script} {message : SanitizedMessage}
    {instruction : CompiledInstruction} {programIndices : List ℕ} {ctx ctx' : InvokeContext}
    (hstack : ctx.invokeStack = [])
    (hkeys : ∀ (i : ℕ) (key : Pubkey), message.accountKeys[i]? = some key →
      ctx.accountKeys[i]? = some key)
    (hcontained : script.Contained {key | message.WritableKey key})
    (h : processInstruction script.run message instruction programIndices [] [] ctx =
      some (.ok (), ctx')) :
    ctx'.totalLamports instruction = ctx.totalLamports instruction ∧
    ∀ i ∈ instruction.accounts, ∃ key before after,
      ctx.accounts[i]? = some (key, before) ∧ ctx'.accounts[i]? = some (key, after) ∧
      (¬ message.WritableKey key ∨ before.executable = true →
        after.lamports = before.lamports ∧ after.data = before.data ∧
          after.owner = before.owner ∧ after.executable = before.executable) ∧
      (before.owner ∉ ctx.executedPrograms message instruction programIndices script →
        after.data = before.data ∧ after.owner = before.owner ∧
          after.executable = before.executable ∧ before.lamports ≤ after.lamports) := by
  obtain ⟨ctx₁, ctx₂, ctx₃, _, hpush, hrun, hverify, rfl⟩ :=
    processInstruction_eq_ok_of_nil hstack h
  obtain ⟨frame, copies, hframe, hcopies, rfl⟩ := push_eq_ok hpush
  rw [if_pos hstack] at hcopies
  have hcopies' := mapM_eq_some_iff.mp hcopies
  have hguard : Guarded {key | message.WritableKey key}
      (ctx.executedPrograms message instruction programIndices script) (0, 0) _ ctx₂ :=
    script.guarded_of_run Set.subset_union_right hcontained rfl
      (fun p hp ↦ .inl (.inr ⟨frame, hframe, hp⟩))
      (fun _ hw ↦ writableKey_of_newFrame hkeys hframe hw) hrun
  have hlength : ctx₂.preAccounts.length = (distinctAccounts instruction).length :=
    hguard.copies.length_eq.symm.trans hcopies'.length_eq.symm
  obtain ⟨programId, meter, hprogram, rfl, hsum, hall⟩ := verify_spec hverify hlength
  refine ⟨?_, fun i hi ↦ ?_⟩
  · have hguarded : ctx₂.preLamports = (copies.map fun pre ↦ pre.account.lamports).sum :=
      hguard.lamports
    rw [← sum_copies hcopies, ← hguarded, hsum]
    rfl
  obtain ⟨k, hk⟩ := mem_iff_getElem?.mp (mem_eraseDups.mpr hi)
  obtain ⟨⟨key, after⟩, pre, isWritable, hafter, hpre, hw, hverified⟩ := hall i k hk
  obtain ⟨start, hstart, hkey, hexec⟩ := exists_getElem?_of_forall₂ hguard.copies hpre
  obtain ⟨i', hi', hcopy⟩ := exists_getElem?_of_forall₂ hcopies' hstart
  obtain rfl : i = i' := some.inj (hk.symm.trans hi')
  have hbefore := copy_eq_some hcopy
  -- the key of an account never changes
  have hcurrent : ctx.accountKeys[i]? = some key := by
    have hkeys₂ : ctx₂.accountKeys = ctx.accountKeys := hguard.accountKeys
    rw [← hkeys₂, accountKeys, getElem?_map, hafter]
    rfl
  obtain rfl : start.key = key := by
    rw [accountKeys, getElem?_map, hbefore] at hcurrent
    exact some.inj hcurrent
  have hlast : isWritable = true → message.WritableKey start.key := fun hw' ↦ by
    rw [hw'] at hw
    obtain ⟨key, hkey⟩ := SanitizedMessage.exists_key_of_isWritable hw
    obtain rfl := some.inj ((hkeys i key hkey).symm.trans hcurrent)
    exact ⟨i, hkey, hw⟩
  have hisolated := hexec.trans
    (hverified.isolated.mono hlast (Set.singleton_subset_iff.mpr (.inl (.inl hprogram))))
  exact ⟨start.key, start.account, after, hbefore, hafter, hisolated.frozen, hisolated.foreign⟩

/-- An account of the program 8, one of the program 3, and the two programs. -/
def ownedContext : InvokeContext where
  invokeStack := []
  isExempt _ _ := true
  preAccounts := []
  accounts := [(⟨1⟩, ⟨10, [], ⟨8⟩, false, 0⟩), (⟨2⟩, ⟨10, [0], ⟨3⟩, false, 0⟩),
    (⟨3⟩, ⟨1, [], bpfLoaderId, true, 0⟩), (⟨8⟩, ⟨1, [], bpfLoaderId, true, 0⟩)]
  builtinPrograms := [bpfLoaderId]
  maxInvokeDepth := 4
  accountsDataMeter := ⟨128000000000, 0, 0⟩
  features := ⟨true, true, true, true⟩

/-- A call of the program 8 with the accounts 1 and 2, both writable, and the program 3. -/
def ownedMessage : Message :=
  ⟨⟨1, 0, 2⟩, [⟨1⟩, ⟨2⟩, ⟨3⟩, ⟨8⟩], default, [⟨3, [0, 1, 2], []⟩]⟩

/-- The call the program 8 makes of the program 3. -/
def ownedInstruction : Instruction := ⟨⟨3⟩, [⟨⟨2⟩, false, true⟩], []⟩

/-- The program 8 has the program 3 write to the account 2, then pays 5 lamports into it. -/
def ownedScript : Script :=
  .invoke ownedInstruction [] [] (.write 1 ⟨10, [7], ⟨3⟩, false, 0⟩ (.done (.ok ())))
    (.write 0 ⟨5, [], ⟨8⟩, false, 0⟩ (.write 1 ⟨15, [7], ⟨3⟩, false, 0⟩ (.done (.ok ()))))

lemma contained_ownedScript :
    ownedScript.Contained {key | (SanitizedMessage.legacy ownedMessage).WritableKey key} := by
  refine ⟨fun m hm ↦ ⟨?_, trivial⟩, trivial⟩
  obtain rfl : m = ⟨⟨0, 0, 1⟩, [⟨2⟩, ⟨3⟩], default, [⟨1, [0], []⟩]⟩ :=
    some.inj (hm.symm.trans (by decide +kernel))
  rintro key ⟨i, hi, hw⟩
  match i, hi, hw with
  | 0, hi, _ =>
    cases hi
    exact ⟨1, rfl, by decide +kernel⟩
  | 1, _, hw => exact absurd hw (by decide +kernel)
  | i + 2, hi, _ => cases hi

/-- The execution succeeds; the sum is kept and the program 3 is as before. -/
theorem processInstruction_isolated_owned :
    ∃ ctx', processInstruction ownedScript.run (.legacy ownedMessage) ⟨3, [0, 1, 2], []⟩ [3] [] []
        ownedContext = some (.ok (), ctx') ∧
      ctx'.totalLamports ⟨3, [0, 1, 2], []⟩ = ownedContext.totalLamports ⟨3, [0, 1, 2], []⟩ ∧
      ∃ key before after, ownedContext.accounts[2]? = some (key, before) ∧
        ctx'.accounts[2]? = some (key, after) ∧ after.lamports = before.lamports := by
  obtain ⟨ctx', hctx'⟩ : ∃ ctx', processInstruction ownedScript.run (.legacy ownedMessage)
      ⟨3, [0, 1, 2], []⟩ [3] [] [] ownedContext = some (.ok (), ctx') := ⟨_, rfl⟩
  have hkeys : ∀ (i : ℕ) (key : Pubkey),
      (SanitizedMessage.legacy ownedMessage).accountKeys[i]? = some key →
        ownedContext.accountKeys[i]? = some key := fun i key h ↦ h
  obtain ⟨hsum, hall⟩ := processInstruction_isolated rfl hkeys contained_ownedScript hctx'
  obtain ⟨key, before, after, hbefore, hafter, hfrozen, -⟩ := hall 2 (by decide)
  obtain ⟨-, rfl⟩ := Prod.mk.inj (some.inj hbefore)
  exact ⟨ctx', hctx', hsum, key, _, after, hbefore, hafter, (hfrozen (.inr rfl)).1⟩

end Renec
