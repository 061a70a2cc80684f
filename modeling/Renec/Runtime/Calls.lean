import Renec.Runtime.InvokeContext
import Renec.Sdk.MessageLayout

/-!
# What a call does

One lemma for each method of the invoke context, from its return: what it checked, and what it did
to the state. The accounts are changed by programs only, and never their keys.
-/

namespace Renec

open List Exec

namespace StackFrame

variable (frame : StackFrame) (key : Pubkey)

def instructionAccounts : List KeyedAccount :=
  frame.keyedAccounts.drop frame.numberOfProgramAccounts

/-- The program was passed the account with write access. -/
def Writable : Prop := ∃ keyedAccount ∈ frame.instructionAccounts,
    keyedAccount.key = key ∧ keyedAccount.isWritable = true

/-- The program was passed the account as a signer. -/
def Signer : Prop := ∃ keyedAccount ∈ frame.instructionAccounts,
    keyedAccount.key = key ∧ keyedAccount.isSigner = true

end StackFrame

def SanitizedMessage.WritableKey (m : SanitizedMessage) (key : Pubkey) : Prop :=
  ∃ i, m.accountKeys[i]? = some key ∧ m.isWritable i = some true

namespace InvokeContext

def accountKeys (ctx : InvokeContext) : List Pubkey := ctx.accounts.map Prod.fst

variable {ctx ctx' : InvokeContext} {message : SanitizedMessage} {frame : StackFrame}
  {instruction : CompiledInstruction} {programIndices indices : List ℕ}

/-! ### Finding accounts -/

variable {keyedAccount : KeyedAccount} {privileges : List Bool} {u : Unit} {i : ℕ}
  {sums sums' : ℕ × ℕ} {entrypoint : Invoke Unit} {key : Pubkey}

lemma getAccount_eq_some {account : Account} (h : ctx.getAccount key = some (i, account)) :
    ctx.accounts[i]? = some (key, account) := by
  rw [getAccount, Option.map_eq_some_iff] at h
  obtain ⟨⟨⟨key', account'⟩, i'⟩, hfind, heq⟩ := h
  cases heq
  have hkey : key' = key := by simpa using find?_some hfind
  have hmem := mem_reverse.mp (mem_of_find?_eq_some hfind)
  rw [← hkey]
  exact mem_zipIdx_iff_getElem?.mp hmem

variable {m : Message}

lemma accountIndices_eq_ok (h : ctx.accountIndices m = .ok indices) :
    indices.length = m.accountKeys.length ∧
      ∀ i j : ℕ, indices[i]? = some j → ctx.accountKeys[j]? = m.accountKeys[i]? := by
  rw [accountIndices, Outcome.mapM_eq_ok_iff] at h
  refine ⟨h.length_eq.symm, fun i j hj ↦ ?_⟩
  obtain ⟨key, hkey, hget⟩ := exists_getElem?_of_forall₂ h hj
  simp only [Outcome.bind_eq_ok, Outcome.okOr_eq_ok, Outcome.pure_eq_ok, Outcome.ok.injEq] at hget
  obtain ⟨⟨j, account⟩, hj', rfl⟩ := hget
  rw [accountKeys, getElem?_map, getAccount_eq_some hj', hkey]
  rfl

variable {ix : Instruction}

/-- The message of a call has the key of its program at least, so the list of account indices is
used, and leads to the keys of the message. -/
theorem accountKeys_of_accountIndex (hm : Message.new [ix] none = some m)
    (h : ctx.accountIndices m = .ok indices) {j : ℕ} (hj : accountIndex indices i = some j) :
    ctx.accountKeys[j]? = m.accountKeys[i]? := by
  obtain ⟨hlength, hlead⟩ := accountIndices_eq_ok h
  have hmem : ix.programId ∈ m.accountKeys := by
    rw [Message.mem_accountKeys_iff hm, requestedMetas_singleton]
    simp
  have hne : indices.isEmpty = false := by
    rw [isEmpty_eq_false_iff, ← length_pos_iff, hlength]
    exact length_pos_of_mem hmem
  rw [accountIndex, hne, if_neg Bool.false_ne_true] at hj
  exact hlead i j hj

/-! ### Frames -/

lemma newFrame_eq_some
    (h : ctx.newFrame message instruction programIndices indices = some frame) :
    instruction.accounts.mapM (ctx.instructionKeyedAccount message indices) =
      some frame.instructionAccounts := by
  simp only [newFrame, bind_eq_some, pure_eq_some] at h
  obtain ⟨programs, hprograms, accounts, haccounts, rfl⟩ := h
  have hlen : programIndices.length = programs.length := (mapM_eq_some_iff.mp hprograms).length_eq
  rw [haccounts, StackFrame.instructionAccounts, hlen, drop_left]

lemma programId_newFrame
    (h : ctx.newFrame message instruction programIndices indices = some frame)
    (hi : programIndices.getLast? = some i) : frame.programId = ctx.accountKeys[i]? := by
  simp only [newFrame, bind_eq_some, pure_eq_some] at h
  obtain ⟨programs, hprograms, accounts, -, rfl⟩ := h
  obtain ⟨init, rfl⟩ := getLast?_eq_some_iff.mp hi
  simp only [mapM_append, mapM_cons, mapM_nil, bind_eq_some, pure_eq_some] at hprograms
  obtain ⟨ps, hps, _, ⟨p, hp, _, rfl, rfl⟩, rfl⟩ := hprograms
  have hlen : (init ++ [i]).length - 1 = ps.length := by
    rw [length_append, length_singleton, Nat.add_sub_cancel]
    exact (mapM_eq_some_iff.mp hps).length_eq
  rw [StackFrame.programId, hlen, append_assoc, getElem?_append_right (le_refl _),
    Nat.sub_self, accountKeys, getElem?_map]
  rw [programKeyedAccount, Option.map_eq_some_iff] at hp
  obtain ⟨a, ha, rfl⟩ := hp
  rw [ha]
  rfl

lemma instructionKeyedAccount_eq_some
    (h : ctx.instructionKeyedAccount message indices i = some keyedAccount) :
    message.isWritable i = some keyedAccount.isWritable ∧
      message.isSigner i = keyedAccount.isSigner ∧ ∃ j, accountIndex indices i = some j ∧
        ctx.accountKeys[j]? = some keyedAccount.key := by
  simp only [instructionKeyedAccount, bind_eq_some, pure_eq_some] at h
  obtain ⟨j, hj, ⟨key, account⟩, hkey, isWritable, hw, rfl⟩ := h
  refine ⟨hw, rfl, j, hj, ?_⟩
  rw [accountKeys, getElem?_map, hkey]
  rfl

/-- A frame has the privileges of its message: each of its accounts has the flags of some index of
the message. -/
theorem privileges_newFrame
    (h : ctx.newFrame message instruction programIndices indices = some frame)
    (hmem : keyedAccount ∈ frame.instructionAccounts) :
    ∃ i j : ℕ, accountIndex indices i = some j ∧ ctx.accountKeys[j]? = some keyedAccount.key ∧
      message.isWritable i = some keyedAccount.isWritable ∧
      message.isSigner i = keyedAccount.isSigner := by
  obtain ⟨i, -, hi⟩ := (mem_iff_of_mapM_eq_some (newFrame_eq_some h)).mp hmem
  obtain ⟨hw, hs, j, hj, hkey⟩ := instructionKeyedAccount_eq_some hi
  exact ⟨i, j, hj, hkey, hw, hs⟩

/-! ### Pushing a frame -/

/-- The reference copy of an account as it is now. -/
def copy (ctx : InvokeContext) (accountIndex : ℕ) : Option PreAccount :=
  ctx.accounts[accountIndex]?.map fun p ↦ PreAccount.new p.1 p.2

lemma pushPreAccount_eq_ok (h : pushPreAccount i ctx = some (.ok u, ctx')) :
    ∃ preAccount, ctx.copy i = some preAccount ∧
      ctx' = { ctx with preAccounts := ctx.preAccounts ++ [preAccount] } := by
  simp only [pushPreAccount, bind_eq_ok, get_bind, okOr_eq_ok, modify_eq_ok] at h
  obtain ⟨p, _, ⟨hp, rfl⟩, rfl⟩ := h
  exact ⟨_, by rw [copy, hp]; rfl, rfl⟩

lemma foldlM_pushPreAccount {l : List (ℕ × ℕ)} {v : Unit}
    (h : l.foldlM (fun _ p ↦ pushPreAccount p.1) u ctx = some (.ok v, ctx')) :
    ∃ copies, (l.map Prod.fst).mapM ctx.copy = some copies ∧
      ctx' = { ctx with preAccounts := ctx.preAccounts ++ copies } := by
  induction l generalizing ctx with
  | nil =>
    obtain ⟨-, rfl⟩ := pure_eq_ok.mp h
    exact ⟨[], rfl, by rw [append_nil]⟩
  | cons p l ih =>
    rw [foldlM_cons, bind_eq_ok] at h
    obtain ⟨_, ctx₁, hp, hl⟩ := h
    obtain ⟨preAccount, hcopy, rfl⟩ := pushPreAccount_eq_ok hp
    obtain ⟨copies, hcopies, rfl⟩ := ih hl
    refine ⟨preAccount :: copies, ?_, by rw [append_assoc]; rfl⟩
    rw [map_cons, mapM_cons, hcopy, some_bind]
    exact congrArg (Option.bind · _) hcopies

/-- The distinct accounts of an instruction, in the order they are visited. -/
def distinctAccounts (instruction : CompiledInstruction) : List ℕ := instruction.accounts.eraseDups

lemma startPreAccounts_eq_ok (h : startPreAccounts instruction ctx = some (.ok u, ctx')) :
    ∃ copies, (distinctAccounts instruction).mapM ctx.copy = some copies ∧
      ctx' = { ctx with preAccounts := copies } := by
  simp only [startPreAccounts, bind_eq_ok, modify_eq_ok, visitEachAccount] at h
  obtain ⟨_, _, rfl, h⟩ := h
  obtain ⟨copies, hcopies, rfl⟩ := foldlM_pushPreAccount h
  rw [zipIdx_map_fst] at hcopies
  exact ⟨copies, hcopies, rfl⟩

/-- What `push` does. The frame is that of the call; a top-level instruction starts with fresh
reference copies, and another call leaves them alone. -/
theorem push_eq_ok (h : push message instruction programIndices indices ctx = some (.ok u, ctx')) :
    ∃ frame preAccounts, ctx.newFrame message instruction programIndices indices = some frame ∧
      (if ctx.invokeStack = [] then
        (distinctAccounts instruction).mapM ctx.copy = some preAccounts
      else preAccounts = ctx.preAccounts) ∧
      ctx' = { ctx with invokeStack := frame :: ctx.invokeStack, preAccounts := preAccounts } := by
  simp only [push, bind_eq_ok, get_bind, failIf_eq_ok, ofOption_eq_ok, modify_eq_ok] at h
  obtain ⟨_, _, ⟨-, rfl⟩, _, _, ⟨-, rfl⟩, _, _, ⟨-, rfl⟩, _, ctx₁, henter, frame,
    _, ⟨hframe, rfl⟩, rfl⟩ := h
  simp only [enter, get_bind] at henter
  by_cases hempty : ctx.invokeStack = []
  · rw [hempty, isEmpty_nil, if_pos rfl] at henter
    obtain ⟨copies, hcopies, rfl⟩ := startPreAccounts_eq_ok henter
    exact ⟨frame, copies, hframe, by rw [if_pos hempty]; exact hcopies, rfl⟩
  rw [if_neg (by simpa using hempty), failIf_eq_ok] at henter
  obtain ⟨-, rfl⟩ := henter
  exact ⟨frame, ctx.preAccounts, hframe, by rw [if_neg hempty], rfl⟩

/-! ### Verification -/

lemma consumeData_eq_ok {delta : ℤ} (h : consumeData delta ctx = some (.ok u, ctx')) :
    ∃ meter, ctx' = { ctx with accountsDataMeter := meter } ∧
      meter.delta = saturateI64 (ctx.accountsDataMeter.delta + delta) := by
  simp only [consumeData, bind_eq_ok, get_bind, ofOutcome_eq_ok, modify_eq_ok] at h
  obtain ⟨meter, _, ⟨hmeter, rfl⟩, rfl⟩ := h
  refine ⟨meter, rfl, ?_⟩
  split at hmeter
  · simp only [AccountsDataMeter.consume, Outcome.bind_eq_ok, Outcome.pure_eq_ok] at hmeter
    obtain ⟨-, -, hmeter⟩ := hmeter
    cases hmeter
    rfl
  cases hmeter
  rfl

lemma addLamports_eq_ok {sum lamports sum' : ℕ} :
    addLamports sum lamports ctx = some (.ok sum', ctx') ↔
      (sum + lamports < 2 ^ 128 ∧ sum + lamports = sum') ∧ ctx = ctx' := by
  rw [addLamports, okOr_eq_ok, checkedAdd_eq_some]

/-- The check of one account, as both verifications make it. -/
def Verified (ctx : InvokeContext) (programId : Pubkey) (isWritable : Bool) (pre : PreAccount)
    (account : Account) : Prop :=
  pre.verify programId isWritable ctx.isExempt account ctx.features.doSupportRealloc = .ok ()

variable {programId : Pubkey}

lemma verifyAccount_eq_ok {j : ℕ}
    (h : verifyAccount message programId sums i j ctx = some (.ok sums', ctx')) :
    ∃ p pre isWritable meter, ctx.accounts[j]? = some p ∧ ctx.preAccounts[i]? = some pre ∧
      message.isWritable j = some isWritable ∧ ctx.Verified programId isWritable pre p.2 ∧
      sums' = (sums.1 + pre.account.lamports, sums.2 + p.2.lamports) ∧
      ctx' = { ctx with accountsDataMeter := meter } ∧
      meter.delta = saturateI64 (ctx.accountsDataMeter.delta + dataLenDelta pre.account p.2) := by
  simp only [verifyAccount, bind_eq_ok, get_bind, ofOption_eq_ok, ofOutcome_eq_ok,
    addLamports_eq_ok, pure_eq_ok] at h
  obtain ⟨p, _, ⟨hp, rfl⟩, pre, _, ⟨hpre, rfl⟩, isWritable, _, ⟨hw, rfl⟩, _, _,
    ⟨hverify, rfl⟩, _, _, ⟨⟨-, rfl⟩, rfl⟩, _, _, ⟨⟨-, rfl⟩, rfl⟩, _, _, hconsume, rfl, rfl⟩ := h
  obtain ⟨meter, rfl, hdelta⟩ := consumeData_eq_ok hconsume
  exact ⟨p, pre, isWritable, meter, hp, hpre, hw, hverify, rfl, rfl, hdelta⟩

lemma verifyAndUpdateAccount_eq_ok {n : ℕ}
    (h : verifyAndUpdateAccount programId indices privileges sums n i ctx =
      some (.ok sums', ctx')) :
    ∃ isWritable j p k pre meter, privileges[i]? = some isWritable ∧ indices[i]? = some j ∧
      ctx.accounts[j]? = some p ∧ ctx.preAccounts[k]? = some pre ∧ pre.key = p.1 ∧
      ctx.Verified programId isWritable pre p.2 ∧
      sums' = (sums.1 + pre.account.lamports, sums.2 + p.2.lamports) ∧
      ctx' = { ctx with
        preAccounts := ctx.preAccounts.set k (updatedPreAccount pre isWritable p.2)
        accountsDataMeter := meter } ∧
      meter.delta = saturateI64 (ctx.accountsDataMeter.delta +
        dataLenDelta (updatedPreAccount pre isWritable p.2).account p.2) := by
  simp only [verifyAndUpdateAccount, bind_eq_ok, get_bind, okOr_eq_ok, ofOption_eq_ok,
    ofOutcome_eq_ok, addLamports_eq_ok, modify_eq_ok, pure_eq_ok] at h
  obtain ⟨isWritable, _, ⟨hw, rfl⟩, j, _, ⟨hj, rfl⟩, p, _, ⟨hp, rfl⟩, k, _,
    ⟨hk, rfl⟩, pre, _, ⟨hpre, rfl⟩, _, _, ⟨hverify, rfl⟩, _, _, ⟨⟨-, rfl⟩, rfl⟩, _, _,
    ⟨⟨-, rfl⟩, rfl⟩, _, _, rfl, _, _, hconsume, rfl, rfl⟩ := h
  obtain ⟨meter, rfl, hdelta⟩ := consumeData_eq_ok hconsume
  have hkey : pre.key = p.1 := by
    obtain ⟨hlt, hfound, -⟩ := findIdx?_eq_some_iff_getElem.mp hk
    rw [getElem?_eq_getElem hlt, Option.some.injEq] at hpre
    rw [← hpre]
    exact beq_iff_eq.mp hfound
  exact ⟨isWritable, j, p, k, pre, meter, hw, hj, hp, hpre, hkey, hverify, rfl, rfl, hdelta⟩

lemma verifyAndUpdate_eq_ok
    (h : verifyAndUpdate instruction indices privileges ctx = some (.ok u, ctx')) :
    ∃ frame rest programId sum, ctx.invokeStack = frame :: rest ∧ frame.programId = some programId ∧
      visitEachAccount instruction
        (verifyAndUpdateAccount programId indices privileges) (0, 0) ctx =
        some (.ok (sum, sum), ctx') := by
  simp only [verifyAndUpdate, bind_eq_ok, get_bind, okOr_eq_ok, failIf_eq_ok] at h
  obtain ⟨programId, _, ⟨hprogram, rfl⟩, ⟨preSum, postSum⟩, _, hvisit, hsum, rfl⟩ := h
  rw [Option.bind_eq_some_iff] at hprogram
  obtain ⟨frame, hframe, hid⟩ := hprogram
  obtain ⟨rest, hstack⟩ := head?_eq_some_iff.mp hframe
  obtain rfl : preSum = postSum := by simpa using hsum
  exact ⟨frame, rest, programId, preSum, hstack, hid, hvisit⟩

lemma verify_eq_ok (h : verify message instruction ctx = some (.ok u, ctx')) :
    ∃ programId sum, message.accountKeys[instruction.programIdIndex]? = some programId ∧
      visitEachAccount instruction (verifyAccount message programId) (0, 0) ctx =
        some (.ok (sum, sum), ctx') := by
  simp only [verify, bind_eq_ok, ofOption_eq_ok, failIf_eq_ok] at h
  obtain ⟨programId, _, ⟨hprogram, rfl⟩, ⟨preSum, postSum⟩, _, hvisit, hsum, rfl⟩ := h
  obtain rfl : preSum = postSum := by simpa using hsum
  exact ⟨programId, preSum, hprogram, hvisit⟩

/-! ### Creating a message -/

section

variable {signers : List Pubkey} {keyedAccounts : List KeyedAccount}

lemma findKeyedAccount_eq_ok (h : findKeyedAccount keyedAccounts key = .ok keyedAccount) :
    keyedAccount ∈ keyedAccounts ∧ keyedAccount.key = key := by
  rw [findKeyedAccount, Outcome.okOr_eq_ok] at h
  exact ⟨mem_of_find?_eq_some h, by simpa using find?_some h⟩

lemma checkPrivileges_eq_ok {account : AccountMeta}
    (h : checkPrivileges keyedAccounts signers account = .ok u) :
    ∃ keyedAccount ∈ keyedAccounts, keyedAccount.key = account.pubkey ∧
      (account.isWritable = true → keyedAccount.isWritable = true) ∧
      (account.isSigner = true → keyedAccount.isSigner = true ∨ account.pubkey ∈ signers) := by
  simp only [checkPrivileges, Outcome.bind_eq_ok, Outcome.failIf_eq_ok] at h
  obtain ⟨keyedAccount, hfind, _, hw, hs⟩ := h
  obtain ⟨hmem, hkey⟩ := findKeyedAccount_eq_ok hfind
  refine ⟨keyedAccount, hmem, hkey, fun h ↦ ?_, fun h ↦ ?_⟩
  · simpa [h] using hw
  · simpa [h, or_iff_not_imp_left] using hs

/-- What `createMessage` checked: every privilege an account of the instruction asks for, the caller
has, and the caller's write privileges are returned in the order of the message's keys. The last
program account is that of the program. -/
theorem createMessage_eq_ok
    (h : ctx.createMessage ix signers = .ok (m, privileges, programIndices)) :
    Message.new [ix] none = some m ∧ ∃ frame rest, ctx.invokeStack = frame :: rest ∧
      (∀ account ∈ ix.accounts, account.isWritable = true → frame.Writable account.pubkey) ∧
      (∀ account ∈ ix.accounts, account.isSigner = true →
        frame.Signer account.pubkey ∨ account.pubkey ∈ signers) ∧
      (∀ i : ℕ, privileges[i]? = some true →
        ∃ key, m.accountKeys[i]? = some key ∧ frame.Writable key) ∧
      ∃ i, programIndices.getLast? = some i ∧ ctx.accountKeys[i]? = some ix.programId := by
  simp only [createMessage, Outcome.bind_eq_ok, Outcome.ofOption_eq_ok, Outcome.pure_eq_ok,
    Outcome.ok.injEq, Prod.mk.injEq, getInstructionKeyedAccounts, Outcome.okOr_eq_ok,
    Outcome.assert_eq_ok, Outcome.mapM_eq_ok_iff, Outcome.forM_eq_ok, findProgramIndices,
    Outcome.failIf_eq_ok] at h
  obtain ⟨_, hm, _, ⟨frame, hframe, _, -, rfl⟩, callee, hcallee, _, hchecks, indices,
    ⟨_, -, ⟨i, account⟩, hprogram, _, -, programdata, -, rfl⟩, rfl, rfl, rfl⟩ := h
  obtain ⟨rest, hstack⟩ : ∃ rest, ctx.invokeStack = frame :: rest := head?_eq_some_iff.mp hframe
  -- the accounts of the callee are the caller's
  have hmem : ∀ keyedAccount ∈ callee, keyedAccount ∈ frame.instructionAccounts := by
    intro keyedAccount hk
    obtain ⟨j, hj⟩ := mem_iff_getElem?.mp hk
    obtain ⟨key, -, hfind⟩ := exists_getElem?_of_forall₂ hcallee hj
    exact (findKeyedAccount_eq_ok hfind).1
  refine ⟨hm, frame, rest, hstack, ?_, ?_, ?_, i, ?_, ?_⟩
  · intro a ha hw
    obtain ⟨keyedAccount, hk, hkey, hwritable, -⟩ := checkPrivileges_eq_ok (hchecks a ha)
    exact ⟨keyedAccount, hmem _ hk, hkey, hwritable hw⟩
  · intro a ha hs
    obtain ⟨keyedAccount, hk, hkey, -, hsigner⟩ := checkPrivileges_eq_ok (hchecks a ha)
    exact (hsigner hs).imp_left fun h ↦ ⟨keyedAccount, hmem _ hk, hkey, h⟩
  · intro j hj
    rw [getElem?_map, Option.map_eq_some_iff] at hj
    obtain ⟨keyedAccount, hget, hw⟩ := hj
    obtain ⟨key, hkey, hfind⟩ := exists_getElem?_of_forall₂ hcallee hget
    exact ⟨key, hkey, keyedAccount, (findKeyedAccount_eq_ok hfind).1,
      (findKeyedAccount_eq_ok hfind).2, hw⟩
  · rw [getLast?_append, getLast?_singleton]
    rfl
  rw [accountKeys, getElem?_map, getAccount_eq_some hprogram]
  rfl

end

/-! ### Processing an instruction -/

lemma processExecutableChain_eq_ok
    (h : processExecutableChain entrypoint ctx = some (.ok u, ctx')) :
    entrypoint ctx = some (.ok u, ctx') := by
  simp only [processExecutableChain, bind_eq_ok, get_bind, okOr_eq_ok, ofOption_eq_ok,
    failIf_eq_ok] at h
  obtain ⟨_, _, ⟨-, rfl⟩, _, _, ⟨-, rfl⟩, _, _, ⟨-, rfl⟩, _, _, ⟨-, rfl⟩, h⟩ := h
  exact h

/-- A top-level instruction runs its program in a new frame and is verified. -/
theorem processInstruction_eq_ok_of_nil (hstack : ctx.invokeStack = [])
    (h : processInstruction entrypoint message instruction programIndices indices privileges ctx =
      some (.ok u, ctx')) :
    ∃ ctx₁ ctx₂ ctx₃ v, push message instruction programIndices indices ctx = some (.ok v, ctx₁) ∧
      entrypoint ctx₁ = some (.ok v, ctx₂) ∧
      verify message instruction ctx₂ = some (.ok v, ctx₃) ∧ ctx' = ctx₃.pop := by
  simp only [processInstruction, bind_eq_ok, get_bind, thenAlways_eq_ok, ofOption_eq_ok] at h
  obtain ⟨_, _, hcaller, ctx₃, ⟨_, ctx₁, hpush, _, _, ⟨-, rfl⟩, _, ctx₂, hchain, hcallee⟩, rfl⟩ := h
  simp only [verifyCaller, get_bind] at hcaller
  rw [hstack, isEmpty_nil, if_pos rfl, pure_eq_ok] at hcaller
  obtain ⟨-, rfl⟩ := hcaller
  rw [hstack, isEmpty_nil, verifyCallee, if_pos rfl] at hcallee
  exact ⟨ctx₁, ctx₂, ctx₃, (), hpush, processExecutableChain_eq_ok hchain, hcallee, rfl⟩

/-- A call is verified before and after its program runs in a new frame, first with the caller's
privileges and then with those of the message. -/
theorem processInstruction_eq_ok_of_cons {rest : List StackFrame}
    (hstack : ctx.invokeStack = frame :: rest)
    (h : processInstruction entrypoint message instruction programIndices indices privileges ctx =
      some (.ok u, ctx')) :
    ∃ ctx₀ ctx₁ ctx₂ ctx₃ writable v,
      verifyAndUpdate instruction indices privileges ctx = some (.ok v, ctx₀) ∧
      push message instruction programIndices indices ctx₀ = some (.ok v, ctx₁) ∧
      entrypoint ctx₁ = some (.ok v, ctx₂) ∧
      (List.range message.accountKeys.length).mapM message.isWritable = some writable ∧
      verifyAndUpdate instruction indices writable ctx₂ = some (.ok v, ctx₃) ∧ ctx' = ctx₃.pop := by
  simp only [processInstruction, bind_eq_ok, get_bind, thenAlways_eq_ok, ofOption_eq_ok] at h
  obtain ⟨_, ctx₀, hcaller, ctx₃, ⟨_, ctx₁, hpush, _, _, ⟨-, rfl⟩, _, ctx₂, hchain,
    hcallee⟩, rfl⟩ := h
  simp only [verifyCaller, get_bind] at hcaller
  rw [hstack, isEmpty_cons, if_neg Bool.false_ne_true] at hcaller
  rw [hstack, isEmpty_cons, verifyCallee, if_neg Bool.false_ne_true, bind_eq_ok] at hcallee
  obtain ⟨writable, _, hof, hcallee⟩ := hcallee
  obtain ⟨hwritable, rfl⟩ := ofOption_eq_ok.mp hof
  exact ⟨ctx₀, ctx₁, ctx₂, ctx₃, writable, (), hcaller, hpush, processExecutableChain_eq_ok hchain,
    hwritable, hcallee, rfl⟩

end InvokeContext

end Renec
