import Renec.Runtime.Calls

/-!
# Privileges across invocations

A program that calls another must not hand on a privilege it does not have. `createMessage` checks
the accounts of the instruction, but the callee gets the privileges of the compiled message, which
go by position. The two differ by the `misplacedKeys`: for a key that signs without write access in
one meta and is written without a signature in another, the access goes to the first read-only
signer.
-/

namespace Renec

open List Message AccountMeta

open InvokeContext FirstOccurrences

variable {ix : Instruction} {frame : StackFrame} {m : Message} {key : Pubkey}

/-- The keys that compilation makes writable instead of others are writable for the caller, or are
ones that a message never makes writable. -/
def PromotionsCovered (frame : StackFrame) (ix : Instruction) : Prop :=
  ∀ key ∈ misplacedKeys ix.accounts, frame.Writable key ∨
    Message.Demoted [ix] ((requestedMetas [ix] none).map pubkey) key

/-- The privileges of the message are the caller's, apart from the given signers. -/
def WithinPrivileges (frame : StackFrame) (signers : List Pubkey) (m : Message) : Prop :=
  (∀ key, m.WritableKey key → frame.Writable key) ∧
    ∀ key, m.SignerKey key → frame.Signer key ∨ key ∈ signers

/-- The number of distinct keys in the metas of an instruction is a `u8`. -/
def FewKeys (ix : Instruction) : Prop := (ix.accounts.map pubkey).toFinset.card ≤ 255

instance : Decidable (FewKeys ix) := by unfold FewKeys; infer_instance

/-! ### The message of one instruction -/

lemma mem_requestedMetas_singleton {account : AccountMeta}
    (h : account ∈ requestedMetas [ix] none) :
    account ∈ ix.accounts ∨ account.isSigner = false ∧ account.isWritable = false := by
  rw [requestedMetas_singleton, mem_append, mem_singleton] at h
  exact h.imp_right fun h ↦ by rw [h]; exact ⟨rfl, rfl⟩

lemma misplacedKeys_requestedMetas (ix : Instruction) :
    misplacedKeys (requestedMetas [ix] none) = misplacedKeys ix.accounts := by
  have hkeys (w : Bool) :
      keysWith (requestedMetas [ix] none) true w = keysWith ix.accounts true w := by
    rw [requestedMetas_singleton, keysWith, metasWith, filter_append]
    simp [keysWith, metasWith]
  have hwrites : writes (requestedMetas [ix] none) = writes ix.accounts := by
    funext key
    rw [requestedMetas_singleton, writes, any_append]
    simp [writes]
  rw [misplacedKeys, readonlySigners, hkeys, hkeys, hwrites]
  rfl

lemma exists_account_of_writes (h : writes (requestedMetas [ix] none) key = true) :
    ∃ account ∈ ix.accounts, account.pubkey = key ∧ account.isWritable = true := by
  obtain ⟨account, hmem, hkey, hw⟩ := writes_eq_true.mp h
  rcases mem_requestedMetas_singleton hmem with hmem | ⟨-, hnot⟩
  · exact ⟨account, hmem, hkey, hw⟩
  rw [hw] at hnot
  cases hnot

lemma exists_account_of_signs (h : signs (requestedMetas [ix] none) key = true) :
    ∃ account ∈ ix.accounts, account.pubkey = key ∧ account.isSigner = true := by
  obtain ⟨account, hmem, hkey, hs⟩ := signs_eq_true.mp h
  rcases mem_requestedMetas_singleton hmem with hmem | ⟨hnot, -⟩
  · exact ⟨account, hmem, hkey, hs⟩
  rw [hs] at hnot
  cases hnot

lemma length_accountKeys_le (h : new [ix] none = some m) (hfew : FewKeys ix) :
    m.accountKeys.length ≤ 2 ^ 8 := by
  rw [length_accountKeys h, requestedMetas_singleton, map_append, toFinset_append]
  refine (Finset.card_union_le _ _).trans ?_
  have hone : ([(⟨ix.programId, false, false⟩ : AccountMeta)].map pubkey).toFinset.card = 1 := rfl
  rw [hone]
  exact Nat.add_le_add_right hfew 1

lemma length_signers_lt (h : new [ix] none = some m) (hfew : FewKeys ix) :
    (writableSigners (requestedMetas [ix] none) ++
      readonlySigners (requestedMetas [ix] none)).length < 2 ^ 8 := by
  have hnodup := nodup_accountKeys h
  rw [(newWithBlockhash_eq_some h rfl).1] at hnodup
  rw [← toFinset_card_of_nodup hnodup.of_append_left]
  refine Nat.lt_succ_of_le ((Finset.card_le_card fun key hkey ↦ ?_).trans hfew)
  obtain ⟨account, hmem, rfl, -⟩ :=
    exists_account_of_signs (signs_of_mem_signers (mem_toFinset.mp hkey))
  exact mem_toFinset.mpr (mem_map_of_mem hmem)

/-! ### One invocation -/

variable {ctx : InvokeContext} {rest : List StackFrame} {signers : List Pubkey}
  {privileges : List Bool} {programIndices : List ℕ}

/-- The exact condition under which a created message stays within the caller's privileges. -/
theorem withinPrivileges_iff
    (h : ctx.createMessage ix signers = .ok (m, privileges, programIndices))
    (hstack : ctx.invokeStack = frame :: rest) (hfew : FewKeys ix) :
    WithinPrivileges frame signers m ↔ PromotionsCovered frame ix := by
  obtain ⟨hm, frame', rest', hstack', hwritable, hsigner, -, -⟩ := createMessage_eq_ok h
  obtain ⟨rfl, rfl⟩ := List.cons.inj (hstack.symm.trans hstack')
  have hsigned := length_signers_lt hm hfew
  have hsegment : ∀ key, m.WritableSegment key ↔ _ := fun _ ↦ writableSegment_iff hm rfl hsigned
  have hwkey : ∀ key, m.WritableKey key ↔ _ := fun _ ↦
    writableKey_iff hm (length_accountKeys_le hm hfew)
  -- the demoted keys are the same for the requested keys, which are those of the message
  have hdemoted : ∀ key, Message.Demoted [ix] m.accountKeys key ↔
      Message.Demoted [ix] ((requestedMetas [ix] none).map pubkey) key := fun key ↦ by
    rw [Message.Demoted, Message.Demoted, mem_accountKeys_iff hm]
  have hrequested : ∀ key, writes (requestedMetas [ix] none) key = true → frame.Writable key := by
    intro key hw
    obtain ⟨account, hmem, rfl, haw⟩ := exists_account_of_writes hw
    exact hwritable account hmem haw
  constructor
  · rintro ⟨hwithin, -⟩ key hkey
    by_cases hd : Message.Demoted [ix] ((requestedMetas [ix] none).map pubkey) key
    · exact .inr hd
    refine .inl (hwithin key ((hwkey key).mpr ⟨(hsegment key).mpr (.inr (.inl ?_)), ?_⟩))
    · rw [misplacedKeys_requestedMetas]
      exact hkey
    rw [hdemoted]
    exact hd
  refine fun hcovered ↦ ⟨fun key hw ↦ ?_, fun key hs ↦ ?_⟩
  · obtain ⟨hseg, hd⟩ := (hwkey key).mp hw
    rcases (hsegment key).mp hseg with hws | hmis | hwn
    · exact hrequested key (writes_of_mem_keysWith (mem_writableSigners.mp hws))
    · rw [misplacedKeys_requestedMetas] at hmis
      exact (hcovered key hmis).resolve_right fun h ↦ hd ((hdemoted key).mpr h)
    · exact hrequested key (writes_of_mem_keysWith (mem_writableNonSigners.mp hwn).1)
  have hrequest := (signerKey_iff hm rfl hsigned).mp hs
  obtain ⟨account, hmem, rfl, has⟩ := exists_account_of_signs hrequest
  exact hsigner account hmem has

/-! ### Chains of invocations -/

/-- The program that runs in `caller` invokes an instruction with the given signers, and `callee`
is the frame of the call. Between the creation of the message and the push of the frame only the
contents of accounts change. -/
inductive Invokes (ix : Instruction) (signers : List Pubkey) (caller callee : StackFrame) : Prop
  | intro {ctx pushed ctx' : InvokeContext} {rest : List StackFrame} {m : Message}
      {privileges : List Bool} {programIndices indices : List ℕ} {compiled : CompiledInstruction}
      (stack : ctx.invokeStack = caller :: rest)
      (create : ctx.createMessage ix signers = .ok (m, privileges, programIndices))
      (locate : ctx.accountIndices m = .ok indices)
      (compile : m.instructions.head? = some compiled)
      (keys : pushed.accountKeys = ctx.accountKeys)
      (push : push (.legacy m) compiled programIndices indices pushed = some (.ok (), ctx'))
      (top : ctx'.invokeStack.head? = some callee)

/-- A chain of nested invocations that all meet the condition, with the signers given along it. -/
inductive CallChain (start : StackFrame) : List Pubkey → StackFrame → Prop
  | refl : CallChain start [] start
  | call {given signers : List Pubkey} {caller callee : StackFrame} {ix : Instruction}
      (chain : CallChain start given caller) (invokes : Invokes ix signers caller callee)
      (few : FewKeys ix) (covered : PromotionsCovered caller ix) :
      CallChain start (given ++ signers) callee

lemma Invokes.privileges_le {caller callee : StackFrame}
    (h : Invokes ix signers caller callee) (hfew : FewKeys ix)
    (hcovered : PromotionsCovered caller ix) :
    (∀ key, callee.Writable key → caller.Writable key) ∧
      ∀ key, callee.Signer key → caller.Signer key ∨ key ∈ signers := by
  obtain ⟨hstack, hcreate, hlocate, -, hkeys, hpush, htop⟩ := h
  rename_i ctx pushed ctx' rest m privileges programIndices indices compiled
  obtain ⟨hwritable, hsigner⟩ := (withinPrivileges_iff hcreate hstack hfew).mpr hcovered
  obtain ⟨frame, _, hframe, -, rfl⟩ := push_eq_ok hpush
  obtain rfl : frame = callee := Option.some.inj htop
  have hindices : ∀ i j : ℕ, accountIndex indices i = some j →
      pushed.accountKeys[j]? = m.accountKeys[i]? := fun i j hj ↦ by
    rw [hkeys]
    exact accountKeys_of_accountIndex (createMessage_eq_ok hcreate).1 hlocate hj
  refine ⟨fun key ⟨keyedAccount, hmem, hkey, hw⟩ ↦ ?_, fun key ⟨keyedAccount, hmem, hkey, hs⟩ ↦ ?_⟩
  · obtain ⟨i, j, hj, hjkey, hiw, -⟩ := privileges_newFrame hframe hmem
    rw [hindices i j hj, hkey] at hjkey
    rw [hw] at hiw
    exact hwritable key ⟨i, hjkey, hiw⟩
  obtain ⟨i, j, hj, hjkey, -, his⟩ := privileges_newFrame hframe hmem
  rw [hindices i j hj, hkey] at hjkey
  rw [hs] at his
  exact hsigner key ⟨i, hjkey, his⟩

lemma CallChain.privileges_le {start callee : StackFrame} {given : List Pubkey}
    (h : CallChain start given callee) :
    (∀ key, callee.Writable key → start.Writable key) ∧
      ∀ key, callee.Signer key → start.Signer key ∨ key ∈ given := by
  induction h with
  | refl => exact ⟨fun _ h ↦ h, fun _ h ↦ .inl h⟩
  | call chain invokes few covered ih =>
    obtain ⟨hw, hs⟩ := invokes.privileges_le few covered
    refine ⟨fun key h ↦ ih.1 key (hw key h), fun key h ↦ ?_⟩
    rcases hs key h with h | h
    · exact (ih.2 key h).imp_right fun h ↦ mem_append_left _ h
    · exact .inr (mem_append_right _ h)

/-- **Privileges across invocations.** A message stays within the privileges of its caller exactly
if the promotions of its compilation are covered; and along every chain of invocations from the
caller for which they are, a privilege of the last frame is one of the caller's, or a signature
given on the way. -/
theorem createMessage_withinPrivileges_iff_and_chain {ctx : InvokeContext} {frame : StackFrame}
    {rest : List StackFrame} {ix : Instruction} {signers : List Pubkey} {m : Message}
    {privileges : List Bool} {programIndices : List ℕ}
    (hstack : ctx.invokeStack = frame :: rest) (hfew : FewKeys ix)
    (h : ctx.createMessage ix signers = .ok (m, privileges, programIndices)) :
    (WithinPrivileges frame signers m ↔ PromotionsCovered frame ix) ∧
    ∀ (given : List Pubkey) (callee : StackFrame), CallChain frame given callee →
      (∀ key, callee.Writable key → frame.Writable key) ∧
        ∀ key, callee.Signer key → frame.Signer key ∨ key ∈ given :=
  ⟨withinPrivileges_iff h hstack hfew, fun _ _ hchain ↦ hchain.privileges_le⟩

/-! ### A misplaced key -/

variable (isWritable : Bool)

/-- A caller that was passed the account 2 as a signer, with or without write access, the account 1
as a writable signer, and the program 3. -/
def sampleFrame : StackFrame :=
  ⟨1, [⟨false, false, ⟨9⟩, 0⟩, ⟨true, isWritable, ⟨2⟩, 1⟩, ⟨true, true, ⟨1⟩, 2⟩,
    ⟨false, false, ⟨3⟩, 3⟩]⟩

def sampleContext : InvokeContext where
  invokeStack := [sampleFrame isWritable]
  isExempt _ _ := true
  preAccounts := []
  accounts := [(⟨9⟩, ⟨1, [], bpfLoaderId, true, 0⟩), (⟨2⟩, ⟨1, [], ⟨9⟩, false, 0⟩),
    (⟨1⟩, ⟨1, [], ⟨9⟩, false, 0⟩), (⟨3⟩, ⟨1, [], bpfLoaderId, true, 0⟩)]
  builtinPrograms := [bpfLoaderId]
  maxInvokeDepth := 4
  accountsDataMeter := ⟨128000000000, 0, 0⟩
  features := ⟨true, true, true, true⟩

/-- A call of the program 3 that asks for the signatures of 2 and 1 without write access, and in a
third meta for write access to 1. -/
def sampleInstruction : Instruction :=
  ⟨⟨3⟩, [⟨⟨2⟩, true, false⟩, ⟨⟨1⟩, true, false⟩, ⟨⟨1⟩, false, true⟩], []⟩

/-- Its message: the promoted key 1 comes after 2, and one signer is writable, the first. -/
def sampleMessage : Message := ⟨⟨2, 1, 1⟩, [⟨2⟩, ⟨1⟩, ⟨3⟩], default, [⟨2, [0, 1, 1], []⟩]⟩

lemma createMessage_sample :
    (sampleContext isWritable).createMessage sampleInstruction [] =
      .ok (sampleMessage, [isWritable, true, false], [3]) := by
  cases isWritable <;> decide +kernel

/-- The message makes the account 2 writable, which the caller may only read. -/
theorem createMessage_escalates_misplaced : FewKeys sampleInstruction ∧
    (sampleContext false).createMessage sampleInstruction [] =
      .ok (sampleMessage, [false, true, false], [3]) ∧
    sampleMessage.WritableKey ⟨2⟩ ∧ ¬ (sampleFrame false).Writable ⟨2⟩ ∧
    ¬ WithinPrivileges (sampleFrame false) [] sampleMessage := by
  have hw : sampleMessage.WritableKey ⟨2⟩ := ⟨0, rfl, by decide +kernel⟩
  have hnot : ¬ (sampleFrame false).Writable ⟨2⟩ := by
    rintro ⟨keyedAccount, hmem, hkey, hwritable⟩
    revert keyedAccount
    decide
  exact ⟨by decide, createMessage_sample false, hw, hnot, fun h ↦ hnot (h.1 _ hw)⟩

/-- With write access to the account 2, the same call stays within the caller's privileges, and so
does the frame it pushes. -/
theorem createMessage_withinPrivileges_sample :
    WithinPrivileges (sampleFrame true) [] sampleMessage ∧
    ∃ callee, CallChain (sampleFrame true) [] callee ∧ callee.Writable ⟨2⟩ ∧ callee.Signer ⟨1⟩ ∧
      ∀ key, callee.Writable key → (sampleFrame true).Writable key := by
  have hcovered : PromotionsCovered (sampleFrame true) sampleInstruction := by
    intro key hkey
    have hmis : misplacedKeys sampleInstruction.accounts = [⟨2⟩] := by decide
    rw [hmis, mem_singleton] at hkey
    exact .inl ⟨⟨true, true, ⟨2⟩, 1⟩, by decide, hkey.symm, rfl⟩
  have hfew : FewKeys sampleInstruction := by decide
  let callee : StackFrame := ⟨1, [⟨false, false, ⟨3⟩, 3⟩, ⟨true, true, ⟨2⟩, 1⟩,
    ⟨true, false, ⟨1⟩, 2⟩, ⟨true, false, ⟨1⟩, 2⟩]⟩
  have hlocate : (sampleContext true).accountIndices sampleMessage = .ok [1, 2, 3] := by
    decide +kernel
  have hinvokes : Invokes sampleInstruction [] (sampleFrame true) callee :=
    .intro rfl (createMessage_sample true) hlocate rfl rfl rfl rfl
  have hchain : CallChain (sampleFrame true) [] callee := .call (.refl) hinvokes hfew hcovered
  obtain ⟨hiff, hchains⟩ :=
    createMessage_withinPrivileges_iff_and_chain rfl hfew (createMessage_sample true)
  exact ⟨hiff.mpr hcovered, callee, hchain, ⟨⟨true, true, ⟨2⟩, 1⟩, by decide, rfl, rfl⟩,
    ⟨⟨true, false, ⟨1⟩, 2⟩, by decide, rfl, rfl⟩, (hchains _ _ hchain).1⟩

end Renec
