import Renec.Runtime.Calls

/-!
# The invocation stack

`processInstruction` pushes a frame, runs the program in it and pops a frame. But the frame is
popped also when `push` refused the call (`Refuses`): then it is the caller's frame that goes
(`invokeStack_restored_iff`).
-/

namespace Renec.InvokeContext

open Exec List

variable {ctx ctx' : InvokeContext} {message : SanitizedMessage} {instruction : CompiledInstruction}
  {programIndices indices : List ℕ} {privileges : List Bool} {entrypoint : Invoke Unit}

section

variable {γ : Type} {f : InvokeContext → γ}

/-- Nothing is read of the reference copies and the meter, which the checks change. -/
def IgnoresChecks (f : InvokeContext → γ) : Prop :=
  ∀ (ctx : InvokeContext) (preAccounts : List PreAccount) (meter : AccountsDataMeter),
    f { ctx with preAccounts := preAccounts, accountsDataMeter := meter } = f ctx

lemma keeps_visitEachAccount {β : Type} {work : β → ℕ → ℕ → Invoke β} {init : β}
    (h : ∀ b n i, Keeps f (work b n i)) : Keeps f (visitEachAccount instruction work init) :=
  keeps_foldlM (fun b (p : ℕ × ℕ) ↦ h b p.2 p.1) _ _

variable (hf : IgnoresChecks f)

include hf

lemma keeps_consumeData (delta : ℤ) : Keeps f (consumeData delta) :=
  keeps_get.bind fun _ ↦ keeps_ofOutcome.bind fun _ ↦ keeps_modify fun ctx ↦
    hf ctx ctx.preAccounts _

variable (programId : Pubkey) (sums : ℕ × ℕ)

lemma keeps_verifyAccount (i j : ℕ) : Keeps f (verifyAccount message programId sums i j) :=
  keeps_get.bind fun _ ↦ keeps_ofOption.bind fun _ ↦ keeps_ofOption.bind fun _ ↦
    keeps_ofOption.bind fun _ ↦ keeps_ofOutcome.bind fun _ ↦ keeps_okOr.bind fun _ ↦
    keeps_okOr.bind fun _ ↦ (keeps_consumeData hf _).bind fun _ ↦ keeps_pure

lemma keeps_verifyAndUpdateAccount (n i : ℕ) :
    Keeps f (verifyAndUpdateAccount programId indices privileges sums n i) := by
  refine keeps_get.bind fun _ ↦ keeps_okOr.bind fun _ ↦ keeps_okOr.bind fun _ ↦
    keeps_ofOption.bind fun _ ↦ keeps_okOr.bind fun _ ↦ keeps_ofOption.bind fun _ ↦
    keeps_ofOutcome.bind fun _ ↦ keeps_okOr.bind fun _ ↦ keeps_okOr.bind fun _ ↦ ?_
  refine Keeps.bind (keeps_modify fun ctx ↦ hf ctx _ ctx.accountsDataMeter) fun _ ↦ ?_
  exact (keeps_consumeData hf _).bind fun _ ↦ keeps_pure

/-- The checks change nothing but the copies and the meter, whether they pass or not. -/
theorem keeps_verifyAndUpdate : Keeps f (verifyAndUpdate instruction indices privileges) :=
  keeps_get.bind fun _ ↦ keeps_okOr.bind fun programId ↦
    (keeps_visitEachAccount (keeps_verifyAndUpdateAccount hf programId)).bind fun _ ↦ keeps_failIf

lemma keeps_verifyCaller : Keeps f (verifyCaller instruction indices privileges) := by
  refine keeps_get.bind fun c ↦ ?_
  split
  · exact keeps_pure
  · exact keeps_verifyAndUpdate hf

lemma keeps_verifyCallee (isLowest : Bool) :
    Keeps f (verifyCallee isLowest message instruction indices) := by
  unfold verifyCallee
  split
  · exact keeps_ofOption.bind fun programId ↦
      (keeps_visitEachAccount (keeps_verifyAccount hf programId)).bind fun _ ↦ keeps_failIf
  · exact keeps_ofOption.bind fun _ ↦ keeps_verifyAndUpdate hf

end

lemma ignoresChecks_invokeStack : IgnoresChecks invokeStack := fun _ _ _ ↦ rfl

lemma keeps_processExecutableChain (h : Keeps invokeStack entrypoint) :
    Keeps invokeStack (processExecutableChain entrypoint) :=
  keeps_get.bind fun _ ↦ keeps_okOr.bind fun _ ↦ keeps_okOr.bind fun _ ↦ keeps_ofOption.bind fun _ ↦
    keeps_failIf.bind fun _ ↦ h

lemma keepsOnError_push :
    KeepsOnError invokeStack (push message instruction programIndices indices) := by
  refine .bind keeps_get fun c ↦ .bind keeps_failIf fun _ ↦ .bind keeps_ofOption fun _ ↦
    .bind keeps_failIf fun _ ↦ .bind ?_ fun _ ↦ .bind keeps_ofOption fun _ ↦ keepsOnError_modify
  refine keeps_get.bind fun c ↦ ?_
  split
  · refine Keeps.bind (keeps_modify fun _ ↦ rfl) fun _ ↦ keeps_visitEachAccount fun _ _ i ↦ ?_
    exact keeps_get.bind fun _ ↦ keeps_okOr.bind fun _ ↦ keeps_modify fun _ ↦ rfl
  · exact keeps_failIf

/-- A call that is refused: the stack is too deep, there is no program and that is an error, or the
program runs already but did not make the call. -/
def Refuses (ctx : InvokeContext) (programIndices : List ℕ) : Prop :=
  ctx.maxInvokeDepth < ctx.invokeStack.length ∨
  programIndices = [] ∧ ctx.features.rejectEmptyInstructionWithoutProgram = true ∨
  ctx.isReentrant (programIndices.getLast?.bind fun i ↦ ctx.accountKeys[i]?) = true

lemma ignoresChecks_refuses : IgnoresChecks (Refuses · programIndices) := fun _ _ _ ↦ rfl

/-- When `push` fails below a caller. -/
theorem push_eq_error_iff (hstack : ctx.invokeStack ≠ []) {r : Except InstructionError Unit}
    (h : push message instruction programIndices indices ctx = some (r, ctx')) :
    (∃ e, r = .error e) ↔ ctx.Refuses programIndices := by
  have henter : ∀ programId, enter instruction programId ctx =
      failIf (ctx.isReentrant programId) InstructionError.reentrancyNotAllowed ctx := fun _ ↦ by
    rw [enter, get_bind, if_neg (by simpa using hstack)]
  rw [push, get_bind] at h
  by_cases hdepth : ctx.invokeStack.length > ctx.maxInvokeDepth
  · rw [decide_eq_true hdepth] at h
    cases h
    exact iff_of_true ⟨_, rfl⟩ (.inl hdepth)
  rw [decide_eq_false hdepth, bind_of_ok (by rfl)] at h
  rw [Refuses, or_iff_right hdepth]
  cases hprogram : programIndices.getLast?.mapM fun i ↦ ctx.accounts[i]? with
  | none =>
    rw [hprogram] at h
    cases h
  | some program =>
    have hid : programIndices.getLast?.bind (fun i ↦ ctx.accountKeys[i]?) = program.map Prod.fst ∧
        (programIndices = [] ↔ program.map Prod.fst = none) := by
      cases hlast : programIndices.getLast? with
      | none =>
        rw [hlast] at hprogram
        cases hprogram
        exact ⟨rfl, by simpa using getLast?_eq_none_iff.mp hlast⟩
      | some i =>
        rw [hlast] at hprogram
        obtain ⟨p, hp, rfl⟩ := Option.map_eq_some_iff.mp hprogram
        refine ⟨?_, iff_of_false (fun hnil ↦ by rw [hnil] at hlast; cases hlast)
          (Option.some_ne_none _)⟩
        rw [Option.bind_some, accountKeys, getElem?_map]
        exact congrArg _ hp
    rw [hprogram, ofOption_some_bind] at h
    rw [hid.1, hid.2]
    cases hempty : (program.map Prod.fst).isNone &&
        ctx.features.rejectEmptyInstructionWithoutProgram with
    | true =>
      rw [hempty] at h
      cases h
      exact iff_of_true ⟨_, rfl⟩ (.inl (by simpa using hempty))
    | false =>
      rw [hempty, bind_of_ok (by rfl)] at h
      rw [or_iff_right (by simpa using hempty)]
      cases hentered : ctx.isReentrant (program.map Prod.fst) with
      | true =>
        rw [bind_of_error (by rw [henter, hentered]; rfl)] at h
        cases h
        exact iff_of_true ⟨_, rfl⟩ rfl
      | false =>
        rw [bind_of_ok (by rw [henter, hentered]; rfl)] at h
        refine iff_of_false ?_ Bool.false_ne_true
        rintro ⟨e, he⟩
        cases hframe : ctx.newFrame message instruction programIndices indices with
        | none | some =>
          rw [hframe, he] at h
          cases h

/-- **The stack is restored** by an instruction, whatever its result, exactly if there is no caller,
the caller's accounts do not pass the check before the call, or the call is not refused. The
program, with the calls it makes, is any computation that restores the stack itself. -/
theorem invokeStack_restored_iff (hentry : Keeps invokeStack entrypoint)
    {r : Except InstructionError Unit}
    (h : processInstruction entrypoint message instruction programIndices indices privileges ctx =
      some (r, ctx')) :
    ctx'.invokeStack = ctx.invokeStack ↔ ctx.invokeStack = [] ∨
      (∃ e ctx₀, verifyCaller instruction indices privileges ctx = some (.error e, ctx₀)) ∨
      ¬ctx.Refuses programIndices := by
  rw [processInstruction, get_bind] at h
  rcases hcaller : verifyCaller instruction indices privileges ctx with - | ⟨e | u, ctx₀⟩
  · change Exec.bind _ _ ctx = _ at h
    simp [Exec.bind, hcaller] at h
  · -- the caller has misbehaved, and nothing is pushed or popped
    rw [bind_of_error hcaller] at h
    obtain ⟨-, rfl⟩ := Prod.mk.inj (Option.some.inj h)
    exact iff_of_true (keeps_verifyCaller ignoresChecks_invokeStack hcaller)
      (.inr (.inl ⟨e, ctx₀, rfl⟩))
  rw [bind_of_ok hcaller, thenAlways, Option.map_eq_some_iff] at h
  obtain ⟨⟨r', ctx₃⟩, hrun, heq⟩ := h
  cases heq
  have hkept : ctx₀.invokeStack = ctx.invokeStack :=
    keeps_verifyCaller ignoresChecks_invokeStack hcaller
  have hrefuses : ctx₀.Refuses programIndices = ctx.Refuses programIndices :=
    keeps_verifyCaller ignoresChecks_refuses hcaller
  rw [← hrefuses, or_iff_right (b := ¬_) (by simp)]
  rcases hpush : push message instruction programIndices indices ctx₀ with - | ⟨e | v, ctx₁⟩
  · change Exec.bind _ _ ctx₀ = _ at hrun
    simp [Exec.bind, hpush] at hrun
  · -- the frame that is popped is the caller's
    rw [bind_of_error hpush] at hrun
    obtain ⟨-, rfl⟩ := Prod.mk.inj (Option.some.inj hrun)
    have hstack : ctx₁.invokeStack = ctx.invokeStack := (keepsOnError_push hpush).trans hkept
    have hrefused : ctx.invokeStack ≠ [] → ctx₀.Refuses programIndices := fun hne ↦
      (push_eq_error_iff (hkept ▸ hne) hpush).mp ⟨e, rfl⟩
    rw [pop, hstack]
    cases hctx : ctx.invokeStack with
    | nil => simp
    | cons frame rest =>
      refine iff_of_false (fun htail ↦ ?_) (by simpa using hrefused (by simp [hctx]))
      exact cons_ne_self frame rest htail.symm
  obtain ⟨frame, preAccounts, -, -, rfl⟩ := push_eq_ok hpush
  rw [bind_of_ok hpush] at hrun
  have hrest : ctx₃.invokeStack = frame :: ctx₀.invokeStack :=
    (keeps_ofOption.bind fun _ ↦ (keeps_processExecutableChain hentry).bind fun _ ↦
      keeps_verifyCallee ignoresChecks_invokeStack _) hrun
  refine iff_of_true (by rw [pop, hrest, tail_cons, hkept]) ?_
  refine or_iff_not_imp_left.mpr fun hne href ↦ ?_
  obtain ⟨e, he⟩ := (push_eq_error_iff (hkept ▸ hne) hpush).mpr href
  cases he

/-! ### Two programs -/

def programFrame (index : ℕ) : StackFrame := ⟨1, [⟨false, false, ⟨BitVec.ofNat 256 index⟩, index⟩]⟩

/-- Three programs without other accounts, and the frames of those that run. -/
def threePrograms (running : List ℕ) : InvokeContext where
  invokeStack := running.map programFrame
  isExempt _ _ := true
  preAccounts := []
  accounts := [0, 1, 2].map fun i ↦ (⟨BitVec.ofNat 256 i⟩, ⟨0, [], nativeLoaderId, true, 0⟩)
  builtinPrograms := [⟨0⟩, ⟨1⟩]
  maxInvokeDepth := 4
  accountsDataMeter := ⟨0, 0, 0⟩
  features := ⟨true, true, true, true⟩

/-- The call of the program at an index, without accounts. -/
def callProgram (index : ℕ) : Invoke Unit :=
  processInstruction (pure ())
    (.legacy ⟨⟨0, 0, 1⟩, [⟨BitVec.ofNat 256 index⟩], default, [⟨0, [], []⟩]⟩)
    ⟨0, [], []⟩ [index] [] []

/-- A call that fails after its frame was pushed leaves the frame of its caller. -/
theorem invokeStack_restored_iff_unsupported :
    ∃ ctx', callProgram 2 (threePrograms [0]) = some (.error .unsupportedProgramId, ctx') ∧
      ctx'.invokeStack = [programFrame 0] := by
  have h : callProgram 2 (threePrograms [0]) =
      some (.error .unsupportedProgramId, threePrograms [0]) := rfl
  exact ⟨_, h, (invokeStack_restored_iff keeps_pure h).mpr
    (.inr (.inr (by unfold Refuses; decide)))⟩

/-- A program that calls another, which calls the first: the call is refused, and the frame of the
second program is gone. -/
theorem reentrant_call_drops_frame :
    (callProgram 0 (threePrograms [1, 0])).map (fun p ↦ (p.1, p.2.invokeStack)) =
      some (.error .reentrancyNotAllowed, [programFrame 0]) ∧
    (threePrograms [1, 0]).invokeStack = [programFrame 1, programFrame 0] :=
  ⟨rfl, rfl⟩

end Renec.InvokeContext
