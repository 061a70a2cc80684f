import Renec.Machine.Outcome

/-!
# Computations on a mutable state

A Rust method on `&mut self` that returns a `Result` can change the state and then fail, and the
caller sees both. `Exec σ ε α` keeps the two apart: from a state it panics, or it ends in a state
with a value or an error. The state at an error is the one the failing statement left, so nothing is
rolled back by `?`.
-/

open Option Prod

/-- A computation on a state `σ` that returns a `Result`. -/
def Exec (σ ε α : Type) : Type := σ → Option (Except ε α × σ)

namespace Exec

variable {σ ε α β : Type}

/-- The `?` operator: the next statement runs in the state the last one left. -/
protected def bind (x : Exec σ ε α) (f : α → Exec σ ε β) : Exec σ ε β := fun s ↦
  match x s with
  | none => none
  | some (.error e, s') => some (.error e, s')
  | some (.ok a, s') => f a s'

instance : Monad (Exec σ ε) where
  pure a := fun s ↦ some (.ok a, s)
  bind := Exec.bind

/-- Read the state. -/
def get : Exec σ ε σ := fun s ↦ some (.ok s, s)

/-- Change the state. -/
def modify (f : σ → σ) : Exec σ ε Unit := fun s ↦ some (.ok (), f s)

/-- `return Err(e)`. -/
def throw (e : ε) : Exec σ ε α := fun s ↦ some (.error e, s)

/-- A plain computation, which can panic. -/
def ofOption (o : Option α) : Exec σ ε α := fun s ↦ o.map fun a ↦ (.ok a, s)

/-- `opt.ok_or(e)?`. -/
def okOr (e : ε) (o : Option α) : Exec σ ε α := fun s ↦
  match o with
  | some a => some (.ok a, s)
  | none => some (.error e, s)

/-- `if c { return Err(e) }`. -/
def failIf (c : Bool) (e : ε) : Exec σ ε Unit := fun s ↦
  if c then some (.error e, s) else some (.ok (), s)

/-- A computation that only reads the state. -/
def ofOutcome (f : σ → Outcome ε α) : Exec σ ε α := fun s ↦
  match f s with
  | .ok a => some (.ok a, s)
  | .err e => some (.error e, s)
  | .panic => none

/-- Run `x`, and change the state at its end, whatever its result. -/
def thenAlways (x : Exec σ ε α) (f : σ → σ) : Exec σ ε α := fun s ↦
  (x s).map fun p ↦ (p.1, f p.2)

section

variable {s s' : σ} {a : α} {b : β} {e : ε}

@[simp] lemma pure_eq_ok {c : α} :
    (pure a : Exec σ ε α) s = some (.ok c, s') ↔ a = c ∧ s = s' := by
  show some (Except.ok a, s) = some (.ok c, s') ↔ _
  simp

variable {f : α → Exec σ ε β} {x : Exec σ ε α} {t : σ}

/-- Inversion of `?`: a sequence returns a value exactly when both parts do. -/
theorem bind_eq_ok :
    (x >>= f) s = some (.ok b, s') ↔
      ∃ a t, x s = some (.ok a, t) ∧ f a t = some (.ok b, s') := by
  show Exec.bind x f s = _ ↔ _
  unfold Exec.bind
  rcases x s with - | ⟨e | a, t⟩ <;> simp

lemma bind_of_ok (h : x s = some (.ok a, t)) : (x >>= f) s = f a t := by
  show Exec.bind x f s = _
  rw [Exec.bind, h]

lemma bind_of_error (h : x s = some (.error e, t)) : (x >>= f) s = some (.error e, t) := by
  show Exec.bind x f s = _
  rw [Exec.bind, h]

lemma ofOption_some_bind (a : α) (f : α → Exec σ ε β) : (ofOption (some a) >>= f) s = f a s := rfl

lemma get_bind (f : σ → Exec σ ε β) : (get >>= f) s = f s s := rfl

@[simp] lemma get_eq_ok : (get : Exec σ ε σ) s = some (.ok t, s') ↔ s = t ∧ s = s' := by
  simp [get]

@[simp] lemma modify_eq_ok {f : σ → σ} {u : Unit} :
    (modify f : Exec σ ε Unit) s = some (.ok u, s') ↔ f s = s' := by
  simp [modify]

@[simp] lemma throw_eq_ok : (throw e : Exec σ ε α) s = some (.ok a, s') ↔ False := by
  simp [throw]

@[simp] lemma ofOption_eq_ok {o : Option α} :
    (ofOption o : Exec σ ε α) s = some (.ok a, s') ↔ o = some a ∧ s = s' := by
  simp [ofOption]

@[simp] lemma okOr_eq_ok {o : Option α} :
    (okOr e o : Exec σ ε α) s = some (.ok a, s') ↔ o = some a ∧ s = s' := by
  cases o <;> simp [okOr]

@[simp] lemma failIf_eq_ok {c : Bool} {u : Unit} :
    (failIf c e : Exec σ ε Unit) s = some (.ok u, s') ↔ c = false ∧ s = s' := by
  cases c <;> simp [failIf]

@[simp] lemma ofOutcome_eq_ok {f : σ → Outcome ε α} :
    ofOutcome f s = some (.ok a, s') ↔ f s = .ok a ∧ s = s' := by
  unfold ofOutcome
  cases f s <;> simp

@[simp] lemma thenAlways_eq_ok {f : σ → σ} :
    x.thenAlways f s = some (.ok a, s') ↔ ∃ t, x s = some (.ok a, t) ∧ f t = s' := by
  simp [thenAlways]

end

/-- Loops: what every iteration keeps, of the locals and the state, the loop keeps. -/
theorem foldlM_induction {f : β → α → Exec σ ε β} {P : β → σ → Prop} {l : List α}
    (hstep : ∀ a ∈ l, ∀ b s b' s', P b s → f b a s = some (.ok b', s') → P b' s')
    {b b' : β} {s s' : σ} (h : l.foldlM f b s = some (.ok b', s')) (hP : P b s) : P b' s' := by
  induction l generalizing b s with
  | nil =>
    obtain ⟨rfl, rfl⟩ := pure_eq_ok.mp h
    exact hP
  | cons a l ih =>
    rw [List.foldlM_cons, bind_eq_ok] at h
    obtain ⟨b₁, s₁, ha, hl⟩ := h
    exact ih (fun a' ha' ↦ hstep a' (List.mem_cons_of_mem a ha')) hl
      (hstep a List.mem_cons_self b s b₁ s₁ hP ha)

/-! ### What a computation leaves alone -/

section

variable {γ : Type} {f : σ → γ} {x : Exec σ ε α} {g : α → Exec σ ε β}

/-- Whatever the result, the computation does not change what `f` reads of the state. -/
def Keeps (f : σ → γ) (x : Exec σ ε α) : Prop := ∀ ⦃s r s'⦄, x s = some (r, s') → f s' = f s

/-- If it fails, the computation does not change what `f` reads of the state. -/
def KeepsOnError (f : σ → γ) (x : Exec σ ε α) : Prop :=
  ∀ ⦃s e s'⦄, x s = some (.error e, s') → f s' = f s

lemma Keeps.bind_run {s s' : σ} {r : Except ε β} (hx : Keeps f x)
    (hg : ∀ a t, g a t = some (r, s') → f s' = f t) (h : (x >>= g) s = some (r, s')) :
    f s' = f s := by
  change Exec.bind x g s = _ at h
  unfold Exec.bind at h
  rcases hrun : x s with - | ⟨e | a, t⟩
  · simp [hrun] at h
  · simp only [hrun, some.injEq, mk.injEq] at h
    exact h.2 ▸ hx hrun
  rw [hrun] at h
  exact (hg a t h).trans (hx hrun)

lemma Keeps.bind (hx : Keeps f x) (hg : ∀ a, Keeps f (g a)) : Keeps f (x >>= g) :=
  fun _ _ _ ↦ hx.bind_run fun a _ h ↦ hg a h

lemma KeepsOnError.bind (hx : Keeps f x) (hg : ∀ a, KeepsOnError f (g a)) :
    KeepsOnError f (x >>= g) :=
  fun _ _ _ ↦ hx.bind_run fun a _ h ↦ hg a h

lemma keeps_of_eq (h : ∀ s r s', x s = some (r, s') → s' = s) : Keeps f x :=
  fun s r s' hrun ↦ congrArg f (h s r s' hrun)

lemma keeps_pure {a : α} : Keeps f (pure a : Exec σ ε α) :=
  keeps_of_eq fun _ _ _ h ↦ (mk.inj (some.inj h)).2.symm

lemma keeps_get : Keeps f (get : Exec σ ε σ) :=
  keeps_of_eq fun _ _ _ h ↦ (mk.inj (some.inj h)).2.symm

lemma keeps_ofOption {o : Option α} : Keeps f (ofOption o : Exec σ ε α) := by
  refine keeps_of_eq fun s r s' h ↦ ?_
  obtain ⟨a, -, heq⟩ := map_eq_some_iff.mp h
  exact (mk.inj heq).2.symm

lemma keeps_okOr {e : ε} {o : Option α} : Keeps f (okOr e o : Exec σ ε α) := by
  refine keeps_of_eq fun s r s' h ↦ ?_
  cases o <;> exact (mk.inj (some.inj h)).2.symm

lemma keeps_failIf {c : Bool} {e : ε} : Keeps f (failIf c e : Exec σ ε Unit) := by
  refine keeps_of_eq fun s r s' h ↦ ?_
  cases c <;> exact (mk.inj (some.inj h)).2.symm

lemma keeps_ofOutcome {o : σ → Outcome ε α} : Keeps f (ofOutcome o) := by
  refine keeps_of_eq fun s r s' h ↦ ?_
  unfold ofOutcome at h
  cases ho : o s <;> simp only [ho, some.injEq, mk.injEq, reduceCtorEq] at h
  · exact h.2.symm
  · exact h.2.symm

lemma keeps_modify {g : σ → σ} (h : ∀ s, f (g s) = f s) : Keeps f (modify g : Exec σ ε Unit) :=
  fun s _ _ hrun ↦ (mk.inj (some.inj hrun)).2 ▸ h s

lemma keepsOnError_modify {g : σ → σ} : KeepsOnError f (modify g : Exec σ ε Unit) :=
  nofun

lemma keeps_foldlM {g : β → α → Exec σ ε β} (h : ∀ b a, Keeps f (g b a)) (l : List α) (b : β) :
    Keeps f (l.foldlM g b) := by
  induction l generalizing b with
  | nil => exact keeps_pure
  | cons a l ih =>
    rw [List.foldlM_cons]
    exact (h b a).bind ih

end

end Exec
