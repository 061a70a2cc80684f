import Mathlib

/-!
# Outcomes of Rust computations

The two ways a Rust function can fail to return a value, kept apart.

* A **panic** — an arithmetic overflow, an index out of range, a failed assertion, an `unwrap` of
  `None` — ends the computation without a result. A function that returns a plain value is modelled
  in `Option`, with `none` for a panic.
* An **error value** is returned through `Result` and seen by the caller. A function that returns a
  `Result` is modelled in `Outcome`, whose third constructor is the panic.

Arithmetic on fixed-width integers is arithmetic on `ℕ` that panics where the machine operation
overflows, the semantics of a build with overflow checks.
-/

open List

/-- The end of a computation that returns a `Result`: a value, an error, or no return at all. -/
inductive Outcome (ε α : Type) where
  /-- `Ok(a)`. -/
  | ok (a : α)
  /-- `Err(e)`. -/
  | err (e : ε)
  /-- The computation panicked. -/
  | panic
  deriving DecidableEq

namespace Outcome

variable {ε α β : Type}

/-- The `?` operator: go on with the value, or return what there is. -/
protected def bind (x : Outcome ε α) (f : α → Outcome ε β) : Outcome ε β :=
  match x with
  | ok a => f a
  | err e => err e
  | panic => panic

instance : Monad (Outcome ε) where
  pure := ok
  bind := Outcome.bind

/-- A plain computation inside one that returns a `Result`. -/
def ofOption : Option α → Outcome ε α
  | some a => ok a
  | none => panic

instance : MonadLift Option (Outcome ε) := ⟨ofOption⟩

/-- `opt.ok_or(e)`: an absent value is the error `e`. -/
def okOr (e : ε) : Option α → Outcome ε α
  | some a => ok a
  | none => err e

/-- A computation that does not panic. -/
def ofExcept : Except ε α → Outcome ε α
  | .ok a => ok a
  | .error e => err e

/-- `if c { return Err(e) }`. -/
def failIf (c : Bool) (e : ε) : Outcome ε Unit :=
  if c then err e else ok ()

/-- `assert!(c)`. -/
def assert (c : Bool) : Outcome ε Unit :=
  if c then ok () else panic

@[simp] lemma pure_eq_ok (a : α) : (pure a : Outcome ε α) = ok a := rfl

@[simp] lemma ok_bind (a : α) (f : α → Outcome ε β) : (ok a >>= f) = f a := rfl

@[simp] lemma err_bind (e : ε) (f : α → Outcome ε β) : (err e >>= f) = err e := rfl

@[simp] lemma panic_bind (f : α → Outcome ε β) : ((panic : Outcome ε α) >>= f) = panic := rfl

@[simp] lemma bind_ok (x : Outcome ε α) : (x >>= ok) = x := by
  cases x <;> rfl

/-- Inversion of `?`: a sequence returns a value exactly when both parts do. -/
@[simp] theorem bind_eq_ok {x : Outcome ε α} {f : α → Outcome ε β} {b : β} :
    (x >>= f) = ok b ↔ ∃ a, x = ok a ∧ f a = ok b := by
  cases x <;> simp

@[simp] lemma ofOption_some (a : α) : (ofOption (some a) : Outcome ε α) = ok a := rfl

@[simp] lemma liftM_eq (o : Option α) : (liftM o : Outcome ε α) = ofOption o := rfl

@[simp] lemma monadLift_eq (o : Option α) : (monadLift o : Outcome ε α) = ofOption o := rfl

@[simp] lemma ofOption_eq_ok {o : Option α} {a : α} :
    (ofOption o : Outcome ε α) = ok a ↔ o = some a := by
  cases o <;> simp [ofOption]

@[simp] lemma okOr_eq_ok {e : ε} {o : Option α} {a : α} : okOr e o = ok a ↔ o = some a := by
  cases o <;> simp [okOr]

@[simp] lemma ofExcept_eq_ok {x : Except ε α} {a : α} :
    (ofExcept x : Outcome ε α) = ok a ↔ x = .ok a := by
  cases x <;> simp [ofExcept]

lemma ofExcept_ne_panic {x : Except ε α} : ofExcept x ≠ panic := by
  cases x <;> exact nofun

@[simp] lemma failIf_eq_ok {c : Bool} {e : ε} {u : Unit} : failIf c e = ok u ↔ c = false := by
  cases c <;> simp [failIf]

@[simp] lemma assert_eq_ok {c : Bool} {u : Unit} :
    (assert c : Outcome ε Unit) = ok u ↔ c = true := by
  cases c <;> simp [assert]

instance : LawfulMonad (Outcome ε) :=
  LawfulMonad.mk' (Outcome ε) (fun x ↦ by cases x <;> rfl) (fun _ _ ↦ rfl)
    (fun x _ _ ↦ by cases x <;> rfl)

end Outcome

/-- `if c { return Err(e) }` in a function that cannot panic. -/
theorem ite_error_eq_ok {ε α : Type} {c : Prop} [Decidable c] {e : ε} {x : Except ε α} {a : α} :
    (if c then .error e else x) = .ok a ↔ ¬c ∧ x = .ok a := by
  split_ifs with h <;> simp [h]

/-! ### Plain computations -/

lemma bind_eq_some {α β : Type} {o : Option α} {f : α → Option β} {b : β} :
    (o >>= f) = some b ↔ ∃ a, o = some a ∧ f a = some b :=
  Option.bind_eq_some_iff

lemma some_bind {α β : Type} (a : α) (f : α → Option β) : (some a >>= f) = f a := rfl

lemma pure_eq_some {α : Type} {a b : α} : (pure a : Option α) = some b ↔ a = b := Option.some_inj

/-! ### Loops that can panic -/

section

variable {α β γ : Type} {f : α → Option β} {l : List α} {l' : List β}

lemma exists_getElem?_of_forall₂ {R : α → β → Prop} (h : Forall₂ R l l') {i : ℕ} {b : β}
    (hi : l'[i]? = some b) : ∃ a, l[i]? = some a ∧ R a b := by
  induction h generalizing i with
  | nil => cases hi
  | cons hab _ ih =>
    cases i with
    | zero =>
      cases hi
      exact ⟨_, rfl, hab⟩
    | succ i => exact ih hi

lemma mapM_congr_left {g : α → Option β} (h : ∀ a ∈ l, f a = g a) : l.mapM f = l.mapM g := by
  induction l with
  | nil => rfl
  | cons a l ih =>
    obtain ⟨ha, hl⟩ := forall_mem_cons.mp h
    rw [mapM_cons, mapM_cons, ha, ih hl]

lemma mapM_eq_some_iff : l.mapM f = some l' ↔ Forall₂ (fun a b ↦ f a = some b) l l' := by
  induction l generalizing l' with
  | nil => simp [eq_comm]
  | cons a l ih =>
    simp only [mapM_cons, bind_eq_some, pure_eq_some, forall₂_cons_left_iff, ih, exists_and_left,
      @eq_comm _ l']

lemma mapM_of_forall {g : α → β} (h : ∀ a ∈ l, f a = some (g a)) : l.mapM f = some (l.map g) := by
  rw [mapM_eq_some_iff, forall₂_map_right_iff, forall₂_same]
  exact h

lemma map_eq_of_mapM_eq_some {g : α → γ} {k : β → γ} (h : l.mapM f = some l')
    (hf : ∀ a ∈ l, ∀ b, f a = some b → k b = g a) : l'.map k = l.map g := by
  rw [mapM_eq_some_iff] at h
  induction h with
  | nil => rfl
  | cons hab _ ih =>
    rw [map_cons, map_cons, hf _ mem_cons_self _ hab, ih fun a ha ↦ hf a (mem_cons_of_mem _ ha)]

lemma mem_iff_of_mapM_eq_some (h : l.mapM f = some l') {b : β} :
    b ∈ l' ↔ ∃ a ∈ l, f a = some b := by
  rw [mapM_eq_some_iff] at h
  induction h with
  | nil => simp
  | cons hab _ ih => simp [ih, hab, eq_comm]

lemma exists_of_mapM_eq_some (h : l.mapM f = some l') {a : α} (ha : a ∈ l) :
    ∃ b, f a = some b := by
  rw [mapM_eq_some_iff] at h
  induction h with
  | nil => cases ha
  | cons hab _ ih =>
    rcases mem_cons.mp ha with rfl | ha
    · exact ⟨_, hab⟩
    · exact ih ha

lemma exists_mapM_eq_some (h : ∀ a ∈ l, ∃ b, f a = some b) : ∃ l', l.mapM f = some l' := by
  induction l with
  | nil => exact ⟨[], rfl⟩
  | cons a l ih =>
    obtain ⟨b, hb⟩ := h a mem_cons_self
    obtain ⟨bs, hbs⟩ := ih fun a' ha' ↦ h a' (mem_cons_of_mem _ ha')
    exact ⟨b :: bs, by simp [hb, hbs]⟩

lemma foldlM_some_induction {g : β → α → Option β} {P : β → Prop} {b b' : β}
    (hstep : ∀ a ∈ l, ∀ b b', P b → g b a = some b' → P b') (h : l.foldlM g b = some b')
    (hP : P b) : P b' := by
  induction l generalizing b with
  | nil =>
    cases h
    exact hP
  | cons a l ih =>
    rw [foldlM_cons, bind_eq_some] at h
    obtain ⟨b₁, ha, hl⟩ := h
    exact ih (fun a' ha' ↦ hstep a' (mem_cons_of_mem a ha')) hl (hstep a mem_cons_self b b₁ hP ha)

/-- A loop whose iterations all return, and follow a loop that cannot fail, returns and follows it
to its end. -/
theorem exists_foldlM_foldl {γ : Type} {g : β → α → Option β} {f : γ → α → γ} {P : β → γ → Prop}
    {b : β} {c : γ} (hstep : ∀ a ∈ l, ∀ b c, P b c → ∃ b', g b a = some b' ∧ P b' (f c a))
    (hP : P b c) : ∃ b', l.foldlM g b = some b' ∧ P b' (l.foldl f c) := by
  induction l generalizing b c with
  | nil => exact ⟨b, rfl, hP⟩
  | cons a l ih =>
    obtain ⟨b₁, hb₁, hP₁⟩ := hstep a mem_cons_self b c hP
    obtain ⟨b', hb', hP'⟩ := ih (fun a' ha' ↦ hstep a' (mem_cons_of_mem a ha')) hP₁
    refine ⟨b', ?_, hP'⟩
    rw [foldlM_cons, hb₁]
    exact hb'

lemma exists_foldlM_eq_some {g : β → α → Option β} {P : β → Prop} {b : β}
    (hstep : ∀ a ∈ l, ∀ b, P b → ∃ b', g b a = some b' ∧ P b') (hP : P b) :
    ∃ b', l.foldlM g b = some b' ∧ P b' :=
  @exists_foldlM_foldl _ _ _ Unit _ (fun _ _ ↦ ()) (fun b _ ↦ P b) _ ()
    (fun a ha b _ ↦ hstep a ha b) hP

lemma Outcome.mapM_eq_ok_iff {ε : Type} {g : α → Outcome ε β} :
    l.mapM g = ok l' ↔ Forall₂ (fun a b ↦ g a = ok b) l l' := by
  induction l generalizing l' with
  | nil => simp [eq_comm]
  | cons a l ih =>
    simp only [mapM_cons, bind_eq_ok, pure_eq_ok, ok.injEq, forall₂_cons_left_iff, ih,
      exists_and_left, @eq_comm _ l']

lemma Outcome.forM_eq_ok {ε : Type} {g : α → Outcome ε Unit} {u : Unit} :
    l.forM g = ok u ↔ ∀ a ∈ l, g a = ok () := by
  induction l with
  | nil => simp
  | cons a l ih =>
    show (g a >>= fun _ ↦ l.forM g) = ok u ↔ _
    rw [bind_eq_ok, forall_mem_cons]
    exact ⟨fun ⟨_, ha, hl⟩ ↦ ⟨ha, ih.mp hl⟩, fun ⟨ha, hl⟩ ↦ ⟨(), ha, ih.mpr hl⟩⟩

end

/-! ### Fixed-width arithmetic -/

section

variable {w a b c : ℕ}

/-- `a + b` in `w` bits. -/
def checkedAdd (w a b : ℕ) : Option ℕ :=
  if a + b < 2 ^ w then some (a + b) else none

/-- `a - b` on an unsigned type. -/
def checkedSub (a b : ℕ) : Option ℕ :=
  if b ≤ a then some (a - b) else none

/-- `a.pow(b)` in `w` bits. -/
def checkedPow (w a b : ℕ) : Option ℕ :=
  if a ^ b < 2 ^ w then some (a ^ b) else none

/-- `a * b` in `w` bits. -/
def checkedMul (w a b : ℕ) : Option ℕ :=
  if a * b < 2 ^ w then some (a * b) else none

/-- `a.saturating_add(b)` in `w` bits. The other direction, `a.saturating_sub(b)`, is subtraction
of natural numbers. -/
def saturatingAdd (w a b : ℕ) : ℕ := min (a + b) (2 ^ w - 1)

lemma saturatingAdd_eq_add (h : saturatingAdd w a b < 2 ^ w - 1) :
    saturatingAdd w a b = a + b := by
  rw [saturatingAdd] at h ⊢
  omega

@[simp] lemma checkedAdd_eq_some : checkedAdd w a b = some c ↔ a + b < 2 ^ w ∧ a + b = c := by
  simp [checkedAdd]

@[simp] lemma checkedSub_eq_some : checkedSub a b = some c ↔ b ≤ a ∧ a - b = c := by
  simp [checkedSub]

@[simp] lemma checkedPow_eq_some : checkedPow w a b = some c ↔ a ^ b < 2 ^ w ∧ a ^ b = c := by
  simp [checkedPow]

@[simp] lemma checkedMul_eq_some : checkedMul w a b = some c ↔ a * b < 2 ^ w ∧ a * b = c := by
  simp [checkedMul]

end
