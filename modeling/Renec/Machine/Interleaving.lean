import Mathlib

/-!
# Interleaved tasks on a shared memory

A task takes a copy of the memory, computes from the cells it reads, and later writes some cells
back and adds to a total. Many tasks run at once: a schedule is the list of the moments at which
they load and commit, in any order. Then every schedule that completes all tasks leaves the memory,
the total and the results that running them one after the other does (`interleaved_eq_sequential`).
-/

namespace Renec

open List Option Function

variable {κ : Type} {ν : κ → Type} {τ ρ : Type}

/-- What a task computes from the memory: the cells it writes, what it adds, and its result. -/
structure TaskOutput (ν : κ → Type) (τ ρ : Type) where
  cells : ∀ k, ν k
  amount : τ
  result : ρ

/-- A task computes from the cells it reads. -/
structure Task (ν : κ → Type) (τ ρ : Type) where
  reads : κ → Bool
  writes : κ → Bool
  run : (∀ k, ν k) → TaskOutput ν τ ρ
  run_congr : ∀ m m', (∀ k, reads k = true → m k = m' k) → run m = run m'

namespace Task

/-- Write the cells of an output. -/
def write (t : Task ν τ ρ) (output : TaskOutput ν τ ρ) (m : ∀ k, ν k) : ∀ k, ν k :=
  fun k ↦ if t.writes k then output.cells k else m k

/-- Neither task writes what the other one reads or writes. -/
def Independent (t t' : Task ν τ ρ) : Prop :=
  ∀ k, (t.writes k = true → t'.reads k = false ∧ t'.writes k = false) ∧
    (t'.writes k = true → t.reads k = false ∧ t.writes k = false)

lemma Independent.symm {t t' : Task ν τ ρ} (h : t.Independent t') : t'.Independent t :=
  fun k ↦ (h k).symm

lemma Independent.run_write {t t' : Task ν τ ρ} (h : t.Independent t')
    (output : TaskOutput ν τ ρ) (m : ∀ k, ν k) : t'.run (t.write output m) = t'.run m := by
  refine t'.run_congr _ _ fun k hk ↦ if_neg fun hw ↦ ?_
  rw [((h k).1 hw).1] at hk
  cases hk

end Task

lemma independent_of_ne {tasks : List (Task ν τ ρ)}
    (hindep : tasks.Pairwise Task.Independent) {i j : ℕ} (hij : i ≠ j) {t t' : Task ν τ ρ}
    (ht : tasks[i]? = some t) (ht' : tasks[j]? = some t') :
    t.Independent t' := by
  obtain ⟨hi, rfl⟩ := List.getElem?_eq_some_iff.mp ht
  obtain ⟨hj, rfl⟩ := List.getElem?_eq_some_iff.mp ht'
  rcases Nat.lt_or_gt_of_ne hij with hlt | hlt
  · exact pairwise_iff_getElem.mp hindep i j hi hj hlt
  · exact (pairwise_iff_getElem.mp hindep j i hj hi hlt).symm

/-! ### One after the other -/

section

variable [AddCommMonoid τ]

/-- Run one task on the memory and the total. -/
def Task.apply (t : Task ν τ ρ) (s : (∀ k, ν k) × τ) : (∀ k, ν k) × τ :=
  (t.write (t.run s.1) s.1, s.2 + (t.run s.1).amount)

/-- Run tasks one after the other. -/
def applyAll (tasks : List (Task ν τ ρ)) (s : (∀ k, ν k) × τ) : (∀ k, ν k) × τ :=
  tasks.foldl (fun s t ↦ t.apply s) s

variable {tasks : List (Task ν τ ρ)} {s : (∀ k, ν k) × τ}

/-- The memory afterwards: a cell that some task writes holds what that task computed, the others
hold what they held. -/
theorem applyAll_memory (h : tasks.Pairwise Task.Independent) (k : κ) :
    (∀ t ∈ tasks, t.writes k = true → (applyAll tasks s).1 k = (t.run s.1).cells k) ∧
      ((∀ t ∈ tasks, t.writes k = false) → (applyAll tasks s).1 k = s.1 k) := by
  induction tasks generalizing s with
  | nil => exact ⟨forall_mem_nil _, fun _ ↦ rfl⟩
  | cons t tasks ih =>
    obtain ⟨hhead, htail⟩ := pairwise_cons.mp h
    obtain ⟨hwritten, hkept⟩ := @ih (t.apply s) htail
    rw [applyAll, foldl_cons, ← applyAll]
    refine ⟨forall_mem_cons.mpr ⟨fun hw ↦ ?_, fun t' ht' hw ↦ ?_⟩, fun hnone ↦ ?_⟩
    · -- nobody writes the cell again
      rw [hkept fun t' ht' ↦ ((hhead t' ht' k).1 hw).2]
      exact if_pos hw
    · rw [hwritten t' ht' hw]
      show (t'.run (t.write (t.run s.1) s.1)).cells k = _
      rw [(hhead t' ht').run_write]
    obtain ⟨hfirst, hrest⟩ := forall_mem_cons.mp hnone
    rw [hkept hrest]
    exact if_neg (by rw [hfirst]; exact Bool.false_ne_true)

lemma applyAll_total (h : tasks.Pairwise Task.Independent) :
    (applyAll tasks s).2 = s.2 + (tasks.map fun t ↦ (t.run s.1).amount).sum := by
  induction tasks generalizing s with
  | nil => exact (add_zero _).symm
  | cons t tasks ih =>
    obtain ⟨hhead, htail⟩ := pairwise_cons.mp h
    have hamounts : (tasks.map fun t' ↦ (t'.run (t.apply s).1).amount) =
        tasks.map fun t' ↦ (t'.run s.1).amount := by
      refine map_congr_left fun t' ht' ↦ ?_
      show (t'.run (t.write (t.run s.1) s.1)).amount = _
      rw [(hhead t' ht').run_write]
    rw [applyAll, foldl_cons, ← applyAll, ih htail, hamounts, map_cons, sum_cons,
      ← add_assoc]
    rfl

end

/-! ### At once -/

inductive TaskEvent where
  | load (i : ℕ)
  | commit (i : ℕ)
  deriving DecidableEq

/-- The memory and the total, the copies that were loaded, and the results. -/
structure Interleaved (ν : κ → Type) (τ ρ : Type) where
  memory : ∀ k, ν k
  total : τ
  copies : ℕ → Option (∀ k, ν k)
  results : ℕ → Option ρ

section

variable [AddCommMonoid τ]

namespace Interleaved

def start (memory : ∀ k, ν k) (total : τ) : Interleaved ν τ ρ :=
  ⟨memory, total, fun _ ↦ none, fun _ ↦ none⟩

variable (tasks : List (Task ν τ ρ)) (s : Interleaved ν τ ρ)

/-- One event. A task loads once and commits once, after it has loaded; anything else does
nothing. -/
def step : TaskEvent → Interleaved ν τ ρ
  | .load i =>
    match s.copies i with
    | none => { s with copies := Function.update s.copies i (some s.memory) }
    | some _ => s
  | .commit i =>
    match tasks[i]?, s.copies i, s.results i with
    | some t, some copy, none =>
      { s with
        memory := t.write (t.run copy) s.memory
        total := s.total + (t.run copy).amount
        results := Function.update s.results i (some (t.run copy).result) }
    | _, _, _ => s

/-- All tasks have committed. -/
def isComplete : Bool :=
  (List.range tasks.length).all fun i ↦ (s.results i).isSome

end Interleaved

def interleave (tasks : List (Task ν τ ρ)) (schedule : List TaskEvent) (memory : ∀ k, ν k)
    (total : τ) : Interleaved ν τ ρ :=
  schedule.foldl (Interleaved.step tasks) (.start memory total)

variable {tasks : List (Task ν τ ρ)} {schedule : List TaskEvent} {m : ∀ k, ν k} {a : τ}
  {s : Interleaved ν τ ρ}

lemma interleave_induction {P : Interleaved ν τ ρ → Prop} (hstart : P (.start m a))
    (hstep : ∀ s event, P s → P (s.step tasks event)) : P (interleave tasks schedule m a) := by
  rw [interleave]
  generalize Interleaved.start m a = s at hstart
  induction schedule generalizing s with
  | nil => exact hstart
  | cons event schedule ih => exact ih _ (hstep s event hstart)

lemma result_of_interleave {i : ℕ} {r : ρ}
    (h : (interleave tasks schedule m a).results i = some r) :
    ∃ t copy, tasks[i]? = some t ∧ r = (t.run copy).result := by
  revert i r
  refine interleave_induction (P := fun s ↦ ∀ {i r}, s.results i = some r →
    ∃ t copy, tasks[i]? = some t ∧ r = (t.run copy).result) (nofun) ?_
  intro s event ih i r h
  cases event with
  | load j =>
    rw [Interleaved.step] at h
    split at h <;> exact ih h
  | commit j =>
    rw [Interleaved.step] at h
    split at h
    next t copy htask hcopy hnone =>
      by_cases hij : i = j
      · subst hij
        simp only [update_self, some.injEq] at h
        exact ⟨t, copy, htask, h.symm⟩
      simp only [update_of_ne hij] at h
      exact ih h
    · exact ih h

/-- The invariant of a run of independent tasks from the memory `m` and the total `a`: copies are as
good as `m`, and the tasks that are done have done what they would have done on `m`. -/
structure Interleaved.Sound (tasks : List (Task ν τ ρ)) (m : ∀ k, ν k) (a : τ)
    (s : Interleaved ν τ ρ) : Prop where
  copies : ∀ i t copy, tasks[i]? = some t → s.copies i = some copy → t.run copy = t.run m
  copied : ∀ i, (s.results i).isSome = true → (s.copies i).isSome = true
  results : ∀ i t r, tasks[i]? = some t → s.results i = some r → r = (t.run m).result
  written : ∀ i t k, tasks[i]? = some t → (s.results i).isSome = true → t.writes k = true →
    s.memory k = (t.run m).cells k
  kept : ∀ k, (∀ i t, tasks[i]? = some t → (s.results i).isSome = true → t.writes k = false) →
    s.memory k = m k
  total : ∃ done : Finset ℕ, (∀ i, i ∈ done ↔ (s.results i).isSome = true) ∧
    s.total = a + ∑ i ∈ done, (tasks[i]?.elim 0 fun t ↦ (t.run m).amount)

namespace Interleaved.Sound

lemma start (tasks : List (Task ν τ ρ)) (m : ∀ k, ν k) (a : τ) :
    Sound tasks m a (.start m a) where
  copies := nofun
  copied := nofun
  results := nofun
  written := nofun
  kept := fun _ _ ↦ rfl
  total := ⟨∅, fun _ ↦ by simp [Interleaved.start], by simp [Interleaved.start]⟩

section

variable (h : Sound tasks m a s) (hindep : tasks.Pairwise Task.Independent)

include h hindep

lemma run_memory {i : ℕ} {t : Task ν τ ρ} (ht : tasks[i]? = some t) (hnone : s.results i = none) :
    t.run s.memory = t.run m := by
  refine t.run_congr _ _ fun k hk ↦ h.kept k fun j t' ht' hdone ↦ ?_
  have hij : i ≠ j := by
    rintro rfl
    rw [hnone] at hdone
    cases hdone
  by_contra hw
  rw [Bool.not_eq_false] at hw
  have hpair : t'.Independent t := independent_of_ne hindep hij.symm ht' ht
  rw [((hpair k).1 hw).1] at hk
  cases hk

lemma load (i : ℕ) : Sound tasks m a (s.step tasks (.load i)) := by
  rw [Interleaved.step]
  split
  next hcopy =>
    have hnone : s.results i = none := by
      by_contra hsome
      have hcopied := h.copied i (isSome_iff_ne_none.mpr hsome)
      rw [hcopy] at hcopied
      cases hcopied
    refine ⟨fun j t copy ht hj ↦ ?_, fun j hj ↦ ?_, h.results, h.written, h.kept, h.total⟩
    · by_cases hji : j = i
      · subst hji
        simp only [update_self, some.injEq] at hj
        rw [← hj]
        exact h.run_memory hindep ht hnone
      simp only [update_of_ne hji] at hj
      exact h.copies j t copy ht hj
    by_cases hji : j = i
    · subst hji
      simp
    simp only [update_of_ne hji]
    exact h.copied j hj
  · exact h

lemma commit (i : ℕ) : Sound tasks m a (s.step tasks (.commit i)) := by
  rw [Interleaved.step]
  split
  next t copy ht hcopy hnone =>
    have hrun : t.run copy = t.run m := h.copies i t copy ht hcopy
    have hresult : ∀ j, (Function.update s.results i (some (t.run copy).result) j).isSome = true ↔
        j = i ∨ (s.results j).isSome = true := by
      intro j
      by_cases hji : j = i
      · subst hji
        simp
      rw [update_of_ne hji]
      simp [hji]
    refine ⟨h.copies, fun j hj ↦ ?_, fun j t' r ht' hj ↦ ?_, fun j t' k ht' hj hw ↦ ?_,
      fun k hk ↦ ?_, ?_⟩
    · rcases (hresult j).mp hj with rfl | hj
      · rw [hcopy]
        rfl
      · exact h.copied j hj
    · by_cases hji : j = i
      · subst hji
        simp only [update_self, some.injEq] at hj
        rw [ht] at ht'
        cases ht'
        rw [← hj, hrun]
      simp only [update_of_ne hji] at hj
      exact h.results j t' r ht' hj
    · show t.write (t.run copy) s.memory k = _
      by_cases hji : j = i
      · subst hji
        rw [ht] at ht'
        cases ht'
        rw [Task.write, if_pos hw, hrun]
      -- the task that commits does not write this cell
      have hj' : (s.results j).isSome = true := ((hresult j).mp hj).resolve_left hji
      have hpair : t'.Independent t := independent_of_ne hindep hji ht' ht
      rw [Task.write, if_neg (by rw [((hpair k).1 hw).2]; exact Bool.false_ne_true)]
      exact h.written j t' k ht' hj' hw
    · show t.write (t.run copy) s.memory k = _
      have hw : t.writes k = false := hk i t ht ((hresult i).mpr (.inl rfl))
      rw [Task.write, if_neg (by rw [hw]; exact Bool.false_ne_true)]
      exact h.kept k fun j t' ht' hj ↦ hk j t' ht' ((hresult j).mpr (.inr hj))
    obtain ⟨done, hdone, htotal⟩ := h.total
    have hi : i ∉ done := by
      rw [hdone, hnone]
      exact Bool.false_ne_true
    refine ⟨insert i done, fun j ↦ ?_, ?_⟩
    · rw [Finset.mem_insert, hdone, hresult]
    rw [Finset.sum_insert hi, ht, elim_some]
    show s.total + (t.run copy).amount = _
    rw [htotal, hrun, add_assoc, add_comm (Finset.sum _ _)]
  · exact h

end

end Interleaved.Sound

variable (hindep : tasks.Pairwise Task.Independent)

include hindep

/-- A run keeps the invariant. -/
theorem sound_interleave (schedule : List TaskEvent) (m : ∀ k, ν k) (a : τ) :
    (interleave tasks schedule m a).Sound tasks m a := by
  refine interleave_induction (.start tasks m a) fun s event hs ↦ ?_
  cases event with
  | load i => exact hs.load hindep i
  | commit i => exact hs.commit hindep i

/-- Every schedule that completes independent tasks leaves what running them one after the other
does, and every task the result it has alone. -/
theorem interleaved_eq_sequential
    (hcomplete : (interleave tasks schedule m a).isComplete tasks = true) :
    (interleave tasks schedule m a).memory = (applyAll tasks (m, a)).1 ∧
      (interleave tasks schedule m a).total = (applyAll tasks (m, a)).2 ∧
      ∀ i t, tasks[i]? = some t →
        (interleave tasks schedule m a).results i = some (t.run m).result := by
  have hsound := sound_interleave hindep schedule m a
  have hdone : ∀ i, i < tasks.length →
      ((interleave tasks schedule m a).results i).isSome = true := by
    intro i hi
    exact all_eq_true.mp hcomplete i (mem_range.mpr hi)
  refine ⟨funext fun k ↦ ?_, ?_, ?_⟩
  · obtain ⟨hwritten, hkept⟩ := @applyAll_memory _ _ _ _ _ tasks (m, a) hindep k
    by_cases hsome : ∃ t ∈ tasks, t.writes k = true
    · obtain ⟨t, ht, hw⟩ := hsome
      obtain ⟨i, hi⟩ := mem_iff_getElem?.mp ht
      have hlt := (List.getElem?_eq_some_iff.mp hi).1
      rw [hwritten t ht hw, hsound.written i t k hi (hdone i hlt) hw]
    have hnone : ∀ t ∈ tasks, t.writes k = false := by
      intro t ht
      by_contra hw
      exact hsome ⟨t, ht, by simpa using hw⟩
    rw [hkept hnone]
    exact hsound.kept k fun i t ht _ ↦ hnone t (mem_of_getElem? ht)
  · obtain ⟨done, hmem, htotal⟩ := hsound.total
    have hsum : ∑ i ∈ done, (tasks[i]?.elim 0 fun t ↦ (t.run m).amount) =
        ∑ i ∈ Finset.range tasks.length, (tasks[i]?.elim 0 fun t ↦ (t.run m).amount) := by
      symm
      refine Finset.sum_subset (fun i hi ↦ ?_) fun i _ hi ↦ ?_
      · exact (hmem i).mpr (hdone i (Finset.mem_range.mp hi))
      rw [List.getElem?_eq_none (not_lt.mp fun hlt ↦ hi (Finset.mem_range.mpr hlt))]
      rfl
    rw [applyAll_total hindep, htotal, hsum]
    congr 1
    clear hsum htotal hmem hdone hsound hcomplete hindep
    induction tasks with
    | nil => rfl
    | cons t tasks ih =>
      rw [length_cons, Finset.sum_range_succ', map_cons, sum_cons, ← ih, add_comm]
      rfl
  intro i t ht
  have hlt := (List.getElem?_eq_some_iff.mp ht).1
  obtain ⟨r, hr⟩ := isSome_iff_exists.mp (hdone i hlt)
  rw [hr, hsound.results i t r ht hr]

end

end Renec
