/-
**Check-then-act on one cell.**

A number of threads each look whether a cell is empty and, if it was, later fill it.  The look and
the filling are separate steps, so that others may step in between.  This module is about that
pattern and nothing else: the cell, the phase of each thread, and the schedules under which the
threads behave as if look and filling were one step.

Main definitions:

* `CheckThenAct.Phase`, `CheckThenAct.State`, `CheckThenAct.step` — the pattern as a state machine;
* `CheckThenAct.Overlaps` — a thread checks while another one is between its check and its act.

Main result: `CheckThenAct.stored_once_iff` — when all threads are done, exactly one of them has
filled the cell and the others were refused, **if and only if** no check fell into another thread's
gap.
-/

import KvStore.Machine
import Mathlib.Logic.Function.Basic
import Mathlib.Data.Set.Basic

set_option relaxedAutoImplicit false
set_option autoImplicit false

namespace CheckThenAct

open Machine

variable {ι V : Type}

/-- Where a thread is: before its check, between check and act, or done in one of two ways. -/
inductive Phase
  | start
  | pending
  | stored
  | refused
deriving DecidableEq

/-- The cell, and the phase of every thread. -/
structure State (ι V : Type) where
  cell : Option V
  phase : ι → Phase

/-- The empty cell, before any check. -/
def State.init : State ι V := ⟨none, fun _ => .start⟩

/-- Thread `i` takes a step: it checks the cell, or fills it with its value. -/
def step [DecidableEq ι] (val : ι → V) (s : State ι V) (i : ι) : State ι V :=
  match s.phase i with
  | .start =>
      { s with phase := Function.update s.phase i (if s.cell.isSome then .refused else .pending) }
  | .pending => ⟨some (val i), Function.update s.phase i .stored⟩
  | .stored => s
  | .refused => s

/-- Thread `i` is about to check while another thread is between its check and its act. -/
def Overlaps (s : State ι V) (i : ι) : Prop :=
  s.phase i = .start ∧ ∃ j, s.phase j = .pending

/-- The thread has filled the cell, or is going to. -/
def Phase.Commits : Phase → Prop
  | .pending => True
  | .stored => True
  | _ => False

/-- The states reached without overlaps: nobody is done and at most one thread is pending, or one
thread has filled the cell and no other commits. -/
def Orderly (val : ι → V) (s : State ι V) : Prop :=
  (s.cell = none ∧ (∀ i, s.phase i = .start ∨ s.phase i = .pending) ∧
    ∀ i j, s.phase i = .pending → s.phase j = .pending → i = j) ∨
  ∃ i, s.phase i = .stored ∧ s.cell = some (val i) ∧
    ∀ j, j ≠ i → s.phase j = .start ∨ s.phase j = .refused

/-- Two threads commit. -/
def Clash (s : State ι V) : Prop := ∃ i j, i ≠ j ∧ (s.phase i).Commits ∧ (s.phase j).Commits

/-- A filled cell was filled by someone. -/
def Filled (s : State ι V) : Prop := s.cell ≠ none → ∃ i, s.phase i = .stored

theorem orderly_init (val : ι → V) : Orderly val State.init :=
  .inl ⟨rfl, fun _ => .inl rfl, fun _ _ h => Phase.noConfusion h⟩

theorem filled_init : Filled (State.init : State ι V) := fun h => absurd rfl h

variable [DecidableEq ι] (val : ι → V)

/-! ### One step -/

theorem phase_step_of_ne (s : State ι V) {i j : ι} (h : j ≠ i) :
    (step val s i).phase j = s.phase j := by
  rw [step]
  cases s.phase i with
  | start => exact Function.update_of_ne h ..
  | pending => exact Function.update_of_ne h ..
  | stored => rfl
  | refused => rfl

/-- A thread that commits stays committed. -/
theorem commits_step {s : State ι V} {j : ι} (h : (s.phase j).Commits) (i : ι) :
    ((step val s i).phase j).Commits := by
  rcases eq_or_ne j i with rfl | hne
  · rw [step]
    cases hj : s.phase j with
    | start => exact absurd h (by rw [hj]; exact not_false)
    | pending => simp [Phase.Commits]
    | stored => rw [hj] at h; simpa [hj] using h
    | refused => exact absurd h (by rw [hj]; exact not_false)
  · rw [phase_step_of_ne val s hne]
    exact h

/-! ### Without overlaps -/

theorem orderly_step {s : State ι V} {i : ι} (hs : Orderly val s) (hi : ¬ Overlaps s i) :
    Orderly val (step val s i) := by
  rcases hs with ⟨hcell, hphase, huniq⟩ | ⟨i₀, hi₀, hcell, hothers⟩
  · rcases hphase i with hstart | hpend
    · -- the check: nobody is pending, so `i` becomes the only one
      have hnone : ∀ j, s.phase j ≠ .pending := fun j hj => hi ⟨hstart, j, hj⟩
      have hself : (step val s i).phase i = .pending := by
        rw [step, hstart, hcell]
        exact Function.update_self ..
      refine .inl ⟨?_, fun j => ?_, fun j j' hj hj' => ?_⟩
      · rw [step, hstart]
        exact hcell
      · rcases eq_or_ne j i with rfl | hne
        · exact .inr hself
        · rw [phase_step_of_ne val s hne]
          exact hphase j
      · have honly : ∀ l, (step val s i).phase l = .pending → l = i := by
          intro l hl
          by_contra hne
          rw [phase_step_of_ne val s hne] at hl
          exact hnone l hl
        rw [honly j hj, honly j' hj']
    · -- the act: the others have not checked yet
      refine .inr ⟨i, ?_, ?_, fun j hne => .inl ?_⟩
      · rw [step, hpend]
        exact Function.update_self ..
      · rw [step, hpend]
      · rw [phase_step_of_ne val s hne]
        exact (hphase j).resolve_right fun hj => hne (huniq j i hj hpend)
  · -- the cell is filled: only checks are left, and they are refused
    rcases eq_or_ne i i₀ with rfl | hne
    · have hstep : step val s i = s := by rw [step, hi₀]
      rw [hstep]
      exact .inr ⟨i, hi₀, hcell, hothers⟩
    · refine .inr ⟨i₀, ?_, ?_, fun j hj => ?_⟩
      · rw [phase_step_of_ne val s hne.symm]
        exact hi₀
      · rcases hothers i hne with h | h
        · rw [step, h]
          exact hcell
        · rw [step, h]
          exact hcell
      · rcases eq_or_ne j i with rfl | hji
        · rcases hothers j hj with h | h
          · right
            rw [step, h, hcell]
            exact Function.update_self ..
          · right
            rw [step, h]
            exact h
        · rw [phase_step_of_ne val s hji]
          exact hothers j hj

/-! ### With an overlap -/

theorem clash_step {s : State ι V} (h : Clash s) (i : ι) : Clash (step val s i) := by
  obtain ⟨j, j', hne, hj, hj'⟩ := h
  exact ⟨j, j', hne, commits_step val hj i, commits_step val hj' i⟩

theorem filled_step {s : State ι V} (h : Filled s) (i : ι) : Filled (step val s i) := by
  intro hcell
  cases hi : s.phase i with
  | start =>
      rw [step, hi] at hcell
      obtain ⟨j, hj⟩ := h hcell
      have hne : j ≠ i := by
        rintro rfl
        rw [hi] at hj
        cases hj
      exact ⟨j, by rw [phase_step_of_ne val s hne]; exact hj⟩
  | pending => exact ⟨i, by rw [step, hi]; exact Function.update_self ..⟩
  | stored => exact ⟨i, by rw [step, hi]; exact hi⟩
  | refused =>
      rw [step, hi] at hcell ⊢
      exact h hcell

/-- An overlap makes two threads commit: the pending one, and either the thread that checks or the
one that has filled the cell. -/
theorem clash_of_overlaps {s : State ι V} {i : ι} (hf : Filled s) (h : Overlaps s i) :
    Clash (step val s i) := by
  obtain ⟨hi, j, hj⟩ := h
  have hji : j ≠ i := by
    rintro rfl
    rw [hi] at hj
    cases hj
  have hjc : ((step val s i).phase j).Commits := by
    rw [phase_step_of_ne val s hji, hj]
    trivial
  cases hcell : s.cell with
  | none =>
      refine ⟨j, i, hji, hjc, ?_⟩
      rw [step, hi, hcell]
      simp [Phase.Commits]
  | some v =>
      obtain ⟨l, hl⟩ := hf (by rw [hcell]; exact Option.some_ne_none v)
      have hlj : l ≠ j := by
        rintro rfl
        rw [hj] at hl
        cases hl
      exact ⟨l, j, hlj, commits_step val (by rw [hl]; trivial) i, hjc⟩

/-! ### Whole runs -/

/-- A thread that takes no step stays where it is. -/
theorem phase_run_of_notMem (s : State ι V) {is : List ι} {i : ι} (h : i ∉ is) :
    (run (step val) s is).phase i = s.phase i := by
  refine run_invariant (step val) (fun t => t.phase i = s.phase i) rfl fun j hj t ht => ?_
  have hne : i ≠ j := fun hij => h (hij ▸ hj)
  rw [phase_step_of_ne val t hne]
  exact ht

/-- After every run the threads are orderly, or two of them commit; which of the two is decided by
the overlaps. -/
theorem orderly_or_clash {s : State ι V} (ho : Orderly val s) (hf : Filled s) (is : List ι) :
    (Along (step val) (fun s i => ¬ Overlaps s i) s is ∧ Orderly val (run (step val) s is)) ∨
      (¬ Along (step val) (fun s i => ¬ Overlaps s i) s is ∧ Clash (run (step val) s is)) := by
  induction is generalizing s with
  | nil => exact .inl ⟨trivial, ho⟩
  | cons i is ih =>
      by_cases hi : Overlaps s i
      · refine .inr ⟨fun h => h.1 hi, ?_⟩
        rw [run_cons]
        exact run_invariant (step val) Clash (clash_of_overlaps val hf hi)
          fun j _ t ht => clash_step val ht j
      · rcases ih (orderly_step val ho hi) (filled_step val hf i) with ⟨halong, h⟩ | ⟨halong, h⟩
        · exact .inl ⟨⟨hi, halong⟩, h⟩
        · exact .inr ⟨fun h' => halong h'.2, h⟩

/-- **Check-then-act.**  Let the threads `M`, of which there is at least one, run until they are
done.  Exactly one of them has filled the cell, with its value in it, and all others were refused,
if and only if no thread checked while another one was between its check and its act. -/
theorem stored_once_iff {M : Set ι} (hM : M.Nonempty) {is : List ι} (his : ∀ i ∈ is, i ∈ M)
    (hdone : ∀ i ∈ M, (run (step val) State.init is).phase i = .stored ∨
      (run (step val) State.init is).phase i = .refused) :
    (∃ i ∈ M, (run (step val) State.init is).phase i = .stored ∧
      (run (step val) State.init is).cell = some (val i) ∧
      ∀ j ∈ M, j ≠ i → (run (step val) State.init is).phase j = .refused) ↔
    Along (step val) (fun s i => ¬ Overlaps s i) State.init is := by
  have hout : ∀ i ∉ M, (run (step val) State.init is).phase i = .start := fun i hi =>
    phase_run_of_notMem val State.init fun hmem => hi (his i hmem)
  rcases orderly_or_clash val (orderly_init val) filled_init is with ⟨halong, h⟩ | ⟨halong, h⟩
  · refine ⟨fun _ => halong, fun _ => ?_⟩
    obtain ⟨m, hm⟩ := hM
    rcases h with ⟨-, hphase, -⟩ | ⟨i, hi, hcell, hothers⟩
    · -- somebody is done, so the cell is not empty
      rcases hphase m with hs | hs <;> rcases hdone m hm with hd | hd <;> rw [hs] at hd <;> cases hd
    · have hiM : i ∈ M := by
        by_contra hn
        rw [hout i hn] at hi
        cases hi
      refine ⟨i, hiM, hi, hcell, fun j hj hne => ?_⟩
      rcases hothers j hne with hs | hr
      · rcases hdone j hj with hd | hd <;> rw [hs] at hd <;> cases hd
      · exact hr
  · refine ⟨?_, fun h' => absurd h' halong⟩
    rintro ⟨i, -, -, -, hothers⟩
    obtain ⟨j, j', hne, hj, hj'⟩ := h
    -- of two committed threads one is not `i`, and was refused
    have hnot : ∀ l, l ≠ i → ¬ ((run (step val) State.init is).phase l).Commits := by
      intro l hl hcom
      by_cases hlM : l ∈ M
      · rw [hothers l hlM hl] at hcom
        exact hcom
      · rw [hout l hlM] at hcom
        exact hcom
    rcases eq_or_ne j i with rfl | hji
    · exact absurd hj' (hnot j' hne.symm)
    · exact absurd hj (hnot j hji)

end CheckThenAct
