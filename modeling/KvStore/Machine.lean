/-
**Runs of a state machine.**

A state machine is a function that takes a state and an event to the next state.  This module
collects what the rest of the development needs to know about its runs: properties of every event
of a run in the state in which it happens, the invariant rule, and the rule for a simulation in
which some events of the simulated machine have no counterpart.

Main definitions:

* `Machine.run` — the state after a list of events;
* `Machine.Along` — every event of a run satisfies a condition in the state in which it happens.

Main results:

* `Machine.along_iff` — a condition along a run, read at each of its events;
* `Machine.run_invariant`, `Machine.along_invariant` — **the invariant rules**;
* `Machine.run_count` — the rule for what is used up;
* `Machine.forall_state_iff_along` — when a condition on the events is the exact one for a property of
  the states;
* `Machine.along_iff_of_invariant` — when two conditions are met along the same runs;
* `Machine.run_simulation`, `Machine.along_simulation_iff` — **the simulation rules**: what the
  runs of two machines have in common when one of them is watched through the other;
* `Machine.exists_marks` — the simulation rule when it shows only as the machine runs which of the
  events have a counterpart.
-/

import Mathlib.Data.List.Basic

set_option relaxedAutoImplicit false
set_option autoImplicit false

namespace Machine

variable {S T E E' : Type}

/-- The state after a list of events. -/
def run (step : S → E → S) (s : S) (es : List E) : S := es.foldl step s

/-- Every event of the run satisfies `P` in the state in which it happens. -/
def Along (step : S → E → S) (P : S → E → Prop) : S → List E → Prop
  | _, [] => True
  | s, e :: es => P s e ∧ Along step P (step s e) es

instance Along.decidable (step : S → E → S) (P : S → E → Prop) [∀ s e, Decidable (P s e)] :
    (s : S) → (es : List E) → Decidable (Along step P s es)
  | _, [] => inferInstanceAs (Decidable True)
  | s, e :: es =>
      have := Along.decidable step P (step s e) es
      inferInstanceAs (Decidable (P s e ∧ Along step P (step s e) es))

section Runs

variable (step : S → E → S)

@[simp] theorem run_nil (s : S) : run step s [] = s := rfl

@[simp] theorem run_cons (s : S) (e : E) (es : List E) :
    run step s (e :: es) = run step (step s e) es := rfl

theorem run_append (s : S) (es es' : List E) :
    run step s (es ++ es') = run step (run step s es) es' := List.foldl_append ..

theorem run_concat (s : S) (es : List E) (e : E) :
    run step s (es ++ [e]) = step (run step s es) e := by
  rw [run_append, run_cons, run_nil]

@[simp] theorem along_nil (P : S → E → Prop) (s : S) : Along step P s [] := trivial

@[simp] theorem along_cons (P : S → E → Prop) (s : S) (e : E) (es : List E) :
    Along step P s (e :: es) ↔ P s e ∧ Along step P (step s e) es := Iff.rfl

theorem along_append (P : S → E → Prop) (s : S) (es es' : List E) :
    Along step P s (es ++ es') ↔ Along step P s es ∧ Along step P (run step s es) es' := by
  induction es generalizing s with
  | nil => simp
  | cons e es ih => rw [List.cons_append, along_cons, along_cons, ih, and_assoc, run_cons]

/-- A condition along a run, read at each of its events. -/
theorem along_iff (P : S → E → Prop) (s : S) (es : List E) :
    Along step P s es ↔ ∀ es₁ e es₂, es = es₁ ++ e :: es₂ → P (run step s es₁) e := by
  refine ⟨?_, fun h => ?_⟩
  · rintro h es₁ e es₂ rfl
    exact ((along_append step P s es₁ (e :: es₂)).1 h).2.1
  · induction es generalizing s with
    | nil => trivial
    | cons e es ih =>
        refine ⟨h [] e es rfl, ih _ fun es₁ e' es₂ hes => ?_⟩
        exact h (e :: es₁) e' es₂ (by rw [hes, List.cons_append])

theorem Along.mono {P Q : S → E → Prop} {s : S} {es : List E} (h : Along step P s es)
    (hPQ : ∀ t, ∀ e ∈ es, P t e → Q t e) : Along step Q s es := by
  induction es generalizing s with
  | nil => trivial
  | cons e es ih =>
      refine ⟨hPQ s e List.mem_cons_self h.1, ih h.2 fun t e' he' => ?_⟩
      exact hPQ t e' (List.mem_cons_of_mem _ he')

/-- An invariant kept by every event of the run holds at its end. -/
theorem run_invariant (I : S → Prop) {s : S} {es : List E} (hs : I s)
    (hstep : ∀ e ∈ es, ∀ t, I t → I (step t e)) : I (run step s es) := by
  induction es generalizing s with
  | nil => exact hs
  | cons e es ih =>
      have he : I (step s e) := hstep e (List.mem_cons_self ..) s hs
      exact ih he fun e' he' => hstep e' (List.mem_cons_of_mem _ he')

/-- An invariant kept by every event that meets the condition holds at the end of a run along which
the condition is met. -/
theorem along_invariant {P : S → E → Prop} (I : S → Prop) {s : S} {es : List E}
    (hP : Along step P s es) (hs : I s) (hstep : ∀ e ∈ es, ∀ t, I t → P t e → I (step t e)) :
    I (run step s es) := by
  induction es generalizing s with
  | nil => exact hs
  | cons e es ih =>
      have he : I (step s e) := hstep e (List.mem_cons_self ..) s hs hP.1
      exact ih hP.2 he fun e' he' => hstep e' (List.mem_cons_of_mem _ he')

/-- If each event `e` leaves one less, and no other event leaves more, then a run leaves less by the
number of its events `e`. -/
theorem run_count [DecidableEq E] (P : S → ℕ → Prop) {e : E}
    (hself : ∀ s n, P s n → P (step s e) (n - 1))
    (hother : ∀ e', e' ≠ e → ∀ s n, P s n → P (step s e') n) (es : List E) {s : S} {n : ℕ} (hs : P s n) :
    P (run step s es) (n - es.count e) := by
  induction es generalizing s n with
  | nil => exact hs
  | cons e' es ih =>
      by_cases he : e' = e
      · subst he
        rw [List.count_cons_self, Nat.add_comm, Nat.sub_add_eq]
        exact ih (hself s n hs)
      · rw [List.count_cons_of_ne he]
        exact ih (hother e' he s n hs)

/-- Let the invariant give `Q`, and let every event that meets the condition keep it.  If an event that
leads to a state with `Q` must have met the condition, then `Q` holds in every state of a run exactly
when the condition is met along it. -/
theorem forall_state_iff_along {P : S → E → Prop} {Q : S → Prop} (I : S → Prop) {s : S} (hs : I s)
    (hstep : ∀ t e, I t → P t e → I (step t e)) (hQ : ∀ t, I t → Q t)
    (hP : ∀ t e, I t → Q (step t e) → P t e) (es : List E) :
    (∀ es₁ es₂, es = es₁ ++ es₂ → Q (run step s es₁)) ↔ Along step P s es := by
  induction es generalizing s with
  | nil =>
      refine ⟨fun _ => trivial, ?_⟩
      intro _ es₁ es₂ hes
      rw [(List.append_eq_nil_iff.1 hes.symm).1]
      exact hQ s hs
  | cons e es ih =>
      constructor
      · intro h
        have he : P s e := hP s e hs (h [e] es rfl)
        refine ⟨he, (ih (hstep s e hs he)).1 fun es₁ es₂ hes => ?_⟩
        exact h (e :: es₁) es₂ (by rw [hes, List.cons_append])
      · rintro ⟨he, hes⟩ es₁ es₂ hsplit
        cases es₁ with
        | nil => exact hQ s hs
        | cons e' es₁ =>
            rw [List.cons_append, List.cons.injEq] at hsplit
            obtain ⟨rfl, hsplit⟩ := hsplit
            exact (ih (hstep s e hs he)).2 hes es₁ es₂ hsplit

/-- Two conditions that agree where the invariant holds are met along the same runs, if every event that
meets them keeps the invariant. -/
theorem along_iff_of_invariant {P Q : S → E → Prop} (I : S → Prop) {s : S} (hs : I s)
    (hPQ : ∀ t e, I t → (P t e ↔ Q t e)) (hstep : ∀ t e, I t → Q t e → I (step t e)) (es : List E) :
    Along step P s es ↔ Along step Q s es := by
  induction es generalizing s with
  | nil => exact Iff.rfl
  | cons e es ih =>
      rw [along_cons, along_cons, hPQ s e hs]
      exact and_congr_right fun he => ih (hstep s e hs he)

end Runs

section Simulation

variable {step : S → E → S} {step' : T → E' → T} {R : S → T → Prop} {f : E → Option E'}

/-- If the events that `f` drops keep related states related, and the others are matched, then the
ends of a run and of its projection are related. -/
theorem run_simulation {es : List E}
    (hdrop : ∀ e ∈ es, f e = none → ∀ s t, R s t → R (step s e) t)
    (hkeep : ∀ e ∈ es, ∀ e', f e = some e' → ∀ s t, R s t → R (step s e) (step' t e'))
    {s : S} {t : T} (h : R s t) : R (run step s es) (run step' t (es.filterMap f)) := by
  induction es generalizing s t with
  | nil => exact h
  | cons e es ih =>
      have hrec : ∀ {s t}, R s t → R (run step s es) (run step' t (es.filterMap f)) := fun hst =>
        ih (fun e' he' => hdrop e' (List.mem_cons_of_mem _ he'))
          (fun e' he' => hkeep e' (List.mem_cons_of_mem _ he')) hst
      cases he : f e with
      | none =>
          rw [List.filterMap_cons_none he]
          exact hrec (hdrop e (List.mem_cons_self ..) he s t h)
      | some e' =>
          rw [List.filterMap_cons_some he]
          exact hrec (hkeep e (List.mem_cons_self ..) e' he s t h)

/-- A condition that the dropped events always meet, and the others meet when their projections do,
is met along a run exactly when it is met along the projection. -/
theorem along_simulation_iff {P : S → E → Prop} {P' : T → E' → Prop} {es : List E}
    (hdrop : ∀ e ∈ es, f e = none → ∀ s t, R s t → R (step s e) t ∧ P s e)
    (hkeep : ∀ e ∈ es, ∀ e', f e = some e' → ∀ s t, R s t →
      R (step s e) (step' t e') ∧ (P s e ↔ P' t e'))
    {s : S} {t : T} (h : R s t) : Along step P s es ↔ Along step' P' t (es.filterMap f) := by
  induction es generalizing s t with
  | nil => simp
  | cons e es ih =>
      have hrec : ∀ {s t}, R s t → (Along step P s es ↔ Along step' P' t (es.filterMap f)) :=
        fun hst => ih (fun e' he' => hdrop e' (List.mem_cons_of_mem _ he'))
          (fun e' he' => hkeep e' (List.mem_cons_of_mem _ he')) hst
      cases he : f e with
      | none =>
          obtain ⟨hR, hP⟩ := hdrop e (List.mem_cons_self ..) he s t h
          rw [List.filterMap_cons_none he, along_cons, hrec hR]
          exact and_iff_right hP
      | some e' =>
          obtain ⟨hR, hP⟩ := hkeep e (List.mem_cons_self ..) e' he s t h
          rw [List.filterMap_cons_some he, along_cons, along_cons, hP, hrec hR]

/-- The events that are marked. -/
def marked (es : List E) (marks : List Bool) : List E :=
  (es.zip marks).filterMap fun (e, mark) => if mark then some e else none

/-- **Stuttering.**  If each event keeps related states related, alone or together with the same event of
the other machine, then some of the events of a run can be marked so that the run stays related to that of
the marked events, after each of its events. -/
theorem exists_marks {step' : T → E → T}
    (hstep : ∀ s t e, R s t → R (step s e) t ∨ R (step s e) (step' t e)) (es : List E) {s : S} {t : T}
    (h : R s t) :
    ∃ marks : List Bool, marks.length = es.length ∧
      ∀ n, R (run step s (es.take n)) (run step' t (marked (es.take n) (marks.take n))) := by
  induction es generalizing s t with
  | nil =>
      refine ⟨[], rfl, fun n => ?_⟩
      rw [List.take_nil]
      exact h
  | cons e es ih =>
      obtain hkeep | hmatch := hstep s t e h
      · obtain ⟨marks, hlen, hall⟩ := ih hkeep
        refine ⟨false :: marks, congrArg (· + 1) hlen, fun n => ?_⟩
        cases n with
        | zero => exact h
        | succ n => exact hall n
      · obtain ⟨marks, hlen, hall⟩ := ih hmatch
        refine ⟨true :: marks, congrArg (· + 1) hlen, fun n => ?_⟩
        cases n with
        | zero => exact h
        | succ n => exact hall n

end Simulation

end Machine
