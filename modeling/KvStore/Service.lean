/-
**Services: components that answer calls one after another.**

A sequential component is a function that takes a call and a state to a reply and a new state.
This module is about its runs: the replies to a list of calls and the state they leave, properties
of every call along a run, and the fact that most correctness statements are instances of — a
service that answers each call like another one answers every run like it.

Main definitions:

* `Service.serve` — a run: the replies, and the state left behind;
* `Service.Along` — every call of a run meets a condition in the state it is served in.

Main results:

* `Service.serve_simulation` — **the simulation rule**;
* `Service.serve_replies_iff` — two services whose states stay related give the same replies
  exactly when they agree on each call.
-/

import KvStore.Machine

set_option relaxedAutoImplicit false
set_option autoImplicit false

namespace Service

variable {C S T A : Type}

/-- The replies to a list of calls, and the state after the last of them. -/
def serve (step : C → S → A × S) : List C → S → List A × S
  | [], s => ([], s)
  | c :: cs, s => ((step c s).1 :: (serve step cs (step c s).2).1, (serve step cs (step c s).2).2)

/-- Every call of the run satisfies `P` in the state in which it is served. -/
def Along (step : C → S → A × S) (P : C → S → Prop) (cs : List C) (s : S) : Prop :=
  Machine.Along (fun s c => (step c s).2) (fun s c => P c s) s cs

section Runs

variable (step : C → S → A × S)

@[simp] theorem serve_nil (s : S) : serve step [] s = ([], s) := rfl

@[simp] theorem serve_cons (c : C) (cs : List C) (s : S) :
    serve step (c :: cs) s =
      ((step c s).1 :: (serve step cs (step c s).2).1, (serve step cs (step c s).2).2) := rfl

/-- The states of a run are those of a state machine. -/
theorem serve_snd (cs : List C) (s : S) :
    (serve step cs s).2 = Machine.run (fun s c => (step c s).2) s cs := by
  induction cs generalizing s with
  | nil => rfl
  | cons c cs ih => exact ih (step c s).2

theorem serve_append_fst (cs cs' : List C) (s : S) :
    (serve step (cs ++ cs') s).1 = (serve step cs s).1 ++ (serve step cs' (serve step cs s).2).1 := by
  induction cs generalizing s with
  | nil => rfl
  | cons c cs ih =>
      rw [List.cons_append, serve_cons, serve_cons, ih]
      rfl

theorem serve_append_snd (cs cs' : List C) (s : S) :
    (serve step (cs ++ cs') s).2 = (serve step cs' (serve step cs s).2).2 := by
  simp only [serve_snd, Machine.run_append]

@[simp] theorem along_nil (P : C → S → Prop) (s : S) : Along step P [] s := trivial

@[simp] theorem along_cons (P : C → S → Prop) (c : C) (cs : List C) (s : S) :
    Along step P (c :: cs) s ↔ P c s ∧ Along step P cs (step c s).2 := Iff.rfl

theorem along_append (P : C → S → Prop) (cs cs' : List C) (s : S) :
    Along step P (cs ++ cs') s ↔ Along step P cs s ∧ Along step P cs' (serve step cs s).2 := by
  rw [serve_snd]
  exact Machine.along_append _ _ s cs cs'

/-- A condition along a run, read at each of its calls. -/
theorem along_iff (P : C → S → Prop) (cs : List C) (s : S) :
    Along step P cs s ↔ ∀ cs₁ c cs₂, cs = cs₁ ++ c :: cs₂ → P c (serve step cs₁ s).2 := by
  simp only [serve_snd]
  exact Machine.along_iff _ _ s cs

end Runs

section Simulation

variable (step : C → S → A × S) (step' : C → T → A × T) (R : S → T → Prop)

/-- States that stay related under every call stay related along every run. -/
theorem serve_related (hR : ∀ c s t, R s t → R (step c s).2 (step' c t).2) (cs : List C) {s : S}
    {t : T} (h : R s t) : R (serve step cs s).2 (serve step' cs t).2 := by
  induction cs generalizing s t with
  | nil => exact h
  | cons c cs ih => exact ih (hR c s t h)

/-- Two services whose states stay related give the same replies to a run exactly when they agree
on each call of it. -/
theorem serve_replies_iff {P : C → S → Prop}
    (hR : ∀ c s t, R s t → R (step c s).2 (step' c t).2)
    (hP : ∀ c s t, R s t → ((step c s).1 = (step' c t).1 ↔ P c s)) (cs : List C) {s : S} {t : T}
    (h : R s t) : (serve step cs s).1 = (serve step' cs t).1 ↔ Along step P cs s := by
  induction cs generalizing s t with
  | nil => simp
  | cons c cs ih =>
      rw [serve_cons, serve_cons, List.cons.injEq, hP c s t h, ih (hR c s t h), along_cons]

/-- A service that answers each call like another one, in related states, answers every run like
it. -/
theorem serve_simulation
    (hstep : ∀ c s t, R s t → (step c s).1 = (step' c t).1 ∧ R (step c s).2 (step' c t).2)
    (cs : List C) {s : S} {t : T} (h : R s t) :
    (serve step cs s).1 = (serve step' cs t).1 ∧ R (serve step cs s).2 (serve step' cs t).2 := by
  induction cs generalizing s t with
  | nil => exact ⟨rfl, h⟩
  | cons c cs ih =>
      obtain ⟨hreply, hrel⟩ := hstep c s t h
      obtain ⟨hreplies, hrels⟩ := ih hrel
      exact ⟨by rw [serve_cons, serve_cons, hreply, hreplies], hrels⟩

end Simulation

end Service
