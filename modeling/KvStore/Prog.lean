/-
**Programs over atomic operations, and their interleavings.**

A concurrent component is often described by a handful of operations that are atomic (each runs
under a lock) and by the requests that are sequences of such operations, with local computation in
between.  This module is the part of such a description that does not depend on the component: a
request is a *program* — a tree whose nodes are operations and whose branches are their possible
results — and an operation is executed by a function on a shared state.  The execution function
carries a fault argument, so that one operation can be run with or without a failing allocation.

The same program has three readings:

* alone, from a state, to its result (`Interleave.Prog.run`);
* as one thread of a pool, any thread of which may take the next step (`Interleave.Pool.run`);
* amid an environment that performs arbitrary operations between its steps
  (`Interleave.Prog.amidRun`).

Main definitions:

* `Interleave.Prog` — programs, with their monad structure;
* `Interleave.Prog.next?` — the operation a program is about to perform;
* `Interleave.Prog.Uses` — every operation a program may ever perform satisfies a predicate;
* `Interleave.Prog.Returns` — every result a program may ever return satisfies a predicate;
* `Interleave.Prog.Within` — the program returns after at most so many operations;
* `Interleave.Prog.Left` — how many steps are left at most to one who runs a program for each input;
* `Interleave.Prog.trace`, `Interleave.Prog.Along` — the operations of a run, and a condition that each
  of them meets;
* `Interleave.Prog.Ensures` — pre- and postconditions, with what the program may do meanwhile;
* `Interleave.Prog.Outlined` — a program with an assertion at each place;
* `Interleave.Prog.lower`, `Interleave.Prog.expand` — a program over operations that are programs
  themselves, and may fail to return or may not;
* `Interleave.Prog.ownSteps` — how many steps of an execution are the program's own;
* `Interleave.Pool`, `Interleave.Pool.step` — threads over a shared state, and one step of one of
  them.

Main results:

* `Interleave.Prog.run_bind`, `Interleave.Prog.trace_bind` — running a composite program is running its
  parts in turn;
* `Interleave.Pool.uses_run`, `Interleave.Pool.within_run` — what the threads may do, and for how
  long, is fixed by how they start;
* `Interleave.Pool.exists_solo` — **projection**: if a thread's operations only see a part of the
  state that the other threads leave alone, then it behaves as if it ran alone.
-/

import KvStore.Machine
import Mathlib.Logic.Function.Basic

set_option relaxedAutoImplicit false
set_option autoImplicit false

namespace Interleave

/-- A program over the operations `Op`: it has either returned, or it performs one operation and
goes on with what that operation answered. -/
inductive Prog (Op : Type) (Res : Op → Type) (α : Type) : Type
  | ret (a : α) : Prog Op Res α
  | call (op : Op) (k : Res op → Prog Op Res α) : Prog Op Res α

namespace Prog

variable {Op : Type} {Res : Op → Type} {α β γ : Type}

/-! ### Composition -/

/-- Run the first program, then the one chosen by its result. -/
def bind : Prog Op Res α → (α → Prog Op Res β) → Prog Op Res β
  | ret a, g => g a
  | call op k, g => call op fun r => (k r).bind g

instance : Monad (Prog Op Res) where
  pure := ret
  bind := bind

@[simp] theorem pure_eq (a : α) : (pure a : Prog Op Res α) = ret a := rfl

@[simp] theorem ret_bind (a : α) (g : α → Prog Op Res β) : (ret a >>= g) = g a := rfl

@[simp] theorem call_bind (op : Op) (k : Res op → Prog Op Res α) (g : α → Prog Op Res β) :
    (call op k >>= g) = call op fun r => k r >>= g := rfl

theorem bind_assoc (p : Prog Op Res α) (f : α → Prog Op Res β) (g : β → Prog Op Res γ) :
    (p >>= f >>= g) = (p >>= fun a => f a >>= g) := by
  induction p with
  | ret a => rfl
  | call op k ih => exact congrArg (call op) (funext ih)

theorem bind_ret (p : Prog Op Res α) : (p >>= ret) = p := by
  induction p with
  | ret a => rfl
  | call op k ih => exact congrArg (call op) (funext ih)

/-! ### What a program may do -/

/-- The operation a program is about to perform, if it has not returned. -/
def next? : Prog Op Res α → Option Op
  | ret _ => none
  | call op _ => some op

@[simp] theorem next?_ret (a : α) : (ret a : Prog Op Res α).next? = none := rfl

@[simp] theorem next?_call (op : Op) (k : Res op → Prog Op Res α) :
    (call op k).next? = some op := rfl

/-- The result of a program that has returned. -/
def result? : Prog Op Res α → Option α
  | ret a => some a
  | call _ _ => none

theorem eq_ret_of_result? {p : Prog Op Res α} {a : α} (h : p.result? = some a) : p = ret a := by
  cases p with
  | ret b => rw [Option.some.inj h]
  | call op k => cases h

/-- Every operation the program may ever perform satisfies `P`. -/
def Uses (P : Op → Prop) : Prog Op Res α → Prop
  | ret _ => True
  | call op k => P op ∧ ∀ r, (k r).Uses P

@[simp] theorem uses_ret (P : Op → Prop) (a : α) : (ret a : Prog Op Res α).Uses P := trivial

@[simp] theorem uses_call (P : Op → Prop) (op : Op) (k : Res op → Prog Op Res α) :
    (call op k).Uses P ↔ P op ∧ ∀ r, (k r).Uses P := Iff.rfl

theorem Uses.mono {P Q : Op → Prop} {p : Prog Op Res α} (hp : p.Uses P) (h : ∀ op, P op → Q op) :
    p.Uses Q := by
  induction p with
  | ret a => trivial
  | call op k ih => exact ⟨h op hp.1, fun r => ih r (hp.2 r)⟩

theorem Uses.bind {P : Op → Prop} {p : Prog Op Res α} {g : α → Prog Op Res β} (hp : p.Uses P)
    (hg : ∀ a, (g a).Uses P) : (p >>= g).Uses P := by
  induction p with
  | ret a => exact hg a
  | call op k ih => exact ⟨hp.1, fun r => ih r (hp.2 r)⟩

/-- The operation about to be performed is one of those the program may perform. -/
theorem Uses.of_next? {P : Op → Prop} {p : Prog Op Res α} {op : Op} (hp : p.Uses P)
    (h : p.next? = some op) : P op := by
  cases p with
  | ret a => simp at h
  | call op' k =>
      rw [next?_call, Option.some.injEq] at h
      exact h ▸ hp.1

/-- Every result the program may ever return satisfies `Q`. -/
def Returns (Q : α → Prop) : Prog Op Res α → Prop
  | ret a => Q a
  | call _ k => ∀ r, (k r).Returns Q

@[simp] theorem returns_ret (Q : α → Prop) (a : α) : (ret a : Prog Op Res α).Returns Q ↔ Q a := Iff.rfl

theorem Returns.bind {Q : β → Prop} {p : Prog Op Res α} {g : α → Prog Op Res β}
    (hg : ∀ a, (g a).Returns Q) : (p >>= g).Returns Q := by
  induction p with
  | ret a => exact hg a
  | call op k ih => exact fun r => ih r

/-- The program returns after at most `n` operations, whatever they answer. -/
def Within : Prog Op Res α → ℕ → Prop
  | ret _, _ => True
  | call _ _, 0 => False
  | call _ k, n + 1 => ∀ r, (k r).Within n

@[simp] theorem within_ret (a : α) (n : ℕ) : (ret a : Prog Op Res α).Within n := trivial

@[simp] theorem within_call_succ (op : Op) (k : Res op → Prog Op Res α) (n : ℕ) :
    (call op k).Within (n + 1) ↔ ∀ r, (k r).Within n := Iff.rfl

theorem Within.mono {p : Prog Op Res α} {m n : ℕ} (h : p.Within m) (hmn : m ≤ n) : p.Within n := by
  induction p generalizing m n with
  | ret a => trivial
  | call op k ih =>
      cases m with
      | zero => exact h.elim
      | succ m =>
          obtain ⟨n, rfl⟩ : ∃ n', n = n' + 1 := ⟨n - 1, by omega⟩
          exact fun r => ih r (h r) (by omega)

theorem Within.bind {p : Prog Op Res α} {g : α → Prog Op Res β} {m n : ℕ} (hp : p.Within m)
    (hg : ∀ a, (g a).Within n) : (p >>= g).Within (m + n) := by
  induction p generalizing m with
  | ret a => exact (hg a).mono (by omega)
  | call op k ih =>
      cases m with
      | zero => exact hp.elim
      | succ m =>
          rw [Nat.succ_add]
          exact fun r => ih r (hp r)

/-- A program with no operations left has returned. -/
theorem Within.eq_ret {p : Prog Op Res α} (h : p.Within 0) : ∃ a, p = ret a := by
  cases p with
  | ret a => exact ⟨a, rfl⟩
  | call op k => exact h.elim

/-- One who runs a program for each input, of at most `c` steps together with the two that take the input
and give back the result, has at most `n` steps left: he is at the program `p?`, and so many inputs wait. -/
def Left (c : ℕ) (p? : Option (Prog Op Res α)) (waiting n : ℕ) : Prop :=
  match p? with
  | none => c * waiting ≤ n
  | some p => ∃ m, p.Within m ∧ m + 1 + c * waiting ≤ n

section Left

variable {c w n : ℕ}

theorem left_idle (c n : ℕ) : Left c (none : Option (Prog Op Res α)) 0 n := Nat.zero_le n

theorem Left.take {p : Prog Op Res α} (h : Left (c + 2) (none : Option (Prog Op Res α)) (w + 1) n)
    (hp : p.Within c) : Left (c + 2) (some p) w (n - 1) := by
  have hle : (c + 2) * w + (c + 2) ≤ n := h
  exact ⟨c, hp, by omega⟩

theorem Left.giveBack {a : α} (h : Left c (some (ret a : Prog Op Res α)) w n) :
    Left c (none : Option (Prog Op Res α)) w (n - 1) := by
  obtain ⟨m, -, hle⟩ := h
  have hwaiting : c * w ≤ n - 1 := by omega
  exact hwaiting

theorem Left.call {op : Op} {k : Res op → Prog Op Res α} (h : Left c (some (call op k)) w n)
    (r : Res op) : Left c (some (k r)) w (n - 1) := by
  obtain ⟨m, hm, hle⟩ := h
  cases m with
  | zero => exact hm.elim
  | succ m => exact ⟨m, hm r, by omega⟩

/-- Without steps left all inputs have been taken, and all results given back. -/
theorem Left.done {p? : Option (Prog Op Res α)} (h : Left (c + 1) p? w 0) : p? = none ∧ w = 0 := by
  cases p? with
  | none =>
      have hzero : (c + 1) * w = 0 := Nat.le_zero.1 h
      exact ⟨rfl, (Nat.mul_eq_zero.1 hzero).resolve_left (Nat.succ_ne_zero c)⟩
  | some p =>
      obtain ⟨m, -, hle⟩ := h
      omega

end Left

/-! ### Running a program -/

section Exec

variable {S : Type} (exec : (op : Op) → S → Res op × S)

/-- The program run alone from `s`: its result, and the state it leaves. -/
def run : Prog Op Res α → S → α × S
  | ret a, s => (a, s)
  | call op k, s => (k (exec op s).1).run (exec op s).2

@[simp] theorem run_ret (a : α) (s : S) : (ret a : Prog Op Res α).run exec s = (a, s) := rfl

@[simp] theorem run_call (op : Op) (k : Res op → Prog Op Res α) (s : S) :
    (call op k).run exec s = (k (exec op s).1).run exec (exec op s).2 := rfl

/-- Running a composite program is running its parts in turn. -/
theorem run_bind (p : Prog Op Res α) (g : α → Prog Op Res β) (s : S) :
    (p >>= g).run exec s = (g (p.run exec s).1).run exec (p.run exec s).2 := by
  induction p generalizing s with
  | ret a => rfl
  | call op k ih => exact ih (exec op s).1 (exec op s).2

/-- The operations that the program performs when it is run alone from `s`, in their order. -/
def trace : Prog Op Res α → S → List Op
  | ret _, _ => []
  | call op k, s => op :: (k (exec op s).1).trace (exec op s).2

@[simp] theorem trace_ret (a : α) (s : S) : (ret a : Prog Op Res α).trace exec s = [] := rfl

@[simp] theorem trace_call (op : Op) (k : Res op → Prog Op Res α) (s : S) :
    (call op k).trace exec s = op :: (k (exec op s).1).trace exec (exec op s).2 := rfl

/-- The operations of a composite program are those of its parts in turn. -/
theorem trace_bind (p : Prog Op Res α) (g : α → Prog Op Res β) (s : S) :
    (p >>= g).trace exec s =
      p.trace exec s ++ (g (p.run exec s).1).trace exec (p.run exec s).2 := by
  induction p generalizing s with
  | ret a => rfl
  | call op k ih => exact congrArg (op :: ·) (ih (exec op s).1 (exec op s).2)

theorem Uses.of_mem_trace {P : Op → Prop} {p : Prog Op Res α} (hp : p.Uses P) {s : S} {op : Op}
    (h : op ∈ p.trace exec s) : P op := by
  induction p generalizing s with
  | ret a => cases h
  | call op' k ih =>
      rcases List.mem_cons.1 h with rfl | h
      · exact hp.1
      · exact ih _ (hp.2 _) h

/-- The state that a run leaves is the one that its operations lead to. -/
theorem run_snd (p : Prog Op Res α) (s : S) :
    (p.run exec s).2 = Machine.run (fun s op => (exec op s).2) s (p.trace exec s) := by
  induction p generalizing s with
  | ret a => rfl
  | call op k ih => exact ih (exec op s).1 (exec op s).2

/-- Every operation of the program, run alone from `s`, satisfies `P` in the state in which it is
performed. -/
def Along (P : S → Op → Prop) (p : Prog Op Res α) (s : S) : Prop :=
  Machine.Along (fun s op => (exec op s).2) P s (p.trace exec s)

@[simp] theorem along_ret (P : S → Op → Prop) (a : α) (s : S) :
    (ret a : Prog Op Res α).Along exec P s := trivial

@[simp] theorem along_call (P : S → Op → Prop) (op : Op) (k : Res op → Prog Op Res α) (s : S) :
    (call op k).Along exec P s ↔ P s op ∧ (k (exec op s).1).Along exec P (exec op s).2 := Iff.rfl

/-- What is true of every operation that a program may perform is true along its run. -/
theorem Uses.along {P : Op → Prop} {Q : S → Op → Prop} {p : Prog Op Res α} (hp : p.Uses P)
    (hPQ : ∀ s op, P op → Q s op) (s : S) : p.Along exec Q s := by
  induction p generalizing s with
  | ret a => trivial
  | call op k ih => exact ⟨hPQ s op hp.1, ih _ (hp.2 _) _⟩

theorem along_bind (P : S → Op → Prop) (p : Prog Op Res α) (g : α → Prog Op Res β) (s : S) :
    (p >>= g).Along exec P s ↔
      p.Along exec P s ∧ (g (p.run exec s).1).Along exec P (p.run exec s).2 := by
  rw [Along, trace_bind, Machine.along_append, ← run_snd]
  rfl

/-- Run alone from `s`, the program performs no operation but such as satisfy `P`, and ends with a result
and a state that satisfy `Q`. -/
def Ensures (P : S → Op → Prop) (Q : α → S → Prop) (p : Prog Op Res α) (s : S) : Prop :=
  p.Along exec P s ∧ Q (p.run exec s).1 (p.run exec s).2

@[simp] theorem ensures_ret (P : S → Op → Prop) (Q : α → S → Prop) (a : α) (s : S) :
    (ret a : Prog Op Res α).Ensures exec P Q s ↔ Q a s := and_iff_right trivial

@[simp] theorem ensures_call (P : S → Op → Prop) (Q : α → S → Prop) (op : Op)
    (k : Res op → Prog Op Res α) (s : S) : (call op k).Ensures exec P Q s ↔
      P s op ∧ (k (exec op s).1).Ensures exec P Q (exec op s).2 := and_assoc

@[simp] theorem ensures_ite (P : S → Op → Prop) (Q : α → S → Prop) (c : Prop) [Decidable c]
    (p p' : Prog Op Res α) (s : S) : (if c then p else p').Ensures exec P Q s ↔
      (c → p.Ensures exec P Q s) ∧ (¬ c → p'.Ensures exec P Q s) := by
  by_cases hc : c <;> simp [hc]

/-- What is ensured of a composite program is ensured of its second part where the first one ends. -/
theorem ensures_bind (P : S → Op → Prop) (Q : β → S → Prop) (p : Prog Op Res α)
    (g : α → Prog Op Res β) (s : S) : (p >>= g).Ensures exec P Q s ↔
      p.Ensures exec P (fun a t => (g a).Ensures exec P Q t) s := by
  simp only [Ensures, along_bind, run_bind, and_assoc]

theorem Ensures.mono {P P' : S → Op → Prop} {Q Q' : α → S → Prop} {p : Prog Op Res α} {s : S}
    (h : p.Ensures exec P Q s) (hP : ∀ t op, P t op → P' t op) (hQ : ∀ a t, Q a t → Q' a t) :
    p.Ensures exec P' Q' s :=
  ⟨Machine.Along.mono _ h.1 fun t op _ => hP t op, hQ _ _ h.2⟩

/-- Of two programs that leave the state as it is, one after the other does so too. -/
theorem Ensures.bind_fixed {P : S → Op → Prop} {p : Prog Op Res α} {g : α → Prog Op Res β} {s : S}
    (hp : p.Ensures exec P (fun _ t => t = s) s)
    (hg : ∀ a, (g a).Ensures exec P (fun _ t => t = s) s) :
    (p >>= g).Ensures exec P (fun _ t => t = s) s := by
  refine (ensures_bind ..).2 (hp.mono exec (fun _ _ => id) ?_)
  rintro a t rfl
  exact hg a

/-- One atomic step of a program; a program that has returned stays as it is. -/
def step : Prog Op Res α → S → Prog Op Res α × S
  | ret a, s => (ret a, s)
  | call op k, s => (k (exec op s).1, (exec op s).2)

@[simp] theorem step_ret (a : α) (s : S) :
    (ret a : Prog Op Res α).step exec s = (ret a, s) := rfl

@[simp] theorem step_call (op : Op) (k : Res op → Prog Op Res α) (s : S) :
    (call op k).step exec s = (k (exec op s).1, (exec op s).2) := rfl

/-- The first step of a composite program is the one of its first part. -/
theorem step_bind {p : Prog Op Res α} (h : p.result? = none) (g : α → Prog Op Res β) (s : S) :
    (p >>= g).step exec s = ((p.step exec s).1 >>= g, (p.step exec s).2) := by
  cases p with
  | ret a => cases h
  | call op k => rfl

/-- A step does not change where the program ends. -/
theorem run_step (p : Prog Op Res α) (s : S) :
    (p.step exec s).1.run exec (p.step exec s).2 = p.run exec s := by
  cases p with
  | ret a => rfl
  | call op k => rfl

theorem Uses.step {P : Op → Prop} {p : Prog Op Res α} (hp : p.Uses P) (s : S) :
    (p.step exec s).1.Uses P := by
  cases p with
  | ret a => exact hp
  | call op k => exact hp.2 _

theorem Within.step {p : Prog Op Res α} {n : ℕ} (hp : p.Within (n + 1)) (s : S) :
    (p.step exec s).1.Within n := by
  cases p with
  | ret a => trivial
  | call op k => exact hp _

/-- What every operation of the program leaves alone, a step leaves alone. -/
theorem step_frame {P : Op → Prop} {p : Prog Op Res α} (hp : p.Uses P) (R : S → Prop)
    (hR : ∀ op, P op → ∀ s, R s → R (exec op s).2) {s : S} (hs : R s) : R (p.step exec s).2 := by
  cases p with
  | ret a => exact hs
  | call op k => exact hR op hp.1 s hs

/-- What every operation of the program leaves alone, a run leaves alone. -/
theorem run_frame {P : Op → Prop} {p : Prog Op Res α} (hp : p.Uses P) (R : S → Prop)
    (hR : ∀ op, P op → ∀ s, R s → R (exec op s).2) {s : S} (hs : R s) : R (p.run exec s).2 := by
  induction p generalizing s with
  | ret a => exact hs
  | call op k ih => exact ih _ (hp.2 _) (hR op hp.1 s hs)

/-! ### Proof outlines -/

/-- Wherever the program can be on its way from `s`, there is an assertion of the kind `K` that holds of
the state; and another state of which this assertion holds would do as well. -/
def Outlined (K : (S → Prop) → Prop) : Prog Op Res α → S → Prop
  | ret _, s => ∃ A, K A ∧ A s
  | call op k, s => ∃ A, K A ∧ A s ∧ ∀ t, A t → (k (exec op t).1).Outlined K (exec op t).2

variable {K : (S → Prop) → Prop}

/-- The assertion that holds where the program is. -/
theorem Outlined.exists_assertion {p : Prog Op Res α} {s : S} (h : p.Outlined exec K s) :
    ∃ A, K A ∧ A s ∧ ∀ t, A t → p.Outlined exec K t := by
  cases p with
  | ret a =>
      obtain ⟨A, hK, hA⟩ := h
      exact ⟨A, hK, hA, fun t ht => ⟨A, hK, ht⟩⟩
  | call op k =>
      obtain ⟨A, hK, hA, hrest⟩ := h
      exact ⟨A, hK, hA, fun t ht => ⟨A, hK, ht, hrest⟩⟩

/-- A composite program is outlined if its second part is, wherever it starts. -/
theorem Outlined.bind {p : Prog Op Res α} {g : α → Prog Op Res β} {s : S} (h : p.Outlined exec K s)
    (hg : ∀ a A t, K A → A t → (g a).Outlined exec K t) : (p >>= g).Outlined exec K s := by
  induction p generalizing s with
  | ret a =>
      obtain ⟨A, hK, hA⟩ := h
      exact hg a A s hK hA
  | call op k ih =>
      obtain ⟨A, hK, hA, hrest⟩ := h
      exact ⟨A, hK, hA, fun t ht => ih _ (hrest t ht)⟩

/-- A step of the program leads to the next assertion. -/
theorem Outlined.step {p : Prog Op Res α} {s : S} (h : p.Outlined exec K s) :
    (p.step exec s).1.Outlined exec K (p.step exec s).2 := by
  cases p with
  | ret a => exact h
  | call op k =>
      obtain ⟨A, -, hA, hrest⟩ := h
      exact hrest s hA

end Exec

/-! ### Programs over other operations -/

/-- The program with each of its operations replaced by a program over other operations, which may fail
to return. -/
def lower {Op' : Type} {Res' : Op' → Type} (f : (op : Op) → Prog Op' Res' (Option (Res op))) :
    Prog Op Res α → Prog Op' Res' (Option α)
  | ret a => ret (some a)
  | call op k => (f op).bind fun r => r.elim (ret none) fun r => (k r).lower f

section Lower

variable {Op' : Type} {Res' : Op' → Type} (f : (op : Op) → Prog Op' Res' (Option (Res op)))

@[simp] theorem lower_ret (a : α) : (ret a : Prog Op Res α).lower f = ret (some a) := rfl

@[simp] theorem lower_ite (c : Prop) [Decidable c] (p p' : Prog Op Res α) :
    (if c then p else p').lower f = if c then p.lower f else p'.lower f := apply_ite ..

theorem lower_call (op : Op) (k : Res op → Prog Op Res α) :
    (call op k).lower f = (f op >>= fun r => r.elim (ret none) fun r => (k r).lower f) := rfl

/-- A single operation becomes the program in its place. -/
theorem lower_op (op : Op) : (call op ret : Prog Op Res (Res op)).lower f = f op := by
  have hret : (fun r : Option (Res op) => r.elim (ret none) fun r => (ret r).lower f) = ret := by
    funext r
    cases r <;> rfl
  rw [lower_call, hret, bind_ret]

theorem lower_bind (p : Prog Op Res α) (g : α → Prog Op Res β) :
    (p >>= g).lower f = (p.lower f >>= fun r => r.elim (ret none) fun a => (g a).lower f) := by
  induction p with
  | ret a => rfl
  | call op k ih =>
      rw [call_bind, lower_call, lower_call, bind_assoc]
      refine congrArg (f op >>= ·) (funext fun r => ?_)
      cases r with
      | none => rfl
      | some r => exact ih r

theorem Uses.lower {P : Op → Prop} {Q : Op' → Prop} {p : Prog Op Res α} (hp : p.Uses P)
    (hf : ∀ op, P op → (f op).Uses Q) : (p.lower f).Uses Q := by
  induction p with
  | ret a => trivial
  | call op k ih =>
      refine (hf op hp.1).bind fun r => ?_
      cases r with
      | none => trivial
      | some r => exact ih r (hp.2 r)

/-- If no operation, started in `s`, changes the state, then the program does not. -/
theorem ensures_lower {S : Type} (exec : (op : Op') → S → Res' op × S) {P : S → Op' → Prop} {s : S}
    (hf : ∀ op, (f op).Ensures exec P (fun _ t => t = s) s) (p : Prog Op Res α) :
    (p.lower f).Ensures exec P (fun _ t => t = s) s := by
  induction p with
  | ret a => exact ⟨trivial, rfl⟩
  | call op k ih =>
      rw [lower_call]
      refine (hf op).bind_fixed exec fun r => ?_
      cases r with
      | none => exact ⟨trivial, rfl⟩
      | some r => exact ih r

end Lower

/-! ### Programs over smaller operations -/

/-- The program with each of its operations replaced by a program over other operations. -/
def expand {Op' : Type} {Res' : Op' → Type} (f : (op : Op) → Prog Op' Res' (Res op)) :
    Prog Op Res α → Prog Op' Res' α
  | ret a => ret a
  | call op k => (f op).bind fun r => (k r).expand f

section Expand

variable {Op' : Type} {Res' : Op' → Type} (f : (op : Op) → Prog Op' Res' (Res op))

@[simp] theorem expand_ret (a : α) : (ret a : Prog Op Res α).expand f = ret a := rfl

theorem expand_call (op : Op) (k : Res op → Prog Op Res α) :
    (call op k).expand f = (f op >>= fun r => (k r).expand f) := rfl

theorem expand_bind (p : Prog Op Res α) (g : α → Prog Op Res β) :
    (p >>= g).expand f = p.expand f >>= fun a => (g a).expand f := by
  induction p with
  | ret a => rfl
  | call op k ih =>
      rw [call_bind, expand_call, expand_call, bind_assoc]
      exact congrArg (f op >>= ·) (funext ih)

theorem Uses.expand {P : Op → Prop} {Q : Op' → Prop} {p : Prog Op Res α} (hp : p.Uses P)
    (hf : ∀ op, P op → (f op).Uses Q) : (p.expand f).Uses Q := by
  induction p with
  | ret a => trivial
  | call op k ih => exact (hf op hp.1).bind fun r => ih r (hp.2 r)

theorem Returns.expand {Q : α → Prop} {p : Prog Op Res α} (hp : p.Returns Q) :
    (p.expand f).Returns Q := by
  induction p with
  | ret a => exact hp
  | call op k ih => exact Returns.bind fun r => ih r (hp r)

theorem Within.expand {p : Prog Op Res α} {m n : ℕ} (hp : p.Within m) (hf : ∀ op, (f op).Within n) :
    (p.expand f).Within (m * n) := by
  induction p generalizing m with
  | ret a => trivial
  | call op k ih =>
      cases m with
      | zero => exact hp.elim
      | succ m =>
          rw [Nat.succ_mul, Nat.add_comm]
          exact (hf op).bind fun r => ih r (hp r)

/-- If the programs in the place of the operations do what the operations do, then the expanded program
does what the program does. -/
theorem run_expand {S : Type} {exec : (op : Op) → S → Res op × S}
    {exec' : (op : Op') → S → Res' op × S} (hf : ∀ op s, (f op).run exec' s = exec op s)
    (p : Prog Op Res α) (s : S) : (p.expand f).run exec' s = p.run exec s := by
  induction p generalizing s with
  | ret a => rfl
  | call op k ih =>
      rw [expand_call, run_bind, hf]
      exact ih _ _

end Expand

/-! ### A program amid an environment -/

/-- What happens next: the program takes its own step, or the environment performs an operation;
either with the fault `f`. -/
inductive Event (Op F : Type) : Type
  | own (f : F)
  | env (f : F) (op : Op)

/-- The number of steps of its own that the program is given. -/
def ownSteps {F : Type} : List (Event Op F) → ℕ
  | [] => 0
  | .own _ :: es => ownSteps es + 1
  | .env _ _ :: es => ownSteps es

section OwnSteps

variable {F : Type}

@[simp] theorem ownSteps_nil : ownSteps ([] : List (Event Op F)) = 0 := rfl

@[simp] theorem ownSteps_own (f : F) (es : List (Event Op F)) :
    ownSteps (.own f :: es) = ownSteps es + 1 := rfl

@[simp] theorem ownSteps_env (f : F) (op : Op) (es : List (Event Op F)) :
    ownSteps (.env f op :: es) = ownSteps es := rfl

theorem ownSteps_append (es es' : List (Event Op F)) :
    ownSteps (es ++ es') = ownSteps es + ownSteps es' := by
  induction es with
  | nil => simp
  | cons e es ih =>
      cases e with
      | own f =>
          simp only [List.cons_append, ownSteps_own, ih]
          omega
      | env f op => simpa using ih

/-- An execution can be cut at any of the program's own steps. -/
theorem exists_own {es : List (Event Op F)} {i : ℕ} (h : i < ownSteps es) :
    ∃ es₁ f es₂, es = es₁ ++ .own f :: es₂ ∧ ownSteps es₁ = i := by
  induction es generalizing i with
  | nil => cases h
  | cons e es ih =>
      cases e with
      | own f =>
          cases i with
          | zero => exact ⟨[], f, es, rfl, rfl⟩
          | succ i =>
              obtain ⟨es₁, f', es₂, rfl, hi⟩ := ih (Nat.lt_of_succ_lt_succ h)
              exact ⟨.own f :: es₁, f', es₂, rfl, by rw [ownSteps_own, hi]⟩
      | env f op =>
          obtain ⟨es₁, f', es₂, rfl, hi⟩ := ih h
          exact ⟨.env f op :: es₁, f', es₂, rfl, hi⟩

end OwnSteps

section Amid

variable {S F : Type} (exec : F → (op : Op) → S → Res op × S)

/-- One event of an execution of a program amid an environment. -/
def amid (c : Prog Op Res α × S) : Event Op F → Prog Op Res α × S
  | .own f => c.1.step (exec f) c.2
  | .env f op => (c.1, (exec f op c.2).2)

/-- An execution of a program amid an environment. -/
def amidRun (c : Prog Op Res α × S) (es : List (Event Op F)) : Prog Op Res α × S :=
  Machine.run (amid exec) c es

@[simp] theorem amidRun_nil (c : Prog Op Res α × S) : amidRun exec c [] = c := rfl

@[simp] theorem amidRun_cons (c : Prog Op Res α × S) (e : Event Op F) (es : List (Event Op F)) :
    amidRun exec c (e :: es) = amidRun exec (amid exec c e) es := rfl

theorem amidRun_append (c : Prog Op Res α × S) (es es' : List (Event Op F)) :
    amidRun exec c (es ++ es') = amidRun exec (amidRun exec c es) es' := Machine.run_append ..

/-- Left to itself for long enough, a program returns. -/
theorem amidRun_replicate_own {p : Prog Op Res α} {n : ℕ} (h : p.Within n) (f : F) (s : S) :
    amidRun exec (p, s) (List.replicate n (.own f)) =
      (ret (p.run (exec f) s).1, (p.run (exec f) s).2) := by
  induction n generalizing p s with
  | zero =>
      obtain ⟨a, rfl⟩ := h.eq_ret
      rfl
  | succ n ih =>
      rw [List.replicate_succ, amidRun_cons]
      have hrec := ih (h.step (exec f) s) (p.step (exec f) s).2
      rw [run_step] at hrec
      exact hrec

/-- Each step of its own brings a program closer to its end, whatever the others do. -/
theorem within_amidRun {p : Prog Op Res α} {n : ℕ} (h : p.Within n) (s : S)
    (es : List (Event Op F)) : (amidRun exec (p, s) es).1.Within (n - ownSteps es) := by
  induction es generalizing p s n with
  | nil => exact h
  | cons e es ih =>
      cases e with
      | own f =>
          rw [amidRun_cons, ownSteps_own]
          have hstep : (p.step (exec f) s).1.Within (n - 1) := by
            cases n with
            | zero =>
                obtain ⟨a, rfl⟩ := h.eq_ret
                trivial
            | succ n => exact h.step _ _
          exact (ih hstep _).mono (by omega)
      | env f op => exact ih h _

/-- A program that has returned is left alone. -/
theorem amidRun_ret (a : α) (s : S) (es : List (Event Op F)) :
    (amidRun exec (ret a, s) es).1 = ret a := by
  refine Machine.run_invariant (amid exec) (fun c => c.1 = ret a) rfl ?_
  rintro e - ⟨p, t⟩ (rfl : p = ret a)
  cases e with
  | own f => rfl
  | env f op => rfl

theorem eq_of_amidRun_ret {a b : α} {s : S} {es : List (Event Op F)}
    (h : (amidRun exec (ret a, s) es).1 = ret b) : a = b := by
  rw [amidRun_ret, ret.injEq] at h
  exact h

end Amid

end Prog

/-! ### Pools of threads -/

/-- Threads over a shared state. -/
structure Pool (ι S Op : Type) (Res : Op → Type) (α : Type) where
  shared : S
  thread : ι → Prog Op Res α

namespace Pool

variable {ι S F Op α : Type} {Res : Op → Type} [DecidableEq ι]
variable (exec : F → (op : Op) → S → Res op × S)

/-- Thread `e.1` takes its next atomic step, with the fault `e.2`. -/
def step (p : Pool ι S Op Res α) (e : ι × F) : Pool ι S Op Res α where
  shared := ((p.thread e.1).step (exec e.2) p.shared).2
  thread := Function.update p.thread e.1 ((p.thread e.1).step (exec e.2) p.shared).1

/-- The pool after a schedule. -/
def run (p : Pool ι S Op Res α) (es : List (ι × F)) : Pool ι S Op Res α :=
  Machine.run (step exec) p es

@[simp] theorem run_nil (p : Pool ι S Op Res α) : p.run exec [] = p := rfl

@[simp] theorem run_cons (p : Pool ι S Op Res α) (e : ι × F) (es : List (ι × F)) :
    p.run exec (e :: es) = (p.step exec e).run exec es := rfl

theorem run_append (p : Pool ι S Op Res α) (es es' : List (ι × F)) :
    p.run exec (es ++ es') = (p.run exec es).run exec es' := Machine.run_append ..

theorem run_concat (p : Pool ι S Op Res α) (es : List (ι × F)) (e : ι × F) :
    p.run exec (es ++ [e]) = (p.run exec es).step exec e := Machine.run_concat ..

theorem shared_step (p : Pool ι S Op Res α) (e : ι × F) :
    (p.step exec e).shared = ((p.thread e.1).step (exec e.2) p.shared).2 := rfl

theorem thread_step_self (p : Pool ι S Op Res α) (e : ι × F) :
    (p.step exec e).thread e.1 = ((p.thread e.1).step (exec e.2) p.shared).1 :=
  Function.update_self ..

theorem thread_step_of_ne (p : Pool ι S Op Res α) {e : ι × F} {j : ι} (h : j ≠ e.1) :
    (p.step exec e).thread j = p.thread j :=
  Function.update_of_ne h ..

/-- What the threads may do is fixed by how they start. -/
theorem uses_run {P : ι → Op → Prop} {p : Pool ι S Op Res α} (es : List (ι × F))
    (hp : ∀ i, (p.thread i).Uses (P i)) (i : ι) : ((p.run exec es).thread i).Uses (P i) := by
  refine Machine.run_invariant (step exec) (fun q => ∀ i, (q.thread i).Uses (P i)) hp ?_ i
  intro e _ q hq j
  by_cases h : j = e.1
  · subst h
    rw [thread_step_self]
    exact (hq e.1).step _ _
  · rw [thread_step_of_ne exec q h]
    exact hq j

/-- A thread that returns within `n` operations has returned once it has taken `n` steps. -/
theorem within_run {p : Pool ι S Op Res α} {i : ι} {n : ℕ} (hp : (p.thread i).Within n)
    (es : List (ι × F)) : ((p.run exec es).thread i).Within (n - es.countP (·.1 = i)) := by
  induction es generalizing p n with
  | nil => exact hp
  | cons e es ih =>
      rw [run_cons]
      by_cases h : e.1 = i
      · subst h
        rw [List.countP_cons_of_pos (by simp)]
        have hstep : ((p.step exec e).thread e.1).Within (n - 1) := by
          rw [thread_step_self]
          cases n with
          | zero =>
              obtain ⟨a, ha⟩ := hp.eq_ret
              rw [ha]
              trivial
          | succ n => exact hp.step _ _
        exact (ih hstep).mono (by omega)
      · rw [List.countP_cons_of_neg (by simpa using h)]
        refine ih ?_
        rw [thread_step_of_ne exec p (Ne.symm h)]
        exact hp

/-- **Projection.**  Let `R i` relate two states that look the same to thread `i`.  If the
operations of thread `i` answer alike in such states and keep them alike, and the operations of
the other threads keep them alike when performed on one side only, then after every schedule the
rest of thread `i` would end as the whole of it does when it is run alone from the start, from a
state that looks to it like the shared one. -/
theorem exists_solo {P : ι → Op → Prop} {R : ι → S → S → Prop} {f : F}
    (hown : ∀ i op, P i op → ∀ s t, R i s t →
      (exec f op s).1 = (exec f op t).1 ∧ R i (exec f op s).2 (exec f op t).2)
    (hother : ∀ i j, i ≠ j → ∀ op, P j op → ∀ s t, R i s t → R i (exec f op s).2 t)
    {p : Pool ι S Op Res α} (hP : ∀ i, (p.thread i).Uses (P i)) (hR : ∀ i, R i p.shared p.shared)
    {es : List (ι × F)} (hes : ∀ e ∈ es, e.2 = f) (i : ι) :
    ∃ t, ((p.run exec es).thread i).run (exec f) t = (p.thread i).run (exec f) p.shared ∧
      R i (p.run exec es).shared t := by
  have hinv : (∀ i, ((p.run exec es).thread i).Uses (P i)) ∧ ∀ i, ∃ t,
      ((p.run exec es).thread i).run (exec f) t = (p.thread i).run (exec f) p.shared ∧
        R i (p.run exec es).shared t := by
    refine Machine.run_invariant (step exec)
      (fun q => (∀ i, (q.thread i).Uses (P i)) ∧ ∀ i, ∃ t,
        (q.thread i).run (exec f) t = (p.thread i).run (exec f) p.shared ∧ R i q.shared t)
      ⟨hP, fun i => ⟨p.shared, rfl, hR i⟩⟩ ?_
    rintro ⟨j, g⟩ he q ⟨hU, hq⟩
    obtain rfl : g = f := hes _ he
    refine ⟨fun i => ?_, fun i => ?_⟩
    · exact uses_run exec [(j, g)] hU i
    · obtain ⟨t, ht, hRt⟩ := hq i
      by_cases hij : i = j
      · -- the thread's own step: the solo run takes the same one
        subst hij
        refine ⟨((q.thread i).step (exec g) t).2, ?_, ?_⟩
        · rw [← ht, ← Prog.run_step (exec g) (q.thread i) t, thread_step_self]
          cases hth : q.thread i with
          | ret a => rfl
          | call op k =>
              have hop : P i op := (hU i).of_next? (by rw [hth, Prog.next?_call])
              simp only [Prog.step_call, (hown i op hop _ _ hRt).1]
        · rw [shared_step]
          cases hth : q.thread i with
          | ret a => simpa [hth] using hRt
          | call op k =>
              have hop : P i op := (hU i).of_next? (by rw [hth, Prog.next?_call])
              simpa [hth] using (hown i op hop _ _ hRt).2
      · -- another thread's step: the solo run waits
        refine ⟨t, ?_, ?_⟩
        · rw [thread_step_of_ne exec q hij]
          exact ht
        · exact Prog.step_frame _ (hU j) (fun s => R i s t)
            (fun op hop s hs => hother i j hij op hop s t hs) hRt
  exact hinv.2 i

end Pool

end Interleave
