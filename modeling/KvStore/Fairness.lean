/-
**Endless schedules.**

An endless schedule gives the threads of a pool their turns, one after the other.  It is *fair* if it does
not forget a thread: each of them has turns again and again.  A thread may well waste all its turns, when
it has to wait for something whenever it is its turn.  Here it is shown that under a fair schedule nobody
starves, as long as in every state on the way somebody need not wait.  The reason is that a thread is a
program, that is a tree without infinite branches: it makes use of finitely many of its turns only, so
that there is a turn after which nothing happens any more, and by fairness this can only be because all
threads have returned.

What is used up on the way is bounded beforehand, for every schedule, by what the programs may cost.

Main definitions:

* `Interleave.Pool.after` — the pool after so many turns of an endless schedule;
* `Interleave.Prog.Moves` — the program is about to perform an operation that is possible;
* `Interleave.Prog.Costs` — a bound on what the operations of a program cost together.

Main results:

* `Interleave.Pool.returned_of_fair` — **under a fair schedule all threads return**, if nobody is stuck;
* `Interleave.Pool.load_turns_le` — the threads use up no more than their programs cost.
-/

import KvStore.Custody
import Mathlib.Algebra.BigOperators.Fin
import Mathlib.Data.Set.Finite.Lattice

set_option relaxedAutoImplicit false
set_option autoImplicit false

namespace Interleave

variable {ι S Op Op' α β : Type} {Res : Op → Type} {Res' : Op' → Type}

/-! ### Turns that are made use of -/

theorem Prog.Returns.map {Q : α → Prop} {Q' : β → Prop} {p : Prog Op Res α} (h : p.Returns Q) (f : α → β)
    (hf : ∀ a, Q a → Q' (f a)) : (p >>= fun a => .ret (f a)).Returns Q' := by
  induction p with
  | ret a => exact hf a h
  | call op k ih => exact fun r => ih r (h r)

theorem Prog.Returns.step {Q : α → Prop} {p : Prog Op Res α} (h : p.Returns Q)
    (exec : (op : Op) → S → Res op × S) (s : S) : (p.step exec s).1.Returns Q := by
  cases p with
  | ret a => exact h
  | call op k => exact h _

/-- The program is about to perform an operation that is possible. -/
def Prog.Moves (may : S → Op → Bool) (s : S) (p : Prog Op Res α) : Prop :=
  p.result? = none ∧ p.waits may s = false

namespace Pool

variable [DecidableEq ι] (exec : (op : Op) → S → Res op × S) (may : S → Op → Bool)

/-- A thread that does not move leaves everything as it is. -/
theorem turn_of_not_moves {p : Pool ι S Op Res α} {i : ι} (h : ¬ (p.thread i).Moves may p.shared) :
    p.turn exec may i = p := by
  cases hw : (p.thread i).waits may p.shared with
  | true => exact turn_of_waits exec may hw
  | false =>
      rw [turn_of_not_waits exec may hw]
      cases hp : p.thread i with
      | ret x => rw [step, hp, Prog.step_ret, ← hp, Function.update_eq_self]
      | call op k =>
          have hmoves : (p.thread i).Moves may p.shared := ⟨by rw [hp]; rfl, hw⟩
          exact absurd hmoves h

/-- What a thread may return is fixed by how it starts. -/
theorem returns_turns {Q : ι → α → Prop} {p : Pool ι S Op Res α} (is : List ι)
    (h : ∀ i, (p.thread i).Returns (Q i)) (i : ι) : ((p.turns exec may is).thread i).Returns (Q i) := by
  refine Machine.run_invariant (turn exec may) (fun q => ∀ i, (q.thread i).Returns (Q i)) h ?_ i
  intro j _ q hq i
  by_cases hmoves : (q.thread j).waits may q.shared = true
  · rw [turn_of_waits exec may hmoves]
    exact hq i
  · rw [turn_of_not_waits exec may (Bool.not_eq_true _ ▸ hmoves)]
    by_cases hi : i = j
    · subst hi
      rw [thread_step_self]
      exact (hq i).step _ _
    · rw [thread_step_of_ne _ _ hi]
      exact hq i

/-- The turn of another thread. -/
theorem thread_turn_of_ne {p : Pool ι S Op Res α} {i j : ι} (h : j ≠ i) :
    (p.turn exec may i).thread j = p.thread j := by
  rw [turn]
  split
  · rfl
  · exact thread_step_of_ne (fun _ : Unit => exec) p h

/-- A thread that moves goes on with what its operation has answered. -/
theorem thread_turn_of_moves {p : Pool ι S Op Res α} {i : ι} {op : Op} {k : Res op → Prog Op Res α}
    (hp : p.thread i = .call op k) (h : (p.thread i).Moves may p.shared) :
    (p.turn exec may i).thread i = k (exec op p.shared).1 := by
  rw [turn_of_not_waits exec may h.2, thread_step_self, hp]
  rfl

/-! ### Endless schedules -/

/-- The pool after `n` turns of an endless schedule. -/
def after (p : Pool ι S Op Res α) (σ : ℕ → ι) : ℕ → Pool ι S Op Res α
  | 0 => p
  | n + 1 => (after p σ n).turn exec may (σ n)

@[simp] theorem after_zero (p : Pool ι S Op Res α) (σ : ℕ → ι) : p.after exec may σ 0 = p := rfl

@[simp] theorem after_succ (p : Pool ι S Op Res α) (σ : ℕ → ι) (n : ℕ) :
    p.after exec may σ (n + 1) = (p.after exec may σ n).turn exec may (σ n) := rfl

theorem after_eq_turns (p : Pool ι S Op Res α) (σ : ℕ → ι) (n : ℕ) :
    p.after exec may σ n = p.turns exec may ((List.range n).map σ) := by
  induction n with
  | zero => rfl
  | succ n ih =>
      rw [after_succ, ih, List.range_succ, List.map_append, turns, turns, Machine.run_append]
      rfl

variable {exec may} {p : Pool ι S Op Res α} {σ : ℕ → ι} {i : ι} {m n : ℕ}

/-- While a thread does not move, it stays where it is. -/
theorem thread_after_eq (hmn : m ≤ n)
    (h : ∀ k, m ≤ k → k < n → σ k = i →
      ¬ ((p.after exec may σ k).thread i).Moves may (p.after exec may σ k).shared) :
    (p.after exec may σ n).thread i = (p.after exec may σ m).thread i := by
  induction n, hmn using Nat.le_induction with
  | base => rfl
  | succ n hmn ih =>
      have hbefore := ih fun k hk hkn => h k hk (by omega)
      rw [after_succ, ← hbefore]
      by_cases hi : σ n = i
      · subst hi
        rw [turn_of_not_moves exec may (h n hmn (by omega) rfl)]
      · exact thread_turn_of_ne exec may (Ne.symm hi)

/-- While nobody moves, everything stays as it is. -/
theorem after_eq (hmn : m ≤ n)
    (h : ∀ k, m ≤ k → k < n →
      ¬ ((p.after exec may σ k).thread (σ k)).Moves may (p.after exec may σ k).shared) :
    p.after exec may σ n = p.after exec may σ m := by
  induction n, hmn using Nat.le_induction with
  | base => rfl
  | succ n hmn ih =>
      rw [after_succ, turn_of_not_moves exec may (h n hmn (by omega))]
      exact ih fun k hk hkn => h k hk (by omega)

/-- The first turn from `m` on of which a thread makes use. -/
theorem exists_first_move (h : ∃ n, m ≤ n ∧ σ n = i ∧
    ((p.after exec may σ n).thread i).Moves may (p.after exec may σ n).shared) :
    ∃ n, σ n = i ∧ (p.after exec may σ n).thread i = (p.after exec may σ m).thread i ∧
      ((p.after exec may σ n).thread i).Moves may (p.after exec may σ n).shared := by
  classical
  obtain ⟨hmn, hi, hmoves⟩ := Nat.find_spec h
  refine ⟨Nat.find h, hi, thread_after_eq hmn fun k hmk hlt hk hmoves' => ?_, hmoves⟩
  exact Nat.find_min h hlt ⟨hmk, hk, hmoves'⟩

/-- A thread makes use of finitely many of its turns only. -/
theorem exists_last_move (p : Pool ι S Op Res α) (σ : ℕ → ι) (i : ι) :
    ∃ last, ∀ n, last ≤ n → σ n = i →
      ¬ ((p.after exec may σ n).thread i).Moves may (p.after exec may σ n).shared := by
  -- by induction on what is left of the program after `m` turns
  suffices h : ∀ (q : Prog Op Res α) (m : ℕ), (p.after exec may σ m).thread i = q →
      ∃ last, ∀ n, last ≤ n → σ n = i →
        ¬ ((p.after exec may σ n).thread i).Moves may (p.after exec may σ n).shared from h _ 0 rfl
  intro q
  induction q with
  | ret x =>
      intro m hm
      refine ⟨m, fun n hmn hi hmoves => ?_⟩
      obtain ⟨n', -, hthread, hmoves'⟩ := exists_first_move ⟨n, hmn, hi, hmoves⟩
      rw [hthread, hm] at hmoves'
      cases hmoves'.1
  | call op k ih =>
      intro m hm
      by_cases hnext : ∃ n, m ≤ n ∧ σ n = i ∧
          ((p.after exec may σ n).thread i).Moves may (p.after exec may σ n).shared
      · obtain ⟨n, hi, hthread, hmoves⟩ := exists_first_move hnext
        refine ih (exec op (p.after exec may σ n).shared).1 (n + 1) ?_
        rw [after_succ, hi]
        exact thread_turn_of_moves exec may (hthread.trans hm) hmoves
      · refine ⟨m, fun n hmn hi hmoves => ?_⟩
        exact hnext ⟨n, hmn, hi, hmoves⟩

/-- **Under a fair schedule all threads return**, if there is somebody who moves whenever not all of them
have returned. -/
theorem returned_of_fair [Finite ι] (hfair : ∀ i n, ∃ m, n ≤ m ∧ σ m = i)
    (hmoves : ∀ n, (∃ i, ((p.after exec may σ n).thread i).result? = none) →
      ∃ i, ((p.after exec may σ n).thread i).Moves may (p.after exec may σ n).shared) :
    ∃ n, ∀ i, ((p.after exec may σ n).thread i).result? ≠ none := by
  have hstops : ∀ i, ∃ last, ∀ n, last ≤ n → σ n = i →
      ¬ ((p.after exec may σ n).thread i).Moves may (p.after exec may σ n).shared := exists_last_move p σ
  choose last hlast using hstops
  obtain ⟨n, hn⟩ := (Set.finite_range last).bddAbove
  have hle : ∀ i, last i ≤ n := fun i => hn ⟨i, rfl⟩
  refine ⟨n, fun i hi => ?_⟩
  -- somebody moves now, and would move when it is its turn
  obtain ⟨j, hj⟩ := hmoves n ⟨i, hi⟩
  obtain ⟨m, hnm, hm⟩ := hfair j n
  have hsame : p.after exec may σ m = p.after exec may σ n := by
    refine after_eq hnm fun k hnk _ => ?_
    exact hlast (σ k) k ((hle _).trans hnk) rfl
  rw [← hsame] at hj
  exact hlast j m ((hle j).trans hnm) hm hj

end Pool

/-! ### What programs cost -/

namespace Prog

variable {c : Op → ℕ} {p : Prog Op Res α} {g : α → Prog Op Res β} {m n : ℕ}

/-- Whatever the operations answer, those that the program performs cost at most `n` together. -/
def Costs (c : Op → ℕ) : Prog Op Res α → ℕ → Prop
  | ret _, _ => True
  | call op k, n => c op ≤ n ∧ ∀ r, (k r).Costs c (n - c op)

@[simp] theorem costs_ret (a : α) : (ret a : Prog Op Res α).Costs c n := trivial

@[simp] theorem costs_call (op : Op) (k : Res op → Prog Op Res α) :
    (call op k).Costs c n ↔ c op ≤ n ∧ ∀ r, (k r).Costs c (n - c op) := Iff.rfl

@[simp] theorem costs_ite (b : Prop) [Decidable b] (p p' : Prog Op Res α) :
    (if b then p else p').Costs c n ↔ (b → p.Costs c n) ∧ (¬ b → p'.Costs c n) := by
  by_cases hb : b <;> simp [hb]

theorem Costs.mono (h : p.Costs c m) (hmn : m ≤ n) : p.Costs c n := by
  induction p generalizing m n with
  | ret a => trivial
  | call op k ih => exact ⟨h.1.trans hmn, fun r => ih r (h.2 r) (by omega)⟩

theorem Costs.bind (h : p.Costs c m) (hg : ∀ a, (g a).Costs c n) : (p >>= g).Costs c (m + n) := by
  induction p generalizing m with
  | ret a => exact (hg a).mono (by omega)
  | call op k ih =>
      have hop := h.1
      refine ⟨by omega, fun r => ?_⟩
      rw [Nat.sub_add_comm hop]
      exact ih r (h.2 r)

theorem Costs.map (h : p.Costs c m) (f : α → β) : (p >>= fun a => ret (f a)).Costs c m :=
  h.bind (n := 0) fun a => costs_ret (f a)

/-- Operations that cost nothing may be performed as often as one likes. -/
theorem Uses.costs (h : p.Uses fun op => c op = 0) (n : ℕ) : p.Costs c n := by
  induction p with
  | ret a => trivial
  | call op k ih =>
      have hop : c op = 0 := h.1
      refine ⟨by omega, fun r => ?_⟩
      rw [hop, Nat.sub_zero]
      exact ih r (h.2 r)

/-- A program over other operations costs what these cost. -/
theorem Costs.lower {c' : Op' → ℕ} {p : Prog Op' Res' α} {f : (op : Op') → Prog Op Res (Option (Res' op))}
    (h : p.Costs c' n) (hf : ∀ op, (f op).Costs c (c' op)) : (p.lower f).Costs c n := by
  induction p generalizing n with
  | ret a => trivial
  | call op k ih =>
      obtain ⟨hop, hk⟩ := h
      rw [lower_call, ← Nat.add_sub_cancel' hop]
      refine (hf op).bind fun r => ?_
      cases r with
      | none => trivial
      | some r => exact ih r (hk r)

end Prog

namespace Pool

variable [DecidableEq ι] {exec : (op : Op) → S → Res op × S} {may : S → Op → Bool} {c : Op → ℕ}

/-- A turn uses up what its operation costs. -/
theorem load_turn_le (load : S → ℕ) (hload : ∀ op s, load (exec op s).2 ≤ load s + 1)
    (p : Pool ι S Op Res α) (i : ι) : load (p.turn exec may i).shared ≤ load p.shared + 1 := by
  cases hw : (p.thread i).waits may p.shared with
  | true =>
      rw [turn_of_waits exec may hw]
      exact Nat.le_succ _
  | false =>
      rw [turn_of_not_waits exec may hw, shared_step]
      cases p.thread i with
      | ret x => exact Nat.le_succ _
      | call op k => exact hload op p.shared

/-- As long as there are no more turns than there is room for, there is room. -/
theorem along_load (load : S → ℕ) (hload : ∀ op s, load (exec op s).2 ≤ load s + 1)
    {p : Pool ι S Op Res α} {is : List ι} {n : ℕ} (h : load p.shared + is.length ≤ n) :
    Machine.Along (turn exec may) (fun p _ => load p.shared ≤ n) p is ∧
      load (p.turns exec may is).shared ≤ n := by
  induction is generalizing p with
  | nil => exact ⟨trivial, h⟩
  | cons i is ih =>
      rw [List.length_cons] at h
      have hle : load (p.turn exec may i).shared ≤ load p.shared + 1 := load_turn_le load hload p i
      obtain ⟨halong, hlast⟩ := ih (p := p.turn exec may i) (by omega)
      exact ⟨⟨by omega, halong⟩, hlast⟩

/-- The threads use up no more than their programs cost. -/
theorem load_turns_le [Fintype ι] (load : S → ℕ) (hload : ∀ op s, load (exec op s).2 ≤ load s + c op) {p : Pool ι S Op Res α}
    {cost : ι → ℕ} (hcost : ∀ i, (p.thread i).Costs c (cost i)) (is : List ι) :
    load (p.turns exec may is).shared ≤ load p.shared + ∑ i, cost i := by
  induction is generalizing p cost with
  | nil => exact Nat.le_add_right ..
  | cons i is ih =>
      rw [turns_cons]
      by_cases hmoves : (p.thread i).Moves may p.shared
      · cases hp : p.thread i with
        | ret x =>
            rw [hp] at hmoves
            cases hmoves.1
        | call op k =>
            -- what the operation costs, the rest of the program costs no more
            have hop := hcost i
            rw [hp, Prog.costs_call] at hop
            have hshared : (p.turn exec may i).shared = (exec op p.shared).2 := by
              rw [turn_of_not_waits exec may hmoves.2, shared_step, hp]
              rfl
            have hrest : ∀ j, ((p.turn exec may i).thread j).Costs c
                (Function.update cost i (cost i - c op) j) := by
              intro j
              by_cases hj : j = i
              · subst hj
                rw [thread_turn_of_moves exec may hp hmoves, Function.update_self]
                exact hop.2 _
              · rw [thread_turn_of_ne exec may hj, Function.update_of_ne hj]
                exact hcost j
            have hsum : ∑ j, Function.update cost i (cost i - c op) j + c op = ∑ j, cost j := by
              rw [Finset.sum_update_of_mem (Finset.mem_univ i),
                ← Finset.sum_sdiff (Finset.subset_univ {i}), Finset.sum_singleton]
              omega
            have hle := ih hrest
            rw [hshared] at hle
            have hexec := hload op p.shared
            omega
      · rw [turn_of_not_moves exec may hmoves]
        exact ih hcost

end Pool

end Interleave
