/-
**Threads that keep to a protocol.**

Threads that share a state keep out of each other's way by a protocol: each of them has something in its
custody, the rest belongs to nobody at the moment, and an operation concerns what its thread has in custody
or changes hands with the rest.  Some operations are not possible in every state; a thread that is about
to perform one of these waits.

What the threads do together may be meant to be simple: some of their operations, one in each section
that a thread goes through, are to have the effect of an operation on an abstract state, and the others none.
That a program upholds the protocol is a statement about the program alone, with an abstract program beside
it: whatever the others have in custody, each of its operations is legal, leads to a state in which the
invariant holds of what the thread then has in custody, and is matched by one operation of the abstract
program or by none.  From this it follows that every run of the threads is matched by a run of the abstract
programs.

Main definitions:

* `Interleave.Pool.turn` — a thread takes its next step, or waits;
* `Interleave.Protocol` — an invariant over the shared state, what the threads have in custody, and the
  abstract state;
* `Interleave.Protocol.Upholds` — **a program upholds the protocol**;
* `Interleave.Protocol.Linked` — all threads do.

Main results:

* `Interleave.Protocol.Upholds.bind`, `Interleave.Protocol.carries_lower` — composite programs, and programs
  over other operations;
* `Interleave.Protocol.Linked.turns` — **simulation**: a run of the threads is matched, turn by turn, by a run
  of the abstract programs.
-/

import KvStore.Prog

set_option relaxedAutoImplicit false
set_option autoImplicit false

namespace Interleave

variable {ι S S' Op Op' E F V α β γ : Type} {Res : Op → Type} {Res' : Op' → Type}

/-! ### Threads that wait -/

/-- The program is about to perform an operation that is not possible now. -/
def Prog.waits (may : S → Op → Bool) (s : S) : Prog Op Res α → Bool
  | .ret _ => false
  | .call op _ => !may s op

namespace Pool

variable [DecidableEq ι] (exec : (op : Op) → S → Res op × S) (may : S → Op → Bool)

/-- Thread `i` takes its next step, or waits. -/
def turn (p : Pool ι S Op Res α) (i : ι) : Pool ι S Op Res α :=
  if (p.thread i).waits may p.shared then p else p.step (fun _ : Unit => exec) (i, ())

/-- The pool after the threads have had these turns. -/
def turns (p : Pool ι S Op Res α) (is : List ι) : Pool ι S Op Res α :=
  Machine.run (turn exec may) p is

@[simp] theorem turns_nil (p : Pool ι S Op Res α) : p.turns exec may [] = p := rfl

@[simp] theorem turns_cons (p : Pool ι S Op Res α) (i : ι) (is : List ι) :
    p.turns exec may (i :: is) = (p.turn exec may i).turns exec may is := rfl

theorem turn_of_waits {p : Pool ι S Op Res α} {i : ι} (h : (p.thread i).waits may p.shared = true) :
    p.turn exec may i = p := if_pos h

theorem turn_of_not_waits {p : Pool ι S Op Res α} {i : ι}
    (h : (p.thread i).waits may p.shared = false) :
    p.turn exec may i = p.step (fun _ : Unit => exec) (i, ()) :=
  if_neg (by rw [h]; exact Bool.false_ne_true)

end Pool

/-! ### Protocols -/

/-- The operations and what they do, also those of the abstract programs; when an operation is possible;
the invariant; and which operations are legal for a thread with something in its custody.  Something may be
said only of states in which there is room. -/
structure Protocol (ι S Op : Type) (Res : Op → Type) (S' Op' : Type) (Res' : Op' → Type) (E F V : Type) where
  exec : E → (op : Op) → S → Res op × S
  may : S → Op → Bool
  spec : F → (op : Op') → S' → Res' op × S'
  inv : S → (ι → V) → S' → Prop
  legal : S → V → Op → Prop
  room : S → Prop

namespace Protocol

variable [DecidableEq ι] (P : Protocol ι S Op Res S' Op' Res' E F V)

/-- The program, as the rest of what thread `i` does, upholds the protocol, with the thread having `v` in
its custody and the abstract program `a` beside it; and where it returns, `Q` holds. -/
def Upholds (i : ι) (Q : α → V → Prog Op' Res' β → Prop) :
    Prog Op Res α → V → Prog Op' Res' β → Prop
  | .ret x, v, a => Q x v a
  | .call op k, v, a => ∀ s G t, P.inv s G t → G i = v → P.room s →
      P.legal s v op ∧ (P.may s op = true → ∀ e, ∃ v',
        (P.inv (P.exec e op s).2 (Function.update G i v') t ∧ Upholds i Q (k (P.exec e op s).1) v' a) ∨
        ∃ f, P.inv (P.exec e op s).2 (Function.update G i v') (a.step (P.spec f) t).2 ∧
          Upholds i Q (k (P.exec e op s).1) v' (a.step (P.spec f) t).1)

variable {P} {i : ι} {Q : α → V → Prog Op' Res' β → Prop} {Q' : γ → V → Prog Op' Res' β → Prop}
  {v : V} {a : Prog Op' Res' β}

@[simp] theorem upholds_ret (x : α) : P.Upholds i Q (.ret x) v a ↔ Q x v a := Iff.rfl

/-- A composite program upholds the protocol if its second part does, wherever the first one ends. -/
theorem Upholds.bind {p : Prog Op Res α} {k : α → Prog Op Res γ} (h : P.Upholds i Q p v a)
    (hk : ∀ x v' a', Q x v' a' → P.Upholds i Q' (k x) v' a') : P.Upholds i Q' (p >>= k) v a := by
  induction p generalizing v a with
  | ret x => exact hk x v a h
  | call op c ih =>
      intro s G t hinv hv hroom
      obtain ⟨hlegal, hstep⟩ := h s G t hinv hv hroom
      refine ⟨hlegal, fun hmay e => ?_⟩
      obtain ⟨v', ⟨hinv', hrest⟩ | ⟨f, hinv', hrest⟩⟩ := hstep hmay e
      · exact ⟨v', .inl ⟨hinv', ih _ hrest⟩⟩
      · exact ⟨v', .inr ⟨f, hinv', ih _ hrest⟩⟩

theorem Upholds.mono {R : α → V → Prog Op' Res' β → Prop} {p : Prog Op Res α} (h : P.Upholds i Q p v a)
    (hQ : ∀ x v' a', Q x v' a' → R x v' a') : P.Upholds i R p v a := by
  have hbind := h.bind (k := Prog.ret) fun x v' a' hx => (upholds_ret x).2 (hQ x v' a' hx)
  rwa [Prog.bind_ret] at hbind

/-- What an operation leads to; an abstract program that has returned does not move. -/
theorem Upholds.next {op : Op} {k : Res op → Prog Op Res α} (h : P.Upholds i Q (.call op k) v a) {s : S}
    {G : ι → V} {t : S'} (hinv : P.inv s G t) (hv : G i = v) (hroom : P.room s)
    (hmay : P.may s op = true) (e : E) :
    ∃ v', (P.inv (P.exec e op s).2 (Function.update G i v') t ∧
        P.Upholds i Q (k (P.exec e op s).1) v' a) ∨
      ∃ f op' k', a = .call op' k' ∧
        P.inv (P.exec e op s).2 (Function.update G i v') (P.spec f op' t).2 ∧
        P.Upholds i Q (k (P.exec e op s).1) v' (k' (P.spec f op' t).1) := by
  obtain ⟨v', hstay | ⟨f, hinv', hrest⟩⟩ := (h s G t hinv hv hroom).2 hmay e
  · exact ⟨v', .inl hstay⟩
  · cases a with
    | ret y => exact ⟨v', .inl ⟨hinv', hrest⟩⟩
    | call op' k' => exact ⟨v', .inr ⟨f, op', k', rfl, hinv', hrest⟩⟩

/-! ### Programs that carry out others -/

section Carries

variable (P) (Idle : V → Prop)

/-- The program does what the abstract program does, from idle to idle. -/
def Carries (β : Type) (p : Prog Op Res (Option γ)) (q : Prog Op' Res' γ) : Prop :=
  ∀ (i : ι) (v : V) (g : γ → Prog Op' Res' β), Idle v →
    P.Upholds i (fun r v' a => Idle v' ∧ ∃ x, r = some x ∧ a = g x) p v (q >>= g)

variable {P Idle} {δ : Type}

theorem carries_ret (x : γ) : P.Carries Idle β (.ret (some x)) (.ret x) :=
  fun _ _ _ hv => ⟨hv, x, rfl, rfl⟩

theorem carries_ite {c : Prop} [Decidable c] {p p' : Prog Op Res (Option γ)} {q q' : Prog Op' Res' γ}
    (h : P.Carries Idle β p q) (h' : P.Carries Idle β p' q') :
    P.Carries Idle β (if c then p else p') (if c then q else q') := by
  by_cases hc : c
  · rw [if_pos hc, if_pos hc]
    exact h
  · rw [if_neg hc, if_neg hc]
    exact h'

theorem Carries.bind {p : Prog Op Res (Option γ)} {q : Prog Op' Res' γ}
    {k : Option γ → Prog Op Res (Option δ)} {g : γ → Prog Op' Res' δ}
    (h : P.Carries Idle β p q) (hk : ∀ x, P.Carries Idle β (k (some x)) (g x)) :
    P.Carries Idle β (p >>= k) (q >>= g) := by
  intro i v g' hv
  rw [Prog.bind_assoc]
  refine (h i v (fun x => g x >>= g') hv).bind ?_
  rintro r v' a ⟨hv', x, rfl, rfl⟩
  exact hk x i v' g' hv'

theorem Carries.map {p : Prog Op Res (Option γ)} {q : Prog Op' Res' γ}
    (h : P.Carries Idle β p q) (f : γ → δ) :
    P.Carries Idle β (p >>= fun r => .ret (r.map f)) (q >>= fun x => .ret (f x)) :=
  h.bind fun x => carries_ret (f x)

/-- A program with its operations replaced by programs that carry them out. -/
theorem carries_lower {f : (op : Op') → Prog Op Res (Option (Res' op))} {U : Op' → Prop}
    (hf : ∀ op, U op → P.Carries Idle β (f op) (.call op .ret)) {q : Prog Op' Res' γ}
    (hq : q.Uses U) : P.Carries Idle β (q.lower f) q := by
  induction q with
  | ret x => exact carries_ret x
  | call op k ih =>
      rw [Prog.lower_call]
      exact (hf op hq.1).bind fun r => ih r (hq.2 r)

end Carries

/-! ### Pools of threads -/

variable (P) in
/-- The threads of a pool uphold the protocol, with the threads of an abstract pool beside them. -/
def Linked (Q : α → V → Prog Op' Res' β → Prop) (c : Pool ι S Op Res α) (b : Pool ι S' Op' Res' β)
    (G : ι → V) : Prop :=
  P.inv c.shared G b.shared ∧ ∀ i, P.Upholds i Q (c.thread i) (G i) (b.thread i)

variable {c : Pool ι S Op Res α} {b : Pool ι S' Op' Res' β} {G : ι → V}

/-- What a thread is about to do is legal. -/
theorem Linked.legal (h : P.Linked Q c b G) (hroom : P.room c.shared) {i : ι} {op : Op}
    (hi : (c.thread i).next? = some op) : P.legal c.shared (G i) op := by
  have hthread := h.2 i
  cases hp : c.thread i with
  | ret x =>
      rw [hp] at hi
      cases hi
  | call op' k =>
      rw [hp, Prog.next?_call, Option.some.injEq] at hi
      subst hi
      rw [hp] at hthread
      exact (hthread c.shared G b.shared h.1 rfl hroom).1

/-- Where a thread has returned. -/
theorem Linked.returned (h : P.Linked Q c b G) {i : ι} {x : α} (hi : c.thread i = .ret x) :
    Q x (G i) (b.thread i) := by
  have hthread := h.2 i
  rwa [hi] at hthread

/-- The threads that have not moved uphold the protocol as before. -/
theorem upholds_update {p : Prog Op Res α} {v' : V} {a' : Prog Op' Res' β} {s : S} {t : S'}
    (h : ∀ j, P.Upholds j Q (c.thread j) (G j) (b.thread j)) (hi : P.Upholds i Q p v' a')
    (hinv : P.inv s (Function.update G i v') t) :
    P.Linked Q ⟨s, Function.update c.thread i p⟩ ⟨t, Function.update b.thread i a'⟩
      (Function.update G i v') := by
  refine ⟨hinv, fun j => ?_⟩
  by_cases hj : j = i
  · subst hj
    simpa using hi
  · simpa [hj] using h j

section Turns

variable {P : Protocol ι S Op Res S' Op' Res' Unit F V} {Q : α → V → Prog Op' Res' β → Prop}

/-- A turn of a thread is matched by a step of its abstract program, or by none. -/
theorem Linked.turn (h : P.Linked Q c b G) (hroom : P.room c.shared) (i : ι) :
    ∃ (f : Option F) (G' : ι → V),
      P.Linked Q (c.turn (P.exec ()) P.may i) (b.run P.spec (f.toList.map (Prod.mk i))) G' := by
  cases hw : (c.thread i).waits P.may c.shared with
  | true =>
      rw [Pool.turn_of_waits (P.exec ()) P.may hw]
      exact ⟨none, G, h⟩
  | false =>
      rw [Pool.turn_of_not_waits (P.exec ()) P.may hw]
      have hthread := h.2 i
      cases hp : c.thread i with
      | ret x =>
          have hself : c.step (fun _ : Unit => P.exec ()) (i, ()) = c := by
            rw [Pool.step, hp, Prog.step_ret, ← hp, Function.update_eq_self]
          rw [hself]
          exact ⟨none, G, h⟩
      | call op k =>
          rw [hp] at hthread hw
          have hmay : P.may c.shared op = true := by simpa [Prog.waits] using hw
          have hstep : c.step (fun _ : Unit => P.exec ()) (i, ()) =
              ⟨(P.exec () op c.shared).2, Function.update c.thread i (k (P.exec () op c.shared).1)⟩ := by
            rw [Pool.step, hp, Prog.step_call]
          rw [hstep]
          obtain ⟨v', hv'⟩ := (hthread c.shared G b.shared h.1 rfl hroom).2 hmay ()
          obtain ⟨hinv, hrest⟩ | ⟨f, hinv, hrest⟩ := hv'
          · have hlinked := upholds_update h.2 hrest hinv
            rw [Function.update_eq_self] at hlinked
            exact ⟨none, _, hlinked⟩
          · exact ⟨some f, _, upholds_update h.2 hrest hinv⟩

/-- The abstract steps that match turns, `none` for a turn that none matches. -/
def matched (is : List ι) (fs : List (Option F)) : List (ι × F) :=
  (is.zip fs).flatMap fun (i, f) => f.toList.map (Prod.mk i)

/-- **Simulation.**  A run of the threads is matched by a run of the abstract programs, turn by turn. -/
theorem Linked.turns {is : List ι} (h : P.Linked Q c b G)
    (hroom : Machine.Along (Pool.turn (P.exec ()) P.may) (fun c _ => P.room c.shared) c is) :
    ∃ fs : List (Option F), fs.length = is.length ∧ ∀ n, ∃ G',
      P.Linked Q (c.turns (P.exec ()) P.may (is.take n))
        (b.run P.spec (matched (is.take n) (fs.take n))) G' := by
  induction is generalizing c b G with
  | nil =>
      refine ⟨[], rfl, fun n => ⟨G, ?_⟩⟩
      rw [List.take_nil]
      exact h
  | cons i is ih =>
      obtain ⟨f, G', h'⟩ := h.turn hroom.1 i
      obtain ⟨fs, hlen, hall⟩ := ih h' hroom.2
      refine ⟨f :: fs, congrArg (· + 1) hlen, fun n => ?_⟩
      cases n with
      | zero => exact ⟨G, h⟩
      | succ n =>
          obtain ⟨G'', h''⟩ := hall n
          refine ⟨G'', ?_⟩
          rw [← Pool.run_append] at h''
          exact h''

end Turns

end Protocol

end Interleave
