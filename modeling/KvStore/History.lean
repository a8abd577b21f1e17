/-
**Histories.**

Two descriptions of the same threads, one in small steps and one in large steps, are compared by what can be
seen from outside: who calls what, who gets which answer, and in which order.  This is kept in a history, to
which the threads add entries between their operations.  If the two histories agree at all times, and the
large steps are single operations, then each call has its effect at one instant between the entry that it
begins with and the entry that it ends with.

Protocols are put together here for this purpose: a protocol in which the abstract programs are themselves
the programs of another protocol gives a protocol for both; and a protocol gives one for threads that keep
a history.

Main definitions:

* `Interleave.Prog.atOnce`, `Interleave.runAtOnce` — a program as a single operation;
* `Interleave.logExec`, `Interleave.Prog.silent`, `Interleave.note` — operations and programs beside a
  history;
* `Interleave.Protocol.comp`, `Interleave.Protocol.logged` — the two ways to make protocols from others.

Main results:

* `Interleave.Protocol.Upholds.comp` — **simulations compose**;
* `Interleave.Protocol.Upholds.silent` — what keeps to a protocol keeps to it beside a history.
-/

import KvStore.Custody

set_option relaxedAutoImplicit false
set_option autoImplicit false

namespace Interleave

variable {ι S S' S'' Op Op' Op'' E F F' V W α β γ A : Type} {Res : Op → Type} {Res' : Op' → Type}
  {Res'' : Op'' → Type}

/-! ### One simulation on top of another -/

namespace Protocol

/-- The protocol of programs whose abstract programs have abstract programs themselves. -/
def comp (P : Protocol ι S Op Res S' Op' Res' E F V) (P' : Protocol ι S' Op' Res' S'' Op'' Res'' F F' W) :
    Protocol ι S Op Res S'' Op'' Res'' E F' (V × W) where
  exec := P.exec
  may := P.may
  spec := P'.spec
  inv := fun s G u => ∃ t, P.inv s (fun i => (G i).1) t ∧ P'.inv t (fun i => (G i).2) u
  legal := fun s v op => P.legal s v.1 op
  room := P.room

variable [DecidableEq ι] {P : Protocol ι S Op Res S' Op' Res' E F V}
  {P' : Protocol ι S' Op' Res' S'' Op'' Res'' F F' W} {i : ι} {Q : α → V → Prog Op' Res' β → Prop}
  {Q' : β → W → Prog Op'' Res'' γ → Prop}

omit [DecidableEq ι] in
/-- A thread gets something else into its custody in both protocols. -/
theorem update_pair [DecidableEq ι] (G : ι → V × W) (v : V) (w : W) :
    (fun j => (Function.update G i (v, w) j).1) = Function.update (fun j => (G j).1) i v ∧
      (fun j => (Function.update G i (v, w) j).2) = Function.update (fun j => (G j).2) i w :=
  ⟨Function.comp_update Prod.fst G i (v, w), Function.comp_update Prod.snd G i (v, w)⟩

/-- **Simulations compose**, if the abstract programs of the first are never made to wait. -/
theorem Upholds.comp (hspec : P'.exec = P.spec) (hmay : ∀ t op, P'.may t op = true)
    (hroom : ∀ t, P'.room t) {p : Prog Op Res α} {v : V} {a : Prog Op' Res' β} {w : W}
    {b : Prog Op'' Res'' γ} (h : P.Upholds i Q p v a) (h' : P'.Upholds i Q' a w b) :
    (P.comp P').Upholds i (fun x vw b => ∃ a, Q x vw.1 a ∧ P'.Upholds i Q' a vw.2 b) p (v, w) b := by
  induction p generalizing v a w b with
  | ret x => exact ⟨a, h, h'⟩
  | call op k ih =>
      rintro s G u ⟨t, hinv, hinv'⟩ hG hs
      have hv : (G i).1 = v := congrArg Prod.fst hG
      have hw : (G i).2 = w := congrArg Prod.snd hG
      refine ⟨(h s (fun j => (G j).1) t hinv hv hs).1, fun hop e => ?_⟩
      obtain ⟨v', ⟨hmoved, hrest⟩ | ⟨f, op', k', rfl, hmoved, hrest⟩⟩ := h.next hinv hv hs hop e
      · -- the abstract program stays where it is, and so does the one beside it
        obtain ⟨hfst, hsnd⟩ := update_pair (i := i) G v' w
        have hself : Function.update (fun j => (G j).2) i w = fun j => (G j).2 := by
          rw [← hw]
          exact Function.update_eq_self i _
        refine ⟨(v', w), .inl ⟨⟨t, ?_, ?_⟩, ih _ hrest h'⟩⟩
        · rw [hfst]
          exact hmoved
        · rw [hsnd, hself]
          exact hinv'
      · obtain ⟨w', hnext⟩ := h'.next hinv' hw (hroom t) (hmay t op') f
        rw [hspec] at hnext
        obtain ⟨hfst, hsnd⟩ := update_pair (i := i) G v' w'
        have hfirst : P.inv (P.exec e op s).2 (fun j => (Function.update G i (v', w') j).1)
            (P.spec f op' t).2 := by
          rw [hfst]
          exact hmoved
        refine ⟨(v', w'), ?_⟩
        obtain ⟨hmoved', hrest'⟩ | ⟨g, op'', k'', rfl, hmoved', hrest'⟩ := hnext
        · exact .inl ⟨⟨_, hfirst, hsnd ▸ hmoved'⟩, ih _ hrest hrest'⟩
        · exact .inr ⟨g, ⟨_, hfirst, hsnd ▸ hmoved'⟩, ih _ hrest hrest'⟩

end Protocol

/-! ### A program as a single operation -/

/-- The program as a single operation; a program that has returned performs none. -/
def Prog.atOnce : Prog Op Res α → Prog (Prog Op Res α) (fun _ => α) α
  | .ret a => .ret a
  | .call op k => .call (.call op k) .ret

/-- What such an operation does. -/
def runAtOnce (exec : F → (op : Op) → S → Res op × S) (f : F) (p : Prog Op Res α) (s : S) : α × S :=
  p.run (exec f) s

/-! ### Histories -/

/-- What the operations answer; an entry is not answered. -/
def LogRes (Res : Op → Type) (A : Type) : Op ⊕ A → Type
  | .inl op => Res op
  | .inr _ => Unit

/-- The operations beside a history, to which they add nothing, and the entries. -/
def logExec (exec : (op : Op) → S → Res op × S) : (op : Op ⊕ A) → S × List A → LogRes Res A op × S × List A
  | .inl op, s => ((exec op s.1).1, (exec op s.1).2, s.2)
  | .inr e, s => ((), s.1, s.2 ++ [e])

/-- An entry can always be made. -/
def logMay (may : S → Op → Bool) (s : S × List A) : Op ⊕ A → Bool
  | .inl op => may s.1 op
  | .inr _ => true

/-- A program that adds nothing to the history. -/
def Prog.silent : Prog Op Res α → Prog (Op ⊕ A) (LogRes Res A) α
  | .ret a => .ret a
  | .call op k => .call (.inl op) fun r => (k r).silent

/-- An entry in the history. -/
def note (e : A) : Prog (Op ⊕ A) (LogRes Res A) Unit := .call (.inr e) .ret

namespace Protocol

/-- The protocol of threads that keep a history, beside abstract programs that keep the same one.  An entry
is made only with something in custody of which `C` holds. -/
def logged (P : Protocol ι S Op Res S' Op' Res' E F V) (A : Type) (C : V → Prop) :
    Protocol ι (S × List A) (Op ⊕ A) (LogRes Res A) (S' × List A) (Op' ⊕ A) (LogRes Res' A) E F V where
  exec := fun e => logExec (P.exec e)
  may := logMay P.may
  spec := fun f => logExec (P.spec f)
  inv := fun s G t => P.inv s.1 G t.1 ∧ s.2 = t.2
  legal := fun s v op =>
    match op with
    | .inl op => P.legal s.1 v op
    | .inr _ => C v
  room := fun s => P.room s.1

variable [DecidableEq ι] {P : Protocol ι S Op Res S' Op' Res' E F V} {i : ι}
  {Q : α → V → Prog Op' Res' β → Prop} {C : V → Prop}

/-- What keeps to a protocol keeps to it beside a history. -/
theorem Upholds.silent {p : Prog Op Res α} {v : V} {a : Prog Op' Res' β} (h : P.Upholds i Q p v a)
    (g : β → Prog (Op' ⊕ A) (LogRes Res' A) γ) :
    (P.logged A C).Upholds i (fun x v' b => ∃ a', Q x v' a' ∧ b = (a'.silent >>= g)) p.silent v
      (a.silent >>= g) := by
  induction p generalizing v a with
  | ret x => exact ⟨a, h, rfl⟩
  | call op k ih =>
      rintro ⟨s, log⟩ G ⟨t, log'⟩ ⟨hinv, hlog⟩ hv hroom
      obtain rfl : log = log' := hlog
      refine ⟨(h s G t hinv hv hroom).1, fun hop e => ?_⟩
      obtain ⟨v', ⟨hmoved, hrest⟩ | ⟨f, op', k', rfl, hmoved, hrest⟩⟩ := h.next hinv hv hroom hop e
      · exact ⟨v', .inl ⟨⟨hmoved, rfl⟩, ih _ hrest⟩⟩
      · exact ⟨v', .inr ⟨f, ⟨hmoved, rfl⟩, ih _ hrest⟩⟩

/-- Both programs make the same entry. -/
theorem upholds_note [Nonempty F] {Q : α → V → Prog (Op' ⊕ A) (LogRes Res' A) γ → Prop} (e : A)
    {k : Unit → Prog (Op ⊕ A) (LogRes Res A) α} {g : Unit → Prog (Op' ⊕ A) (LogRes Res' A) γ} {v : V}
    (hv : C v) (h : (P.logged A C).Upholds i Q (k ()) v (g ())) :
    (P.logged A C).Upholds i Q (note e >>= k) v (note e >>= g) := by
  rintro ⟨s, log⟩ G ⟨t, log'⟩ ⟨hinv, hlog⟩ hG hroom
  obtain rfl : log = log' := hlog
  refine ⟨hv, fun _ _ => ⟨v, .inr ⟨Classical.arbitrary F, ⟨?_, rfl⟩, h⟩⟩⟩
  rw [← hG, Function.update_eq_self]
  exact hinv

end Protocol

end Interleave
