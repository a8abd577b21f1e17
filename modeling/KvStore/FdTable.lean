/-
**Tables that hand out the lowest free number.**

The descriptors of a process are numbers, and whoever obtains a new one is given the lowest number that
is free.  So a number is taken for the same thing by all who remember it only as long as it is not
closed: the next one who obtains a descriptor may be given the same number.

This module is about such a table and two of its numbers.  All numbers below the larger one are taken
for good, except for the smaller one.  Then the order in which things are obtained and given back says
what the two numbers stand for, without a look at any other number: what is obtained goes to the first
of the two that is free.

Main definitions:

* `FdTable`, `FdTable.put`, `FdTable.close` — tables, and what is done with them;
* `FdTable.Cells`, `FdTable.Cells.put`, `FdTable.Cells.clear` — two numbers of a table on their own;
* `FdTable.StandsFor` — what a number stands for, in the table and for those who remember it;
* `FdTable.Tracked` — two numbers stand for what the cells say.

Main results:

* `FdTable.get_put`, `FdTable.get_close` — what a number stands for;
* `FdTable.Tracked.put`, `FdTable.Tracked.giveBack`, `FdTable.Tracked.closeHigh` — **the two numbers are
  followed** through everything that is done with the table.
-/

import Mathlib.Data.List.Basic
import Mathlib.Logic.Function.Basic

set_option relaxedAutoImplicit false
set_option autoImplicit false

/-- What the numbers stand for, from 0 on. -/
abbrev FdTable (α : Type) := List (Option α)

namespace FdTable

variable {α : Type}

/-! ### Tables -/

/-- What a number stands for. -/
def get : FdTable α → ℕ → Option α
  | [], _ => none
  | slot :: _, 0 => slot
  | _ :: t, n + 1 => get t n

/-- The lowest free number. -/
def lowest : FdTable α → ℕ
  | [] => 0
  | none :: _ => 0
  | some _ :: t => lowest t + 1

/-- `x` obtains the lowest free number. -/
def put (x : α) : FdTable α → FdTable α
  | [] => [some x]
  | none :: t => some x :: t
  | some y :: t => some y :: put x t

/-- `close`: the number is free, whatever it stood for. -/
def close : FdTable α → ℕ → FdTable α
  | [], _ => []
  | _ :: t, 0 => none :: t
  | slot :: t, n + 1 => slot :: close t n

theorem get_lowest (t : FdTable α) : get t (lowest t) = none := by
  induction t with
  | nil => rfl
  | cons slot t ih =>
      cases slot with
      | none => rfl
      | some y => exact ih

theorem isSome_of_lt_lowest {t : FdTable α} {n : ℕ} (h : n < lowest t) : (get t n).isSome := by
  induction t generalizing n with
  | nil => exact absurd h (Nat.not_lt_zero n)
  | cons slot t ih =>
      cases slot with
      | none => exact absurd h (Nat.not_lt_zero n)
      | some y =>
          cases n with
          | zero => rfl
          | succ n => exact ih (Nat.lt_of_succ_lt_succ h)

/-- A number is the lowest free one if it is free and all below it are taken. -/
theorem lowest_eq {t : FdTable α} {n : ℕ} (hn : get t n = none)
    (h : ∀ m < n, (get t m).isSome) : lowest t = n := by
  rcases Nat.lt_trichotomy (lowest t) n with hlt | heq | hgt
  · have htaken := h _ hlt
    rw [get_lowest] at htaken
    cases htaken
  · exact heq
  · have htaken := isSome_of_lt_lowest hgt
    rw [hn] at htaken
    cases htaken

/-- All numbers up to one that is taken, with all below it, are below the lowest free one. -/
theorem lt_lowest {t : FdTable α} {n : ℕ} (h : ∀ m ≤ n, (get t m).isSome) : n < lowest t := by
  by_contra hle
  have htaken := h _ (Nat.le_of_not_lt hle)
  rw [get_lowest] at htaken
  cases htaken

/-- What a number stands for after `x` has obtained one. -/
theorem get_put (x : α) (t : FdTable α) (n : ℕ) :
    get (put x t) n = if n = lowest t then some x else get t n := by
  induction t generalizing n with
  | nil =>
      cases n with
      | zero => rfl
      | succ n => rfl
  | cons slot t ih =>
      cases slot with
      | none =>
          cases n with
          | zero => rfl
          | succ n => rfl
      | some y =>
          cases n with
          | zero => rfl
          | succ n =>
              have hrec := ih n
              simp only [put, get, lowest, Nat.add_right_cancel_iff]
              exact hrec

/-- What a number stands for after `n` has been closed. -/
theorem get_close (t : FdTable α) (n m : ℕ) :
    get (close t n) m = if m = n then none else get t m := by
  induction t generalizing n m with
  | nil => simp [get, close]
  | cons slot t ih =>
      cases n with
      | zero =>
          cases m with
          | zero => rfl
          | succ m => rfl
      | succ n =>
          cases m with
          | zero => rfl
          | succ m =>
              have hrec := ih n m
              simp only [close, get, Nat.add_right_cancel_iff]
              exact hrec

/-! ### Two numbers on their own -/

/-- What two numbers stand for. -/
structure Cells (α : Type) where
  low : Option α
  high : Option α

namespace Cells

/-- What is obtained goes to the first of the two that is free, or elsewhere. -/
def put (c : Cells α) (x : α) : Cells α :=
  if c.low = none then { c with low := some x }
  else if c.high = none then { c with high := some x }
  else c

/-- What is given back leaves its place free. -/
def clear [DecidableEq α] (c : Cells α) (x : α) : Cells α where
  low := if c.low = some x then none else c.low
  high := if c.high = some x then none else c.high

/-- The larger number is closed. -/
def closeHigh (c : Cells α) : Cells α := { c with high := none }

end Cells

/-! ### Following one number -/

/-- In the table `t` the number `k` stands for `d`.  The owner of `x` remembers the number `fd x` for
it, and for what satisfies `P` this is `k` exactly if `k` stands for it. -/
structure StandsFor (P : α → Prop) (t : FdTable α) (fd : α → Option ℕ) (k : ℕ) (d : Option α) :
    Prop where
  get_eq : get t k = d
  iff : ∀ x, P x → (d = some x ↔ fd x = some k)

namespace StandsFor

variable {P : α → Prop} {t : FdTable α} {fd : α → Option ℕ} {k n : ℕ} {d : Option α} {x : α}

/-- Something new obtains a number. -/
theorem put [DecidableEq α] (h : StandsFor P t fd k d) (hx : P x) (hnew : fd x = none) :
    StandsFor P (FdTable.put x t) (Function.update fd x (some (lowest t))) k
      (if lowest t = k then some x else d) := by
  have hother : d ≠ some x := by
    intro hd
    have hsome := (h.iff x hx).1 hd
    rw [hnew] at hsome
    cases hsome
  by_cases hk : lowest t = k
  · have hfree : d = none := by
      rw [← h.get_eq, ← hk, get_lowest]
    rw [if_pos hk]
    refine ⟨?_, fun y hy => ?_⟩
    · rw [get_put, if_pos hk.symm]
    · by_cases hyx : y = x
      · subst hyx
        rw [Function.update_self, hk]
        simp
      · rw [Function.update_of_ne hyx, ← h.iff y hy, hfree]
        simp [Ne.symm hyx]
  · rw [if_neg hk]
    refine ⟨?_, fun y hy => ?_⟩
    · rw [get_put, if_neg (Ne.symm hk), h.get_eq]
    · by_cases hyx : y = x
      · subst hyx
        rw [Function.update_self]
        simp [hother, hk]
      · rw [Function.update_of_ne hyx]
        exact h.iff y hy

/-- The owner of `x` gives its number back. -/
theorem giveBack [DecidableEq α] (h : StandsFor P t fd k d) (hx : P x) (hn : fd x = some n) :
    StandsFor P (close t n) (Function.update fd x none) k (if d = some x then none else d) := by
  have hiff : d = some x ↔ n = k := by
    rw [h.iff x hx, hn, Option.some.injEq]
  by_cases hd : d = some x
  · rw [if_pos hd]
    refine ⟨?_, fun y hy => ?_⟩
    · rw [get_close, if_pos (hiff.1 hd).symm]
    · by_cases hyx : y = x
      · subst hyx
        simp
      · rw [Function.update_of_ne hyx, ← h.iff y hy, hd]
        simp [Ne.symm hyx]
  · rw [if_neg hd]
    refine ⟨?_, fun y hy => ?_⟩
    · rw [get_close, if_neg fun hk => hd (hiff.2 hk.symm), h.get_eq]
    · by_cases hyx : y = x
      · subst hyx
        rw [Function.update_self]
        simp [hd]
      · rw [Function.update_of_ne hyx]
        exact h.iff y hy

/-- Another number is closed. -/
theorem close_of_ne (h : StandsFor P t fd k d) (hn : k ≠ n) : StandsFor P (close t n) fd k d where
  get_eq := by rw [get_close, if_neg hn, h.get_eq]
  iff := h.iff

/-- The number is closed while it stands for nothing that anyone remembers. -/
theorem close_self (h : StandsFor P t fd k d) (hd : ∀ x, P x → d ≠ some x) :
    StandsFor P (close t k) fd k none where
  get_eq := by rw [get_close, if_pos rfl]
  iff := fun x hx => by
    rw [← h.iff x hx]
    exact ⟨nofun, fun hx' => absurd hx' (hd x hx)⟩

end StandsFor

/-! ### Following two numbers -/

/-- Two numbers `a` and `b` of the table `t` are followed: they stand for what the cells say, and all
other numbers below `b` are taken, none of them by what satisfies `P`. -/
structure Tracked (P : α → Prop) (t : FdTable α) (fd : α → Option ℕ) (a b : ℕ) (c : Cells α) :
    Prop where
  lt : a < b
  low : StandsFor P t fd a c.low
  high : StandsFor P t fd b c.high
  taken : ∀ m < b, m ≠ a → (get t m).isSome
  above : ∀ x n, P x → fd x = some n → n = a ∨ b ≤ n

namespace Tracked

variable {P : α → Prop} {t : FdTable α} {fd : α → Option ℕ} {a b : ℕ} {c : Cells α}

/-- What is obtained goes to the cell whose number is the lowest free one. -/
theorem cells_put (h : Tracked P t fd a b c) (x : α) :
    c.put x = ⟨if lowest t = a then some x else c.low, if lowest t = b then some x else c.high⟩ := by
  have hbelow : ∀ m < a, (get t m).isSome := fun m hm =>
    h.taken m (Nat.lt_trans hm h.lt) (Nat.ne_of_lt hm)
  have hne : a ≠ b := Nat.ne_of_lt h.lt
  by_cases hlow : c.low = none
  · have hlowest : lowest t = a := lowest_eq (h.low.get_eq.trans hlow) hbelow
    rw [Cells.put, if_pos hlow, hlowest, if_pos rfl, if_neg hne]
  · have htaken : ∀ m < b, (get t m).isSome := by
      intro m hm
      by_cases hma : m = a
      · rw [hma, h.low.get_eq]
        exact Option.isSome_iff_ne_none.2 hlow
      · exact h.taken m hm hma
    by_cases hhigh : c.high = none
    · have hlowest : lowest t = b := lowest_eq (h.high.get_eq.trans hhigh) htaken
      rw [Cells.put, if_neg hlow, if_pos hhigh, hlowest, if_neg hne.symm, if_pos rfl]
    · have hlowest : b < lowest t := by
        refine lt_lowest fun m hm => ?_
        rcases Nat.lt_or_eq_of_le hm with hlt | heq
        · exact htaken m hlt
        · rw [heq, h.high.get_eq]
          exact Option.isSome_iff_ne_none.2 hhigh
      have hlt := h.lt
      rw [Cells.put, if_neg hlow, if_neg hhigh, if_neg (by omega), if_neg (by omega)]

/-- Something new obtains a number. -/
theorem put [DecidableEq α] (h : Tracked P t fd a b c) {x : α} (hx : P x) (hnew : fd x = none) :
    Tracked P (FdTable.put x t) (Function.update fd x (some (lowest t))) a b (c.put x) := by
  rw [h.cells_put x]
  refine ⟨h.lt, h.low.put hx hnew, h.high.put hx hnew, ?_, ?_⟩
  · intro m hm hma
    rw [get_put]
    split
    · rfl
    · exact h.taken m hm hma
  · intro y n hy hn
    by_cases hyx : y = x
    · subst hyx
      rw [Function.update_self, Option.some.injEq] at hn
      -- the numbers below `b` other than `a` are not free
      by_contra hnot
      rw [not_or, Nat.not_le, ← hn] at hnot
      have htaken := h.taken _ hnot.2 hnot.1
      rw [get_lowest] at htaken
      cases htaken
    · rw [Function.update_of_ne hyx] at hn
      exact h.above y n hy hn

/-- The owner of `x` gives its number back. -/
theorem giveBack [DecidableEq α] (h : Tracked P t fd a b c) {x : α} (hx : P x) {n : ℕ}
    (hn : fd x = some n) :
    Tracked P (close t n) (Function.update fd x none) a b (c.clear x) := by
  refine ⟨h.lt, h.low.giveBack hx hn, h.high.giveBack hx hn, ?_, ?_⟩
  · intro m hm hma
    have hmn : m ≠ n := by
      rcases h.above x n hx hn with heq | hle
      · exact heq ▸ hma
      · omega
    rw [get_close, if_neg hmn]
    exact h.taken m hm hma
  · intro y k hy hk
    by_cases hyx : y = x
    · subst hyx
      rw [Function.update_self] at hk
      cases hk
    · rw [Function.update_of_ne hyx] at hk
      exact h.above y k hy hk

/-- The larger number is closed while it stands for nothing that anyone remembers. -/
theorem closeHigh (h : Tracked P t fd a b c) (hd : ∀ x, P x → c.high ≠ some x) :
    Tracked P (close t b) fd a b c.closeHigh := by
  refine ⟨h.lt, h.low.close_of_ne (Nat.ne_of_lt h.lt), h.high.close_self hd, ?_, h.above⟩
  intro m hm hma
  rw [get_close, if_neg (Nat.ne_of_lt hm)]
  exact h.taken m hm hma

end Tracked

end FdTable
