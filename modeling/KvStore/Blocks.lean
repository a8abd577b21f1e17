/-
**Blocks of memory and who owns them.**

An allocator hands out blocks and takes them back.  What matters about a block is whether it is live:
whether it has been handed out and not been given back since.  A new block may be any one that is not
live, also one that was live before, and there may be none.

What a data structure owns is a list of blocks.  That it accounts for the live blocks means that it owns
all of them, and none of them twice: then nothing is lost, and nothing is given back twice.

Main definitions:

* `Blocks.alloc`, `Blocks.free` — the allocator, as a function of the live blocks;
* `Blocks.Accounts` — the list is exactly what is live.

Main results:

* `Blocks.Accounts.cons`, `Blocks.Accounts.uncons` — **the account is kept** when a block is handed out
  and added to the list, and when it is taken out of the list and given back;
* `Blocks.Accounts.length_eq` — the list is as long as there are live blocks.
-/

import Mathlib.Data.Finset.Card
import Mathlib.Data.Finset.Dedup

set_option relaxedAutoImplicit false
set_option autoImplicit false

namespace Blocks

variable {α : Type}

section Allocator

variable [DecidableEq α]

/-- The allocator, where it would hand out `p`: it answers with that block if it is not live, and with
none otherwise. -/
def alloc (live : Finset α) (p : Option α) : Option α × Finset α :=
  match p with
  | none => (none, live)
  | some a => if a ∈ live then (none, live) else (some a, insert a live)

/-- A block is given back; nothing happens where the pointer is `NULL`. -/
def free (live : Finset α) (p : Option α) : Finset α :=
  match p with
  | none => live
  | some a => live.erase a

/-- A block is found for `p`. -/
def Found (live : Finset α) (p : Option α) : Prop := ∃ a, p = some a ∧ a ∉ live

instance (live : Finset α) (p : Option α) : Decidable (Found live p) :=
  match p with
  | none => isFalse fun ⟨_, h, _⟩ => Option.some_ne_none _ h.symm
  | some a => decidable_of_iff (a ∉ live) (by simp [Found])

theorem alloc_of_found {live : Finset α} {a : α} (h : a ∉ live) :
    alloc live (some a) = (some a, insert a live) := if_neg h

theorem alloc_of_not_found {live : Finset α} {p : Option α} (h : ¬ Found live p) :
    alloc live p = (none, live) := by
  cases p with
  | none => rfl
  | some a => exact if_pos (by simpa [Found] using h)

end Allocator

/-- The blocks of the list are the live ones, and no block is in it twice. -/
structure Accounts (live : Finset α) (blocks : List α) : Prop where
  nodup : blocks.Nodup
  mem_iff : ∀ a, a ∈ live ↔ a ∈ blocks

namespace Accounts

variable {live : Finset α} {xs ys : List α} {a : α}

theorem empty : Accounts (∅ : Finset α) [] := ⟨List.nodup_nil, by simp⟩

theorem mem (h : Accounts live xs) (ha : a ∈ xs) : a ∈ live := (h.mem_iff a).2 ha

theorem notMem (h : Accounts live xs) (ha : a ∉ live) : a ∉ xs := mt (h.mem_iff a).2 ha

/-- The order does not matter. -/
theorem perm (h : Accounts live xs) (hp : xs.Perm ys) : Accounts live ys where
  nodup := hp.nodup_iff.1 h.nodup
  mem_iff := fun a => (h.mem_iff a).trans hp.mem_iff

/-- Two blocks of the list change their places. -/
theorem exchange {b : α} (h : Accounts live (a :: (xs ++ b :: ys))) :
    Accounts live (b :: (xs ++ a :: ys)) := by
  have hb : (a :: (xs ++ b :: ys)).Perm (b :: a :: (xs ++ ys)) :=
    (List.perm_middle.cons a).trans (List.Perm.swap ..)
  exact h.perm (hb.trans (List.perm_middle.symm.cons b))

variable [DecidableEq α]

/-- A list that accounts for the live blocks is as long as there are such blocks. -/
theorem length_eq (h : Accounts live xs) : xs.length = live.card := by
  have hlive : live = xs.toFinset := by
    ext a
    rw [h.mem_iff, List.mem_toFinset]
  rw [hlive, List.toFinset_card_of_nodup h.nodup]

/-- A new block is put into the list. -/
theorem cons (h : Accounts live xs) (ha : a ∉ live) : Accounts (insert a live) (a :: xs) where
  nodup := List.nodup_cons.2 ⟨h.notMem ha, h.nodup⟩
  mem_iff := by
    intro b
    rw [Finset.mem_insert, h.mem_iff, List.mem_cons]

/-- A block is taken out of the list and given back. -/
theorem uncons (h : Accounts live (a :: xs)) : Accounts (live.erase a) xs where
  nodup := (List.nodup_cons.1 h.nodup).2
  mem_iff := by
    intro b
    rw [Finset.mem_erase, h.mem_iff, List.mem_cons]
    constructor
    · rintro ⟨hne, rfl | hb⟩
      · exact absurd rfl hne
      · exact hb
    · intro hb
      exact ⟨fun hba => (List.nodup_cons.1 h.nodup).1 (hba ▸ hb), .inr hb⟩

end Accounts

end Blocks
