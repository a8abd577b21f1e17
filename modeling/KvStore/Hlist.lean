/-
**Lists with a single head pointer.**

Where many lists are kept and most of them are short, a list is often one pointer to its first node.
Every node then holds, besides the pointer to the next node, the *place* of the pointer to itself: the
head, or the `next` field of the node before it.  With it a node is taken out without a search, and
without a case for the first one.

The links are an assignment of pointers to places, and of places to nodes; what else is in a node is
not part of this module.

Main definitions:

* `Hlist.Slot`, `Hlist.Links` — places, and what they hold;
* `Hlist.Links.addHead`, `Hlist.Links.del` — the two operations, pointer by pointer;
* `Hlist.Links.Chain` — the nodes of a list, in their order;
* `Hlist.Links.Reaches` — a node is found from a place by following pointers.

Main results:

* `Hlist.Links.chain_addHead`, `Hlist.Links.chain_del` — **the operations do to the nodes what they
  should**;
* `Hlist.Links.Chain.addHead_of_disjoint`, `Hlist.Links.Chain.del_of_disjoint` — and they leave the other
  lists alone;
* `Hlist.Links.Chain.mem_of_reaches` — nothing but the nodes of a list is found from its place.
-/

import Mathlib.Data.List.Basic
import Mathlib.Data.List.Nodup
import Mathlib.Logic.Function.Basic

set_option relaxedAutoImplicit false
set_option autoImplicit false

namespace Hlist

/-- A place that holds a pointer to a node: a head, or the `next` field of a node. -/
inductive Slot (ι α : Type)
  | head (i : ι)
  | next (a : α)
deriving DecidableEq

/-- What the places hold, and for each node its `pprev` field: the place of the pointer to it. -/
structure Links (ι α : Type) where
  slot : Slot ι α → Option α
  pprev : α → Slot ι α

namespace Links

variable {ι α : Type}

section Tell

variable [DecidableEq α]

/-- The `pprev` field of a node is set. -/
def storePprev (l : Links ι α) (a : α) (s : Slot ι α) : Links ι α :=
  { l with pprev := Function.update l.pprev a s }

/-- The node that `p` points to, if there is one, is told the place of the pointer to it. -/
def tell (l : Links ι α) (p : Option α) (s : Slot ι α) : Links ι α :=
  match p with
  | none => l
  | some a => l.storePprev a s

@[simp] theorem slot_tell (l : Links ι α) (p : Option α) (s : Slot ι α) :
    (l.tell p s).slot = l.slot := by
  cases p <;> rfl

theorem pprev_tell (l : Links ι α) (p : Option α) (s : Slot ι α) (b : α) :
    (l.tell p s).pprev b = if p = some b then s else l.pprev b := by
  cases p with
  | none => rfl
  | some a =>
      by_cases hb : b = a
      · subst hb
        simp [tell, storePprev]
      · simp [tell, storePprev, hb, Ne.symm hb]

end Tell

section Operations

variable [DecidableEq ι] [DecidableEq α]

/-- A pointer is stored in a place. -/
def store (l : Links ι α) (s : Slot ι α) (p : Option α) : Links ι α :=
  { l with slot := Function.update l.slot s p }

/-- A node is put before the first one. -/
def addHead (l : Links ι α) (a : α) (i : ι) : Links ι α :=
  (((l.store (.next a) (l.slot (.head i))).tell (l.slot (.head i)) (.next a)).store (.head i)
    (some a)).storePprev a (.head i)

/-- A node is taken out, and its own fields are set to `p` and `s`. -/
def del (l : Links ι α) (a : α) (p : Option α) (s : Slot ι α) : Links ι α :=
  (((l.store (l.pprev a) (l.slot (.next a))).tell (l.slot (.next a)) (l.pprev a)).store (.next a)
    p).storePprev a s

theorem slot_addHead (l : Links ι α) (a : α) (i : ι) (t : Slot ι α) :
    (l.addHead a i).slot t =
      if t = .head i then some a else if t = .next a then l.slot (.head i) else l.slot t := by
  simp [addHead, store, storePprev, Function.update_apply]

theorem pprev_addHead (l : Links ι α) (a : α) (i : ι) (b : α) :
    (l.addHead a i).pprev b =
      if b = a then .head i else if l.slot (.head i) = some b then .next a else l.pprev b := by
  simp only [addHead, store, storePprev, Function.update_apply, pprev_tell]

theorem slot_del (l : Links ι α) (a : α) (p : Option α) (s t : Slot ι α) :
    (l.del a p s).slot t =
      if t = .next a then p else if t = l.pprev a then l.slot (.next a) else l.slot t := by
  simp [del, store, storePprev, Function.update_apply]

theorem pprev_del (l : Links ι α) (a : α) (p : Option α) (s : Slot ι α) (b : α) :
    (l.del a p s).pprev b =
      if b = a then s else if l.slot (.next a) = some b then l.pprev a else l.pprev b := by
  simp only [del, store, storePprev, Function.update_apply, pprev_tell]

end Operations

/-! ### Chains -/

/-- The nodes that are found from the place `s` on, in their order; each of them knows the place of the
pointer to it. -/
def Chain (l : Links ι α) : Slot ι α → List α → Prop
  | s, [] => l.slot s = none
  | s, a :: as => l.slot s = some a ∧ l.pprev a = s ∧ l.Chain (.next a) as

@[simp] theorem chain_nil {l : Links ι α} {s : Slot ι α} : l.Chain s [] ↔ l.slot s = none := Iff.rfl

@[simp] theorem chain_cons {l : Links ι α} {s : Slot ι α} {a : α} {as : List α} :
    l.Chain s (a :: as) ↔ l.slot s = some a ∧ l.pprev a = s ∧ l.Chain (.next a) as := Iff.rfl

/-- The first node. -/
theorem Chain.head?_eq {l : Links ι α} {s : Slot ι α} {as : List α} (h : l.Chain s as) :
    l.slot s = as.head? := by
  cases as with
  | nil => exact h
  | cons a as => exact h.1

/-- A chain depends on the places and the nodes that make it up. -/
theorem Chain.congr {l l' : Links ι α} {s : Slot ι α} {as : List α} (h : l.Chain s as)
    (hs : l'.slot s = l.slot s) (hslot : ∀ a ∈ as, l'.slot (.next a) = l.slot (.next a))
    (hpprev : ∀ a ∈ as, l'.pprev a = l.pprev a) : l'.Chain s as := by
  induction as generalizing s with
  | nil => exact hs.trans h
  | cons a as ih =>
      obtain ⟨ha, hp, hrest⟩ := h
      refine ⟨hs.trans ha, (hpprev a List.mem_cons_self).trans hp, ?_⟩
      exact ih hrest (hslot a List.mem_cons_self) (fun b hb => hslot b (List.mem_cons_of_mem _ hb))
        fun b hb => hpprev b (List.mem_cons_of_mem _ hb)

/-- What follows a node of a chain is a chain. -/
theorem Chain.drop {l : Links ι α} {s : Slot ι α} {xs ys : List α} {a : α}
    (h : l.Chain s (xs ++ a :: ys)) : l.Chain (.next a) ys := by
  induction xs generalizing s with
  | nil => exact h.2.2
  | cons x xs ih => exact ih h.2.2

/-- The pointer to a node of a chain is where the chain starts, or in a node before it. -/
theorem Chain.pprev_mem {l : Links ι α} {s : Slot ι α} {xs ys : List α} {a : α}
    (h : l.Chain s (xs ++ a :: ys)) : l.pprev a = s ∨ ∃ x ∈ xs, l.pprev a = .next x := by
  induction xs generalizing s with
  | nil => exact .inl h.2.1
  | cons x xs ih =>
      obtain hx | ⟨y, hy, hay⟩ := ih h.2.2
      · exact .inr ⟨x, List.mem_cons_self, hx⟩
      · exact .inr ⟨y, List.mem_cons_of_mem _ hy, hay⟩

/-- The place of the pointer to a node of a chain is not one of another chain. -/
theorem Chain.pprev_ne {l : Links ι α} {s t : Slot ι α} {xs ys : List α} {a : α}
    (h : l.Chain s (xs ++ a :: ys)) (hs : t ≠ s) (ht : ∀ x ∈ xs, t ≠ .next x) : t ≠ l.pprev a := by
  obtain hp | ⟨x, hx, hp⟩ := h.pprev_mem
  · rwa [hp]
  · rw [hp]
    exact ht x hx

/-- A node is found from a place by following pointers. -/
inductive Reaches (l : Links ι α) : Slot ι α → α → Prop
  | here {s : Slot ι α} {a : α} : l.slot s = some a → l.Reaches s a
  | there {s : Slot ι α} {a b : α} : l.slot s = some a → l.Reaches (.next a) b → l.Reaches s b

/-- The nodes of a chain are found from its place. -/
theorem Chain.reaches_of_mem {l : Links ι α} {s : Slot ι α} {as : List α} (h : l.Chain s as) {b : α}
    (hb : b ∈ as) : l.Reaches s b := by
  induction as generalizing s with
  | nil => cases hb
  | cons a as ih =>
      rcases List.mem_cons.1 hb with rfl | hb
      · exact .here h.1
      · exact .there h.1 (ih h.2.2 hb)

/-- Nothing but the nodes of a chain is found from its place; for this the `pprev` fields do not
matter. -/
theorem Chain.mem_of_reaches {l l' : Links ι α} {s : Slot ι α} {as : List α} (h : l.Chain s as)
    (hs : l'.slot s = l.slot s) (hslot : ∀ a ∈ as, l'.slot (.next a) = l.slot (.next a)) {b : α}
    (hb : l'.Reaches s b) : b ∈ as := by
  induction as generalizing s with
  | nil =>
      have hnone : l'.slot s = none := hs.trans h
      cases hb with
      | here ha => simp [hnone] at ha
      | there ha _ => simp [hnone] at ha
  | cons a as ih =>
      have hsome : l'.slot s = some a := hs.trans h.1
      cases hb with
      | here ha =>
          obtain rfl : a = b := by simpa [hsome] using ha
          exact List.mem_cons_self
      | there ha hrest =>
          obtain rfl : a = _ := by simpa [hsome] using ha
          refine List.mem_cons_of_mem _ (ih h.2.2 (hslot a List.mem_cons_self) ?_ hrest)
          exact fun b hb => hslot b (List.mem_cons_of_mem _ hb)

/-! ### The operations on chains -/

variable [DecidableEq ι] [DecidableEq α]

/-- A new node becomes the first one. -/
theorem chain_addHead {l : Links ι α} {i : ι} {as : List α} (h : l.Chain (.head i) as)
    (hnd : as.Nodup) {a : α} (ha : a ∉ as) : (l.addHead a i).Chain (.head i) (a :: as) := by
  refine ⟨by simp [slot_addHead], by simp [pprev_addHead], ?_⟩
  cases as with
  | nil => simpa [slot_addHead] using h
  | cons b as =>
      obtain ⟨hb, -, hrest⟩ := h
      obtain ⟨hab, haas⟩ := not_or.1 (mt List.mem_cons.2 ha)
      have hbas : b ∉ as := (List.nodup_cons.1 hnd).1
      refine ⟨by simp [slot_addHead, hb], by simp [pprev_addHead, hb, Ne.symm hab], ?_⟩
      refine hrest.congr (by simp [slot_addHead, Ne.symm hab]) ?_ ?_
      · intro c hc
        have hca : c ≠ a := fun hca => haas (hca ▸ hc)
        simp [slot_addHead, hca]
      · intro c hc
        have hca : c ≠ a := fun hca => haas (hca ▸ hc)
        have hbc : b ≠ c := fun hbc => hbas (hbc ▸ hc)
        simp [pprev_addHead, hb, hca, hbc]

/-- Another chain is left alone by a new node. -/
theorem Chain.addHead_of_disjoint {l : Links ι α} {i j : ι} {as bs : List α} (h : l.Chain (.head j) bs)
    (hi : l.Chain (.head i) as) (hij : j ≠ i) (hdisj : ∀ a ∈ as, a ∉ bs) {a : α} (ha : a ∉ bs) :
    (l.addHead a i).Chain (.head j) bs := by
  have hne : ∀ b ∈ bs, b ≠ a := fun b hb hba => ha (hba ▸ hb)
  refine h.congr (by simp [slot_addHead, hij]) (fun b hb => by simp [slot_addHead, hne b hb]) ?_
  intro b hb
  have hfirst : l.slot (.head i) ≠ some b := by
    intro hb'
    rw [hi.head?_eq] at hb'
    exact hdisj b (List.mem_of_mem_head? hb') hb
  simp [pprev_addHead, hne b hb, hfirst]

/-- A node is taken out of the middle of a chain. -/
theorem chain_del {l : Links ι α} {s : Slot ι α} {xs ys : List α} {a : α}
    (h : l.Chain s (xs ++ a :: ys)) (hnd : (xs ++ a :: ys).Nodup)
    (hs : ∀ b ∈ xs ++ a :: ys, s ≠ .next b) (p : Option α) (t : Slot ι α) :
    (l.del a p t).Chain s (xs ++ ys) := by
  induction xs generalizing s with
  | nil =>
      obtain ⟨-, hpa, hrest⟩ := h
      have hsa : s ≠ .next a := hs a List.mem_cons_self
      cases ys with
      | nil => simpa [slot_del, hpa, hsa] using hrest
      | cons y ys =>
          obtain ⟨hy, -, hrest⟩ := hrest
          obtain ⟨hays, hnd⟩ := List.nodup_cons.1 hnd
          obtain ⟨hay, haas⟩ := not_or.1 (mt List.mem_cons.2 hays)
          have hyys : y ∉ ys := (List.nodup_cons.1 hnd).1
          have hplace : ∀ b ∈ y :: ys, (Slot.next b : Slot ι α) ≠ l.pprev a ∧ b ≠ a := by
            intro b hb
            exact ⟨by rw [hpa]; exact Ne.symm (hs b (List.mem_cons_of_mem _ hb)),
              fun hba => hays (hba ▸ hb)⟩
          refine ⟨by simp [slot_del, hpa, hsa, hy], by simp [pprev_del, hy, Ne.symm hay, hpa], ?_⟩
          refine hrest.congr ?_ ?_ ?_
          · simp [slot_del, hplace y List.mem_cons_self]
          · intro b hb
            simp [slot_del, hplace b (List.mem_cons_of_mem _ hb)]
          · intro b hb
            have hyb : y ≠ b := fun hyb => hyys (hyb ▸ hb)
            simp [pprev_del, hy, hyb, (hplace b (List.mem_cons_of_mem _ hb)).2]
  | cons x xs ih =>
      obtain ⟨hx, hpx, hrest⟩ := h
      obtain ⟨hxs, hnd⟩ := List.nodup_cons.1 hnd
      have hmem : ∀ b ∈ xs ++ a :: ys, x ≠ b := fun b hb hxb => hxs (hxb ▸ hb)
      have hxa : x ≠ a := hmem a (by simp)
      -- neither the place nor the first node is touched
      have hsa : s ≠ .next a := hs a (by simp)
      have hspprev : s ≠ l.pprev a :=
        hrest.pprev_ne (hs x List.mem_cons_self) fun z hz => hs z (by simp [hz])
      have hnext : l.slot (.next a) ≠ some x := by
        intro hax
        rw [hrest.drop.head?_eq] at hax
        exact hmem x (by simp [List.mem_of_mem_head? hax]) rfl
      refine ⟨by simp [slot_del, hsa, hspprev, hx], by simp [pprev_del, hxa, hnext, hpx], ?_⟩
      exact ih hrest hnd fun b hb hxb => hmem b hb (Slot.next.inj hxb)

/-- Another chain is left alone when a node is taken out. -/
theorem Chain.del_of_disjoint {l : Links ι α} {s s' : Slot ι α} {xs ys bs : List α} {a : α}
    (h : l.Chain s' bs) (hs : l.Chain s (xs ++ a :: ys)) (hss' : s' ≠ s)
    (hdisj : ∀ b ∈ bs, b ∉ xs ++ a :: ys) (hs' : ∀ b ∈ xs ++ a :: ys, s' ≠ .next b)
    (hnext : ∀ b ∈ bs, s ≠ .next b) (p : Option α) (t : Slot ι α) : (l.del a p t).Chain s' bs := by
  have hplace : ∀ {r : Slot ι α}, r ≠ s → (∀ b ∈ xs ++ a :: ys, r ≠ .next b) →
      (l.del a p t).slot r = l.slot r := by
    intro r hrs hr
    have hra : r ≠ .next a := hr a (by simp)
    have hrp : r ≠ l.pprev a := hs.pprev_ne hrs fun x hx => hr x (by simp [hx])
    simp [slot_del, hra, hrp]
  refine h.congr (hplace hss' hs') ?_ ?_
  · intro b hb
    refine hplace (Ne.symm (hnext b hb)) ?_
    intro c hc hbc
    exact hdisj b hb (Slot.next.inj hbc ▸ hc)
  · intro b hb
    have hba : b ≠ a := fun hba => hdisj b hb (by simp [hba])
    have hab : l.slot (.next a) ≠ some b := by
      intro hab
      rw [hs.drop.head?_eq] at hab
      exact hdisj b hb (by simp [List.mem_of_mem_head? hab])
    simp [pprev_del, hba, hab]

end Links

end Hlist
