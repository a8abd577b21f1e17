/-
**What happens under the lock of a bucket.**

Each of the operations on one bucket takes the lock of the bucket, walks over its chain, does something
to it or not, and gives the lock back.  While it holds the lock, it uses its own blocks and those of this
one chain.  With the lemmas of `KvStore/KvLayout.lean` its effect on the layout follows part by part.

The list operations of the kernel write some of the pointers of a chain before the others, so that the
memory does not have the layout meanwhile.  What matters then is that they write nowhere else, so that
from the heads of the other buckets one still finds the entries of their chains.

Main definitions:

* `KvMemory.Fine` — **an instruction that uses what is live, initialised and guarded**;
* `KvMemory.Inside` — the call is in the critical section of a bucket;
* `KvMemory.Leaves` — the call is over, and has changed one chain;
* `KvMemory.Handles` — what the list operations do to a chain.

Main results:

* `KvMemory.Inside.ensures_replaceValue`, `KvMemory.Inside.ensures_insertNew_of_found`,
  `KvMemory.Inside.ensures_insertNew_of_not_found`, `KvMemory.Inside.ensures_removeEntry`,
  `KvMemory.Inside.ensures_copyValue` — **the ends of the critical sections**.
-/

import KvStore.KvLayout

set_option relaxedAutoImplicit false
set_option autoImplicit false

namespace KvMemory

open CMem KvHash KvIoctl Interleave Blocks

variable {H : HashFn}

/-! ### Critical sections -/

/-- An instruction uses what is live, initialised and guarded, and takes and gives back locks one at a
time. -/
def Fine (n : ℕ) (m : Memory) (i : Instr) : Prop :=
  Safe m i ∧ Ready m i ∧ Guarded n m i ∧ Paired m i

theorem paired_of_lockOf_none {i : Instr} (h : i.lockOf = none) (m : Memory) : Paired m i := by
  cases i with
  | lock p b => cases h
  | unlock p b => cases h
  | _ => trivial

/-- An instruction that uses nothing of the table but the structure itself. -/
theorem fine_of_uses_none {n : ℕ} {m : Memory} {i : Instr} (hi : i.uses = none) (hlock : i.lockOf = none)
    (hhead : i.headOf = none) : Fine n m i :=
  ⟨by simp [Safe, hi, hlock], by simp [Ready, hhead, hlock], by simp [Guarded, Touches, hi, hhead],
    paired_of_lockOf_none hlock m⟩

/-- The call holds the lock of bucket `b`, and has left the other chains as they were when the memory
was `m₀`. -/
structure Inside (H : HashFn) (L₀ : Layout) (m₀ : Memory) (b : ℕ) (m : Memory) (L : Layout)
    (hand : List Addr) : Prop where
  holds : Holds H m L hand
  held : m.held = [b]
  lt : b < L.guarded
  frame : L.frame = L₀.frame
  others : ∀ c < L.ready, c ≠ b → m.entries (L.chains c) = m₀.entries (L₀.chains c)

/-- The call is over, and has left bucket `b` with the entries `chain` and the others as they were when
the memory was `m₀`. -/
structure Leaves (H : HashFn) (L₀ : Layout) (m₀ : Memory) (b : ℕ) (chain : KvHash.Chain) (m : Memory)
    (L : Layout) : Prop where
  holds : Holds H m L []
  held : m.held = []
  frame : L.frame = L₀.frame
  entries : m.entries (L.chains b) = chain
  others : ∀ c < L.ready, c ≠ b → m.entries (L.chains c) = m₀.entries (L₀.chains c)

/-- What is found from the heads of the other buckets than `b` are the entries of their chains. -/
def Apart (L : Layout) (b : ℕ) (l : Hlist.Links (Ptr × ℕ) Addr) : Prop :=
  ∀ c < L.ready, c ≠ b → ∀ e, l.Reaches (L.head c) e → e ∈ L.chains c

namespace Inside

variable {L₀ L : Layout} {m₀ m : Memory} {b : ℕ} {hand : List Addr}
  {l : Hlist.Links (Ptr × ℕ) Addr} {i : Instr}

theorem lt_ready (h : Inside H L₀ m₀ b m L hand) : b < L.ready := h.lt.trans_le h.holds.guarded_le

theorem apart (h : Inside H L₀ m₀ b m L hand) : Apart L b m.links := fun c hc _ _ he =>
  (h.holds.chain c hc).mem_of_reaches rfl (fun _ _ => rfl) he

/-- An instruction that uses no block of another chain. -/
theorem fine_of_notMem_foreign (h : Inside H L₀ m₀ b m L hand) (hl : Apart L b l) {a : Addr}
    (hlive : a ∈ m.live) (ha : a ∉ L.foreign m b) (hi : i.uses = some (some a)) (hlock : i.lockOf = none)
    (hhead : ∀ hd, i.headOf = some hd → hd = (some L.buckets, b)) : Fine L.ready { m with links := l } i := by
  refine ⟨⟨fun p hp => ⟨a, hlive, Option.some.inj (hp.symm.trans hi)⟩, by simp [hlock]⟩,
    ⟨fun p c hp => ?_, by simp [hlock]⟩, ?_, paired_of_lockOf_none hlock _⟩
  · obtain ⟨rfl, rfl⟩ := Prod.mk.inj (hhead _ hp)
    exact ⟨_, rfl, (h.holds.headReady _).trans (decide_eq_true h.lt_ready)⟩
  · intro c hcr htouch
    rcases htouch with htouch | ⟨e, he, a', ha', hia⟩
    · obtain ⟨-, rfl⟩ := Prod.mk.inj (hhead _ htouch)
      exact h.held
    · obtain rfl : a = a' := Option.some.inj (Option.some.inj (hi.symm.trans hia))
      by_cases hcb : c = b
      · rw [hcb]
        exact h.held
      · refine absurd (mem_foreign_iff.2 ⟨c, hcr, hcb, List.mem_flatMap.2 ⟨e, ?_, ha'⟩⟩) ha
        exact hl c hcr hcb e (by simpa [h.holds.table, Layout.head] using he)

/-- An instruction that uses a block in hand, or of the chain. -/
theorem fine (h : Inside H L₀ m₀ b m L hand) (hl : Apart L b l) {a : Addr}
    (ha : a ∈ hand ∨ a ∈ m.owned (L.chains b)) (hi : i.uses = some (some a)) (hlock : i.lockOf = none)
    (hhead : i.headOf = none) : Fine L.ready { m with links := l } i := by
  refine h.fine_of_notMem_foreign hl ?_ ?_ hi hlock (by simp [hhead])
  · exact ha.elim h.holds.live_of_mem (h.holds.live_of_mem_owned h.lt_ready)
  · intro hf
    rcases ha with ha | ha
    · exact (h.holds.notMem_of_hand h.lt_ready ha).2 (mem_others_of_foreign hf)
    · exact h.holds.notMem_foreign h.lt_ready ha hf

theorem fine_hand (h : Inside H L₀ m₀ b m L hand) {a : Addr} (ha : a ∈ hand)
    (hi : i.uses = some (some a)) (hlock : i.lockOf = none) (hhead : i.headOf = none) : Fine L.ready m i :=
  h.fine h.apart (.inl ha) hi hlock hhead

theorem fine_entry (h : Inside H L₀ m₀ b m L hand) {e : Addr} (he : e ∈ L.chains b)
    (hi : i.uses = some (some e)) (hlock : i.lockOf = none) (hhead : i.headOf = none) : Fine L.ready m i :=
  h.fine h.apart (.inr (mem_owned_self m he)) hi hlock hhead

theorem fine_value (h : Inside H L₀ m₀ b m L hand) {e v : Addr} (he : e ∈ L.chains b)
    (hv : m.value e = some v) (hi : i.uses = some (some v)) (hlock : i.lockOf = none)
    (hhead : i.headOf = none) : Fine L.ready m i :=
  h.fine h.apart (.inr (mem_owned_value m he hv)) hi hlock hhead

/-- The head of the bucket. -/
theorem fine_head (h : Inside H L₀ m₀ b m L hand) (hl : Apart L b l) (hi : i.uses = some (some L.buckets))
    (hlock : i.lockOf = none) (hhead : i.headOf = some (some L.buckets, b)) :
    Fine L.ready { m with links := l } i := by
  refine h.fine_of_notMem_foreign hl h.holds.live_buckets (fun hf => ?_) hi hlock ?_
  · have hnd := (List.nodup_append.1 (h.holds.accounts_chain h.lt_ready).nodup).2.1
    have hothers := (List.nodup_append.1 hnd).2.1
    exact (List.nodup_cons.1 hothers).1 (List.mem_cons_of_mem _ hf)
  · intro hd hhd
    exact Option.some.inj (hhd.symm.trans hhead)

theorem fine_unlock (h : Inside H L₀ m₀ b m L hand) : Fine L.ready m (.unlock (some L.locks) b) := by
  refine ⟨⟨by simp [Instr.uses], ?_⟩, ⟨by simp [Instr.headOf], ?_⟩,
    by simp [Guarded, Touches, Instr.headOf, Instr.uses], h.held⟩
  · intro p c hp
    obtain ⟨rfl, rfl⟩ := Prod.mk.inj (Option.some.inj hp)
    exact ⟨_, h.holds.live_locks, rfl⟩
  · intro p c hp
    obtain ⟨rfl, rfl⟩ := Prod.mk.inj (Option.some.inj hp)
    exact ⟨_, rfl, (h.holds.lockReady _).trans (decide_eq_true h.lt)⟩

/-- The end of the critical section. -/
theorem leaves (h : Inside H L₀ m₀ b m L []) {chain : KvHash.Chain}
    (hchain : m.entries (L.chains b) = chain) :
    Leaves H L₀ m₀ b chain { m with held := m.held.erase b } L where
  holds := ⟨h.holds.table, h.holds.ready_le, h.holds.guarded_le, h.holds.chain, h.holds.value,
    h.holds.headReady, h.holds.lockReady, h.holds.accounts⟩
  held := by rw [h.held, List.erase_cons_head]
  frame := h.frame
  entries := hchain
  others := h.others

end Inside

/-! ### The lists -/

section Lists

variable {P : Memory → Instr → Prop} {m : Memory} {s : Place} {es : List Addr}
  {l l' : Hlist.Links (Ptr × ℕ) Addr}

/-- The places of a chain. -/
def InChain (s : Place) (es : List Addr) (t : Place) : Prop := t = s ∨ ∃ e ∈ es, t = .next e

/-- What the list operations do to a chain. -/
inductive Handles (s : Place) (es : List Addr) : Instr → Prop
  | load {t : Place} : InChain s es t → Handles s es (.load t)
  | store {t : Place} (p : Ptr) : InChain s es t → Handles s es (.store t p)
  | pprev {e : Addr} : e ∈ es → Handles s es (.pprev e)
  | setPprev {e : Addr} (t : Place) : e ∈ es → Handles s es (.setPprev e t)

/-- They use the head of the chain, or one of its entries. -/
theorem Handles.uses {hd : Ptr × ℕ} {i : Instr} (h : Handles (.head hd) es i) :
    i.lockOf = none ∧ (i.uses = some hd.1 ∧ i.headOf = some hd ∨
      ∃ e ∈ es, i.uses = some (some e) ∧ i.headOf = none) := by
  cases h with
  | load ht =>
      obtain rfl | ⟨e, he, rfl⟩ := ht
      · exact ⟨rfl, .inl ⟨rfl, rfl⟩⟩
      · exact ⟨rfl, .inr ⟨e, he, rfl, rfl⟩⟩
  | store p ht =>
      obtain rfl | ⟨e, he, rfl⟩ := ht
      · exact ⟨rfl, .inl ⟨rfl, rfl⟩⟩
      · exact ⟨rfl, .inr ⟨e, he, rfl, rfl⟩⟩
  | pprev he => exact ⟨rfl, .inr ⟨_, he, rfl, rfl⟩⟩
  | setPprev t he => exact ⟨rfl, .inr ⟨_, he, rfl, rfl⟩⟩

/-- Two memories have the same pointers everywhere but in the places of a chain. -/
def AgreeOff (s : Place) (es : List Addr) (l l' : Hlist.Links (Ptr × ℕ) Addr) : Prop :=
  ∀ t, ¬ InChain s es t → l'.slot t = l.slot t

theorem AgreeOff.refl (l : Hlist.Links (Ptr × ℕ) Addr) : AgreeOff s es l l := fun _ _ => rfl

theorem AgreeOff.store (h : AgreeOff s es l l') {t : Place} (ht : InChain s es t) (p : Ptr) :
    AgreeOff s es l (l'.store t p) := fun r hr =>
  (Function.update_of_ne (fun hrt : r = t => hr (hrt ▸ ht)) ..).trans (h r hr)

theorem AgreeOff.tell (h : AgreeOff s es l l') (p : Ptr) (t : Place) : AgreeOff s es l (l'.tell p t) :=
  fun r hr => by rw [Hlist.Links.slot_tell]; exact h r hr

theorem ensures_tell {next : Ptr} {t : Place} (h : ∀ a, next = some a → P m (.setPprev a t)) :
    (tell next t).Ensures exec P (fun _ m' => m' = { m with links := m.links.tell next t }) m := by
  cases next with
  | none => exact ⟨trivial, rfl⟩
  | some a => exact ⟨⟨h a rfl, trivial⟩, rfl⟩

/-- An entry is put in front of a chain. -/
theorem ensures_hlistAddHead {hd : Ptr × ℕ} {e : Addr} (hchain : m.links.Chain (.head hd) es)
    (hP : ∀ i l, Handles (.head hd) (e :: es) i → AgreeOff (.head hd) (e :: es) m.links l →
      P { m with links := l } i) :
    (hlistAddHead e hd).Ensures exec P
      (fun _ m' => m' = { m with links := m.links.addHead e hd }) m := by
  have hhead : InChain (.head hd) (e :: es) (.head hd) := .inl rfl
  have hnext : InChain (.head hd) (e :: es) (.next e) := .inr ⟨e, List.mem_cons_self, rfl⟩
  have hstore := (AgreeOff.refl m.links).store hnext (m.links.slot (.head hd))
  have htell := hstore.tell (m.links.slot (.head hd)) (.next e)
  simp only [hlistAddHead, instr, Prog.call_bind, Prog.ret_bind, Prog.ensures_call]
  refine ⟨hP _ _ (.load hhead) (.refl _), hP _ _ (.store _ hnext) (.refl _), ?_⟩
  rw [Prog.ensures_bind]
  refine (ensures_tell fun a ha => ?_).mono exec (fun _ _ => id) ?_
  · have ha' : m.links.slot (.head hd) = some a := ha
    rw [hchain.head?_eq] at ha'
    exact hP _ _ (.setPprev _ (List.mem_cons_of_mem _ (List.mem_of_mem_head? ha'))) hstore
  · rintro ⟨⟩ m' rfl
    refine ⟨⟨hP _ _ (.store _ hhead) htell, ?_, trivial⟩, rfl⟩
    exact hP _ _ (.setPprev _ List.mem_cons_self) (htell.store hhead _)

/-- An entry is taken out of a chain. -/
theorem ensures_hlistDel {xs ys : List Addr} {e : Addr} (hchain : m.links.Chain s (xs ++ e :: ys))
    (hP : ∀ i l, Handles s (xs ++ e :: ys) i → AgreeOff s (xs ++ e :: ys) m.links l →
      P { m with links := l } i) :
    (hlistDel e).Ensures exec P
      (fun _ m' => m' = { m with links := m.links.del e LIST_POISON1 LIST_POISON2 }) m := by
  have he : e ∈ xs ++ e :: ys := by simp
  have hnext : InChain s (xs ++ e :: ys) (.next e) := .inr ⟨e, he, rfl⟩
  have hpprev : InChain s (xs ++ e :: ys) (m.links.pprev e) :=
    hchain.pprev_mem.imp id fun ⟨x, hx, hp⟩ => ⟨x, by simp [hx], hp⟩
  have hstore := (AgreeOff.refl m.links).store hpprev (m.links.slot (.next e))
  have htell := hstore.tell (m.links.slot (.next e)) (m.links.pprev e)
  simp only [hlistDel, instr, Prog.call_bind, Prog.ret_bind, Prog.ensures_call]
  refine ⟨hP _ _ (.load hnext) (.refl _), hP _ _ (.pprev he) (.refl _),
    hP _ _ (.store _ hpprev) (.refl _), ?_⟩
  rw [Prog.ensures_bind]
  refine (ensures_tell fun a ha => ?_).mono exec (fun _ _ => id) ?_
  · have ha' : m.links.slot (.next e) = some a := ha
    rw [hchain.drop.head?_eq] at ha'
    exact hP _ _ (.setPprev _ (by simp [List.mem_of_mem_head? ha'])) hstore
  · rintro ⟨⟩ m' rfl
    refine ⟨⟨hP _ _ (.store _ hnext) htell, ?_, trivial⟩, rfl⟩
    exact hP _ _ (.setPprev _ he) (htell.store hnext _)

end Lists

namespace Inside

variable {L₀ L : Layout} {m₀ m : Memory} {b : ℕ} {hand es : List Addr}
  {l : Hlist.Links (Ptr × ℕ) Addr} {i : Instr}

/-- The list operations on the chain of the bucket. -/
theorem fine_of_handles (h : Inside H L₀ m₀ b m L hand) (hes : ∀ e ∈ es, e ∈ hand ∨ e ∈ L.chains b)
    (hi : Handles (L.head b) es i) (hl : AgreeOff (L.head b) es m.links l) :
    Fine L.ready { m with links := l } i := by
  have howned : ∀ e ∈ es, e ∈ hand ∨ e ∈ m.owned (L.chains b) := fun e he =>
    (hes e he).imp id (mem_owned_self m)
  have hapart : Apart L b l := by
    intro c hc hcb e he
    have hne : ∀ x ∈ L.chains c, x ∉ es := by
      intro x hx hxes
      rcases hes x hxes with hx' | hx'
      · exact (h.holds.notMem_of_hand hc hx').1 (mem_owned_self m hx)
      · exact h.holds.disjoint_chains h.lt_ready hc hcb hx' hx
    refine (h.holds.chain c hc).mem_of_reaches (hl _ ?_) (fun x hx => hl _ ?_) he
    · rintro (heq | ⟨x, -, heq⟩)
      · exact hcb (congrArg Prod.snd (Hlist.Slot.head.inj heq))
      · cases heq
    · rintro (heq | ⟨y, hy, heq⟩)
      · cases heq
      · exact hne x hx (Hlist.Slot.next.inj heq ▸ hy)
  obtain ⟨hlock, ⟨huses, hhead⟩ | ⟨e, he, huses, hhead⟩⟩ := hi.uses
  · exact h.fine_head hapart huses hlock hhead
  · exact h.fine hapart (howned e he) huses hlock hhead

/-- The fields of an entry in hand are set; no chain is concerned. -/
theorem setFields (h : Inside H L₀ m₀ b m L hand) {e : Addr} (he : e ∈ hand) (key : HashKey) (p : Ptr) :
    Inside H L₀ m₀ b
      { m with key := Function.update m.key e key, value := Function.update m.value e p } L hand :=
  have hnot : ∀ c < L.ready, e ∉ L.chains c := fun _ hc =>
    notMem_of_notMem_owned (h.holds.notMem_of_hand hc he).1
  { h with
    holds := (h.holds.contents m.string (Function.update m.key e key)).setValue he p
    others := fun c hc hcb =>
      ((Holds.entries_setValue (hnot c hc) p).trans (Holds.entries_setKey (hnot c hc) key)).trans
        (h.others c hc hcb) }

/-- An entry in hand is linked, and leaves the hands of the call with its value. -/
theorem link {e new : Addr} (h : Inside H L₀ m₀ b m L (e :: new :: hand)) (hv : m.value e = some new) :
    Inside H L₀ m₀ b { m with links := m.links.addHead e (some L.buckets, b) }
      (L.set b (e :: L.chains b)) hand :=
  { h with
    holds := h.holds.addHead h.lt_ready hv
    others := by
      intro c hc hcb
      rw [L.chains_set_of_ne _ hcb]
      exact h.others c hc hcb }

/-- An entry is unlinked, and comes into the hands of the call with its value. -/
theorem unlink (h : Inside H L₀ m₀ b m L hand) {xs ys : List Addr} {e v : Addr}
    (he : L.chains b = xs ++ e :: ys) (hv : m.value e = some v) (p : Ptr) (s : Place) :
    Inside H L₀ m₀ b { m with links := m.links.del e p s } (L.set b (xs ++ ys)) (v :: e :: hand) :=
  { h with
    holds := (h.holds.del h.lt_ready he hv p s).perm (List.Perm.swap ..)
    others := by
      intro c hc hcb
      rw [L.chains_set_of_ne _ hcb]
      exact h.others c hc hcb }

/-! ### The ends of the critical sections -/

/-- The value of the first entry for a key is replaced. -/
theorem ensures_replaceValue {new : Addr} (h : Inside H L₀ m₀ b m L [new]) {xs ys : List Addr} {e : Addr}
    (he : L.chains b = xs ++ e :: ys) {key : HashKey} (hxs : ∀ x ∈ xs, m.key x ≠ key)
    (hkey : m.key e = key) {newstr : CStr} (hnew : m.string new = newstr) {chain : KvHash.Chain}
    (hchain : updateExisting key newstr (m.entries (L.chains b)) = some chain) :
    (replaceValue (L.toTable H) b e (some new)).Ensures exec (Fine L.ready)
      (fun r t => r = some 0 ∧ ∃ L', Leaves H L₀ m₀ b chain t L') m := by
  have hmem : e ∈ L.chains b := by simp [he]
  obtain ⟨v, hv⟩ := Option.ne_none_iff_exists'.1 (h.holds.value b h.lt_ready e hmem)
  have hforeign : ∀ c < L.ready, c ≠ b → e ∉ L.chains c := fun c hc hcb =>
    h.holds.disjoint_chains h.lt_ready hc hcb hmem
  have hset : Inside H L₀ m₀ b { m with value := Function.update m.value e (some new) } L [v] :=
    { h with
      holds := h.holds.replaceValue h.lt_ready he hv
      others := fun c hc hcb =>
        (Holds.entries_setValue (hforeign c hc hcb) _).trans (h.others c hc hcb) }
  have hfree := { hset with holds := hset.holds.kfree }
  have hentries := h.holds.entries_replaceValue h.lt_ready he (some new)
  rw [he, updateExisting_entries hxs hkey, ← hnew, Option.some.injEq] at hchain
  rw [← he] at hentries
  simp only [replaceValue, instr, Prog.call_bind, Prog.ret_bind, Prog.pure_eq, Prog.ensures_call,
    Prog.ensures_ret, exec, hv]
  refine ⟨h.fine_entry hmem rfl rfl rfl, ?_, ?_, hfree.fine_unlock, trivial, L, ?_⟩
  · exact h.fine_value hmem hv rfl rfl rfl
  · -- the old value is freed before the field is set
    obtain ⟨hsafe, hready, -, hpaired⟩ := hfree.fine_entry (i := .setValue e (some new)) hmem rfl rfl rfl
    exact ⟨hsafe, hready, (h.fine_entry hmem rfl rfl rfl).2.2.1, hpaired⟩
  · exact hfree.leaves (hentries.trans hchain)

/-- No memory is found for a new entry. -/
theorem ensures_insertNew_of_not_found {new : Addr} (h : Inside H L₀ m₀ b m L [new]) {place : Ptr}
    (hplace : ¬ Found m.live place) (key : HashKey) {chain : KvHash.Chain}
    (hchain : m.entries (L.chains b) = chain) :
    (insertNew (L.toTable H) b key (some new) place).Ensures exec (Fine L.ready)
      (fun r t => r = some (-ENOMEM) ∧ ∃ L', Leaves H L₀ m₀ b chain t L') m := by
  have hfree := { h with holds := h.holds.kfree }
  simp only [insertNew, instr, Prog.call_bind, Prog.ret_bind, Prog.pure_eq, Prog.ensures_call,
    Prog.ensures_ret, exec, Memory.kmalloc_of_not_found hplace]
  refine ⟨fine_of_uses_none rfl rfl rfl, ?_, hfree.fine_unlock, trivial, L, hfree.leaves hchain⟩
  exact h.fine_hand List.mem_cons_self rfl rfl rfl

/-- A new entry is linked. -/
theorem ensures_insertNew_of_found {new e : Addr} (h : Inside H L₀ m₀ b m L [new]) (he : e ∉ m.live)
    (key : HashKey) {newstr : CStr} (hnewstr : m.string new = newstr) {chain : KvHash.Chain}
    (hchain : m.entries (L.chains b) = chain) :
    (insertNew (L.toTable H) b key (some new) (some e)).Ensures exec (Fine L.ready)
      (fun r t => r = some 0 ∧ ∃ L', Leaves H L₀ m₀ b (⟨key, newstr⟩ :: chain) t L') m := by
  have halloc : (m.kmalloc (some e)).1 = some e := by rw [Memory.kmalloc, alloc_of_found he]
  have hnew : Inside H L₀ m₀ b (m.kmalloc (some e)).2 L [e, new] :=
    { h with holds := h.holds.kmalloc he }
  have hmem : e ∈ [e, new] := List.mem_cons_self
  have hnot : ∀ c < L.ready, e ∉ L.chains c := fun c hc =>
    notMem_of_notMem_owned (hnew.holds.notMem_of_hand hc hmem).1
  have hset := hnew.setFields hmem key (some new)
  simp only [insertNew, instr, Prog.call_bind, Prog.ret_bind, Prog.pure_eq, Prog.ensures_call,
    exec, halloc]
  refine ⟨fine_of_uses_none rfl rfl rfl, hnew.fine_hand hmem rfl rfl rfl,
    hnew.fine_hand hmem rfl rfl rfl, ?_⟩
  rw [Prog.ensures_bind]
  refine (ensures_hlistAddHead (hset.holds.chain b h.lt_ready) fun i l hi hl => ?_).mono exec
    (fun _ _ => id) ?_
  · refine hset.fine_of_handles ?_ hi hl
    intro x hx
    exact (List.mem_cons.1 hx).imp (fun hxe : x = e => hxe ▸ hmem) id
  rintro ⟨⟩ t rfl
  have hlink := hset.link (Function.update_self ..)
  have hentries := (Holds.entries_setValue (hnot b h.lt_ready) (some new)).trans
    (Holds.entries_setKey (m := m) (hnot b h.lt_ready) key)
  rw [Prog.ensures_call, Prog.ensures_ret]
  refine ⟨hlink.fine_unlock, rfl, _, hlink.leaves ?_⟩
  rw [L.chains_set_self, entries_cons, ← hnewstr]
  refine congrArg₂ List.cons ?_ (hentries.trans hchain)
  rw [Memory.entryAt]
  simp only [Function.update_self]
  rfl

/-- An entry is unlinked and freed. -/
theorem ensures_removeEntry (h : Inside H L₀ m₀ b m L []) {xs ys : List Addr} {e : Addr}
    (he : L.chains b = xs ++ e :: ys) :
    (removeEntry (L.toTable H) b e).Ensures exec (Fine L.ready)
      (fun r t => r = some 0 ∧ ∃ L', Leaves H L₀ m₀ b (m.entries (xs ++ ys)) t L') m := by
  have hmem : e ∈ L.chains b := by simp [he]
  obtain ⟨v, hv⟩ := Option.ne_none_iff_exists'.1 (h.holds.value b h.lt_ready e hmem)
  have hunlink := h.unlink he hv LIST_POISON1 LIST_POISON2
  have hvalue := { hunlink with holds := hunlink.holds.kfree }
  have hentry := { hvalue with holds := hvalue.holds.kfree }
  simp only [removeEntry, instr, Prog.call_bind, Prog.ret_bind, Prog.pure_eq]
  rw [Prog.ensures_bind]
  refine (ensures_hlistDel (he ▸ h.holds.chain b h.lt_ready) fun i l hi hl => ?_).mono exec
    (fun _ _ => id) ?_
  · exact h.fine_of_handles (fun x hx => .inr (he ▸ hx)) hi hl
  rintro ⟨⟩ t rfl
  simp only [Prog.ensures_call, Prog.ensures_ret, exec, hv]
  refine ⟨hunlink.fine_hand (by simp) rfl rfl rfl, hunlink.fine_hand (by simp) rfl rfl rfl,
    hvalue.fine_hand (by simp) rfl rfl rfl, hentry.fine_unlock, trivial, _, hentry.leaves ?_⟩
  rw [L.chains_set_self]
  rfl

/-- The value of an entry is copied, if there is room for it. -/
theorem ensures_copyValue (h : Inside H L₀ m₀ b m L hand) {e : Addr} (he : e ∈ L.chains b) {n : ℕ}
    (outBuf : Buf n) :
    (copyValue (L.toTable H) b e outBuf).Ensures exec (Fine L.ready)
      (fun r t => r = some (if (m.stringAt (m.value e)).1.length + 1 > n then (-ENOSPC, outBuf)
        else ((m.stringAt (m.value e)).1.length, memcpy outBuf ((m.stringAt (m.value e)).1 ++ [0]))) ∧
          t = { m with held := m.held.erase b }) m := by
  obtain ⟨v, hv⟩ := Option.ne_none_iff_exists'.1 (h.holds.value b h.lt_ready e he)
  have hvalue : Fine L.ready m (.value e) := h.fine_entry he rfl rfl rfl
  have hstring : Fine L.ready m (.string (m.value e)) :=
    h.fine_value he hv (by rw [hv]; rfl) rfl rfl
  simp only [copyValue, instr, Prog.call_bind, Prog.ret_bind, Prog.pure_eq, Prog.ensures_call,
    Prog.ensures_ret, Prog.ensures_ite]
  refine ⟨hvalue, hstring, fun (hlen : (m.stringAt (m.value e)).1.length + 1 > n) => ?_,
    fun (hlen : ¬ (m.stringAt (m.value e)).1.length + 1 > n) => ?_⟩
  · rw [if_pos hlen]
    exact ⟨h.fine_unlock, rfl, rfl⟩
  · rw [if_neg hlen]
    exact ⟨hvalue, hstring, h.fine_unlock, rfl, rfl⟩

end Inside

end KvMemory
