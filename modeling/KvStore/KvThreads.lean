/-
**Threads over the table in memory.**

`KvStore/KvMemory.lean` follows one call at a time.  Here any number of threads perform their instructions
in any order over the same memory, and a thread that wants a lock which is held waits.

What a thread has in its custody is a part of the memory: the blocks that it has allocated and not linked
yet, and, while it holds the lock of a bucket, the chain of that bucket.  It is described by a memory of its
own, which has a table with at most one chain, so that the lemmas about one call apply to it.  The own
memory shows what the shared one has in these blocks; and every block of the shared memory belongs to the
arrays, to the chain of a bucket that is not locked, or to one thread.

Main definitions:

* `KvMemory.Custody`, `KvMemory.Reflects` — what a thread has in its custody;
* `KvMemory.Ledger`, `KvMemory.Shared` — **who owns which block**, and what the chains at rest contain;
* `KvMemory.Legal` — an instruction is in order, and uses what the thread has in its custody;
* `KvMemory.protocol` — the protocol of the threads.

Main results:

* `KvMemory.upholds_own`, `KvMemory.upholds_kmalloc`, `KvMemory.upholds_kfree`, `KvMemory.upholds_lock`,
  `KvMemory.upholds_unlock` — what the instructions do to the custody; with the unlock the operation takes
  effect.
-/

import KvStore.Custody
import KvStore.KvOwnership

set_option relaxedAutoImplicit false
set_option autoImplicit false

namespace KvMemory

open CMem KvHash KvIoctl Interleave Blocks

variable {H : HashFn} {ι : Type}

/-! ### A part of the memory -/

/-- The blocks of the two arrays. -/
structure Base where
  buckets : Addr
  locks : Addr

/-- The place of the head of a bucket. -/
def Base.head (A : Base) (b : ℕ) : Place := .head (some A.buckets, b)

/-- The structure, once both arrays are there. -/
def Base.toTable (A : Base) (H : HashFn) : Table := ⟨some A.buckets, some A.locks, H.bits⟩

theorem Base.buckets_ne (A : Base) (H : HashFn) : (A.toTable H).buckets ≠ none := Option.some_ne_none _

/-- A table without entries. -/
def Base.layout (A : Base) (H : HashFn) : Layout := ⟨A.buckets, A.locks, H.n, H.n, fun _ => []⟩

/-- The block is live, and is not one of the arrays. -/
def Memory.Mine (A : Base) (o : Memory) (a : Addr) : Prop :=
  a ∈ o.live ∧ a ≠ A.buckets ∧ a ≠ A.locks

instance (A : Base) (o : Memory) (a : Addr) : Decidable (o.Mine A a) :=
  inferInstanceAs (Decidable (a ∈ o.live ∧ a ≠ A.buckets ∧ a ≠ A.locks))

/-- Block `a` has the same contents in both memories. -/
structure SameAt (m m' : Memory) (a : Addr) : Prop where
  next : m'.links.slot (.next a) = m.links.slot (.next a)
  pprev : m'.links.pprev a = m.links.pprev a
  key : m'.key a = m.key a
  value : m'.value a = m.value a
  string : m'.string a = m.string a

theorem SameAt.refl (m : Memory) (a : Addr) : SameAt m m a := ⟨rfl, rfl, rfl, rfl, rfl⟩

theorem SameAt.trans {m m' m'' : Memory} {a : Addr} (h : SameAt m m' a) (h' : SameAt m' m'' a) :
    SameAt m m'' a :=
  ⟨h'.next.trans h.next, h'.pprev.trans h.pprev, h'.key.trans h.key, h'.value.trans h.value,
    h'.string.trans h.string⟩

theorem SameAt.symm {m m' : Memory} {a : Addr} (h : SameAt m m' a) : SameAt m' m a :=
  ⟨h.next.symm, h.pprev.symm, h.key.symm, h.value.symm, h.string.symm⟩

theorem SameAt.own {m m' : Memory} {e : Addr} (h : SameAt m m' e) : m'.own e = m.own e := by
  rw [Memory.own, Memory.own, h.value]

section Chains

variable {m m' : Memory} {s : Place} {es : List Addr}

theorem owned_of_same (h : ∀ a ∈ m.owned es, SameAt m m' a) : m'.owned es = m.owned es :=
  owned_congr fun e he => (h e (mem_owned_self m he)).value

theorem entries_of_same (h : ∀ a ∈ m.owned es, SameAt m m' a) : m'.entries es = m.entries es :=
  entries_congr (fun e he => (h e (mem_owned_self m he)).key)
    (fun e he => (h e (mem_owned_self m he)).value) fun a ha => (h a ha).string

theorem chain_of_same (hchain : m.links.Chain s es) (hs : m'.links.slot s = m.links.slot s)
    (h : ∀ a ∈ m.owned es, SameAt m m' a) : m'.links.Chain s es :=
  hchain.congr hs (fun e he => (h e (mem_owned_self m he)).next)
    fun e he => (h e (mem_owned_self m he)).pprev

end Chains

/-- A bucket that nobody has locked: the entries of its chain, and what they contain. -/
structure Resting (A : Base) (m : Memory) (b : ℕ) (es : List Addr) (chain : KvHash.Chain) : Prop where
  links : m.links.Chain (A.head b) es
  value : ∀ e ∈ es, m.value e ≠ none
  nodup : (m.owned es).Nodup
  entries : m.entries es = chain

theorem Resting.congr {A : Base} {m m' : Memory} {b : ℕ} {es : List Addr} {chain : KvHash.Chain}
    (h : Resting A m b es chain) (hs : m'.links.slot (A.head b) = m.links.slot (A.head b))
    (hsame : ∀ a ∈ m.owned es, SameAt m m' a) : Resting A m' b es chain where
  links := chain_of_same h.links hs hsame
  value := fun e he => by
    rw [(hsame e (mem_owned_self m he)).value]
    exact h.value e he
  nodup := by
    rw [owned_of_same hsame]
    exact h.nodup
  entries := (entries_of_same hsame).trans h.entries

/-! ### Custody -/

/-- What a thread has in its custody, as a memory of its own, and what the chain that it has locked
contained when it locked it. -/
structure Custody where
  own : Memory
  seen : KvHash.Chain

/-- The own memory of a thread shows what the shared memory has in the blocks of the thread, and in the heads
that it has locked. -/
structure Reflects (A : Base) (m o : Memory) : Prop where
  block : ∀ a, o.Mine A a → SameAt o m a
  head : ∀ b ∈ o.held, m.links.slot (A.head b) = o.links.slot (A.head b)

theorem Reflects.congr {A : Base} {m m' o : Memory} (h : Reflects A m o)
    (hblock : ∀ a, o.Mine A a → SameAt m m' a)
    (hhead : ∀ b ∈ o.held, m'.links.slot (A.head b) = m.links.slot (A.head b)) : Reflects A m' o :=
  ⟨fun a ha => (h.block a ha).trans (hblock a ha), fun b hb => (hhead b hb).trans (h.head b hb)⟩

/-- The thread holds no lock, and has the blocks `hand` in its hands. -/
structure Outside (H : HashFn) (A : Base) (o : Memory) (hand : List Addr) : Prop where
  holds : Holds H o (A.layout H) hand
  held : o.held = []

/-- The thread holds the lock of bucket `b`, the chain of which consists of `es`, and has the blocks `hand`
in its hands. -/
structure Locked (H : HashFn) (A : Base) (o : Memory) (b : ℕ) (es hand : List Addr) : Prop where
  holds : Holds H o ((A.layout H).set b es) hand
  held : o.held = [b]
  lt : b < H.n

section Blocks

variable {A : Base} {o : Memory} {b : ℕ} {es hand : List Addr}

theorem blocks_layout (A : Base) (H : HashFn) (o : Memory) :
    (A.layout H).blocks o = [A.buckets, A.locks] := by
  simp [Base.layout, Layout.blocks, Memory.owned]

theorem others_layout_set (A : Base) (H : HashFn) (o : Memory) (b : ℕ) (es : List Addr) :
    ((A.layout H).set b es).others o b = [A.buckets, A.locks] := by
  have hforeign : ((A.layout H).set b es).foreign o b = [] := by
    refine List.eq_nil_iff_forall_not_mem.2 fun a ha => ?_
    obtain ⟨c, -, hcb, ha⟩ := mem_foreign_iff.1 ha
    rw [Layout.chains_set_of_ne _ _ hcb] at ha
    cases ha
  rw [Layout.others, hforeign]
  rfl

theorem Layout.set_set (L : Layout) (b : ℕ) (es es' : List Addr) : (L.set b es).set b es' = L.set b es' := by
  simp [Layout.set]

/-- The blocks of a thread that holds no lock. -/
theorem Outside.accounts (h : Outside H A o hand) : Accounts o.live (hand ++ [A.buckets, A.locks]) := by
  rw [← blocks_layout A H o]
  exact h.holds.accounts

/-- The blocks of a thread that holds a lock. -/
theorem Locked.accounts (h : Locked H A o b es hand) :
    Accounts o.live (hand ++ (o.owned es ++ [A.buckets, A.locks])) := by
  have haccounts := h.holds.accounts_chain (b := b) h.lt
  rwa [Layout.chains_set_self, others_layout_set] at haccounts

theorem mine_iff {blocks : List Addr} (h : Accounts o.live (blocks ++ [A.buckets, A.locks])) (a : Addr) :
    o.Mine A a ↔ a ∈ blocks := by
  have hdisj := (List.nodup_append.1 h.nodup).2.2
  rw [Memory.Mine, h.mem_iff, List.mem_append]
  constructor
  · rintro ⟨ha | ha, hb, hl⟩
    · exact ha
    · simp [hb, hl] at ha
  · intro ha
    exact ⟨.inl ha, hdisj a ha _ (by simp), hdisj a ha _ (by simp)⟩

theorem Outside.mine_iff (h : Outside H A o hand) (a : Addr) : o.Mine A a ↔ a ∈ hand :=
  KvMemory.mine_iff h.accounts a

theorem Locked.mine_iff (h : Locked H A o b es hand) (a : Addr) :
    o.Mine A a ↔ a ∈ hand ∨ a ∈ o.owned es := by
  have haccounts := h.accounts
  rw [← List.append_assoc] at haccounts
  rw [KvMemory.mine_iff haccounts, List.mem_append]

theorem Locked.chain (h : Locked H A o b es hand) : o.links.Chain (A.head b) es := by
  have hchain := h.holds.chain b h.lt
  rwa [Layout.chains_set_self] at hchain

theorem Locked.value (h : Locked H A o b es hand) {e : Addr} (he : e ∈ es) : o.value e ≠ none := by
  refine h.holds.value b h.lt e ?_
  rwa [Layout.chains_set_self]

theorem Locked.nodup_owned (h : Locked H A o b es hand) : (o.owned es).Nodup := by
  have hnodup := h.holds.nodup_owned (b := b) h.lt
  rwa [Layout.chains_set_self] at hnodup

end Blocks

/-! ### The threads together -/

/-- Whom a block belongs to. -/
inductive Owner (ι : Type)
  | arrays
  | bucket (b : ℕ)
  | thread (i : ι)
deriving DecidableEq

/-- The chains of the buckets that are not locked, the owners of the blocks, and the holders of the
locks. -/
structure Ledger (ι : Type) where
  chains : ℕ → List Addr
  owner : Addr → Option (Owner ι)
  holder : ℕ → Option ι

/-- The threads have parts of the memory in their custody, and the rest of it is a table that stands for
the store. -/
structure Shared (H : HashFn) (A : Base) (m : Memory) (D : Ledger ι) (G : ι → Custody) (t : Store H) :
    Prop where
  table : m.table = A.toTable H
  distinct : A.buckets ≠ A.locks
  headReady : ∀ b, m.headReady A.buckets b = decide (b < H.n)
  lockReady : ∀ b, m.lockReady A.locks b = decide (b < H.n)
  live : ∀ a, a ∈ m.live ↔ D.owner a ≠ none
  arrays : ∀ a, D.owner a = some .arrays ↔ a = A.buckets ∨ a = A.locks
  locked : ∀ b, b ∈ m.held ↔ D.holder b ≠ none
  lt : ∀ b, b ∈ m.held → b < H.n
  nodup : m.held.Nodup
  resting : ∀ b : Fin H.n, D.holder b = none → Resting A m b (D.chains b) (t.1.chain b)
  bucket : ∀ b a, D.owner a = some (.bucket b) ↔
    b < H.n ∧ D.holder b = none ∧ a ∈ m.owned (D.chains b)
  reflects : ∀ i, Reflects A m (G i).own
  thread : ∀ i a, D.owner a = some (.thread i) ↔ (G i).own.Mine A a
  holder : ∀ i b, D.holder b = some i ↔ b ∈ (G i).own.held
  seen : ∀ i, ∀ b : Fin H.n, b.1 ∈ (G i).own.held → t.1.chain b = (G i).seen

/-- An instruction is in order, takes and gives back locks one at a time, and uses nothing but what the
thread has in its custody. -/
structure Legal (A : Base) (m : Memory) (v : Custody) (i : Instr) : Prop where
  safe : Safe m i
  ready : Ready m i
  paired : Paired v.own i
  uses : ∀ a, i.uses = some (some a) → v.own.Mine A a ∨ i.headOf ≠ none
  head : ∀ hd, i.headOf = some hd → ∃ b ∈ v.own.held, hd = (some A.buckets, b)

/-- A lock that is held is waited for. -/
def may (m : Memory) : Instr → Bool
  | .lock _ b => decide (b ∉ m.held)
  | _ => true

/-- The protocol of the threads over a table, as long as there are no more live blocks than a walk can
follow. -/
def protocol (ι : Type) (H : HashFn) (A : Base) (fuel : ℕ) :
    Protocol ι Memory Instr Res (Store H) (Op H) KvHash.Res Unit Alloc Custody where
  exec := fun _ => exec
  may := may
  spec := KvHash.exec
  inv := fun m G t => ∃ D, Shared H A m D G t
  legal := Legal A
  room := fun m => m.live.card ≤ fuel

/-! ### Instructions on the own part -/

/-- A place that lies in a block of the thread, or is a head that it has locked. -/
def Memory.Has (A : Base) (o : Memory) : Place → Prop
  | .head hd => ∃ b ∈ o.held, hd = (some A.buckets, b)
  | .next a => o.Mine A a

/-- The instruction uses one block of the thread, or a head that it has locked, and allocates nothing. -/
inductive Confined (A : Base) (o : Memory) : Instr → Prop
  | kfree {a : Addr} : o.Mine A a → Confined A o (.kfree (some a))
  | load {s : Place} : o.Has A s → Confined A o (.load s)
  | store {s : Place} (p : Ptr) : o.Has A s → Confined A o (.store s p)
  | pprev {a : Addr} : o.Mine A a → Confined A o (.pprev a)
  | setPprev {a : Addr} (s : Place) : o.Mine A a → Confined A o (.setPprev a s)
  | key {a : Addr} : o.Mine A a → Confined A o (.key a)
  | setKey {a : Addr} (key : HashKey) : o.Mine A a → Confined A o (.setKey a key)
  | value {a : Addr} : o.Mine A a → Confined A o (.value a)
  | setValue {a : Addr} (p : Ptr) : o.Mine A a → Confined A o (.setValue a p)
  | string {a : Addr} : o.Mine A a → Confined A o (.string (some a))

/-- The shared memory changes from `m` to `m'`, and a part of it from `o` to `o'`: nothing else does. -/
structure Local (A : Base) (m m' o o' : Memory) : Prop where
  table : m'.table = m.table
  headReady : ∀ b, m'.headReady A.buckets b = m.headReady A.buckets b
  lockReady : ∀ b, m'.lockReady A.locks b = m.lockReady A.locks b
  held : m'.held = m.held
  own : o'.held = o.held
  live : ∀ a, a ∈ m'.live ↔ a ∈ m.live ∧ ¬ o.Mine A a ∨ o'.Mine A a
  fresh : ∀ a, o'.Mine A a → o.Mine A a ∨ a ∉ m.live
  same : ∀ a, a ∈ m.live → ¬ o.Mine A a → SameAt m m' a
  head : ∀ b, b ∉ o.held → m'.links.slot (A.head b) = m.links.slot (A.head b)
  reflects : Reflects A m' o'

section Own

variable {A : Base} {m o : Memory} {i : Instr}

theorem Reflects.has (h : Reflects A m o) {s : Place} (hs : o.Has A s) :
    m.links.slot s = o.links.slot s := by
  cases s with
  | head hd =>
      obtain ⟨b, hb, rfl⟩ := hs
      exact h.head b hb
  | next a => exact (h.block a hs).next

/-- The thread finds in the shared memory what is in its own part. -/
theorem Confined.fst_exec (hi : Confined A o i) (h : Reflects A m o) : (exec i m).1 = (exec i o).1 := by
  cases hi with
  | load hs => exact h.has hs
  | pprev ha => exact (h.block _ ha).pprev
  | key ha => exact (h.block _ ha).key
  | value ha => exact (h.block _ ha).value
  | string ha => exact (h.block _ ha).string
  | _ => rfl

/-- It uses blocks of its own, and heads that it has locked. -/
theorem Confined.uses (hi : Confined A o i) :
    i.lockOf = none ∧ ((∃ a, o.Mine A a ∧ i.uses = some (some a) ∧ i.headOf = none) ∨
      ∃ b ∈ o.held, i.uses = some (some A.buckets) ∧ i.headOf = some (some A.buckets, b)) := by
  have hplace : ∀ {s : Place}, o.Has A s → ∀ i : Instr, i.uses = some (block s) →
      (i.headOf = match s with | .head hd => some hd | .next _ => none) →
      (∃ a, o.Mine A a ∧ i.uses = some (some a) ∧ i.headOf = none) ∨
        ∃ b ∈ o.held, i.uses = some (some A.buckets) ∧ i.headOf = some (some A.buckets, b) := by
    rintro (hd | a) hs i huses hhead
    · obtain ⟨b, hb, rfl⟩ := hs
      exact .inr ⟨b, hb, huses, hhead⟩
    · exact .inl ⟨a, hs, huses, hhead⟩
  cases hi with
  | @load s hs => exact ⟨rfl, hplace hs _ rfl (by cases s <;> rfl)⟩
  | @store s p hs => exact ⟨rfl, hplace hs _ rfl (by cases s <;> rfl)⟩
  | kfree ha => exact ⟨rfl, .inl ⟨_, ha, rfl, rfl⟩⟩
  | pprev ha => exact ⟨rfl, .inl ⟨_, ha, rfl, rfl⟩⟩
  | setPprev s ha => exact ⟨rfl, .inl ⟨_, ha, rfl, rfl⟩⟩
  | key ha => exact ⟨rfl, .inl ⟨_, ha, rfl, rfl⟩⟩
  | setKey key ha => exact ⟨rfl, .inl ⟨_, ha, rfl, rfl⟩⟩
  | value ha => exact ⟨rfl, .inl ⟨_, ha, rfl, rfl⟩⟩
  | setValue p ha => exact ⟨rfl, .inl ⟨_, ha, rfl, rfl⟩⟩
  | string ha => exact ⟨rfl, .inl ⟨_, ha, rfl, rfl⟩⟩

/-- Blocks of others are left as they are. -/
theorem Confined.same (hi : Confined A o i) {a : Addr} (ha : ¬ o.Mine A a) :
    SameAt m (exec i m).2 a := by
  have hne : ∀ {c : Addr}, o.Mine A c → a ≠ c := fun hc hac => ha (hac ▸ hc)
  have hslot : ∀ {s : Place}, o.Has A s → Hlist.Slot.next a ≠ s := by
    rintro _ hs rfl
    exact ha hs
  cases hi with
  | store p hs => exact ⟨Function.update_of_ne (hslot hs) .., rfl, rfl, rfl, rfl⟩
  | setPprev s hc => exact ⟨rfl, Function.update_of_ne (hne hc) .., rfl, rfl, rfl⟩
  | setKey key hc => exact ⟨rfl, rfl, Function.update_of_ne (hne hc) .., rfl, rfl⟩
  | setValue p hc => exact ⟨rfl, rfl, rfl, Function.update_of_ne (hne hc) .., rfl⟩
  | _ => exact ⟨rfl, rfl, rfl, rfl, rfl⟩

/-- Blocks that the own part shows are changed in the same way there. -/
theorem Confined.sameAt (hi : Confined A o i) {a : Addr} (h : SameAt o m a) :
    SameAt (exec i o).2 (exec i m).2 a := by
  have hupdate : ∀ {β : Type} {f g : Addr → β} (c : Addr) (x : β), g a = f a →
      Function.update g c x a = Function.update f c x a := fun c x hfg => by
    rw [Function.update_apply, Function.update_apply, hfg]
  cases hi with
  | store p hs =>
      refine ⟨?_, h.pprev, h.key, h.value, h.string⟩
      change Function.update m.links.slot _ p _ = Function.update o.links.slot _ p _
      rw [Function.update_apply, Function.update_apply, h.next]
  | setPprev s hc => exact ⟨h.next, hupdate _ _ h.pprev, h.key, h.value, h.string⟩
  | setKey key hc => exact ⟨h.next, h.pprev, hupdate _ _ h.key, h.value, h.string⟩
  | setValue p hc => exact ⟨h.next, h.pprev, h.key, hupdate _ _ h.value, h.string⟩
  | _ => exact ⟨h.next, h.pprev, h.key, h.value, h.string⟩

theorem Confined.mine_exec (hi : Confined A o i) (a : Addr) :
    (exec i o).2.Mine A a ↔ o.Mine A a ∧ i ≠ .kfree (some a) := by
  cases hi with
  | @kfree c hc =>
      have hfreed : a ∈ (exec (.kfree (some c)) o).2.live ↔ a ≠ c ∧ a ∈ o.live := Finset.mem_erase
      have hne : Instr.kfree (some c) ≠ .kfree (some a) ↔ a ≠ c := by
        rw [Ne, Instr.kfree.injEq, Option.some.injEq, eq_comm]
      rw [Memory.Mine, Memory.Mine, hfreed, hne]
      tauto
  | _ => exact (and_iff_left (by rintro ⟨⟩)).symm

/-- **Locality.**  An instruction on the own part changes nothing else, and the own part as it does the
shared memory. -/
theorem Confined.local (hi : Confined A o i) (h : Reflects A m o) (hlive : ∀ a, o.Mine A a → a ∈ m.live) :
    Local A m (exec i m).2 o (exec i o).2 where
  table := by cases hi <;> rfl
  headReady := fun b => by cases hi <;> rfl
  lockReady := fun b => by cases hi <;> rfl
  held := by cases hi <;> rfl
  own := by cases hi <;> rfl
  live := fun a => by
    have hmine := hlive a
    have hkept := mem_live_exec (fun hs => by cases hi <;> exact hs) (a := a) (i := i)
    rw [hi.mine_exec]
    by_cases hfree : i = .kfree (some a)
    · subst hfree
      have hfreed : a ∉ (exec (.kfree (some a)) m).2.live := Finset.notMem_erase a m.live
      have hown : o.Mine A a := by
        cases hi with
        | kfree ha => exact ha
      simp [hfreed, hown]
    · rw [hkept hfree m]
      tauto
  fresh := fun a ha => .inl ((hi.mine_exec a).1 ha).1
  same := fun a _ ha => hi.same ha
  head := fun b hb => by
    cases hi with
    | store p hs =>
        refine Function.update_of_ne ?_ ..
        rintro rfl
        obtain ⟨c, hc, hbc⟩ := hs
        exact hb (by rwa [(Prod.mk.inj hbc).2])
    | _ => rfl
  reflects := by
    refine ⟨fun a ha => hi.sameAt (h.block a ((hi.mine_exec a).1 ha).1), fun b hb => ?_⟩
    have hheld : b ∈ o.held := by
      cases hi <;> exact hb
    cases hi with
    | store p hs =>
        change Function.update m.links.slot _ p _ = Function.update o.links.slot _ p _
        rw [Function.update_apply, Function.update_apply, h.head b hheld]
    | _ => exact h.head b hheld

end Own

/-! ### Steps on a part -/

section Steps

variable {A : Base} {m m' : Memory} {D : Ledger ι} {G : ι → Custody} {t : Store H} {i j : ι}

/-- The owners after the part of thread `i` has changed from `o` to `o'`. -/
def Ledger.moved (D : Ledger ι) (A : Base) (i : ι) (o o' : Memory) : Ledger ι :=
  { D with
    owner := fun a =>
      if o'.Mine A a then some (.thread i) else if o.Mine A a then none else D.owner a }

namespace Shared

variable (h : Shared H A m D G t)
include h

theorem mem_live (i : ι) {a : Addr} (ha : (G i).own.Mine A a) : a ∈ m.live :=
  (h.live a).2 fun hnone => by
    rw [(h.thread i a).2 ha] at hnone
    cases hnone

/-- A block belongs to one thread. -/
theorem eq_of_mine {a : Addr} (hi : (G i).own.Mine A a) (hj : (G j).own.Mine A a) : j = i := by
  have howner := (h.thread j a).2 hj
  rw [(h.thread i a).2 hi] at howner
  cases howner
  rfl

/-- A lock is held by one thread. -/
theorem eq_of_held {b : ℕ} (hi : b ∈ (G i).own.held) (hj : b ∈ (G j).own.held) : j = i := by
  have hholder := (h.holder j b).2 hj
  rw [(h.holder i b).2 hi] at hholder
  cases hholder
  rfl

/-- The blocks of a chain at rest belong to no thread. -/
theorem not_mine_of_resting {b : ℕ} (hb : b < H.n) (hfree : D.holder b = none) {a : Addr}
    (ha : a ∈ m.owned (D.chains b)) : a ∈ m.live ∧ ∀ i, ¬ (G i).own.Mine A a := by
  have howner := (h.bucket b a).2 ⟨hb, hfree, ha⟩
  refine ⟨(h.live a).2 (by simp [howner]), fun i hi => ?_⟩
  rw [(h.thread i a).2 hi] at howner
  cases howner

/-- What becomes of the owner of a block: the thread gets it or keeps it, gives it back, or has nothing to
do with it. -/
theorem owner_moved {o' : Memory} (hl : Local A m m' (G i).own o') (a : Addr) :
    (o'.Mine A a ∧ (D.moved A i (G i).own o').owner a = some (.thread i) ∧
      (D.owner a = some (.thread i) ∨ D.owner a = none)) ∨
    (¬ o'.Mine A a ∧ (D.moved A i (G i).own o').owner a = none ∧ D.owner a = some (.thread i)) ∨
    (¬ o'.Mine A a ∧ (D.moved A i (G i).own o').owner a = D.owner a ∧
      D.owner a ≠ some (.thread i)) := by
  have howner : (D.moved A i (G i).own o').owner a =
      if o'.Mine A a then some (.thread i) else if (G i).own.Mine A a then none else D.owner a := rfl
  by_cases ha : o'.Mine A a
  · refine .inl ⟨ha, howner.trans (if_pos ha), (hl.fresh a ha).imp (h.thread i a).2 fun hdead => ?_⟩
    by_contra hne
    exact hdead ((h.live a).2 hne)
  · rw [if_neg ha] at howner
    by_cases hai : (G i).own.Mine A a
    · exact .inr (.inl ⟨ha, howner.trans (if_pos hai), (h.thread i a).2 hai⟩)
    · exact .inr (.inr ⟨ha, howner.trans (if_neg hai), mt (h.thread i a).1 hai⟩)

/-- **A step of one thread on its own part.** -/
theorem step [DecidableEq ι] {o' : Memory} (hl : Local A m m' (G i).own o') :
    Shared H A m' (D.moved A i (G i).own o') (Function.update G i ⟨o', (G i).seen⟩) t := by
  -- the chains at rest are left as they are
  have hrest : ∀ b < H.n, D.holder b = none → ∀ a ∈ m.owned (D.chains b), SameAt m m' a := by
    intro b hb hfree a ha
    obtain ⟨hlive, hmine⟩ := h.not_mine_of_resting hb hfree ha
    exact hl.same a hlive (hmine i)
  have hcases := h.owner_moved hl
  refine
    { table := hl.table.trans h.table
      distinct := h.distinct
      headReady := fun b => (hl.headReady b).trans (h.headReady b)
      lockReady := fun b => (hl.lockReady b).trans (h.lockReady b)
      live := fun a => ?_
      arrays := fun a => ?_
      locked := fun b => hl.held ▸ h.locked b
      lt := hl.held ▸ h.lt
      nodup := hl.held ▸ h.nodup
      resting := fun b hfree => ?_
      bucket := fun b a => ?_
      reflects := fun j => ?_
      thread := fun j a => ?_
      holder := fun j b => ?_
      seen := fun j b hb => ?_ }
  · rw [hl.live, h.live, ← h.thread]
    obtain ⟨ha, hnew, hold⟩ | ⟨ha, hnew, hold⟩ | ⟨ha, hnew, hold⟩ := hcases a <;>
      simp [ha, hnew, hold]
  · rw [← h.arrays]
    obtain ⟨ha, hnew, hold | hold⟩ | ⟨ha, hnew, hold⟩ | ⟨ha, hnew, hold⟩ := hcases a <;>
      simp [hnew, hold]
  · refine (h.resting b hfree).congr (hl.head b fun hb => ?_) (hrest b b.2 hfree)
    exact Option.some_ne_none _ (((h.holder i b).2 hb).symm.trans hfree)
  · have hiff : D.owner a = some (.bucket b) ↔
        b < H.n ∧ D.holder b = none ∧ a ∈ m'.owned (D.chains b) := by
      rw [h.bucket]
      exact and_congr_right fun hb => and_congr_right fun hfree => by
        rw [owned_of_same (hrest b hb hfree)]
    refine Iff.trans ?_ hiff
    obtain ⟨ha, hnew, hold | hold⟩ | ⟨ha, hnew, hold⟩ | ⟨ha, hnew, hold⟩ := hcases a <;>
      simp [hnew, hold]
  · by_cases hji : j = i
    · subst hji
      rw [Function.update_self]
      exact hl.reflects
    · rw [Function.update_of_ne hji]
      refine (h.reflects j).congr (fun a ha => ?_) fun b hb => ?_
      · exact hl.same a (h.mem_live j ha) fun hai => hji (h.eq_of_mine hai ha)
      · exact hl.head b fun hbi => hji (h.eq_of_held hbi hb)
  · by_cases hji : j = i
    · subst hji
      rw [Function.update_self]
      obtain ⟨ha, hnew, hold⟩ | ⟨ha, hnew, hold⟩ | ⟨ha, hnew, hold⟩ := hcases a <;>
        simp [ha, hnew, hold]
    · have hij : i ≠ j := Ne.symm hji
      rw [Function.update_of_ne hji, ← h.thread j a]
      obtain ⟨ha, hnew, hold | hold⟩ | ⟨ha, hnew, hold⟩ | ⟨ha, hnew, hold⟩ := hcases a <;>
        simp [hnew, hold, hij]
  · by_cases hji : j = i
    · subst hji
      rw [Function.update_self, hl.own]
      exact h.holder j b
    · rw [Function.update_of_ne hji]
      exact h.holder j b
  · by_cases hji : j = i
    · subst hji
      rw [Function.update_self] at hb ⊢
      exact h.seen j b (hl.own ▸ hb)
    · rw [Function.update_of_ne hji] at hb ⊢
      exact h.seen j b hb

end Shared

end Steps

/-! ### What a thread gains, and gives back -/

/-- The heads of the one, and the nodes of the other. -/
def splice (l l' : Hlist.Links (Ptr × ℕ) Addr) : Hlist.Links (Ptr × ℕ) Addr where
  slot
    | .head hd => l.slot (.head hd)
    | .next a => l'.slot (.next a)
  pprev := l'.pprev

/-- The own memory with other live blocks, the contents of which are those that they have in `m`. -/
def Memory.gain (o m : Memory) (live : Finset Addr) : Memory :=
  { o with
    live := live
    links := splice o.links m.links
    key := m.key
    value := m.value
    string := m.string }

/-- The own memory when the chain of bucket `b`, which consists of `es`, has been locked. -/
def Memory.enter (o m : Memory) (A : Base) (b : ℕ) (es : List Addr) : Memory :=
  let g := o.gain m (o.live ∪ (m.owned es).toFinset)
  { g with held := [b], links := g.links.store (A.head b) (m.links.slot (A.head b)) }

/-- The own memory when everything has been given back. -/
def Memory.vacate (o : Memory) (A : Base) : Memory :=
  { o with live := {A.buckets, A.locks}, held := [], links := ⟨fun _ => none, o.links.pprev⟩ }

section Own

variable {A : Base} {m o : Memory} {a : Addr} {b : ℕ} {es hand : List Addr}

theorem sameAt_gain (o m : Memory) (live : Finset Addr) (a : Addr) : SameAt m (o.gain m live) a :=
  ⟨rfl, rfl, rfl, rfl, rfl⟩

theorem head_gain (o m : Memory) (live : Finset Addr) (hd : Ptr × ℕ) :
    (o.gain m live).links.slot (.head hd) = o.links.slot (.head hd) := rfl

theorem slot_enter {s : Place} (hs : s ≠ A.head b) (o m : Memory) (es : List Addr) :
    (o.enter m A b es).links.slot s = (splice o.links m.links).slot s := Function.update_of_ne hs ..

theorem slot_enter_self (o m : Memory) (A : Base) (b : ℕ) (es : List Addr) :
    (o.enter m A b es).links.slot (A.head b) = m.links.slot (A.head b) := Function.update_self ..

theorem sameAt_enter (o m : Memory) (A : Base) (b : ℕ) (es : List Addr) (a : Addr) :
    SameAt m (o.enter m A b es) a := by
  have hne : Hlist.Slot.next a ≠ A.head b := by simp [Base.head]
  exact ⟨slot_enter hne .., rfl, rfl, rfl, rfl⟩

/-- The blocks of an own memory, from its layout. -/
theorem Locked.intro (htable : o.table = A.toTable H) (hheld : o.held = [b]) (hb : b < H.n)
    (hhead : ∀ c, o.headReady A.buckets c = decide (c < H.n))
    (hlock : ∀ c, o.lockReady A.locks c = decide (c < H.n))
    (hothers : ∀ c < H.n, c ≠ b → o.links.slot (A.head c) = none) (hchain : o.links.Chain (A.head b) es)
    (hvalue : ∀ e ∈ es, o.value e ≠ none)
    (haccounts : Accounts o.live (hand ++ (o.owned es ++ [A.buckets, A.locks]))) :
    Locked H A o b es hand where
  held := hheld
  lt := hb
  holds :=
    { table := htable
      ready_le := le_rfl
      guarded_le := le_rfl
      chain := fun c hc => by
        by_cases hcb : c = b
        · subst hcb
          rw [Layout.chains_set_self]
          exact hchain
        · rw [Layout.chains_set_of_ne _ _ hcb]
          exact hothers c hc hcb
      value := fun c hc e he => by
        by_cases hcb : c = b
        · subst hcb
          rw [Layout.chains_set_self] at he
          exact hvalue e he
        · rw [Layout.chains_set_of_ne _ _ hcb] at he
          cases he
      headReady := hhead
      lockReady := hlock
      accounts := by
        refine haccounts.perm (List.Perm.append_left hand ?_)
        have hperm := ((A.layout H).set b es).blocks_perm o (b := b) hb
        rw [Layout.chains_set_self, others_layout_set] at hperm
        exact hperm.symm }

/-- The thread has allocated a block. -/
theorem Outside.gain (h : Outside H A o hand) (ha : a ∉ o.live) (m : Memory) :
    Outside H A (o.gain m (insert a o.live)) (a :: hand) where
  held := h.held
  holds :=
    { table := h.holds.table
      ready_le := le_rfl
      guarded_le := le_rfl
      chain := fun c hc => (head_gain ..).trans (h.holds.chain c hc)
      value := fun c _ e he => by cases he
      headReady := h.holds.headReady
      lockReady := h.holds.lockReady
      accounts := by
        rw [blocks_layout]
        exact h.accounts.cons ha }

/-- The thread has allocated a block, under the lock. -/
theorem Locked.gain (h : Locked H A o b es hand) (ha : a ∉ o.live) (hm : ∀ c ∈ o.owned es, SameAt o m c) :
    Locked H A (o.gain m (insert a o.live)) b es (a :: hand) := by
  have hsame : ∀ c ∈ o.owned es, SameAt o (o.gain m (insert a o.live)) c := fun c hc =>
    (hm c hc).trans (sameAt_gain ..)
  refine .intro h.holds.table h.held h.lt h.holds.headReady h.holds.lockReady (fun c hc hcb => ?_)
    (chain_of_same h.chain (head_gain ..) hsame) (fun e he => ?_) ?_
  · have hchain := h.holds.chain c hc
    rw [Layout.chains_set_of_ne _ _ hcb] at hchain
    exact (head_gain ..).trans hchain
  · rw [(hsame e (mem_owned_self o he)).value]
    exact h.value he
  · rw [owned_of_same hsame]
    exact h.accounts.cons ha

/-- The thread has locked a bucket. -/
theorem Outside.enter (h : Outside H A o hand) (hb : b < H.n) {chain : KvHash.Chain}
    (hrest : Resting A m b es chain) (hdisj : ∀ c ∈ m.owned es, c ∉ o.live) :
    Locked H A (o.enter m A b es) b es hand := by
  have hsame : ∀ c ∈ m.owned es, SameAt m (o.enter m A b es) c := fun c _ => sameAt_enter ..
  refine .intro h.holds.table rfl hb h.holds.headReady h.holds.lockReady (fun c hc hcb => ?_)
    (chain_of_same hrest.links (slot_enter_self ..) hsame) hrest.value ?_
  · have hne : A.head c ≠ A.head b := fun heq => hcb (congrArg Prod.snd (Hlist.Slot.head.inj heq))
    exact (slot_enter hne ..).trans (h.holds.chain c hc)
  · have howned : (o.enter m A b es).owned es = m.owned es := rfl
    have hnodup : (hand ++ (m.owned es ++ [A.buckets, A.locks])).Nodup := by
      have hperm : (hand ++ (m.owned es ++ [A.buckets, A.locks])).Perm
          (m.owned es ++ (hand ++ [A.buckets, A.locks])) := by
        rw [← List.append_assoc, ← List.append_assoc]
        exact List.perm_append_comm.append_right _
      refine hperm.nodup_iff.2 (List.nodup_append.2 ⟨hrest.nodup, h.accounts.nodup, ?_⟩)
      rintro c hc _ hc' rfl
      exact hdisj c hc (h.accounts.mem hc')
    rw [howned]
    refine ⟨hnodup, fun c => ?_⟩
    have hlive : c ∈ (o.enter m A b es).live ↔ c ∈ o.live ∨ c ∈ m.owned es := by
      rw [← List.mem_toFinset]
      exact Finset.mem_union
    rw [hlive, h.accounts.mem_iff]
    simp only [List.mem_append]
    tauto

/-- The thread has nothing left. -/
theorem Locked.vacate (h : Locked H A o b es hand) : Outside H A (o.vacate A) [] where
  held := rfl
  holds :=
    { table := h.holds.table
      ready_le := le_rfl
      guarded_le := le_rfl
      chain := fun c hc => rfl
      value := fun c _ e he => by cases he
      headReady := h.holds.headReady
      lockReady := h.holds.lockReady
      accounts := by
        rw [blocks_layout]
        have hnodup := h.accounts.nodup
        rw [← List.append_assoc] at hnodup
        exact ⟨(List.nodup_append.1 hnodup).2.1, fun c => by simp [Memory.vacate]⟩ }

theorem mine_gain (ha : a ≠ A.buckets ∧ a ≠ A.locks) (m : Memory) (c : Addr) :
    (o.gain m (insert a o.live)).Mine A c ↔ c = a ∨ o.Mine A c := by
  have hlive : c ∈ (o.gain m (insert a o.live)).live ↔ c = a ∨ c ∈ o.live := Finset.mem_insert
  rw [Memory.Mine, Memory.Mine, hlive]
  constructor
  · rintro ⟨hc, hne⟩
    exact hc.imp id fun hc => ⟨hc, hne⟩
  · rintro (rfl | ⟨hc, hne⟩)
    · exact ⟨.inl rfl, ha⟩
    · exact ⟨.inr hc, hne⟩

theorem not_mine_vacate (o : Memory) (A : Base) (a : Addr) : ¬ (o.vacate A).Mine A a := by
  rintro ⟨ha, hb, hl⟩
  have hmem : a ∈ ({A.buckets, A.locks} : Finset Addr) := ha
  simp [hb, hl] at hmem

/-- An allocation concerns the new block, whatever string is written into it. -/
theorem local_kmalloc (ha : a ∉ m.live) (harrays : A.buckets ∈ m.live ∧ A.locks ∈ m.live)
    (h : Reflects A m o) (hlive : ∀ c, o.Mine A c → c ∈ m.live) {f : Addr → CStr}
    (hf : ∀ c ∈ m.live, f c = m.string c) :
    Local A m { (m.kmalloc (some a)).2 with string := f } o
      (o.gain { (m.kmalloc (some a)).2 with string := f } (insert a o.live)) := by
  have hne : a ≠ A.buckets ∧ a ≠ A.locks :=
    ⟨fun hab => ha (hab ▸ harrays.1), fun hab => ha (hab ▸ harrays.2)⟩
  have hmine := mine_gain hne (o := o) { (m.kmalloc (some a)).2 with string := f }
  have hsame : ∀ c ∈ m.live, SameAt m { (m.kmalloc (some a)).2 with string := f } c := fun c hc =>
    ⟨rfl, rfl, rfl, rfl, hf c hc⟩
  exact
    { table := rfl
      headReady := fun b => (Memory.headReady_kmalloc ha A.buckets b).trans (if_neg hne.1.symm)
      lockReady := fun b => (Memory.lockReady_kmalloc ha A.locks b).trans (if_neg hne.2.symm)
      held := rfl
      own := rfl
      live := fun c => by
        have hlive' : c ∈ (m.kmalloc (some a)).2.live ↔ c = a ∨ c ∈ m.live := by
          rw [Memory.live_kmalloc ha, Finset.mem_insert]
        have hc := hlive c
        change c ∈ (m.kmalloc (some a)).2.live ↔ _
        rw [hlive', hmine]
        tauto
      fresh := fun c hc => ((hmine c).1 hc).elim (fun hca => .inr (hca ▸ ha)) .inl
      same := fun c hc _ => hsame c hc
      head := fun b _ => rfl
      reflects := ⟨fun c _ => (sameAt_gain ..).symm, fun b hb => (h.head b hb).trans (head_gain ..).symm⟩ }

end Own

/-! ### Locks -/

section Locks

variable [DecidableEq ι] {A : Base} {m : Memory} {D : Ledger ι} {G : ι → Custody} {t : Store H} {i : ι}
  {b : ℕ}

/-- The ledger after thread `i` has locked bucket `b`. -/
def Ledger.locked (D : Ledger ι) (i : ι) (b : ℕ) : Ledger ι :=
  { D with
    owner := fun a => if D.owner a = some (.bucket b) then some (.thread i) else D.owner a
    holder := Function.update D.holder b (some i) }

/-- The ledger after thread `i` has given back the lock of bucket `b` and everything else, with the entries
`es` in the chain of the bucket. -/
def Ledger.unlocked (D : Ledger ι) (i : ι) (b : ℕ) (es : List Addr) : Ledger ι where
  chains := Function.update D.chains b es
  owner := fun a => if D.owner a = some (.thread i) then some (.bucket b) else D.owner a
  holder := Function.update D.holder b none

/-- What is held does not concern the blocks. -/
theorem sameAt_held (m : Memory) (bs : List ℕ) (a : Addr) : SameAt m { m with held := bs } a :=
  ⟨rfl, rfl, rfl, rfl, rfl⟩

theorem Resting.of_held {es : List Addr} {chain : KvHash.Chain} (h : Resting A m b es chain)
    (bs : List ℕ) : Resting A { m with held := bs } b es chain :=
  h.congr rfl fun a _ => sameAt_held m bs a

theorem Reflects.of_held {o : Memory} (h : Reflects A m o) (bs : List ℕ) :
    Reflects A { m with held := bs } o :=
  h.congr (fun a _ => sameAt_held m bs a) fun _ _ => rfl

/-- **A thread locks a bucket.**  Its chain comes into the custody of the thread. -/
theorem Shared.lock (h : Shared H A m D G t) (hb : b < H.n) (hfree : D.holder b = none)
    {hand : List Addr} (ho : Outside H A (G i).own hand) :
    Shared H A { m with held := b :: m.held } (D.locked i b)
      (Function.update G i ⟨(G i).own.enter m A b (D.chains b), t.1.chain ⟨b, hb⟩⟩) t := by
  have howner : ∀ a, (D.locked i b).owner a =
      if D.owner a = some (.bucket b) then some (.thread i) else D.owner a := fun _ => rfl
  have hbucket : ∀ a, D.owner a = some (.bucket b) ↔ a ∈ m.owned (D.chains b) := fun a => by
    rw [h.bucket]
    exact ⟨fun ha => ha.2.2, fun ha => ⟨hb, hfree, ha⟩⟩
  have hmine : ∀ a, ((G i).own.enter m A b (D.chains b)).Mine A a ↔
      (G i).own.Mine A a ∨ a ∈ m.owned (D.chains b) := by
    intro a
    have hlive : a ∈ ((G i).own.enter m A b (D.chains b)).live ↔
        a ∈ (G i).own.live ∨ a ∈ m.owned (D.chains b) := by
      rw [← List.mem_toFinset]
      exact Finset.mem_union
    rw [Memory.Mine, Memory.Mine, hlive]
    refine ⟨fun ⟨ha, hne⟩ => ha.imp_left fun ha => ⟨ha, hne⟩, ?_⟩
    rintro (⟨ha, hne⟩ | ha)
    · exact ⟨.inl ha, hne⟩
    · have harrays := mt (h.arrays a).2 (by simp [(hbucket a).2 ha])
      exact ⟨.inr ha, not_or.1 harrays⟩
  refine
    { table := h.table
      distinct := h.distinct
      headReady := h.headReady
      lockReady := h.lockReady
      live := fun a => ?_
      arrays := fun a => ?_
      locked := fun c => ?_
      lt := fun c hc => (List.mem_cons.1 hc).elim (fun hcb => hcb ▸ hb) (h.lt c)
      nodup := List.nodup_cons.2 ⟨fun hmem => (h.locked b).1 hmem hfree, h.nodup⟩
      resting := fun c hc => ?_
      bucket := fun c a => ?_
      reflects := fun j => ?_
      thread := fun j a => ?_
      holder := fun j c => ?_
      seen := fun j c hc => ?_ }
  · rw [howner, h.live]
    by_cases ha : D.owner a = some (.bucket b) <;> simp [ha]
  · rw [howner, ← h.arrays]
    by_cases ha : D.owner a = some (.bucket b) <;> simp [ha]
  · rw [List.mem_cons, h.locked]
    by_cases hcb : c = b
    · simp [hcb, Ledger.locked]
    · simp [hcb, Ledger.locked]
  · by_cases hcb : c.1 = b
    · simp [hcb, Ledger.locked] at hc
    · exact (h.resting c (by simpa [hcb, Ledger.locked] using hc)).of_held _
  · rw [howner]
    by_cases hcb : c = b
    · subst hcb
      by_cases ha : D.owner a = some (.bucket c) <;> simp [ha, Ledger.locked]
    · have hbucket' := h.bucket c a
      change _ ↔ c < H.n ∧ (D.locked i b).holder c = none ∧ a ∈ m.owned (D.chains c)
      by_cases ha : D.owner a = some (.bucket b)
      · rw [ha] at hbucket'
        have hbc : b ≠ c := Ne.symm hcb
        simpa [ha, hcb, hbc, Ledger.locked] using hbucket'
      · simpa [ha, hcb, Ledger.locked] using hbucket'
  · by_cases hji : j = i
    · subst hji
      rw [Function.update_self]
      refine Reflects.of_held ⟨fun a _ => (sameAt_enter ..).symm, fun c hc => ?_⟩ _
      obtain rfl : c = b := List.mem_singleton.1 hc
      exact (slot_enter_self ..).symm
    · rw [Function.update_of_ne hji]
      exact (h.reflects j).of_held _
  · rw [howner]
    by_cases hji : j = i
    · subst hji
      rw [Function.update_self, hmine, ← h.thread, ← hbucket]
      by_cases ha : D.owner a = some (.bucket b) <;> simp [ha]
    · have hij : i ≠ j := Ne.symm hji
      rw [Function.update_of_ne hji, ← h.thread]
      by_cases ha : D.owner a = some (.bucket b) <;> simp [ha, hij]
  · by_cases hji : j = i
    · subst hji
      rw [Function.update_self]
      have hnone : D.holder c ≠ some j := by
        rw [Ne, h.holder, ho.held]
        exact List.not_mem_nil
      by_cases hcb : c = b
      · simp [hcb, Ledger.locked, Memory.enter]
      · simp [hcb, Ledger.locked, Memory.enter, hnone]
    · rw [Function.update_of_ne hji, ← h.holder]
      have hij : i ≠ j := Ne.symm hji
      by_cases hcb : c = b
      · simp [hcb, Ledger.locked, hfree, hij]
      · simp [hcb, Ledger.locked]
  · by_cases hji : j = i
    · subst hji
      rw [Function.update_self] at hc ⊢
      obtain rfl : c = ⟨b, hb⟩ := Fin.ext (List.mem_singleton.1 hc)
      rfl
    · rw [Function.update_of_ne hji] at hc ⊢
      exact h.seen j c hc

/-- **A thread gives back the lock of a bucket**, with the chain as it is now. -/
theorem Shared.unlock (h : Shared H A m D G t) {es : List Addr} (ho : Locked H A (G i).own b es [])
    {t' : Store H} (ht : t'.1.chain = Function.update t.1.chain ⟨b, ho.lt⟩ ((G i).own.entries es)) :
    Shared H A { m with held := m.held.erase b } (D.unlocked i b es)
      (Function.update G i ⟨(G i).own.vacate A, (G i).seen⟩) t' := by
  have howner : ∀ a, (D.unlocked i b es).owner a =
      if D.owner a = some (.thread i) then some (.bucket b) else D.owner a := fun _ => rfl
  have hmine : ∀ a, (G i).own.Mine A a ↔ a ∈ (G i).own.owned es := fun a => by
    rw [ho.mine_iff]
    simp
  have hholder : D.holder b = some i := (h.holder i b).2 (by simp [ho.held])
  have hsame : ∀ a ∈ (G i).own.owned es, SameAt (G i).own m a := fun a ha =>
    (h.reflects i).block a ((hmine a).2 ha)
  have howned : m.owned es = (G i).own.owned es := owned_of_same hsame
  have hrest : Resting A m b es (t'.1.chain ⟨b, ho.lt⟩) := by
    rw [ht, Function.update_self]
    exact Resting.congr ⟨ho.chain, fun e he => ho.value he, ho.nodup_owned, rfl⟩
      ((h.reflects i).head b (by simp [ho.held])) hsame
  refine
    { table := h.table
      distinct := h.distinct
      headReady := h.headReady
      lockReady := h.lockReady
      live := fun a => ?_
      arrays := fun a => ?_
      locked := fun c => ?_
      lt := fun c hc => h.lt c (List.mem_of_mem_erase hc)
      nodup := h.nodup.erase b
      resting := fun c hc => ?_
      bucket := fun c a => ?_
      reflects := fun j => ?_
      thread := fun j a => ?_
      holder := fun j c => ?_
      seen := fun j c hc => ?_ }
  · rw [howner, h.live]
    by_cases ha : D.owner a = some (.thread i) <;> simp [ha]
  · rw [howner, ← h.arrays]
    by_cases ha : D.owner a = some (.thread i) <;> simp [ha]
  · rw [h.nodup.mem_erase_iff, h.locked]
    by_cases hcb : c = b <;> simp [hcb, Ledger.unlocked]
  · by_cases hcb : c.1 = b
    · obtain rfl : c = ⟨b, ho.lt⟩ := Fin.ext hcb
      have hchains : (D.unlocked i b es).chains b = es := Function.update_self ..
      rw [hchains]
      exact hrest.of_held _
    · have hne : c ≠ ⟨b, ho.lt⟩ := fun heq => hcb (congrArg Fin.val heq)
      have hchains : (D.unlocked i b es).chains c = D.chains c := Function.update_of_ne hcb ..
      rw [hchains, ht, Function.update_of_ne hne]
      exact (h.resting c (by simpa [hcb, Ledger.unlocked] using hc)).of_held _
  · rw [howner]
    have hbucket := h.bucket c a
    change _ ↔ c < H.n ∧ _ ∧ a ∈ m.owned ((D.unlocked i b es).chains c)
    by_cases hcb : c = b
    · subst hcb
      have hthread := h.thread i a
      rw [hmine] at hthread
      have hnot : D.owner a ≠ some (.bucket c) := fun ha => by
        rw [hbucket.1 ha |>.2.1] at hholder
        cases hholder
      have hchains : (D.unlocked i c es).chains c = es := Function.update_self ..
      rw [hchains, howned, ← hthread]
      by_cases ha : D.owner a = some (.thread i) <;> simp [ha, hnot, ho.lt, Ledger.unlocked]
    · have hchains : (D.unlocked i b es).chains c = D.chains c := Function.update_of_ne hcb ..
      have hbc : b ≠ c := Ne.symm hcb
      rw [hchains]
      by_cases ha : D.owner a = some (.thread i)
      · rw [ha] at hbucket
        simpa [ha, hcb, hbc, Ledger.unlocked] using hbucket
      · simpa [ha, hcb, Ledger.unlocked] using hbucket
  · by_cases hji : j = i
    · subst hji
      rw [Function.update_self]
      exact ⟨fun a ha => (not_mine_vacate _ A a ha).elim, fun c hc => absurd hc List.not_mem_nil⟩
    · rw [Function.update_of_ne hji]
      exact (h.reflects j).of_held _
  · rw [howner]
    by_cases hji : j = i
    · subst hji
      rw [Function.update_self]
      have hnot := not_mine_vacate (G j).own A a
      by_cases ha : D.owner a = some (.thread j) <;> simp [ha, hnot]
    · have hij : i ≠ j := Ne.symm hji
      rw [Function.update_of_ne hji, ← h.thread]
      by_cases ha : D.owner a = some (.thread i) <;> simp [ha, hij]
  · by_cases hji : j = i
    · subst hji
      have hheld := h.holder j c
      rw [ho.held] at hheld
      rw [Function.update_self]
      by_cases hcb : c = b
      · simp [hcb, Ledger.unlocked, Memory.vacate]
      · simpa [hcb, Ledger.unlocked, Memory.vacate] using hheld
    · rw [Function.update_of_ne hji, ← h.holder]
      have hij : i ≠ j := Ne.symm hji
      by_cases hcb : c = b
      · simp [hcb, Ledger.unlocked, hholder, hij]
      · simp [hcb, Ledger.unlocked]
  · by_cases hji : j = i
    · subst hji
      rw [Function.update_self] at hc
      cases hc
    · rw [Function.update_of_ne hji] at hc ⊢
      have hne : c ≠ ⟨b, ho.lt⟩ := by
        rintro rfl
        exact hji (h.eq_of_held (i := i) (by simp [ho.held]) hc)
      rw [ht, Function.update_of_ne hne]
      exact h.seen j c hc

end Locks

/-! ### The rules -/

/-- The operation, with these outcomes of its allocations, answers `r` and makes `after` of the chain of
bucket `b`, where this chain is `before`. -/
def Takes (b : Fin H.n) (before : KvHash.Chain) (op : Op H) (f : Alloc) (r : KvHash.Res op)
    (after : KvHash.Chain) : Prop :=
  ∀ t : Store H, t.1.chain b = before → (KvHash.exec f op t).1 = r ∧
    (KvHash.exec f op t).2.1.chain = Function.update t.1.chain b after

section Rules

variable [DecidableEq ι] {A : Base} {m : Memory} {D : Ledger ι} {G : ι → Custody} {t : Store H} {i : ι}
  {fuel : ℕ} {α β γ : Type} {Q : α → Custody → Prog (Op H) KvHash.Res β → Prop} {v : Custody}
  {q : Prog (Op H) KvHash.Res β} {b : ℕ} {es hand : List Addr}

namespace Shared

variable (h : Shared H A m D G t)
include h

omit [DecidableEq ι] in
/-- The arrays are live. -/
theorem mem_live_arrays : A.buckets ∈ m.live ∧ A.locks ∈ m.live := by
  have hlive : ∀ a, a = A.buckets ∨ a = A.locks → a ∈ m.live := fun a ha =>
    (h.live a).2 (by simp [(h.arrays a).2 ha])
  exact ⟨hlive _ (.inl rfl), hlive _ (.inr rfl)⟩

omit [DecidableEq ι] in
/-- The own memory of a thread is a part of the shared one. -/
theorem mem_live_of_own {a : Addr} (ha : a ∈ (G i).own.live) : a ∈ m.live := by
  by_cases harray : a = A.buckets ∨ a = A.locks
  · have harrays := h.mem_live_arrays
    rcases harray with rfl | rfl
    · exact harrays.1
    · exact harrays.2
  · exact h.mem_live i ⟨ha, not_or.1 harray⟩

omit [DecidableEq ι] in
/-- An instruction on the own part is in order. -/
theorem legal {j : Instr} (hj : Confined A (G i).own j) : Legal A m (G i) j := by
  obtain ⟨hlock, ⟨a, ha, huses, hhead⟩ | ⟨b, hb, huses, hhead⟩⟩ := hj.uses
  · refine ⟨safe_of_uses (h.mem_live i ha) huses hlock, ⟨by simp [hhead], by simp [hlock]⟩,
      paired_of_lockOf_none hlock _, fun c hc => .inl ?_, by simp [hhead]⟩
    rwa [Option.some.inj (Option.some.inj (hc.symm.trans huses))]
  · have hheld : b ∈ m.held := (h.locked b).2 (by simp [(h.holder i b).2 hb])
    refine ⟨safe_of_uses h.mem_live_arrays.1 huses hlock, ⟨fun p c hp => ?_, by simp [hlock]⟩,
      paired_of_lockOf_none hlock _, fun c _ => .inr (by simp [hhead]), fun hd hhd => ?_⟩
    · obtain ⟨rfl, rfl⟩ := Prod.mk.inj (Option.some.inj (hhead.symm.trans hp))
      exact ⟨_, rfl, (h.headReady _).trans (decide_eq_true (h.lt _ hheld))⟩
    · exact ⟨b, hb, Option.some.inj (hhd.symm.trans hhead)⟩

/-- An instruction on the own part keeps the protocol. -/
theorem exec_own {j : Instr} (hj : Confined A (G i).own j) :
    ∃ D', Shared H A (exec j m).2 D' (Function.update G i ⟨(exec j (G i).own).2, (G i).seen⟩) t :=
  ⟨_, h.step (hj.local (h.reflects i) fun _ => h.mem_live i)⟩

/-- An allocation keeps the protocol. -/
theorem alloc {a : Addr} (ha : a ∉ m.live) {f : Addr → CStr} (hf : ∀ c ∈ m.live, f c = m.string c) :
    ∃ D', Shared H A { (m.kmalloc (some a)).2 with string := f } D' (Function.update G i
      ⟨(G i).own.gain { (m.kmalloc (some a)).2 with string := f } (insert a (G i).own.live),
        (G i).seen⟩) t :=
  ⟨_, h.step (local_kmalloc ha h.mem_live_arrays (h.reflects i) (fun _ => h.mem_live i) hf)⟩

end Shared

/-- **A program on the own part**, and what follows it. -/
theorem upholds_own {p : Code γ} {k : γ → Code α} {R : γ → Memory → Prop} {seen : KvHash.Chain}
    {o : Memory} (hp : p.Ensures exec (Confined A) R o)
    (hk : ∀ x o', R x o' → (protocol ι H A fuel).Upholds i Q (k x) ⟨o', seen⟩ q) :
    (protocol ι H A fuel).Upholds i Q (p >>= k) ⟨o, seen⟩ q := by
  induction p generalizing o with
  | ret x => exact hk x o ((Prog.ensures_ret ..).1 hp)
  | call j c ih =>
      obtain ⟨hj, hrest⟩ := (Prog.ensures_call ..).1 hp
      rintro m G t ⟨D, h⟩ hv -
      have hown : Confined A (G i).own j := by
        rw [hv]
        exact hj
      have hlegal : Legal A m (G i) j := h.legal hown
      obtain ⟨D', h'⟩ := h.exec_own hown
      have hfst : (exec j m).1 = (exec j o).1 := by
        have hreflects := h.reflects i
        rw [hv] at hreflects
        exact hj.fst_exec hreflects
      rw [hv] at h' hlegal
      refine ⟨hlegal, fun _ _ => ⟨⟨(exec j o).2, seen⟩, .inl ⟨⟨D', h'⟩, ?_⟩⟩⟩
      change (protocol ι H A fuel).Upholds i Q (c (exec j m).1 >>= k) _ q
      rw [hfst]
      exact ih _ hrest

/-- An instruction on the own part, and what follows it. -/
theorem upholds_instr {j : Instr} {k : Res j → Code α} {seen : KvHash.Chain} {o : Memory}
    (hj : Confined A o j)
    (hk : (protocol ι H A fuel).Upholds i Q (k (exec j o).1) ⟨(exec j o).2, seen⟩ q) :
    (protocol ι H A fuel).Upholds i Q (.call j k) ⟨o, seen⟩ q := by
  have hp : (instr j).Ensures exec (Confined A) (fun x o' => x = (exec j o).1 ∧ o' = (exec j o).2) o :=
    (Prog.ensures_call ..).2 ⟨hj, (Prog.ensures_ret ..).2 ⟨rfl, rfl⟩⟩
  refine upholds_own hp fun x o' hx => ?_
  obtain ⟨rfl, rfl⟩ := hx
  exact hk

/-- The structure is read. -/
theorem upholds_table {k : Table → Code α}
    (hk : (protocol ι H A fuel).Upholds i Q (k (A.toTable H)) v q) :
    (protocol ι H A fuel).Upholds i Q (instr .table >>= k) v q := by
  rintro m G t ⟨D, h⟩ rfl -
  have hsame := Function.update_eq_self i G
  refine ⟨⟨safe_of_uses_none rfl rfl, by simp [Ready, Instr.headOf, Instr.lockOf], trivial,
    by simp [Instr.uses], by simp [Instr.headOf]⟩, fun _ _ => ⟨G i, .inl ⟨⟨D, ?_⟩, ?_⟩⟩⟩
  · rw [hsame]
    exact h
  · change (protocol ι H A fuel).Upholds i Q (k m.table) (G i) q
    rw [h.table]
    exact hk

/-- A thread has a new block. -/
def Gained (A : Base) (o : Memory) (a : Addr) (m : Memory) : Prop :=
  a ∉ o.live ∧ ∀ c, o.Mine A c → SameAt o m c

omit [DecidableEq ι] in
theorem Shared.gained (h : Shared H A m D G t) {a : Addr} (ha : a ∉ m.live) {f : Addr → CStr}
    (hf : ∀ c ∈ m.live, f c = m.string c) :
    Gained A (G i).own a { (m.kmalloc (some a)).2 with string := f } := by
  refine ⟨fun hlive => ha (h.mem_live_of_own hlive), fun c hc => ?_⟩
  have hsame := (h.reflects i).block c hc
  exact ⟨hsame.next, hsame.pprev, hsame.key, hsame.value, (hf c (h.mem_live i hc)).trans hsame.string⟩

theorem legal_alloc {j : Instr} (huses : j.uses = none) (hlock : j.lockOf = none)
    (hhead : j.headOf = none) : Legal A m v j :=
  ⟨safe_of_uses_none huses hlock, by simp [Ready, hhead, hlock], paired_of_lockOf_none hlock _,
    by simp [huses], by simp [hhead]⟩

/-- **A block is allocated**, or there is none. -/
theorem upholds_kmalloc {place : Ptr} {k : Ptr → Code α}
    (hnone : (protocol ι H A fuel).Upholds i Q (k none) v q)
    (hsome : ∀ a m, Gained A v.own a m →
      (protocol ι H A fuel).Upholds i Q (k (some a)) ⟨v.own.gain m (insert a v.own.live), v.seen⟩ q) :
    (protocol ι H A fuel).Upholds i Q (.call (.kmalloc place) k) v q := by
  rintro m G t ⟨D, h⟩ rfl -
  refine ⟨legal_alloc rfl rfl rfl, fun _ _ => ?_⟩
  by_cases hfound : Found m.live place
  · obtain ⟨a, rfl, ha⟩ := hfound
    obtain ⟨D', h'⟩ := h.alloc (i := i) ha (f := m.string) fun _ _ => rfl
    have hgained := h.gained (i := i) ha (f := m.string) fun _ _ => rfl
    refine ⟨_, .inl ⟨⟨D', h'⟩, ?_⟩⟩
    change (protocol ι H A fuel).Upholds i Q (k (m.kmalloc (some a)).1) _ q
    rw [Memory.fst_kmalloc ha]
    exact hsome a _ hgained
  · have hexec : exec (.kmalloc place) m = (none, m) := Memory.kmalloc_of_not_found hfound
    have hsame := Function.update_eq_self i G
    refine ⟨G i, .inl ?_⟩
    change (∃ D, Shared H A (exec (.kmalloc place) m).2 D _ t) ∧
      (protocol ι H A fuel).Upholds i Q (k (exec (.kmalloc place) m).1) (G i) q
    rw [hexec, hsame]
    exact ⟨⟨D, h⟩, hnone⟩

/-- **A string is copied**, or there is no memory for it; then the operation is over, with an answer that
says so. -/
theorem upholds_kstrdup {s : CStr} {place : Ptr} {k : Ptr → Code α} {op : Op H}
    {g : KvHash.Res op → Prog (Op H) KvHash.Res β} {f : Alloc} {r : KvHash.Res op}
    (heff : ∀ t : Store H, KvHash.exec f op t = (r, t))
    (hnone : (protocol ι H A fuel).Upholds i Q (k none) v (g r))
    (hsome : ∀ a m, Gained A v.own a m → m.string a = s →
      (protocol ι H A fuel).Upholds i Q (k (some a)) ⟨v.own.gain m (insert a v.own.live), v.seen⟩
        (.call op g)) :
    (protocol ι H A fuel).Upholds i Q (.call (.kstrdup s place) k) v (.call op g) := by
  rintro m G t ⟨D, h⟩ rfl -
  refine ⟨legal_alloc rfl rfl rfl, fun _ _ => ?_⟩
  by_cases hfound : Found m.live place
  · obtain ⟨a, rfl, ha⟩ := hfound
    have hf : ∀ c ∈ m.live, (exec (.kstrdup s (some a)) m).2.string c = m.string c := by
      intro c hc
      have hac : a ≠ c := fun hac => ha (hac ▸ hc)
      simp [exec, Memory.kmalloc, alloc_of_found ha, hac]
    have hstring : (exec (.kstrdup s (some a)) m).2.string a = s := by
      simp [exec, Memory.kmalloc, alloc_of_found ha]
    obtain ⟨D', h'⟩ := h.alloc (i := i) ha hf
    have hgained := h.gained (i := i) ha hf
    refine ⟨_, .inl ⟨⟨D', h'⟩, ?_⟩⟩
    change (protocol ι H A fuel).Upholds i Q (k (exec (.kstrdup s (some a)) m).1) _ (.call op g)
    rw [fst_kstrdup ha]
    exact hsome a _ hgained hstring
  · have hexec := exec_kstrdup_of_not_found hfound s
    have hsame := Function.update_eq_self i G
    refine ⟨G i, .inr ⟨f, ?_⟩⟩
    change (∃ D, Shared H A (exec (.kstrdup s place) m).2 D _ (KvHash.exec f op t).2) ∧
      (protocol ι H A fuel).Upholds i Q (k (exec (.kstrdup s place) m).1) (G i) (g (KvHash.exec f op t).1)
    rw [hexec, hsame, heff t]
    exact ⟨⟨D, h⟩, hnone⟩

/-- **A bucket is locked**: its chain comes into the custody of the thread, as the store has it. -/
theorem upholds_lock (hb : b < H.n) (ho : Outside H A v.own hand) {k : Unit → Code α}
    (hk : ∀ o' es, Locked H A o' b es hand → es.length ≤ fuel → (∀ a ∈ hand, SameAt v.own o' a) →
      (protocol ι H A fuel).Upholds i Q (k ()) ⟨o', o'.entries es⟩ q) :
    (protocol ι H A fuel).Upholds i Q (.call (.lock (some A.locks) b) k) v q := by
  rintro m G t ⟨D, h⟩ rfl hroom
  refine ⟨⟨⟨by simp [Instr.uses], fun p c hp => ?_⟩, ⟨by simp [Instr.headOf], fun p c hp => ?_⟩, ho.held,
    by simp [Instr.uses], by simp [Instr.headOf]⟩, fun hmay _ => ?_⟩
  · obtain ⟨rfl, rfl⟩ := Prod.mk.inj (Option.some.inj hp)
    exact ⟨_, h.mem_live_arrays.2, rfl⟩
  · obtain ⟨rfl, rfl⟩ := Prod.mk.inj (Option.some.inj hp)
    exact ⟨_, rfl, (h.lockReady _).trans (decide_eq_true hb)⟩
  · have hfree : D.holder b = none := by
      by_contra hne
      exact of_decide_eq_true hmay ((h.locked b).2 hne)
    have hrest := h.resting ⟨b, hb⟩ hfree
    have hlocked := ho.enter hb hrest fun c hc hlive => by
      have hmine := h.not_mine_of_resting hb hfree hc
      have howner := (h.bucket b c).2 ⟨hb, hfree, hc⟩
      refine hmine.2 i ⟨hlive, not_or.1 (mt (h.arrays c).2 (by simp [howner]))⟩
    have hseen : ((G i).own.enter m A b (D.chains b)).entries (D.chains b) = t.1.chain ⟨b, hb⟩ :=
      hrest.entries
    have hlen : (D.chains b).length ≤ fuel := by
      have hcard := hlocked.holds.length_chain_le (b := b) hb
      rw [Layout.chains_set_self] at hcard
      refine (hcard.trans (Finset.card_le_card fun c hc => ?_)).trans hroom
      rcases Finset.mem_union.1 hc with hc | hc
      · exact h.mem_live_of_own hc
      · exact (h.not_mine_of_resting hb hfree (List.mem_toFinset.1 hc)).1
    refine ⟨_, .inl ⟨⟨_, h.lock hb hfree ho⟩, ?_⟩⟩
    rw [← hseen]
    refine hk _ _ hlocked hlen fun a ha => ?_
    exact ((h.reflects i).block a ((ho.mine_iff a).2 ha)).trans (sameAt_enter ..)

/-- **The lock is given back**: the operation takes effect. -/
theorem upholds_unlock (ho : Locked H A v.own b es []) {k : Unit → Code α} {op : Op H}
    {g : KvHash.Res op → Prog (Op H) KvHash.Res β} {f : Alloc} {r : KvHash.Res op}
    (htakes : Takes ⟨b, ho.lt⟩ v.seen op f r (v.own.entries es))
    (hk : Outside H A (v.own.vacate A) [] →
      (protocol ι H A fuel).Upholds i Q (k ()) ⟨v.own.vacate A, v.seen⟩ (g r)) :
    (protocol ι H A fuel).Upholds i Q (.call (.unlock (some A.locks) b) k) v (.call op g) := by
  rintro m G t ⟨D, h⟩ rfl -
  refine ⟨⟨⟨by simp [Instr.uses], fun p c hp => ?_⟩, ⟨by simp [Instr.headOf], fun p c hp => ?_⟩, ho.held,
    by simp [Instr.uses], by simp [Instr.headOf]⟩, fun _ _ => ?_⟩
  · obtain ⟨rfl, rfl⟩ := Prod.mk.inj (Option.some.inj hp)
    exact ⟨_, h.mem_live_arrays.2, rfl⟩
  · obtain ⟨rfl, rfl⟩ := Prod.mk.inj (Option.some.inj hp)
    exact ⟨_, rfl, (h.lockReady _).trans (decide_eq_true ho.lt)⟩
  · have hheld : b ∈ (G i).own.held := by simp [ho.held]
    obtain ⟨hret, hchain⟩ := htakes t (h.seen i ⟨b, ho.lt⟩ hheld)
    refine ⟨_, .inr ⟨f, ⟨_, h.unlock ho hchain⟩, ?_⟩⟩
    change (protocol ι H A fuel).Upholds i Q (k ()) _ (g (KvHash.exec f op t).1)
    rw [hret]
    exact hk ho.vacate

end Rules

end KvMemory
