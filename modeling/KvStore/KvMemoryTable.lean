/-
**The table in memory, and the store it stands for.**

`kv_hash_init` either sets up a table all of whose buckets are empty, or leaves nothing behind.  From then
on every call finds a table in memory and leaves one, and answers what the store of `KvStore/KvHash.lean`
answers.  Where there is no table, because `ht->buckets` is `NULL`, every call is refused at once.

Main definitions:

* `KvMemory.Whole` — **the memory holds a table**, and no call is under way;
* `KvMemory.Absent` — there is no table;
* `KvMemory.Usable` — one or the other;
* `KvMemory.Call.onStore` — what a call does to the store;
* `KvMemory.Memory.unused`, `KvMemory.started`, `KvMemory.after` — a memory of which nothing has been
  allocated, what `kv_hash_init` makes of it, and what calls make of that.

Main results:

* `KvMemory.Call.ensures` — **what holds of every call of a table**;
* `KvMemory.Absent.run`, `KvMemory.Absent.trace` — a call where there is no table;
* `KvMemory.ensures_kvHashInit` — what `kv_hash_init` does;
* `KvMemory.run_refines` — **refinement**: the table in memory behaves as the store.
-/

import KvStore.KvMemoryCalls

set_option relaxedAutoImplicit false
set_option autoImplicit false

namespace KvMemory

open CMem KvHash KvIoctl Interleave Blocks

variable {H : HashFn}

/-! ### Tables at rest -/

/-- The memory holds a table with the layout `L`, all of it initialised, and no call is under way. -/
structure Whole (H : HashFn) (m : Memory) (L : Layout) : Prop where
  holds : Holds H m L []
  held : m.held = []
  complete : L.guarded = H.n

/-- There is no table. -/
structure Absent (m : Memory) : Prop where
  buckets : m.table.buckets = none
  held : m.held = []

/-- What the calls of the operations find: a table, or none. -/
def Usable (H : HashFn) (m : Memory) : Prop := Absent m ∨ ∃ L, Whole H m L

namespace Whole

variable {m : Memory} {L : Layout}

theorem ready (h : Whole H m L) : L.ready = H.n :=
  le_antisymm h.holds.ready_le (h.complete ▸ h.holds.guarded_le)

theorem lt_guarded (h : Whole H m L) (key : HashKey) : H.hashMin key < L.guarded :=
  (H.hashMin_lt key).trans_eq h.complete.symm

/-- The live blocks are those of the table. -/
theorem accounts (h : Whole H m L) : Accounts m.live (L.blocks m) := h.holds.accounts

end Whole

/-! ### What a call leaves -/

section Leaves

variable {m t : Memory} {L L' : Layout} {key : HashKey} {chain : KvHash.Chain}

theorem Leaves.whole (h : Leaves H L m (H.hashMin key) chain t L') (hm : Whole H m L) :
    Whole H t L' where
  holds := h.holds
  held := h.held
  complete := (Layout.frame_eq_iff.1 h.frame).2.2.2.trans hm.complete

/-- One chain of the table has been exchanged. -/
theorem Leaves.table_eq (h : Leaves H L m (H.hashMin key) chain t L') (hm : Whole H m L) :
    L'.table H t =
      ⟨some (Function.update (fun b => m.entries (L.chains b)) (H.kvBucket key) chain)⟩ := by
  refine congrArg (fun bs => HashTable.mk (some bs)) (funext fun b => ?_)
  have hready : L'.ready = H.n := (h.whole hm).ready
  by_cases hb : b = H.kvBucket key
  · subst hb
    rw [Function.update_self]
    exact h.entries
  · rw [Function.update_of_ne hb]
    exact h.others b (b.2.trans_eq hready.symm) fun hbk => hb (Fin.ext hbk)

/-- `kv_hash_add` exchanges one chain, if any. -/
theorem kvHashAdd_snd_eq (bs : Fin H.n → KvHash.Chain) (key : HashKey) (value : List UInt8)
    (alloc : Alloc) :
    (KvHash.kvHashAdd ⟨some bs⟩ key value alloc).2 = ⟨some (Function.update bs (H.kvBucket key)
      ((KvHash.kvHashAdd ⟨some bs⟩ key value alloc).2.chain (H.kvBucket key)))⟩ := by
  cases hstr : alloc.kstrdup with
  | false => simp [KvHash.kvHashAdd, hstr]
  | true =>
      cases hup : updateExisting key (cstr value) (bs (H.kvBucket key)) with
      | some chain => simp [KvHash.kvHashAdd, hstr, hup]
      | none => cases hmal : alloc.kmalloc <;> simp [KvHash.kvHashAdd, hstr, hup, hmal]

/-- `kv_hash_remove` exchanges one chain, if any. -/
theorem kvHashRemove_snd_eq (bs : Fin H.n → KvHash.Chain) (key : HashKey) :
    (KvHash.kvHashRemove ⟨some bs⟩ key).2 = ⟨some (Function.update bs (H.kvBucket key)
      ((KvHash.kvHashRemove ⟨some bs⟩ key).2.chain (H.kvBucket key)))⟩ := by
  cases hun : KvHash.unlink key (bs (H.kvBucket key)) <;> simp [KvHash.kvHashRemove, hun]

end Leaves

/-! ### Calls of a table -/

/-- What the call does to the store. -/
def Call.onStore (c : Call) (m : Memory) (s : Store H) : ℤ × Store H :=
  match c with
  | .add key value places => s.add key value (places.alloc m)
  | .remove key => s.remove key
  | .lookup key _ outBuf => ((KvHash.kvHashLookup s.1 key outBuf).1, s)
  | .count => ((KvHash.kvHashCount.run (KvHash.exec .ok) s).1.toInt, s)
  | .snapshot entries maxEntries =>
      (((KvHash.kvHashSnapshot entries maxEntries).run (KvHash.exec .ok) s).1.1, s)

/-- A call of a table: its instructions are in order, it returns and leaves a table, and what it answers
and leaves is what the store answers and becomes. -/
theorem Call.ensures {m : Memory} {L : Layout} (h : Whole H m L) (c : Call) :
    (c.code H m.live.card).Ensures exec (Fine H.n)
      (fun r t => ∃ ret L', r = some ret ∧ Whole H t L' ∧ ∀ s : Store H, s.1 = L.table H m →
        ret = (c.onStore m s).1 ∧ (c.onStore m s).2.1 = L'.table H t) m := by
  rw [← h.ready]
  cases c with
  | add key value places =>
      refine (ensures_kvHashAdd h.holds h.held (h.lt_guarded key) le_rfl value places).mono exec
        (fun _ _ => id) ?_
      rintro r t ⟨rfl, L', hleaves⟩
      refine ⟨_, L', rfl, hleaves.whole h, fun s hs => ⟨?_, ?_⟩⟩
      · exact congrArg (fun ht => (KvHash.kvHashAdd ht key value (places.alloc m)).1) hs.symm
      · refine (congrArg (fun ht => (KvHash.kvHashAdd ht key value (places.alloc m)).2) hs).trans ?_
        exact (kvHashAdd_snd_eq ..).trans (hleaves.table_eq h).symm
  | remove key =>
      refine (ensures_kvHashRemove h.holds h.held (h.lt_guarded key) le_rfl).mono exec
        (fun _ _ => id) ?_
      rintro r t ⟨rfl, L', hleaves⟩
      refine ⟨_, L', rfl, hleaves.whole h, fun s hs => ⟨?_, ?_⟩⟩
      · exact congrArg (fun ht => (KvHash.kvHashRemove ht key).1) hs.symm
      · refine (congrArg (fun ht => (KvHash.kvHashRemove ht key).2) hs).trans ?_
        exact (kvHashRemove_snd_eq ..).trans (hleaves.table_eq h).symm
  | lookup key n outBuf =>
      refine (Prog.ensures_bind ..).2 ((ensures_kvHashLookup h.holds h.held (h.lt_guarded key) le_rfl
        outBuf).mono exec (fun _ _ => id) ?_)
      rintro r t ⟨rfl, rfl⟩
      refine (Prog.ensures_ret ..).2 ⟨_, L, rfl, h, fun s hs => ⟨?_, hs⟩⟩
      exact congrArg (fun ht => (KvHash.kvHashLookup ht key outBuf).1) hs.symm
  | count =>
      refine (Prog.ensures_bind ..).2 ((ensures_kvHashCount h.holds h.held h.complete le_rfl).mono exec
        (fun _ _ => id) ?_)
      rintro r t ⟨rfl, a, rfl, ha⟩
      refine (Prog.ensures_ret ..).2 ⟨_, L, rfl, h, fun s hs => ⟨?_, hs⟩⟩
      exact congrArg Int32.toInt (ha s hs .ok).symm
  | snapshot entries maxEntries =>
      refine (Prog.ensures_bind ..).2 ((ensures_kvHashSnapshot h.holds h.held h.complete le_rfl entries
        maxEntries).mono exec (fun _ _ => id) ?_)
      rintro r t ⟨rfl, a, rfl, ha⟩
      refine (Prog.ensures_ret ..).2 ⟨_, L, rfl, h, fun s hs => ⟨?_, hs⟩⟩
      exact congrArg Prod.fst (ha s hs .ok).symm

/-! ### Calls where there is no table -/

namespace Absent

variable {m : Memory}

theorem trace (h : Absent m) (c : Call) : c.trace H m = [.table] := by
  cases c <;>
    simp [Call.trace, Call.code, kvHashAdd, kvHashRemove, kvHashLookup, kvHashCount, kvHashSnapshot, instr,
      exec, h.buckets]

theorem run (h : Absent m) (c : Call) : c.run H m = (some (-EINVAL), m) := by
  cases c <;>
    simp [Call.run, Call.code, kvHashAdd, kvHashRemove, kvHashLookup, kvHashCount, kvHashSnapshot, instr,
      exec, h.buckets]
  rfl

/-- Nothing but the structure is looked at. -/
theorem along (h : Absent m) {P : Memory → Instr → Prop} (hP : P m .table) (c : Call) :
    (c.code H m.live.card).Along exec P m := by
  have htrace : (c.code H m.live.card).trace exec m = [.table] := h.trace c
  rw [Prog.Along, htrace]
  exact ⟨hP, trivial⟩

end Absent

/-! ### `kv_hash_init` -/

/-- The arrays have been allocated, and none of their buckets has been initialised. -/
theorem holds_arrays {m : Memory} {a c : Addr} (htable : m.table = ⟨some a, some c, H.bits⟩) (hca : c ≠ a)
    (hlive : m.live = {c, a}) (hhead : ∀ b, m.headReady a b = false)
    (hlock : ∀ b, m.lockReady c b = false) : Holds H m ⟨a, c, 0, 0, fun _ => []⟩ [] where
  table := htable
  ready_le := Nat.zero_le _
  guarded_le := le_rfl
  chain := fun _ hb => absurd hb (Nat.not_lt_zero _)
  value := fun _ hb => absurd hb (Nat.not_lt_zero _)
  headReady := by simpa using hhead
  lockReady := by simpa using hlock
  accounts := by
    rw [hlive]
    refine ((Accounts.empty.cons (Finset.notMem_empty a)).cons ?_).perm (List.Perm.swap ..)
    simpa using hca

/-- The loop of `kv_hash_init`, with `j` buckets to go. -/
theorem ensures_initBuckets (j : ℕ) {m : Memory} {L : Layout} (h : Holds H m L []) (hheld : m.held = [])
    (hg : L.guarded = L.ready) (hempty : ∀ b, L.chains b = []) (hj : L.ready + j = H.n) :
    (initBuckets (some L.buckets) (some L.locks) (List.range' L.ready j)).Ensures exec Safe
      (fun _ t => ∃ L', Whole H t L' ∧ ∀ b, L'.chains b = []) m := by
  induction j generalizing m L with
  | zero => exact (Prog.ensures_ret ..).2 ⟨L, ⟨h, hheld, hg.trans hj⟩, hempty⟩
  | succ j ih =>
      have hlt : L.ready < H.n := by omega
      have hhead := h.initHead hlt
      have hlock := hhead.initLock (Nat.lt_succ_of_le hg.le)
      have hsafeHead : Safe m (.initHead (some L.buckets) L.ready) := by
        refine ⟨fun p hp => ⟨_, h.live_buckets, (Option.some.inj hp).symm⟩, fun p b hp => ?_⟩
        cases hp
      have hsafeLock : Safe (exec (.initHead (some L.buckets) L.ready) m).2
          (.initLock (some L.locks) L.ready) := by
        refine ⟨fun p hp => ⟨_, h.live_locks, (Option.some.inj hp).symm⟩, fun p b hp => ?_⟩
        cases hp
      rw [List.range'_succ, initBuckets]
      simp only [instr, Prog.call_bind, Prog.ret_bind, Prog.ensures_call]
      refine ⟨hsafeHead, hsafeLock, ?_⟩
      rw [show L.growHead.guarded = L.ready from hg] at hlock
      refine ih hlock hheld (congrArg (· + 1) hg) (fun b => ?_) (by rw [← hj]; exact Nat.succ_add_eq_add_succ ..)
      by_cases hb : b = L.ready
      · rw [hb]
        exact L.chains_growHead_self
      · exact (Function.update_of_ne hb ..).trans (hempty b)

/-- Memory is allocated, if there is any. -/
theorem ensures_kmalloc {α : Type} {P : Memory → Instr → Prop} {Q : α → Memory → Prop} {m : Memory}
    {p : Ptr} {k : Ptr → Code α} (hP : P m (.kmalloc p))
    (hnone : ¬ Found m.live p → (k none).Ensures exec P Q m)
    (hsome : ∀ a, p = some a → a ∉ m.live → (k (some a)).Ensures exec P Q (m.kmalloc (some a)).2) :
    (instr (.kmalloc p) >>= k).Ensures exec P Q m := by
  refine (Prog.ensures_call ..).2 ⟨hP, ?_⟩
  by_cases hfound : Found m.live p
  · obtain ⟨a, rfl, ha⟩ := hfound
    have hret : (exec (.kmalloc (some a)) m).1 = some a := Memory.fst_kmalloc ha
    rw [hret]
    exact hsome a rfl ha
  · have hexec : exec (.kmalloc p) m = (none, m) := Memory.kmalloc_of_not_found hfound
    rw [hexec]
    exact hnone hfound

theorem safe_of_uses_none {m : Memory} {i : Instr} (hi : i.uses = none) (hlock : i.lockOf = none) :
    Safe m i := by
  simp [Safe, hi, hlock]

/-- What `kv_hash_init` leaves: an empty table, or nothing. -/
def Started (H : HashFn) (ret : ℤ) (m : Memory) : Prop :=
  (ret = 0 ∧ ∃ L, Whole H m L ∧ ∀ b, L.chains b = []) ∨ (ret = -ENOMEM ∧ Absent m ∧ m.live = ∅)

/-- The second part of `kv_hash_init`, where the heads have been allocated. -/
theorem ensures_initLocks {m : Memory} {a : Addr} (htable : m.table = ⟨some a, none, H.bits⟩)
    (hlive : m.live = {a}) (hhead : ∀ b, m.headReady a b = false) (hheld : m.held = []) (place : Ptr) :
    (initLocks H.bits (some a) place).Ensures exec Safe (Started H) m := by
  refine ensures_kmalloc (safe_of_uses_none rfl rfl) (fun _ => ?_) fun c _ hc => ?_
  · -- the heads are given back
    have hsafe : Safe m (.kfree (some a)) := by
      refine ⟨fun p hp => ⟨a, by simp [hlive], (Option.some.inj hp).symm⟩, ?_⟩
      rintro p b ⟨⟩
    refine ⟨⟨safe_of_uses_none rfl rfl, hsafe, safe_of_uses_none rfl rfl, safe_of_uses_none rfl rfl,
      trivial⟩, .inr ⟨rfl, ⟨rfl, hheld⟩, ?_⟩⟩
    change m.live.erase a = ∅
    simp [hlive]
  · have hca : c ≠ a := fun hca => hc (by simp [hca, hlive])
    have hlivec : (m.kmalloc (some c)).2.live = {c, a} := by rw [Memory.live_kmalloc hc, hlive]
    have hheadc : ∀ b, (m.kmalloc (some c)).2.headReady a b = false := fun b => by
      rw [Memory.headReady_kmalloc hc, if_neg hca.symm, hhead]
    have hlockc : ∀ b, (m.kmalloc (some c)).2.lockReady c b = false := fun b => by
      rw [Memory.lockReady_kmalloc hc, if_pos rfl]
    have harrays : Holds H (exec (.setBucketLocks (some c)) (m.kmalloc (some c)).2).2
        ⟨a, c, 0, 0, fun _ => []⟩ [] := by
      refine holds_arrays ?_ hca hlivec hheadc hlockc
      change Table.mk m.table.buckets (some c) m.table.bits = _
      rw [htable]
    have hloop : (initBuckets (some a) (some c) (List.range (2 ^ H.bits)) >>= fun _ => Prog.ret 0).Ensures
        exec Safe (Started H) (exec (.setBucketLocks (some c)) (m.kmalloc (some c)).2).2 := by
      rw [Prog.ensures_bind, List.range_eq_range']
      refine (ensures_initBuckets H.n harrays hheld rfl (fun _ => rfl) (Nat.zero_add _)).mono exec
        (fun _ _ => id) ?_
      rintro r t hwhole
      exact (Prog.ensures_ret ..).2 (.inl ⟨rfl, hwhole⟩)
    exact (Prog.ensures_call ..).2 ⟨safe_of_uses_none rfl rfl, hloop⟩

/-- **`kv_hash_init`.** -/
theorem ensures_kvHashInit (arrays : Arrays) {m : Memory} (hlive : m.live = ∅) (hheld : m.held = []) :
    (kvHashInit H.bits arrays).Ensures exec Safe (Started H) m := by
  refine (Prog.ensures_call ..).2 ⟨safe_of_uses_none rfl rfl, (Prog.ensures_call ..).2
    ⟨safe_of_uses_none rfl rfl, ensures_kmalloc (safe_of_uses_none rfl rfl) (fun _ => ?_)
      fun a _ ha => ?_⟩⟩
  · exact ⟨⟨safe_of_uses_none rfl rfl, safe_of_uses_none rfl rfl, trivial⟩,
      .inr ⟨rfl, ⟨rfl, hheld⟩, hlive⟩⟩
  · have hrest : (initLocks H.bits (some a) arrays.bucketLocks).Ensures exec Safe (Started H)
        (exec (.setBuckets (some a))
          ((exec (.setBits H.bits) (exec .clearTable m).2).2.kmalloc (some a)).2).2 := by
      refine ensures_initLocks rfl ?_ (fun b => ?_) ?_ arrays.bucketLocks
      · exact (Memory.live_kmalloc ha).trans (congrArg (insert a) hlive)
      · exact (Memory.headReady_kmalloc ha a b).trans (if_pos rfl)
      · exact hheld
    exact (Prog.ensures_call ..).2 ⟨safe_of_uses_none rfl rfl, hrest⟩

/-! ### Runs -/

/-- The memory when nothing has been allocated; its contents are arbitrary. -/
def Memory.unused (m : Memory) : Memory := { m with live := ∅, held := [] }

/-- A memory that nothing has been written to. -/
def blank : Memory where
  table := .zero
  live := ∅
  links := ⟨fun _ => none, fun _ => LIST_POISON2⟩
  key := fun _ => 0
  value := fun _ => none
  string := fun _ => cstr []
  headReady := fun _ _ => false
  lockReady := fun _ _ => false
  held := []

/-- `kv_hash_init` in a memory of which nothing has been allocated. -/
def started (H : HashFn) (arrays : Arrays) (m : Memory) : ℤ × Memory :=
  (kvHashInit H.bits arrays).run exec m.unused

/-- The memory after a call. -/
def Call.next (H : HashFn) (m : Memory) (c : Call) : Memory := (c.run H m).2

/-- The memory after `kv_hash_init` and a sequence of calls. -/
def after (H : HashFn) (arrays : Arrays) (m : Memory) (calls : List Call) : Memory :=
  Machine.run (Call.next H) (started H arrays m).2 calls

theorem started_spec (H : HashFn) (arrays : Arrays) (m : Memory) :
    Started H (started H arrays m).1 (started H arrays m).2 :=
  (ensures_kvHashInit arrays (m := m.unused) rfl rfl).2

theorem Whole.next {m : Memory} {L : Layout} (h : Whole H m L) (c : Call) :
    ∃ L', Whole H (c.next H m) L' := by
  obtain ⟨ret, L', -, hwhole, -⟩ := (c.ensures h).2
  exact ⟨L', hwhole⟩

theorem Absent.next {m : Memory} (h : Absent m) (c : Call) : c.next H m = m :=
  congrArg Prod.snd (h.run c)

/-- A table of two buckets, arrays 1 and 2, after an entry has been added to it: the entry 4, with the
value 3. -/
def oneEntry : Memory := after twoBuckets ⟨some 1, some 2⟩ blank [.add 7 [97] ⟨some 3, some 4⟩]

/-- After a successful `kv_hash_init` there is always a table. -/
theorem exists_whole_after {arrays : Arrays} {m : Memory} (h : (started H arrays m).1 = 0)
    (calls : List Call) : ∃ L, Whole H (after H arrays m calls) L := by
  refine Machine.run_invariant (Call.next H) (fun t => ∃ L, Whole H t L) ?_ ?_
  · obtain ⟨-, L, hwhole, -⟩ | ⟨hret, -⟩ := started_spec H arrays m
    · exact ⟨L, hwhole⟩
    · rw [h] at hret
      cases hret
  · rintro c - t ⟨L, hwhole⟩
    exact hwhole.next c

/-- After a `kv_hash_init` that failed there is never anything. -/
theorem absent_after {arrays : Arrays} {m : Memory} (h : (started H arrays m).1 ≠ 0)
    (calls : List Call) : Absent (after H arrays m calls) ∧ (after H arrays m calls).live = ∅ := by
  refine Machine.run_invariant (Call.next H) (fun t => Absent t ∧ t.live = ∅) ?_ ?_
  · obtain ⟨hret, -⟩ | ⟨-, habsent, hlive⟩ := started_spec H arrays m
    · exact absurd hret h
    · exact ⟨habsent, hlive⟩
  · rintro c - t ⟨habsent, hlive⟩
    rw [habsent.next c]
    exact ⟨habsent, hlive⟩

/-- What calls find after `kv_hash_init` is usable, whether it succeeded or not. -/
theorem usable_after (H : HashFn) (arrays : Arrays) (m : Memory) (calls : List Call) :
    Usable H (after H arrays m calls) := by
  by_cases hret : (started H arrays m).1 = 0
  · exact .inr (exists_whole_after hret calls)
  · exact .inl (absent_after hret calls).1

/-! ### Refinement -/

/-- The table in memory stands for the store. -/
def Memory.Represents (m : Memory) (s : Store H) : Prop := ∃ L, Whole H m L ∧ s.1 = L.table H m

/-- The table that `kv_hash_init` sets up stands for the empty store. -/
theorem represents_started {arrays : Arrays} {m : Memory} (h : (started H arrays m).1 = 0) :
    (started H arrays m).2.Represents (Store.init H) := by
  obtain ⟨-, L, hwhole, hempty⟩ | ⟨hret, -⟩ := started_spec H arrays m
  · refine ⟨L, hwhole, congrArg (fun bs => HashTable.mk (some bs)) (funext fun b => ?_)⟩
    rw [hempty b]
    rfl
  · rw [h] at hret
    cases hret

/-- **Refinement.**  A call of the table in memory returns what the store answers, and the table then
stands for what the store has become. -/
theorem run_refines {m : Memory} {s : Store H} (h : m.Represents s) (c : Call) :
    (c.run H m).1 = some (c.onStore m s).1 ∧ (c.run H m).2.Represents (c.onStore m s).2 := by
  obtain ⟨L, hwhole, hs⟩ := h
  obtain ⟨ret, L', hret, hwhole', hstore⟩ := (c.ensures hwhole).2
  obtain ⟨hanswer, htable⟩ := hstore s hs
  exact ⟨hret.trans (congrArg some hanswer), L', hwhole', htable⟩

end KvMemory
