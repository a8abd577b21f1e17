/-
**Ioctls while the module is being loaded.**

`init_module` makes the device known to the system with `cdev_add`, and sets up the table only then.  So an
ioctl can come while `kv_hash_init` is under way: between two of its statements, after some of the rounds of
its loop, or before its first and after its last statement.

All operations ask first whether `ht->buckets` is `NULL`, and refuse if it is.  But `kv_hash_init` sets this
pointer before it has allocated the locks, and long before the last head and the last lock have been
initialised.

What is known of the memory at each place of `init_module` is an assertion that the ioctls which are
admitted there do not disturb.  The program with these assertions is its proof outline.

Main definitions:

* `KvMemory.initModule`, `KvMemory.loadStep` — `init_module` from `cdev_add` on, with the ioctls that come
  meanwhile;
* `KvMemory.LoadEvent.InOrder` — **an ioctl is refused, or uses what has been initialised**;
* `KvMemory.Stable` — an assertion that the ioctls which are admitted do not disturb.

Main results:

* `KvMemory.outlined_initModule` — the proof outline of `init_module`;
* `KvMemory.loading_in_order` — the ioctls are in order **if they are admitted**, and this is when they use
  nothing that has not been initialised.
-/

import KvStore.KvMemoryIoctl

set_option relaxedAutoImplicit false
set_option autoImplicit false

namespace KvMemory

open CMem KvHash KvIoctl Interleave Blocks

variable {H : HashFn}

/-! ### `init_module` -/

/-- What `init_module` meets once `cdev_add` has succeeded. -/
structure LoadEnv where
  /-- `class_create` succeeds -/
  classCreate : Bool
  /-- `device_create` succeeds -/
  deviceCreate : Bool
  arrays : Arrays

/-- `init_module` from `cdev_add` on. -/
def initModule (bits : ℕ) (env : LoadEnv) : Code ℤ :=
  if !env.classCreate then return -1
  else if !env.deviceCreate then return -1
  else do
    let ret ← kvHashInit bits env.arrays
    if ret < 0 then return -1
    return 0

/-- What happens while the module is being loaded: the next statement, or an ioctl. -/
inductive LoadEvent
  | statement
  | ioctl (c : IoctlCall)

/-- What is left of `init_module`, and the memory. -/
abbrev Loading := Code ℤ × Memory

/-- When `cdev_add` has succeeded: the structure is clear, and nothing has been allocated for it. -/
def Loading.start (H : HashFn) (env : LoadEnv) (m : Memory) : Loading :=
  (initModule H.bits env, { m.unused with table := .zero })

/-- One event. -/
def loadStep (H : HashFn) (s : Loading) : LoadEvent → Loading
  | .statement => s.1.step exec s.2
  | .ioctl c => (s.1, c.next H s.2)

/-- An ioctl returns `-EINVAL`, or uses heads and locks that have been initialised. -/
def LoadEvent.InOrder (H : HashFn) (s : Loading) : LoadEvent → Prop
  | .statement => True
  | .ioctl c => c.ret H s.2 = some (-EINVAL) ∨ (c.code H s.2.live.card).Along exec Ready s.2

/-- An ioctl uses heads and locks that have been initialised, whatever it returns. -/
def LoadEvent.Prepared (H : HashFn) (s : Loading) : LoadEvent → Prop
  | .statement => True
  | .ioctl c => (c.code H s.2.live.card).Along exec Ready s.2

/-- There are no buckets yet, or those that the ioctl addresses have locks. -/
def LoadEvent.Admitted (H : HashFn) (s : Loading) : LoadEvent → Prop
  | .statement => True
  | .ioctl c => c.Admitted H s.2

/-! ### Assertions -/

/-- Where the assertion holds, the ioctls that use what has been initialised are those that are admitted,
and they do not disturb it. -/
def Stable (H : HashFn) (A : Memory → Prop) : Prop :=
  ∀ m, A m → ∀ c : IoctlCall, ((c.code H m.live.card).Along exec Ready m ↔ c.Admitted H m) ∧
    (c.Admitted H m → A (c.next H m))

section Stable

variable {A : Memory → Prop}

/-- There are no buckets. -/
def Empty (m : Memory) : Prop := m.table.buckets = none

/-- There are buckets, and no locks. -/
def Unlocked (m : Memory) : Prop := m.table.buckets ≠ none ∧ m.table.bucketLocks = none

/-- Where there are no buckets, no ioctl changes anything. -/
theorem stable_of_empty (hA : ∀ m, A m → Empty m) : Stable H A := by
  intro m hm c
  obtain ⟨hready, hsame⟩ := c.ensures_of_absent (H := H) (hA m hm) m.live.card
  refine ⟨iff_of_true hready (.inl (hA m hm)), fun _ => ?_⟩
  rw [IoctlCall.next, hsame]
  exact hm

/-- Where there are buckets and no locks, only such ioctls are admitted as address no bucket. -/
theorem stable_of_unlocked (hA : ∀ m, A m → Unlocked m) : Stable H A := by
  intro m hm c
  obtain ⟨hbuckets, hlocks⟩ := hA m hm
  have hnone : ∀ b, ¬ m.LockReady m.table.bucketLocks b := by
    rintro b ⟨a, ha, -⟩
    exact Option.some_ne_none a (ha.symm.trans hlocks)
  by_cases haddr : ∃ b < H.n, c.Addresses H b
  · obtain ⟨b, hb, haddr⟩ := haddr
    have hrefused : ¬ c.Admitted H m := by
      rintro (hnull | hready)
      · exact hbuckets hnull
      · exact hnone b (hready b hb haddr)
    refine ⟨iff_of_false (fun hready => ?_) hrefused, fun h => absurd h hrefused⟩
    obtain ⟨b', hb'⟩ := IoctlCall.lockReady_of_along hbuckets haddr hready
    exact hnone b' hb'
  · have hfree : ∀ b < H.n, ¬ c.Addresses H b := fun b hb hab => haddr ⟨b, hb, hab⟩
    obtain ⟨r, hr⟩ := IoctlCall.exists_ret hfree m.live.card
    refine ⟨iff_of_true ?_ (.inr fun b hb hab => absurd hab (hfree b hb)), fun _ => ?_⟩
    · rw [hr]
      trivial
    · rw [IoctlCall.next, hr]
      exact hm

/-- Where the arrays are there, those are admitted for whose buckets the loop of `kv_hash_init` has been
through; they leave the arrays alone. -/
theorem stable_inUse (frame : Addr × Addr × ℕ × ℕ) : Stable H (InUse H frame) := by
  rintro m ⟨L, h, hheld, rfl⟩ c
  have hadmitted : c.Admitted H m ↔ ∀ b < H.n, c.Addresses H b → b < L.guarded := by
    have hbuckets : ¬ m.table.buckets = none := by simp [h.table]
    rw [IoctlCall.Admitted, or_iff_right hbuckets]
    exact forall₃_congr fun _ _ _ => h.lockReady_iff
  rw [hadmitted]
  constructor
  · constructor
    · exact fun halong b hb haddr => IoctlCall.guarded_of_along h hb haddr halong
    · intro hg
      exact Machine.Along.mono _ (c.ensures_of_guarded h hheld hg).1 fun _ _ _ hi => hi.2.1
  · exact fun hg => (c.ensures_of_guarded h hheld hg).2

end Stable

/-! ### The proof outline -/

section Outline

variable {m : Memory} {a c : Addr} {r g : ℕ}

/-- The loop initialises the next head. -/
theorem InUse.initHead (h : InUse H (a, c, r, g) m) (hr : r < H.n) :
    InUse H (a, c, r + 1, g) (exec (.initHead (some a) r) m).2 := by
  obtain ⟨L, hL, hheld, hframe⟩ := h
  obtain ⟨rfl, rfl, rfl, rfl⟩ := Layout.frame_eq_iff.1 hframe
  exact ⟨L.growHead, hL.initHead hr, hheld, rfl⟩

/-- The loop initialises the next lock. -/
theorem InUse.initLock (h : InUse H (a, c, r, g) m) (hg : g < r) :
    InUse H (a, c, r, g + 1) (exec (.initLock (some c) g) m).2 := by
  obtain ⟨L, hL, hheld, hframe⟩ := h
  obtain ⟨rfl, rfl, rfl, rfl⟩ := Layout.frame_eq_iff.1 hframe
  exact ⟨L.growLock, hL.initLock hg, hheld, rfl⟩

/-- The loop, with `j` rounds to go. -/
theorem outlined_initBuckets (j : ℕ) (h : InUse H (a, c, r, r) m) (hj : r + j = H.n) :
    (initBuckets (some a) (some c) (List.range' r j)).Outlined exec (Stable H) m := by
  induction j generalizing r m with
  | zero => exact ⟨_, stable_inUse _, h⟩
  | succ j ih =>
      rw [List.range'_succ]
      refine ⟨_, stable_inUse _, h, fun t ht => ⟨_, stable_inUse _, ht.initHead (by omega), ?_⟩⟩
      intro t' ht'
      exact ih (ht'.initLock (Nat.lt_succ_self r)) (by omega)

/-- Memory is allocated, if there is any. -/
theorem outlined_kmalloc {α : Type} {A : Memory → Prop} {p : Ptr} {k : Ptr → Code α} (hA : Stable H A)
    (hm : A m) (hnone : ∀ t, A t → (k none).Outlined exec (Stable H) t)
    (hsome : ∀ t a, A t → a ∉ t.live →
      (k (some a)).Outlined exec (Stable H) (t.kmalloc (some a)).2) :
    (instr (.kmalloc p) >>= k).Outlined exec (Stable H) m := by
  refine ⟨A, hA, hm, fun t ht => ?_⟩
  by_cases hfound : Found t.live p
  · obtain ⟨a, rfl, ha⟩ := hfound
    have hret : (exec (.kmalloc (some a)) t).1 = some a := Memory.fst_kmalloc ha
    rw [hret]
    exact hsome t a ht ha
  · have hexec : exec (.kmalloc p) t = (none, t) := Memory.kmalloc_of_not_found hfound
    rw [hexec]
    exact hnone t ht

/-- What `kv_hash_init` has made of the structure before it has allocated the locks. -/
structure Bare (H : HashFn) (buckets : Ptr) (live : Finset Addr) (m : Memory) : Prop where
  table : m.table = ⟨buckets, none, H.bits⟩
  live : m.live = live
  held : m.held = []

theorem Bare.unlocked {live : Finset Addr} (h : Bare H (some a) live m) : Unlocked m := by
  rw [Unlocked, h.table]
  exact ⟨Option.some_ne_none a, rfl⟩

theorem Bare.empty {live : Finset Addr} (h : Bare H none live m) : Empty m :=
  congrArg Table.buckets h.table

/-- The heads are given back. -/
theorem outlined_giveBack (h : Unlocked m) :
    (do
      instr (.kfree (some a))
      instr (.setBuckets none)
      instr (.setBits 0)
      return -ENOMEM : Code ℤ).Outlined exec (Stable H) m := by
  have hunlocked : Stable H Unlocked := stable_of_unlocked fun _ => id
  have hempty : Stable H Empty := stable_of_empty fun _ => id
  refine ⟨_, hunlocked, h, fun t ht => ⟨_, hunlocked, ht, fun t _ => ?_⟩⟩
  exact ⟨_, hempty, rfl, fun t ht => ⟨_, hempty, ht⟩⟩

/-- The second part of `kv_hash_init`, where the heads have been allocated. -/
theorem outlined_initLocks (h : Bare H (some a) {a} m) (hhead : ∀ b, m.headReady a b = false)
    (place : Ptr) : (initLocks H.bits (some a) place).Outlined exec (Stable H) m := by
  have hstable : Stable H fun t => Bare H (some a) {a} t ∧ ∀ b, t.headReady a b = false :=
    stable_of_unlocked fun _ ht => ht.1.unlocked
  refine outlined_kmalloc hstable ⟨h, hhead⟩ ?_ ?_
  · intro t ht
    refine ⟨_, hstable, ht, fun t ht => outlined_giveBack ?_⟩
    exact ⟨ht.1.unlocked.1, rfl⟩
  · rintro t c ⟨ht, hhead⟩ hc
    have hca : c ≠ a := fun hca => hc (by simp [hca, ht.live])
    have hboth : Stable H fun t => Bare H (some a) {c, a} t ∧ (∀ b, t.headReady a b = false) ∧
        ∀ b, t.lockReady c b = false := stable_of_unlocked fun _ ht => ht.1.unlocked
    refine ⟨_, hboth, ⟨⟨ht.table, ?_, ht.held⟩, fun b => ?_, fun b => ?_⟩, ?_⟩
    · rw [Memory.live_kmalloc hc, ht.live]
    · rw [Memory.headReady_kmalloc hc, if_neg hca.symm, hhead]
    · rw [Memory.lockReady_kmalloc hc, if_pos rfl]
    · rintro t ⟨ht, hhead, hlock⟩
      have harrays : Holds H (exec (.setBucketLocks (some c)) t).2 ⟨a, c, 0, 0, fun _ => []⟩ [] := by
        refine holds_arrays ?_ hca ht.live hhead hlock
        change Table.mk t.table.buckets (some c) t.table.bits = _
        rw [ht.table]
      have hloop := outlined_initBuckets H.n ⟨_, harrays, ht.held, rfl⟩ (Nat.zero_add _)
      rw [← List.range_eq_range'] at hloop
      exact hloop.bind exec fun _ A _ hA ht => ⟨A, hA, ht⟩

/-- `kv_hash_init`. -/
theorem outlined_kvHashInit (arrays : Arrays) (htable : m.table = .zero) (hlive : m.live = ∅)
    (hheld : m.held = []) : (kvHashInit H.bits arrays).Outlined exec (Stable H) m := by
  have hzero : Stable H fun t => t.table = .zero ∧ t.live = ∅ ∧ t.held = [] :=
    stable_of_empty fun _ ht => congrArg Table.buckets ht.1
  have hbare : Stable H (Bare H none ∅) := stable_of_empty fun _ => Bare.empty
  refine ⟨_, hzero, ⟨htable, hlive, hheld⟩, ?_⟩
  rintro t ⟨-, hlive, hheld⟩
  refine ⟨_, hzero, ⟨rfl, hlive, hheld⟩, ?_⟩
  rintro t ⟨htable, hlive, hheld⟩
  refine outlined_kmalloc hbare ⟨?_, hlive, hheld⟩ ?_ ?_
  · change Table.mk t.table.buckets t.table.bucketLocks H.bits = _
    rw [htable]
    rfl
  · intro t ht
    have hempty : Stable H Empty := stable_of_empty fun _ => id
    exact ⟨_, hempty, ht.empty, fun t _ => ⟨_, hempty, rfl, fun t ht => ⟨_, hempty, ht⟩⟩⟩
  · intro t a ht ha
    have hheads : Stable H fun t => Bare H none {a} t ∧ ∀ b, t.headReady a b = false :=
      stable_of_empty fun _ ht => ht.1.empty
    refine ⟨_, hheads, ⟨⟨ht.table, ?_, ht.held⟩, fun b => ?_⟩, ?_⟩
    · rw [Memory.live_kmalloc ha, ht.live]
      rfl
    · rw [Memory.headReady_kmalloc ha, if_pos rfl]
    · rintro t ⟨ht, hhead⟩
      have hbuckets : Bare H (some a) {a} (exec (.setBuckets (some a)) t).2 := by
        refine ⟨?_, ht.live, ht.held⟩
        change Table.mk (some a) t.table.bucketLocks t.table.bits = _
        rw [ht.table]
      have hrest := outlined_initLocks hbuckets hhead arrays.bucketLocks
      exact hrest

/-- **The proof outline of `init_module`.** -/
theorem outlined_initModule (env : LoadEnv) (htable : m.table = .zero) (hlive : m.live = ∅)
    (hheld : m.held = []) : (initModule H.bits env).Outlined exec (Stable H) m := by
  have hempty : Stable H Empty := stable_of_empty fun _ => id
  have hm : Empty m := congrArg Table.buckets htable
  rw [initModule]
  by_cases hclass : (!env.classCreate) = true
  · rw [if_pos hclass]
    exact ⟨_, hempty, hm⟩
  · rw [if_neg hclass]
    by_cases hdevice : (!env.deviceCreate) = true
    · rw [if_pos hdevice]
      exact ⟨_, hempty, hm⟩
    · rw [if_neg hdevice]
      refine (outlined_kvHashInit env.arrays htable hlive hheld).bind exec fun ret A t hA ht => ?_
      by_cases hret : ret < 0
      · rw [if_pos hret]
        exact ⟨A, hA, ht⟩
      · rw [if_neg hret]
        exact ⟨A, hA, ht⟩

end Outline

/-! ### Ioctls at any place -/

/-- **The ioctls that come while the module is being loaded.**  In every run in which they are admitted,
each of them is refused or uses nothing but heads and locks that have been initialised; and that they use
nothing else means that they are admitted. -/
theorem loading_in_order (H : HashFn) (env : LoadEnv) (m : Memory) (es : List LoadEvent) :
    (Machine.Along (loadStep H) (LoadEvent.Admitted H) (Loading.start H env m) es →
      Machine.Along (loadStep H) (LoadEvent.InOrder H) (Loading.start H env m) es) ∧
    (Machine.Along (loadStep H) (LoadEvent.Prepared H) (Loading.start H env m) es ↔
      Machine.Along (loadStep H) (LoadEvent.Admitted H) (Loading.start H env m) es) := by
  have hexact := Machine.along_iff_of_invariant (loadStep H) (P := LoadEvent.Prepared H)
    (Q := LoadEvent.Admitted H) (fun s : Loading => s.1.Outlined exec (Stable H) s.2)
    (s := Loading.start H env m) (outlined_initModule env rfl rfl rfl) ?_ ?_ es
  · refine ⟨fun h => Machine.Along.mono _ (hexact.2 h) ?_, hexact⟩
    rintro t (- | c) - he
    · trivial
    · exact .inr he
  · rintro t (- | c) houtlined
    · exact Iff.rfl
    · obtain ⟨A, hA, hm, -⟩ := houtlined.exists_assertion
      exact (hA _ hm c).1
  · rintro t (- | c) houtlined hadmitted
    · exact houtlined.step
    · obtain ⟨A, hA, hm, hany⟩ := houtlined.exists_assertion
      exact hany _ ((hA _ hm c).2 hadmitted)

/-- A `KV_GET` before the first statement of `kv_hash_init`, which is refused, and another one after one round
of its loop, for a key of the first bucket. -/
theorem loading_oneRound :
    Machine.Along (loadStep twoBuckets) (LoadEvent.InOrder twoBuckets)
      (Loading.start twoBuckets ⟨true, true, some 1, some 2⟩ blank)
      (.ioctl ⟨.ok, ⟨none, none⟩, .message .kvGet { KvMessage.zero with key := 0 }⟩ ::
        (List.replicate 8 .statement ++
          [.ioctl ⟨.ok, ⟨none, none⟩, .message .kvGet { KvMessage.zero with key := 0 }⟩])) := by
  refine (loading_in_order ..).1 ⟨.inl rfl, trivial, trivial, trivial, trivial, trivial, trivial, trivial,
    trivial, .inr ?_, trivial⟩
  rintro b - ⟨-, -, rfl⟩
  exact ⟨2, rfl, rfl⟩

/-- A `KV_GET` between the two allocations of `kv_hash_init`, when four of its statements have been
executed: it takes a lock where `ht->bucket_locks` is `NULL`, and returns 0. -/
theorem not_in_order_get :
    ¬ Machine.Along (loadStep twoBuckets) (LoadEvent.InOrder twoBuckets)
      (Loading.start twoBuckets ⟨true, true, some 1, some 2⟩ blank)
      (List.replicate 4 .statement ++
        [.ioctl ⟨.ok, ⟨none, none⟩, .message .kvGet { KvMessage.zero with key := 7 }⟩]) := by
  intro h
  rcases h.2.2.2.2.1 with hret | hready
  · exact absurd hret (by decide)
  · obtain ⟨a, ha, -⟩ := hready.2.1.2 none _ rfl
    cases ha

end KvMemory
