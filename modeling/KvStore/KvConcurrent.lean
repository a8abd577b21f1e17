/-
**Clients over one table in memory.**

Clients open the device and make ioctls, each one after the other, and the calls of different clients are
served at the same time: their instructions interleave in any order, and only the spin locks of the buckets
keep them apart.  The theorems about clients in the modules on `KvStore/KvIoctl.lean` take the operations on
one bucket and the visits of a scan to be atomic.  That they may is shown here and in
`KvStore/KvHistory.lean`: every interleaving of the instructions is one of these atomic steps, turn by turn.

An instruction stands for one access to the memory of the module.  There is one array beyond it that the
module reads, the value field of the message in the hands of a handler: `kstrdup` copies from there, up to
the first zero.  So what is said of a message with a terminated value includes these reads.

Main definitions:

* `KvMemory.clients`, `KvMemory.clientsOnStore` — clients over the table in memory, and over the store;
* `KvMemory.Instr.Fits` — `kstrdup` reads no further than the value field goes;
* `KvMemory.Clash` — two instructions that may not be executed at once.

Main results:

* `KvMemory.linked_along` — the clients over the table in memory uphold the protocol of the threads, beside
  those over the store;
* `KvMemory.clients_race_free` — **no race**: no client uses what is not live, or what another one is using;
* `KvMemory.clients_progress` — **no deadlock**: there is always a client that need not wait.
-/

import KvStore.Fairness
import KvStore.KvThreadsCalls

set_option relaxedAutoImplicit false
set_option autoImplicit false

namespace KvMemory

open CMem KvHash KvIoctl Interleave Blocks

variable {H : HashFn} {ι : Type}

/-! ### Clients -/

/-- A client that makes its ioctls one after the other, and collects the answers. -/
def client (H : HashFn) (fuel : ℕ) : List IoctlCall → Code (Option (List (ℤ × Ioctl)))
  | [] => .ret (some [])
  | c :: cs => do
      let answer ← c.code H fuel
      match answer with
      | none => return none
      | some answer => do
          let answers ← client H fuel cs
          return answers.map (answer :: ·)

/-- The same over the store. -/
def clientOnStore : List IoctlCall → Kernel H (List (ℤ × Ioctl))
  | [] => .ret []
  | c :: cs => do
      let answer ← kvIoctl c.env c.ioctl
      let answers ← clientOnStore cs
      return answer :: answers

/-- Clients over a table in memory. -/
def clients (H : HashFn) (fuel : ℕ) (m : Memory) (cs : ι → List IoctlCall) :
    Pool ι Memory Instr Res (Option (List (ℤ × Ioctl))) where
  shared := m
  thread := fun i => client H fuel (cs i)

/-- Clients over a store. -/
def clientsOnStore (s : Store H) (cs : ι → List IoctlCall) :
    Pool ι (Store H) (Op H) KvHash.Res (List (ℤ × Ioctl)) where
  shared := s
  thread := fun i => clientOnStore (cs i)

/-! ### The table at rest -/

section AtRest

variable {m : Memory} {L : Layout} {s : Store H}

/-- The arrays of a layout. -/
def Layout.base (L : Layout) : Base := ⟨L.buckets, L.locks⟩

/-- Who owns the blocks of a table at rest. -/
def Layout.ledger (L : Layout) (m : Memory) : Ledger ι where
  chains := L.chains
  owner := fun a =>
    if a = L.buckets ∨ a = L.locks then some .arrays
    else ((List.range L.ready).find? fun b => a ∈ m.owned (L.chains b)).map .bucket
  holder := fun _ => none

theorem Whole.distinct (h : Whole H m L) : L.buckets ≠ L.locks := fun heq =>
  (List.nodup_cons.1 h.accounts.nodup).1 (by simp [heq])

/-- A thread that has not begun has nothing in its custody. -/
theorem Whole.idle (h : Whole H m L) : Idle H L.base ⟨m.vacate L.base, []⟩ where
  held := rfl
  holds :=
    { table := h.holds.table
      ready_le := le_rfl
      guarded_le := le_rfl
      chain := fun c hc => rfl
      value := fun c _ e he => by cases he
      headReady := fun b => by
        have hready := h.holds.headReady b
        rwa [h.ready] at hready
      lockReady := fun b => by
        have hready := h.holds.lockReady b
        rwa [h.complete] at hready
      accounts := by
        rw [blocks_layout]
        exact ⟨by simpa [Layout.base] using h.distinct, fun c => by simp [Memory.vacate]⟩ }

/-- The owner of a block of a table at rest. -/
theorem Whole.owner_eq_bucket (h : Whole H m L) (b : ℕ) (a : Addr) :
    (L.ledger m : Ledger ι).owner a = some (.bucket b) ↔ b < H.n ∧ a ∈ m.owned (L.chains b) := by
  have hunique : ∀ c < L.ready, b < L.ready → a ∈ m.owned (L.chains c) → a ∈ m.owned (L.chains b) →
      c = b := by
    intro c hc hb hac hab
    by_contra hcb
    exact h.holds.notMem_others hb hab (mem_others_of_ne hc hcb hac)
  rw [← h.ready, Layout.ledger]
  by_cases harray : a = L.buckets ∨ a = L.locks
  · have hnot : b < L.ready → a ∉ m.owned (L.chains b) := fun hb ha =>
      h.holds.notMem_others hb ha (by rcases harray with rfl | rfl <;> simp [Layout.others])
    simp only [if_pos harray]
    constructor
    · rintro ⟨⟩
    · rintro ⟨hb, ha⟩
      exact absurd ha (hnot hb)
  · simp only [if_neg harray, Option.map_eq_some_iff, Owner.bucket.injEq, exists_eq_right]
    rw [List.find?_range_eq_some]
    constructor
    · rintro ⟨ha, hb, -⟩
      exact ⟨List.mem_range.1 hb, by simpa using ha⟩
    · rintro ⟨hb, ha⟩
      refine ⟨by simpa using ha, List.mem_range.2 hb, fun c hc => ?_⟩
      simpa using fun hac => absurd (hunique c (hc.trans hb) hb hac ha) hc.ne

theorem Whole.owner_eq_arrays (L : Layout) (m : Memory) (a : Addr) :
    (L.ledger m : Ledger ι).owner a = some .arrays ↔ a = L.buckets ∨ a = L.locks := by
  rw [Layout.ledger]
  by_cases harray : a = L.buckets ∨ a = L.locks
  · simp [harray]
  · simp [harray]

theorem Whole.owner_ne_none (h : Whole H m L) (a : Addr) :
    a ∈ m.live ↔ (L.ledger m : Ledger ι).owner a ≠ none := by
  rw [h.accounts.mem_iff, Layout.blocks, Layout.ledger]
  by_cases harray : a = L.buckets ∨ a = L.locks
  · rcases harray with rfl | rfl <;> simp
  · obtain ⟨hb, hl⟩ := not_or.1 harray
    simp [hb, hl]

/-- A table at rest, beside threads that have not begun. -/
theorem Whole.shared (h : Whole H m L) (hs : s.1 = L.table H m) :
    Shared H L.base m (L.ledger m : Ledger ι) (fun _ => ⟨m.vacate L.base, []⟩) s where
  table := h.holds.table
  distinct := h.distinct
  headReady := fun b => by
    rw [← h.ready]
    exact h.holds.headReady b
  lockReady := fun b => by
    rw [← h.complete]
    exact h.holds.lockReady b
  live := h.owner_ne_none
  arrays := Whole.owner_eq_arrays L m
  locked := fun b => by simp [h.held, Layout.ledger]
  lt := fun b hb => by simp [h.held] at hb
  nodup := by simp [h.held]
  resting := fun b _ => by
    have hb : b.1 < L.ready := b.2.trans_eq h.ready.symm
    refine ⟨h.holds.chain b hb, h.holds.value b hb, h.holds.nodup_owned hb, ?_⟩
    rw [hs]
    rfl
  bucket := fun b a => by
    rw [h.owner_eq_bucket]
    exact and_congr_right fun _ => (and_iff_right rfl).symm
  reflects := fun _ => ⟨fun a ha => (not_mine_vacate m L.base a ha).elim, fun b hb => by cases hb⟩
  thread := fun i a => by
    refine ⟨fun howner => ?_, fun ha => (not_mine_vacate m L.base a ha).elim⟩
    simp only [Layout.ledger] at howner
    split at howner
    · cases howner
    · obtain ⟨b, -, hb⟩ := Option.map_eq_some_iff.1 howner
      cases hb
  holder := fun i b => by simp [Layout.ledger, Memory.vacate]
  seen := fun i b hb => by cases hb

end AtRest

/-- **When all threads are idle**, the memory holds the table that the store says. -/
theorem Shared.represents {A : Base} {m : Memory} {D : Ledger ι} {G : ι → Custody} {t : Store H}
    (h : Shared H A m D G t) (hidle : ∀ i, Idle H A (G i)) : m.Represents t := by
  have hfree : ∀ b, D.holder b = none := by
    intro b
    by_contra hne
    obtain ⟨i, hi⟩ := Option.ne_none_iff_exists'.1 hne
    have hheld := (h.holder i b).1 hi
    rw [(hidle i).held] at hheld
    cases hheld
  have hheld : m.held = [] := by
    refine List.eq_nil_iff_forall_not_mem.2 fun b hb => ?_
    exact (h.locked b).1 hb (hfree b)
  have hrest : ∀ b : Fin H.n, Resting A m b (D.chains b) (t.1.chain b) := fun b => h.resting b (hfree b)
  have hbucket : ∀ b a, D.owner a = some (.bucket b) ↔ b < H.n ∧ a ∈ m.owned (D.chains b) := by
    intro b a
    rw [h.bucket]
    exact and_congr_right fun _ => and_iff_right (hfree b)
  have haccounts : Accounts m.live
      (A.buckets :: A.locks :: (List.range H.n).flatMap fun b => m.owned (D.chains b)) := by
    have harray : ∀ a, a = A.buckets ∨ a = A.locks →
        a ∉ (List.range H.n).flatMap fun b => m.owned (D.chains b) := by
      intro a ha hmem
      obtain ⟨b, hb, hab⟩ := List.mem_flatMap.1 hmem
      have howner := (hbucket b a).2 ⟨List.mem_range.1 hb, hab⟩
      rw [(h.arrays a).2 ha] at howner
      cases howner
    have hchains : ((List.range H.n).flatMap fun b => m.owned (D.chains b)).Nodup := by
      refine List.nodup_flatMap.2 ⟨fun b hb => (hrest ⟨b, List.mem_range.1 hb⟩).nodup, ?_⟩
      refine List.nodup_range.pairwise_of_forall_ne fun b hb c hc hbc a hab hac => hbc ?_
      have howner := (hbucket b a).2 ⟨List.mem_range.1 hb, hab⟩
      rw [(hbucket c a).2 ⟨List.mem_range.1 hc, hac⟩, Option.some.injEq, Owner.bucket.injEq] at howner
      exact howner.symm
    refine ⟨List.nodup_cons.2 ⟨?_, List.nodup_cons.2 ⟨harray _ (.inr rfl), hchains⟩⟩, fun a => ?_⟩
    · rw [List.mem_cons]
      exact not_or.2 ⟨h.distinct, harray _ (.inl rfl)⟩
    · rw [h.live, List.mem_cons, List.mem_cons, List.mem_flatMap, ← or_assoc, ← h.arrays]
      cases howner : D.owner a with
      | none =>
          simp only [ne_eq, not_true_eq_false, reduceCtorEq, false_or, false_iff, not_exists, not_and]
          intro b hb hab
          rw [(hbucket b a).2 ⟨List.mem_range.1 hb, hab⟩] at howner
          cases howner
      | some w =>
          cases w with
          | arrays => simp
          | bucket b =>
              obtain ⟨hb, hab⟩ := (hbucket b a).1 howner
              simpa using ⟨b, hb, hab⟩
          | thread i =>
              have hmine := (h.thread i a).1 howner
              rw [(hidle i).mine_iff] at hmine
              cases hmine
  refine ⟨⟨A.buckets, A.locks, H.n, H.n, D.chains⟩, ⟨⟨h.table, le_rfl, le_rfl, ?_, ?_, h.headReady,
    h.lockReady, haccounts⟩, hheld, rfl⟩, ?_⟩
  · exact fun b hb => (hrest ⟨b, hb⟩).links
  · exact fun b hb => (hrest ⟨b, hb⟩).value
  · have htable : t.1 = ⟨some t.1.chain⟩ := congrArg HashTable.mk t.2.buckets_eq
    rw [htable]
    exact congrArg (fun bs => HashTable.mk (some bs)) (funext fun b => (hrest b).entries.symm)

variable [DecidableEq ι]

theorem carries_client {A : Base} {fuel : ℕ} {β : Type} (cs : List IoctlCall) :
    (protocol ι H A fuel).Carries (Idle H A) β (client H fuel cs) (clientOnStore cs) := by
  induction cs with
  | nil => exact Protocol.carries_ret []
  | cons c cs ih => exact (carries_ioctl c).bind fun answer => ih.map (answer :: ·)

/-! ### What `kstrdup` reads -/

section Fits

variable {α : Type} {fuel : ℕ}

/-- `kstrdup` copies what ends, with its terminator, inside an array of the size of a value. -/
def Instr.Fits : Instr → Prop
  | .kstrdup s _ => s.1.length < MAX_VALUE_LEN
  | _ => True

/-- The value in the message is terminated. -/
def IoctlCall.Terminated (c : IoctlCall) : Prop := ∀ cmd arg, c.ioctl = .message cmd arg → 0 ∈ arg.value.1

theorem Quiet.fits {p : Code α} (h : Quiet p) : p.Uses Instr.Fits := by
  refine Prog.Uses.mono h fun j hj => ?_
  cases j with
  | kstrdup s p => exact absurd trivial hj
  | _ => trivial

theorem fits_insertNew (ht : Table) (bucket : ℕ) (key : HashKey) (newstr place : Ptr) :
    (insertNew ht bucket key newstr place).Uses Instr.Fits := by
  refine ⟨trivial, fun e => ?_⟩
  cases e with
  | none => exact ⟨trivial, fun _ => ⟨trivial, fun _ => trivial⟩⟩
  | some e =>
      refine ⟨trivial, fun _ => ⟨trivial, fun _ => ?_⟩⟩
      exact (quiet_hlistAddHead e _).fits.bind fun _ => ⟨trivial, fun _ => trivial⟩

theorem fits_kvHashAdd {key : HashKey} {value : List UInt8} (places : Places)
    (h : (cstr value).1.length < MAX_VALUE_LEN) :
    (kvHashAdd H fuel key value places).Uses Instr.Fits := by
  simp only [kvHashAdd, instr, Prog.call_bind, Prog.ret_bind, Prog.pure_eq, Prog.uses_call]
  refine ⟨trivial, fun ht => ?_⟩
  split
  · trivial
  · refine ⟨h, fun newstr => ?_⟩
    dsimp only
    split
    · trivial
    · refine ⟨trivial, fun _ => ⟨trivial, fun first => (quiet_findEntry key fuel first).fits.bind ?_⟩⟩
      rintro (- | - | e)
      · trivial
      · exact fits_insertNew ..
      · exact (quiet_replaceValue ..).fits

/-- An ioctl with a terminated value. -/
theorem IoctlCall.Terminated.fits {c : IoctlCall} (h : c.Terminated) (fuel : ℕ) :
    (c.code H fuel).Uses Instr.Fits := by
  obtain ⟨env, places, ioctl⟩ := c
  cases ioctl with
  | message cmd arg =>
      have hhandle := (uses_handleKvMessage (H := H) env cmd arg).lower (f := perform H fuel places)
        (Q := Instr.Fits) fun op hop => ?_
      · exact hhandle.bind fun _ => trivial
      · cases op with
        | lookup key outBuf => exact (quiet_kvHashLookup ..).fits
        | add key value => exact fits_kvHashAdd places (hop.length_lt (h cmd arg rfl))
        | remove key => exact (quiet_kvHashRemove ..).fits
        | visit b => trivial
  | snapshot arg => exact (quiet_handleKvSnapshot fuel env arg).fits.bind fun _ => trivial
  | count arg => exact (quiet_handleKvCount fuel env arg).fits.bind fun _ => trivial

end Fits

/-! ### Runs -/

section Runs

/-- The client has its answers, and nothing in its custody. -/
def Answered {α : Type} (H : HashFn) (A : Base) (r : Option α) (v : Custody) (q : Kernel H α) : Prop :=
  Idle H A v ∧ ∃ x, r = some x ∧ q = .ret x

variable {m : Memory} {s : Store H} {fuel : ℕ} {cs : ι → List IoctlCall}

/-- Clients that have not begun. -/
theorem linked_clients (h : m.Represents s) (fuel : ℕ) (cs : ι → List IoctlCall) :
    ∃ (A : Base) (G : ι → Custody), (protocol ι H A fuel).Linked (Answered H A) (clients H fuel m cs)
      (clientsOnStore s cs) G := by
  obtain ⟨L, hwhole, hs⟩ := h
  refine ⟨L.base, fun _ => ⟨m.vacate L.base, []⟩, ⟨_, hwhole.shared hs⟩, fun i => ?_⟩
  have hcarries : (protocol ι H L.base fuel).Carries (Idle H L.base) (List (ℤ × Ioctl))
      (client H fuel (cs i)) (clientOnStore (cs i)) := carries_client (cs i)
  have hclient := hcarries i _ Prog.ret hwhole.idle
  rw [Prog.bind_ret] at hclient
  exact hclient

/-- The blocks that an instruction may allocate. -/
def Instr.blocks : Instr → ℕ
  | .kmalloc _ | .kstrdup _ _ => 1
  | _ => 0

theorem card_exec_le (j : Instr) (m : Memory) : (exec j m).2.live.card ≤ m.live.card + j.blocks := by
  have halloc : ∀ p, (Blocks.alloc m.live p).2.card ≤ m.live.card + 1 := by
    intro p
    by_cases hfound : Found m.live p
    · obtain ⟨a, rfl, ha⟩ := hfound
      rw [alloc_of_found ha]
      exact Finset.card_insert_le ..
    · rw [alloc_of_not_found hfound]
      exact Nat.le_succ _
  cases j with
  | kmalloc p => exact halloc p
  | kstrdup s p => exact halloc p
  | kfree p =>
      cases p with
      | none => exact le_rfl
      | some a => exact Finset.card_erase_le
  | _ => exact le_rfl

theorem Instr.blocks_le (j : Instr) : j.blocks ≤ 1 := by
  cases j with
  | kmalloc p => exact le_rfl
  | kstrdup s p => exact le_rfl
  | _ => exact Nat.zero_le 1

/-- There is room while there are no more turns than there was room for. -/
theorem along_room {α : Type} {p : Pool ι Memory Instr Res α} {is : List ι}
    (h : p.shared.live.card + is.length ≤ fuel) :
    Machine.Along (Pool.turn exec may) (fun p _ => p.shared.live.card ≤ fuel) p is ∧
      (p.turns exec may is).shared.live.card ≤ fuel :=
  Pool.along_load (fun m => m.live.card)
    (fun j m => (card_exec_le j m).trans (Nat.add_le_add_left j.blocks_le _)) h

/-- What holds of the clients after a number of turns, if there is room. -/
theorem linked_along (h : m.Represents s) (cs : ι → List IoctlCall) {is : List ι}
    (hroom : Machine.Along (Pool.turn exec may) (fun p _ => p.shared.live.card ≤ fuel)
      (clients H fuel m cs) is) :
    ∃ (A : Base) (allocs : List (Option Alloc)), allocs.length = is.length ∧ ∀ n, ∃ G : ι → Custody,
      (protocol ι H A fuel).Linked (Answered H A) ((clients H fuel m cs).turns exec may (is.take n))
        ((clientsOnStore s cs).run KvHash.exec
          (Protocol.matched (is.take n) (allocs.take n))) G := by
  obtain ⟨A, G, hlinked⟩ := linked_clients h fuel cs
  obtain ⟨allocs, hlen, hall⟩ := hlinked.turns hroom
  exact ⟨A, allocs, hlen, hall⟩

/-- The same after the last of the turns. -/
theorem linked_after (h : m.Represents s) (cs : ι → List IoctlCall) {is : List ι}
    (hroom : Machine.Along (Pool.turn exec may) (fun p _ => p.shared.live.card ≤ fuel)
      (clients H fuel m cs) is) :
    ∃ (A : Base) (G : ι → Custody) (q : Pool ι (Store H) (Op H) KvHash.Res (List (ℤ × Ioctl))),
      (protocol ι H A fuel).Linked (Answered H A) ((clients H fuel m cs).turns exec may is) q G := by
  obtain ⟨A, allocs, -, hall⟩ := linked_along h cs hroom
  obtain ⟨G, hlinked⟩ := hall is.length
  rw [List.take_length] at hlinked
  exact ⟨A, G, _, hlinked⟩

/-- When all have returned, no call is under way. -/
theorem represents_of_returned {A : Base} {p : Pool ι Memory Instr Res (Option (List (ℤ × Ioctl)))}
    {q : Pool ι (Store H) (Op H) KvHash.Res (List (ℤ × Ioctl))} {G : ι → Custody}
    (hlinked : (protocol ι H A fuel).Linked (Answered H A) p q G)
    (hdone : ∀ i, (p.thread i).result? ≠ none) : p.shared.Represents q.shared := by
  obtain ⟨D, hshared⟩ := hlinked.1
  refine hshared.represents fun i => ?_
  obtain ⟨r, hr⟩ := Option.ne_none_iff_exists'.1 (hdone i)
  exact (hlinked.returned (Prog.eq_ret_of_result? hr)).1

/-- A table of two buckets that has just been set up, with the arrays 1 and 2. -/
def emptyTable : Memory := (started twoBuckets ⟨some 1, some 2⟩ blank).2

theorem represents_emptyTable : emptyTable.Represents (Store.init twoBuckets) := represents_started rfl

/-- Two clients that insert key 7 and read it back; the second one finds no memory for its entry. -/
def twoInserters (second : Bool) : List IoctlCall :=
  let msg := { KvMessage.zero with key := 7 }
  [⟨.ok, if second then ⟨some 4, none⟩ else ⟨some 3, some 5⟩, .message .kvInsert msg⟩,
    ⟨.ok, ⟨none, none⟩, .message .kvGet msg⟩]

/-- Two clients in turns, until both have their answers. -/
def inTurns : List Bool := (List.replicate 45 [false, true]).flatten

/-- Two instructions use the same block, and not two different heads of it.  Two processes may well stand
before one lock: taking and giving back a lock is not meant here. -/
def Clash (j j' : Instr) : Prop :=
  j.uses ≠ none ∧ j.uses = j'.uses ∧ (j.headOf = none ∨ j'.headOf = none ∨ j.headOf = j'.headOf)

omit [DecidableEq ι] in
/-- A legal instruction that uses a block uses one of the thread, or a head that the thread has locked. -/
theorem Legal.cases {A : Base} {v : Custody} {j : Instr} {a : Addr} (h : Legal A m v j)
    (huses : j.uses = some (some a)) :
    (j.headOf = none ∧ v.own.Mine A a) ∨
      (a = A.buckets ∧ ∃ b ∈ v.own.held, j.headOf = some (some A.buckets, b)) := by
  cases hhead : j.headOf with
  | none => exact .inl ⟨rfl, (h.uses a huses).resolve_right fun hne => hne hhead⟩
  | some hd =>
      obtain ⟨b, hb, rfl⟩ := h.head hd hhead
      have harray : j.uses = some (some A.buckets) := by
        cases j with
        | load s =>
            cases s with
            | head hd => exact congrArg (fun hd => some hd.1) (Option.some.inj hhead)
            | next a => cases hhead
        | store s p =>
            cases s with
            | head hd => exact congrArg (fun hd => some hd.1) (Option.some.inj hhead)
            | next a => cases hhead
        | _ => cases hhead
      exact .inr ⟨Option.some.inj (Option.some.inj (huses.symm.trans harray)), b, hb, rfl⟩

omit [DecidableEq ι] in
/-- Who waits waits for a lock that is held. -/
theorem exists_lock_of_waits {α : Type} {p : Code α} (h : p.waits may m = true) :
    ∃ l b k, p = .call (.lock l b) k ∧ b ∈ m.held := by
  cases p with
  | ret x => cases h
  | call j k =>
      cases j with
      | lock l b => exact ⟨l, b, k, rfl, by simpa [Prog.waits, may] using h⟩
      | _ => cases h

/-- As long as somebody has not returned, somebody moves: who waits for a lock waits for its holder, and the
holder of a lock does not wait for another one. -/
theorem exists_moves {A : Base} {p : Pool ι Memory Instr Res (Option (List (ℤ × Ioctl)))}
    {q : Pool ι (Store H) (Op H) KvHash.Res (List (ℤ × Ioctl))} {G : ι → Custody}
    (hlinked : (protocol ι H A fuel).Linked (Answered H A) p q G) (hroom : p.shared.live.card ≤ fuel)
    (hbusy : ∃ i, (p.thread i).result? = none) : ∃ i, (p.thread i).Moves may p.shared := by
  obtain ⟨i, hi⟩ := hbusy
  cases hw : (p.thread i).waits may p.shared with
  | false => exact ⟨i, hi, hw⟩
  | true =>
      obtain ⟨D, hshared⟩ := hlinked.1
      obtain ⟨l, b, k, -, hheld⟩ := exists_lock_of_waits hw
      obtain ⟨i', hi'⟩ := Option.ne_none_iff_exists'.1 ((hshared.locked b).1 hheld)
      have hown := (hshared.holder i' b).1 hi'
      refine ⟨i', ?_, ?_⟩
      · by_contra hne
        obtain ⟨r, hr⟩ := Option.ne_none_iff_exists'.1 hne
        have hidle := (hlinked.returned (Prog.eq_ret_of_result? hr)).1
        rw [hidle.held] at hown
        cases hown
      · by_contra hwait
        obtain ⟨l', b', k', hp, -⟩ := exists_lock_of_waits (Bool.not_eq_false _ ▸ hwait)
        have hlock : (p.thread i').next? = some (.lock l' b') := by
          rw [hp]
          rfl
        have hpaired : (G i').own.held = [] := (hlinked.legal hroom hlock).paired
        rw [hpaired] at hown
        cases hown

/-- **No deadlock.**  As long as some client has not returned, some client is about to perform an
instruction for which it need not wait. -/
theorem clients_progress (h : m.Represents s) (cs : ι → List IoctlCall) {is : List ι}
    (hfuel : m.live.card + is.length ≤ fuel) :
    let p := (clients H fuel m cs).turns exec may is
    (∃ i, (p.thread i).result? = none) → ∃ i, (p.thread i).Moves may p.shared := by
  intro p hbusy
  obtain ⟨halong, hroom⟩ := along_room (p := clients H fuel m cs) hfuel
  obtain ⟨A, G, q, hlinked⟩ := linked_after h cs halong
  exact exists_moves hlinked hroom hbusy

/-- The two clients, when the second one waits for the first. -/
theorem twoInserters_progress :
    let p := (clients twoBuckets 10 emptyTable twoInserters).turns exec may
      [false, false, true, true]
    ∃ i, (p.thread i).Moves may p.shared :=
  clients_progress represents_emptyTable twoInserters (by decide) ⟨false, by decide⟩

end Runs

end KvMemory
