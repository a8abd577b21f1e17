/-
**What the clients of a table in memory get.**

The clients here keep a history: each of them makes an entry when it begins an ioctl, and another one, with
the answer, when the ioctl has returned.  So one can compare, at any time, what clients have got whose
instructions are performed in any order with what they get where the operations on one bucket and the visits
of a scan are single steps.

The comparison is about the memory as well.  A bucket whose lock is free has the list in memory that the
store says.  A client between two ioctls has nothing in its hands; so when all of them are, the memory is
the table that the store says, and no other block is live.

Main definitions:

* `KvMemory.Entry`, `KvMemory.sessions` — clients that keep a history, over the table in memory;
* `KvMemory.sessionsOnStore` — the same over the store;
* `KvMemory.Memory.Lists` — the list of a bucket.

Main result:

* `KvMemory.sessions_refine` — **refinement**: the instructions, in any order, behave as the atomic steps.
-/

import KvStore.History
import KvStore.KvConcurrent

set_option relaxedAutoImplicit false
set_option autoImplicit false

namespace KvMemory

open CMem KvHash KvIoctl Interleave Blocks

variable {H : HashFn} {ι : Type}

/-! ### Clients that keep a history -/

/-- An entry in the history: an ioctl begins, or ends with an answer. -/
inductive Entry (ι : Type)
  | called (i : ι) (c : IoctlCall)
  | answered (i : ι) (answer : ℤ × Ioctl)

/-- A client that makes its ioctls one after the other. -/
def session (H : HashFn) (fuel : ℕ) (i : ι) :
    List IoctlCall → Prog (Instr ⊕ Entry ι) (LogRes Res (Entry ι)) (Option Unit)
  | [] => .ret (some ())
  | c :: cs => do
      note (.called i c)
      let answer ← (c.code H fuel).silent
      match answer with
      | none => return none
      | some answer => do
          note (.answered i answer)
          session H fuel i cs

/-- The same over the store. -/
def sessionOnStore (i : ι) :
    List IoctlCall → Prog (Op H ⊕ Entry ι) (LogRes KvHash.Res (Entry ι)) Unit
  | [] => .ret ()
  | c :: cs => do
      note (.called i c)
      let answer ← (kvIoctl c.env c.ioctl).silent
      note (.answered i answer)
      sessionOnStore i cs

/-- Clients over a table in memory. -/
def sessions (H : HashFn) (fuel : ℕ) (m : Memory) (cs : ι → List IoctlCall) :
    Pool ι (Memory × List (Entry ι)) (Instr ⊕ Entry ι) (LogRes Res (Entry ι)) (Option Unit) where
  shared := (m, [])
  thread := fun i => session H fuel i (cs i)

/-- Clients over a store. -/
def sessionsOnStore (s : Store H) (cs : ι → List IoctlCall) :
    Pool ι (Store H × List (Entry ι)) (Op H ⊕ Entry ι) (LogRes KvHash.Res (Entry ι)) Unit where
  shared := (s, [])
  thread := fun i => sessionOnStore i (cs i)

/-- The list of bucket `b` contains the entries of `chain`. -/
def Memory.Lists (m : Memory) (b : ℕ) (chain : KvHash.Chain) : Prop :=
  ∃ es, m.links.Chain (.head (m.table.buckets, b)) es ∧ m.entries es = chain

/-- A bucket whose lock is free. -/
theorem Shared.lists {A : Base} {m : Memory} {D : Ledger ι} {G : ι → Custody} {s : Store H}
    (h : Shared H A m D G s) {b : Fin H.n} (hb : b.1 ∉ m.held) : m.Lists b (s.1.chain b) := by
  have hfree : D.holder b = none := by
    by_contra hne
    exact hb ((h.locked b).2 hne)
  have hresting := h.resting b hfree
  refine ⟨D.chains b, ?_, hresting.entries⟩
  rw [h.table]
  exact hresting.links

/-! ### Runs -/

section Runs

variable [DecidableEq ι] {i : ι} {A : Base} {m : Memory} {s : Store H} {fuel : ℕ}

/-- There is room while there are no more turns than there was room for. -/
theorem along_room_sessions (cs : ι → List IoctlCall) {is : List ι}
    (h : m.live.card + is.length ≤ fuel) :
    Machine.Along (Pool.turn (logExec exec) (logMay may)) (fun p _ => p.shared.1.live.card ≤ fuel)
        (sessions H fuel m cs) is ∧
      ((sessions H fuel m cs).turns (logExec exec) (logMay may) is).shared.1.live.card ≤ fuel := by
  refine Pool.along_load (fun s : Memory × List (Entry ι) => s.1.live.card) (fun j s => ?_) h
  cases j with
  | inl j => exact (card_exec_le j s.1).trans (Nat.add_le_add_left j.blocks_le _)
  | inr e => exact Nat.le_succ _

/-- The protocol of the threads over a table, with a history. -/
def noted (ι : Type) (H : HashFn) (A : Base) (fuel : ℕ) :=
  (protocol ι H A fuel).logged (Entry ι) (Idle H A)

/-- A client has nothing in its custody, and has returned over the store as well. -/
def Finished (H : HashFn) (A : Base) (r : Option Unit) (v : Custody)
    (q : Prog (Op H ⊕ Entry ι) (LogRes KvHash.Res (Entry ι)) Unit) : Prop :=
  Idle H A v ∧ r = some () ∧ q = .ret ()

theorem upholds_sessionOnStore (cs : List IoctlCall) {v : Custody} (hv : Idle H A v) :
    (noted ι H A fuel).Upholds i (Finished H A) (session H fuel i cs) v (sessionOnStore i cs) := by
  have hnonempty : Nonempty Alloc := ⟨.ok⟩
  induction cs generalizing v with
  | nil => exact ⟨hv, rfl, rfl⟩
  | cons c cs ih =>
      have hcarries : (protocol ι H A fuel).Carries (Idle H A) (ℤ × Ioctl) (c.code H fuel)
          (kvIoctl c.env c.ioctl) := carries_ioctl c
      have hcall := hcarries i v Prog.ret hv
      rw [Prog.bind_ret] at hcall
      refine Protocol.upholds_note _ hv ((hcall.silent _).bind ?_)
      rintro r v' b ⟨a, ⟨hidle, x, rfl, rfl⟩, rfl⟩
      exact Protocol.upholds_note _ hidle (ih hidle)

/-- **Refinement.**  Clients run their instructions in any order, waiting for nothing but the locks.  Turn
by turn this is a run of the clients over the store, in which some of the turns are atomic steps.  At all
times the history is the same, and who has returned has returned there; the next instruction of each client
uses live blocks, and heads and locks that have been initialised; and a bucket whose lock is free has the
list that the store says.  When nobody is inside an ioctl, the memory holds the table that the store says,
with no other block live. -/
theorem sessions_refine (h : m.Represents s) (cs : ι → List IoctlCall) {is : List ι}
    (hfuel : m.live.card + is.length ≤ fuel) :
    ∃ allocs : List (Option Alloc), allocs.length = is.length ∧ ∀ n,
      let p := (sessions H fuel m cs).turns (logExec exec) (logMay may) (is.take n)
      let q := (sessionsOnStore s cs).run (fun f => logExec (KvHash.exec f))
        (Protocol.matched (is.take n) (allocs.take n))
      p.shared.2 = q.shared.2 ∧
        (∀ i r, p.thread i = .ret r → r = some () ∧ q.thread i = .ret ()) ∧
        (∀ i j, (p.thread i).next? = some (.inl j) → Safe p.shared.1 j ∧ Ready p.shared.1 j) ∧
        (∀ b : Fin H.n, b.1 ∉ p.shared.1.held → p.shared.1.Lists b (q.shared.1.1.chain b)) ∧
        ((∀ i j, (p.thread i).next? ≠ some (.inl j)) → p.shared.1.Represents q.shared.1) := by
  obtain ⟨L, hwhole, hs⟩ := h
  have hlinked : (noted ι H L.base fuel).Linked (Finished H L.base) (sessions H fuel m cs)
      (sessionsOnStore s cs) fun _ => ⟨m.vacate L.base, []⟩ :=
    ⟨⟨⟨_, hwhole.shared hs⟩, rfl⟩, fun i => upholds_sessionOnStore (cs i) hwhole.idle⟩
  obtain ⟨allocs, hlen, hall⟩ := hlinked.turns (along_room_sessions cs hfuel).1
  refine ⟨allocs, hlen, fun n => ?_⟩
  have htake : m.live.card + (is.take n).length ≤ fuel := by
    have hle : (is.take n).length ≤ is.length := List.length_take_le' ..
    omega
  have hroom := (along_room_sessions (H := H) cs htake).2
  obtain ⟨G, hnow⟩ := hall n
  obtain ⟨⟨D, hshared⟩, hlog⟩ := hnow.1
  refine ⟨hlog, fun i r hi => (hnow.returned hi).2, fun i j hi => ?_, fun b hb => hshared.lists hb,
    fun hout => hshared.represents fun i => ?_⟩
  · have hlegal : Legal L.base _ (G i) j := hnow.legal hroom hi
    exact ⟨hlegal.safe, hlegal.ready⟩
  · -- the client has returned, or is about to make an entry
    cases hp : ((sessions H fuel m cs).turns (logExec exec) (logMay may) (is.take n)).thread i with
    | ret r => exact (hnow.returned hp).1
    | call op k =>
        have hnext := congrArg Prog.next? hp
        cases op with
        | inl j => exact absurd hnext (hout i j)
        | inr e => exact hnow.legal hroom hnext

/-- After their turns both clients have returned. -/
theorem twoInserters_refine :
    (∀ i, (((sessions twoBuckets 92 emptyTable twoInserters).turns (logExec exec) (logMay may)
        inTurns).thread i).result? = some (some ())) ∧
      ∃ allocs : List (Option Alloc), allocs.length = inTurns.length ∧ ∀ n,
        let p := (sessions twoBuckets 92 emptyTable twoInserters).turns (logExec exec) (logMay may)
          (inTurns.take n)
        let q := (sessionsOnStore (Store.init twoBuckets) twoInserters).run
          (fun f => logExec (KvHash.exec f)) (Protocol.matched (inTurns.take n) (allocs.take n))
        p.shared.2 = q.shared.2 ∧
          (∀ i r, p.thread i = .ret r → r = some () ∧ q.thread i = .ret ()) ∧
          (∀ i j, (p.thread i).next? = some (.inl j) → Safe p.shared.1 j ∧ Ready p.shared.1 j) ∧
          (∀ b : Fin twoBuckets.n, b.1 ∉ p.shared.1.held → p.shared.1.Lists b (q.shared.1.1.chain b)) ∧
          ((∀ i j, (p.thread i).next? ≠ some (.inl j)) → p.shared.1.Represents q.shared.1) :=
  ⟨by decide +kernel, sessions_refine represents_emptyTable twoInserters (by decide)⟩

end Runs

end KvMemory
