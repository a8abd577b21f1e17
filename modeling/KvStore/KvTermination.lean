/-
**Clients return.**

A client that waits for the lock of a bucket tries again and again.  Nothing that it does itself brings it
closer to the lock, and nobody promises that it is next.  That it gets the lock all the same is a property
of all clients together: each of them has a finite list of ioctls, a chain that is walked over is no longer
than there are blocks, and no client holds a lock while it waits for another one.

How long a chain can become is bounded for every schedule, because an ioctl allocates at most two blocks:
`kv_hash_add` copies the value, and makes an entry if the key is new.

Main result:

* `KvMemory.clients_return` — **every client returns** under every fair schedule.
-/

import KvStore.KvConcurrent

set_option relaxedAutoImplicit false
set_option autoImplicit false

namespace KvMemory

open CMem KvHash KvIoctl Interleave Blocks

variable {H : HashFn} {ι : Type}

/-! ### The blocks that an ioctl may allocate -/

/-- Code that does not sleep allocates nothing. -/
theorem Quiet.costs {α : Type} {p : Code α} (h : Quiet p) (n : ℕ) : p.Costs Instr.blocks n := by
  refine (Prog.Uses.mono h fun j hj => ?_).costs n
  cases j with
  | kmalloc p => exact absurd trivial hj
  | kstrdup s p => exact absurd trivial hj
  | _ => rfl

theorem costs_insertNew (ht : Table) (bucket : ℕ) (key : HashKey) (newstr place : Ptr) :
    (insertNew ht bucket key newstr place).Costs Instr.blocks 1 := by
  simp only [insertNew, instr, Prog.call_bind, Prog.ret_bind, Prog.costs_call]
  refine ⟨le_rfl, fun e => ?_⟩
  cases e with
  | none =>
      refine Quiet.costs ?_ _
      simp [Instr.Sleeps]
  | some e =>
      refine Quiet.costs ((quiet_call ..).2 ⟨id, fun _ => (quiet_call ..).2 ⟨id, fun _ => ?_⟩⟩) _
      exact (quiet_hlistAddHead e _).bind fun _ => ⟨id, fun _ => trivial⟩

/-- `kv_hash_add` allocates at most two blocks. -/
theorem costs_kvHashAdd (fuel : ℕ) (key : HashKey) (value : List UInt8) (places : Places) :
    (kvHashAdd H fuel key value places).Costs Instr.blocks 2 := by
  simp only [kvHashAdd, instr, Prog.call_bind, Prog.ret_bind, Prog.pure_eq, Prog.costs_call,
    Prog.costs_ite, Prog.costs_ret, implies_true, true_and]
  refine ⟨Nat.zero_le 2, fun ht _ => ⟨Nat.le_succ 1, fun newstr _ => ?_⟩⟩
  refine ⟨Nat.zero_le 1, fun _ => ⟨Nat.zero_le 1, fun first => ?_⟩⟩
  refine Prog.Costs.mono ((Quiet.costs (quiet_findEntry key fuel first) 0).bind fun found => ?_)
    (Nat.zero_add 1).le
  cases found with
  | none => trivial
  | some entry =>
      cases entry with
      | none => exact costs_insertNew ..
      | some e => exact Quiet.costs (quiet_replaceValue ..) 1

/-- The additions of a handler of messages, each with the blocks it may allocate. -/
def Op.blocks : Op H → ℕ
  | .add _ _ => 2
  | _ => 0

theorem costs_perform (fuel : ℕ) (places : Places) (op : Op H) :
    (perform H fuel places op).Costs Instr.blocks (Op.blocks op) := by
  cases op with
  | lookup key outBuf => exact Quiet.costs (quiet_kvHashLookup ..) 0
  | add key value => exact costs_kvHashAdd ..
  | remove key => exact Quiet.costs (quiet_kvHashRemove ..) 0
  | visit b => trivial

/-- A handler of messages makes at most one addition. -/
theorem costs_handleKvMessage (env : KernelEnv) (cmd : Cmd) (arg : KvMessage) :
    (handleKvMessage env cmd arg : Kernel H (ℤ × KvMessage)).Costs Op.blocks 2 := by
  have hadd : ∀ failed : List UInt8,
      (addAndReply env arg failed : Kernel H (ℤ × KvMessage)).Costs Op.blocks 2 := fun failed =>
    ⟨le_rfl, fun _ => (Prog.costs_ite ..).2 ⟨fun _ => trivial, fun _ => trivial⟩⟩
  have hdispatch : (dispatch env cmd arg : Kernel H (ℤ × KvMessage)).Costs Op.blocks 2 := by
    cases cmd with
    | kvInsert =>
        exact ⟨Nat.zero_le 2, fun _ => (Prog.costs_ite ..).2 ⟨fun _ => trivial, fun _ => hadd _⟩⟩
    | kvUpdate =>
        exact ⟨Nat.zero_le 2, fun _ => (Prog.costs_ite ..).2 ⟨fun _ => trivial, fun _ => hadd _⟩⟩
    | kvGet =>
        exact ⟨Nat.zero_le 2, fun _ => (Prog.costs_ite ..).2 ⟨fun _ => trivial, fun _ => trivial⟩⟩
    | kvDelete =>
        exact ⟨Nat.zero_le 2, fun _ => (Prog.costs_ite ..).2 ⟨fun _ => trivial, fun _ => trivial⟩⟩
    | unknown n => trivial
  rw [handleKvMessage, Prog.costs_ite]
  exact ⟨fun _ => trivial, fun _ => hdispatch.bind (n := 0) fun r => by simp⟩

/-- An ioctl allocates at most two blocks. -/
theorem costs_ioctl (c : IoctlCall) (fuel : ℕ) : (c.code H fuel).Costs Instr.blocks 2 := by
  obtain ⟨env, places, ioctl⟩ := c
  cases ioctl with
  | message cmd arg =>
      exact ((costs_handleKvMessage env cmd arg).lower (costs_perform fuel places)).map _
  | snapshot arg => exact (Quiet.costs (quiet_handleKvSnapshot fuel env arg) 2).map _
  | count arg => exact (Quiet.costs (quiet_handleKvCount fuel env arg) 2).map _

theorem costs_client (fuel : ℕ) (cs : List IoctlCall) :
    (client H fuel cs).Costs Instr.blocks (2 * cs.length) := by
  induction cs with
  | nil => trivial
  | cons c cs ih =>
      rw [List.length_cons, Nat.mul_succ, Nat.add_comm]
      refine (costs_ioctl c fuel).bind fun answer => ?_
      cases answer with
      | none => trivial
      | some answer => exact ih.map _

/-! ### The answers of a client -/

/-- A client that returns has an answer to each of its ioctls. -/
theorem returns_client (fuel : ℕ) (cs : List IoctlCall) :
    (client H fuel cs).Returns fun r => ∀ answers, r = some answers → answers.length = cs.length := by
  induction cs with
  | nil =>
      rintro answers ⟨⟩
      rfl
  | cons c cs ih =>
      refine Prog.Returns.bind fun answer => ?_
      cases answer with
      | none =>
          rintro answers ⟨⟩
      | some answer =>
          refine ih.map _ fun r hr answers hanswers => ?_
          obtain ⟨answers', rfl, rfl⟩ := Option.map_eq_some_iff.1 hanswers
          rw [List.length_cons, List.length_cons, hr answers' rfl]

/-! ### Fair schedules -/

section Fair

variable [DecidableEq ι] [Fintype ι] {m : Memory} {s : Store H} {fuel : ℕ} {cs : ι → List IoctlCall}

/-- There is room in all states of a run, if there is room for what the ioctls may allocate. -/
theorem along_room_of_costs (hfuel : m.live.card + ∑ i, 2 * (cs i).length ≤ fuel) (is : List ι) :
    Machine.Along (Pool.turn exec may) (fun p _ => p.shared.live.card ≤ fuel)
        (clients H fuel m cs) is ∧
      ((clients H fuel m cs).turns exec may is).shared.live.card ≤ fuel := by
  have hload : ∀ is : List ι, ((clients H fuel m cs).turns exec may is).shared.live.card ≤ fuel :=
    fun is => (Pool.load_turns_le (fun m => m.live.card) (fun j m => card_exec_le j m)
      (fun i => costs_client fuel (cs i)) is).trans hfuel
  refine ⟨(Machine.along_iff ..).2 fun is₁ i is₂ _ => hload is₁, hload is⟩

/-- Under a fair schedule there is a turn after which every client has returned. -/
theorem linked_returned (h : m.Represents s) (cs : ι → List IoctlCall)
    (hfuel : m.live.card + ∑ i, 2 * (cs i).length ≤ fuel) {σ : ℕ → ι}
    (hfair : ∀ i n, ∃ k, n ≤ k ∧ σ k = i) :
    ∃ (n : ℕ) (A : Base) (G : ι → Custody) (q : Pool ι (Store H) (Op H) KvHash.Res (List (ℤ × Ioctl))),
      let p := (clients H fuel m cs).turns exec may ((List.range n).map σ)
      (protocol ι H A fuel).Linked (Answered H A) p q G ∧
        ∀ i, ∃ answers, answers.length = (cs i).length ∧ p.thread i = .ret (some answers) := by
  have hmoves : ∀ n, (∃ i, (((clients H fuel m cs).after exec may σ n).thread i).result? = none) →
      ∃ i, (((clients H fuel m cs).after exec may σ n).thread i).Moves may
        ((clients H fuel m cs).after exec may σ n).shared := by
    intro n hbusy
    rw [Pool.after_eq_turns] at hbusy ⊢
    obtain ⟨halong, hroom⟩ := along_room_of_costs hfuel ((List.range n).map σ)
    obtain ⟨A, G, q, hlinked⟩ := linked_after h cs halong
    exact exists_moves hlinked hroom hbusy
  obtain ⟨n, hn⟩ := Pool.returned_of_fair hfair hmoves
  obtain ⟨A, G, q, hlinked⟩ := linked_after h cs (along_room_of_costs hfuel ((List.range n).map σ)).1
  refine ⟨n, A, G, q, hlinked, fun i => ?_⟩
  obtain ⟨r, hr⟩ := Option.ne_none_iff_exists'.1 (hn i)
  rw [Pool.after_eq_turns] at hr
  have hret := Prog.eq_ret_of_result? hr
  obtain ⟨-, answers, rfl, -⟩ := hlinked.returned hret
  have hreturns := Pool.returns_turns exec may (p := clients H fuel m cs) ((List.range n).map σ)
    (fun i => returns_client fuel (cs i)) i
  rw [hret] at hreturns
  exact ⟨answers, hreturns answers rfl, hret⟩

/-- **Every client returns** under a fair schedule: there is a turn after which each of them has an answer to
each of its ioctls, and the memory holds a table again. -/
theorem clients_return (h : m.Represents s) (cs : ι → List IoctlCall)
    (hfuel : m.live.card + ∑ i, 2 * (cs i).length ≤ fuel) {σ : ℕ → ι}
    (hfair : ∀ i n, ∃ k, n ≤ k ∧ σ k = i) :
    ∃ n, let p := (clients H fuel m cs).turns exec may ((List.range n).map σ)
      (∀ i, ∃ answers, answers.length = (cs i).length ∧ p.thread i = .ret (some answers)) ∧
        ∃ t : Store H, p.shared.Represents t := by
  obtain ⟨n, A, G, q, hlinked, hret⟩ := linked_returned h cs hfuel hfair
  refine ⟨n, hret, q.shared, represents_of_returned hlinked fun i => ?_⟩
  obtain ⟨answers, -, hi⟩ := hret i
  rw [hi]
  exact Option.some_ne_none _

/-- One client after the other, for ever. -/
def alternately (n : ℕ) : Bool := decide (n % 2 = 1)

theorem alternately_fair (second : Bool) (n : ℕ) : ∃ k, n ≤ k ∧ alternately k = second := by
  cases second with
  | false => exact ⟨2 * n, by omega, decide_eq_false (by omega)⟩
  | true => exact ⟨2 * n + 1, by omega, decide_eq_true (by omega)⟩

theorem twoInserters_return :
    ∃ n, let p := (clients twoBuckets 10 emptyTable twoInserters).turns exec may ((List.range n).map alternately)
      (∀ i, ∃ answers, answers.length = (twoInserters i).length ∧ p.thread i = .ret (some answers)) ∧
        ∃ t : Store twoBuckets, p.shared.Represents t :=
  clients_return represents_emptyTable twoInserters (by decide) alternately_fair

end Fair

end KvMemory
