/-
**Clients with keys of their own.**

Several clients send requests to the module, each waiting for its reply before it sends the next
one.  Their handlers run concurrently, and their keys may well lie in the same bucket, so that the
chain one client's lookup walks is rebuilt by another before its addition.  This module proves that
clients whose keys are different do not notice each other: every client gets the replies it would
have got alone, and finds its keys as it would have left them.

The proof is the projection rule `Interleave.Pool.exists_solo`: the part of the store that a client
sees is what the store holds under its keys, and the steps of the others leave it alone.

Main definitions:

* `KvIoctl.client` — a client: its requests in turn, with all their replies;
* `KvIoctl.SameMessage` — the same command and message, whatever lies in memory around it.

Main results:

* `KvIoctl.exec_congr` — a step sees of the store only what is under its own key;
* `KvIoctl.clients_undisturbed` — **clients with different keys are undisturbed.**
-/

import KvStore.KvIoctl

set_option relaxedAutoImplicit false
set_option autoImplicit false

namespace KvIoctl

open CMem Interleave KvHash

variable {H : HashFn} {ι : Type}

/-! ### Clients -/

/-- A client that sends its requests one after the other, and collects the replies. -/
def client : List Request → Kernel H (List (ℤ × KvMessage))
  | [] => .ret []
  | r :: rs => do
      let reply ← r.prog
      let replies ← client rs
      return reply :: replies

/-- Clients over a store. -/
def clients (s : Store H) (rs : ι → List Request) :
    Pool ι (Store H) (Op H) Res (List (ℤ × KvMessage)) where
  shared := s
  thread := fun i => client (rs i)

/-- A client performs steps for its requests only. -/
theorem uses_client (rs : List Request) :
    (client rs : Kernel H (List (ℤ × KvMessage))).Uses fun op => ∃ r ∈ rs, r.Performs op := by
  induction rs with
  | nil => trivial
  | cons r rs ih =>
      refine Prog.Uses.bind ((uses_prog r).mono fun op hop => ?_) fun reply =>
        Prog.Uses.bind (ih.mono fun op hop => ?_) fun replies => trivial
      · exact ⟨r, List.mem_cons_self .., hop⟩
      · obtain ⟨r', hr', hop'⟩ := hop
        exact ⟨r', List.mem_cons_of_mem _ hr', hop'⟩

/-- A client is done after two steps for each of its requests. -/
theorem within_client (rs : List Request) :
    (client rs : Kernel H (List (ℤ × KvMessage))).Within (2 * rs.length) := by
  induction rs with
  | nil => trivial
  | cons r rs ih =>
      have hrest : ∀ reply : ℤ × KvMessage,
          (client rs >>= fun replies => .ret (reply :: replies) :
            Kernel H (List (ℤ × KvMessage))).Within (2 * rs.length) := fun reply =>
        (ih.bind fun replies => Prog.within_ret _ 0).mono (by omega)
      exact ((within_prog r).bind hrest).mono (by rw [List.length_cons]; omega)

/-! ### What a step sees -/

/-- A step performed for a request answers alike in two stores that hold the same under the key of
the request, and keeps alike whatever is alike. -/
theorem exec_congr {r : Request} {op : Op H} (hop : r.Performs op) (alloc : Alloc) {s t : Store H}
    (h : s.get r.arg.key = t.get r.arg.key) :
    (exec alloc op s).1 = (exec alloc op t).1 ∧
      ∀ key, s.get key = t.get key → (exec alloc op s).2.get key = (exec alloc op t).2.get key := by
  cases op with
  | lookup k outBuf =>
      obtain rfl : k = r.arg.key := hop
      refine ⟨?_, fun key hkey => hkey⟩
      simp only [exec, Store.lookup_eq, h]
  | add k value =>
      obtain ⟨rfl, -, -⟩ := hop
      have hadm : alloc.admits s.1 r.arg.key = alloc.admits t.1 r.arg.key := by
        have hsome := congrArg Option.isSome h
        rw [Alloc.admits, Alloc.admits]
        exact congrArg (fun b => alloc.kstrdup && (b || alloc.kmalloc)) hsome
      refine ⟨?_, fun key hkey => ?_⟩
      · simp only [exec, Store.add_fst, hadm]
      · simp only [exec, Store.get_add, hadm, hkey]
  | remove k =>
      obtain ⟨rfl, -⟩ := hop
      refine ⟨?_, fun key hkey => ?_⟩
      · simp only [exec, Store.remove_fst, h]
      · simp only [exec, Store.get_remove, hkey]
  | visit b => exact hop.elim

/-- A step performed for a request does not write another key. -/
theorem not_writes_of_performs {r : Request} {op : Op H} (hop : r.Performs op) {key : HashKey}
    (hne : r.arg.key ≠ key) : ¬ op.Writes key := by
  intro hw
  cases op with
  | lookup k outBuf => exact hw
  | add k value => exact hne (hop.1.symm.trans hw)
  | remove k => exact hne (hop.1.symm.trans hw)
  | visit b => exact hw

/-! ### What lies around a message -/

/-- The same command with the same message. -/
def SameMessage (r r' : Request) : Prop := r.cmd = r'.cmd ∧ r.arg = r'.arg

/-- With a terminated value, what lies in memory around the message does not matter. -/
theorem run_prog_congr {r r' : Request} (h : SameMessage r r') (hnul : 0 ∈ r.arg.value.1)
    (alloc : Alloc) (s : Store H) :
    r.prog.run (exec alloc) s = r'.prog.run (exec alloc) s := by
  obtain ⟨env, cmd, arg⟩ := r
  obtain ⟨env', cmd', arg'⟩ := r'
  obtain ⟨rfl, rfl⟩ : cmd = cmd' ∧ arg = arg' := h
  have hadd : s.add arg.key (arg.value.1 ++ env.stack) alloc =
      s.add arg.key (arg.value.1 ++ env'.stack) alloc := by
    refine s.add_congr arg.key ?_ alloc
    rw [cstr_append hnul, cstr_append hnul]
  cases cmd with
  | kvInsert => simp only [Request.prog, dispatch, run_handleInsert, run_addAndReply, hadd]
  | kvUpdate => simp only [Request.prog, dispatch, run_handleUpdate, run_addAndReply, hadd]
  | kvGet => rfl
  | kvDelete => rfl
  | unknown n => rfl

theorem run_client_congr {rs rs' : List Request} (h : List.Forall₂ SameMessage rs rs')
    (hnul : ∀ r ∈ rs, 0 ∈ r.arg.value.1) (alloc : Alloc) (s : Store H) :
    (client rs).run (exec alloc) s = (client rs').run (exec alloc) s := by
  induction h generalizing s with
  | nil => rfl
  | cons hr _ ih =>
      have hprog := run_prog_congr hr (hnul _ (List.mem_cons_self ..)) alloc s
      have hrest := ih fun r hr' => hnul r (List.mem_cons_of_mem _ hr')
      simp only [client, Prog.run_bind, hprog, hrest]

/-! ### Undisturbed clients -/

variable [DecidableEq ι]

/-- **Undisturbed clients.**  Let any number of clients run concurrently on any store, each with its
own list of requests and no key in common, with terminated values and successful allocations.  A
client is done as soon as it has taken two steps for each request.  When it is done its replies are
the ones it gets alone from the same store, whatever lies in memory around its messages then, and
the store holds under its keys what it leaves there alone. -/
theorem clients_undisturbed (s : Store H) (rs : ι → List Request)
    (hdisj : ∀ i j, i ≠ j → ∀ r ∈ rs i, ∀ r' ∈ rs j, r.arg.key ≠ r'.arg.key)
    (hnul : ∀ i, ∀ r ∈ rs i, 0 ∈ r.arg.value.1) {es : List (ι × Alloc)}
    (hes : ∀ e ∈ es, e.2 = Alloc.ok) (i : ι) {rs' : List Request}
    (hsame : List.Forall₂ SameMessage (rs i) rs') :
    (2 * (rs i).length ≤ es.countP (·.1 = i) →
      ∃ replies, ((clients s rs).run exec es).thread i = .ret replies) ∧
    ∀ replies, ((clients s rs).run exec es).thread i = .ret replies →
      replies = ((client rs').run (exec Alloc.ok) s).1 ∧
      ∀ r ∈ rs i, ((clients s rs).run exec es).shared.get r.arg.key =
        ((client rs').run (exec Alloc.ok) s).2.get r.arg.key := by
  refine ⟨fun hsteps => ?_, fun replies hdone => ?_⟩
  · have hwithin := Pool.within_run exec (p := clients s rs) (within_client (rs i)) es
    rw [Nat.sub_eq_zero_of_le hsteps] at hwithin
    exact hwithin.eq_ret
  · -- client `i` sees of the store what is under its keys
    have hown : ∀ i (op : Op H), (∃ r ∈ rs i, r.Performs op) → ∀ s t : Store H,
        (∀ r ∈ rs i, s.get r.arg.key = t.get r.arg.key) →
        (exec Alloc.ok op s).1 = (exec Alloc.ok op t).1 ∧ ∀ r ∈ rs i,
          (exec Alloc.ok op s).2.get r.arg.key = (exec Alloc.ok op t).2.get r.arg.key := by
      rintro i op ⟨r, hr, hop⟩ s t hst
      obtain ⟨hans, hkeep⟩ := exec_congr hop Alloc.ok (hst r hr)
      exact ⟨hans, fun r' hr' => hkeep _ (hst r' hr')⟩
    have hothers : ∀ i j, i ≠ j → ∀ op : Op H, (∃ r ∈ rs j, r.Performs op) → ∀ s t : Store H,
        (∀ r ∈ rs i, s.get r.arg.key = t.get r.arg.key) →
        ∀ r ∈ rs i, (exec Alloc.ok op s).2.get r.arg.key = t.get r.arg.key := by
      rintro i j hij op ⟨r, hr, hop⟩ s t hst r' hr'
      have hne : r.arg.key ≠ r'.arg.key := hdisj j i (Ne.symm hij) r hr r' hr'
      rw [get_exec_of_not_writes (not_writes_of_performs hop hne)]
      exact hst r' hr'
    obtain ⟨t, hrun, hsee⟩ := Pool.exists_solo exec hown hothers (p := clients s rs)
      (fun i => uses_client (rs i)) (fun i r hr => rfl) hes i
    -- the client has nothing left to do, so the run alone has ended in `t`
    have halone : (client (rs i)).run (exec Alloc.ok) s = (replies, t) := by
      rw [hdone, Prog.run_ret] at hrun
      exact hrun.symm
    rw [← run_client_congr hsame (hnul i), halone]
    exact ⟨rfl, hsee⟩

/-- Two clients: one inserts key 1, updates it and reads it, the other inserts and deletes
key 2. -/
def twoClients (i : Fin 2) : List Request :=
  let msg (key : HashKey) : KvMessage :=
    { KvMessage.zero with key := key, value := memcpy (zeros MAX_VALUE_LEN) (ascii "a") }
  if i = 0 then
    [⟨.ok, .kvInsert, msg 1⟩, ⟨.ok, .kvUpdate, msg 1⟩, ⟨.ok, .kvGet, msg 1⟩]
  else [⟨.ok, .kvInsert, msg 2⟩, ⟨.ok, .kvDelete, msg 2⟩]

/-- The two clients in turns, up to the end of the second. -/
theorem twoClients_undisturbed :
    let q := (clients (Store.init HashFn.module) twoClients).run exec
      [(0, .ok), (1, .ok), (0, .ok), (1, .ok), (0, .ok), (1, .ok), (1, .ok)]
    ∃ replies, q.thread 1 = .ret replies ∧
      replies = ((client (twoClients 1)).run (exec Alloc.ok) (Store.init HashFn.module)).1 := by
  intro q
  have hrefl : List.Forall₂ SameMessage (twoClients 1) (twoClients 1) :=
    .cons ⟨rfl, rfl⟩ (.cons ⟨rfl, rfl⟩ .nil)
  have hes : ∀ e ∈ [((0 : Fin 2), Alloc.ok), (1, .ok), (0, .ok), (1, .ok), (0, .ok), (1, .ok),
      (1, .ok)], e.2 = Alloc.ok := by decide
  obtain ⟨hdone, hreplies⟩ := clients_undisturbed (Store.init HashFn.module) twoClients
    (by decide) (by decide) hes 1 hrefl
  obtain ⟨replies, hret⟩ := hdone (by decide)
  exact ⟨replies, hret, (hreplies replies hret).1⟩

end KvIoctl
