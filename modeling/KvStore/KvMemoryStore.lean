/-
**Ioctls of a table in memory, and of the store.**

The theorems about ioctls in `KvStore/KvIoctl.lean` and the modules that follow it are about the store.
Here it is shown that they are about the table in memory: an ioctl that is made of a table returns what the
ioctl of the store returns, with the same answer in the user's memory, and the table then stands for what
the store has become.

The handlers have the same shape on both sides.  So the agreement of two programs is put together from that
of their calls, one rule for each way to compose them.

Main definitions:

* `KvMemory.Agrees` — **a program in memory does what a program over the store does**;
* `KvMemory.Tells` — it does no more than to tell something about the table.

Main results:

* `KvMemory.ioctl_refines` — **refinement**: every ioctl.
-/

import KvStore.KvMemoryIoctl

set_option relaxedAutoImplicit false
set_option autoImplicit false

namespace KvMemory

open CMem KvHash KvIoctl Interleave Blocks

variable {H : HashFn}

/-! ### Agreement -/

section Agreement

variable {α β : Type} {m : Memory} {s : Store H} {alloc : Alloc}

/-- The program `p`, run in the memory `m`, is in order, returns what `q` returns of the store `s`, and
leaves a table that stands for what `q` leaves. -/
def Agrees (m : Memory) (s : Store H) (alloc : Alloc) (p : Code (Option α)) (q : Kernel H α) : Prop :=
  p.Ensures exec (Fine H.n) (fun r t => r = some (q.run (KvHash.exec alloc) s).1 ∧
    t.Represents (q.run (KvHash.exec alloc) s).2) m

/-- The same of programs that change nothing. -/
def Tells (m : Memory) (s : Store H) (alloc : Alloc) (p : Code (Option α)) (q : Kernel H α) : Prop :=
  p.Ensures exec (Fine H.n) (fun r t => r = some (q.run (KvHash.exec alloc) s).1 ∧ t = m) m ∧
    (q.run (KvHash.exec alloc) s).2 = s

theorem agrees_ret (h : m.Represents s) (a : α) : Agrees m s alloc (.ret (some a)) (.ret a) :=
  ⟨trivial, rfl, h⟩

theorem agrees_ite {c : Prop} [Decidable c] {p p' : Code (Option α)} {q q' : Kernel H α}
    (h : Agrees m s alloc p q) (h' : Agrees m s alloc p' q') :
    Agrees m s alloc (if c then p else p') (if c then q else q') := by
  by_cases hc : c
  · rw [if_pos hc, if_pos hc]
    exact h
  · rw [if_neg hc, if_neg hc]
    exact h'

/-- What follows a program that has told something is run in the same memory. -/
theorem Tells.bind {p : Code (Option α)} {q : Kernel H α} (h : Tells m s alloc p q)
    {k : Option α → Code (Option β)} {g : α → Kernel H β}
    (hk : ∀ a, Agrees m s alloc (k (some a)) (g a)) : Agrees m s alloc (p >>= k) (q >>= g) := by
  rw [Agrees, Prog.run_bind, h.2]
  refine (Prog.ensures_bind ..).2 (h.1.mono exec (fun _ _ => id) ?_)
  rintro r t ⟨rfl, rfl⟩
  exact hk _

/-- What follows a program may be no more than a computation. -/
theorem Agrees.bind_ret {p : Code (Option α)} {q : Kernel H α} (h : Agrees m s alloc p q)
    {k : Option α → Code (Option β)} {g : α → Kernel H β}
    (hk : ∀ a t s', t.Represents s' → Agrees t s' alloc (k (some a)) (g a)) :
    Agrees m s alloc (p >>= k) (q >>= g) := by
  rw [Agrees, Prog.run_bind]
  refine (Prog.ensures_bind ..).2 (h.mono exec (fun _ _ => id) ?_)
  rintro r t ⟨rfl, ht⟩
  exact hk _ _ _ ht

theorem Agrees.map {p : Code (Option α)} {q : Kernel H α} (h : Agrees m s alloc p q) (f : α → β) :
    Agrees m s alloc (p >>= fun r => Prog.ret (r.map f)) (q >>= fun a => Prog.ret (f a)) :=
  h.bind_ret fun a _ _ ht => agrees_ret ht (f a)

end Agreement

/-! ### The calls -/

section Calls

variable {m : Memory} {L : Layout} {s : Store H}

theorem Whole.represents (h : Whole H m L) (hs : s.1 = L.table H m) : m.Represents s := ⟨L, h, hs⟩

theorem tells_lookup (h : Whole H m L) (hs : s.1 = L.table H m) (alloc : Alloc) (key : HashKey)
    (outBuf : Buf MAX_VALUE_LEN) :
    Tells m s alloc (kvHashLookup H m.live.card key outBuf) (lookup key outBuf) := by
  refine ⟨?_, rfl⟩
  have hcall := ensures_kvHashLookup h.holds h.held (h.lt_guarded key) le_rfl outBuf
  rw [h.ready, ← hs] at hcall
  exact hcall

theorem tells_count (h : Whole H m L) (hs : s.1 = L.table H m) (alloc : Alloc) :
    Tells m s alloc (kvHashCount m.live.card) KvHash.kvHashCount := by
  refine ⟨?_, run_snd_of_visits (uses_countLoop ..) alloc s⟩
  have hcall := ensures_kvHashCount h.holds h.held h.complete le_rfl
  rw [h.ready] at hcall
  refine hcall.mono exec (fun _ _ => id) ?_
  rintro r t ⟨rfl, a, rfl, ha⟩
  exact ⟨congrArg some (ha s hs alloc).symm, rfl⟩

theorem tells_snapshot (h : Whole H m L) (hs : s.1 = L.table H m) (alloc : Alloc)
    (entries : List KvMessage) (maxEntries : ℕ) :
    Tells m s alloc (kvHashSnapshot m.live.card entries maxEntries)
      (KvHash.kvHashSnapshot entries maxEntries) := by
  refine ⟨?_, run_snd_of_visits (uses_kvHashSnapshot ..) alloc s⟩
  have hcall := ensures_kvHashSnapshot h.holds h.held h.complete le_rfl entries maxEntries
  rw [h.ready] at hcall
  refine hcall.mono exec (fun _ _ => id) ?_
  rintro r t ⟨rfl, a, rfl, ha⟩
  exact ⟨congrArg some (ha s hs alloc).symm, rfl⟩

theorem agrees_add (h : Whole H m L) (hs : s.1 = L.table H m) (key : HashKey) (value : List UInt8)
    (places : Places) :
    Agrees m s (places.alloc m) (kvHashAdd H m.live.card key value places) (add key value) := by
  refine ((Call.add key value places).ensures h).mono exec (fun _ _ => id) ?_
  rintro r t ⟨ret, L', rfl, hwhole, hstore⟩
  obtain ⟨hret, htable⟩ := hstore s hs
  exact ⟨congrArg some hret, L', hwhole, htable⟩

theorem agrees_remove (h : Whole H m L) (hs : s.1 = L.table H m) (alloc : Alloc) (key : HashKey) :
    Agrees m s alloc (kvHashRemove H m.live.card key) (remove key) := by
  refine ((Call.remove key).ensures h).mono exec (fun _ _ => id) ?_
  rintro r t ⟨ret, L', rfl, hwhole, hstore⟩
  obtain ⟨hret, htable⟩ := hstore s hs
  exact ⟨congrArg some hret, L', hwhole, htable⟩

/-! ### The handlers -/

theorem agrees_addAndReply (h : Whole H m L) (hs : s.1 = L.table H m) (env : KernelEnv) (places : Places)
    (msg : KvMessage) (failed : List UInt8) :
    Agrees m s (places.alloc m) ((addAndReply env msg failed).lower (perform H m.live.card places))
      (addAndReply env msg failed) := by
  rw [addAndReply, Prog.lower_bind, add, Prog.lower_op]
  refine (agrees_add h hs msg.key _ places).bind_ret fun ret t s' ht => ?_
  rw [Option.elim_some, Prog.lower_ite]
  exact agrees_ite (agrees_ret ht _) (agrees_ret ht _)

theorem agrees_dispatch (h : Whole H m L) (hs : s.1 = L.table H m) (env : KernelEnv) (places : Places)
    (cmd : Cmd) (arg : KvMessage) :
    Agrees m s (places.alloc m) ((dispatch env cmd arg).lower (perform H m.live.card places))
      (dispatch env cmd arg) := by
  have hreply := agrees_addAndReply h hs env places arg
  have hm := h.represents hs
  cases cmd with
  | kvInsert =>
      rw [dispatch, handleInsert, Prog.lower_bind, lookup, Prog.lower_op]
      refine (tells_lookup h hs _ _ _).bind fun r => ?_
      rw [Option.elim_some, Prog.lower_ite]
      exact agrees_ite (agrees_ret hm _) (hreply _)
  | kvUpdate =>
      rw [dispatch, handleUpdate, Prog.lower_bind, lookup, Prog.lower_op]
      refine (tells_lookup h hs _ _ _).bind fun r => ?_
      rw [Option.elim_some, Prog.lower_ite]
      exact agrees_ite (agrees_ret hm _) (hreply _)
  | kvGet =>
      rw [dispatch, handleGet, Prog.lower_bind, lookup, Prog.lower_op]
      refine (tells_lookup h hs _ _ _).bind fun r => ?_
      rw [Option.elim_some, Prog.lower_ite]
      exact agrees_ite (agrees_ret hm _) (agrees_ret hm _)
  | kvDelete =>
      rw [dispatch, handleDelete, Prog.lower_bind, remove, Prog.lower_op]
      refine (agrees_remove h hs _ _).bind_ret fun ret t s' ht => ?_
      rw [Option.elim_some, Prog.lower_ite]
      exact agrees_ite (agrees_ret ht _) (agrees_ret ht _)
  | unknown n => exact agrees_ret hm _

theorem agrees_handleKvMessage (h : Whole H m L) (hs : s.1 = L.table H m) (env : KernelEnv)
    (places : Places) (cmd : Cmd) (arg : KvMessage) :
    Agrees m s (places.alloc m) ((handleKvMessage env cmd arg).lower (perform H m.live.card places))
      (handleKvMessage env cmd arg) := by
  rw [handleKvMessage, Prog.lower_ite]
  refine agrees_ite (agrees_ret (h.represents hs) _) ?_
  rw [Prog.lower_bind]
  refine (agrees_dispatch h hs env places cmd arg).bind_ret fun r t s' ht => ?_
  rw [Option.elim_some, Prog.lower_ite, Prog.lower_ite]
  exact agrees_ite (agrees_ret ht _) (agrees_ite (agrees_ret ht _) (agrees_ret ht _))

theorem agrees_handleKvCount (h : Whole H m L) (hs : s.1 = L.table H m) (alloc : Alloc) (env : KernelEnv)
    (arg : UInt32) :
    Agrees m s alloc (handleKvCount m.live.card env arg) (KvIoctl.handleKvCount env arg) := by
  have hm := h.represents hs
  refine (tells_count h hs alloc).bind fun count => ?_
  exact agrees_ite (agrees_ret hm _) (agrees_ite (agrees_ret hm _) (agrees_ret hm _))

theorem agrees_handleSnapshot (h : Whole H m L) (hs : s.1 = L.table H m) (alloc : Alloc)
    (msg : KvSnapshotMessage) :
    Agrees m s alloc (handleSnapshot m.live.card msg) (KvIoctl.handleSnapshot msg) := by
  have hm := h.represents hs
  refine (tells_snapshot h hs alloc _ _).bind fun r => ?_
  exact agrees_ite (agrees_ret hm _) (agrees_ret hm _)

theorem agrees_handleKvSnapshot (h : Whole H m L) (hs : s.1 = L.table H m) (alloc : Alloc)
    (env : KernelEnv) (arg : KvSnapshotMessage) :
    Agrees m s alloc (handleKvSnapshot m.live.card env arg) (KvIoctl.handleKvSnapshot env arg) := by
  have hm := h.represents hs
  refine agrees_ite (agrees_ret hm _) ((tells_count h hs alloc).bind fun actualCount => ?_)
  refine agrees_ite (agrees_ret hm _) (agrees_ite (agrees_ret hm _) ?_)
  refine (agrees_handleSnapshot h hs alloc _).bind_ret fun r t s' ht => ?_
  exact agrees_ite (agrees_ret ht _) (agrees_ite (agrees_ret ht _) (agrees_ret ht _))

end Calls

/-- **Refinement.**  An ioctl of a table in memory is in order, returns what the ioctl of the store returns,
and leaves a table that stands for what the store has become. -/
theorem ioctl_refines {m : Memory} {s : Store H} (h : m.Represents s) (c : IoctlCall) :
    (c.code H m.live.card).Along exec (Fine H.n) m ∧
      ((c.code H m.live.card).run exec m).1 =
        some (KvIoctl.ioctl ⟨c.env, c.places.alloc m, c.ioctl⟩ s).1 ∧
      (c.next H m).Represents (KvIoctl.ioctl ⟨c.env, c.places.alloc m, c.ioctl⟩ s).2 := by
  obtain ⟨L, hwhole, hs⟩ := h
  obtain ⟨env, places, ioctl⟩ := c
  cases ioctl with
  | message cmd arg => exact (agrees_handleKvMessage hwhole hs env places cmd arg).map _
  | snapshot arg => exact (agrees_handleKvSnapshot hwhole hs _ env arg).map _
  | count arg => exact (agrees_handleKvCount hwhole hs _ env arg).map _

end KvMemory
