/-
**The threads of the daemon, step by step.**

`KvStore/Daemon.lean` and `KvStore/DaemonCommand.lean` take an ioctl as one step.  It is not one step for
the other threads: `_handle_insert` looks its key up under the lock of the bucket and adds it under the
lock again, and `_handle_kv_count` and `_handle_kv_snapshot` lock one bucket after the other.  In this
module a thread of the daemon performs the operations of `kernel/kv_hash.c` one at a time, so that the
operations of other threads come between those of one ioctl.

An ioctl begins with a step of its own, in which it finds the device open or closed.  Once it has begun
it goes on to its end, whatever becomes of the device.

Main definitions:

* `Daemon.Step`, `Daemon.Step.exec` — what a thread does at once;
* `Daemon.stepwise` — a program over system calls, step by step;
* `Daemon.Thread`, `Daemon.Thread.step` — `handle_client`, step by step;
* `Daemon.Threads` — all connections over one store and one file.

Main results:

* `Daemon.run_stepwise` — a thread that is left alone does what its system calls do;
* `Daemon.stepwise_ioctl` — an ioctl is its handler, if the device is open.
-/

import KvStore.DaemonCommand

set_option relaxedAutoImplicit false
set_option autoImplicit false

namespace Daemon

open CMem Text Interleave KvHash KvIoctl

variable {H : HashFn} {α β : Type}

/-! ### Steps -/

/-- `EBADF`. -/
abbrev EBADF : ℤ := 9

/-- What a thread of the daemon does at once: an ioctl begins; an ioctl performs an operation on the
table; the thread makes a system call on the snapshot file. -/
inductive Step (H : HashFn) : Type
  | enter
  | table (c : IoctlCall) (op : Op H)
  | truncate
  | write (bytes : List UInt8)
  | read

/-- What a step answers: whether the device is open, the answer of the table, that of the system call. -/
abbrev StepRes : Step H → Type
  | .enter => Bool
  | .table _ op => Res op
  | .truncate => Unit
  | .write _ => Unit
  | .read => Option (List UInt8)

/-- The effect of a step, when the device is open or closed. -/
def Step.exec (device : Bool) : (x : Step H) → World H → StepRes x × World H
  | .enter, w => (device, w)
  | .table c op, w =>
      ((KvHash.exec c.alloc op w.store).1, { w with store := (KvHash.exec c.alloc op w.store).2 })
  | .truncate, w => sysExec () .truncate w
  | .write bytes, w => sysExec () (.write bytes) w
  | .read, w => sysExec () .read w

/-- Programs over steps. -/
abbrev Code (H : HashFn) (α : Type) := Prog (Step H) StepRes α

/-- What is left of an ioctl that has begun. -/
def inside (c : IoctlCall) (q : Kernel H α) : Code H α := q.expand fun op => .call (.table c op) .ret

/-- A system call, step by step. -/
def SysOp.steps : (op : SysOp) → Code H (SysRes op)
  | .ioctl c => .call .enter fun device =>
      if device then inside c (kvIoctl c.env c.ioctl) else .ret (-EBADF, c.ioctl)
  | .truncate => .call .truncate .ret
  | .write bytes => .call (.write bytes) .ret
  | .read => .call .read .ret

/-- A program over system calls, step by step. -/
def stepwise (p : Task α) : Code H α := p.expand SysOp.steps

section Stepwise

variable {c : IoctlCall}

@[simp] theorem inside_ret (a : α) : (inside c (.ret a) : Code H α) = .ret a := rfl

@[simp] theorem inside_call (op : Op H) (k : Res op → Kernel H α) :
    inside c (.call op k) = .call (.table c op) fun r => inside c (k r) := rfl

@[simp] theorem stepwise_ret (a : α) : (stepwise (.ret a) : Code H α) = .ret a := rfl

@[simp] theorem stepwise_truncate (k : Unit → Task α) :
    (stepwise (.call .truncate k) : Code H α) = .call .truncate fun r => stepwise (k r) := rfl

@[simp] theorem stepwise_write (bytes : List UInt8) (k : Unit → Task α) :
    (stepwise (.call (.write bytes) k) : Code H α) = .call (.write bytes) fun r => stepwise (k r) := rfl

/-- **An ioctl** is its handler, if it finds the device open. -/
theorem stepwise_ioctl (c : IoctlCall) (k : ℤ × Ioctl → Task α) :
    (stepwise (.call (.ioctl c) k) : Code H α) = .call .enter fun device =>
      if device then inside c (kvIoctl c.env c.ioctl) >>= fun r => stepwise (k r)
      else stepwise (k (-EBADF, c.ioctl)) := by
  refine congrArg (Prog.call Step.enter) (funext fun device => ?_)
  cases device with
  | false => rfl
  | true => rfl

/-- The handler, left alone, does what it does on the store. -/
theorem run_inside (c : IoctlCall) (q : Kernel H α) (device : Bool) (w : World H) :
    (inside c q).run (Step.exec device) w =
      ((q.run (exec c.alloc) w.store).1, { w with store := (q.run (exec c.alloc) w.store).2 }) := by
  induction q generalizing w with
  | ret a => rfl
  | call op k ih =>
      rw [inside_call, Prog.run_call, Prog.run_call]
      exact ih _ _

/-- **A thread that is left alone** does what its system calls do. -/
theorem run_stepwise (p : Task α) (w : World H) :
    (stepwise p).run (Step.exec true) w = p.run (sysExec ()) w := by
  refine Prog.run_expand _ (fun op w => ?_) p w
  cases op with
  | ioctl c => exact run_inside c (kvIoctl c.env c.ioctl) true w
  | truncate => rfl
  | write bytes => rfl
  | read => rfl

end Stepwise

/-! ### What a step writes -/

/-- What the step writes to the table is a value of at most 63 bytes. -/
def Step.Regular : Step H → Prop
  | .table _ (.add _ value) => (cstr value).1.length ≤ 63
  | _ => True

/-- The values in the messages are terminated. -/
def SysOp.Regular : SysOp → Prop
  | .ioctl c => ∀ cmd arg, c.ioctl = .message cmd arg → 0 ∈ arg.value.1
  | _ => True

theorem regular_inside_of_visits {c : IoctlCall} {q : Kernel H α} (h : q.Uses Op.Visits) :
    (inside c q).Uses Step.Regular := by
  refine h.expand _ fun op hop => ⟨?_, fun _ => trivial⟩
  cases op with
  | visit b => trivial
  | _ => exact hop.elim

theorem regular_inside_handleKvMessage {c : IoctlCall} {arg : KvMessage} (h : 0 ∈ arg.value.1)
    (env : KernelEnv) (cmd : Cmd) :
    (inside c (handleKvMessage env cmd arg) : Code H (ℤ × KvMessage)).Uses Step.Regular := by
  refine (uses_handleKvMessage env cmd arg).expand _ fun op hop => ⟨?_, fun _ => trivial⟩
  cases op with
  | add k value => exact Nat.le_of_lt_succ (hop.length_lt h)
  | _ => trivial

theorem inside_bind (c : IoctlCall) (q : Kernel H α) (g : α → Kernel H β) :
    inside c (q >>= g) = inside c q >>= fun a => inside c (g a) := Prog.expand_bind _ q g

theorem regular_steps {op : SysOp} (h : op.Regular) :
    (op.steps : Code H (SysRes op)).Uses Step.Regular := by
  cases op with
  | ioctl c =>
      refine ⟨trivial, fun device => ?_⟩
      cases device with
      | false => trivial
      | true =>
          dsimp only
          rw [if_pos rfl]
          rcases hc : c.ioctl with ⟨cmd, arg⟩ | arg | arg
          · rw [kvIoctl, inside_bind]
            exact (regular_inside_handleKvMessage (h cmd arg hc) _ _).bind fun _ => trivial
          · rw [kvIoctl, inside_bind]
            exact (regular_inside_of_visits (uses_handleKvSnapshot _ _)).bind fun _ => trivial
          · rw [kvIoctl, inside_bind, handleKvCount, inside_bind]
            refine Prog.Uses.bind ?_ fun _ => trivial
            refine (regular_inside_of_visits (uses_countLoop _ _)).bind fun count => ?_
            split
            · trivial
            · split
              · trivial
              · trivial
  | truncate => exact ⟨trivial, fun _ => trivial⟩
  | write bytes => exact ⟨trivial, fun _ => trivial⟩
  | read => exact ⟨trivial, fun _ => trivial⟩

theorem regular_stepwise {p : Task α} (h : p.Uses SysOp.Regular) :
    (stepwise p : Code H α).Uses Step.Regular :=
  h.expand _ fun _ hop => regular_steps hop

theorem regular_saveSnapshot (env : SnapshotEnv) (n : UInt32) :
    (saveSnapshot env n).Uses SysOp.Regular := by
  simp only [saveSnapshot, kvSnapshot, Prog.call_bind, Prog.ret_bind, Prog.uses_call]
  refine ⟨by rintro cmd arg ⟨⟩, fun r => ?_⟩
  split
  · trivial
  · split
    · trivial
    · exact ⟨trivial, fun _ => ⟨trivial, fun _ => trivial⟩⟩

theorem regular_doKvSnapshotToFile (env : SnapshotEnv) : (doKvSnapshotToFile env).Uses SysOp.Regular := by
  simp only [doKvSnapshotToFile, kvCount, Prog.call_bind, Prog.ret_bind, Prog.uses_call]
  refine ⟨by rintro cmd arg ⟨⟩, fun r => ?_⟩
  split
  · trivial
  · split
    · trivial
    · split
      · trivial
      · exact regular_saveSnapshot env _

theorem regular_doKvOperation (env : CommandEnv) (cmd : Cmd) (key value : List UInt8) :
    (doKvOperation (sysIoctl env) cmd key value).Uses SysOp.Regular := by
  unfold doKvOperation
  cases parseKey key with
  | none => trivial
  | some parsedKey =>
      simp only [sysIoctl, Prog.call_bind, Prog.ret_bind, Prog.uses_call]
      refine ⟨?_, fun r => ?_⟩
      · rintro cmd arg ⟨⟩
        exact zero_mem_requestMessage _ _
      · split
        · trivial
        · trivial

/-- A command makes regular system calls. -/
theorem regular_parseAndHandleCommand (env : CommandEnv) (pam : Pam) (command : List UInt8)
    (authenticated : Bool) :
    (parseAndHandleCommand env pam command authenticated).Uses SysOp.Regular := by
  unfold parseAndHandleCommand
  cases token command with
  | none => trivial
  | some p =>
      dsimp only
      split
      · trivial
      · split
        · trivial
        · split
          · exact (regular_doKvSnapshotToFile env.snapshot).bind fun _ => trivial
          · cases token p.2 with
            | none => trivial
            | some q =>
                dsimp only
                cases commandOf p.1 (commandValue q.2) with
                | error answer => trivial
                | ok cmd => exact (regular_doKvOperation env cmd q.1 _).bind fun _ => trivial

/-! ### Connections -/

/-- A thread in `handle_client`, like `Daemon.Conn`, with its command step by step. -/
structure Thread (H : HashFn) where
  /-- what the next reads will return -/
  pending : List Input
  authenticated : Bool
  /-- the rest of the command at hand -/
  running : Option (Code H (List UInt8 × Bool))
  /-- the answers written so far -/
  replies : List (List UInt8)

/-- A connection that delivers the given chunks. -/
def Thread.start (inputs : List Input) : Thread H where
  pending := inputs
  authenticated := false
  running := none
  replies := []

/-- One step of `handle_client`: a read, a step of the command at hand, or the write of its answer. -/
def Thread.step (pam : Pam) (device : Bool) (t : Thread H) (w : World H) : Thread H × World H :=
  match t.running with
  | none =>
      match t.pending with
      | [] => (t, w)
      | input :: pending =>
          ({ t with
            pending := pending
            running := some (stepwise
              (parseAndHandleCommand input.env pam input.chunk.command t.authenticated)) }, w)
  | some (.ret (answer, authenticated)) =>
      ({ t with
        running := none
        authenticated := authenticated
        replies := t.replies ++ [answer] }, w)
  | some (.call x k) =>
      ({ t with running := some (k (x.exec device w).1) }, (x.exec device w).2)

/-- What is left of the command at hand is regular. -/
def Thread.Regular (t : Thread H) : Prop := ∀ p, t.running = some p → p.Uses Step.Regular

theorem Thread.Regular.step {t : Thread H} (h : t.Regular) (pam : Pam) (device : Bool) (w : World H) :
    (t.step pam device w).1.Regular := by
  unfold Thread.step
  cases hrun : t.running with
  | none =>
      cases hpend : t.pending with
      | nil => exact h
      | cons input pending =>
          rintro p ⟨⟩
          exact regular_stepwise (regular_parseAndHandleCommand ..)
  | some p =>
      cases p with
      | ret r => rintro p ⟨⟩
      | call x k =>
          rintro p ⟨⟩
          exact (h _ hrun).2 _

/-- The connections of the daemon, and what they share. -/
structure Threads (ι : Type) (H : HashFn) where
  world : World H
  thread : ι → Thread H

namespace Threads

variable {ι : Type} [DecidableEq ι]

/-- All connections before their first read. -/
def start (inputs : ι → List Input) (w : World H) : Threads ι H := ⟨w, fun i => .start (inputs i)⟩

/-- Connection `i` takes its next step. -/
def step (pam : Pam) (device : Bool) (s : Threads ι H) (i : ι) : Threads ι H where
  world := ((s.thread i).step pam device s.world).2
  thread := Function.update s.thread i ((s.thread i).step pam device s.world).1

/-- The daemon after some steps of its connections, while the device is open. -/
def run (pam : Pam) (s : Threads ι H) (es : List ι) : Threads ι H := Machine.run (step pam true) s es

theorem thread_step_self (pam : Pam) (device : Bool) (s : Threads ι H) (i : ι) :
    (s.step pam device i).thread i = ((s.thread i).step pam device s.world).1 :=
  Function.update_self ..

theorem thread_step_of_ne (pam : Pam) (device : Bool) (s : Threads ι H) {i j : ι} (h : j ≠ i) :
    (s.step pam device i).thread j = s.thread j :=
  Function.update_of_ne h ..

end Threads

end Daemon
