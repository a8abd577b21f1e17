/-
**Clients beside each other.**

The daemon has a thread for each connection, and the threads take their steps in any order: one reads a
line, another is about to make a system call, a third writes its answer.  Nothing in the daemon keeps
them apart.

In this module a step is a whole system call, as in `KvStore/Daemon.lean`.  As long as no two of them
overlap, what the clients see is a service that serves one line at a time.  A line that asks for an
operation on a key takes effect when its ioctl is performed, and any other line when it is read; both
happen between the read of the line and its answer.  A snapshot changes no value, so that other clients
do not notice it, however its system calls are spread out.  What becomes of ioctls that overlap is the
subject of `KvStore/DaemonConcurrent.lean`.

A thread does not wait for others either: it reads a line, makes at most four system calls for it, and
writes the answer.

Main definitions:

* `Daemon.Desks` — connections whose lines are served at once;
* `Daemon.Conn.Follows` — a connection is where the served one is, or at most one line behind;
* `Daemon.Conn.Left` — how many steps a connection has left at most.

Main results:

* `Daemon.exists_desks` — each line takes effect at one moment between its read and its answer;
* `Daemon.left_run`, `Daemon.Conn.Left.done` — after enough steps of a connection all its lines are
  answered.
-/

import KvStore.DaemonService

set_option relaxedAutoImplicit false
set_option autoImplicit false

namespace Daemon

open CMem Text Interleave KvHash KvIoctl

variable {H : HashFn}

/-! ### Lines that are served at once -/

/-- A connection whose lines are served at once. -/
structure Desk where
  /-- what the next reads will return -/
  pending : List Input
  authenticated : Bool
  /-- the answers so far -/
  replies : List (List UInt8)

/-- The connections of a service that serves one line at a time, and the map behind it. -/
structure Desks (ι : Type) where
  live : KvMap
  desk : ι → Desk

namespace Desks

variable {ι : Type} [DecidableEq ι]

/-- No line has been served. -/
def start (inputs : ι → List Input) (m : KvMap) : Desks ι := ⟨m, fun i => ⟨inputs i, false, []⟩⟩

/-- The next line of a connection is served. -/
def step (pam : Pam) (s : Desks ι) (i : ι) : Desks ι :=
  match (s.desk i).pending with
  | [] => s
  | input :: pending =>
      let line := parseCommand pam input.chunk.command (s.desk i).authenticated
      let x := (⟨s.live, none⟩ : Registry).command input.env line
      { live := x.2.live
        desk := Function.update s.desk i ⟨pending, x.1.2, (s.desk i).replies ++ [x.1.1]⟩ }

/-- Lines are served in the given order of their connections. -/
def run (pam : Pam) (s : Desks ι) (es : List ι) : Desks ι := Machine.run (step pam) s es

end Desks

/-- Where a connection is, seen from one whose lines are served at once: between two lines, or at a line
that is still to be served there, or at one that has been. -/
inductive Conn.Follows (c : Conn) : Desk → Prop
  | between (h : c.running = none) : c.Follows ⟨c.pending, c.authenticated, c.replies⟩
  | before (input : Input) (h : c.running ≠ none) :
      c.Follows ⟨input :: c.pending, c.authenticated, c.replies⟩
  | after (answer : List UInt8) (authenticated : Bool) (h : c.running ≠ none) :
      c.Follows ⟨c.pending, authenticated, c.replies ++ [answer]⟩

/-- Two connections take `n` steps each, one after the other. -/
def inTurns : ℕ → List Bool
  | 0 => []
  | n + 1 => false :: true :: inTurns n

/-! ### System calls that leave the store alone -/

/-- The system call is not an ioctl with a message. -/
def SysOp.Quiet : SysOp → Prop
  | .ioctl c => ∀ cmd arg, c.ioctl ≠ .message cmd arg
  | _ => True

theorem store_sysExec_of_quiet {op : SysOp} (h : op.Quiet) (w : World H) :
    (sysExec () op w).2.store = w.store := by
  cases op with
  | ioctl c =>
      have hstore : (sysExec () (.ioctl c) w).2.store = (ioctl c w.store).2 := rfl
      rw [hstore, ioctl_snd]
      cases hc : c.ioctl with
      | message cmd arg => exact absurd hc (h cmd arg)
      | snapshot arg => rfl
      | count arg => rfl
  | truncate => rfl
  | write bytes => rfl
  | read => rfl

theorem quiet_saveSnapshot (env : SnapshotEnv) (n : UInt32) : (saveSnapshot env n).Uses SysOp.Quiet := by
  simp only [saveSnapshot, kvSnapshot, Prog.call_bind, Prog.ret_bind, Prog.uses_call]
  refine ⟨by rintro cmd arg ⟨⟩, fun r => ?_⟩
  split
  · trivial
  · split
    · trivial
    · exact ⟨trivial, fun _ => ⟨trivial, fun _ => trivial⟩⟩

theorem quiet_doKvSnapshotToFile (env : SnapshotEnv) : (doKvSnapshotToFile env).Uses SysOp.Quiet := by
  simp only [doKvSnapshotToFile, kvCount, Prog.call_bind, Prog.ret_bind, Prog.uses_call]
  refine ⟨by rintro cmd arg ⟨⟩, fun r => ?_⟩
  split
  · trivial
  · split
    · trivial
    · split
      · trivial
      · exact quiet_saveSnapshot env _

/-! ### One step -/

/-- Where a connection is, with what is left of the line at hand: one that asks for an operation is
served at its ioctl, and any other line as soon as it is read. -/
inductive Conn.Tracks (pam : Pam) (c : Conn) : Desk → Prop
  | between (h : c.running = none) : c.Tracks pam ⟨c.pending, c.authenticated, c.replies⟩
  | before {input : Input} {cmd : Cmd} {key : HashKey} {value : List UInt8}
      (hparse : parseCommand pam input.chunk.command c.authenticated = .operation cmd key value)
      (h : c.running = some ((Parsed.operation cmd key value).task input.env)) :
      c.Tracks pam ⟨input :: c.pending, c.authenticated, c.replies⟩
  | after {answer : List UInt8} {authenticated : Bool} {t : Task (List UInt8 × Bool)}
      (h : c.running = some t) (hreturns : t.Returns (· = (answer, authenticated)))
      (hquiet : t.Uses SysOp.Quiet) :
      c.Tracks pam ⟨c.pending, authenticated, c.replies ++ [answer]⟩

theorem Conn.Tracks.follows {pam : Pam} {c : Conn} {f : Desk} (h : c.Tracks pam f) : c.Follows f := by
  cases h with
  | between h => exact .between h
  | before hparse h => exact .before _ (h ▸ Option.some_ne_none _)
  | after h hreturns hquiet => exact .after _ _ (h ▸ Option.some_ne_none _)

section Steps

variable {ι : Type} [DecidableEq ι] {pam : Pam} {s : Server ι H} {d : Desks ι}

/-- The store holds the map, and the connections are where the served ones are. -/
def Tracked (pam : Pam) (s : Server ι H) (d : Desks ι) : Prop :=
  Holds s.world.store d.live ∧ ∀ i, (s.conn i).Tracks pam (d.desk i)

/-- The connections that have not moved are where they were. -/
theorem tracked_update (h : Tracked pam s d) {i : ι} {c : Conn} {f : Desk} {w : World H} {m : KvMap}
    (hw : Holds w.store m) (hc : c.Tracks pam f) :
    Tracked pam ⟨w, Function.update s.conn i c⟩ ⟨m, Function.update d.desk i f⟩ := by
  refine ⟨hw, fun j => ?_⟩
  by_cases hj : j = i
  · subst hj
    simpa using hc
  · simpa [hj] using h.2 j

/-- A step of a connection at which no line is served. -/
theorem tracked_step_of_tracks (h : Tracked pam s d) {i : ι}
    (hw : Holds ((s.conn i).step pam s.world).2.store d.live)
    (hc : ((s.conn i).step pam s.world).1.Tracks pam (d.desk i)) : Tracked pam (s.step pam i) d := by
  have hupdate := tracked_update h (i := i) hw hc
  rw [Function.update_eq_self] at hupdate
  exact hupdate

/-- A line is read.  Unless it asks for an operation, it is served then. -/
theorem tracked_read (h : Tracked pam s d) {i : ι} (hrunning : (s.conn i).running = none)
    (hdesk : d.desk i = ⟨(s.conn i).pending, (s.conn i).authenticated, (s.conn i).replies⟩)
    {input : Input} {pending : List Input} (hpending : (s.conn i).pending = input :: pending) :
    Tracked pam (s.step pam i) d ∨ Tracked pam (s.step pam i) (d.step pam i) := by
  have hstep : (s.conn i).step pam s.world =
      ({ s.conn i with
        pending := pending
        running := some ((parseCommand pam input.chunk.command (s.conn i).authenticated).task input.env) },
        s.world) := by
    rw [Conn.step, hrunning, hpending, ← parseAndHandleCommand_eq_task]
  have hdesk' : d.desk i = ⟨input :: pending, (s.conn i).authenticated, (s.conn i).replies⟩ := by
    rw [hdesk, hpending]
  have hserved : d.step pam i =
      (let x := (⟨d.live, none⟩ : Registry).command input.env
        (parseCommand pam input.chunk.command (s.conn i).authenticated)
      { live := x.2.live
        desk := Function.update d.desk i ⟨pending, x.1.2, (s.conn i).replies ++ [x.1.1]⟩ }) := by
    rw [Desks.step, hdesk']
  cases hparse : parseCommand pam input.chunk.command (s.conn i).authenticated with
  | operation cmd key value =>
      rw [hparse] at hstep
      refine .inl (tracked_step_of_tracks h ?_ ?_)
      · rw [hstep]
        exact h.1
      · rw [hstep, hdesk']
        exact .before hparse rfl
  | answered answer authenticated =>
      rw [hparse] at hstep hserved
      refine .inr ?_
      rw [hserved, Server.step, hstep]
      exact tracked_update h h.1 (.after rfl (Prog.returns_ret _ _ |>.2 rfl) trivial)
  | snapshot =>
      rw [hparse] at hstep hserved
      have hlive : ((⟨d.live, none⟩ : Registry).command input.env .snapshot).2.live = d.live := by
        rw [Registry.command, Registry.snapshot, Registry.save]
        split
        · split
          · rfl
          · rfl
        · rfl
      refine .inr ?_
      rw [hserved, Server.step, hstep]
      dsimp only
      rw [hlive]
      refine tracked_update h h.1 (.after rfl (Prog.Returns.bind fun _ => rfl) ?_)
      exact (quiet_doKvSnapshotToFile _).bind fun _ => trivial

/-- The ioctl of an operation: the line is served. -/
theorem tracked_ioctl (h : Tracked pam s d) {i : ι} {input : Input} {cmd : Cmd} {key : HashKey}
    {value : List UInt8}
    (hparse : parseCommand pam input.chunk.command (s.conn i).authenticated = .operation cmd key value)
    (hrunning : (s.conn i).running = some ((Parsed.operation cmd key value).task input.env))
    (hdesk : d.desk i = ⟨input :: (s.conn i).pending, (s.conn i).authenticated, (s.conn i).replies⟩) :
    Tracked pam (s.step pam i) (d.step pam i) := by
  obtain ⟨hanswer, hholds⟩ := ioctl_operate input.env cmd key value h.1
  have hserved : d.step pam i =
      { live := (operate input.env cmd key value d.live).2
        desk := Function.update d.desk i ⟨(s.conn i).pending, true,
          (s.conn i).replies ++ [(operate input.env cmd key value d.live).1]⟩ } := by
    rw [Desks.step, hdesk]
    dsimp only
    rw [hparse]
    rfl
  rw [hserved, ← hanswer, Server.step, Conn.step, hrunning]
  exact tracked_update h hholds (.after rfl (Prog.returns_ret _ _ |>.2 rfl) trivial)

/-- A line that has been served goes on. -/
theorem tracked_after (h : Tracked pam s d) {i : ι} {answer : List UInt8} {authenticated : Bool}
    {t : Task (List UInt8 × Bool)} (hrunning : (s.conn i).running = some t)
    (hreturns : t.Returns (· = (answer, authenticated))) (hquiet : t.Uses SysOp.Quiet)
    (hdesk : d.desk i = ⟨(s.conn i).pending, authenticated, (s.conn i).replies ++ [answer]⟩) :
    Tracked pam (s.step pam i) d := by
  cases t with
  | ret r =>
      obtain rfl : r = (answer, authenticated) := hreturns
      have hstep : (s.conn i).step pam s.world =
          ({ s.conn i with
            running := none
            authenticated := authenticated
            replies := (s.conn i).replies ++ [answer] }, s.world) := by
        rw [Conn.step, hrunning]
      refine tracked_step_of_tracks h ?_ ?_
      · rw [hstep]
        exact h.1
      · rw [hstep, hdesk]
        exact .between rfl
  | call op k =>
      have hstep : (s.conn i).step pam s.world =
          ({ s.conn i with running := some (k (sysExec () op s.world).1) },
            (sysExec () op s.world).2) := by
        rw [Conn.step, hrunning]
      refine tracked_step_of_tracks h ?_ ?_
      · rw [hstep, store_sysExec_of_quiet hquiet.1]
        exact h.1
      · rw [hstep, hdesk]
        exact .after rfl (hreturns _) (hquiet.2 _)

/-- **A step of a connection** serves its line, or no line. -/
theorem tracked_step (h : Tracked pam s d) (i : ι) :
    Tracked pam (s.step pam i) d ∨ Tracked pam (s.step pam i) (d.step pam i) := by
  have htracks := h.2 i
  generalize hdesk : d.desk i = f at htracks
  cases htracks with
  | between hrunning =>
      cases hpending : (s.conn i).pending with
      | nil =>
          have hstep : (s.conn i).step pam s.world = (s.conn i, s.world) := by
            rw [Conn.step, hrunning, hpending]
          refine .inl (tracked_step_of_tracks h ?_ ?_)
          · rw [hstep]
            exact h.1
          · rw [hstep]
            exact h.2 i
      | cons input pending => exact tracked_read h hrunning hdesk hpending
  | before hparse hrunning => exact .inr (tracked_ioctl h hparse hrunning hdesk)
  | after hrunning hreturns hquiet => exact .inl (tracked_after h hrunning hreturns hquiet hdesk)

omit [DecidableEq ι] in
theorem tracked_start {w : World H} {m : KvMap} (h : Holds w.store m) (pam : Pam)
    (inputs : ι → List Input) : Tracked pam (Server.start inputs w) (Desks.start inputs m) :=
  ⟨h, fun _ => .between rfl⟩

/-- **Each line takes effect at one moment.**  However the connections take their steps, some of the steps
can be marked so that the daemon does what a service does that serves one line at each marked step: at
every time the store holds its map, and each connection is where that of the service is, or at a line
between its read and its answer. -/
theorem exists_desks {w : World H} {m : KvMap} (h : Holds w.store m) (pam : Pam)
    (inputs : ι → List Input) (es : List ι) :
    ∃ marks : List Bool, marks.length = es.length ∧ ∀ n,
      let s := (Server.start inputs w).run pam (es.take n)
      let d := (Desks.start inputs m).run pam (Machine.marked (es.take n) (marks.take n))
      Holds s.world.store d.live ∧ ∀ i, (s.conn i).Follows (d.desk i) := by
  obtain ⟨marks, hlen, hall⟩ := Machine.exists_marks (R := Tracked pam) (fun s d i hsd => tracked_step hsd i) es
    (tracked_start h pam inputs)
  exact ⟨marks, hlen, fun n => ⟨(hall n).1, fun i => ((hall n).2 i).follows⟩⟩

end Steps

/-! ### How long a line takes -/

theorem within_doKvSnapshotToFile (env : SnapshotEnv) : (doKvSnapshotToFile env).Within 4 := by
  simp only [doKvSnapshotToFile, kvCount, Prog.call_bind, Prog.ret_bind, Prog.within_call_succ]
  intro r
  split
  · trivial
  · split
    · trivial
    · split
      · trivial
      · exact within_saveSnapshot env _

/-- A line asks for at most four system calls. -/
theorem within_task (env : CommandEnv) (p : Parsed) : (p.task env).Within 4 := by
  cases p with
  | answered answer authenticated => trivial
  | snapshot =>
      have hret : ∀ _ : Unit, (.ret (ascii "Snap", true) : Task (List UInt8 × Bool)).Within 0 :=
        fun _ => trivial
      exact (within_doKvSnapshotToFile env.snapshot).bind hret
  | operation cmd key value => exact fun _ => trivial

/-- The connection has at most `n` steps left: for each line a read, four system calls and an answer. -/
def Conn.Left (c : Conn) (n : ℕ) : Prop := Prog.Left 6 c.running c.pending.length n

theorem Conn.Left.step {c : Conn} {n : ℕ} (h : c.Left n) (pam : Pam) (w : World H) :
    (c.step pam w).1.Left (n - 1) := by
  unfold Conn.Left at h
  unfold Conn.step
  cases hrunning : c.running with
  | none =>
      rw [hrunning] at h
      cases hpending : c.pending with
      | nil =>
          unfold Conn.Left
          rw [hrunning, hpending]
          exact Prog.left_idle 6 _
      | cons input pending =>
          rw [hpending, List.length_cons] at h
          refine Prog.Left.take h ?_
          rw [parseAndHandleCommand_eq_task]
          exact within_task ..
  | some t =>
      rw [hrunning] at h
      cases t with
      | ret r => exact Prog.Left.giveBack h
      | call op k => exact Prog.Left.call h _

/-- A connection without steps left has answered all its lines. -/
theorem Conn.Left.done {c : Conn} (h : c.Left 0) : c.running = none ∧ c.pending = [] :=
  (Prog.Left.done h).imp_right List.length_eq_zero_iff.1

section Served

variable {ι : Type} [DecidableEq ι]

/-- The steps of a connection use up what it has left, whatever the others do. -/
theorem left_run (pam : Pam) (s : Server ι H) (es : List ι) {i : ι} {n : ℕ} (h : (s.conn i).Left n) :
    ((s.run pam es).conn i).Left (n - es.count i) := by
  refine Machine.run_count (Server.step pam) (fun s n => (s.conn i).Left n) ?_ ?_ es h
  · intro s n hs
    rw [Server.conn_step_self]
    exact hs.step pam s.world
  · intro j hj s n hs
    rw [Server.conn_step_of_ne pam s (Ne.symm hj)]
    exact hs

end Served

end Daemon
