/-
**Clients beside each other, step by step.**

The threads of the daemon perform their operations on the table one at a time, so that the operations of
one thread come between those of one ioctl of another (`KvStore/DaemonThreads.lean`).  Two clients that
insert the same key at the same time can both be told that they have: no service that serves one line after
the other does that.  But if each key is written by one client only, what the clients see is such a service:
a line takes effect with the last of its operations on the table, or, if it has none, as soon as that is
clear; and this is between the read of the line and its answer.  Only the writer of a key looks it up and
comes back to it, and what it has found is still there then.

A thread does not wait for others.  It reads a line, goes over the table three times at most, and writes the
answer.

Main definitions:

* `Daemon.OneWriter` — no key is written by two clients;
* `Daemon.Thread.Follows` — a connection is where the served one is, or at most one line behind;
* `Daemon.Thread.Tracks` — the same, with what is left of the line at hand;
* `Daemon.Thread.Left` — how many steps a connection has left at most.

Main results:

* `Daemon.message_cases` — the operations of an ioctl with a message;
* `Daemon.clients_linearizable` — **each line takes effect at one moment** between its read and its
  answer;
* `Daemon.clients_served` — after enough steps of each connection **all lines are answered**, as in some
  order.
-/

import KvStore.DaemonIsolation
import KvStore.DaemonThreads

set_option relaxedAutoImplicit false
set_option autoImplicit false

namespace Daemon

open CMem Text Interleave KvHash KvIoctl

variable {H : HashFn} {α : Type}

/-! ### The operations of an ioctl with a message -/

/-- What comes back from an ioctl with a message, when its handler has returned `r`. -/
def messageReply (env : KernelEnv) (cmd : Cmd) (arg : KvMessage) (r : ℤ × KvMessage) : ℤ × Ioctl :=
  if r.1 < 0 then (r.1, .message cmd arg)
  else if !env.copyToUser then (-EFAULT, .message cmd arg)
  else (r.1, .message cmd r.2)

theorem kvIoctl_message {env : KernelEnv} (hin : env.copyFromUser = true) (cmd : Cmd) (arg : KvMessage) :
    (kvIoctl env (.message cmd arg) : Kernel H (ℤ × Ioctl)) =
      dispatch env cmd arg >>= fun r => .ret (messageReply env cmd arg r) := by
  rw [kvIoctl, handleKvMessage, hin, Bool.not_true, if_neg Bool.false_ne_true, Prog.bind_assoc]
  refine congrArg (dispatch env cmd arg >>= ·) (funext fun r => ?_)
  unfold messageReply
  dsimp only
  split
  · rfl
  · split
    · rfl
    · rfl

/-- The operations of a handler. -/
theorem dispatch_cases (env : KernelEnv) (cmd : Cmd) (arg : KvMessage) :
    (dispatch env cmd arg : Kernel H (ℤ × KvMessage)).Within 1 ∨
      (cmd = .kvInsert ∨ cmd = .kvUpdate) ∧
        ∃ outBuf k, (dispatch env cmd arg : Kernel H (ℤ × KvMessage)) = .call (.lookup arg.key outBuf) k ∧
          ∀ res, (k res).Within 1 := by
  cases cmd with
  | kvInsert =>
      refine .inr ⟨.inl rfl, _, _, rfl, fun res => ?_⟩
      change (if res.1 ≥ 0 then _ else _ : Kernel H (ℤ × KvMessage)).Within 1
      split
      · trivial
      · exact within_addAndReply env arg _
  | kvUpdate =>
      refine .inr ⟨.inr rfl, _, _, rfl, fun res => ?_⟩
      change (if res.1 < 0 then _ else _ : Kernel H (ℤ × KvMessage)).Within 1
      split
      · trivial
      · exact within_addAndReply env arg _
  | kvGet =>
      refine .inl fun res => ?_
      change (if res.1 < 0 then _ else _ : Kernel H (ℤ × KvMessage)).Within 0
      split
      · trivial
      · trivial
  | kvDelete =>
      refine .inl fun res => ?_
      change (if res < 0 then _ else _ : Kernel H (ℤ × KvMessage)).Within 0
      split
      · trivial
      · trivial
  | unknown n => exact .inl trivial

/-- **The operations of an ioctl with a message.**  It performs one at most, or it looks its key up, and then
performs one at most; the second kind are `KV_INSERT` and `KV_UPDATE`. -/
theorem message_cases (env : KernelEnv) (cmd : Cmd) (arg : KvMessage) :
    (kvIoctl env (.message cmd arg) : Kernel H (ℤ × Ioctl)).Within 1 ∨
      (cmd = .kvInsert ∨ cmd = .kvUpdate) ∧
        ∃ outBuf k, (kvIoctl env (.message cmd arg) : Kernel H (ℤ × Ioctl)) =
          .call (.lookup arg.key outBuf) k ∧ ∀ res, (k res).Within 1 := by
  have hreply : ∀ {p : Kernel H (ℤ × KvMessage)}, p.Within 1 →
      (p >>= fun r => .ret (messageReply env cmd arg r)).Within 1 := fun hp =>
    hp.bind fun _ => Prog.within_ret _ 0
  cases hin : env.copyFromUser with
  | false =>
      refine .inl ?_
      rw [kvIoctl, handleKvMessage, hin, Bool.not_false, if_pos rfl]
      trivial
  | true =>
      rw [kvIoctl_message hin]
      obtain hone | ⟨hcmd, outBuf, k, hdispatch, hk⟩ := dispatch_cases (H := H) env cmd arg
      · exact .inl (hreply hone)
      · rw [hdispatch]
        exact .inr ⟨hcmd, outBuf, _, rfl, fun res => hreply (hk res)⟩

/-! ### Steps that leave the store alone -/

/-- The step does not write to the table. -/
def Step.Quiet : Step H → Prop
  | .table _ op => op.Visits
  | _ => True

theorem store_exec_of_quiet {x : Step H} (h : x.Quiet) (device : Bool) (w : World H) :
    (x.exec device w).2.store = w.store := by
  cases x with
  | table c op =>
      cases op with
      | visit b => rfl
      | _ => exact h.elim
  | _ => rfl

theorem quiet_steps {op : SysOp} (h : op.Quiet) : (op.steps : Code H (SysRes op)).Uses Step.Quiet := by
  have hvisits : ∀ {α : Type} {c : IoctlCall} {q : Kernel H α}, q.Uses Op.Visits →
      (inside c q).Uses Step.Quiet := fun hq => hq.expand _ fun _ hop => ⟨hop, fun _ => trivial⟩
  cases op with
  | ioctl c =>
      refine ⟨trivial, fun device => ?_⟩
      cases device with
      | false => trivial
      | true =>
          dsimp only
          rw [if_pos rfl]
          rcases hc : c.ioctl with ⟨cmd, arg⟩ | arg | arg
          · exact absurd hc (h cmd arg)
          · rw [kvIoctl, inside_bind]
            exact (hvisits (uses_handleKvSnapshot _ _)).bind fun _ => trivial
          · rw [kvIoctl, inside_bind, handleKvCount, inside_bind]
            refine Prog.Uses.bind ?_ fun _ => trivial
            refine (hvisits (uses_countLoop _ _)).bind fun count => ?_
            split
            · trivial
            · split
              · trivial
              · trivial
  | truncate => exact ⟨trivial, fun _ => trivial⟩
  | write bytes => exact ⟨trivial, fun _ => trivial⟩
  | read => exact ⟨trivial, fun _ => trivial⟩

theorem quiet_stepwise {p : Task α} (h : p.Uses SysOp.Quiet) : (stepwise p : Code H α).Uses Step.Quiet :=
  h.expand _ fun _ hop => quiet_steps hop

/-! ### Where a connection is -/

/-- No key is written by two clients. -/
def OneWriter {ι : Type} (pam : Pam) (inputs : ι → List Input) : Prop :=
  ∀ i j, i ≠ j → ∀ a ∈ inputs i, ∀ b ∈ inputs j, ∀ key ∈ a.written pam, key ∉ b.written pam

/-- Where a connection is, seen from one whose lines are served at once: between two lines, or at a line
that is still to be served there, or at one that has been. -/
inductive Thread.Follows (t : Thread H) : Desk → Prop
  | between (h : t.running = none) : t.Follows ⟨t.pending, t.authenticated, t.replies⟩
  | before (input : Input) (h : t.running ≠ none) :
      t.Follows ⟨input :: t.pending, t.authenticated, t.replies⟩
  | after (answer : List UInt8) (authenticated : Bool) (h : t.running ≠ none) :
      t.Follows ⟨t.pending, authenticated, t.replies ++ [answer]⟩

/-- The ioctl of an operation. -/
def Input.call (a : Input) (cmd : Cmd) (key : HashKey) (value : List UInt8) : IoctlCall :=
  ⟨a.env.kernel, a.env.alloc, .message cmd (requestMessage key value)⟩

/-- What is left of an operation, when `q` is left of its ioctl. -/
def Input.rest (a : Input) (cmd : Cmd) (key : HashKey) (value : List UInt8) (q : Kernel H (ℤ × Ioctl)) :
    Code H (List UInt8 × Bool) :=
  inside (a.call cmd key value) q >>= fun r => .ret (ioctlReply cmd (requestMessage key value) r, true)

/-- Where a connection is with the lines `mine`, when the store holds the map `m`.  A line that asks for an
operation is served with the last of its operations on the table; when one is left after another, the line
writes under the key, and will do what the whole ioctl would do now. -/
inductive Thread.Tracks (pam : Pam) (mine : List Input) (m : KvMap) (t : Thread H) : Desk → Prop
  | between (h : t.running = none) : t.Tracks pam mine m ⟨t.pending, t.authenticated, t.replies⟩
  | before {input : Input} {cmd : Cmd} {key : HashKey} {value : List UInt8} (hmine : input ∈ mine)
      (hparse : parseCommand pam input.chunk.command t.authenticated = .operation cmd key value)
      (h : t.running = some (stepwise ((Parsed.operation cmd key value).task input.env))) :
      t.Tracks pam mine m ⟨input :: t.pending, t.authenticated, t.replies⟩
  | entered {input : Input} {cmd : Cmd} {key : HashKey} {value : List UInt8} (hmine : input ∈ mine)
      (hparse : parseCommand pam input.chunk.command t.authenticated = .operation cmd key value)
      (hcall : (kvIoctl input.env.kernel (.message cmd (requestMessage key value)) :
        Kernel H (ℤ × Ioctl)).result? = none)
      (h : t.running = some (input.rest cmd key value
        (kvIoctl input.env.kernel (.message cmd (requestMessage key value))))) :
      t.Tracks pam mine m ⟨input :: t.pending, t.authenticated, t.replies⟩
  | looked {input : Input} {cmd : Cmd} {key : HashKey} {value : List UInt8} {q : Kernel H (ℤ × Ioctl)}
      (hmine : input ∈ mine)
      (hparse : parseCommand pam input.chunk.command t.authenticated = .operation cmd key value)
      (hwritten : key ∈ input.written pam) (hcall : q.result? = none) (hone : q.Within 1)
      (hrun : ∀ s : Store H, s.get key = m.lookup key →
        q.run (exec input.env.alloc) s = ioctl (input.call cmd key value) s)
      (h : t.running = some (input.rest cmd key value q)) :
      t.Tracks pam mine m ⟨input :: t.pending, t.authenticated, t.replies⟩
  | after {answer : List UInt8} {authenticated : Bool} {p : Code H (List UInt8 × Bool)}
      (h : t.running = some p) (hreturns : p.Returns (· = (answer, authenticated)))
      (hquiet : p.Uses Step.Quiet) :
      t.Tracks pam mine m ⟨t.pending, authenticated, t.replies ++ [answer]⟩

section Tracks

variable {pam : Pam} {mine : List Input} {m m' : KvMap} {t : Thread H} {f : Desk}

theorem Thread.Tracks.follows (h : t.Tracks pam mine m f) : t.Follows f := by
  cases h with
  | between h => exact .between h
  | before hmine hparse h => exact .before _ (h ▸ Option.some_ne_none _)
  | entered hmine hparse hcall h => exact .before _ (h ▸ Option.some_ne_none _)
  | looked hmine hparse hwritten hcall hone hrun h => exact .before _ (h ▸ Option.some_ne_none _)
  | after h hreturns hquiet => exact .after _ _ (h ▸ Option.some_ne_none _)

/-- A connection is where it was, as long as the keys that it writes under are left alone. -/
theorem Thread.Tracks.congr (h : t.Tracks pam mine m f)
    (hm : ∀ a ∈ mine, ∀ key ∈ a.written pam, m'.lookup key = m.lookup key) : t.Tracks pam mine m' f := by
  cases h with
  | between h => exact .between h
  | before hmine hparse h => exact .before hmine hparse h
  | entered hmine hparse hcall h => exact .entered hmine hparse hcall h
  | looked hmine hparse hwritten hcall hone hrun h =>
      refine .looked hmine hparse hwritten hcall hone (fun s hs => hrun s ?_) h
      rw [hs, hm _ hmine _ hwritten]
  | after h hreturns hquiet => exact .after h hreturns hquiet

end Tracks

/-! ### One step -/

section Steps

variable {ι : Type} [DecidableEq ι] {pam : Pam} {inputs : ι → List Input} {s : Threads ι H}
variable {d : Desks ι} {i : ι} {input : Input} {cmd : Cmd} {key : HashKey} {value : List UInt8}

/-- The store holds the map, and the connections are where the served ones are. -/
structure Beside (pam : Pam) (inputs : ι → List Input) (s : Threads ι H) (d : Desks ι) : Prop where
  holds : Holds s.world.store d.live
  pending : ∀ i, ∀ a ∈ (s.thread i).pending, a ∈ inputs i
  tracks : ∀ i, (s.thread i).Tracks pam (inputs i) d.live (d.desk i)

omit [DecidableEq ι] in
theorem beside_start {w : World H} {m : KvMap} (h : Holds w.store m) (pam : Pam)
    (inputs : ι → List Input) : Beside pam inputs (Threads.start inputs w) (Desks.start inputs m) :=
  ⟨h, fun _ _ ha => ha, fun _ => .between rfl⟩

/-- A connection has moved, and the keys that others write under have been left alone. -/
theorem Beside.update (h : Beside pam inputs s d) {t : Thread H} {f : Desk} {w : World H} {m : KvMap}
    (hw : Holds w.store m) (hpending : ∀ a ∈ t.pending, a ∈ inputs i) (ht : t.Tracks pam (inputs i) m f)
    (hm : ∀ j, j ≠ i → ∀ a ∈ inputs j, ∀ key ∈ a.written pam, m.lookup key = d.live.lookup key) :
    Beside pam inputs ⟨w, Function.update s.thread i t⟩ ⟨m, Function.update d.desk i f⟩ := by
  refine ⟨hw, fun j => ?_, fun j => ?_⟩
  · by_cases hj : j = i
    · subst hj
      simpa using hpending
    · simpa [hj] using h.pending j
  · by_cases hj : j = i
    · subst hj
      simpa using ht
    · simpa [hj] using (h.tracks j).congr (hm j hj)

/-- A step of a connection at which no line is served. -/
theorem Beside.keep (h : Beside pam inputs s d) {t : Thread H} {w : World H}
    (hstep : (s.thread i).step pam true s.world = (t, w)) (hw : w.store = s.world.store)
    (hpending : ∀ a ∈ t.pending, a ∈ inputs i) (ht : t.Tracks pam (inputs i) d.live (d.desk i)) :
    Beside pam inputs (s.step pam true i) d := by
  have hholds : Holds w.store d.live := hw ▸ h.holds
  have hupdate := h.update hholds hpending ht fun _ _ _ _ _ _ => rfl
  rw [Function.update_eq_self] at hupdate
  rw [Threads.step, hstep]
  exact hupdate

/-- A step of a connection at which a line is served: the keys that others write under are left alone. -/
theorem Beside.serve (h : Beside pam inputs s d) (hone : OneWriter pam inputs) {pending : List Input}
    (hinput : input ∈ inputs i) (hdesk : (d.desk i).pending = input :: pending) {t : Thread H}
    {w : World H} (hstep : (s.thread i).step pam true s.world = (t, w))
    (hpending : ∀ a ∈ t.pending, a ∈ inputs i)
    (hx :
      let line := parseCommand pam input.chunk.command (d.desk i).authenticated
      let x := (⟨d.live, none⟩ : Registry).command input.env line
      Holds w.store x.2.live ∧
        t.Tracks pam (inputs i) x.2.live ⟨pending, x.1.2, (d.desk i).replies ++ [x.1.1]⟩) :
    Beside pam inputs (s.step pam true i) (d.step pam i) := by
  rw [Desks.step_of_cons hdesk, Threads.step, hstep]
  refine h.update hx.1 hpending hx.2 fun j hj a ha key hkey => lookup_command _ fun hwritten => ?_
  exact hone i j (Ne.symm hj) input hinput a ha key hwritten hkey

/-- A line is read.  Unless it asks for an operation, it is served then. -/
theorem beside_read (h : Beside pam inputs s d) (hone : OneWriter pam inputs)
    (hrunning : (s.thread i).running = none)
    (hdesk : d.desk i = ⟨(s.thread i).pending, (s.thread i).authenticated, (s.thread i).replies⟩)
    {pending : List Input} (hpending : (s.thread i).pending = input :: pending) :
    Beside pam inputs (s.step pam true i) d ∨ Beside pam inputs (s.step pam true i) (d.step pam i) := by
  have hstep : (s.thread i).step pam true s.world =
      ({ s.thread i with
        pending := pending
        running := some (stepwise
          ((parseCommand pam input.chunk.command (s.thread i).authenticated).task input.env)) },
        s.world) := by
    rw [Thread.step, hrunning, hpending, ← parseAndHandleCommand_eq_task]
  have hmine : ∀ a ∈ input :: pending, a ∈ inputs i := hpending ▸ h.pending i
  have hinput : input ∈ inputs i := hmine input (List.mem_cons_self ..)
  have hrest : ∀ a ∈ pending, a ∈ inputs i := fun a ha => hmine a (List.mem_cons_of_mem _ ha)
  have hdesk' : d.desk i = ⟨input :: pending, (s.thread i).authenticated, (s.thread i).replies⟩ := by
    rw [hdesk, hpending]
  have hqueue : (d.desk i).pending = input :: pending := by rw [hdesk']
  cases hparse : parseCommand pam input.chunk.command (s.thread i).authenticated with
  | operation cmd key value =>
      rw [hparse] at hstep
      refine .inl (h.keep hstep rfl hrest ?_)
      rw [hdesk']
      exact .before hinput hparse rfl
  | answered answer authenticated =>
      rw [hparse] at hstep
      refine .inr (h.serve hone hinput hqueue hstep hrest ?_)
      rw [hdesk', hparse]
      exact ⟨h.holds, .after rfl ((Prog.returns_ret _ _).2 rfl) trivial⟩
  | snapshot =>
      rw [hparse] at hstep
      refine .inr (h.serve hone hinput hqueue hstep hrest ?_)
      have hlive : ((⟨d.live, none⟩ : Registry).command input.env .snapshot).2.live = d.live :=
        live_snapshot _ _
      rw [hdesk', hparse]
      dsimp only
      rw [hlive]
      refine ⟨h.holds, .after rfl ?_ ?_⟩
      · exact Prog.Returns.expand _ (Prog.Returns.bind fun _ => rfl)
      · exact quiet_stepwise ((quiet_doKvSnapshotToFile _).bind fun _ => trivial)

/-- The last operation of an ioctl: its line is served. -/
theorem beside_operate (h : Beside pam inputs s d) (hone : OneWriter pam inputs)
    (hinput : input ∈ inputs i)
    (hparse : parseCommand pam input.chunk.command (s.thread i).authenticated = .operation cmd key value)
    (hdesk : d.desk i = ⟨input :: (s.thread i).pending, (s.thread i).authenticated, (s.thread i).replies⟩)
    {r : ℤ × Ioctl} {w : World H}
    (hstep : (s.thread i).step pam true s.world =
      ({ s.thread i with running := some (input.rest cmd key value (.ret r)) }, w))
    (hioctl : ioctl (input.call cmd key value) s.world.store = (r, w.store)) :
    Beside pam inputs (s.step pam true i) (d.step pam i) := by
  obtain ⟨hanswer, hholds⟩ := ioctl_operate input.env cmd key value h.holds
  rw [show ioctl ⟨input.env.kernel, input.env.alloc, .message cmd (requestMessage key value)⟩
    s.world.store = (r, w.store) from hioctl] at hanswer hholds
  refine h.serve hone hinput (by rw [hdesk]) hstep (h.pending i) ?_
  rw [hdesk, hparse]
  refine ⟨hholds, .after rfl ?_ trivial⟩
  exact (Prog.returns_ret _ _).2 (congrArg (·, true) hanswer)

/-- A step of an ioctl. -/
theorem step_rest {t : Thread H} {q : Kernel H (ℤ × Ioctl)}
    (h : t.running = some (input.rest cmd key value q)) (hq : q.result? = none) (pam : Pam) (w : World H) :
    let x := q.step (exec input.env.alloc) w.store
    t.step pam true w =
      ({ t with running := some (input.rest cmd key value x.1) }, { w with store := x.2 }) := by
  cases q with
  | ret r => cases hq
  | call op k =>
      intro x
      rw [Thread.step, h]
      rfl

/-- An ioctl begins.  If it performs no operation at all, its line is served. -/
theorem beside_enter (h : Beside pam inputs s d) (hone : OneWriter pam inputs)
    (hinput : input ∈ inputs i)
    (hparse : parseCommand pam input.chunk.command (s.thread i).authenticated = .operation cmd key value)
    (hrunning : (s.thread i).running =
      some (stepwise ((Parsed.operation cmd key value).task input.env)))
    (hdesk : d.desk i =
      ⟨input :: (s.thread i).pending, (s.thread i).authenticated, (s.thread i).replies⟩) :
    Beside pam inputs (s.step pam true i) d ∨ Beside pam inputs (s.step pam true i) (d.step pam i) := by
  have hstep : (s.thread i).step pam true s.world =
      ({ s.thread i with
        running := some (input.rest cmd key value
          (kvIoctl input.env.kernel (.message cmd (requestMessage key value)))) }, s.world) := by
    rw [Thread.step, hrunning, Parsed.task, sysIoctl, Prog.call_bind, stepwise_ioctl]
    rfl
  cases hq : (kvIoctl input.env.kernel (.message cmd (requestMessage key value)) :
      Kernel H (ℤ × Ioctl)).result? with
  | none =>
      refine .inl (h.keep hstep rfl (h.pending i) ?_)
      rw [hdesk]
      exact .entered hinput hparse hq rfl
  | some r =>
      have hret := Prog.eq_ret_of_result? hq
      rw [hret] at hstep
      refine .inr (beside_operate h hone hinput hparse hdesk hstep ?_)
      rw [ioctl, Input.call, hret]
      rfl

/-- The last operation of an ioctl, after others or alone. -/
theorem beside_last (h : Beside pam inputs s d) (hone : OneWriter pam inputs)
    (hinput : input ∈ inputs i)
    (hparse : parseCommand pam input.chunk.command (s.thread i).authenticated = .operation cmd key value)
    (hdesk : d.desk i =
      ⟨input :: (s.thread i).pending, (s.thread i).authenticated, (s.thread i).replies⟩)
    {q : Kernel H (ℤ × Ioctl)} (hq : q.result? = none) (hwithin : q.Within 1)
    (hrun : q.run (exec input.env.alloc) s.world.store = ioctl (input.call cmd key value) s.world.store)
    (hrunning : (s.thread i).running = some (input.rest cmd key value q)) :
    Beside pam inputs (s.step pam true i) (d.step pam i) := by
  have hstep := step_rest hrunning hq pam s.world
  dsimp only at hstep
  obtain ⟨r, hr⟩ := Prog.Within.eq_ret (hwithin.step (exec input.env.alloc) s.world.store)
  rw [hr] at hstep
  refine beside_operate h hone hinput hparse hdesk hstep ?_
  rw [← hrun, ← Prog.run_step, hr]
  rfl

/-- The first operation of an ioctl.  If it is not the last one, it has looked the key up, which is the
client's own. -/
theorem beside_first (h : Beside pam inputs s d) (hone : OneWriter pam inputs)
    (hinput : input ∈ inputs i)
    (hparse : parseCommand pam input.chunk.command (s.thread i).authenticated = .operation cmd key value)
    (hdesk : d.desk i =
      ⟨input :: (s.thread i).pending, (s.thread i).authenticated, (s.thread i).replies⟩)
    (hq : (kvIoctl input.env.kernel (.message cmd (requestMessage key value)) :
      Kernel H (ℤ × Ioctl)).result? = none)
    (hrunning : (s.thread i).running = some (input.rest cmd key value
      (kvIoctl input.env.kernel (.message cmd (requestMessage key value))))) :
    Beside pam inputs (s.step pam true i) d ∨ Beside pam inputs (s.step pam true i) (d.step pam i) := by
  obtain hwithin | ⟨hcmd, outBuf, k, hlookup, hk⟩ :=
    message_cases (H := H) input.env.kernel cmd (requestMessage key value)
  · exact .inr (beside_last h hone hinput hparse hdesk hq hwithin rfl hrunning)
  · have hget : cmd ≠ .kvGet := by
      rintro rfl
      obtain hcmd | hcmd := hcmd <;> cases hcmd
    have hcall : ∀ s' : Store H, ioctl (input.call cmd key value) s' =
        (k (kvHashLookup s'.1 key outBuf)).run (exec input.env.alloc) s' := by
      intro s'
      rw [ioctl, Input.call, hlookup]
      rfl
    have hstep := step_rest hrunning hq pam s.world
    rw [hlookup] at hstep
    cases hnext : (k (kvHashLookup s.world.store.1 key outBuf)).result? with
    | some r =>
        have hret := Prog.eq_ret_of_result? hnext
        refine .inr (beside_operate h hone hinput hparse hdesk (r := r) (w := s.world) ?_ ?_)
        · rw [← hret]
          exact hstep
        · rw [hcall, hret]
          rfl
    | none =>
        refine .inl (h.keep hstep rfl (h.pending i) ?_)
        rw [hdesk]
        refine .looked hinput hparse (Input.mem_written hparse hget) hnext (hk _) (fun s' hs' => ?_) rfl
        have hfound : kvHashLookup s'.1 key outBuf = kvHashLookup s.world.store.1 key outBuf := by
          rw [s'.lookup_eq, s.world.store.lookup_eq, hs', h.holds.get_eq]
        rw [hcall, hfound]

/-- A line that has been served goes on. -/
theorem beside_after (h : Beside pam inputs s d) {answer : List UInt8} {authenticated : Bool}
    {p : Code H (List UInt8 × Bool)} (hrunning : (s.thread i).running = some p)
    (hreturns : p.Returns (· = (answer, authenticated))) (hquiet : p.Uses Step.Quiet)
    (hdesk : d.desk i = ⟨(s.thread i).pending, authenticated, (s.thread i).replies ++ [answer]⟩) :
    Beside pam inputs (s.step pam true i) d := by
  cases p with
  | ret r =>
      obtain rfl : r = (answer, authenticated) := hreturns
      have hstep : (s.thread i).step pam true s.world =
          ({ s.thread i with
            running := none
            authenticated := authenticated
            replies := (s.thread i).replies ++ [answer] }, s.world) := by
        rw [Thread.step, hrunning]
      refine h.keep hstep rfl (h.pending i) ?_
      rw [hdesk]
      exact .between rfl
  | call x k =>
      have hstep : (s.thread i).step pam true s.world =
          ({ s.thread i with running := some (k (x.exec true s.world).1) }, (x.exec true s.world).2) := by
        rw [Thread.step, hrunning]
      refine h.keep hstep (store_exec_of_quiet hquiet.1 true s.world) (h.pending i) ?_
      rw [hdesk]
      exact .after rfl (hreturns _) (hquiet.2 _)

/-- **A step of a connection** serves its line, or no line. -/
theorem beside_step (hone : OneWriter pam inputs) (h : Beside pam inputs s d) (i : ι) :
    Beside pam inputs (s.step pam true i) d ∨ Beside pam inputs (s.step pam true i) (d.step pam i) := by
  have htracks := h.tracks i
  generalize hdesk : d.desk i = f at htracks
  cases htracks with
  | between hrunning =>
      cases hpending : (s.thread i).pending with
      | nil =>
          have hstep : (s.thread i).step pam true s.world = (s.thread i, s.world) := by
            rw [Thread.step, hrunning, hpending]
          exact .inl (h.keep hstep rfl (h.pending i) (h.tracks i))
      | cons input pending => exact beside_read h hone hrunning hdesk hpending
  | before hinput hparse hrunning => exact beside_enter h hone hinput hparse hrunning hdesk
  | entered hinput hparse hq hrunning => exact beside_first h hone hinput hparse hdesk hq hrunning
  | looked hinput hparse hwritten hq hwithin hrun hrunning =>
      exact .inr (beside_last h hone hinput hparse hdesk hq hwithin
        (hrun _ (h.holds.get_eq _)) hrunning)
  | after hrunning hreturns hquiet => exact .inl (beside_after h hrunning hreturns hquiet hdesk)

end Steps

/-! ### Each line at one moment -/

section Clients

variable {ι : Type} [DecidableEq ι] {pam : Pam} {inputs : ι → List Input}

/-- **Each line takes effect at one moment**, if each key is written by one client.  However the connections
take their steps, some of the steps can be marked so that the daemon does what a service does that serves
one line at each marked step: at every time the store holds its map, and each connection is where that of
the service is, or at a line between its read and its answer. -/
theorem clients_linearizable {w : World H} {m : KvMap} (h : Holds w.store m)
    (hone : OneWriter pam inputs) (es : List ι) :
    ∃ marks : List Bool, marks.length = es.length ∧ ∀ n,
      let s := (Threads.start inputs w).run pam (es.take n)
      let d := (Desks.start inputs m).run pam (Machine.marked (es.take n) (marks.take n))
      Holds s.world.store d.live ∧ ∀ i, (s.thread i).Follows (d.desk i) := by
  obtain ⟨marks, hlen, hall⟩ := Machine.exists_marks (R := Beside pam inputs)
    (fun s d i hsd => beside_step hone hsd i) es (beside_start h pam inputs)
  exact ⟨marks, hlen, fun n => ⟨(hall n).holds, fun i => ((hall n).tracks i).follows⟩⟩

/-- A client that inserts a value, and a client that reads it. -/
def twoConnections (reader : Bool) : List Input :=
  let line (text : String) (h : ascii text ≠ [] ∧ (ascii text).length ≤ 1023) : Input :=
    ⟨⟨ascii text, h⟩, .ok⟩
  if reader then [line "AUTH a b" (by decide), line "KV_GET 7" (by decide)]
  else [line "AUTH a b" (by decide), line "KV_INSERT 7 x" (by decide)]

omit [DecidableEq ι] in
/-- The keys that connections write under can be compared as lists. -/
theorem oneWriter_of_keys (written : ι → List (Option HashKey))
    (hwritten : ∀ i, (inputs i).map (Input.written pam) = written i)
    (h : ∀ i j, i ≠ j → ∀ key, some key ∈ written i → some key ∉ written j) : OneWriter pam inputs := by
  intro i j hij a ha b hb key hkey hkey'
  rw [Option.mem_def] at hkey hkey'
  refine h i j hij key ?_ ?_
  · rw [← hwritten, ← hkey]
    exact List.mem_map_of_mem ha
  · rw [← hwritten, ← hkey']
    exact List.mem_map_of_mem hb

/-- The one writes the key, the other does not. -/
theorem oneWriter_twoConnections : OneWriter (fun _ _ => true) twoConnections := by
  refine oneWriter_of_keys (fun reader => if reader then [none, none] else [none, some 7])
    (fun reader => ?_) fun i j hij key hi hj => ?_
  · cases reader with
    | false => rfl
    | true => rfl
  · cases i with
    | false =>
        cases j with
        | false => exact hij rfl
        | true => simp at hj
    | true => simp at hi

theorem twoConnections_linearizable :
    ∃ marks : List Bool, marks.length = (inTurns 24).length ∧ ∀ n,
      let s := (Threads.start twoConnections ⟨Store.init twoBuckets, none⟩).run (fun _ _ => true)
        ((inTurns 24).take n)
      let d := (Desks.start twoConnections ∅).run (fun _ _ => true)
        (Machine.marked ((inTurns 24).take n) (marks.take n))
      Holds s.world.store d.live ∧ ∀ i, (s.thread i).Follows (d.desk i) :=
  clients_linearizable (holds_init twoBuckets) oneWriter_twoConnections (inTurns 24)

end Clients

/-! ### How long a line takes -/

theorem within_countLoop (bs : List (Fin H.n)) (count : Int32) :
    (countLoop bs count).Within bs.length := by
  induction bs generalizing count with
  | nil => trivial
  | cons b bs ih => exact fun chain => ih _

theorem within_kvHashCount : (kvHashCount : Kernel H Int32).Within H.n := by
  have h := within_countLoop (List.finRange H.n) 0
  rwa [List.length_finRange] at h

/-- `KV_COUNT` visits the buckets once. -/
theorem within_count (env : KernelEnv) (arg : UInt32) :
    (kvIoctl env (.count arg) : Kernel H (ℤ × Ioctl)).Within H.n := by
  have hreply : ∀ count : Int32, (if count < 0 then .ret (count.toInt, arg)
      else if !env.copyToUser then .ret (-EFAULT, arg)
      else .ret (0, count.toUInt32) : Kernel H (ℤ × UInt32)).Within 0 := by
    intro count
    split
    · trivial
    · split
      · trivial
      · trivial
  exact (within_kvHashCount.bind hreply).bind fun _ => Prog.within_ret _ 0

/-- `KV_SNAPSHOT` visits the buckets twice. -/
theorem within_snapshot (env : KernelEnv) (arg : KvSnapshotMessage) :
    (kvIoctl env (.snapshot arg) : Kernel H (ℤ × Ioctl)).Within (H.n + H.n) := by
  have hcounted : ∀ count : Int32, (snapshotCounted env arg count :
      Kernel H (ℤ × Option KvSnapshotMessage)).Within H.n := by
    intro count
    have hofNat : count = Int32.ofNat count.toUInt32.toNat := by
      rw [← UInt32.toInt32_ofNat', UInt32.ofNat_toNat, Int32.toInt32_toUInt32]
    rw [hofNat]
    exact within_snapshotCounted env arg (UInt32.toNat_lt _)
  rw [kvIoctl, handleKvSnapshot]
  split
  · trivial
  · exact (within_kvHashCount.bind hcounted).bind fun _ => Prog.within_ret _ 0

/-- An ioctl with a message performs two operations at most. -/
theorem within_message (env : KernelEnv) (cmd : Cmd) (arg : KvMessage) :
    (kvIoctl env (.message cmd arg) : Kernel H (ℤ × Ioctl)).Within 2 := by
  obtain hone | ⟨-, outBuf, k, hlookup, hk⟩ := message_cases (H := H) env cmd arg
  · exact hone.mono (Nat.le_succ 1)
  · rw [hlookup]
    exact hk

/-- An ioctl begins, and performs its operations. -/
theorem within_steps_ioctl {c : IoctlCall} {n : ℕ}
    (h : (kvIoctl c.env c.ioctl : Kernel H (ℤ × Ioctl)).Within n) :
    ((SysOp.ioctl c).steps : Code H (ℤ × Ioctl)).Within (n + 1) := by
  intro device
  cases device with
  | false => trivial
  | true =>
      have hinside : (inside c (kvIoctl c.env c.ioctl) : Code H (ℤ × Ioctl)).Within (n * 1) :=
        h.expand _ fun op _ => trivial
      rwa [Nat.mul_one] at hinside

theorem within_stepwise_call {op : SysOp} {k : SysRes op → Task α} {m n : ℕ}
    (hop : (op.steps : Code H (SysRes op)).Within m) (hk : ∀ r, (stepwise (k r) : Code H α).Within n) :
    (stepwise (.call op k) : Code H α).Within (m + n) :=
  hop.bind hk

theorem within_stepwise_saveSnapshot (env : SnapshotEnv) (n : UInt32) :
    (stepwise (saveSnapshot env n) : Code H Unit).Within (H.n + H.n + 1 + 2) := by
  simp only [saveSnapshot, kvSnapshot, Prog.call_bind, Prog.ret_bind]
  refine within_stepwise_call (within_steps_ioctl (within_snapshot _ _)) fun r => ?_
  split
  · trivial
  · split
    · trivial
    · exact fun _ _ => trivial

/-- A snapshot goes over the buckets three times. -/
theorem within_stepwise_doKvSnapshotToFile (env : SnapshotEnv) :
    (stepwise (doKvSnapshotToFile env) : Code H Unit).Within (3 * H.n + 4) := by
  have hsum : H.n + 1 + (H.n + H.n + 1 + 2) = 3 * H.n + 4 := by omega
  rw [← hsum]
  simp only [doKvSnapshotToFile, kvCount, Prog.call_bind, Prog.ret_bind]
  refine within_stepwise_call (within_steps_ioctl (within_count _ _)) fun r => ?_
  split
  · trivial
  · split
    · trivial
    · split
      · trivial
      · exact within_stepwise_saveSnapshot env _

/-- A line takes at most three steps for each bucket, and four. -/
theorem within_stepwise_task (env : CommandEnv) (p : Parsed) :
    (stepwise (p.task env) : Code H (List UInt8 × Bool)).Within (3 * H.n + 4) := by
  cases p with
  | answered answer authenticated => trivial
  | snapshot =>
      have hret : ∀ _ : Unit, (.ret (ascii "Snap", true) : Code H (List UInt8 × Bool)).Within 0 :=
        fun _ => trivial
      rw [Parsed.task, stepwise, Prog.expand_bind]
      exact (within_stepwise_doKvSnapshotToFile env.snapshot).bind hret
  | operation cmd key value =>
      have h : (stepwise ((Parsed.operation cmd key value).task env) :
          Code H (List UInt8 × Bool)).Within (2 + 1 + 0) :=
        within_stepwise_call (within_steps_ioctl (within_message _ _ _)) fun r => trivial
      exact h.mono (by omega)

/-- The connection has at most `n` steps left: for each line a read, those of the line, and an answer. -/
def Thread.Left (t : Thread H) (n : ℕ) : Prop :=
  Prog.Left (3 * H.n + 6) t.running t.pending.length n

theorem Thread.Left.step {t : Thread H} {n : ℕ} (h : t.Left n) (pam : Pam) (w : World H) :
    (t.step pam true w).1.Left (n - 1) := by
  unfold Thread.Left at h
  unfold Thread.step
  cases hrunning : t.running with
  | none =>
      rw [hrunning] at h
      cases hpending : t.pending with
      | nil =>
          unfold Thread.Left
          rw [hrunning, hpending]
          exact Prog.left_idle (3 * H.n + 6) _
      | cons input pending =>
          rw [hpending, List.length_cons] at h
          refine Prog.Left.take h ?_
          rw [parseAndHandleCommand_eq_task]
          exact within_stepwise_task ..
  | some p =>
      rw [hrunning] at h
      cases p with
      | ret r => exact Prog.Left.giveBack h
      | call x k => exact Prog.Left.call h _

/-- A connection without steps left has answered all its lines. -/
theorem Thread.Left.done {t : Thread H} (h : t.Left 0) : t.running = none ∧ t.pending = [] :=
  (Prog.Left.done h).imp_right List.length_eq_zero_iff.1

section Served

variable {ι : Type} [DecidableEq ι]

/-- The steps of a connection use up what it has left, whatever the others do. -/
theorem left_threads (pam : Pam) (s : Threads ι H) (es : List ι) {i : ι} {n : ℕ}
    (h : (s.thread i).Left n) : ((s.run pam es).thread i).Left (n - es.count i) := by
  refine Machine.run_count (Threads.step pam true) (fun s n => (s.thread i).Left n) ?_ ?_ es h
  · intro s n hs
    rw [Threads.thread_step_self]
    exact hs.step pam s.world
  · intro j hj s n hs
    rw [Threads.thread_step_of_ne pam true s (Ne.symm hj)]
    exact hs

/-- Every line that is served is answered. -/
theorem length_replies (pam : Pam) (inputs : ι → List Input) (m : KvMap) (es : List ι) (i : ι) :
    (((Desks.start inputs m).run pam es).desk i).replies.length +
      (((Desks.start inputs m).run pam es).desk i).pending.length = (inputs i).length := by
  refine Machine.run_invariant (Desks.step pam)
    (fun d => (d.desk i).replies.length + (d.desk i).pending.length = (inputs i).length) ?_ ?_
  · exact Nat.zero_add _
  · intro j _ d hd
    unfold Desks.step
    cases hpending : (d.desk j).pending with
    | nil => exact hd
    | cons input pending =>
        dsimp only
        by_cases hij : i = j
        · subst hij
          rw [Function.update_self, List.length_append, List.length_singleton]
          rw [hpending, List.length_cons] at hd
          dsimp only
          omega
        · rw [Function.update_of_ne hij]
          exact hd

/-- **All lines are answered**, once each connection has taken the steps that its lines need at most, if each
key is written by one client; and they are answered as by a service that serves them in some order. -/
theorem clients_served {w : World H} {m : KvMap} (h : Holds w.store m) {pam : Pam}
    {inputs : ι → List Input} (hone : OneWriter pam inputs) {es : List ι}
    (hes : ∀ i, (3 * H.n + 6) * (inputs i).length ≤ es.count i) :
    ∃ order : List ι,
      let s := (Threads.start inputs w).run pam es
      let d := (Desks.start inputs m).run pam order
      Holds s.world.store d.live ∧
        ∀ i, (s.thread i).replies = (d.desk i).replies ∧
          (s.thread i).replies.length = (inputs i).length := by
  obtain ⟨marks, hlen, hall⟩ := Machine.exists_marks (R := Beside pam inputs)
    (fun s d i hsd => beside_step hone hsd i) es (beside_start h pam inputs)
  have hbeside := hall es.length
  rw [List.take_length, ← hlen, List.take_length] at hbeside
  refine ⟨Machine.marked es marks, hbeside.holds, fun i => ?_⟩
  have hstart : ((Threads.start inputs w).thread i).Left ((3 * H.n + 6) * (inputs i).length) := le_refl _
  have hleft := left_threads pam (Threads.start inputs w) es hstart
  rw [Nat.sub_eq_zero_of_le (hes i)] at hleft
  obtain ⟨hrunning, hpending⟩ := hleft.done
  have hlength := length_replies pam inputs m (Machine.marked es marks) i
  have hfollows : (((Threads.start inputs w).run pam es).thread i).Follows
      (((Desks.start inputs m).run pam (Machine.marked es marks)).desk i) := (hbeside.tracks i).follows
  generalize ((Desks.start inputs m).run pam (Machine.marked es marks)).desk i = f at hlength hfollows ⊢
  cases hfollows with
  | between h =>
      rw [hpending] at hlength
      exact ⟨rfl, hlength⟩
  | before input h => exact absurd hrunning h
  | after answer authenticated h => exact absurd hrunning h

theorem twoConnections_served :
    ∃ order : List Bool,
      let s := (Threads.start twoConnections ⟨Store.init twoBuckets, none⟩).run (fun _ _ => true)
        (inTurns 24)
      let d := (Desks.start twoConnections ∅).run (fun _ _ => true) order
      Holds s.world.store d.live ∧ ∀ i, (s.thread i).replies = (d.desk i).replies ∧
        (s.thread i).replies.length = (twoConnections i).length :=
  clients_served (holds_init twoBuckets) oneWriter_twoConnections (by decide)

end Served

end Daemon
