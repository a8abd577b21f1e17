/-
**Requests and answers over a byte stream.**

The client (`user/client/client.cpp`) builds a command from what the user types in its menu, sends it,
and waits for an answer before it shows the menu again.  TCP carries the bytes in order, but not in
pieces that the sender chose: what one `read` of `handle_client` returns is some first part of the
bytes that are on their way, up to 1023 of them.  The protocol has neither lengths nor delimiters, and
the daemon takes whatever a `read` returns for one command.

Here client, stream and daemon are one machine.  The client sends and receives, the daemon reads,
makes its system calls and answers, and others may use the store and the file at any time.  The
client takes the answers one by one.  With each answer the machine remembers the text it answers.

The daemon follows the client exactly as long as every `read` returns all that is on its way, and no
command has a zero byte in it.  Otherwise a part of a command is executed as if it were one, and from
then on the answers belong to other commands than the client thinks.

Main definitions:

* `Daemon.Choice`, `Daemon.Choice.command` — the menu, and the commands it sends;
* `Daemon.Exchange`, `Daemon.Exchange.step` — client, stream and daemon;
* `Daemon.Exchange.Faithful` — the daemon executes what the client has sent, and its answers are taken
  for what they are;
* `Daemon.Exchange.Whole` — a read returns one whole command.

Main results:

* `Daemon.Exchange.Phase.step`, `Daemon.Exchange.Phase.whole` — whole reads keep the exchange in step, and
  nothing else does;
* `Daemon.Exchange.faithful_iff_whole` — **the exchanges in which requests and answers are kept apart**.
-/

import KvStore.DaemonCommand

set_option relaxedAutoImplicit false
set_option autoImplicit false

namespace Daemon

open CMem Text Interleave KvHash KvIoctl

variable {H : HashFn}

/-! ### The menu -/

/-- A choice in `cli_menu`, with the lines that were typed. -/
inductive Choice
  | insert (key value : List UInt8)
  | update (key value : List UInt8)
  | get (key : List UInt8)
  | delete (key : List UInt8)
  | snapshot

/-- The command that is sent. -/
def Choice.command : Choice → List UInt8
  | .insert key value => ascii "KV_INSERT " ++ key ++ ascii " " ++ value
  | .update key value => ascii "KV_UPDATE " ++ key ++ ascii " " ++ value
  | .get key => ascii "KV_GET " ++ key
  | .delete key => ascii "KV_DELETE " ++ key
  | .snapshot => ascii "KV_SNAPSHOT"

/-! ### Client, stream and daemon -/

/-- A client and its connection. -/
structure Exchange (H : HashFn) where
  world : World H
  /-- what the user is going to choose -/
  unsent : List Choice
  /-- what the client has sent -/
  sent : List Choice
  /-- the client waits for an answer -/
  waiting : Bool
  /-- the bytes on their way to the daemon -/
  stream : List UInt8
  /-- the daemon's end of the connection -/
  conn : Conn
  /-- the texts that the daemon has executed, or is executing, as commands -/
  executed : List (List UInt8)
  /-- the answers of the daemon, each with the text it answers -/
  answers : List (List UInt8 × List UInt8)
  /-- how many of them the client has read -/
  got : ℕ

/-- What happens in an exchange. -/
inductive ExchangeEvent
  /-- `send` in `send_command` -/
  | send
  /-- a `read` of `handle_client` that returns the first `n` of the bytes on their way, or all of them -/
  | read (n : ℕ) (env : CommandEnv)
  /-- the next system call of the command at hand, or the write of its answer -/
  | handle
  /-- `read` in `send_command` -/
  | receive
  /-- a system call of another connection -/
  | other (op : SysOp)

namespace Exchange

/-- A client that is going to make the given choices, over a connection that may be authenticated. -/
def start (choices : List Choice) (authenticated : Bool) (w : World H) : Exchange H where
  world := w
  unsent := choices
  sent := []
  waiting := false
  stream := []
  conn := { Conn.start [] with authenticated := authenticated }
  executed := []
  answers := []
  got := 0

/-- The daemon can read `n` bytes: it is not busy, there is something to read, and the buffer has room
for it. -/
def Reads (s : Exchange H) (n : ℕ) : Prop :=
  s.conn.running.isNone ∧ s.stream.take n ≠ [] ∧ (s.stream.take n).length ≤ 1023

instance (s : Exchange H) (n : ℕ) : Decidable (s.Reads n) := inferInstanceAs (Decidable (_ ∧ _))

/-- The client sends the command of its next choice. -/
def send (s : Exchange H) : Exchange H :=
  match s.unsent with
  | [] => s
  | choice :: unsent =>
      if s.waiting then s
      else { s with
        unsent := unsent
        sent := s.sent ++ [choice]
        waiting := true
        stream := s.stream ++ choice.command }

/-- The daemon reads. -/
def read (pam : Pam) (s : Exchange H) (n : ℕ) (env : CommandEnv) : Exchange H :=
  if h : s.Reads n then
    let chunk : Chunk := ⟨s.stream.take n, h.2⟩
    { s with
      stream := s.stream.drop n
      conn := ({ s.conn with pending := [⟨chunk, env⟩] }.step pam s.world).1
      executed := s.executed ++ [chunk.command] }
  else s

/-- The daemon goes on with the command at hand. -/
def handle (pam : Pam) (s : Exchange H) : Exchange H :=
  match s.conn.running with
  | none => s
  | some p =>
      { s with
        world := (s.conn.step pam s.world).2
        conn := (s.conn.step pam s.world).1
        answers := s.answers ++
          p.result?.toList.map fun r => (s.executed.getLastD [], r.1) }

/-- The client reads an answer. -/
def receive (s : Exchange H) : Exchange H :=
  if s.waiting ∧ s.got < s.answers.length then { s with waiting := false, got := s.got + 1 } else s

/-- One event of an exchange. -/
def step (pam : Pam) (s : Exchange H) : ExchangeEvent → Exchange H
  | .send => s.send
  | .read n env => s.read pam n env
  | .handle => s.handle pam
  | .receive => s.receive
  | .other op => { s with world := (sysExec () op s.world).2 }

/-- An exchange after some events. -/
def run (pam : Pam) (s : Exchange H) (es : List ExchangeEvent) : Exchange H :=
  Machine.run (step pam) s es

/-- The commands that the client has sent. -/
def requests (s : Exchange H) : List (List UInt8) := s.sent.map Choice.command

/-- The daemon executes exactly the commands the client has sent, once each and in order, and the
`i`-th answer that the client reads is the answer to its `i`-th command. -/
structure Faithful (s : Exchange H) : Prop where
  inOrder : s.executed <+: s.requests
  complete : s.waiting = false → s.executed = s.requests
  answers : ∀ i < s.got, s.answers[i]?.map Prod.fst = s.requests[i]?

/-- A read returns all that is on its way, and there is no zero byte in it. -/
def Whole (s : Exchange H) : ExchangeEvent → Prop
  | .read n _ => s.Reads n → s.stream.length ≤ n ∧ (0 : UInt8) ∉ s.stream
  | _ => True

/-! ### Exchanges that are in step -/

/-- Where an exchange is whose reads have all been whole. -/
inductive Phase (s : Exchange H) : Prop
  /-- the client has read the answer to all it has sent -/
  | idle (hwait : s.waiting = false) (hrun : s.conn.running = none) (hstream : s.stream = [])
      (hexec : s.executed = s.requests) (hans : s.answers.map Prod.fst = s.requests)
      (hgot : s.got = s.sent.length)
  /-- the last command is on its way -/
  | inFlight (before : List Choice) (c : Choice) (hsent : s.sent = before ++ [c])
      (hwait : s.waiting = true) (hrun : s.conn.running = none) (hstream : s.stream = c.command)
      (hexec : s.executed = before.map Choice.command)
      (hans : s.answers.map Prod.fst = before.map Choice.command) (hgot : s.got = before.length)
  /-- the last command is being executed -/
  | executing (before : List Choice) (c : Choice) (hsent : s.sent = before ++ [c])
      (hwait : s.waiting = true) (hrun : s.conn.running ≠ none) (hstream : s.stream = [])
      (hexec : s.executed = s.requests) (hans : s.answers.map Prod.fst = before.map Choice.command)
      (hgot : s.got = before.length)
  /-- the last command has been answered -/
  | answered (before : List Choice) (c : Choice) (hsent : s.sent = before ++ [c])
      (hwait : s.waiting = true) (hrun : s.conn.running = none) (hstream : s.stream = [])
      (hexec : s.executed = s.requests) (hans : s.answers.map Prod.fst = s.requests)
      (hgot : s.got = before.length)

theorem requests_of_sent {s : Exchange H} {before : List Choice} {c : Choice}
    (h : s.sent = before ++ [c]) : s.requests = before.map Choice.command ++ [c.command] := by
  rw [requests, h, List.map_append, List.map_singleton]

theorem answers_of_prefix {s : Exchange H} (hans : s.answers.map Prod.fst <+: s.requests)
    (hgot : s.got ≤ s.answers.length) (i : ℕ) (hi : i < s.got) :
    s.answers[i]?.map Prod.fst = s.requests[i]? := by
  obtain ⟨rest, hrest⟩ := hans
  have hlen : i < (s.answers.map Prod.fst).length := by
    rw [List.length_map]
    omega
  rw [← hrest, List.getElem?_append_left hlen, List.getElem?_map]

theorem length_answers {s : Exchange H} {commands : List Choice}
    (hans : s.answers.map Prod.fst = commands.map Choice.command) :
    s.answers.length = commands.length := by
  rw [← List.length_map (f := Prod.fst), hans, List.length_map]

/-- An exchange that is in step is faithful. -/
theorem Phase.faithful {s : Exchange H} (h : s.Phase) : s.Faithful := by
  cases h with
  | idle hwait hrun hstream hexec hans hgot =>
      refine ⟨hexec ▸ List.prefix_rfl, fun _ => hexec, ?_⟩
      exact answers_of_prefix (hans ▸ List.prefix_rfl) (by rw [length_answers hans, hgot])
  | inFlight before c hsent hwait hrun hstream hexec hans hgot =>
      have hreq := requests_of_sent hsent
      refine ⟨⟨[c.command], by rw [hexec, hreq]⟩, fun h => absurd (hwait.symm.trans h) nofun, ?_⟩
      exact answers_of_prefix ⟨[c.command], by rw [hans, hreq]⟩ (by rw [length_answers hans, hgot])
  | executing before c hsent hwait hrun hstream hexec hans hgot =>
      refine ⟨hexec ▸ List.prefix_rfl, fun _ => hexec, ?_⟩
      exact answers_of_prefix ⟨[c.command], by rw [hans, requests_of_sent hsent]⟩
        (by rw [length_answers hans, hgot])
  | answered before c hsent hwait hrun hstream hexec hans hgot =>
      refine ⟨hexec ▸ List.prefix_rfl, fun _ => hexec, ?_⟩
      refine answers_of_prefix (hans ▸ List.prefix_rfl) ?_
      rw [length_answers hans, hgot, hsent, List.length_append]
      omega

/-- A read that happens finds a command on its way. -/
theorem Phase.of_reads {s : Exchange H} (h : s.Phase) {n : ℕ} (hn : s.Reads n) :
    ∃ before c, s.sent = before ++ [c] ∧ s.waiting = true ∧ s.stream = c.command ∧
      s.executed = before.map Choice.command ∧ s.answers.map Prod.fst = before.map Choice.command ∧
      s.got = before.length := by
  have hne : s.stream ≠ [] := by
    intro hnil
    refine hn.2.1 ?_
    rw [hnil, List.take_nil]
  cases h with
  | idle hwait hrun hstream hexec hans hgot => exact absurd hstream hne
  | inFlight before c hsent hwait hrun hstream hexec hans hgot =>
      exact ⟨before, c, hsent, hwait, hstream, hexec, hans, hgot⟩
  | executing before c hsent hwait hrun hstream hexec hans hgot => exact absurd hstream hne
  | answered before c hsent hwait hrun hstream hexec hans hgot => exact absurd hstream hne

theorem read_of_reads (pam : Pam) {s : Exchange H} {n : ℕ} (h : s.Reads n) (env : CommandEnv) :
    (s.read pam n env).executed = s.executed ++ [(cstr (s.stream.take n)).1] ∧
      (s.read pam n env).stream = s.stream.drop n ∧ (s.read pam n env).conn.running ≠ none ∧
      (s.read pam n env).sent = s.sent ∧ (s.read pam n env).waiting = s.waiting ∧
      (s.read pam n env).answers = s.answers ∧ (s.read pam n env).got = s.got := by
  have hidle : s.conn.running = none := Option.isNone_iff_eq_none.1 h.1
  rw [read, dif_pos h]
  refine ⟨rfl, rfl, ?_, rfl, rfl, rfl, rfl⟩
  simp [Conn.step, hidle]

/-- A whole read executes the command that is on its way. -/
theorem Phase.read {s : Exchange H} (h : s.Phase) (pam : Pam) (n : ℕ) (env : CommandEnv)
    (hwhole : s.Whole (.read n env)) : (s.read pam n env).Phase := by
  by_cases hn : s.Reads n
  · obtain ⟨before, c, hsent, hwait, hstream, hexec, hans, hgot⟩ := h.of_reads hn
    obtain ⟨hexec', hstream', hrun', hsent', hwait', hans', hgot'⟩ := read_of_reads pam hn env
    obtain ⟨hlen, hzero⟩ := hwhole hn
    refine .executing before c (hsent'.trans hsent) (hwait'.trans hwait) hrun' ?_ ?_
      (by rw [hans', hans]) (hgot'.trans hgot)
    · rw [hstream', List.drop_of_length_le hlen]
    · rw [hexec', requests_of_sent (hsent'.trans hsent), hexec, List.take_of_length_le hlen,
        val_cstr_of_notMem hzero, hstream]
  · rw [Exchange.read, dif_neg hn]
    exact h

/-- A read that is not whole executes something that was not sent. -/
theorem Phase.whole {s : Exchange H} (h : s.Phase) (pam : Pam) (n : ℕ) (env : CommandEnv)
    (hfaithful : (s.read pam n env).Faithful) : s.Whole (.read n env) := by
  intro hn
  obtain ⟨before, c, hsent, hwait, hstream, hexec, hans, hgot⟩ := h.of_reads hn
  obtain ⟨hexec', -, -, hsent', -, -, -⟩ := read_of_reads pam hn env
  have htext : (cstr (s.stream.take n)).1 = s.stream := by
    have hprefix := hfaithful.inOrder
    rw [hexec', requests_of_sent (hsent'.trans hsent), hexec, List.prefix_append_right_inj] at hprefix
    exact (List.cons_prefix_cons.1 hprefix).1.trans hstream.symm
  have hlen : s.stream.length ≤ n := by
    have hprefix := cstr_prefix (s.stream.take n)
    have hle := hprefix.length_le
    rw [htext, List.length_take] at hle
    omega
  refine ⟨hlen, ?_⟩
  rw [← htext]
  exact (cstr (s.stream.take n)).2

/-- The client sends when it has read all answers. -/
theorem Phase.send {s : Exchange H} (h : s.Phase) : s.send.Phase := by
  unfold Exchange.send
  cases hun : s.unsent with
  | nil => exact h
  | cons c unsent =>
      dsimp only
      split
      · exact h
      · rename_i hnot
        cases h with
        | idle hwait hrun hstream hexec hans hgot =>
            refine .inFlight s.sent c rfl rfl hrun ?_ hexec hans hgot
            exact congrArg (· ++ c.command) hstream
        | inFlight before c hsent hwait hrun hstream hexec hans hgot => exact absurd hwait hnot
        | executing before c hsent hwait hrun hstream hexec hans hgot => exact absurd hwait hnot
        | answered before c hsent hwait hrun hstream hexec hans hgot => exact absurd hwait hnot

/-- The daemon answers what it has executed last. -/
theorem Phase.handle {s : Exchange H} (h : s.Phase) (pam : Pam) : (s.handle pam).Phase := by
  unfold Exchange.handle
  cases hrunning : s.conn.running with
  | none => exact h
  | some p =>
      have hbusy : s.conn.running ≠ none := by
        rw [hrunning]
        nofun
      cases h with
      | idle hwait hrun hstream hexec hans hgot => exact absurd hrun hbusy
      | inFlight before c hsent hwait hrun hstream hexec hans hgot => exact absurd hrun hbusy
      | answered before c hsent hwait hrun hstream hexec hans hgot => exact absurd hrun hbusy
      | executing before c hsent hwait hrun hstream hexec hans hgot =>
          cases p with
          | ret r =>
              have hlast : s.executed.getLastD [] = c.command := by
                rw [hexec, requests_of_sent hsent, List.getLastD_concat]
              refine .answered before c hsent hwait ?_ hstream hexec ?_ hgot
              · simp [Conn.step, hrunning]
              · dsimp only
                rw [List.map_append, hans, hlast, requests, hsent, List.map_append]
                rfl
          | call op k =>
              -- a system call on the way to the answer
              refine .executing before c hsent hwait ?_ hstream hexec ?_ hgot
              · simp [Conn.step, hrunning]
              · dsimp only
                rw [Prog.result?, Option.toList_none, List.map_nil, List.append_nil, hans]

/-- The client reads the answer to what it has sent last. -/
theorem Phase.receive {s : Exchange H} (h : s.Phase) : s.receive.Phase := by
  unfold Exchange.receive
  split
  · rename_i hready
    cases h with
    | idle hwait hrun hstream hexec hans hgot => exact absurd (hready.1.symm.trans hwait) nofun
    | inFlight before c hsent hwait hrun hstream hexec hans hgot =>
        have := length_answers hans
        omega
    | executing before c hsent hwait hrun hstream hexec hans hgot =>
        have := length_answers hans
        omega
    | answered before c hsent hwait hrun hstream hexec hans hgot =>
        refine .idle rfl hrun hstream hexec hans ?_
        dsimp only
        rw [hgot, hsent, List.length_append, List.length_singleton]
  · exact h

/-- Whole reads keep an exchange in step. -/
theorem Phase.step {s : Exchange H} (h : s.Phase) (pam : Pam) (e : ExchangeEvent) (he : s.Whole e) :
    (s.step pam e).Phase := by
  cases e with
  | send => exact h.send
  | read n env => exact h.read pam n env he
  | handle => exact h.handle pam
  | receive => exact h.receive
  | other op =>
      cases h with
      | idle hwait hrun hstream hexec hans hgot => exact .idle hwait hrun hstream hexec hans hgot
      | inFlight before c hsent hwait hrun hstream hexec hans hgot =>
          exact .inFlight before c hsent hwait hrun hstream hexec hans hgot
      | executing before c hsent hwait hrun hstream hexec hans hgot =>
          exact .executing before c hsent hwait hrun hstream hexec hans hgot
      | answered before c hsent hwait hrun hstream hexec hans hgot =>
          exact .answered before c hsent hwait hrun hstream hexec hans hgot

theorem phase_start (choices : List Choice) (authenticated : Bool) (w : World H) :
    (start choices authenticated w).Phase :=
  .idle rfl rfl rfl rfl rfl rfl

/-- **Request framing.**  Whatever the client sends, however its bytes are cut into reads, and whatever
others do meanwhile: the daemon executes exactly the commands the client has sent and the client takes
each answer for what it is, in every state of the exchange, exactly when every read has returned the
whole of one command and the commands have no zero byte in them. -/
theorem faithful_iff_whole (pam : Pam) (choices : List Choice) (authenticated : Bool) (w : World H)
    (es : List ExchangeEvent) :
    (∀ es₁ es₂, es = es₁ ++ es₂ → ((start choices authenticated w).run pam es₁).Faithful) ↔
      Machine.Along (step pam) Whole (start choices authenticated w) es := by
  refine Machine.forall_state_iff_along (step pam) Phase (phase_start choices authenticated w)
    (fun s e hs he => hs.step pam e he) (fun s hs => hs.faithful) ?_ es
  intro s e hs hfaithful
  cases e with
  | send => trivial
  | read n env => exact hs.whole pam n env hfaithful
  | handle => trivial
  | receive => trivial
  | other op => trivial

/-- An insertion that arrives in two pieces: after the answer to the first piece the client sends its
next command, and is given the answer to the second piece. -/
def splitInsert : Exchange twoBuckets :=
  (start [.insert (ascii "12") (ascii "a"), .get (ascii "12")] true ⟨Store.init _, none⟩).run
    (fun _ _ => true)
    [.send, .read 11 .ok, .handle, .receive, .read 1023 .ok, .handle, .send, .receive]

/-- What the daemon executes is not what was sent, and the second answer is not the answer to the second
command. -/
theorem splitInsert_unfaithful :
    splitInsert.requests = [ascii "KV_INSERT 12 a", ascii "KV_GET 12"] ∧
      splitInsert.executed = [ascii "KV_INSERT 1", ascii "2 a"] ∧
      splitInsert.got = 2 ∧
      splitInsert.answers =
        [(ascii "KV_INSERT 1", ascii "KV_INSERT requires a value\n"),
          (ascii "2 a", ascii "Unknown operation: 2\n")] ∧
      ¬ splitInsert.Faithful := by
  have hrequests : splitInsert.requests = [ascii "KV_INSERT 12 a", ascii "KV_GET 12"] := by
    decide +kernel
  have hexecuted : splitInsert.executed = [ascii "KV_INSERT 1", ascii "2 a"] := by decide +kernel
  refine ⟨hrequests, hexecuted, by decide +kernel, by decide +kernel, ?_⟩
  intro h
  have hprefix := h.inOrder
  rw [hrequests, hexecuted] at hprefix
  revert hprefix
  decide +kernel

end Exchange

end Daemon
