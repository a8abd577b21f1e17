/-
**What a connection can do before it has been authenticated.**

`handle_client` keeps for each connection whether PAM has accepted a user on it, and
`parse_and_handle_command` refuses everything but `AUTH` until then.  This module proves what the
refusal is worth when any number of connections are served at once, in any order and on any bytes.

A command that is refused makes no system call at all: it is answered from its own text and PAM's
verdict.  So a connection that is not authenticated can neither change the store or the file nor
learn anything about them, and it is not even slowed down by what the others do: after as many steps
of its own it has got as many answers.

Main definitions:

* `Daemon.acceptedAuth` — the command is an `AUTH` that PAM accepts;
* `Daemon.refusal` — the answer to a command on a connection that is not authenticated.

Main results:

* `Daemon.parseAndHandleCommand_false` — such a command does nothing but answer;
* `Daemon.returns_parseAndHandleCommand` — how a command changes the state of the connection;
* `Daemon.inv_run` — the invariant of a connection along every run;
* `Daemon.no_access_without_auth` — **no access without authentication on the same connection**.
-/

import KvStore.DaemonCommand

set_option relaxedAutoImplicit false
set_option autoImplicit false

namespace Daemon

open CMem Text Interleave KvHash KvIoctl

variable {H : HashFn}

/-! ### One command -/

/-- The command is an `AUTH` with a user and a password that PAM accepts. -/
def acceptedAuth (pam : Pam) (command : List UInt8) : Bool :=
  match token command with
  | none => false
  | some (operation, rest) =>
      match token rest with
      | none => false
      | some (username, rest) =>
          match token rest with
          | none => false
          | some (password, _) => operation = ascii "AUTH" && pam username password

/-- The answer to a command on a connection that is not authenticated. -/
def refusal (pam : Pam) (command : List UInt8) : List UInt8 :=
  match token command with
  | none => ascii "Invalid command format. Expected: kv <operation> ...\n"
  | some (operation, rest) =>
      if operation = ascii "AUTH" then (handleAuth pam rest).1
      else ascii "Connection not authenticated!\n"

theorem acceptedAuth_of_token {pam : Pam} {command operation rest : List UInt8}
    (h : token command = some (operation, rest)) :
    acceptedAuth pam command = (decide (operation = ascii "AUTH") && (handleAuth pam rest).2) := by
  unfold acceptedAuth handleAuth
  rw [h]
  dsimp only
  cases token rest with
  | none => exact (Bool.and_false _).symm
  | some p =>
      dsimp only
      cases token p.2 with
      | none => exact (Bool.and_false _).symm
      | some q =>
          dsimp only
          cases pam p.1 q.1 with
          | false => rfl
          | true => rfl

/-- On a connection that is not authenticated a command does nothing but answer. -/
theorem parseAndHandleCommand_false (env : CommandEnv) (pam : Pam) (command : List UInt8) :
    parseAndHandleCommand env pam command false =
      .ret (refusal pam command, acceptedAuth pam command) := by
  unfold parseAndHandleCommand refusal
  cases h : token command with
  | none =>
      have hnot : acceptedAuth pam command = false := by
        unfold acceptedAuth
        rw [h]
      rw [hnot]
      rfl
  | some p =>
      obtain ⟨operation, rest⟩ := p
      rw [acceptedAuth_of_token h]
      dsimp only
      by_cases hauth : operation = ascii "AUTH"
      · rw [if_pos hauth, if_pos hauth, decide_eq_true hauth, Bool.true_and]
        rfl
      · rw [if_neg hauth, if_neg hauth, decide_eq_false hauth, Bool.false_and]
        rfl

/-- A connection that is authenticated stays so. -/
theorem returns_parseAndHandleCommand_true (env : CommandEnv) (pam : Pam) (command : List UInt8) :
    (parseAndHandleCommand env pam command true).Returns fun r => r.2 = true := by
  unfold parseAndHandleCommand
  cases token command with
  | none => exact rfl
  | some p =>
      dsimp only
      split
      · exact rfl
      · rw [if_neg (by decide)]
        split
        · exact Prog.Returns.bind fun _ => rfl
        · cases token p.2 with
          | none => exact rfl
          | some q =>
              dsimp only
              cases commandOf p.1 (commandValue q.2) with
              | error answer => exact rfl
              | ok cmd => exact Prog.Returns.bind fun _ => rfl

/-- How a command changes the state of its connection. -/
theorem returns_parseAndHandleCommand (env : CommandEnv) (pam : Pam) (command : List UInt8)
    (authenticated : Bool) :
    (parseAndHandleCommand env pam command authenticated).Returns fun r =>
      r.2 = (authenticated || acceptedAuth pam command) := by
  cases authenticated with
  | false =>
      rw [parseAndHandleCommand_false, Prog.returns_ret, Bool.false_or]
  | true => exact returns_parseAndHandleCommand_true env pam command

/-! ### One connection -/

/-- The commands in what a connection delivers. -/
def commands (inputs : List Input) : List (List UInt8) := inputs.map fun input => input.chunk.command

/-- None of the first `k` commands is an `AUTH` that PAM accepts. -/
def Unaccepted (pam : Pam) (inputs : List Input) (k : ℕ) : Prop :=
  ((commands inputs).take k).any (acceptedAuth pam) = false

section Next

variable {inputs rest : List Input} {input : Input} {k : ℕ}

theorem commands_next (h : inputs.drop k = input :: rest) :
    (commands inputs)[k]? = some input.chunk.command := by
  have hnext : inputs[k]? = some input := by
    rw [← List.head?_drop, h, List.head?_cons]
  rw [commands, List.getElem?_map, hnext, Option.map_some]

theorem any_take_next (h : inputs.drop k = input :: rest) (f : List UInt8 → Bool) :
    ((commands inputs).take (k + 1)).any f =
      (((commands inputs).take k).any f || f input.chunk.command) := by
  rw [List.take_add_one, commands_next h, List.any_append]
  simp

theorem drop_next (h : inputs.drop k = input :: rest) : inputs.drop (k + 1) = rest := by
  rw [← List.tail_drop, h, List.tail_cons]

theorem lt_of_next (h : inputs.drop k = input :: rest) : k < inputs.length := by
  by_contra hk
  rw [List.drop_of_length_le (not_lt.1 hk)] at h
  cases h

end Next

/-- The invariant of a connection that delivers `inputs` and has taken `n` steps. -/
structure Conn.Inv (pam : Pam) (inputs : List Input) (n : ℕ) (c : Conn) : Prop where
  flag : c.authenticated = ((commands inputs).take c.replies.length).any (acceptedAuth pam)
  idle : c.running = none → c.pending = inputs.drop c.replies.length
  busy : ∀ p, c.running = some p → ∃ input, inputs.drop c.replies.length = input :: c.pending ∧
    (p.Returns fun r => r.2 = (c.authenticated || acceptedAuth pam input.chunk.command)) ∧
    (c.authenticated = false →
      p = .ret (refusal pam input.chunk.command, acceptedAuth pam input.chunk.command))
  replies : ∀ j answer, c.replies[j]? = some answer → Unaccepted pam inputs j →
    (commands inputs)[j]?.map (refusal pam) = some answer
  /-- two steps for each command, one to read it and one to answer it -/
  pace : c.authenticated = false →
    min n (2 * inputs.length) = 2 * c.replies.length + if c.running.isSome then 1 else 0

theorem Conn.inv_start (pam : Pam) (inputs : List Input) : (Conn.start inputs).Inv pam inputs 0 where
  flag := rfl
  idle := fun _ => rfl
  busy := nofun
  replies := nofun
  pace := fun _ => Nat.zero_min _

/-- The invariant is kept by every step of the connection, whatever is in the store and in the file;
and until it is authenticated its steps leave both as they are. -/
theorem Conn.Inv.step {pam : Pam} {inputs : List Input} {n : ℕ} {c : Conn} (h : c.Inv pam inputs n)
    (w : World H) : (c.step pam w).1.Inv pam inputs (n + 1) ∧
      (c.authenticated = false → (c.step pam w).2 = w) := by
  cases hrun : c.running with
  | none =>
      have hidle := h.idle hrun
      have hpace := h.pace
      rw [hrun] at hpace
      cases hpend : c.pending with
      | nil =>
          -- nothing is left to read
          have hstep : c.step pam w = (c, w) := by
            unfold Conn.step
            rw [hrun, hpend]
          rw [hstep]
          refine ⟨⟨h.flag, h.idle, h.busy, h.replies, ?_⟩, fun _ => rfl⟩
          intro hfalse
          have hall : inputs.length ≤ c.replies.length := by
            rw [← List.drop_eq_nil_iff, ← hidle, hpend]
          have := hpace hfalse
          rw [hrun]
          simp only [Option.isSome_none, Bool.false_eq_true, if_false] at this ⊢
          omega
      | cons input pending =>
          have hnext : inputs.drop c.replies.length = input :: pending := by rw [← hidle, hpend]
          have hlt := lt_of_next hnext
          unfold Conn.step
          rw [hrun, hpend]
          refine ⟨⟨h.flag, nofun, ?_, h.replies, ?_⟩, fun _ => rfl⟩
          · rintro p ⟨⟩
            refine ⟨input, hnext, returns_parseAndHandleCommand .., fun hfalse => ?_⟩
            rw [hfalse, parseAndHandleCommand_false]
          · intro hfalse
            have := hpace hfalse
            simp only [Option.isSome_none, Option.isSome_some, Bool.false_eq_true, if_false,
              if_true] at this ⊢
            omega
  | some p =>
      obtain ⟨input, hnext, hreturns, hquiet⟩ := h.busy p hrun
      have hpace := h.pace
      rw [hrun] at hpace
      cases p with
      | ret r =>
          obtain ⟨answer, authenticated⟩ := r
          obtain rfl : authenticated = (c.authenticated || acceptedAuth pam input.chunk.command) :=
            hreturns
          unfold Conn.step
          rw [hrun]
          have hlen : (c.replies ++ [answer]).length = c.replies.length + 1 := List.length_append
          refine ⟨⟨?_, ?_, nofun, ?_, ?_⟩, fun _ => rfl⟩
          · dsimp only
            rw [hlen, any_take_next hnext, ← h.flag]
          · intro _
            dsimp only
            rw [hlen, drop_next hnext]
          · intro j answer' hj hun
            dsimp only at hj
            by_cases hlt : j < c.replies.length
            · rw [List.getElem?_append_left hlt] at hj
              exact h.replies j answer' hj hun
            · -- the answer that is written now
              obtain rfl : j = c.replies.length := by
                have := (List.getElem?_eq_some_iff.1 hj).1
                omega
              rw [List.getElem?_concat_length, Option.some.injEq] at hj
              have hret := hquiet (h.flag.trans hun)
              rw [Prog.ret.injEq, Prod.mk.injEq] at hret
              rw [commands_next hnext, Option.map_some, ← hret.1, hj]
          · intro hfalse
            have := hpace (Bool.or_eq_false_iff.1 hfalse).1
            have := lt_of_next hnext
            dsimp only
            rw [hlen]
            simp only [Option.isSome_none, Option.isSome_some, Bool.false_eq_true, if_false,
              if_true] at *
            omega
      | call op k =>
          -- only a command of an authenticated connection makes a system call
          have htrue : c.authenticated = true := by
            by_contra hfalse
            cases hquiet (Bool.not_eq_true _ ▸ hfalse)
          unfold Conn.step
          rw [hrun]
          refine ⟨⟨h.flag, nofun, ?_, h.replies, ?_⟩, ?_⟩
          · rintro p ⟨⟩
            exact ⟨input, hnext, hreturns _, fun hfalse => absurd (htrue.symm.trans hfalse) nofun⟩
          · exact fun hfalse => absurd (htrue.symm.trans hfalse) nofun
          · exact fun hfalse => absurd (htrue.symm.trans hfalse) nofun

/-! ### All connections -/

section Runs

variable {ι : Type} [DecidableEq ι]

/-- The invariant holds of every connection after every run. -/
theorem inv_run (pam : Pam) (inputs : ι → List Input) (w : World H) (es : List ι) (i : ι) :
    (((Server.start inputs w).run pam es).conn i).Inv pam (inputs i) (es.count i) := by
  induction es using List.reverseRecOn with
  | nil => exact Conn.inv_start pam (inputs i)
  | append_singleton es e ih =>
      rw [Server.run, Machine.run_concat, List.count_append, List.count_singleton]
      by_cases h : i = e
      · subst h
        rw [Server.conn_step_self, if_pos (by simp)]
        exact (ih.step _).1
      · rw [Server.conn_step_of_ne pam _ h, if_neg (by simpa using Ne.symm h)]
        exact ih

/-- What has been written to a connection that is not authenticated is told by its own chunks. -/
theorem replies_eq_of_chunks {pam : Pam} {inputs inputs' : List Input} {n n' : ℕ} {c c' : Conn}
    (h : c.Inv pam inputs n) (h' : c'.Inv pam inputs' n') (hcommands : commands inputs' = commands inputs)
    {j : ℕ} (hun : Unaccepted pam inputs j) {answer answer' : List UInt8}
    (hj : c.replies[j]? = some answer) (hj' : c'.replies[j]? = some answer') : answer = answer' := by
  have hun' : Unaccepted pam inputs' j := by
    unfold Unaccepted
    rw [hcommands]
    exact hun
  have hsome := h'.replies j answer' hj' hun'
  rw [hcommands, h.replies j answer hj hun] at hsome
  exact Option.some.inj hsome

/-- A connection that is not authenticated after its last answer was not authenticated before. -/
theorem Conn.Inv.unaccepted {pam : Pam} {inputs : List Input} {n : ℕ} {c : Conn}
    (h : c.Inv pam inputs n) (hfalse : c.authenticated = false) {j : ℕ} (hj : j ≤ c.replies.length) :
    Unaccepted pam inputs j := by
  have hall := h.flag.symm.trans hfalse
  unfold Unaccepted
  rw [List.any_eq_false] at hall ⊢
  intro command hc
  exact hall command ((List.take_subset_take_left _ hj) hc)

/-- **No access without authentication on the same connection.**  In every run, of any connections that
deliver any chunks, a connection is authenticated exactly when PAM has accepted one of the `AUTH`
commands it has had.  As long as it is not, its steps change neither the store nor the file.  And in
another run, from another store and another file and with anything else on the other connections, it
gets the same answers from the same chunks: the same one to each command up to the one that
authenticates it, and in as many steps of its own. -/
theorem no_access_without_auth (pam : Pam) (inputs : ι → List Input) (w : World H) (es : List ι)
    (i : ι) :
    let s := (Server.start inputs w).run pam es
    (s.conn i).authenticated =
        ((commands (inputs i)).take (s.conn i).replies.length).any (acceptedAuth pam) ∧
      ((s.conn i).authenticated = false → (s.step pam i).world = s.world) ∧
      ∀ (H' : HashFn) (inputs' : ι → List Input) (w' : World H') (es' : List ι),
        (inputs' i).map Input.chunk = (inputs i).map Input.chunk →
        let s' := (Server.start inputs' w').run pam es'
        (∀ j answer answer', Unaccepted pam (inputs i) j → (s.conn i).replies[j]? = some answer →
          (s'.conn i).replies[j]? = some answer' → answer = answer') ∧
        ((s.conn i).authenticated = false → (s'.conn i).authenticated = false →
          es.count i = es'.count i → (s.conn i).replies = (s'.conn i).replies) := by
  intro s
  have h : (s.conn i).Inv pam (inputs i) (es.count i) := inv_run pam inputs w es i
  refine ⟨h.flag, (h.step s.world).2, ?_⟩
  intro H' inputs' w' es' hchunks s'
  have h' : (s'.conn i).Inv pam (inputs' i) (es'.count i) := inv_run pam inputs' w' es' i
  have hcommands : commands (inputs' i) = commands (inputs i) := by
    have := congrArg (List.map Chunk.command) hchunks
    rwa [List.map_map, List.map_map] at this
  refine ⟨?_, ?_⟩
  · intro j answer answer' hun hj hj'
    exact replies_eq_of_chunks h h' hcommands hun hj hj'
  · intro hfalse hfalse' hcount
    -- before authentication a connection goes at the same pace in both runs
    have hlen : (s.conn i).replies.length = (s'.conn i).replies.length := by
      have hinputs : (inputs' i).length = (inputs i).length := by
        have := congrArg List.length hchunks
        rwa [List.length_map, List.length_map] at this
      have hpace := h.pace hfalse
      have hpace' := h'.pace hfalse'
      rw [hinputs, ← hcount] at hpace'
      split at hpace <;> split at hpace' <;> omega
    refine List.ext_getElem hlen ?_
    intro j hj hj'
    exact replies_eq_of_chunks h h' hcommands (h.unaccepted hfalse hj.le)
      (List.getElem?_eq_getElem hj) (List.getElem?_eq_getElem hj')

end Runs

end Daemon
