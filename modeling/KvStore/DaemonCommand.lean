/-
**The commands of the daemon's clients.**

A client talks to `user/daemon/daemon.cpp` over a TCP connection.  `handle_client` reads into a buffer
of 1024 bytes, hands whatever one `read` has returned to `parse_and_handle_command`, and writes the
answer back; it keeps to itself whether the connection has been authenticated.  The command is taken
apart by words, and if it is a key-value operation it becomes one ioctl (`do_kv_operation`).

Here a connection is a state that is stepped: it reads, makes one system call of the command at hand,
or writes the answer.  An ioctl is one step, so that those of different threads do not overlap here; they do
in `KvStore/DaemonThreads.lean`.  What the successive reads return is fixed in advance, chunk by chunk; the
connection is over when there is no chunk left.  PAM is a parameter, a function from user and
password to its verdict.  Writing to the client succeeds (where the client is gone, the signal that the
write raises ends the whole daemon), and messages to the console are left out.

`do_kv_operation` is written for any way to perform an ioctl, so that it can be run over system calls
as well as over the steps of the module.

Main definitions:

* `Daemon.parseKey`, `Daemon.doKvOperation`, `Daemon.parseAndHandleCommand` — the functions;
* `Daemon.Conn`, `Daemon.Conn.step` — `handle_client`, step by step;
* `Daemon.Server`, `Daemon.Server.run` — all connections over one store and one file, system call by
  system call.

Main results: `Daemon.Server.conn_step_self`, `Daemon.Server.conn_step_of_ne` — a step of a connection
touches no other connection.
-/

import KvStore.Daemon
import KvStore.Text

set_option relaxedAutoImplicit false
set_option autoImplicit false

namespace Daemon

open CMem Text Interleave KvHash KvIoctl

variable {H : HashFn}

/-! ### Key-value operations -/

/-- `parse_key`.  No number was read when `end` is the start of the text; otherwise it must be the end
of the text. -/
def parseKey (keyText : List UInt8) : Option HashKey :=
  let text := (cstr keyText).1
  let (parsed, erange, rest) := strtoull text
  if erange ∨ rest.length = text.length ∨ rest ≠ [] then none else some parsed

/-- The message that `do_kv_operation` hands to the module.  `strncpy` copies at most 63 bytes of the
value, and the rest of the field is zero. -/
def requestMessage (key : HashKey) (value : List UInt8) : KvMessage :=
  { KvMessage.zero with
    key := key
    value := if value = [] then zeros MAX_VALUE_LEN
      else memcpy (zeros MAX_VALUE_LEN) ((cstr value).1.take (MAX_VALUE_LEN - 1)) }

/-- The module finds the first 63 bytes of the value in the message, whatever lies behind it. -/
theorem cstr_requestMessage (key : HashKey) (value tail : List UInt8) :
    cstr ((requestMessage key value).value.1 ++ tail) = (cstr value).truncate 63 := by
  have hlen : ((cstr value).truncate 63).1.length < MAX_VALUE_LEN := by
    have htake : ((cstr value).1.take 63).length ≤ 63 := List.length_take_le ..
    exact Nat.lt_succ_of_le htake
  have hfield : (requestMessage key value).value =
      memcpy (zeros MAX_VALUE_LEN) (((cstr value).truncate 63).1 ++ [0]) := by
    rw [← memcpy_zeros_terminated hlen]
    unfold requestMessage
    by_cases hvalue : value = []
    · subst hvalue
      rfl
    · rw [if_neg hvalue]
      rfl
  rw [hfield, cstr_memcpy_zeros hlen]

/-- The value in the message is terminated. -/
theorem zero_mem_requestMessage (key : HashKey) (value : List UInt8) :
    0 ∈ (requestMessage key value).value.1 := by
  by_contra hnul
  have hfull : (requestMessage key value).value.1.length = 64 := (requestMessage key value).value.2
  have hcstr : (requestMessage key value).value.1 = ((cstr value).truncate 63).1 := by
    rw [← cstr_requestMessage key value [], List.append_nil, val_cstr_of_notMem hnul]
  have htake : ((cstr value).truncate 63).1.length ≤ 63 := List.length_take_le ..
  rw [hcstr] at hfull
  omega

/-- A key as `std::to_string` writes it. -/
def keyStr (key : HashKey) : List UInt8 := decimal key.toNat

/-- A status as `std::to_string` writes it. -/
def statusStr (status : Int32) : List UInt8 := ascii (toString status.toInt)

/-- The arrow in the answer to `KV_GET`, as the source file encodes it. -/
def arrow : List UInt8 := [0xE2, 0x86, 0x92]

/-- The answer of `do_kv_operation` to a message that came back from the module. -/
def response (cmd : Cmd) (msg : KvMessage) : List UInt8 :=
  let call (name : String) := ascii name ++ ascii "(\"" ++ keyStr msg.key ++ ascii "\")"
  let failed (text : String) := ascii text ++ statusStr msg.status ++ ascii ")\n"
  match cmd with
  | .kvGet =>
      if msg.status = 0 then
        call "GET" ++ ascii " " ++ arrow ++ ascii " \"" ++ (cstr msg.value.1).1 ++ ascii "\"\n"
      else call "GET" ++ ascii " failed: key does not exist\n"
  | .kvInsert =>
      if msg.status = 0 then call "INSERT" ++ ascii " succeeded\n"
      else if msg.status = 1 then
        call "INSERT" ++ ascii " failed, key already exists, use update\n"
      else call "INSERT" ++ failed " failed (status="
  | .kvUpdate =>
      if msg.status = 0 then call "UPDATE" ++ ascii " succeeded\n"
      else call "UPDATE" ++ failed " failed (status="
  | .kvDelete =>
      if msg.status = 0 then call "DELETE" ++ ascii " succeeded\n"
      else call "DELETE" ++ failed " failed: key not found or error (status="
  | .unknown n => ascii "Unknown command: " ++ decimal n.toNat ++ failed " (status="

/-- What follows the call in an answer tells success from failure. -/
theorem failed_ne_succeeded (call rest : List UInt8) :
    call ++ (32 :: 102 :: rest) ≠ call ++ ascii " succeeded\n" := by
  intro h
  have htail := List.append_cancel_left h
  have hsecond := (List.cons.inj (List.cons.inj htail).2).1
  exact absurd hsecond (by decide)

/-- The message that an ioctl leaves in place of `arg`. -/
def message (arg : KvMessage) : Ioctl → KvMessage
  | .message _ msg => msg
  | _ => arg

/-- `do_kv_operation`, with the given way to perform an ioctl. -/
def doKvOperation {m : Type → Type} [Monad m] (perform : Ioctl → m (ℤ × Ioctl)) (cmd : Cmd)
    (key value : List UInt8) : m (List UInt8) :=
  match parseKey key with
  | none => return ascii "Invalid key: expected unsigned integer\n"
  | some parsedKey => do
      let msg := requestMessage parsedKey value
      let (ret, reply) ← perform (.message cmd msg)
      if ret < 0 then return ascii "ioctl failed"
      return response cmd (message msg reply)

/-- The answer to a client when a handler has returned `r`. -/
def clientReply (env : KernelEnv) (cmd : Cmd) (r : ℤ × KvMessage) : List UInt8 :=
  if r.1 < 0 ∨ env.copyToUser = false then ascii "ioctl failed" else response cmd r.2

/-- A key-value operation as the module sees it: the handler of its command, and the answer. -/
theorem doKvOperation_kvIoctl {env : KernelEnv} (hin : env.copyFromUser = true) {text : List UInt8}
    {key : HashKey} (hkey : parseKey text = some key) (cmd : Cmd) (value : List UInt8) :
    (doKvOperation (kvIoctl env) cmd text value : Kernel H (List UInt8)) =
      (dispatch env cmd (requestMessage key value) >>= fun r => .ret (clientReply env cmd r)) := by
  have hfault : (-EFAULT : ℤ) < 0 := by decide
  simp only [doKvOperation, hkey, kvIoctl, handleKvMessage, hin, Bool.not_true, Bool.false_eq_true,
    if_false, Prog.bind_assoc]
  congr 1
  funext r
  by_cases hret : r.1 < 0
  · simp only [clientReply, hret, true_or, if_true, Prog.pure_eq, Prog.ret_bind]
  · cases hout : env.copyToUser with
    | false =>
        simp only [clientReply, hret, hout, hfault, or_true, if_true, if_false, Bool.not_false,
          Prog.pure_eq, Prog.ret_bind]
    | true =>
        simp only [clientReply, hret, hout, false_or, Bool.true_eq_false, Bool.not_true,
          Bool.false_eq_true, if_false, Prog.pure_eq, Prog.ret_bind, message]

/-! ### Commands -/

/-- What the system calls of a command meet outside the store and the file. -/
structure CommandEnv where
  /-- the kernel's side of the ioctl of a key-value operation -/
  kernel : KernelEnv
  alloc : Alloc
  /-- what a snapshot meets -/
  snapshot : SnapshotEnv

/-- Nothing fails. -/
def CommandEnv.ok : CommandEnv := ⟨.ok, .ok, .ok⟩

/-- PAM: whether it accepts a user with a password. -/
abbrev Pam := List UInt8 → List UInt8 → Bool

/-- An ioctl as a system call. -/
def sysIoctl (env : CommandEnv) (i : Ioctl) : Task (ℤ × Ioctl) :=
  .call (.ioctl ⟨env.kernel, env.alloc, i⟩) .ret

/-- The part of `parse_and_handle_command` that deals with `AUTH`: the answer, and whether PAM has
accepted. -/
def handleAuth (pam : Pam) (rest : List UInt8) : List UInt8 × Bool :=
  match token rest with
  | none => (ascii "No username provided", false)
  | some (username, rest) =>
      match token rest with
      | none => (ascii "No password provided", false)
      | some (password, _) =>
          if pam username password then (ascii "OK\n", true) else (ascii "FAIL\n", false)

/-- The rest of the line as a value, without the blank that separates it from the key. -/
def commandValue (rest : List UInt8) : List UInt8 :=
  let value := getline rest
  if value.head? = some 32 then value.tail else value

/-- The ioctl command of an operation, or the answer that refuses it. -/
def commandOf (operation value : List UInt8) : Except (List UInt8) Cmd :=
  if operation = ascii "KV_INSERT" then
    if value = [] then .error (ascii "KV_INSERT requires a value\n") else .ok .kvInsert
  else if operation = ascii "KV_DELETE" then .ok .kvDelete
  else if operation = ascii "KV_GET" then .ok .kvGet
  else if operation = ascii "KV_UPDATE" then
    if value = [] then .error (ascii "KV_UPDATE requires a value\n") else .ok .kvUpdate
  else .error (ascii "Unknown operation: " ++ operation ++ ascii "\n")

/-- `parse_and_handle_command`: the answer, and whether the connection is authenticated
afterwards. -/
def parseAndHandleCommand (env : CommandEnv) (pam : Pam) (command : List UInt8)
    (authenticated : Bool) : Task (List UInt8 × Bool) :=
  match token command with
  | none => return (ascii "Invalid command format. Expected: kv <operation> ...\n", authenticated)
  | some (operation, rest) =>
      if operation = ascii "AUTH" then
        let (answer, ok) := handleAuth pam rest
        return (answer, authenticated || ok)
      else if !authenticated then return (ascii "Connection not authenticated!\n", authenticated)
      else if operation = ascii "KV_SNAPSHOT" then do
        doKvSnapshotToFile env.snapshot
        return (ascii "Snap", authenticated)
      else
        match token rest with
        | none =>
            return (ascii "Invalid command format. Expected: kv <operation> <key> ", authenticated)
        | some (key, rest) =>
            let value := commandValue rest
            match commandOf operation value with
            | .error answer => return (answer, authenticated)
            | .ok cmd => do
                let answer ← doKvOperation (sysIoctl env) cmd key value
                return (answer, authenticated)

/-! ### Connections -/

/-- What one `read` of `handle_client` returns: at least one byte, and no more than there is room for
in the buffer. -/
abbrev Chunk := { bytes : List UInt8 // bytes ≠ [] ∧ bytes.length ≤ 1023 }

/-- The command in the buffer after a `read`: the buffer was cleared before, and its last byte is
never written. -/
def Chunk.command (chunk : Chunk) : List UInt8 := (cstr chunk.1).1

/-- A chunk, and what the command in it meets. -/
structure Input where
  chunk : Chunk
  env : CommandEnv

/-- A thread in `handle_client`. -/
structure Conn where
  /-- what the next reads will return -/
  pending : List Input
  authenticated : Bool
  /-- the rest of the command at hand -/
  running : Option (Task (List UInt8 × Bool))
  /-- the answers written so far -/
  replies : List (List UInt8)

/-- A connection that delivers the given chunks. -/
def Conn.start (inputs : List Input) : Conn where
  pending := inputs
  authenticated := false
  running := none
  replies := []

/-- One step of `handle_client`: a read, a system call of the command at hand, or the write of its
answer. -/
def Conn.step (pam : Pam) (c : Conn) (w : World H) : Conn × World H :=
  match c.running with
  | none =>
      match c.pending with
      | [] => (c, w)
      | input :: pending =>
          ({ c with
            pending := pending
            running := some
              (parseAndHandleCommand input.env pam input.chunk.command c.authenticated) }, w)
  | some (.ret (answer, authenticated)) =>
      ({ c with
        running := none
        authenticated := authenticated
        replies := c.replies ++ [answer] }, w)
  | some (.call op k) =>
      ({ c with running := some (k (sysExec () op w).1) }, (sysExec () op w).2)

/-- The connections of the daemon, and what they share. -/
structure Server (ι : Type) (H : HashFn) where
  world : World H
  conn : ι → Conn

namespace Server

variable {ι : Type} [DecidableEq ι]

/-- All connections before their first read. -/
def start (inputs : ι → List Input) (w : World H) : Server ι H := ⟨w, fun i => .start (inputs i)⟩

/-- Connection `i` takes its next step. -/
def step (pam : Pam) (s : Server ι H) (i : ι) : Server ι H where
  world := ((s.conn i).step pam s.world).2
  conn := Function.update s.conn i ((s.conn i).step pam s.world).1

/-- The server after some steps of its connections. -/
def run (pam : Pam) (s : Server ι H) (es : List ι) : Server ι H := Machine.run (step pam) s es

theorem conn_step_self (pam : Pam) (s : Server ι H) (i : ι) :
    (s.step pam i).conn i = ((s.conn i).step pam s.world).1 :=
  Function.update_self ..

theorem conn_step_of_ne (pam : Pam) (s : Server ι H) {i j : ι} (h : j ≠ i) :
    (s.step pam i).conn j = s.conn j :=
  Function.update_of_ne h ..

end Server

end Daemon
