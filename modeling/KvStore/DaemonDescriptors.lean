/-
**Which socket is closed at shutdown.**

`main` of `user/daemon/daemon.cpp` keeps the number of its listening socket in a global variable, for the
handler of `SIGINT` and `SIGTERM`.  The handler closes this number to get `accept` to return, and does
not reset the variable; another signal closes the number again, and so does `kill_network` at the end of
`main`.  Meanwhile the number is free, and the process hands out the lowest number that is free: to the
file of a snapshot, which `main` itself writes on its way out, or to a connection that is still accepted.

Here the process is its descriptor table, the variables in which its threads keep their descriptors, and
where `main` is.  The threads of clients come and go, open the file of a snapshot and close it.  A signal
is delivered to any thread at any time; the thread does not go on before the handler has returned, but
all others do, and the handler may be interrupted by another signal.  An `accept` that has found the
listening socket may still return a connection after the socket was closed by another thread.  Every
system call that hands out a descriptor may fail.  The files that PAM opens are left out.

The last part of the module follows the numbers of the device and of the listening socket by the order of
the calls alone, without the table: once the listening socket was closed, the next descriptor that is
handed out has its number.

Main definitions:

* `DaemonFd.Process`, `DaemonFd.Process.step` — the process, and one step of one of its threads;
* `DaemonFd.Process.Sound` — handlers and `kill_network` have closed nothing but the listening socket;
* `DaemonFd.Orderly` — no such close has happened while the descriptor was open that was handed out
  first after the listening socket was closed.

Main results: `DaemonFd.watched_concat`, `DaemonFd.orderly_concat` — one more call.
-/

import KvStore.FdTable
import KvStore.Machine

set_option relaxedAutoImplicit false
set_option autoImplicit false

namespace DaemonFd

open FdTable

/-! ### The process -/

/-- The threads of the daemon. -/
inductive Thread (ι : Type)
  | main
  | client (i : ι)
  deriving DecidableEq

/-- What a descriptor designates. -/
inductive Object (ι : Type)
  /-- what the process was started with -/
  | inherited
  | device
  | listener
  /-- the connection of a client's thread -/
  | connection (i : ι)
  /-- the file that a thread has opened in `do_kv_snapshot_to_file` or `do_kv_restore_from_file` -/
  | file (t : Thread ι)
  deriving DecidableEq

/-- Where `main` is. -/
inductive MainStage
  /-- `init_kv` -/
  | initKv
  /-- `do_kv_restore_from_file`, before and after it has opened the file -/
  | restore
  | restoring
  /-- `init_network`, before and after it has created the socket -/
  | initNetwork
  | configure
  /-- before `shutdown_server_fd` is set -/
  | publish
  /-- `listen_network`: before the flag is read, before `accept` is called, and in `accept` -/
  | check
  | call
  | accept
  /-- `do_kv_snapshot_to_file`, before and after it has opened the file -/
  | snapshot
  | writing
  | killNetwork
  | killKv
  /-- after `kill_kv`, while the other threads still run -/
  | exiting
  | returned
  deriving DecidableEq

/-- What is done with descriptors. -/
inductive FdCall (ι : Type)
  /-- a system call has handed out a descriptor of `x` -/
  | obtain (x : Object ι)
  /-- the owner of `x` has closed the number it remembers -/
  | giveBack (x : Object ι)
  /-- a handler or `kill_network` has closed its number, which has designated `was` -/
  | closeServer (was : Option (Object ι))
  deriving DecidableEq

/-- The daemon as a process. -/
structure Process (ι : Type) where
  table : FdTable (Object ι)
  /-- the variable in which the owner of an object keeps its descriptor: `kv_fd`, `server_fd`,
  `client_fd`, and the file streams -/
  fd : Object ι → Option ℕ
  main : MainStage
  /-- `shutdown_server_fd`, `none` for -1 -/
  shutdownServerFd : Option ℕ
  shutdownRequested : Bool
  /-- how many handlers a thread is in that have yet to close `shutdown_server_fd` -/
  handlers : Thread ι → ℕ
  /-- what has been done with descriptors -/
  calls : List (FdCall ι)

/-- What happens in the process. -/
inductive FdEvent (ι : Type)
  /-- `main` goes on; a system call of it that hands out a descriptor succeeds or fails, `accept` fails -/
  | main (ok : Bool)
  /-- `accept` returns a connection, and a thread is started for it -/
  | accepted (i : ι)
  /-- a client's thread opens the file of its snapshot -/
  | openFile (i : ι)
  | closeFile (i : ι)
  /-- a client's thread closes its connection and returns -/
  | disconnect (i : ι)
  /-- a signal is delivered to a thread -/
  | signal (t : Thread ι)
  /-- the handler in which the thread is closes `shutdown_server_fd` and returns -/
  | handle (t : Thread ι)
  deriving DecidableEq

namespace Process

variable {ι : Type} [DecidableEq ι]

/-- A process that is started with some of its numbers taken. -/
def start (inherited : List Bool) : Process ι where
  table := inherited.map fun taken => if taken then some .inherited else none
  fd := fun _ => none
  main := .initKv
  shutdownServerFd := none
  shutdownRequested := false
  handlers := fun _ => 0
  calls := []

/-- A system call hands out a descriptor of `x`. -/
def obtain (s : Process ι) (x : Object ι) : Process ι :=
  { s with
    table := s.table.put x
    fd := Function.update s.fd x (some (lowest s.table))
    calls := s.calls ++ [.obtain x] }

/-- The owner of `x` closes the number it remembers, if it has one. -/
def giveBack (s : Process ι) (x : Object ι) : Process ι :=
  match s.fd x with
  | none => s
  | some n =>
      { s with
        table := close s.table n
        fd := Function.update s.fd x none
        calls := s.calls ++ [.giveBack x] }

/-- A handler or `kill_network` closes `n`. -/
def closeServer (s : Process ι) (n : ℕ) : Process ι :=
  { s with
    table := close s.table n
    calls := s.calls ++ [.closeServer (get s.table n)] }

/-- `main` goes on. -/
def stepMain (s : Process ι) (ok : Bool) : Process ι :=
  match s.main with
  | .initKv =>
      if !ok then { s with main := .returned }
      else if lowest s.table = 0 then { s.obtain .device with main := .returned }
      else { s.obtain .device with main := .restore }
  | .restore =>
      if ok then { s.obtain (.file .main) with main := .restoring } else { s with main := .initNetwork }
  | .restoring => { s.giveBack (.file .main) with main := .initNetwork }
  | .initNetwork =>
      if ok then { s.obtain .listener with main := .configure } else { s with main := .killKv }
  | .configure =>
      if ok then { s with main := .publish } else { s.giveBack .listener with main := .killKv }
  | .publish => { s with shutdownServerFd := s.fd .listener, main := .check }
  | .check => if s.shutdownRequested then { s with main := .snapshot } else { s with main := .call }
  | .call =>
      -- `accept` needs a listening socket to wait for a connection
      if (s.fd .listener).bind (get s.table) = some .listener then { s with main := .accept }
      else { s with main := .check }
  | .accept => { s with main := .check }
  | .snapshot =>
      if ok then { s.obtain (.file .main) with main := .writing } else { s with main := .killNetwork }
  | .writing => { s.giveBack (.file .main) with main := .killNetwork }
  | .killNetwork =>
      match s.fd .listener with
      | none => { s with main := .killKv }
      | some n => { s.closeServer n with main := .killKv }
  | .killKv => { s.giveBack .device with main := .exiting }
  | .exiting => { s with main := .returned }
  | .returned => s

/-- A thread to which a signal can be delivered. -/
def alive (s : Process ι) : Thread ι → Bool
  | .main => true
  | .client i => (s.fd (.connection i)).isSome

/-- A signal is delivered to `t`.  The handler sets the flag, and if it finds a descriptor it is going to
close it.  An `accept` that is interrupted is called again. -/
def signal (s : Process ι) (t : Thread ι) : Process ι :=
  { s with
    shutdownRequested := true
    main := if t = .main ∧ s.main = .accept then .call else s.main
    handlers := if s.shutdownServerFd.isSome then Function.update s.handlers t (s.handlers t + 1)
      else s.handlers }

/-- The handler in which `t` is closes `shutdown_server_fd`. -/
def handle (s : Process ι) (t : Thread ι) : Process ι :=
  match s.shutdownServerFd with
  | none => s
  | some n =>
      if s.handlers t = 0 then s
      else { s.closeServer n with handlers := Function.update s.handlers t (s.handlers t - 1) }

/-- One step of a thread.  When `main` has returned all threads are gone, and a thread that is in a
handler does nothing else. -/
def step (s : Process ι) (e : FdEvent ι) : Process ι :=
  if s.main = .returned then s
  else
    match e with
    | .main ok => if s.handlers .main = 0 then s.stepMain ok else s
    | .accepted i =>
        if s.handlers .main = 0 ∧ s.main = .accept ∧ s.fd (.connection i) = none then
          { s.obtain (.connection i) with main := .check }
        else s
    | .openFile i =>
        if s.handlers (.client i) = 0 ∧ (s.fd (.connection i)).isSome ∧
            s.fd (.file (.client i)) = none then
          s.obtain (.file (.client i))
        else s
    | .closeFile i => if s.handlers (.client i) = 0 then s.giveBack (.file (.client i)) else s
    | .disconnect i =>
        if s.handlers (.client i) = 0 ∧ s.fd (.file (.client i)) = none then
          s.giveBack (.connection i)
        else s
    | .signal t => if s.alive t then s.signal t else s
    | .handle t => s.handle t

/-- The process after some steps. -/
def run (s : Process ι) (es : List (FdEvent ι)) : Process ι := Machine.run step s es

/-- No handler, and no `kill_network`, has closed a number that designated something else than the
listening socket. -/
def Sound (s : Process ι) : Prop := ∀ x, FdCall.closeServer (some x) ∈ s.calls → x = .listener

end Process

/-! ### The order of the calls -/

section Order

variable {ι : Type} [DecidableEq ι]

/-- What the numbers of the device and of the listening socket stand for after a call, once there is a
listening socket.  What is handed out goes to the first of the two that is free. -/
def watch : Option (Cells (Object ι)) → FdCall ι → Option (Cells (Object ι))
  | none, .obtain .listener => some ⟨some .device, some .listener⟩
  | none, _ => none
  | some c, .obtain x => some (c.put x)
  | some c, .giveBack x => some (c.clear x)
  | some c, .closeServer _ => some c.closeHigh

/-- The number of the listening socket is closed only while the socket is open, or while what was handed
out first after it was closed has been given back. -/
def Permitted : Option (Cells (Object ι)) → FdCall ι → Prop
  | some c, .closeServer _ => c.high = none ∨ c.high = some .listener
  | _, _ => True

instance : (cells : Option (Cells (Object ι))) → (x : FdCall ι) → Decidable (Permitted cells x)
  | some _, .closeServer _ => inferInstanceAs (Decidable (_ ∨ _))
  | some _, .obtain _ => inferInstanceAs (Decidable True)
  | some _, .giveBack _ => inferInstanceAs (Decidable True)
  | none, _ => inferInstanceAs (Decidable True)

/-- The calls were made in a permitted order. -/
def Orderly (calls : List (FdCall ι)) : Prop := Machine.Along watch Permitted none calls

instance (calls : List (FdCall ι)) : Decidable (Orderly calls) :=
  Machine.Along.decidable watch Permitted none calls

/-- What the two numbers stand for after some calls. -/
def watched (calls : List (FdCall ι)) : Option (Cells (Object ι)) := Machine.run watch none calls

theorem watched_concat (calls : List (FdCall ι)) (x : FdCall ι) :
    watched (calls ++ [x]) = watch (watched calls) x :=
  Machine.run_concat ..

theorem orderly_concat (calls : List (FdCall ι)) (x : FdCall ι) :
    Orderly (calls ++ [x]) ↔ Orderly calls ∧ Permitted (watched calls) x := by
  unfold Orderly watched
  rw [Machine.along_append, Machine.along_cons]
  simp

end Order

end DaemonFd
