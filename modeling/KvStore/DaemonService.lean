/-
**What the daemon is to its clients.**

A client writes a line and reads an answer.  In between, the line is taken apart, turned into a message,
handed to the module and turned into a text again; and the daemon itself saves the store to a file when
it is told to and when it stops, and reads the file when it starts.

This module says what all of that amounts to: a map from keys to values of at most 63 bytes, which can be
saved (`KvStore/DaemonRegistry.lean`), and one answer for each operation on it.  The texts of the answers
are those of the source.  Failures are part of it: a message that does not reach the module has no
effect, one whose answer is lost has one all the same, and an addition without memory changes nothing.

Main definitions:

* `Daemon.Parsed`, `Daemon.parseCommand` — what a line asks for;
* `Daemon.operate` — an operation on the map, with the answer;
* `Daemon.Site` — a machine with the daemon on it: what it does with a line, and when the daemon stops
  or starts and the module is loaded again;
* `Daemon.site`, `Daemon.registrySite` — the code, and the map that can be saved.

Main results:

* `Daemon.parseAndHandleCommand_eq_task` — the parser on its own;
* `Daemon.service_refines` — **the daemon is a map that can be saved**;
* `Daemon.restarts_invisible` — **a restart does not show**, unless the map was empty.
-/

import KvStore.DaemonRegistry
import KvStore.DaemonWrite
import Mathlib.Data.List.ReduceOption

set_option relaxedAutoImplicit false
set_option autoImplicit false

namespace Daemon

open CMem Text Interleave KvHash KvIoctl Service
open Benchmark (getReply)

variable {H : HashFn}

/-! ### Lines -/

/-- What a line asks for: nothing that is left to do, a snapshot, or an operation on a key. -/
inductive Parsed
  | answered (answer : List UInt8) (authenticated : Bool)
  | snapshot
  | operation (cmd : Cmd) (key : HashKey) (value : List UInt8)
deriving DecidableEq

/-- A line that asks for an operation, or is refused. -/
def parseOperation (operation rest : List UInt8) : Parsed :=
  match token rest with
  | none => .answered (ascii "Invalid command format. Expected: kv <operation> <key> ") true
  | some (key, rest) =>
      match commandOf operation (commandValue rest) with
      | .error answer => .answered answer true
      | .ok cmd =>
          match parseKey key with
          | none => .answered (ascii "Invalid key: expected unsigned integer\n") true
          | some key => .operation cmd key (commandValue rest)

/-- What a line asks for, on a connection that is authenticated or not. -/
def parseCommand (pam : Pam) (command : List UInt8) (authenticated : Bool) : Parsed :=
  match token command with
  | none => .answered (ascii "Invalid command format. Expected: kv <operation> ...\n") authenticated
  | some (operation, rest) =>
      if operation = ascii "AUTH" then
        .answered (handleAuth pam rest).1 (authenticated || (handleAuth pam rest).2)
      else if !authenticated then .answered (ascii "Connection not authenticated!\n") authenticated
      else if operation = ascii "KV_SNAPSHOT" then .snapshot
      else parseOperation operation rest

/-- What is then left to do. -/
def Parsed.task (env : CommandEnv) : Parsed → Task (List UInt8 × Bool)
  | .answered answer authenticated => .ret (answer, authenticated)
  | .snapshot => do
      doKvSnapshotToFile env.snapshot
      return (ascii "Snap", true)
  | .operation cmd key value => do
      let r ← sysIoctl env (.message cmd (requestMessage key value))
      return (ioctlReply cmd (requestMessage key value) r, true)

theorem doKvOperation_eq {keyText : List UInt8} {key : HashKey} (h : parseKey keyText = some key)
    (env : CommandEnv) (cmd : Cmd) (value : List UInt8) :
    (doKvOperation (sysIoctl env) cmd keyText value >>= fun answer => .ret (answer, true)) =
      (Parsed.operation cmd key value).task env := by
  have hreply : ∀ r : ℤ × Ioctl,
      ((if r.1 < 0 then (.ret (ascii "ioctl failed") : Task (List UInt8))
          else .ret (response cmd (message (requestMessage key value) r.2))) >>= fun answer =>
        .ret (answer, true)) = .ret (ioctlReply cmd (requestMessage key value) r, true) := by
    intro r
    unfold ioctlReply
    split
    · rfl
    · rfl
  unfold doKvOperation
  rw [h]
  exact congrArg (Prog.call _) (funext hreply)

/-- **The parser on its own.**  What a command does is decided by what its line asks for. -/
theorem parseAndHandleCommand_eq_task (env : CommandEnv) (pam : Pam) (command : List UInt8)
    (authenticated : Bool) :
    parseAndHandleCommand env pam command authenticated =
      (parseCommand pam command authenticated).task env := by
  unfold parseAndHandleCommand parseCommand
  cases token command with
  | none => rfl
  | some first =>
      obtain ⟨operation, rest⟩ := first
      dsimp only
      by_cases hauth : operation = ascii "AUTH"
      · rw [if_pos hauth, if_pos hauth]
        rfl
      · rw [if_neg hauth, if_neg hauth]
        cases authenticated with
        | false => rfl
        | true =>
            have hpass : ¬ (!true) = true := Bool.false_ne_true
            rw [if_neg hpass, if_neg hpass]
            by_cases hsnap : operation = ascii "KV_SNAPSHOT"
            · rw [if_pos hsnap, if_pos hsnap]
              rfl
            · rw [if_neg hsnap, if_neg hsnap]
              unfold parseOperation
              cases token rest with
              | none => rfl
              | some second =>
                  obtain ⟨key, rest⟩ := second
                  dsimp only
                  cases commandOf operation (commandValue rest) with
                  | error answer => rfl
                  | ok cmd =>
                      dsimp only
                      cases hkey : parseKey key with
                      | none =>
                          unfold doKvOperation
                          rw [hkey]
                          rfl
                      | some k => exact doKvOperation_eq hkey env cmd (commandValue rest)

/-- A word, a blank and a key: the word says what is asked for, and what follows is the value. -/
theorem parseCommand_operation (pam : Pam) {operation keyText rest : List UInt8} {cmd : Cmd}
    {key : HashKey} (hop : TakesKey operation) (hnum : Numeral keyText)
    (hrest : ∀ b ∈ rest.head?, isSpace b = true)
    (hcmd : commandOf operation (commandValue rest) = .ok cmd) (hkey : parseKey keyText = some key) :
    parseCommand pam (operation ++ 32 :: (keyText ++ rest)) true =
      .operation cmd key (commandValue rest) := by
  have hfirst : token (operation ++ 32 :: (keyText ++ rest)) = some (operation, 32 :: (keyText ++ rest)) := by
    refine token_append hop.nonempty hop.isToken.noSpace ?_
    rintro b ⟨⟩
    rfl
  have hsecond : token (32 :: (keyText ++ rest)) = some (keyText, rest) := by
    rw [token_blank]
    exact token_append hnum.1 (isToken_of_numeral hnum).noSpace hrest
  have hpass : ¬ (!true) = true := Bool.false_ne_true
  unfold parseCommand
  rw [hfirst]
  dsimp only
  rw [if_neg hop.notAuth, if_neg hpass, if_neg hop.notSnapshot, parseOperation, hsecond]
  dsimp only
  rw [hcmd]
  dsimp only
  rw [hkey]

/-- What a choice of the menu asks for. -/
theorem Choice.Asks.parseCommand {key : HashKey} {c : Choice} {cmd : Cmd} {keyText value : List UInt8}
    (h : c.Asks key cmd keyText value) (pam : Pam) :
    parseCommand pam c.command true = .operation cmd key value := by
  have hkey : ∀ j, Daemon.parseKey (typedKey j key) = some key := fun j => parseKey_typedKey j key
  have hvalued : ∀ {operation : List UInt8} {j : ℕ}, TakesKey operation → IsValue value →
      commandOf operation value = .ok cmd →
        Daemon.parseCommand pam (operation ++ 32 :: (typedKey j key ++ 32 :: value)) true =
          .operation cmd key value := by
    intro operation j hop hv hcmd
    have hvalue := commandValue_blank hv.line
    have hblank : ∀ b ∈ (32 :: value).head?, isSpace b = true := by
      rintro b ⟨⟩
      rfl
    have hparse := parseCommand_operation pam hop (numeral_typedKey j key) hblank
      (hvalue.symm ▸ hcmd) (hkey j)
    rw [hvalue] at hparse
    exact hparse
  have hbare : ∀ {operation : List UInt8} {j : ℕ} {cmd : Cmd}, TakesKey operation →
      commandOf operation [] = .ok cmd →
        Daemon.parseCommand pam (operation ++ 32 :: typedKey j key) true = .operation cmd key [] := by
    intro operation j cmd hop hcmd
    have hend : ∀ b ∈ ([] : List UInt8).head?, isSpace b = true := by
      rintro b ⟨⟩
    have hparse := parseCommand_operation pam hop (numeral_typedKey j key) hend hcmd (hkey j)
    rw [List.append_nil] at hparse
    exact hparse
  cases h with
  | insert j hv =>
      have hcmd : commandOf (ascii "KV_INSERT") value = .ok .kvInsert := by
        rw [commandOf, if_pos rfl, if_neg hv.nonempty]
      rw [← hvalued (by decide) hv hcmd, Choice.command, List.append_assoc]
      rfl
  | update j hv =>
      have hcmd : commandOf (ascii "KV_UPDATE") value = .ok .kvUpdate := by
        rw [commandOf, if_neg (by decide), if_neg (by decide), if_neg (by decide), if_pos rfl,
          if_neg hv.nonempty]
      rw [← hvalued (by decide) hv hcmd, Choice.command, List.append_assoc]
      rfl
  | get j =>
      have hop : TakesKey (ascii "KV_GET") := by decide
      exact hbare hop rfl
  | delete j =>
      have hop : TakesKey (ascii "KV_DELETE") := by decide
      exact hbare hop rfl

/-- What follows `AUTH` is for PAM. -/
theorem parseCommand_auth (pam : Pam) (rest : List UInt8) (authenticated : Bool) :
    parseCommand pam (ascii "AUTH" ++ 32 :: rest) authenticated =
      .answered (handleAuth pam rest).1 (authenticated || (handleAuth pam rest).2) := by
  have hauth : IsToken (ascii "AUTH") := by decide
  have hfirst : token (ascii "AUTH" ++ 32 :: rest) = some (ascii "AUTH", 32 :: rest) := by
    refine token_append (by decide) hauth.noSpace ?_
    rintro b ⟨⟩
    rfl
  unfold parseCommand
  rw [hfirst]
  dsimp only
  rw [if_pos rfl, handleAuth_blank]

/-! ### Operations on a map -/

/-- What the map owes to a message. -/
def messageSpec (alloc : Alloc) (cmd : Cmd) (arg : KvMessage) (m : KvMap) : Answer × KvMap :=
  match cmd with
  | .kvInsert => insertSpec alloc arg m
  | .kvUpdate => updateSpec alloc arg m
  | .kvGet => getSpec arg m
  | .kvDelete => deleteSpec arg m
  | .unknown _ => (.error (-EINVAL), m)

/-- What the client is told: the value, or what the status says. -/
def answerText (cmd : Cmd) (key : HashKey) : Answer → List UInt8
  | .value v => getReply key (cstr v).1
  | .status st => response cmd { KvMessage.zero with key := key, status := st }
  | _ => ascii "ioctl failed"

/-- An operation on the map: the answer, and the map that it leaves.  A message that is lost on its way
to the module has no effect, and one that is lost on its way back has one. -/
def operate (env : CommandEnv) (cmd : Cmd) (key : HashKey) (value : List UInt8) (m : KvMap) :
    List UInt8 × KvMap :=
  if !env.kernel.copyFromUser then (ascii "ioctl failed", m)
  else
    let r := messageSpec env.alloc cmd (requestMessage key value) m
    (if env.kernel.copyToUser then answerText cmd key r.1 else ascii "ioctl failed", r.2)

/-- What the client is told is in the message that comes back. -/
theorem response_eq_answerText (cmd : Cmd) (msg : KvMessage) :
    response cmd msg = answerText cmd msg.key (answer (0, .message cmd msg)) := by
  by_cases hget : cmd = .kvGet ∧ msg.status = 0
  · obtain ⟨rfl, hstatus⟩ := hget
    simp only [answer, hstatus, and_self, if_true, ne_eq, not_true_eq_false, if_false, answerText,
      response, getReply, List.append_assoc]
    rfl
  · simp only [answer, if_neg hget, ne_eq, not_true_eq_false, if_false, answerText]
    cases cmd with
    | kvGet =>
        have hstatus : msg.status ≠ 0 := fun h => hget ⟨rfl, h⟩
        simp only [response, if_neg hstatus]
    | kvInsert => rfl
    | kvUpdate => rfl
    | kvDelete => rfl
    | unknown n => rfl

/-- The handlers keep the key of the message. -/
theorem key_run_dispatch (env : KernelEnv) (alloc : Alloc) (cmd : Cmd) (msg : KvMessage) (s : Store H) :
    ((dispatch env cmd msg).run (exec alloc) s).1.2.key = msg.key := by
  cases cmd with
  | kvInsert => exact key_dispatch env alloc .insert msg s
  | kvUpdate => exact key_dispatch env alloc .update msg s
  | kvGet =>
      rw [dispatch, run_handleGet]
      cases s.get msg.key with
      | none => rfl
      | some v =>
          dsimp only
          split
          · rfl
          · rfl
  | kvDelete =>
      rw [dispatch, run_handleDelete]
      dsimp only
      split
      · rfl
      · rfl
  | unknown n => rfl

/-- The handlers do what the map owes to the message. -/
theorem meets_dispatch {s : Store H} {m : KvMap} (h : Holds s m) (env : KernelEnv) (alloc : Alloc)
    {cmd : Cmd} (hcmd : ∀ n, cmd ≠ .unknown n) {arg : KvMessage} (hnul : 0 ∈ arg.value.1) :
    Meets cmd ((dispatch env cmd arg).run (exec alloc) s) (messageSpec alloc cmd arg m) := by
  cases cmd with
  | kvInsert => exact meets_handleInsert h env alloc hnul
  | kvUpdate => exact meets_handleUpdate h env alloc hnul
  | kvGet => exact meets_handleGet h alloc arg
  | kvDelete => exact meets_handleDelete h alloc arg
  | unknown n => exact absurd rfl (hcmd n)

/-- **An operation of a client** does to the store what it does to the map, and is answered as by the
map. -/
theorem ioctl_operate (env : CommandEnv) (cmd : Cmd) (key : HashKey) (value : List UInt8) {s : Store H}
    {m : KvMap} (h : Holds s m) :
    let r := ioctl ⟨env.kernel, env.alloc, .message cmd (requestMessage key value)⟩ s
    ioctlReply cmd (requestMessage key value) r.1 = (operate env cmd key value m).1 ∧
      Holds r.2 (operate env cmd key value m).2 := by
  have hfault : -EFAULT < 0 := by decide
  have hinval : -EINVAL < 0 := by decide
  intro r
  have hr : r = ioctl ⟨env.kernel, env.alloc, .message cmd (requestMessage key value)⟩ s := rfl
  rw [ioctl_message rfl] at hr
  unfold operate
  cases hin : env.kernel.copyFromUser with
  | false =>
      simp only [hin, if_true] at hr
      rw [hr]
      exact ⟨if_pos hfault, h⟩
  | true =>
      simp only [hin, Bool.true_eq_false, if_false] at hr
      have hret := run_dispatch_ret env.kernel env.alloc cmd (requestMessage key value) s
      by_cases hcmd : ∀ n, cmd ≠ .unknown n
      · have hmeets := meets_dispatch h env.kernel env.alloc hcmd (zero_mem_requestMessage key value)
        have hzero :
            ((dispatch env.kernel cmd (requestMessage key value)).run (exec env.alloc) s).1.1 = 0 := by
          rw [hret]
          cases cmd with
          | unknown n => exact absurd rfl (hcmd n)
          | _ => rfl
        rw [hzero, if_neg (lt_irrefl 0)] at hr
        cases hout : env.kernel.copyToUser with
        | false =>
            simp only [hout, if_true] at hr
            rw [hr]
            exact ⟨if_pos hfault, hmeets.2⟩
        | true =>
            simp only [hout, Bool.true_eq_false, if_false] at hr
            rw [hr]
            refine ⟨?_, hmeets.2⟩
            have hkey := key_run_dispatch env.kernel env.alloc cmd (requestMessage key value) s
            rw [ioctlReply, if_neg (lt_irrefl 0)]
            rw [message, response_eq_answerText, hmeets.1, hkey]
            rfl
      · obtain ⟨n, hn⟩ := not_forall.1 hcmd
        obtain rfl := not_not.1 hn
        simp only [hret, hinval, if_true] at hr
        rw [hr]
        refine ⟨?_, h⟩
        rw [ioctlReply, if_pos hinval]
        cases env.kernel.copyToUser with
        | false => rfl
        | true => rfl

/-- An operation touches one key. -/
theorem keys_operate_subset (env : CommandEnv) (cmd : Cmd) (key : HashKey) (value : List UInt8)
    (m : KvMap) : (operate env cmd key value m).2.keys ⊆ insert key m.keys := by
  have hsame : m.keys ⊆ insert key m.keys := Finset.subset_insert ..
  have hadd : ∀ v : CStr, (m.insert key v).keys ⊆ insert key m.keys := by
    intro v k hk
    rw [Finmap.mem_keys, Finmap.mem_insert] at hk
    rw [Finset.mem_insert, Finmap.mem_keys]
    exact hk
  have herase : (m.erase key).keys ⊆ insert key m.keys := by
    rw [Finmap.keys_erase]
    exact (Finset.erase_subset ..).trans hsame
  unfold operate
  split
  · exact hsame
  · cases cmd with
    | kvInsert =>
        dsimp only [messageSpec, insertSpec]
        split
        · exact hsame
        · split
          · exact hadd _
          · exact hsame
    | kvUpdate =>
        dsimp only [messageSpec, updateSpec]
        split
        · split
          · exact hadd _
          · exact hsame
        · exact hsame
    | kvGet =>
        dsimp only [messageSpec, getSpec]
        split
        · exact hsame
        · exact hsame
    | kvDelete =>
        dsimp only [messageSpec, deleteSpec]
        split
        · exact herase
        · exact hsame
    | unknown n => exact hsame

/-! ### Machines with the daemon on them -/

/-- A machine with the daemon on it: what is done with a line on a connection that is authenticated or
not, what the daemon does when it stops and when it starts, and what becomes of it when the module is
unloaded and loaded again. -/
structure Site (S : Type) where
  command : CommandEnv → List UInt8 → Bool → S → (List UInt8 × Bool) × S
  stop : SnapshotEnv → S → S
  reload : S → S
  start : { env : RestoreEnv // env.Inserts } → S → S

/-- The daemon and the module. -/
def site (H : HashFn) (pam : Pam) : Site (World H) where
  command := fun env command authenticated w =>
    (parseAndHandleCommand env pam command authenticated).run (sysExec ()) w
  stop := fun env w => ((doKvSnapshotToFile env).run (sysExec ()) w).2
  reload := World.reload
  start := fun env w => ((doKvRestoreFromFile env.1).run (sysExec ()) w).2

/-- A snapshot of the map, if nothing fails. -/
def Registry.snapshot (env : SnapshotEnv) (r : Registry) : Registry := if env.Succeeds then r.save else r

/-- What the map owes to what a line asks for. -/
def Registry.command (env : CommandEnv) (r : Registry) : Parsed → (List UInt8 × Bool) × Registry
  | .answered answer authenticated => ((answer, authenticated), r)
  | .snapshot => ((ascii "Snap", true), r.snapshot env.snapshot)
  | .operation cmd key value =>
      let o := operate env cmd key value r.live
      ((o.1, true), { r with live := o.2 })

/-- A map that can be saved. -/
def registrySite (pam : Pam) : Site Registry where
  command := fun env command authenticated r => r.command env (parseCommand pam command authenticated)
  stop := Registry.snapshot
  reload := Registry.forget
  start := fun _ => Registry.restore

/-- What happens to the machine: somebody connects, or writes a line; the daemon stops; the module is
loaded again; the daemon starts. -/
inductive Event (ι : Type)
  | connect (i : ι)
  | command (i : ι) (env : CommandEnv) (command : List UInt8)
  | stop (env : SnapshotEnv)
  | reload
  | start (env : { env : RestoreEnv // env.Inserts })

section Events

variable {ι : Type} [DecidableEq ι] {S : Type}

/-- An event: the answer if there is one, what it leaves, and which connections are authenticated.  When
the daemon starts there are no connections. -/
def Site.step (D : Site S) (e : Event ι) (s : S × (ι → Bool)) : Option (List UInt8) × S × (ι → Bool) :=
  match e with
  | .connect i => (none, s.1, Function.update s.2 i false)
  | .command i env command =>
      let r := D.command env command (s.2 i) s.1
      (some r.1.1, r.2, Function.update s.2 i r.1.2)
  | .stop env => (none, D.stop env s.1, s.2)
  | .reload => (none, D.reload s.1, s.2)
  | .start env => (none, D.start env s.1, fun _ => false)

/-- On every connection that is used, somebody has connected before; nothing else happens. -/
def Opened : List (Event ι) → Finset ι → Prop
  | [], _ => True
  | .connect i :: es, opened => Opened es (insert i opened)
  | .command i _ _ :: es, opened => i ∈ opened ∧ Opened es opened
  | _ :: _, _ => False

/-- A time from one start of the daemon to the next: the requests, and a restart in which nothing
fails. -/
structure Day (ι : Type) [DecidableEq ι] where
  requests : List (Event ι)
  opened : Opened requests ∅
  stop : SnapshotEnv
  succeeds : stop.Succeeds
  start : { env : RestoreEnv // env.Inserts }

/-- The daemon stops, the module is loaded again, and the daemon starts. -/
def Day.restart (d : Day ι) : List (Event ι) := [.stop d.stop, .reload, .start d.start]

/-- A day with its restart. -/
def Day.events (d : Day ι) : List (Event ι) := d.requests ++ d.restart

/-- Somebody connects and writes some lines. -/
def dayOf (lines : List String) : Day Unit where
  requests := .connect () :: lines.map fun line => .command () .ok (ascii line)
  opened := by
    have hlines : ∀ lines : List String,
        Opened (lines.map fun line => Event.command () .ok (ascii line)) {()} := by
      intro lines
      induction lines with
      | nil => trivial
      | cons line lines ih => exact ⟨Finset.mem_singleton_self _, ih⟩
    exact hlines lines
  stop := .ok
  succeeds := ⟨rfl, rfl, rfl, rfl, rfl, rfl⟩
  start := ⟨.ok, fun _ => ⟨rfl, rfl⟩⟩

/-- Somebody inserts a value, and somebody deletes another key and reads the value. -/
def twoDays : List (Day Unit) :=
  [dayOf ["AUTH a b", "KV_INSERT 7 x"], dayOf ["AUTH a b", "KV_DELETE 8", "KV_GET 7"]]

/-- An event brings at most one new key. -/
theorem card_keys_step_le (pam : Pam) (e : Event ι) (r : Registry) (auth : ι → Bool) :
    ((registrySite pam).step e (r, auth)).2.1.keys.card ≤ r.keys.card + 1 := by
  have hof : ∀ {r' : Registry}, r'.keys ⊆ r.keys → r'.keys.card ≤ r.keys.card + 1 := fun h =>
    Nat.le_succ_of_le (Finset.card_le_card h)
  have hsnapshot : ∀ env, (r.snapshot env).keys ⊆ r.keys := by
    intro env
    unfold Registry.snapshot
    split
    · exact Registry.keys_save_subset
    · exact Finset.Subset.refl _
  cases e with
  | connect i => exact Nat.le_succ _
  | command i env command =>
      have hstep : ((registrySite pam).step (.command i env command) (r, auth)).2.1 =
          (r.command env (parseCommand pam command (auth i))).2 := rfl
      rw [hstep]
      cases parseCommand pam command (auth i) with
      | answered answer authenticated => exact Nat.le_succ _
      | snapshot => exact hof (hsnapshot env.snapshot)
      | operation cmd key value =>
          have hsub : Registry.keys { r with live := (operate env cmd key value r.live).2 } ⊆
              insert key r.keys := by
            refine Finset.union_subset ?_ (Finset.subset_union_right.trans (Finset.subset_insert ..))
            exact (keys_operate_subset ..).trans (Finset.insert_subset_insert _ Registry.keys_live_subset)
          exact (Finset.card_le_card hsub).trans (Finset.card_insert_le ..)
  | stop env => exact hof (hsnapshot env)
  | reload => exact hof Registry.keys_forget_subset
  | start env => exact hof Registry.keys_restore_subset

/-- **A command**, whatever its line says, does what it is to do to the map. -/
theorem realises_command {w : World H} {r : Registry} (h : Realises w r)
    (hcard : r.keys.card < 2 ^ 31) (env : CommandEnv) (pam : Pam) (command : List UInt8)
    (authenticated : Bool) :
    ((site H pam).command env command authenticated w).1 =
        ((registrySite pam).command env command authenticated r).1 ∧
      Realises ((site H pam).command env command authenticated w).2
        ((registrySite pam).command env command authenticated r).2 := by
  have hrun : (site H pam).command env command authenticated w =
      ((parseCommand pam command authenticated).task env).run (sysExec ()) w := by
    rw [← parseAndHandleCommand_eq_task]
    rfl
  have hspec : (registrySite pam).command env command authenticated r =
      r.command env (parseCommand pam command authenticated) := rfl
  rw [hrun, hspec]
  cases parseCommand pam command authenticated with
  | answered answer accepted => exact ⟨rfl, h⟩
  | snapshot =>
      rw [Parsed.task, Prog.run_bind]
      have hlive := Finset.card_le_card (Registry.keys_live_subset (r := r))
      exact ⟨rfl, h.snapshot env.snapshot (hlive.trans_lt hcard)⟩
  | operation cmd key value =>
      obtain ⟨hanswer, hholds⟩ := ioctl_operate env cmd key value h.store
      exact ⟨Prod.ext hanswer rfl, hholds, h.file⟩

/-- One event. -/
theorem realises_step {w : World H} {r : Registry} (h : Realises w r) (hcard : r.keys.card < 2 ^ 31)
    (pam : Pam) (e : Event ι) (auth : ι → Bool) :
    ((site H pam).step e (w, auth)).1 = ((registrySite pam).step e (r, auth)).1 ∧
      ((site H pam).step e (w, auth)).2.2 = ((registrySite pam).step e (r, auth)).2.2 ∧
      Realises ((site H pam).step e (w, auth)).2.1 ((registrySite pam).step e (r, auth)).2.1 := by
  cases e with
  | connect i => exact ⟨rfl, rfl, h⟩
  | command i env command =>
      obtain ⟨hanswer, hnext⟩ := realises_command h hcard env pam command (auth i)
      refine ⟨congrArg (fun a : List UInt8 × Bool => some a.1) hanswer, ?_, hnext⟩
      exact congrArg (fun a : List UInt8 × Bool => Function.update auth i a.2) hanswer
  | stop env =>
      have hlive := Finset.card_le_card (Registry.keys_live_subset (r := r))
      exact ⟨rfl, rfl, h.snapshot env (hlive.trans_lt hcard)⟩
  | reload => exact ⟨rfl, rfl, h.reload⟩
  | start env => exact ⟨rfl, rfl, h.restore env.2⟩

/-- A run of events. -/
theorem serve_realises (pam : Pam) (es : List (Event ι)) {w : World H} {r : Registry} (h : Realises w r)
    (hcard : r.keys.card + es.length ≤ 2 ^ 31) (auth : ι → Bool) :
    (serve (site H pam).step es (w, auth)).1 = (serve (registrySite pam).step es (r, auth)).1 ∧
      Realises (serve (site H pam).step es (w, auth)).2.1
        (serve (registrySite pam).step es (r, auth)).2.1 := by
  induction es generalizing w r auth with
  | nil => exact ⟨rfl, h⟩
  | cons e es ih =>
      rw [List.length_cons] at hcard
      have hle := card_keys_step_le pam e r auth
      obtain ⟨hanswer, hauth, hnext⟩ := realises_step h (by omega) pam e auth
      rw [serve_cons, serve_cons]
      generalize (site H pam).step e (w, auth) = x at hanswer hauth hnext ⊢
      generalize (registrySite pam).step e (r, auth) = y at hanswer hauth hnext hle ⊢
      obtain ⟨a, w', auth'⟩ := x
      obtain ⟨b, r', auth''⟩ := y
      obtain rfl : a = b := hanswer
      obtain rfl : auth' = auth'' := hauth
      obtain ⟨hanswers, hlast⟩ := ih hnext (by omega) auth'
      exact ⟨congrArg (a :: ·) hanswers, hlast⟩

/-- **The daemon is a map that can be saved.**  Whatever happens to the machine, from the first start of
the daemon on, each line is answered as by the map, and the store and the file hold what the map does. -/
theorem service_refines (pam : Pam) {es : List (Event ι)} (hes : es.length ≤ 2 ^ 31) :
    (serve (site H pam).step es (⟨Store.init H, none⟩, fun _ => false)).1 =
        (serve (registrySite pam).step es (.blank, fun _ => false)).1 ∧
      Realises (serve (site H pam).step es (⟨Store.init H, none⟩, fun _ => false)).2.1
        (serve (registrySite pam).step es (.blank, fun _ => false)).2.1 := by
  refine serve_realises pam es (realises_blank H) ?_ _
  have hempty : Registry.blank.keys.card = 0 := rfl
  rw [hempty, Nat.zero_add]
  exact hes

theorem twoDays_refine :
    (serve (site HashFn.module fun _ _ => true).step (twoDays.flatMap Day.events)
        (⟨Store.init HashFn.module, none⟩, fun _ => false)).1 =
        (serve (registrySite fun _ _ => true).step (twoDays.flatMap Day.events)
          (.blank, fun _ => false)).1 ∧
      Realises (serve (site HashFn.module fun _ _ => true).step (twoDays.flatMap Day.events)
          (⟨Store.init HashFn.module, none⟩, fun _ => false)).2.1
        (serve (registrySite fun _ _ => true).step (twoDays.flatMap Day.events)
          (.blank, fun _ => false)).2.1 :=
  service_refines _ (by decide)

/-! ### Restarts -/

/-- What a line does to the map does not depend on what was saved. -/
theorem command_congr (env : CommandEnv) {r r' : Registry} (h : r.live = r'.live) (p : Parsed) :
    (r.command env p).1 = (r'.command env p).1 ∧ (r.command env p).2.live = (r'.command env p).2.live := by
  have hsnapshot : ∀ q : Registry, (q.snapshot env.snapshot).live = q.live := by
    intro q
    unfold Registry.snapshot Registry.save
    split
    · split
      · rfl
      · rfl
    · rfl
  cases p with
  | answered answer authenticated => exact ⟨rfl, h⟩
  | snapshot => exact ⟨rfl, (hsnapshot r).trans (h.trans (hsnapshot r').symm)⟩
  | operation cmd key value =>
      dsimp only [Registry.command]
      rw [h]
      exact ⟨rfl, rfl⟩

theorem step_command (pam : Pam) (i : ι) (env : CommandEnv) (command : List UInt8) (r : Registry)
    (auth : ι → Bool) :
    (registrySite pam).step (.command i env command) (r, auth) =
      (let x := r.command env (parseCommand pam command (auth i))
      (some x.1.1, x.2, Function.update auth i x.1.2)) := rfl

/-- Requests are answered alike, whatever was saved, and whatever other connections are authenticated. -/
theorem serve_congr (pam : Pam) (es : List (Event ι)) {opened : Finset ι} (hes : Opened es opened)
    {r r' : Registry} (hlive : r.live = r'.live) (auth auth' : ι → Bool)
    (hauth : ∀ i ∈ opened, auth i = auth' i) :
    (serve (registrySite pam).step es (r, auth)).1 = (serve (registrySite pam).step es (r', auth')).1 ∧
      (serve (registrySite pam).step es (r, auth)).2.1.live =
        (serve (registrySite pam).step es (r', auth')).2.1.live := by
  induction es generalizing opened r r' auth auth' with
  | nil => exact ⟨rfl, hlive⟩
  | cons e es ih =>
      cases e with
      | connect i =>
          have hnext : ∀ j ∈ insert i opened,
              Function.update auth i false j = Function.update auth' i false j := by
            intro j hj
            by_cases hji : j = i
            · rw [hji, Function.update_self, Function.update_self]
            · rw [Function.update_of_ne hji, Function.update_of_ne hji]
              exact hauth j (Finset.mem_of_mem_insert_of_ne hj hji)
          obtain ⟨hanswers, hlast⟩ := ih hes hlive _ _ hnext
          exact ⟨congrArg (none :: ·) hanswers, hlast⟩
      | command i env command =>
          obtain ⟨hi, hes⟩ := hes
          obtain ⟨hanswer, hlive'⟩ := command_congr env hlive (parseCommand pam command (auth i))
          rw [serve_cons, serve_cons]
          rw [step_command, step_command, ← hauth i hi]
          generalize r.command env (parseCommand pam command (auth i)) = x at hanswer hlive' ⊢
          generalize r'.command env (parseCommand pam command (auth i)) = y at hanswer hlive' ⊢
          have hnext : ∀ j ∈ opened,
              Function.update auth i x.1.2 j = Function.update auth' i y.1.2 j := by
            intro j hj
            by_cases hji : j = i
            · rw [hji, Function.update_self, Function.update_self, hanswer]
            · rw [Function.update_of_ne hji, Function.update_of_ne hji]
              exact hauth j hj
          obtain ⟨hanswers, hlast⟩ := ih hes hlive' _ _ hnext
          exact ⟨congrArg₂ List.cons (congrArg (fun a : List UInt8 × Bool => some a.1) hanswer) hanswers, hlast⟩
      | stop env => exact hes.elim
      | reload => exact hes.elim
      | start env => exact hes.elim

/-- A restart gives no answers, and leaves the map as it is, unless it is empty. -/
theorem serve_restart (pam : Pam) (d : Day ι) {r : Registry} (h : r.live.keys ≠ ∅) (auth : ι → Bool) :
    serve (registrySite pam).step d.restart (r, auth) =
      ([none, none, none], (r.save, fun _ => false)) := by
  have hsnapshot : r.snapshot d.stop = r.save := if_pos d.succeeds
  have hrestore := Registry.restore_forget_save h
  rw [← hsnapshot] at hrestore ⊢
  exact congrArg (fun q => ([none, none, none], (q, fun _ => false))) hrestore

/-- Days with restarts are like days without, as long as the map is never empty at a restart. -/
theorem serve_days (pam : Pam) (ds : List (Day ι)) {r r' : Registry} (hlive : r.live = r'.live)
    (auth auth' : ι → Bool)
    (hne : ∀ n < ds.length, (serve (registrySite pam).step ((ds.take (n + 1)).flatMap Day.requests)
      (r', auth')).2.1.live.keys ≠ ∅) :
    (serve (registrySite pam).step (ds.flatMap Day.events) (r, auth)).1.reduceOption =
      (serve (registrySite pam).step (ds.flatMap Day.requests) (r', auth')).1.reduceOption := by
  induction ds generalizing r r' auth auth' with
  | nil => rfl
  | cons d ds ih =>
      obtain ⟨hanswers, hlast⟩ := serve_congr pam d.requests d.opened hlive auth auth'
        fun i hi => absurd hi (Finset.notMem_empty i)
      have htoday := hne 0 (Nat.zero_lt_succ _)
      rw [List.take_succ_cons, List.take_zero, List.flatMap_singleton, ← hlast] at htoday
      have hcons : ∀ f : Day ι → List (Event ι), (d :: ds).flatMap f = f d ++ ds.flatMap f := fun f =>
        List.flatMap_cons
      rw [hcons, hcons, Day.events, List.append_assoc]
      simp only [serve_append_fst, List.reduceOption_append]
      have hrestart := serve_restart pam d htoday (serve (registrySite pam).step d.requests (r, auth)).2.2
      rw [Prod.mk.eta] at hrestart
      rw [hrestart, hanswers]
      have hsaved : (serve (registrySite pam).step d.requests (r, auth)).2.1.save.live =
          (serve (registrySite pam).step d.requests (r', auth')).2.1.live := by
        rw [← hlast, Registry.save, if_neg htoday]
      refine congrArg (List.reduceOption _ ++ ·) (ih hsaved _ _ fun n hn => ?_)
      have htomorrow := hne (n + 1) (Nat.succ_lt_succ hn)
      rw [List.take_succ_cons, List.flatMap_cons, serve_append_snd] at htomorrow
      exact htomorrow

theorem length_requests_le (ds : List (Day ι)) (n : ℕ) :
    ((ds.take n).flatMap Day.requests).length ≤ (ds.flatMap Day.events).length := by
  induction ds generalizing n with
  | nil => simp
  | cons d ds ih =>
      cases n with
      | zero => exact Nat.zero_le _
      | succ n =>
          have hrest := ih n
          simp only [List.take_succ_cons, List.flatMap_cons, List.length_append, Day.events]
          omega

/-- **A restart does not show.**  If the store is never empty when the daemon stops, the answers are those
of a daemon that never stops. -/
theorem restarts_invisible (pam : Pam) {days : List (Day ι)}
    (hlen : (days.flatMap Day.events).length ≤ 2 ^ 31)
    (hne : ∀ n < days.length, (serve (site H pam).step ((days.take (n + 1)).flatMap Day.requests)
      (⟨Store.init H, none⟩, fun _ => false)).2.1.store.1.entries ≠ []) :
    (serve (site H pam).step (days.flatMap Day.events)
        (⟨Store.init H, none⟩, fun _ => false)).1.reduceOption =
      (serve (site H pam).step (days.flatMap Day.requests)
        (⟨Store.init H, none⟩, fun _ => false)).1.reduceOption := by
  have hrequests : ∀ n, ((days.take n).flatMap Day.requests).length ≤ 2 ^ 31 := fun n =>
    (length_requests_le days n).trans hlen
  have hall := hrequests days.length
  rw [List.take_length] at hall
  have hblank : ∀ {es : List (Event ι)}, es.length ≤ 2 ^ 31 → Registry.blank.keys.card + es.length ≤ 2 ^ 31 :=
    fun h => (Nat.zero_add _).trans_le h
  rw [(serve_realises pam _ (realises_blank H) (hblank hlen) _).1,
    (serve_realises pam _ (realises_blank H) (hblank hall) _).1]
  refine serve_days pam days rfl _ _ fun n hn hempty => hne n hn ?_
  have hrealises := (serve_realises pam _ (realises_blank H) (hblank (hrequests (n + 1))) fun _ => false).2
  exact (entries_eq_nil_iff hrealises.store).2 hempty

theorem twoDays_invisible :
    (serve (site HashFn.module fun _ _ => true).step (twoDays.flatMap Day.events)
        (⟨Store.init HashFn.module, none⟩, fun _ => false)).1.reduceOption =
      (serve (site HashFn.module fun _ _ => true).step (twoDays.flatMap Day.requests)
        (⟨Store.init HashFn.module, none⟩, fun _ => false)).1.reduceOption := by
  refine restarts_invisible _ (by decide) fun n hn hempty => ?_
  have hlen : ∀ n < 2, ((twoDays.take (n + 1)).flatMap Day.requests).length ≤ 2 ^ 31 := by decide
  have hne : ∀ n < 2, (serve (registrySite fun _ _ => true).step
      ((twoDays.take (n + 1)).flatMap Day.requests) (.blank, fun _ => false)).2.1.live.keys ≠ ∅ := by decide
  have hrealises := (serve_realises (fun _ _ => true) _ (realises_blank HashFn.module)
    ((Nat.zero_add _).trans_le (hlen n hn)) fun _ => false).2
  exact hne n hn ((entries_eq_nil_iff hrealises.store).1 hempty)

end Events

end Daemon
