/-
**Acknowledged writes.**

A value passes three limits on its way into the store: the 1023 bytes of a `read` of the daemon, the 63
bytes that `strncpy` copies into the message, and the 64 bytes of the field in the message with its
terminator.  The last two agree, so whatever the daemon has put into a message is stored and found
again.  But the first is far above them, and nothing is said about what `strncpy` leaves out: a longer
value is cut to its first 63 bytes, and the client is told that the write has succeeded.

This module follows one write of a client, from the text of its command to the answer, then any
operations of others on other keys, and then a `KV_GET` of the key.

Main definitions:

* `Daemon.Write` — a `KV_INSERT` or a `KV_UPDATE` that fits into one read;
* `Daemon.SysOp.Spares` — a system call that does not concern a key;
* `Daemon.StoredInFull` — an acknowledged value is read back, and one that is too long is refused;
* `Daemon.CutShort` — a part of a value is stored.

Main results:

* `Daemon.run_doKvOperation` — an operation of the daemon, as the module sees it;
* `Daemon.storedInFull_iff` — **the writes that are stored in full or refused**.
-/

import KvStore.DaemonParse
import KvStore.Benchmark

set_option relaxedAutoImplicit false
set_option autoImplicit false

namespace Daemon

open CMem Text Interleave KvHash KvIoctl
open Benchmark (getReply updateReply)

variable {H : HashFn}

/-! ### Operations as the module sees them -/

/-- The answer of `do_kv_operation` when the ioctl with the message `arg` has returned `r`. -/
def ioctlReply (cmd : Cmd) (arg : KvMessage) (r : ℤ × Ioctl) : List UInt8 :=
  if r.1 < 0 then ascii "ioctl failed" else response cmd (message arg r.2)

/-- An operation is one ioctl. -/
theorem run_doKvOperation (env : CommandEnv) (cmd : Cmd) {text : List UInt8} {key : HashKey}
    (hkey : parseKey text = some key) (value : List UInt8) (w : World H) :
    (doKvOperation (sysIoctl env) cmd text value).run (sysExec ()) w =
      (ioctlReply cmd (requestMessage key value)
          (ioctl ⟨env.kernel, env.alloc, .message cmd (requestMessage key value)⟩ w.store).1,
        { w with
          store :=
            (ioctl ⟨env.kernel, env.alloc, .message cmd (requestMessage key value)⟩ w.store).2 }) := by
  unfold doKvOperation
  rw [hkey]
  dsimp only
  rw [Prog.run_bind, sysIoctl, Prog.run_call, Prog.run_ret, sysExec]
  dsimp only
  unfold ioctlReply
  split
  · rfl
  · rfl

/-- An operation that was chosen in the menu, on an authenticated connection. -/
theorem run_choice {key : HashKey} {c : Choice} {cmd : Cmd} {keyText value : List UInt8}
    (h : c.Asks key cmd keyText value) {chunk : Chunk} (hchunk : chunk.1 = c.command)
    (env : CommandEnv) (pam : Pam) (w : World H) :
    (parseAndHandleCommand env pam chunk.command true).run (sysExec ()) w =
      ((ioctlReply cmd (requestMessage key value)
          (ioctl ⟨env.kernel, env.alloc, .message cmd (requestMessage key value)⟩ w.store).1, true),
        { w with
          store :=
            (ioctl ⟨env.kernel, env.alloc, .message cmd (requestMessage key value)⟩ w.store).2 }) := by
  rw [h.chunk_command hchunk, ← parseAndHandleCommandWith_doKvOperation, h.parse, Prog.run_bind,
    run_doKvOperation env cmd h.parseKey]
  rfl

/-- A value that fits is found by `KV_GET`. -/
theorem ioctlReply_get {c : IoctlCall} {key : HashKey}
    (hc : c.ioctl = .message .kvGet (requestMessage key [])) (hin : c.env.copyFromUser = true)
    (hout : c.env.copyToUser = true) {s : Store H} {v : CStr} (hget : s.get key = some v)
    (hlen : v.1.length ≤ 63) :
    ioctlReply .kvGet (requestMessage key []) (ioctl c s).1 = getReply key v.1 := by
  have hlt : v.1.length < MAX_VALUE_LEN := Nat.lt_succ_of_le hlen
  have hcstr : cstr (memcpy (zeros MAX_VALUE_LEN) (v.1 ++ [0])).1 = v := by
    have hread := cstr_memcpy_zeros hlt []
    rwa [List.append_nil] at hread
  have hmsg : (requestMessage key []).key = key := rfl
  rw [ioctl_message_ok hc nofun hin hout, dispatch, run_handleGet, hmsg, hget]
  simp only [if_pos hlt, ioctlReply, message, response, lt_irrefl, if_false, if_true, hcstr]
  simp only [getReply, List.append_assoc]
  rfl

/-! ### Writes -/

/-- The operations that write a value. -/
inductive WriteOp
  | insert
  | update

namespace WriteOp

def cmd : WriteOp → Cmd
  | insert => .kvInsert
  | update => .kvUpdate

def choice (op : WriteOp) (key value : List UInt8) : Choice :=
  match op with
  | insert => .insert key value
  | update => .update key value

/-- The acknowledgement. -/
def reply (op : WriteOp) (key : HashKey) : List UInt8 :=
  match op with
  | insert => ascii "INSERT(\"" ++ keyStr key ++ ascii "\") succeeded\n"
  | update => updateReply key

theorem cmd_cases (op : WriteOp) : op.cmd = .kvInsert ∨ op.cmd = .kvUpdate := by
  cases op with
  | insert => exact .inl rfl
  | update => exact .inr rfl

end WriteOp

/-- A command that writes a value, as it is typed into the menu; it fits into one read. -/
structure Write where
  op : WriteOp
  /-- the number of zeros in front of the key -/
  zeros : ℕ
  key : HashKey
  value : List UInt8
  isValue : IsValue value
  fits : (op.choice (typedKey zeros key) value).command.length ≤ 1023

namespace Write

/-- What the daemon reads. -/
def chunk (a : Write) : Chunk where
  val := (a.op.choice (typedKey a.zeros a.key) a.value).command
  property := by
    refine ⟨?_, a.fits⟩
    cases a.op with
    | insert => exact nofun
    | update => exact nofun

/-- The command on an authenticated connection: the answer, and what it leaves. -/
def run (a : Write) (pam : Pam) (env : CommandEnv) (w : World H) : List UInt8 × World H :=
  let r := (parseAndHandleCommand env pam a.chunk.command true).run (sysExec ()) w
  (r.1.1, r.2)

/-- The message of its ioctl. -/
def message (a : Write) : KvMessage := requestMessage a.key a.value

/-- Its ioctl. -/
def call (a : Write) (env : CommandEnv) : IoctlCall :=
  ⟨env.kernel, env.alloc, .message a.op.cmd a.message⟩

theorem asks (a : Write) :
    (a.op.choice (typedKey a.zeros a.key) a.value).Asks a.key a.op.cmd (typedKey a.zeros a.key)
      a.value := by
  cases a.op with
  | insert => exact .insert a.zeros a.isValue
  | update => exact .update a.zeros a.isValue

/-- A write is one ioctl. -/
theorem run_eq (a : Write) (pam : Pam) (env : CommandEnv) (w : World H) :
    a.run pam env w =
      (ioctlReply a.op.cmd a.message (ioctl (a.call env) w.store).1,
        { w with store := (ioctl (a.call env) w.store).2 }) := by
  rw [run, run_choice a.asks rfl]
  rfl

end Write

/-! ### When a write is acknowledged -/

/-- Status 0 is acknowledged, and nothing else is. -/
theorem response_eq_reply_iff (op : WriteOp) (msg : KvMessage) :
    response op.cmd msg = op.reply msg.key ↔ msg.status = 0 := by
  have hcall : ∀ name : String, ascii name ++ ascii "(\"" ++ keyStr msg.key ++ ascii "\") succeeded\n" =
      (ascii name ++ ascii "(\"" ++ keyStr msg.key ++ ascii "\")") ++ ascii " succeeded\n" := by
    intro name
    rw [List.append_assoc _ (ascii "\")")]
    rfl
  constructor
  · intro h
    by_contra hstatus
    cases op with
    | insert =>
        simp only [WriteOp.cmd, response, if_neg hstatus] at h
        refine absurd (h.trans (hcall "INSERT")) ?_
        split
        · exact failed_ne_succeeded _ _
        · rw [List.append_assoc (ascii " failed (status=")]
          exact failed_ne_succeeded _ _
    | update =>
        simp only [WriteOp.cmd, response, if_neg hstatus] at h
        refine absurd (h.trans (hcall "UPDATE")) ?_
        rw [List.append_assoc (ascii " failed (status=")]
        exact failed_ne_succeeded _ _
  · intro hstatus
    cases op with
    | insert =>
        simp only [WriteOp.cmd, response, if_pos hstatus]
        exact (hcall "INSERT").symm
    | update =>
        simp only [WriteOp.cmd, response, if_pos hstatus]
        exact (hcall "UPDATE").symm

theorem ioctlFailed_ne_reply (op : WriteOp) (key : HashKey) : ascii "ioctl failed" ≠ op.reply key := by
  cases op with
  | insert =>
      intro h
      exact absurd (List.cons.inj h).1 (by decide)
  | update =>
      intro h
      exact absurd (List.cons.inj h).1 (by decide)

/-- The handlers keep the key of the message. -/
theorem key_dispatch (env : KernelEnv) (alloc : Alloc) (op : WriteOp) (msg : KvMessage)
    (s : Store H) : ((dispatch env op.cmd msg).run (exec alloc) s).1.2.key = msg.key := by
  cases op with
  | insert =>
      rw [WriteOp.cmd, dispatch, run_handleInsert, run_addAndReply]
      split
      · rfl
      · split
        · rfl
        · rfl
  | update =>
      rw [WriteOp.cmd, dispatch, run_handleUpdate, run_addAndReply]
      split
      · split
        · rfl
        · rfl
      · rfl

/-- A call that stores a value reports success. -/
theorem status_of_stores {c : IoctlCall} {arg : KvMessage} {s : Store H} {op : WriteOp}
    (hc : c.ioctl = .message op.cmd arg) (h : c.Stores arg s) :
    ((dispatch c.env op.cmd arg).run (exec c.alloc) s).1.2.status = 0 := by
  rcases h.ioctl with ⟨hins, hf⟩ | ⟨hupd, hf⟩
  · have hcmd : op.cmd = .kvInsert := (Ioctl.message.inj (hc.symm.trans hins)).1
    rw [hcmd, dispatch, run_handleInsert, hf, if_neg Bool.false_ne_true, run_addAndReply,
      if_pos h.admits]
  · have hcmd : op.cmd = .kvUpdate := (Ioctl.message.inj (hc.symm.trans hupd)).1
    rw [hcmd, dispatch, run_handleUpdate, if_pos hf, run_addAndReply, if_pos h.admits]

namespace Write

/-- Without both copies the client is told that the ioctl has failed. -/
theorem ioctlReply_of_not_copied (a : Write) {env : CommandEnv}
    (h : ¬ (env.kernel.copyFromUser = true ∧ env.kernel.copyToUser = true)) (s : Store H) :
    ioctlReply a.op.cmd a.message (ioctl (a.call env) s).1 = ascii "ioctl failed" := by
  refine if_pos ?_
  have hfault : -EFAULT < 0 := by decide
  have hret : ((dispatch env.kernel a.op.cmd a.message).run (exec env.alloc) s).1.1 = 0 := by
    rw [run_dispatch_ret]
    cases a.op with
    | insert => rfl
    | update => rfl
  have hcall : (a.call env).ioctl = .message a.op.cmd a.message := rfl
  rw [ioctl_message hcall]
  by_cases hin : env.kernel.copyFromUser = true
  · have hout : env.kernel.copyToUser = false := by
      rw [← Bool.not_eq_true]
      exact fun hout => h ⟨hin, hout⟩
    simp only [call, hin, hret, hout, Bool.true_eq_false, if_false, lt_irrefl, if_true, hfault]
  · rw [Bool.not_eq_true] at hin
    simp only [call, hin, if_true, hfault]

/-- **A write is acknowledged** exactly if it is stored and the answer of the module is delivered. -/
theorem acknowledged_iff (a : Write) (env : CommandEnv) (s : Store H) :
    ioctlReply a.op.cmd a.message (ioctl (a.call env) s).1 = a.op.reply a.key ↔
      env.kernel.copyToUser = true ∧ (a.call env).Stores a.message s := by
  have hcall : (a.call env).ioctl = .message a.op.cmd a.message := rfl
  have hknown : ∀ n, a.op.cmd ≠ .unknown n := by
    cases a.op with
    | insert => exact nofun
    | update => exact nofun
  by_cases hcopies : env.kernel.copyFromUser = true ∧ env.kernel.copyToUser = true
  · have hioctl := ioctl_message_ok hcall hknown hcopies.1 hcopies.2 s
    have hkey : ((dispatch env.kernel a.op.cmd a.message).run (exec env.alloc) s).1.2.key = a.key :=
      key_dispatch ..
    have hreply : ioctlReply a.op.cmd a.message (ioctl (a.call env) s).1 =
        response a.op.cmd ((dispatch env.kernel a.op.cmd a.message).run (exec env.alloc) s).1.2 := by
      rw [hioctl]
      rfl
    rw [hreply, ← hkey, response_eq_reply_iff]
    constructor
    · intro hstatus
      refine ⟨hcopies.2, stores_of_status hcall a.op.cmd_cases ?_ ?_⟩
      · rw [hioctl]
      · rw [hioctl]
        exact hstatus
    · rintro ⟨-, hstores⟩
      exact status_of_stores hcall hstores
  · rw [a.ioctlReply_of_not_copied hcopies]
    constructor
    · intro h
      exact absurd h (ioctlFailed_ne_reply a.op a.key)
    · rintro ⟨hout, hstores⟩
      exact absurd ⟨hstores.copyFromUser, hout⟩ hcopies

/-- What is stored is the value without what `strncpy` leaves out. -/
theorem get_of_stores (a : Write) {env : CommandEnv} {s : Store H}
    (h : (a.call env).Stores a.message s) (key : HashKey) :
    (ioctl (a.call env) s).2.get key =
      if key = a.key then some ((cstr a.value).truncate 63) else s.get key := by
  have hvalue : cstr a.message.value.1 = (cstr a.value).truncate 63 := by
    have hread := cstr_requestMessage a.key a.value []
    rwa [List.append_nil] at hread
  rw [get_ioctl_of_stored h (zero_mem_requestMessage ..), hvalue]
  rfl

/-- A write that is not stored changes nothing. -/
theorem get_of_not_stores (a : Write) {env : CommandEnv} {s : Store H}
    (h : ¬ (a.call env).Stores a.message s) (key : HashKey) :
    (ioctl (a.call env) s).2.get key = s.get key := by
  rcases get_ioctl_cases (a.call env) s key with hkeep | ⟨-, arg, harg, -⟩ | ⟨arg, hstores, -⟩
  · exact hkeep
  · rcases a.op.cmd_cases with hcmd | hcmd
    · rw [call, hcmd] at harg
      cases harg
    · rw [call, hcmd] at harg
      cases harg
  · have harg : arg = a.message := by
      rcases hstores.ioctl with ⟨hioctl, -⟩ | ⟨hioctl, -⟩
      · exact (Ioctl.message.inj hioctl).2.symm
      · exact (Ioctl.message.inj hioctl).2.symm
    exact absurd (harg ▸ hstores) h

end Write

/-! ### Reading it back -/

/-- A system call that is no operation on `key`. -/
def SysOp.Spares (key : HashKey) : SysOp → Prop
  | .ioctl c => ∀ cmd arg, c.ioctl = .message cmd arg → arg.key ≠ key
  | _ => True

/-- The system calls of others, one after the other. -/
def afterOthers (w : World H) (ops : List SysOp) : World H :=
  Machine.run (fun w op => (sysExec () op w).2) w ops

/-- If a write is acknowledged, a `KV_GET` answers with exactly the value that was written, as long as
there was no other operation on the key; and a value that is too long is answered with something else
than the acknowledgement and leaves the store as it is. -/
structure StoredInFull (pam : Pam) (env : CommandEnv) (a : Write) (w : World H) : Prop where
  readBack : (a.run pam env w).1 = a.op.reply a.key →
    ∀ others : List SysOp, (∀ op ∈ others, op.Spares a.key) →
      ∀ (getEnv : CommandEnv) (j : ℕ) (chunk : Chunk),
        getEnv.kernel.copyFromUser = true → getEnv.kernel.copyToUser = true →
        chunk.1 = (Choice.get (typedKey j a.key)).command →
          ((parseAndHandleCommand getEnv pam chunk.command true).run (sysExec ())
            (afterOthers (a.run pam env w).2 others)).1.1 = getReply a.key a.value
  refused : 63 < a.value.length → (a.run pam env w).1 ≠ a.op.reply a.key ∧
    ∀ key, (a.run pam env w).2.store.get key = w.store.get key

/-- The value is too long, the module stores what is left of it, and this shows: either the answer of
the module is delivered, or the key did not hold the same before. -/
structure CutShort (env : CommandEnv) (a : Write) (s : Store H) : Prop where
  long : 63 < a.value.length
  stores : (a.call env).Stores a.message s
  shows : env.kernel.copyToUser = false → s.get a.key ≠ some ((cstr a.value).truncate 63)

/-- Operations on other keys leave a key alone. -/
theorem get_afterOthers {key : HashKey} (w : World H) {ops : List SysOp}
    (h : ∀ op ∈ ops, op.Spares key) : (afterOthers w ops).store.get key = w.store.get key := by
  induction ops generalizing w with
  | nil => rfl
  | cons op ops ih =>
      have hstep : (sysExec () op w).2.store.get key = w.store.get key := by
        cases op with
        | ioctl c =>
            have hspares : SysOp.Spares key (.ioctl c) := h _ (List.mem_cons_self ..)
            rcases get_ioctl_cases c w.store key with hkeep | ⟨-, arg, harg, hkey⟩ | ⟨arg, hst, hkey⟩
            · exact hkeep
            · exact absurd hkey.symm (hspares _ arg harg)
            · rcases hst.ioctl with ⟨harg, -⟩ | ⟨harg, -⟩
              · exact absurd hkey.symm (hspares _ arg harg)
              · exact absurd hkey.symm (hspares _ arg harg)
        | truncate => rfl
        | write bytes => rfl
        | read => rfl
      have hrest := ih (sysExec () op w).2 fun op' hop' => h op' (List.mem_cons_of_mem _ hop')
      exact hrest.trans hstep

/-- A value that was typed has no terminator in it. -/
theorem Write.truncate_value (a : Write) (h : a.value.length ≤ 63) :
    ((cstr a.value).truncate 63).1 = a.value := by
  have hcstr : (cstr a.value).1 = a.value := val_cstr_of_notMem a.isValue.noNul
  rw [CStr.truncate_of_le (hcstr.symm ▸ h), hcstr]

/-- **Acknowledged writes.**  For every value that can be typed into the menu and fits into one read,
and every store: an acknowledged insertion or update is read back exactly as it was typed, and a value
of more than 63 bytes is refused and changes nothing, exactly when the value is not cut short. -/
theorem storedInFull_iff (pam : Pam) (env : CommandEnv) (a : Write) (w : World H) :
    StoredInFull pam env a w ↔ ¬ CutShort env a w.store := by
  have hrun := a.run_eq pam env w
  have hack := a.acknowledged_iff env w.store
  constructor
  · rintro hfull ⟨hlong, hstores, hshows⟩
    obtain ⟨hrefused, hsame⟩ := hfull.refused hlong
    rw [hrun] at hrefused hsame
    have hbefore : w.store.get a.key = some ((cstr a.value).truncate 63) := by
      rw [← hsame a.key, a.get_of_stores hstores, if_pos rfl]
    refine hshows ?_ hbefore
    rw [← Bool.not_eq_true]
    exact fun hout => hrefused (hack.2 ⟨hout, hstores⟩)
  · intro hcut
    refine ⟨?_, ?_⟩
    · intro hreply others hspares getEnv j chunk hin hout hchunk
      rw [hrun] at hreply
      obtain ⟨hcopy, hstores⟩ := hack.1 hreply
      have hshort : a.value.length ≤ 63 := by
        by_contra hlong
        exact hcut ⟨Nat.lt_of_not_le hlong, hstores, fun hno => absurd (hcopy.symm.trans hno) nofun⟩
      have hget : (afterOthers (a.run pam env w).2 others).store.get a.key =
          some ((cstr a.value).truncate 63) := by
        rw [get_afterOthers _ hspares, hrun]
        exact (a.get_of_stores hstores a.key).trans (if_pos rfl)
      rw [run_choice (Choice.Asks.get j) hchunk]
      dsimp only
      rw [ioctlReply_get rfl hin hout hget (List.length_take_le ..), a.truncate_value hshort]
    · intro hlong
      rw [hrun]
      by_cases hstores : (a.call env).Stores a.message w.store
      · -- the same 63 bytes are stored again, and the answer is lost
        have hlost : env.kernel.copyToUser = false ∧
            w.store.get a.key = some ((cstr a.value).truncate 63) := by
          by_contra hnot
          exact hcut ⟨hlong, hstores, fun hout hget => hnot ⟨hout, hget⟩⟩
        refine ⟨?_, fun key => ?_⟩
        · intro hreply
          exact absurd ((hack.1 hreply).1.symm.trans hlost.1) nofun
        · refine (a.get_of_stores hstores key).trans ?_
          split
          · rename_i hkey
            rw [hkey, hlost.2]
          · rfl
      · exact ⟨fun hreply => hstores (hack.1 hreply).2, fun key => a.get_of_not_stores hstores key⟩

/-- A value of 64 letters, for a key that is not in the store. -/
def longInsert : Write where
  op := .insert
  zeros := 0
  key := 7
  value := List.replicate 64 97
  isValue := ⟨by decide, by decide, by decide⟩
  fits := by decide

/-- The insertion is acknowledged, and the last letter is lost. -/
theorem longInsert_cut :
    (longInsert.run (fun _ _ => true) .ok
        (⟨Store.init _, none⟩ : World (HashFn.hash64 1 (by decide) (by decide)))).1 =
        ascii "INSERT(\"7\") succeeded\n" ∧
      ((parseAndHandleCommand .ok (fun _ _ => true) (ascii "KV_GET 7") true).run (sysExec ())
        (longInsert.run (fun _ _ => true) .ok
          (⟨Store.init _, none⟩ : World (HashFn.hash64 1 (by decide) (by decide)))).2).1.1 =
        getReply 7 (List.replicate 63 97) ∧
      ¬ StoredInFull (fun _ _ => true) .ok longInsert
        (⟨Store.init _, none⟩ : World (HashFn.hash64 1 (by decide) (by decide))) := by
  have hack : (longInsert.run (fun _ _ => true) .ok
      (⟨Store.init _, none⟩ : World (HashFn.hash64 1 (by decide) (by decide)))).1 =
        ascii "INSERT(\"7\") succeeded\n" := by
    decide +kernel
  refine ⟨hack, by decide +kernel, ?_⟩
  intro h
  exact (h.refused (by decide)).1 hack

end Daemon
