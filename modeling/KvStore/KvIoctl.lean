/-
**The ioctl interface of the kernel module.**

`kernel/kvlkm.c` hands every ioctl to one of six handlers.  Each handler is modelled as a program
over the atomic steps of the hash table (`KvStore/KvHashSteps.lean`), because that is what it is to
the other threads: `_handle_insert` looks its key up in one critical section and adds it in
another.  The four message handlers answer through the `status` and `value` fields of the message
they were handed, and the dispatcher copies that message back to the user.

What a call meets outside the table is collected in `KvIoctl.KernelEnv`: whether the copies from
and to user space succeed, the bytes that happen to lie behind the message on the kernel stack, and
the contents of freshly allocated memory.  When a copy to user space fails the user's memory is
taken to be unchanged; the caller sees `-EFAULT` and has no use for it.  Log messages (`printk`)
are left out.

Main definitions:

* `KvIoctl.handleInsert`, `KvIoctl.handleUpdate`, `KvIoctl.handleGet`, `KvIoctl.handleDelete` — the
  message handlers;
* `KvIoctl.handleKvMessage`, `KvIoctl.handleKvCount`, `KvIoctl.handleKvSnapshot` — the three kinds
  of ioctl;
* `KvIoctl.kvIoctl` — the entry point;
* `KvIoctl.IoctlCall`, `KvIoctl.ioctl` — a call with everything it meets, and its effect when it
  runs without interruption.

Main results: `KvIoctl.prog_cases` says once which steps a message handler takes, and
`KvIoctl.uses_prog` and `KvIoctl.within_prog` follow from it.  `KvIoctl.run_handleInsert`,
`KvIoctl.run_handleUpdate`, `KvIoctl.run_handleGet` and `KvIoctl.run_handleDelete` say what each
handler does when it runs without interruption, in terms of what the store holds;
`KvIoctl.run_handleKvCount` and `KvIoctl.run_handleKvSnapshot` do the same for the scans.
-/

import KvStore.KvHashSteps

set_option relaxedAutoImplicit false
set_option autoImplicit false

namespace KvIoctl

open CMem Interleave KvHash

variable {H : HashFn}

/-! ### Calls of the hash table -/

/-- `kv_hash_lookup(&kv_store, …)` into a buffer of `MAX_VALUE_LEN` bytes. -/
def lookup (key : HashKey) (outBuf : Buf MAX_VALUE_LEN) : Kernel H (ℤ × Buf MAX_VALUE_LEN) :=
  .call (.lookup key outBuf) .ret

/-- `kv_hash_add(&kv_store, …)`. -/
def add (key : HashKey) (value : List UInt8) : Kernel H ℤ := .call (.add key value) .ret

/-- `kv_hash_remove(&kv_store, …)`. -/
def remove (key : HashKey) : Kernel H ℤ := .call (.remove key) .ret

/-! ### The message handlers -/

/-- What an ioctl meets outside the table. -/
structure KernelEnv where
  /-- `copy_from_user` succeeds -/
  copyFromUser : Bool
  /-- `copy_to_user` succeeds -/
  copyToUser : Bool
  /-- the bytes behind the message on the kernel stack -/
  stack : List UInt8
  /-- an uninitialised array on the kernel stack -/
  tmp : Buf MAX_VALUE_LEN
  /-- memory is found for a snapshot -/
  kmalloc : Bool
  /-- the header of a freshly allocated snapshot -/
  heapHeader : KvSnapshotMessage
  /-- the slots of a freshly allocated snapshot -/
  heapSlot : ℕ → KvMessage

/-- Everything succeeds, and the memory around the call is zero. -/
def KernelEnv.ok : KernelEnv where
  copyFromUser := true
  copyToUser := true
  stack := [0]
  tmp := zeros MAX_VALUE_LEN
  kmalloc := true
  heapHeader := { status := 0, capacity := 0, count := 0, pad := 0, entries := [] }
  heapSlot := fun _ => KvMessage.zero

/-- A key as `%llu` prints it. -/
def llu (key : HashKey) : List UInt8 := ascii (Nat.repr key.toNat)

/-- The end of `_handle_insert` and of `_handle_update`, which differ in the text of the failure:
`kv_hash_add`, and the answer.  It is handed the value field of the message itself, not a
terminated copy of it. -/
def addAndReply (env : KernelEnv) (msg : KvMessage) (failed : List UInt8) :
    Kernel H (ℤ × KvMessage) := do
  let ret ← add msg.key (msg.value.1 ++ env.stack)
  if ret < 0 then
    return (0, { msg with status := Int32.ofInt ret, value := snprintf msg.value failed })
  return (0, { msg with status := 0 })

/-- `_handle_insert`.  The copy of the value that `strscpy` makes into `input_value` is not
used. -/
def handleInsert (env : KernelEnv) (msg : KvMessage) : Kernel H (ℤ × KvMessage) := do
  let (ret, _) ← lookup msg.key (zeros MAX_VALUE_LEN)
  if ret ≥ 0 then
    return (0, { msg with
      status := 1
      value := snprintf msg.value (ascii "Key exists. Use update.\n") })
  addAndReply env msg (ascii "Insert failed.\n")

/-- `_handle_delete`. -/
def handleDelete (msg : KvMessage) : Kernel H (ℤ × KvMessage) := do
  let ret ← remove msg.key
  if ret < 0 then
    return (0, { msg with
      status := 1
      value := snprintf msg.value (ascii "Failed to delete key.\n") })
  return (0, { msg with status := 0 })

/-- `_handle_get`. -/
def handleGet (msg : KvMessage) : Kernel H (ℤ × KvMessage) := do
  let (ret, value) ← lookup msg.key (zeros MAX_VALUE_LEN)
  if ret < 0 then
    return (0, { msg with
      status := 1
      value := snprintf value (ascii "Key '" ++ llu msg.key ++ ascii "' does not exist") })
  return (0, { msg with status := 0, value := value })

/-- `_handle_update`. -/
def handleUpdate (env : KernelEnv) (msg : KvMessage) : Kernel H (ℤ × KvMessage) := do
  let (ret, _) ← lookup msg.key env.tmp
  if ret < 0 then
    return (0, { msg with
      status := 1
      value := snprintf msg.value
        (ascii "Cannot update non-existent key: " ++ llu msg.key ++ ascii "\n") })
  addAndReply env msg (ascii "Update failed.\n")

/-! ### The three kinds of ioctl -/

/-- The commands whose argument is a message. -/
inductive Cmd
  | kvInsert
  | kvUpdate
  | kvGet
  | kvDelete
  | unknown (cmd : UInt32)
deriving DecidableEq

/-- The `switch` of `_handle_kv_message`. -/
def dispatch (env : KernelEnv) (cmd : Cmd) (msg : KvMessage) : Kernel H (ℤ × KvMessage) :=
  match cmd with
  | .kvInsert => handleInsert env msg
  | .kvUpdate => handleUpdate env msg
  | .kvGet => handleGet msg
  | .kvDelete => handleDelete msg
  | .unknown _ => return (-EINVAL, msg)

/-- A request to one of the message handlers, as it was copied in. -/
structure Request where
  env : KernelEnv
  cmd : Cmd
  arg : KvMessage

/-- The steps its handler performs. -/
def Request.prog (r : Request) : Kernel H (ℤ × KvMessage) := dispatch r.env r.cmd r.arg

/-- `_handle_kv_message`: the return code, and the user's message afterwards. -/
def handleKvMessage (env : KernelEnv) (cmd : Cmd) (arg : KvMessage) : Kernel H (ℤ × KvMessage) :=
  if !env.copyFromUser then return (-EFAULT, arg)
  else do
    let (ret, msg) ← dispatch env cmd arg
    if ret < 0 then return (ret, arg)
    if !env.copyToUser then return (-EFAULT, arg)
    return (ret, msg)

/-- `_handle_kv_count`: the return code, and the user's counter afterwards. -/
def handleKvCount (env : KernelEnv) (arg : UInt32) : Kernel H (ℤ × UInt32) := do
  let count ← kvHashCount
  if count < 0 then return (count.toInt, arg)
  if !env.copyToUser then return (-EFAULT, arg)
  return (0, count.toUInt32)

/-- `_handle_snapshot`. -/
def handleSnapshot (msg : KvSnapshotMessage) : Kernel H (ℤ × KvSnapshotMessage) := do
  let (ret, count, entries) ← kvHashSnapshot msg.entries msg.capacity.toNat
  if ret < 0 then
    return (ret, { msg with status := ERROR, count := 0, entries := entries })
  return (0, { msg with status := SUCCESS, count := UInt32.ofNat count, entries := entries })

/-- The size of a snapshot of `count` entries, as a `size_t`. -/
def allocSize (count : Int32) : ℤ := (16 + count.toInt * 80) % 2 ^ 64

/-- `_handle_kv_snapshot` once the entries have been counted.  The requested capacity is compared
with the count as unsigned integers, and a request that does not match is answered with the count.
No allocation of `2 ^ 63` bytes or more succeeds. -/
def snapshotCounted (env : KernelEnv) (arg : KvSnapshotMessage) (actualCount : Int32) :
    Kernel H (ℤ × Option KvSnapshotMessage) :=
  if actualCount.toUInt32 ≠ arg.capacity then return (actualCount.toInt, none)
  else if !(env.kmalloc && decide (allocSize actualCount < 2 ^ 63)) then return (-ENOMEM, none)
  else do
    let slots := (List.range actualCount.toUInt32.toNat).map env.heapSlot
    let (ret, msg) ← handleSnapshot
      { env.heapHeader with capacity := actualCount.toUInt32, entries := slots }
    if ret < 0 then return (ret, none)
    if !env.copyToUser then return (-EFAULT, none)
    return (ret, some { msg with entries := msg.entries.take msg.count.toNat })

/-- `_handle_kv_snapshot`: the return code, and the image that is copied to the user, if it comes to
that: a header, and as many entries as it says. -/
def handleKvSnapshot (env : KernelEnv) (arg : KvSnapshotMessage) :
    Kernel H (ℤ × Option KvSnapshotMessage) :=
  if !env.copyFromUser then return (-EFAULT, none)
  else do
    let actualCount ← kvHashCount
    snapshotCounted env arg actualCount

/-- What the image makes of the user's memory. -/
def KvSnapshotMessage.overwrite (arg image : KvSnapshotMessage) : KvSnapshotMessage :=
  { image with entries := image.entries ++ arg.entries.drop image.entries.length }

/-- An ioctl: its command, and the user's memory the argument points to. -/
inductive Ioctl
  | message (cmd : Cmd) (arg : KvMessage)
  | snapshot (arg : KvSnapshotMessage)
  | count (arg : UInt32)

/-- The status in the user's memory. -/
def Ioctl.status : Ioctl → Int32
  | .message _ msg => msg.status
  | .snapshot msg => msg.status
  | .count _ => 0

/-- `kv_ioctl`: the return code, and the user's memory afterwards. -/
def kvIoctl (env : KernelEnv) : Ioctl → Kernel H (ℤ × Ioctl)
  | .snapshot arg => do
      let (ret, image) ← handleKvSnapshot env arg
      return (ret, .snapshot (image.elim arg arg.overwrite))
  | .count arg => do
      let (ret, arg) ← handleKvCount env arg
      return (ret, .count arg)
  | .message cmd arg => do
      let (ret, arg) ← handleKvMessage env cmd arg
      return (ret, .message cmd arg)

/-- An ioctl with everything it meets. -/
structure IoctlCall where
  env : KernelEnv
  alloc : Alloc
  ioctl : Ioctl

/-- An undisturbed call. -/
def IoctlCall.ok (i : Ioctl) : IoctlCall := ⟨.ok, .ok, i⟩

/-- The effect of an ioctl that runs without interruption. -/
def ioctl (c : IoctlCall) (s : Store H) : (ℤ × Ioctl) × Store H :=
  (kvIoctl c.env c.ioctl).run (exec c.alloc) s

/-! ### The message handlers, step by step -/

/-- The steps the handler of a request may perform. -/
def Request.Performs (r : Request) : Op H → Prop
  | .lookup k _ => k = r.arg.key
  | .add k value => k = r.arg.key ∧ value = r.arg.value.1 ++ r.env.stack ∧
      (r.cmd = .kvInsert ∨ r.cmd = .kvUpdate)
  | .remove k => k = r.arg.key ∧ r.cmd = .kvDelete
  | .visit _ => False

theorem uses_addAndReply {r : Request} (hcmd : r.cmd = .kvInsert ∨ r.cmd = .kvUpdate)
    (failed : List UInt8) :
    (addAndReply r.env r.arg failed : Kernel H (ℤ × KvMessage)).Uses r.Performs := by
  simp only [addAndReply, add, Prog.call_bind, Prog.ret_bind, Prog.uses_call]
  refine ⟨⟨rfl, rfl, hcmd⟩, fun ret => ?_⟩
  split <;> trivial

theorem within_addAndReply (env : KernelEnv) (msg : KvMessage) (failed : List UInt8) :
    (addAndReply env msg failed : Kernel H (ℤ × KvMessage)).Within 1 := by
  simp only [addAndReply, add, Prog.call_bind, Prog.ret_bind, Prog.within_call_succ]
  intro ret
  split <;> trivial

/-- What a handler is: one step on its own key, after which it returns or, if it is `_handle_insert`
or `_handle_update`, goes on to the addition.  An unknown command is refused without a step. -/
theorem prog_cases (r : Request) :
    (∃ reply, (r.prog : Kernel H (ℤ × KvMessage)) = .ret reply) ∨
    ∃ op k, (r.prog : Kernel H (ℤ × KvMessage)) = .call op k ∧ r.Performs op ∧
      ∀ res, (∃ reply, k res = .ret reply) ∨
        (r.cmd = .kvInsert ∨ r.cmd = .kvUpdate) ∧
          ∃ failed, k res = addAndReply r.env r.arg failed := by
  obtain ⟨env, cmd, arg⟩ := r
  cases cmd with
  | kvInsert =>
      refine .inr ⟨_, _, rfl, rfl, fun res => ?_⟩
      by_cases hret : res.1 ≥ 0
      · exact .inl ⟨_, if_pos hret⟩
      · exact .inr ⟨.inl rfl, _, if_neg hret⟩
  | kvUpdate =>
      refine .inr ⟨_, _, rfl, rfl, fun res => ?_⟩
      by_cases hret : res.1 < 0
      · exact .inl ⟨_, if_pos hret⟩
      · exact .inr ⟨.inr rfl, _, if_neg hret⟩
  | kvGet =>
      refine .inr ⟨_, _, rfl, rfl, fun res => .inl ?_⟩
      by_cases hret : res.1 < 0
      · exact ⟨_, if_pos hret⟩
      · exact ⟨_, if_neg hret⟩
  | kvDelete =>
      refine .inr ⟨_, _, rfl, ⟨rfl, rfl⟩, fun res => .inl ?_⟩
      by_cases hret : res < 0
      · exact ⟨_, if_pos hret⟩
      · exact ⟨_, if_neg hret⟩
  | unknown n => exact .inl ⟨_, rfl⟩

/-- A handler performs steps on its own key only, and of the kinds its command calls for. -/
theorem uses_prog (r : Request) : (r.prog : Kernel H (ℤ × KvMessage)).Uses r.Performs := by
  obtain ⟨reply, hprog⟩ | ⟨op, k, hprog, hop, hk⟩ := prog_cases r
  · rw [hprog]
    trivial
  · rw [hprog]
    refine ⟨hop, fun res => ?_⟩
    obtain ⟨reply, hres⟩ | ⟨hcmd, failed, hres⟩ := hk res
    · rw [hres]
      trivial
    · rw [hres]
      exact uses_addAndReply hcmd failed

theorem uses_handleKvMessage (env : KernelEnv) (cmd : Cmd) (arg : KvMessage) :
    (handleKvMessage env cmd arg : Kernel H (ℤ × KvMessage)).Uses (Request.mk env cmd arg).Performs := by
  rw [handleKvMessage]
  split
  · trivial
  · refine (uses_prog ⟨env, cmd, arg⟩).bind fun r => ?_
    dsimp only
    split
    · trivial
    · split
      · trivial
      · trivial

/-- What is added from a message with a terminated value fits into a message again. -/
theorem Request.Performs.length_lt {r : Request} {key : HashKey} {value : List UInt8}
    (h : r.Performs (.add key value : Op H)) (hterm : 0 ∈ r.arg.value.1) :
    (cstr value).1.length < MAX_VALUE_LEN := by
  obtain ⟨-, rfl, -⟩ := h
  rw [cstr_append hterm]
  exact (length_cstr_lt hterm).trans_eq r.arg.value.2

/-- A handler is done after two steps. -/
theorem within_prog (r : Request) : (r.prog : Kernel H (ℤ × KvMessage)).Within 2 := by
  obtain ⟨reply, hprog⟩ | ⟨op, k, hprog, -, hk⟩ := prog_cases r
  · rw [hprog]
    trivial
  · rw [hprog]
    intro res
    obtain ⟨reply, hres⟩ | ⟨-, failed, hres⟩ := hk res
    · rw [hres]
      trivial
    · rw [hres]
      exact within_addAndReply r.env r.arg failed

/-- The addition succeeds exactly when memory is found. -/
theorem step_addAndReply (env : KernelEnv) (alloc : Alloc) (msg : KvMessage)
    (failed : List UInt8) (s : Store H) :
    (addAndReply env msg failed).step (exec alloc) s =
      (.ret (0, if alloc.admits s.1 msg.key then { msg with status := 0 }
        else { msg with status := -12, value := snprintf msg.value failed }),
      (s.add msg.key (msg.value.1 ++ env.stack) alloc).2) := by
  have hadd := s.add_fst msg.key (msg.value.1 ++ env.stack) alloc
  cases ha : alloc.admits s.1 msg.key with
  | false =>
      rw [ha] at hadd
      simp only [addAndReply, add, Prog.call_bind, Prog.ret_bind, Prog.step_call, exec, hadd]
      rfl
  | true =>
      rw [ha] at hadd
      simp only [addAndReply, add, Prog.call_bind, Prog.ret_bind, Prog.step_call, exec, hadd]
      rfl

/-- The check of `_handle_insert`. -/
theorem step_handleInsert (env : KernelEnv) (alloc : Alloc) (msg : KvMessage) (s : Store H) :
    (handleInsert env msg).step (exec alloc) s =
      (if s.found msg.key then
        .ret (0, { msg with
          status := 1
          value := snprintf msg.value (ascii "Key exists. Use update.\n") })
      else addAndReply env msg (ascii "Insert failed.\n"), s) := by
  have hret := s.lookup_nonneg_iff msg.key (zeros MAX_VALUE_LEN)
  simp only [handleInsert, lookup, Prog.call_bind, Prog.ret_bind, Prog.step_call, exec, ge_iff_le,
    hret]
  rfl

/-- The check of `_handle_update`. -/
theorem step_handleUpdate (env : KernelEnv) (alloc : Alloc) (msg : KvMessage) (s : Store H) :
    (handleUpdate env msg).step (exec alloc) s =
      (if s.found msg.key then addAndReply env msg (ascii "Update failed.\n")
      else .ret (0, { msg with
        status := 1
        value := snprintf msg.value
          (ascii "Cannot update non-existent key: " ++ llu msg.key ++ ascii "\n") }), s) := by
  have hret := s.lookup_neg_iff msg.key env.tmp
  simp only [handleUpdate, lookup, Prog.call_bind, Prog.ret_bind, Prog.step_call, exec, hret]
  cases s.found msg.key <;> rfl

/-- `_handle_delete` is one step. -/
theorem step_handleDelete (alloc : Alloc) (msg : KvMessage) (s : Store H) :
    (handleDelete msg).step (exec alloc) s =
      (.ret (0, if (s.get msg.key).isSome then { msg with status := 0 }
        else { msg with
          status := 1
          value := snprintf msg.value (ascii "Failed to delete key.\n") }),
      (s.remove msg.key).2) := by
  have hrem := s.remove_fst msg.key
  cases hk : (s.get msg.key).isSome with
  | false =>
      rw [hk] at hrem
      simp only [handleDelete, remove, Prog.call_bind, Prog.ret_bind, Prog.step_call, exec, hrem]
      rfl
  | true =>
      rw [hk] at hrem
      simp only [handleDelete, remove, Prog.call_bind, Prog.ret_bind, Prog.step_call, exec, hrem]
      rfl

/-! ### The message handlers, run without interruption -/

theorem run_addAndReply (env : KernelEnv) (alloc : Alloc) (msg : KvMessage)
    (failed : List UInt8) (s : Store H) :
    (addAndReply env msg failed).run (exec alloc) s =
      ((0, if alloc.admits s.1 msg.key then { msg with status := 0 }
        else { msg with status := -12, value := snprintf msg.value failed }),
      (s.add msg.key (msg.value.1 ++ env.stack) alloc).2) := by
  rw [← Prog.run_step, step_addAndReply, Prog.run_ret]

/-- `_handle_insert` refuses a key it finds, and adds it otherwise. -/
theorem run_handleInsert (env : KernelEnv) (alloc : Alloc) (msg : KvMessage) (s : Store H) :
    (handleInsert env msg).run (exec alloc) s =
      if s.found msg.key then
        ((0, { msg with
          status := 1
          value := snprintf msg.value (ascii "Key exists. Use update.\n") }), s)
      else (addAndReply env msg (ascii "Insert failed.\n")).run (exec alloc) s := by
  rw [← Prog.run_step, step_handleInsert]
  cases s.found msg.key <;> rfl

/-- `_handle_update` refuses a key it does not find, and adds it otherwise. -/
theorem run_handleUpdate (env : KernelEnv) (alloc : Alloc) (msg : KvMessage) (s : Store H) :
    (handleUpdate env msg).run (exec alloc) s =
      if s.found msg.key then (addAndReply env msg (ascii "Update failed.\n")).run (exec alloc) s
      else
        ((0, { msg with
          status := 1
          value := snprintf msg.value
            (ascii "Cannot update non-existent key: " ++ llu msg.key ++ ascii "\n") }), s) := by
  rw [← Prog.run_step, step_handleUpdate]
  cases s.found msg.key <;> rfl

/-- `_handle_delete` succeeds exactly when the key is present. -/
theorem run_handleDelete (alloc : Alloc) (msg : KvMessage) (s : Store H) :
    (handleDelete msg).run (exec alloc) s =
      ((0, if (s.get msg.key).isSome then { msg with status := 0 }
        else { msg with
          status := 1
          value := snprintf msg.value (ascii "Failed to delete key.\n") }),
      (s.remove msg.key).2) := by
  rw [← Prog.run_step, step_handleDelete, Prog.run_ret]

/-- `_handle_get` answers with the value, padded with zeros, when the key is found. -/
theorem run_handleGet (alloc : Alloc) (msg : KvMessage) (s : Store H) :
    (handleGet msg).run (exec alloc) s =
      ((0, match s.get msg.key with
        | some value =>
            if value.1.length < MAX_VALUE_LEN then
              { msg with status := 0, value := memcpy (zeros MAX_VALUE_LEN) (value.1 ++ [0]) }
            else { msg with
              status := 1
              value := snprintf (zeros MAX_VALUE_LEN)
                (ascii "Key '" ++ llu msg.key ++ ascii "' does not exist") }
        | none => { msg with
            status := 1
            value := snprintf (zeros MAX_VALUE_LEN)
              (ascii "Key '" ++ llu msg.key ++ ascii "' does not exist") }), s) := by
  have hlook := s.lookup_eq msg.key (zeros MAX_VALUE_LEN)
  simp only [handleGet, lookup, Prog.call_bind, Prog.ret_bind, Prog.run_call, exec, hlook]
  cases s.get msg.key with
  | none => rfl
  | some v =>
      by_cases hlen : v.1.length < MAX_VALUE_LEN
      · have hnn : ¬ (v.1.length : ℤ) < 0 := by omega
        simp only [if_pos hlen, if_neg hnn]
        rfl
      · simp only [if_neg hlen]
        rfl

/-- Every handler returns 0; an unknown command is refused and touches nothing. -/
theorem run_dispatch_ret (env : KernelEnv) (alloc : Alloc) (cmd : Cmd) (msg : KvMessage)
    (s : Store H) : ((dispatch env cmd msg).run (exec alloc) s).1.1 =
      match cmd with
      | .unknown _ => -EINVAL
      | _ => 0 := by
  cases cmd with
  | kvInsert =>
      simp only [dispatch, run_handleInsert, run_addAndReply]
      split <;> rfl
  | kvUpdate =>
      simp only [dispatch, run_handleUpdate, run_addAndReply]
      split <;> rfl
  | kvGet => simp only [dispatch, run_handleGet]
  | kvDelete => simp only [dispatch, run_handleDelete]
  | unknown cmd => rfl

/-! ### The ioctls, run without interruption -/

/-- A message ioctl: the handler is reached when the message is copied in, and its answer reaches
the user when the message is copied back. -/
theorem run_handleKvMessage (env : KernelEnv) (alloc : Alloc) (cmd : Cmd) (arg : KvMessage)
    (s : Store H) : (handleKvMessage env cmd arg).run (exec alloc) s =
      if env.copyFromUser = false then ((-EFAULT, arg), s)
      else
        let r := (dispatch env cmd arg).run (exec alloc) s
        if r.1.1 < 0 then ((r.1.1, arg), r.2)
        else if env.copyToUser = false then ((-EFAULT, arg), r.2)
        else r := by
  cases hin : env.copyFromUser with
  | false =>
      simp only [handleKvMessage, hin]
      rfl
  | true =>
      simp only [handleKvMessage, hin, Bool.not_true, Bool.false_eq_true, if_false, Prog.run_bind,
        Bool.true_eq_false]
      split
      · rfl
      · cases env.copyToUser <;> rfl

/-- A message ioctl, at the entry point. -/
theorem ioctl_message {c : IoctlCall} {cmd : Cmd} {arg : KvMessage}
    (hc : c.ioctl = .message cmd arg) (s : Store H) :
    ioctl c s =
      if c.env.copyFromUser = false then ((-EFAULT, .message cmd arg), s)
      else
        let r := (dispatch c.env cmd arg).run (exec c.alloc) s
        if r.1.1 < 0 then ((r.1.1, .message cmd arg), r.2)
        else if c.env.copyToUser = false then ((-EFAULT, .message cmd arg), r.2)
        else ((r.1.1, .message cmd r.1.2), r.2) := by
  rw [ioctl, hc, kvIoctl, Prog.run_bind, run_handleKvMessage]
  cases c.env.copyFromUser with
  | false => rfl
  | true =>
      by_cases hret : ((dispatch c.env cmd arg).run (exec c.alloc) s).1.1 < 0
      · simp only [if_pos hret]
        rfl
      · simp only [if_neg hret]
        cases c.env.copyToUser <;> rfl

/-- A message ioctl that is completed. -/
theorem ioctl_message_ok {c : IoctlCall} {cmd : Cmd} {arg : KvMessage}
    (hc : c.ioctl = .message cmd arg) (hcmd : ∀ n, cmd ≠ .unknown n)
    (hin : c.env.copyFromUser = true) (hout : c.env.copyToUser = true) (s : Store H) :
    ioctl c s =
      ((0, .message cmd ((dispatch c.env cmd arg).run (exec c.alloc) s).1.2),
        ((dispatch c.env cmd arg).run (exec c.alloc) s).2) := by
  have hret : ((dispatch c.env cmd arg).run (exec c.alloc) s).1.1 = 0 := by
    rw [run_dispatch_ret]
    cases cmd with
    | unknown n => exact absurd rfl (hcmd n)
    | _ => rfl
  have hioctl := ioctl_message hc s
  simp only [hin, hout, hret, Bool.true_eq_false, if_false, lt_irrefl] at hioctl
  exact hioctl

/-- A message ioctl that returns 0 was completed. -/
theorem copies_of_ret {c : IoctlCall} {cmd : Cmd} {arg : KvMessage}
    (hc : c.ioctl = .message cmd arg) {s : Store H} (hret : (ioctl c s).1.1 = 0) :
    c.env.copyFromUser = true ∧ c.env.copyToUser = true := by
  have hfault : -EFAULT ≠ 0 := by decide
  rw [ioctl_message hc] at hret
  cases hin : c.env.copyFromUser with
  | false =>
      rw [if_pos hin] at hret
      exact absurd hret hfault
  | true =>
      refine ⟨rfl, ?_⟩
      by_contra hout
      rw [Bool.not_eq_true] at hout
      simp only [hin, hout, Bool.true_eq_false, if_false, if_true] at hret
      split at hret
      · rename_i hneg
        exact absurd hret hneg.ne
      · exact absurd hret hfault

theorem uses_snapshotCounted (env : KernelEnv) (arg : KvSnapshotMessage) (actualCount : Int32) :
    (snapshotCounted env arg actualCount : Kernel H (ℤ × Option KvSnapshotMessage)).Uses
      Op.Visits := by
  rw [snapshotCounted]
  split
  · trivial
  · split
    · trivial
    · refine Prog.Uses.bind ?_ fun r => ?_
      · refine (uses_kvHashSnapshot _ _).bind fun r => ?_
        dsimp only
        split <;> trivial
      · dsimp only
        split
        · trivial
        · split <;> trivial

theorem uses_handleKvSnapshot (env : KernelEnv) (arg : KvSnapshotMessage) :
    (handleKvSnapshot env arg : Kernel H (ℤ × Option KvSnapshotMessage)).Uses Op.Visits := by
  rw [handleKvSnapshot]
  split
  · trivial
  · exact (uses_countLoop _ _).bind fun count => uses_snapshotCounted env arg count

/-- What is left of `_handle_kv_snapshot` once the entries have been copied. -/
def snapshotCopied (env : KernelEnv) (capacity : UInt32) (r : ℤ × ℕ × List KvMessage) :
    Kernel H (ℤ × Option KvSnapshotMessage) :=
  if r.1 < 0 then return (r.1, none)
  else if !env.copyToUser then return (-EFAULT, none)
  else return (0, some { env.heapHeader with
    status := SUCCESS
    capacity := capacity
    count := UInt32.ofNat r.2.1
    entries := r.2.2.take (UInt32.ofNat r.2.1).toNat })

/-- With a count that fits into 32 bits, `_handle_kv_snapshot` refuses the request, finds no memory,
or copies the table into as many slots as were counted. -/
theorem snapshotCounted_eq (env : KernelEnv) (arg : KvSnapshotMessage) {n : ℕ} (hn : n < 2 ^ 32) :
    (snapshotCounted env arg (Int32.ofNat n) : Kernel H (ℤ × Option KvSnapshotMessage)) =
      if UInt32.ofNat n ≠ arg.capacity then .ret ((Int32.ofNat n).toInt, none)
      else if !(env.kmalloc && decide (allocSize (Int32.ofNat n) < 2 ^ 63)) then
        .ret (-ENOMEM, none)
      else kvHashSnapshot ((List.range n).map env.heapSlot) n >>=
        snapshotCopied env (UInt32.ofNat n) := by
  have htoNat : (UInt32.ofNat n).toNat = n := UInt32.toNat_ofNat_of_lt' hn
  simp only [snapshotCounted, Int32.toUInt32_ofNat', htoNat, handleSnapshot, Prog.bind_assoc]
  refine ite_congr rfl (fun _ => rfl) fun _ => ite_congr rfl (fun _ => rfl) fun _ => ?_
  congr 1
  funext r
  obtain ⟨ret, count, entries⟩ := r
  by_cases hret : ret < 0
  · simp [snapshotCopied, hret]
  · simp [snapshotCopied, hret]

theorem within_snapshotCounted (env : KernelEnv) (arg : KvSnapshotMessage) {n : ℕ}
    (hn : n < 2 ^ 32) :
    (snapshotCounted env arg (Int32.ofNat n) : Kernel H (ℤ × Option KvSnapshotMessage)).Within
      H.n := by
  rw [snapshotCounted_eq env arg hn]
  split
  · trivial
  · split
    · trivial
    · have hreply : ∀ r, (snapshotCopied env (UInt32.ofNat n) r :
          Kernel H (ℤ × Option KvSnapshotMessage)).Within 0 := by
        intro r
        rw [snapshotCopied]
        split
        · trivial
        · split <;> trivial
      exact (within_kvHashSnapshot _ _).bind hreply

/-- Sizes for a negative count are taken for sizes of `2 ^ 63` bytes and more. -/
theorem allocSize_lt_iff {n : ℕ} (hn : n < 2 ^ 32) :
    allocSize (Int32.ofNat n) < 2 ^ 63 ↔ n < 2 ^ 31 := by
  rcases Nat.lt_or_ge n (2 ^ 31) with h | h
  · have hint : (Int32.ofNat n).toInt = n := Int32.toInt_ofNat_of_lt h
    have hmod : (16 + (n : ℤ) * 80) % 2 ^ 64 = 16 + n * 80 := Int.emod_eq_of_lt (by omega) (by omega)
    rw [allocSize, hint, hmod]
    omega
  · have hint : (Int32.ofNat n).toInt = n - 2 ^ 32 := by
      have hsize : (Int32.size : ℤ) = 4294967296 := rfl
      rw [Int32.toInt_ofNat', Int.bmod_def, hsize]
      split <;> omega
    have hmod : (16 + ((n : ℤ) - 2 ^ 32) * 80) % 2 ^ 64 = 16 + ((n : ℤ) - 2 ^ 32) * 80 + 2 ^ 64 := by
      rw [← Int.add_emod_right]
      exact Int.emod_eq_of_lt (by omega) (by omega)
    rw [allocSize, hint, hmod]
    omega

/-- On a table at rest the image holds the first entries of the table, as many as were counted. -/
theorem run_snapshotCounted (env : KernelEnv) (alloc : Alloc) (arg : KvSnapshotMessage) {n : ℕ}
    (hn : n < 2 ^ 32) (s : Store H) :
    (snapshotCounted env arg (Int32.ofNat n)).run (exec alloc) s =
      (if UInt32.ofNat n ≠ arg.capacity then ((Int32.ofNat n).toInt, none)
      else if !(env.kmalloc && decide (allocSize (Int32.ofNat n) < 2 ^ 63)) then (-ENOMEM, none)
      else if n = 0 then (-EINVAL, none)
      else if env.copyToUser = false then (-EFAULT, none)
      else (0, some { env.heapHeader with
        status := SUCCESS
        capacity := UInt32.ofNat n
        count := UInt32.ofNat (s.1.entries.take n).length
        entries :=
          List.zipWith copyEntry (s.1.entries.take n) ((List.range n).map env.heapSlot) }), s) := by
  rw [snapshotCounted_eq env arg hn]
  split
  · rfl
  split
  · rfl
  have hslots : ((List.range n).map env.heapSlot).length = n := by simp
  rcases Nat.eq_zero_or_pos n with rfl | hpos
  · rfl
  · have hne : n ≠ 0 := by omega
    have hrun := @run_kvHashSnapshot H alloc s ((List.range n).map env.heapSlot) (by rwa [hslots])
    have hlen : (s.1.entries.take n).length ≤ n := by simp
    have hcount : (UInt32.ofNat (s.1.entries.take n).length).toNat = (s.1.entries.take n).length :=
      UInt32.toNat_ofNat_of_lt' (lt_of_le_of_lt hlen hn)
    rw [hslots] at hrun
    rw [Prog.run_bind, hrun, if_neg hne]
    simp only [snapshotCopied, hcount, take_filled (hlen.trans_eq hslots.symm)]
    cases env.copyToUser <;> rfl

theorem int32_ofNat_mod (n : ℕ) : Int32.ofNat (n % 2 ^ 32) = Int32.ofNat n := by
  rw [← Int32.toBitVec_inj, Int32.toBitVec_ofNat', Int32.toBitVec_ofNat']
  exact BitVec.eq_of_toNat_eq (by simp)

/-- On a table at rest `_handle_kv_snapshot` counts the entries modulo `2 ^ 32`, and goes on from
there. -/
theorem run_handleKvSnapshot (env : KernelEnv) (alloc : Alloc) (arg : KvSnapshotMessage)
    (s : Store H) :
    (handleKvSnapshot env arg).run (exec alloc) s =
      if env.copyFromUser = false then ((-EFAULT, none), s)
      else
        (snapshotCounted env arg (Int32.ofNat (s.1.entries.length % 2 ^ 32))).run (exec alloc) s := by
  rw [int32_ofNat_mod, handleKvSnapshot]
  cases env.copyFromUser with
  | false => rfl
  | true =>
      have hrun := Prog.run_bind (exec alloc) kvHashCount (snapshotCounted env arg) s
      rw [run_kvHashCount] at hrun
      exact hrun

/-- `KV_COUNT` reports the number of entries, as a 32-bit signed integer: where that is negative,
it is taken for an error code. -/
theorem run_handleKvCount (env : KernelEnv) (alloc : Alloc) (arg : UInt32) (s : Store H) :
    (handleKvCount env arg).run (exec alloc) s =
      (if Int32.ofNat s.1.entries.length < 0 then ((Int32.ofNat s.1.entries.length).toInt, arg)
        else if env.copyToUser = false then (-EFAULT, arg)
        else (0, UInt32.ofNat s.1.entries.length), s) := by
  simp only [handleKvCount, Prog.run_bind, run_kvHashCount]
  split
  · rfl
  · cases env.copyToUser <;> rfl

/-- `KV_COUNT`, at the entry point. -/
theorem ioctl_count {c : IoctlCall} {arg : UInt32} (hc : c.ioctl = .count arg) (s : Store H) :
    ioctl c s =
      (if Int32.ofNat s.1.entries.length < 0 then
        ((Int32.ofNat s.1.entries.length).toInt, .count arg)
      else if c.env.copyToUser = false then (-EFAULT, .count arg)
      else (0, .count (UInt32.ofNat s.1.entries.length)), s) := by
  rw [ioctl, hc, kvIoctl, Prog.run_bind, run_handleKvCount]
  by_cases hneg : Int32.ofNat s.1.entries.length < 0
  · simp only [if_pos hneg]
    rfl
  · simp only [if_neg hneg]
    cases c.env.copyToUser <;> rfl

/-- `KV_SNAPSHOT`, at the entry point. -/
theorem ioctl_snapshot {c : IoctlCall} {arg : KvSnapshotMessage} (hc : c.ioctl = .snapshot arg)
    (s : Store H) :
    ioctl c s =
      ((((handleKvSnapshot c.env arg).run (exec c.alloc) s).1.1,
        .snapshot (((handleKvSnapshot c.env arg).run (exec c.alloc) s).1.2.elim arg arg.overwrite)),
        s) := by
  have hs := run_snd_of_visits (uses_handleKvSnapshot c.env arg) c.alloc s
  rw [ioctl, hc, kvIoctl, Prog.run_bind, hs]
  rfl

/-- Only a message ioctl whose message was copied in touches the store; what it does to the store is
what its handler does. -/
theorem ioctl_snd (c : IoctlCall) (s : Store H) :
    (ioctl c s).2 =
      match c.ioctl with
      | .message cmd arg =>
          if c.env.copyFromUser = false then s else ((dispatch c.env cmd arg).run (exec c.alloc) s).2
      | _ => s := by
  rcases hc : c.ioctl with ⟨cmd, arg⟩ | arg | arg
  · rw [ioctl_message hc]
    split
    · rfl
    · dsimp only
      split
      · rfl
      · split <;> rfl
  · rw [ioctl_snapshot hc]
  · rw [ioctl_count hc]

end KvIoctl
