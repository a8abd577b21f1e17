/-
**The daemon's snapshot file.**

`user/daemon/daemon.cpp` keeps the store across a restart of the machine in one file.  On shutdown,
and whenever a client asks for it, `do_kv_snapshot_to_file` asks the module for the number of
entries, allocates room for as many, asks for a snapshot, and writes header and entries to the file;
at startup `do_kv_restore_from_file` reads them back and inserts them one by one.

The two are modelled as programs over system calls (`Daemon.SysOp`), because other clients' requests
reach the module between any two of them.  An ioctl is taken here as one step, although the module
works on one bucket after the other and lets other requests in between; where this matters,
`KvStore/DaemonThreads.lean` takes the threads apart into the module's own steps.  Opening the file for
writing empties it, and the image is then written in one piece from the start of the file.  What a call meets
outside the store and the file (failing copies, allocations, a file that cannot be opened, the
contents of fresh memory) is collected in `Daemon.SnapshotEnv` and `Daemon.RestoreEnv`.  The buffer
for the restored entries is always obtained, and a file once opened takes all that is written to it.
Messages to the console are left out, except for the two counters of the restore.

Main definitions:

* `Daemon.World`, `Daemon.SysOp`, `Daemon.sysExec` — the store and the file, and the system calls;
* `Daemon.doKvSnapshotToFile`, `Daemon.doKvRestoreFromFile` — the two functions;
* `Daemon.imageOf`, `Daemon.bareHeader` — what the first of them may write;
* `Daemon.SnapshotEnv.counts`, `Daemon.SnapshotEnv.saves` — when it gets as far as writing it.

Main results:

* `Daemon.step_saveSnapshot`, `Daemon.run_doKvSnapshotToFile` — what ends up in the file;
* `Daemon.get_doKvRestoreFromFile` — a restore adds the keys of the entries it reads, and no others;
* `Daemon.readEntries_encode` — the entries of an image are read back from the file.
-/

import KvStore.KvIoctlLimit

set_option relaxedAutoImplicit false
set_option autoImplicit false

namespace Daemon

open CMem Interleave KvHash KvIoctl

variable {H : HashFn}

/-! ### System calls -/

/-- The store in the kernel, and the contents of the snapshot file if there is one. -/
structure World (H : HashFn) where
  store : Store H
  file : Option (List UInt8)

/-- A system call of the daemon: an ioctl on the device; opening the snapshot file for writing;
writing to it from its start; reading it. -/
inductive SysOp
  | ioctl (c : IoctlCall)
  | truncate
  | write (bytes : List UInt8)
  | read

/-- What a system call answers. -/
abbrev SysRes : SysOp → Type
  | .ioctl _ => ℤ × Ioctl
  | .truncate => Unit
  | .write _ => Unit
  | .read => Option (List UInt8)

/-- The effect of a system call, taken as one step: no other request comes into the middle of an ioctl.
What lies in the file behind the bytes that are written stays. -/
def sysExec (_ : Unit) : (op : SysOp) → World H → SysRes op × World H
  | .ioctl c, w => ((ioctl c w.store).1, { w with store := (ioctl c w.store).2 })
  | .truncate, w => ((), { w with file := some [] })
  | .write bytes, w => ((), { w with file := some (bytes ++ (w.file.getD []).drop bytes.length) })
  | .read, w => (w.file, w)

/-- Programs over system calls. -/
abbrev Task (α : Type) := Prog SysOp SysRes α

/-- The counter that an ioctl leaves in place of `arg`. -/
def counter (arg : UInt32) : Ioctl → UInt32
  | .count n => n
  | _ => arg

/-- The buffer that an ioctl leaves in place of `arg`. -/
def buffer (arg : KvSnapshotMessage) : Ioctl → KvSnapshotMessage
  | .snapshot msg => msg
  | _ => arg

/-- `ioctl(fd, KV_COUNT, &arg)`: the return code, and the counter. -/
def kvCount (env : KernelEnv) (arg : UInt32) : Task (ℤ × UInt32) :=
  .call (.ioctl ⟨env, .ok, .count arg⟩) fun r => .ret (r.1, counter arg r.2)

/-- `ioctl(fd, KV_SNAPSHOT, arg)`: the return code, and the buffer. -/
def kvSnapshot (env : KernelEnv) (arg : KvSnapshotMessage) : Task (ℤ × KvSnapshotMessage) :=
  .call (.ioctl ⟨env, .ok, .snapshot arg⟩) fun r => .ret (r.1, buffer arg r.2)

/-- `ioctl(fd, KV_INSERT, &entry)`: the return code. -/
def kvInsert (env : KernelEnv × Alloc) (entry : KvMessage) : Task ℤ :=
  .call (.ioctl ⟨env.1, env.2, .message .kvInsert entry⟩) fun r => .ret r.1

/-- An output stream on the file, one `write` to it, and its end. -/
def writeFile (bytes : List UInt8) : Task Unit := .call .truncate fun _ => .call (.write bytes) .ret

/-- All that an input stream on the file will read, if the file can be opened. -/
def readFile : Task (Option (List UInt8)) := .call .read .ret

/-! ### `do_kv_snapshot_to_file` -/

/-- What a call of `do_kv_snapshot_to_file` meets outside the store and the file. -/
structure SnapshotEnv where
  /-- the kernel's side of `KV_COUNT` -/
  count : KernelEnv
  /-- memory is found for the buffer -/
  calloc : Bool
  /-- the kernel's side of `KV_SNAPSHOT` -/
  snapshot : KernelEnv
  /-- the file can be opened for writing -/
  opens : Bool

/-- Nothing fails. -/
def SnapshotEnv.ok : SnapshotEnv := ⟨.ok, true, .ok, true⟩

/-- The buffer as `calloc` returns it, with its capacity set. -/
def zeroed (entryCount : UInt32) : KvSnapshotMessage where
  status := 0
  capacity := entryCount
  count := 0
  pad := 0
  entries := List.replicate entryCount.toNat KvMessage.zero

/-- `do_kv_snapshot_to_file` once the buffer has been allocated. -/
def saveSnapshot (env : SnapshotEnv) (entryCount : UInt32) : Task Unit := do
  let (ret, snapshot) ← kvSnapshot env.snapshot (zeroed entryCount)
  if ret < 0 then return
  if !env.opens then return
  writeFile (snapshot.encode.take (16 + snapshot.count.toNat * 80))

/-- `do_kv_snapshot_to_file`. -/
def doKvSnapshotToFile (env : SnapshotEnv) : Task Unit := do
  let (ret, entryCount) ← kvCount env.count 0
  if ret < 0 then return
  if entryCount = 0 then return
  if !env.calloc then return
  saveSnapshot env entryCount

/-! ### `do_kv_restore_from_file` -/

/-- What a call of `do_kv_restore_from_file` meets outside the store and the file. -/
structure RestoreEnv where
  /-- the bytes of the freshly allocated entries -/
  heap : ℕ → UInt8
  /-- the kernel's side of the insertion of each entry -/
  insert : ℕ → KernelEnv × Alloc

/-- Nothing fails, and fresh memory is zero. -/
def RestoreEnv.ok : RestoreEnv := ⟨fun _ => 0, fun _ => (.ok, .ok)⟩

/-- The entries that are read from the bytes of the file.  Where the file ends early, the memory
they are read into keeps what was in it; where it ends in the header, nothing more is read. -/
def readEntries (env : RestoreEnv) (bytes : List UInt8) : List KvMessage :=
  let count := (decodeHeader bytes).count.toNat
  let data := if bytes.length < 16 then [] else (bytes.drop 16).take (80 * count)
  readMessages count (data ++ ((List.range (80 * count)).map env.heap).drop data.length)

/-- The loop over the entries, from the `i`-th on, with the two counters. -/
def restoreLoop (env : RestoreEnv) (status : Int32) :
    ℕ → List KvMessage → UInt32 → UInt32 → Task (UInt32 × UInt32)
  | _, [], restored, skipped => .ret (restored, skipped)
  | i, entry :: entries, restored, skipped => do
      let ret ← kvInsert (env.insert i) entry
      if ret < 0 ∨ status ≠ 0 then restoreLoop env status (i + 1) entries restored (skipped + 1)
      else restoreLoop env status (i + 1) entries (restored + 1) skipped

/-- `do_kv_restore_from_file`: the counters that are printed, if there is a file. -/
def doKvRestoreFromFile (env : RestoreEnv) : Task (Option (UInt32 × UInt32)) := do
  match ← readFile with
  | none => return none
  | some bytes =>
      let counters ← restoreLoop env (decodeHeader bytes).status 0 (readEntries env bytes) 0 0
      return some counters

/-! ### What a snapshot writes -/

/-- The number of entries, as a 32-bit unsigned integer. -/
def entryCount (s : Store H) : ℕ := s.1.entries.length % 2 ^ 32

theorem entryCount_lt (s : Store H) : entryCount s < 2 ^ 32 := Nat.mod_lt _ (by decide)

/-- The image of a store that the module copies into a buffer of the right capacity. -/
def imageOf (env : KernelEnv) (s : Store H) : KvSnapshotMessage :=
  { env.heapHeader with
    status := SUCCESS
    capacity := UInt32.ofNat (entryCount s)
    count := UInt32.ofNat (entryCount s)
    entries := List.zipWith copyEntry (s.1.entries.take (entryCount s))
      ((List.range (entryCount s)).map env.heapSlot) }

/-- The number of entries as an `int` is negative from `2 ^ 31` on. -/
theorem toInt_length_neg_iff (s : Store H) :
    (Int32.ofNat s.1.entries.length).toInt < 0 ↔ ¬ entryCount s < 2 ^ 31 := by
  have hsize : (Int32.size : ℤ) = 4294967296 := rfl
  rw [entryCount, Int32.toInt_ofNat', Int.bmod_def, hsize]
  split <;> omega

theorem toNat_ofNat_length (s : Store H) :
    (UInt32.ofNat s.1.entries.length).toNat = entryCount s := UInt32.toNat_ofNat'

theorem toNat_ofNat_entryCount (s : Store H) :
    (UInt32.ofNat (entryCount s)).toNat = entryCount s :=
  UInt32.toNat_ofNat_of_lt' (entryCount_lt s)

theorem length_take_entryCount (s : Store H) :
    (s.1.entries.take (entryCount s)).length = entryCount s := by
  rw [List.length_take]
  exact Nat.min_eq_left (Nat.mod_le _ _)

/-- An image has as many entries as its header says. -/
theorem count_imageOf (env : KernelEnv) (s : Store H) :
    (imageOf env s).count.toNat = (imageOf env s).entries.length := by
  simp only [imageOf, toNat_ofNat_entryCount, List.length_zipWith, length_take_entryCount,
    List.length_map, List.length_range, Nat.min_self]

/-- What an image says. -/
theorem map_entryOf_imageOf (env : KernelEnv) (s : Store H) :
    (imageOf env s).entries.map entryOf =
      (s.1.entries.take (entryCount s)).map fun e => ⟨e.1, e.2.truncate 63⟩ := by
  refine map_entryOf_zipWith ?_
  rw [length_take_entryCount, List.length_map, List.length_range]

/-- `KV_SNAPSHOT` on a cleared buffer whose capacity is a positive `int`.  When the capacity is not
the number of entries, the call returns that number and leaves the buffer as it is. -/
theorem ioctl_zeroed (env : KernelEnv) (alloc : Alloc) {m : UInt32} (hpos : 0 < m.toNat)
    (hm : m.toNat < 2 ^ 31) (s : Store H) :
    ioctl ⟨env, alloc, .snapshot (zeroed m)⟩ s =
      (let reply :=
        if env.copyFromUser = false then (-EFAULT, zeroed m)
        else if entryCount s ≠ m.toNat then ((Int32.ofNat s.1.entries.length).toInt, zeroed m)
        else if env.kmalloc = false then (-ENOMEM, zeroed m)
        else if env.copyToUser = false then (-EFAULT, zeroed m)
        else (0, imageOf env s)
      ((reply.1, .snapshot reply.2), s)) := by
  cases hin : env.copyFromUser with
  | false =>
      rw [ioctl_snapshot rfl, run_handleKvSnapshot, if_pos hin]
      rfl
  | true =>
      have hreply : ioctl ⟨env, alloc, .snapshot (zeroed m)⟩ s =
          (let r := (snapshotCounted env (zeroed m) (Int32.ofNat (entryCount s))).run (exec alloc) s
          ((r.1.1, .snapshot (r.1.2.elim (zeroed m) (zeroed m).overwrite)), s)) := by
        rw [ioctl_snapshot rfl, run_handleKvSnapshot]
        simp only [hin, Bool.true_eq_false, if_false, entryCount]
      rw [hreply, run_snapshotCounted _ _ _ (entryCount_lt s)]
      by_cases hcap : entryCount s = m.toNat
      · -- the counts agree: the image fills the buffer
        have hcap' : UInt32.ofNat (entryCount s) = (zeroed m).capacity := by
          rw [hcap, UInt32.ofNat_toNat]
          rfl
        have hsize := (allocSize_lt_iff (entryCount_lt s)).2 (by omega)
        have hfull : (zeroed m).overwrite (imageOf env s) = imageOf env s := by
          have hlen : (zeroed m).entries.length ≤ (imageOf env s).entries.length := by
            rw [← count_imageOf, imageOf, toNat_ofNat_entryCount, hcap]
            exact le_of_eq List.length_replicate
          rw [KvSnapshotMessage.overwrite, List.drop_of_length_le hlen, List.append_nil]
        have hcount : (s.1.entries.take (entryCount s)).length = entryCount s :=
          length_take_entryCount s
        have hne : entryCount s ≠ 0 := by omega
        rw [if_neg (not_not.2 hcap'), if_neg (not_not.2 hcap), decide_eq_true hsize, if_neg hne,
          hcount]
        cases env.kmalloc with
        | false => rfl
        | true =>
            cases env.copyToUser with
            | false => rfl
            | true =>
                simp only [Option.elim_some, Bool.and_self, Bool.not_true, Bool.false_eq_true,
                  Bool.true_eq_false, if_false]
                exact congrArg (fun msg => ((0, Ioctl.snapshot msg), s)) hfull
      · have hcap' : UInt32.ofNat (entryCount s) ≠ (zeroed m).capacity := by
          intro h
          refine hcap ?_
          rw [← toNat_ofNat_entryCount, h]
          rfl
        rw [if_pos hcap', if_pos hcap, entryCount, int32_ofNat_mod]
        rfl

/-- The header the daemon writes when the counts differ: its buffer was not touched. -/
def bareHeader (n : ℕ) : KvSnapshotMessage where
  status := 0
  capacity := UInt32.ofNat n
  count := 0
  pad := 0
  entries := []

/-- The first part of the call comes to an end, when `KV_COUNT` finds `n` entries. -/
def SnapshotEnv.counts (env : SnapshotEnv) (n : ℕ) : Bool :=
  decide (0 < n) && decide (n < 2 ^ 31) && env.count.copyToUser && env.calloc

/-- The second part of the call gets as far as writing the file, when `KV_COUNT` has found `n`
entries and `KV_SNAPSHOT` finds `n'`.  Only a count that is negative as an `int` is taken for an
error. -/
def SnapshotEnv.saves (env : SnapshotEnv) (n n' : ℕ) : Bool :=
  env.snapshot.copyFromUser && env.opens &&
    if n' = n then env.snapshot.kmalloc && env.snapshot.copyToUser else decide (n' < 2 ^ 31)

/-- What is then written. -/
def written (env : SnapshotEnv) (n : ℕ) (s : Store H) : KvSnapshotMessage :=
  if entryCount s = n then imageOf env.snapshot s else bareHeader n

theorem run_writeFile (bytes : List UInt8) (w : World H) :
    (writeFile bytes).run (sysExec ()) w = ((), { w with file := some bytes }) := by
  simp only [writeFile, Prog.run_call, Prog.run_ret, sysExec, Option.getD_some, List.drop_nil,
    List.append_nil]

theorem within_saveSnapshot (env : SnapshotEnv) (m : UInt32) : (saveSnapshot env m).Within 3 := by
  simp only [saveSnapshot, kvSnapshot, Prog.call_bind, Prog.ret_bind, Prog.within_call_succ]
  intro r
  split
  · trivial
  · split
    · trivial
    · exact fun _ _ => trivial

/-- The bytes of a buffer that the count in its header covers. -/
theorem take_encode {m : KvSnapshotMessage} (h : m.count.toNat = m.entries.length) :
    m.encode.take (16 + m.count.toNat * 80) = m.encode := by
  refine List.take_of_length_le ?_
  rw [m.length_encode, h]
  omega

theorem take_encode_zeroed (m : UInt32) :
    (zeroed m).encode.take (16 + (zeroed m).count.toNat * 80) = (bareHeader m.toNat).encode := by
  have hheader : (zeroed m).header = (bareHeader m.toNat).header := by
    simp only [zeroed, bareHeader, KvSnapshotMessage.header, UInt32.ofNat_toNat]
  have htake : (zeroed m).encode.take 16 = (zeroed m).header :=
    List.take_left' (zeroed m).length_header
  calc (zeroed m).encode.take (16 + (zeroed m).count.toNat * 80)
      = (zeroed m).header := htake
    _ = (bareHeader m.toNat).header := hheader
    _ = (bareHeader m.toNat).encode := (List.append_nil _).symm

/-- What the daemon makes of an answer to `KV_SNAPSHOT`: an error code ends the call, and any other
answer is taken for a snapshot. -/
theorem step_saveSnapshot_of_ioctl {env : SnapshotEnv} {m : UInt32} {w : World H} {ret : ℤ}
    {msg : KvSnapshotMessage}
    (h : ioctl ⟨env.snapshot, .ok, .snapshot (zeroed m)⟩ w.store = ((ret, .snapshot msg), w.store)) :
    (saveSnapshot env m).step (sysExec ()) w =
      (if ret < 0 then .ret () else if !env.opens then .ret ()
        else writeFile (msg.encode.take (16 + msg.count.toNat * 80)), w) := by
  simp only [saveSnapshot, kvSnapshot, Prog.call_bind, Prog.ret_bind, Prog.step_call, sysExec, h,
    buffer]
  rfl

/-- **The second part of the call**, up to the file.  When the counts differ, the module returns the
number of entries, which is no error to the daemon: what is written is the header of an empty
snapshot. -/
theorem step_saveSnapshot (env : SnapshotEnv) {m : UInt32} (hpos : 0 < m.toNat)
    (hm : m.toNat < 2 ^ 31) (w : World H) :
    (saveSnapshot env m).step (sysExec ()) w =
      (if env.saves m.toNat (entryCount w.store) then
        writeFile (written env m.toNat w.store).encode else .ret (), w) := by
  have hfault : -EFAULT < 0 := by decide
  have hnomem : -ENOMEM < 0 := by decide
  have hioctl := ioctl_zeroed env.snapshot .ok hpos hm w.store
  cases hin : env.snapshot.copyFromUser with
  | false =>
      simp only [hin, if_true] at hioctl
      rw [step_saveSnapshot_of_ioctl hioctl, if_pos hfault]
      simp [SnapshotEnv.saves, hin]
  | true =>
      simp only [hin, Bool.true_eq_false, if_false] at hioctl
      by_cases hcap : entryCount w.store = m.toNat
      · rw [if_neg (not_not.2 hcap)] at hioctl
        cases hmem : env.snapshot.kmalloc with
        | false =>
            simp only [hmem, if_true] at hioctl
            rw [step_saveSnapshot_of_ioctl hioctl, if_pos hnomem]
            simp [SnapshotEnv.saves, hcap, hmem]
        | true =>
            simp only [hmem, Bool.true_eq_false, if_false] at hioctl
            cases hout : env.snapshot.copyToUser with
            | false =>
                simp only [hout, if_true] at hioctl
                rw [step_saveSnapshot_of_ioctl hioctl, if_pos hfault]
                simp [SnapshotEnv.saves, hcap, hout]
            | true =>
                simp only [hout, Bool.true_eq_false, if_false] at hioctl
                rw [step_saveSnapshot_of_ioctl hioctl, if_neg (lt_irrefl 0),
                  take_encode (count_imageOf _ _)]
                cases hopens : env.opens <;>
                  simp [SnapshotEnv.saves, written, hcap, hin, hmem, hout, hopens]
      · -- the module returns its count, and only a negative one stops the daemon
        rw [if_pos hcap] at hioctl
        have hneg := toInt_length_neg_iff w.store
        by_cases hlt : entryCount w.store < 2 ^ 31
        · rw [step_saveSnapshot_of_ioctl hioctl, if_neg (fun h => hneg.1 h hlt), take_encode_zeroed]
          simp only [SnapshotEnv.saves, written, if_neg hcap, hin, decide_eq_true hlt, Bool.true_and,
            Bool.and_true]
          cases env.opens <;> rfl
        · rw [step_saveSnapshot_of_ioctl hioctl, if_pos (hneg.2 hlt)]
          simp only [SnapshotEnv.saves, if_neg hcap, decide_eq_false hlt, Bool.and_false,
            Bool.false_eq_true, if_false]

/-- What the daemon makes of an answer to `KV_COUNT`. -/
theorem step_doKvSnapshotToFile_of_ioctl {env : SnapshotEnv} {w : World H} {ret : ℤ} {n : UInt32}
    (h : ioctl ⟨env.count, .ok, .count 0⟩ w.store = ((ret, .count n), w.store)) :
    (doKvSnapshotToFile env).step (sysExec ()) w =
      (if ret < 0 then .ret () else if n = 0 then .ret () else if !env.calloc then .ret ()
        else saveSnapshot env n, w) := by
  simp only [doKvSnapshotToFile, kvCount, Prog.call_bind, Prog.ret_bind, Prog.step_call, sysExec, h,
    counter]
  rfl

/-- The first part of the call: one system call. -/
theorem step_doKvSnapshotToFile (env : SnapshotEnv) (w : World H) :
    (doKvSnapshotToFile env).step (sysExec ()) w =
      (if env.counts (entryCount w.store) then
        saveSnapshot env (UInt32.ofNat (entryCount w.store)) else .ret (), w) := by
  have hfault : -EFAULT < 0 := by decide
  have hneg := toInt_length_neg_iff w.store
  have hioctl := @ioctl_count H ⟨env.count, .ok, .count 0⟩ 0 rfl w.store
  simp only [Int32.lt_iff_toInt_lt, Int32.toInt_zero, hneg] at hioctl
  by_cases hlt : entryCount w.store < 2 ^ 31
  · rw [if_neg (not_not.2 hlt)] at hioctl
    cases hout : env.count.copyToUser with
    | false =>
        rw [if_pos hout] at hioctl
        rw [step_doKvSnapshotToFile_of_ioctl hioctl, if_pos hfault]
        simp [SnapshotEnv.counts, hout]
    | true =>
        -- the count reaches the daemon in 32 bits
        have hcount : UInt32.ofNat w.store.1.entries.length = UInt32.ofNat (entryCount w.store) := by
          rw [← UInt32.toNat_inj, toNat_ofNat_length, toNat_ofNat_entryCount]
        have hzero : UInt32.ofNat (entryCount w.store) = 0 ↔ ¬ 0 < entryCount w.store := by
          rw [← UInt32.toNat_inj, toNat_ofNat_entryCount, UInt32.toNat_zero]
          omega
        simp only [hout, Bool.true_eq_false, if_false, hcount] at hioctl
        rw [step_doKvSnapshotToFile_of_ioctl hioctl, if_neg (lt_irrefl 0)]
        simp only [SnapshotEnv.counts, hzero, hout, decide_eq_true hlt, Bool.and_true]
        by_cases hpos : 0 < entryCount w.store
        · cases env.calloc <;> simp [hpos]
        · simp [hpos]
  · rw [if_pos hlt] at hioctl
    rw [step_doKvSnapshotToFile_of_ioctl hioctl, if_pos (hneg.2 hlt)]
    simp only [SnapshotEnv.counts, decide_eq_false hlt, Bool.and_false, Bool.false_and,
      Bool.false_eq_true, if_false]

theorem SnapshotEnv.pos_of_counts {env : SnapshotEnv} {n : ℕ} (h : env.counts n = true) :
    0 < n ∧ n < 2 ^ 31 := by
  simp only [SnapshotEnv.counts, Bool.and_eq_true, decide_eq_true_eq] at h
  exact h.1.1

/-- The second part of the call, up to the file, after the first part has found `n` entries. -/
theorem step_saveSnapshot_of_counts {env : SnapshotEnv} {n : ℕ} (h : env.counts n = true)
    (w : World H) :
    (saveSnapshot env (UInt32.ofNat n)).step (sysExec ()) w =
      (if env.saves n (entryCount w.store) then writeFile (written env n w.store).encode
        else .ret (), w) := by
  obtain ⟨hpos, hlt⟩ := SnapshotEnv.pos_of_counts h
  have hn : (UInt32.ofNat n).toNat = n :=
    UInt32.toNat_ofNat_of_lt' (lt_of_lt_of_le hlt (by decide))
  have hstep := @step_saveSnapshot H env (UInt32.ofNat n) (by rwa [hn]) (by rwa [hn]) w
  rw [hn] at hstep
  exact hstep

/-- The second part of the call, after the first part has found `n` entries. -/
theorem run_saveSnapshot_of_counts {env : SnapshotEnv} {n : ℕ} (h : env.counts n = true)
    (w : World H) :
    (saveSnapshot env (UInt32.ofNat n)).run (sysExec ()) w =
      ((), { w with
        file := if env.saves n (entryCount w.store) then some (written env n w.store).encode
          else w.file }) := by
  rw [← Prog.run_step, step_saveSnapshot_of_counts h]
  cases env.saves n (entryCount w.store) with
  | false => rfl
  | true => exact run_writeFile _ w

/-- **The whole call, undisturbed.**  Once it gets that far, the file is the image of the store. -/
theorem run_doKvSnapshotToFile (env : SnapshotEnv) (w : World H) :
    (doKvSnapshotToFile env).run (sysExec ()) w =
      ((), { w with
        file :=
          if env.counts (entryCount w.store) && env.saves (entryCount w.store) (entryCount w.store) then
            some (imageOf env.snapshot w.store).encode else w.file }) := by
  rw [← Prog.run_step, step_doKvSnapshotToFile]
  cases hcounts : env.counts (entryCount w.store) with
  | false => rfl
  | true =>
      have hrun := run_saveSnapshot_of_counts hcounts w
      rw [written, if_pos rfl] at hrun
      exact hrun

/-! ### What a restore reads and inserts -/

/-- The keys that a restore finds in the file. -/
def recordedKeys (env : RestoreEnv) (file : Option (List UInt8)) : List HashKey :=
  (file.elim [] (readEntries env)).map KvMessage.key

/-- The insertions of a restore reach the table, and memory is found for them. -/
def RestoreEnv.Inserts (env : RestoreEnv) : Prop :=
  ∀ i, (env.insert i).1.copyFromUser = true ∧ (env.insert i).2 = .ok

/-- The entries of an image are read back from its bytes. -/
theorem readEntries_encode (env : RestoreEnv) {m : KvSnapshotMessage}
    (h : m.count.toNat = m.entries.length) : readEntries env m.encode = m.entries := by
  have hlen : ¬ m.encode.length < 16 := by
    rw [m.length_encode]
    omega
  have hdata : (m.encode.drop 16).take (80 * m.count.toNat) =
      m.entries.flatMap KvMessage.encode := by
    rw [m.drop_encode]
    refine List.take_of_length_le ?_
    rw [length_flatMap_encode, h]
  simp only [readEntries, decodeHeader_encode, if_neg hlen, hdata]
  rw [h, readMessages_flatMap]

/-- An insertion makes its key present, and leaves the other keys as they are. -/
theorem get_ioctl_insert_ne_none_iff {env : KernelEnv} (hin : env.copyFromUser = true)
    (entry : KvMessage) (s : Store H) (key : HashKey) :
    (ioctl ⟨env, .ok, .message .kvInsert entry⟩ s).2.get key ≠ none ↔
      s.get key ≠ none ∨ key = entry.key := by
  rw [ioctl_snd]
  simp only [hin, dispatch, run_handleInsert, Bool.true_eq_false, if_false]
  cases hf : s.found entry.key with
  | true =>
      refine ⟨Or.inl, ?_⟩
      rintro (h | rfl)
      · exact h
      · exact Store.get_ne_none_of_found hf
  | false =>
      simp only [run_addAndReply, Store.get_add, Alloc.admits_ok, true_and, Bool.false_eq_true,
        if_false]
      by_cases hkey : key = entry.key
      · simp [hkey]
      · simp [hkey]

/-- The insertion of one entry by a restore. -/
def RestoreEnv.insertCall (env : RestoreEnv) (i : ℕ) (entry : KvMessage) : IoctlCall :=
  ⟨(env.insert i).1, (env.insert i).2, .message .kvInsert entry⟩

/-- One round of the loop: the entry is inserted, and one of the counters goes up. -/
theorem run_restoreLoop_cons (env : RestoreEnv) (status : Int32) (i : ℕ) (entry : KvMessage)
    (entries : List KvMessage) (restored skipped : UInt32) (w : World H) :
    (restoreLoop env status i (entry :: entries) restored skipped).run (sysExec ()) w =
      (let r := ioctl (env.insertCall i entry) w.store
      let skip := r.1.1 < 0 ∨ status ≠ 0
      (restoreLoop env status (i + 1) entries (if skip then restored else restored + 1)
        (if skip then skipped + 1 else skipped)).run (sysExec ()) { w with store := r.2 }) := by
  have hcall : (⟨(env.insert i).1, (env.insert i).2, .message .kvInsert entry⟩ : IoctlCall) =
      env.insertCall i entry := rfl
  simp only [restoreLoop, kvInsert, Prog.call_bind, Prog.ret_bind, Prog.run_call, sysExec, hcall]
  by_cases hskip : (ioctl (env.insertCall i entry) w.store).1.1 < 0 ∨ status ≠ 0
  · simp only [if_pos hskip]
  · simp only [if_neg hskip]

/-- The loop over the entries makes their keys present, and leaves the other keys as they are. -/
theorem get_restoreLoop {env : RestoreEnv} (henv : env.Inserts) (status : Int32)
    (entries : List KvMessage) (i : ℕ) (restored skipped : UInt32) (w : World H) (key : HashKey) :
    ((restoreLoop env status i entries restored skipped).run (sysExec ()) w).2.store.get key ≠ none ↔
      w.store.get key ≠ none ∨ key ∈ entries.map KvMessage.key := by
  induction entries generalizing i restored skipped w with
  | nil => simp [restoreLoop]
  | cons entry entries ih =>
      obtain ⟨hin, hok⟩ := henv i
      have hget := get_ioctl_insert_ne_none_iff hin entry w.store key
      rw [← hok] at hget
      rw [run_restoreLoop_cons, List.map_cons, List.mem_cons, ← or_assoc, ← hget]
      exact ih _ _ _ _

theorem file_restoreLoop (env : RestoreEnv) (status : Int32) (entries : List KvMessage) (i : ℕ)
    (restored skipped : UInt32) (w : World H) :
    ((restoreLoop env status i entries restored skipped).run (sysExec ()) w).2.file = w.file := by
  induction entries generalizing i restored skipped w with
  | nil => rfl
  | cons entry entries ih =>
      rw [run_restoreLoop_cons]
      exact ih _ _ _ _

/-- Without a file nothing is restored; otherwise the loop runs over what is read from it. -/
theorem run_doKvRestoreFromFile (env : RestoreEnv) (w : World H) :
    ((doKvRestoreFromFile env).run (sysExec ()) w).2 =
      match w.file with
      | none => w
      | some bytes =>
          ((restoreLoop env (decodeHeader bytes).status 0 (readEntries env bytes) 0 0).run
            (sysExec ()) w).2 := by
  simp only [doKvRestoreFromFile, readFile, Prog.call_bind, Prog.ret_bind, Prog.run_call, sysExec]
  cases w.file with
  | none => rfl
  | some bytes => rw [Prog.run_bind, Prog.pure_eq, Prog.run_ret]

/-- **A restore adds the keys of the entries it reads, and no others.** -/
theorem get_doKvRestoreFromFile {env : RestoreEnv} (henv : env.Inserts) (w : World H)
    (key : HashKey) :
    ((doKvRestoreFromFile env).run (sysExec ()) w).2.store.get key ≠ none ↔
      w.store.get key ≠ none ∨ key ∈ recordedKeys env w.file := by
  rw [run_doKvRestoreFromFile]
  cases w.file with
  | none => simp [recordedKeys]
  | some bytes => exact get_restoreLoop henv ..

/-- A restore leaves the file as it is. -/
theorem file_doKvRestoreFromFile (env : RestoreEnv) (w : World H) :
    ((doKvRestoreFromFile env).run (sysExec ()) w).2.file = w.file := by
  rw [run_doKvRestoreFromFile]
  cases hfile : w.file with
  | none => exact hfile
  | some bytes => exact (file_restoreLoop ..).trans hfile

end Daemon
