/-
**The ioctls of a table in memory.**

The handlers of `kernel/kvlkm.c`, with the calls they make of the table in memory.  The four handlers of
messages are those of `KvStore/KvIoctl.lean`, with each of their steps replaced by the call.  The other two
handlers are written out, because the scans that they make ask first whether there is a table.

Which buckets an ioctl uses is decided by its command and its key, before the table is looked at.  Where
there are no buckets, no head and no lock is used, whatever the command.  Where there are, the lock of a
bucket that the ioctl addresses is the first thing it uses.

Main definitions:

* `KvMemory.IoctlCall`, `KvMemory.IoctlCall.code` — an ioctl with everything it meets, and what it does;
* `KvMemory.IoctlCall.Addresses` — the buckets that it uses, where there are buckets;
* `KvMemory.IoctlCall.Admitted` — the table has no buckets, or those that the ioctl addresses have locks.

Main results:

* `KvMemory.IoctlCall.ensures_of_absent`, `KvMemory.IoctlCall.ensures_of_guarded` — **an ioctl that is
  admitted** is in order;
* `KvMemory.IoctlCall.lockReady_of_along`, `KvMemory.IoctlCall.guarded_of_along` — **one that is not** uses a
  lock that has not been initialised.
-/

import KvStore.KvIoctl
import KvStore.KvMemoryTable

set_option relaxedAutoImplicit false
set_option autoImplicit false

namespace KvMemory

open CMem KvHash KvIoctl Interleave Blocks

variable {H : HashFn}

/-! ### The handlers -/

/-- A step of a handler of messages, made of the table in memory.  These handlers visit no bucket. -/
def perform (H : HashFn) (fuel : ℕ) (places : Places) : (op : Op H) → Code (Option (KvHash.Res op))
  | .lookup key outBuf => kvHashLookup H fuel key outBuf
  | .add key value => kvHashAdd H fuel key value places
  | .remove key => kvHashRemove H fuel key
  | .visit _ => .ret none

/-- `_handle_kv_count`: the return code, and the user's counter afterwards. -/
def handleKvCount (fuel : ℕ) (env : KernelEnv) (arg : UInt32) : Code (Option (ℤ × UInt32)) := do
  let counted ← kvHashCount fuel
  match counted with
  | none => return none
  | some count =>
      if count < 0 then return some (count.toInt, arg)
      if !env.copyToUser then return some (-EFAULT, arg)
      return some (0, count.toUInt32)

/-- `_handle_snapshot`. -/
def handleSnapshot (fuel : ℕ) (msg : KvSnapshotMessage) : Code (Option (ℤ × KvSnapshotMessage)) := do
  let taken ← kvHashSnapshot fuel msg.entries msg.capacity.toNat
  match taken with
  | none => return none
  | some (ret, count, entries) =>
      if ret < 0 then
        return some (ret, { msg with status := ERROR, count := 0, entries := entries })
      return some (0, { msg with
        status := SUCCESS, count := UInt32.ofNat count, entries := entries })

/-- `_handle_kv_snapshot` once the entries have been counted. -/
def snapshotCounted (fuel : ℕ) (env : KernelEnv) (arg : KvSnapshotMessage) (actualCount : Int32) :
    Code (Option (ℤ × Option KvSnapshotMessage)) :=
  if actualCount.toUInt32 ≠ arg.capacity then return some (actualCount.toInt, none)
  else if !(env.kmalloc && decide (allocSize actualCount < 2 ^ 63)) then return some (-ENOMEM, none)
  else do
    let slots := (List.range actualCount.toUInt32.toNat).map env.heapSlot
    let handled ← handleSnapshot fuel
      { env.heapHeader with capacity := actualCount.toUInt32, entries := slots }
    match handled with
    | none => return none
    | some (ret, msg) =>
        if ret < 0 then return some (ret, none)
        if !env.copyToUser then return some (-EFAULT, none)
        return some (ret, some { msg with entries := msg.entries.take msg.count.toNat })

/-- `_handle_kv_snapshot`: the return code, and the image that is copied to the user, if it comes to
that. -/
def handleKvSnapshot (fuel : ℕ) (env : KernelEnv) (arg : KvSnapshotMessage) :
    Code (Option (ℤ × Option KvSnapshotMessage)) :=
  if !env.copyFromUser then return some (-EFAULT, none)
  else do
    let counted ← kvHashCount fuel
    match counted with
    | none => return none
    | some actualCount => snapshotCounted fuel env arg actualCount

/-- An ioctl with everything it meets. -/
structure IoctlCall where
  env : KernelEnv
  places : Places
  ioctl : Ioctl

/-- `kv_ioctl`: the return code, and the user's memory afterwards. -/
def IoctlCall.code (H : HashFn) (fuel : ℕ) (c : IoctlCall) : Code (Option (ℤ × Ioctl)) :=
  match c.ioctl with
  | .snapshot arg => do
      let r ← handleKvSnapshot fuel c.env arg
      return r.map fun (ret, image) => (ret, .snapshot (image.elim arg arg.overwrite))
  | .count arg => do
      let r ← handleKvCount fuel c.env arg
      return r.map fun (ret, arg) => (ret, .count arg)
  | .message cmd arg => do
      let r ← (handleKvMessage (H := H) c.env cmd arg).lower (perform H fuel c.places)
      return r.map fun (ret, arg) => (ret, .message cmd arg)

/-- The scans do not sleep. -/
theorem quiet_handleKvCount (fuel : ℕ) (env : KernelEnv) (arg : UInt32) :
    Quiet (handleKvCount fuel env arg) := by
  refine (quiet_kvHashCount fuel).bind fun counted => ?_
  cases counted with
  | none => trivial
  | some count => exact (quiet_ite ..).2 (by simp)

theorem quiet_handleKvSnapshot (fuel : ℕ) (env : KernelEnv) (arg : KvSnapshotMessage) :
    Quiet (handleKvSnapshot fuel env arg) := by
  have htaken : ∀ msg, Quiet (handleSnapshot fuel msg) := by
    refine fun msg => (quiet_kvHashSnapshot ..).bind fun taken => ?_
    cases taken with
    | none => trivial
    | some r => exact (quiet_ite ..).2 (by simp)
  have hcounted : ∀ actualCount, Quiet (snapshotCounted fuel env arg actualCount) := by
    intro actualCount
    simp only [snapshotCounted, quiet_ite, Prog.pure_eq, quiet_ret, implies_true, true_and]
    refine fun _ _ => (htaken _).bind fun handled => ?_
    cases handled with
    | none => trivial
    | some r => exact (quiet_ite ..).2 (by simp)
  rw [handleKvSnapshot, quiet_ite]
  refine ⟨fun _ => trivial, fun _ => (quiet_kvHashCount fuel).bind fun counted => ?_⟩
  cases counted with
  | none => trivial
  | some actualCount => exact hcounted actualCount

/-- The return code of the ioctl. -/
def IoctlCall.ret (H : HashFn) (c : IoctlCall) (m : Memory) : Option ℤ :=
  ((c.code H m.live.card).run exec m).1.map Prod.fst

/-- The memory after the ioctl. -/
def IoctlCall.next (H : HashFn) (m : Memory) (c : IoctlCall) : Memory :=
  ((c.code H m.live.card).run exec m).2

/-- The buckets that the ioctl uses, where there are buckets.  An unknown command uses none, and neither
does an argument that cannot be copied in. -/
def IoctlCall.Addresses (H : HashFn) (c : IoctlCall) (b : ℕ) : Prop :=
  match c.ioctl with
  | .message cmd arg => c.env.copyFromUser = true ∧ (∀ n, cmd ≠ .unknown n) ∧ b = H.hashMin arg.key
  | .snapshot _ => c.env.copyFromUser = true
  | .count _ => True

/-- The table has no buckets, or the locks of the buckets that the ioctl addresses have been
initialised. -/
def IoctlCall.Admitted (H : HashFn) (m : Memory) (c : IoctlCall) : Prop :=
  m.table.buckets = none ∨ ∀ b < H.n, c.Addresses H b → m.LockReady m.table.bucketLocks b

/-! ### Ioctls that change nothing -/

section Fixed

variable {P : Memory → Instr → Prop} {m : Memory} {fuel : ℕ}

theorem ensures_handleKvCount (hcount : (kvHashCount fuel).Ensures exec P (fun _ t => t = m) m)
    (env : KernelEnv) (arg : UInt32) :
    (handleKvCount fuel env arg).Ensures exec P (fun _ t => t = m) m := by
  refine hcount.bind_fixed exec ?_
  rintro (- | count) <;> simp

section Snapshot

variable (htaken : ∀ entries maxEntries,
  (kvHashSnapshot fuel entries maxEntries).Ensures exec P (fun _ t => t = m) m)
include htaken

theorem ensures_handleSnapshot (msg : KvSnapshotMessage) :
    (handleSnapshot fuel msg).Ensures exec P (fun _ t => t = m) m := by
  refine (htaken ..).bind_fixed exec ?_
  rintro (- | ⟨ret, count, entries⟩) <;> simp

theorem ensures_snapshotCounted (env : KernelEnv) (arg : KvSnapshotMessage) (actualCount : Int32) :
    (snapshotCounted fuel env arg actualCount).Ensures exec P (fun _ t => t = m) m := by
  simp only [snapshotCounted, Prog.ensures_ite, Prog.pure_eq, Prog.ensures_ret, implies_true, true_and]
  intro _ _
  refine (ensures_handleSnapshot htaken _).bind_fixed exec ?_
  rintro (- | ⟨ret, msg⟩) <;> simp

theorem ensures_handleKvSnapshot (hcount : (kvHashCount fuel).Ensures exec P (fun _ t => t = m) m)
    (env : KernelEnv) (arg : KvSnapshotMessage) :
    (handleKvSnapshot fuel env arg).Ensures exec P (fun _ t => t = m) m := by
  simp only [handleKvSnapshot, Prog.ensures_ite, Prog.pure_eq, Prog.ensures_ret, implies_true, true_and]
  intro _
  refine hcount.bind_fixed exec ?_
  rintro (- | actualCount)
  · exact ⟨trivial, rfl⟩
  · exact ensures_snapshotCounted htaken env arg actualCount

end Snapshot

/-- What becomes of the user's memory is decided when the table has been left. -/
theorem ensures_map {α β : Type} {p : Code (Option α)} {Q : Memory → Prop}
    (h : p.Ensures exec P (fun _ t => Q t) m) (f : α → β) :
    (p >>= fun r => Prog.ret (r.map f)).Ensures exec P (fun _ t => Q t) m :=
  (Prog.ensures_bind ..).2 (h.mono exec (fun _ _ => id) fun _ _ ht => (Prog.ensures_ret ..).2 ht)

end Fixed

/-- Where there are no buckets, nothing is used but the structure. -/
theorem IoctlCall.ensures_of_absent {m : Memory} (h : m.table.buckets = none) (c : IoctlCall) (fuel : ℕ) :
    (c.code H fuel).Ensures exec Ready (fun _ t => t = m) m := by
  have hlook : Ready m .table := by simp [Ready, Instr.headOf, Instr.lockOf]
  have hcount : (kvHashCount fuel).Ensures exec Ready (fun _ t => t = m) m := by
    simp [kvHashCount, instr, exec, h, hlook]
  have htaken : ∀ entries maxEntries,
      (kvHashSnapshot fuel entries maxEntries).Ensures exec Ready (fun _ t => t = m) m := by
    simp [kvHashSnapshot, instr, exec, h, hlook]
  have hperform : ∀ op, (perform H fuel c.places op).Ensures exec Ready (fun _ t => t = m) m := by
    intro op
    cases op with
    | lookup key outBuf => simp [perform, kvHashLookup, instr, exec, h, hlook]
    | add key value => simp [perform, kvHashAdd, instr, exec, h, hlook]
    | remove key => simp [perform, kvHashRemove, instr, exec, h, hlook]
    | visit b => simp [perform]
  obtain ⟨env, places, ioctl⟩ := c
  cases ioctl with
  | message cmd arg => exact ensures_map (Prog.ensures_lower _ exec hperform _) _
  | snapshot arg => exact ensures_map (ensures_handleKvSnapshot htaken hcount env arg) _
  | count arg => exact ensures_map (ensures_handleKvCount hcount env arg) _

/-- An ioctl that addresses no bucket is over at once. -/
theorem IoctlCall.exists_ret {c : IoctlCall} (h : ∀ b < H.n, ¬ c.Addresses H b) (fuel : ℕ) :
    ∃ r, c.code H fuel = .ret r := by
  obtain ⟨env, places, ioctl⟩ := c
  cases ioctl with
  | message cmd arg =>
      have hkey := h _ (H.hashMin_lt arg.key)
      cases hcopy : env.copyFromUser with
      | false => exact ⟨some (-EFAULT, .message cmd arg), by simp [code, handleKvMessage, hcopy]⟩
      | true =>
          cases cmd with
          | unknown n =>
              refine ⟨some (-EINVAL, .message (.unknown n) arg), ?_⟩
              simp only [code, handleKvMessage, hcopy, Bool.not_true, Bool.false_eq_true, if_false, dispatch]
              rfl
          | _ =>
              refine absurd ⟨hcopy, ?_, rfl⟩ hkey
              rintro n ⟨⟩
  | snapshot arg =>
      have hcopy : env.copyFromUser = false := by simpa [Addresses] using h 0 (Nat.two_pow_pos _)
      exact ⟨some (-EFAULT, .snapshot arg), by simp [code, handleKvSnapshot, hcopy]⟩
  | count arg => exact absurd trivial (h 0 (Nat.two_pow_pos _))

/-! ### Ioctls of a table that has some of its locks -/

/-- The arrays are there and have been initialised up to the same buckets, and no call is under way. -/
def InUse (H : HashFn) (frame : Addr × Addr × ℕ × ℕ) (m : Memory) : Prop :=
  ∃ L, Holds H m L [] ∧ m.held = [] ∧ L.frame = frame

section InUse

variable {m : Memory} {L : Layout}

theorem Leaves.inUse {L' : Layout} {t : Memory} {b : ℕ} {chain : KvHash.Chain}
    (h : Leaves H L m b chain t L') : InUse H L.frame t := ⟨L', h.holds, h.held, h.frame⟩

/-- The end of `_handle_insert` and of `_handle_update`. -/
theorem ensures_addAndReply (h : Holds H m L []) (hheld : m.held = []) {msg : KvMessage}
    (hb : H.hashMin msg.key < L.guarded) (env : KernelEnv) (places : Places) (failed : List UInt8) :
    ((addAndReply env msg failed).lower (perform H m.live.card places)).Ensures exec (Fine L.ready)
      (fun _ t => InUse H L.frame t) m := by
  simp only [addAndReply, add, Prog.call_bind, Prog.ret_bind, Prog.lower_call, Prog.ensures_bind]
  refine (ensures_kvHashAdd h hheld hb le_rfl _ places).mono exec (fun _ _ => id) ?_
  rintro r t ⟨rfl, L', hleaves⟩
  simp [hleaves.inUse]

/-- The handlers of messages, if the lock of the bucket of their key has been initialised. -/
theorem ensures_dispatch (h : Holds H m L []) (hheld : m.held = []) {arg : KvMessage}
    (hb : H.hashMin arg.key < L.guarded) (env : KernelEnv) (places : Places) (cmd : Cmd) :
    ((dispatch env cmd arg).lower (perform H m.live.card places)).Ensures exec (Fine L.ready)
      (fun _ t => InUse H L.frame t) m := by
  have hreply := ensures_addAndReply h hheld hb env places
  have hsame : InUse H L.frame m := ⟨L, h, hheld, rfl⟩
  cases cmd with
  | kvInsert =>
      simp only [dispatch, handleInsert, lookup, Prog.call_bind, Prog.ret_bind, Prog.lower_call,
        Prog.ensures_bind]
      refine (ensures_kvHashLookup h hheld hb le_rfl _).mono exec (fun _ _ => id) ?_
      rintro r t ⟨rfl, rfl⟩
      simp [hreply, hsame]
  | kvUpdate =>
      simp only [dispatch, handleUpdate, lookup, Prog.call_bind, Prog.ret_bind, Prog.lower_call,
        Prog.ensures_bind]
      refine (ensures_kvHashLookup h hheld hb le_rfl _).mono exec (fun _ _ => id) ?_
      rintro r t ⟨rfl, rfl⟩
      simp [hreply, hsame]
  | kvGet =>
      simp only [dispatch, handleGet, lookup, Prog.call_bind, Prog.ret_bind, Prog.lower_call,
        Prog.ensures_bind]
      refine (ensures_kvHashLookup h hheld hb le_rfl _).mono exec (fun _ _ => id) ?_
      rintro r t ⟨rfl, rfl⟩
      simp [hsame]
  | kvDelete =>
      simp only [dispatch, handleDelete, remove, Prog.call_bind, Prog.ret_bind, Prog.lower_call,
        Prog.ensures_bind]
      refine (ensures_kvHashRemove h hheld hb le_rfl).mono exec (fun _ _ => id) ?_
      rintro r t ⟨rfl, L', hleaves⟩
      simp [hleaves.inUse]
  | unknown n => exact ⟨trivial, hsame⟩

theorem Holds.guarded_eq (h : Holds H m L []) (hg : ∀ b < H.n, b < L.guarded) : L.guarded = H.n := by
  refine le_antisymm (h.guarded_le.trans h.ready_le) ?_
  by_contra hlt
  exact lt_irrefl _ (hg _ (not_le.1 hlt))

/-- An ioctl for which the locks of its buckets have been initialised. -/
theorem IoctlCall.ensures_of_guarded (h : Holds H m L []) (hheld : m.held = []) (c : IoctlCall)
    (hc : ∀ b < H.n, c.Addresses H b → b < L.guarded) :
    (c.code H m.live.card).Ensures exec (Fine L.ready) (fun _ t => InUse H L.frame t) m := by
  have hsame : ∀ t, t = m → InUse H L.frame t := by
    rintro t rfl
    exact ⟨L, h, hheld, rfl⟩
  by_cases haddr : ∃ b < H.n, c.Addresses H b
  · obtain ⟨b, hb, haddr⟩ := haddr
    obtain ⟨env, places, ioctl⟩ := c
    cases ioctl with
    | message cmd arg =>
        have hkey : H.hashMin arg.key < L.guarded := haddr.2.2 ▸ hc b hb haddr
        have hcopied : ¬ (!env.copyFromUser) = true := by simp [show env.copyFromUser = true from haddr.1]
        refine ensures_map ?_ _
        rw [handleKvMessage, if_neg hcopied, Prog.lower_bind, Prog.ensures_bind]
        refine (ensures_dispatch h hheld hkey env places cmd).mono exec (fun _ _ => id) ?_
        rintro (- | ⟨ret, msg⟩) t ht <;> simp [ht]
    | snapshot arg =>
        have hg := h.guarded_eq fun b hb => hc b hb haddr
        have hsnapshot := ensures_handleKvSnapshot
          (fun entries maxEntries => (ensures_kvHashSnapshot h hheld hg le_rfl entries
            maxEntries).mono exec (fun _ _ => id) fun _ _ ht => ht.1)
          ((ensures_kvHashCount h hheld hg le_rfl).mono exec (fun _ _ => id) fun _ _ ht => ht.1) env arg
        exact ensures_map (hsnapshot.mono exec (fun _ _ => id) fun _ => hsame) _
    | count arg =>
        have hg := h.guarded_eq fun b hb => hc b hb trivial
        have hcount := ensures_handleKvCount
          ((ensures_kvHashCount h hheld hg le_rfl).mono exec (fun _ _ => id) fun _ _ ht => ht.1) env arg
        exact ensures_map (hcount.mono exec (fun _ _ => id) fun _ => hsame) _
  · obtain ⟨r, hr⟩ := exists_ret (fun b hb hab => haddr ⟨b, hb, hab⟩) m.live.card
    rw [hr]
    exact ⟨trivial, hsame m rfl⟩

end InUse

/-! ### Ioctls that come too early -/

section TooEarly

variable {m : Memory} {fuel : ℕ}

theorem lockReady_of_lookup (hbuckets : m.table.buckets ≠ none) {key : HashKey}
    {outBuf : Buf MAX_VALUE_LEN} (h : (kvHashLookup H fuel key outBuf).Along exec Ready m) :
    m.LockReady m.table.bucketLocks (H.hashMin key) := by
  have hguard : ¬ (m.table.buckets = none ∨ MAX_VALUE_LEN = 0) := by
    rintro (hnull | hzero)
    · exact hbuckets hnull
    · cases hzero
  simp only [kvHashLookup, instr, Prog.call_bind, Prog.ret_bind, Prog.along_call] at h
  rw [show exec .table m = (m.table, m) from rfl, if_neg hguard, Prog.along_call] at h
  exact h.2.1.2 _ _ rfl

theorem lockReady_of_remove (hbuckets : m.table.buckets ≠ none) {key : HashKey}
    (h : (kvHashRemove H fuel key).Along exec Ready m) :
    m.LockReady m.table.bucketLocks (H.hashMin key) := by
  simp only [kvHashRemove, instr, Prog.call_bind, Prog.ret_bind, Prog.along_call] at h
  rw [show exec .table m = (m.table, m) from rfl, if_neg hbuckets, Prog.along_call] at h
  exact h.2.1.2 _ _ rfl

/-- The first thing that a handler of a message uses is the lock of the bucket of its key. -/
theorem lockReady_of_dispatch (hbuckets : m.table.buckets ≠ none) {env : KernelEnv} {places : Places}
    {cmd : Cmd} {arg : KvMessage} (hcmd : ∀ n, cmd ≠ .unknown n)
    (h : ((dispatch env cmd arg).lower (perform H fuel places)).Along exec Ready m) :
    m.LockReady m.table.bucketLocks (H.hashMin arg.key) := by
  cases cmd with
  | kvDelete =>
      simp only [dispatch, handleDelete, remove, Prog.call_bind, Prog.ret_bind, Prog.lower_call,
        Prog.along_bind] at h
      exact lockReady_of_remove hbuckets h.1
  | unknown n => exact absurd rfl (hcmd n)
  | _ =>
      simp only [dispatch, handleInsert, handleUpdate, handleGet, lookup, Prog.call_bind, Prog.ret_bind,
        Prog.lower_call, Prog.along_bind] at h
      exact lockReady_of_lookup hbuckets h.1

/-- The first thing that a scan uses is the lock of the first bucket. -/
theorem lockReady_of_count (hbuckets : m.table.buckets ≠ none)
    (h : (kvHashCount fuel).Along exec Ready m) : m.LockReady m.table.bucketLocks 0 := by
  obtain ⟨n, hn⟩ : ∃ n, 2 ^ m.table.bits = n + 1 := Nat.exists_eq_add_of_le' Nat.one_le_two_pow
  simp only [kvHashCount, instr, Prog.call_bind, Prog.ret_bind, Prog.along_call] at h
  rw [show exec .table m = (m.table, m) from rfl, if_neg hbuckets, hn, List.range_succ_eq_map] at h
  exact h.2.1.2 _ _ rfl

theorem Holds.lockReady_iff {L : Layout} {hand : List Addr} (h : Holds H m L hand) {b : ℕ} :
    m.LockReady m.table.bucketLocks b ↔ b < L.guarded := by
  rw [h.table, Memory.LockReady]
  simp [h.lockReady]

/-- A scan gets as far as the locks have been initialised. -/
theorem guarded_of_countBuckets {L : Layout} (h : Holds H m L []) (hf : m.live.card ≤ fuel) {bs : List ℕ}
    {count : Int32} (halong : (countBuckets (L.toTable H) fuel bs count).Along exec Ready m) :
    ∀ b ∈ bs, b < L.guarded := by
  induction bs generalizing count with
  | nil =>
      rintro b ⟨⟩
  | cons b bs ih =>
      simp only [countBuckets, instr, Prog.call_bind, Prog.ret_bind, Prog.along_call] at halong
      obtain ⟨hlock, -, hrest⟩ := halong
      have hready : m.LockReady m.table.bucketLocks b := h.table ▸ hlock.2 _ _ rfl
      have hb : b < L.guarded := h.lockReady_iff.1 hready
      have hchain := h.chain b (hb.trans_le h.guarded_le)
      have hlen := (h.length_chain_le (hb.trans_le h.guarded_le)).trans hf
      have hwalk := ensures_countWalk (P := fun _ _ => True)
        (m := { m with held := b :: m.held }) hchain hlen (fun _ _ => trivial) count
      have hafter := ((Prog.along_bind ..).1 hrest).2
      -- the walk returns, and then the lock is given back
      rw [show (exec (.load (.head (some L.buckets, b)))
          (exec (.lock (some L.locks) b) m).2).1 = m.links.slot (L.head b) from rfl,
        show (exec (.load (.head (some L.buckets, b))) (exec (.lock (some L.locks) b) m).2).2 =
          { m with held := b :: m.held } from rfl, hwalk.2.1, hwalk.2.2] at hafter
      have hunlocked : (countBuckets (L.toTable H) fuel bs _).Along exec Ready
          (exec (.unlock (some L.locks) b) { m with held := b :: m.held }).2 := hafter.2
      rw [show (exec (.unlock (some L.locks) b) { m with held := b :: m.held }).2 = m from
        Memory.unlock_lock m b] at hunlocked
      intro c hc
      rcases List.mem_cons.1 hc with rfl | hc
      · exact hb
      · exact ih hunlocked c hc

/-- What an ioctl that addresses a bucket does first: a step of a message, or a scan. -/
theorem IoctlCall.along_cases {P : Memory → Instr → Prop} {c : IoctlCall} {b : ℕ}
    (haddr : c.Addresses H b) (h : (c.code H fuel).Along exec P m) :
    (∃ cmd arg, (∀ n, cmd ≠ .unknown n) ∧ b = H.hashMin arg.key ∧
      ((dispatch c.env cmd arg).lower (perform H fuel c.places)).Along exec P m) ∨
    (kvHashCount fuel).Along exec P m := by
  obtain ⟨env, places, ioctl⟩ := c
  cases ioctl with
  | message cmd arg =>
      obtain ⟨hcopy, hcmd, hkey⟩ := haddr
      have hcopied : ¬ (!env.copyFromUser) = true := by simp [show env.copyFromUser = true from hcopy]
      have hhandler := ((Prog.along_bind ..).1 h).1
      rw [handleKvMessage, if_neg hcopied, Prog.lower_bind] at hhandler
      exact .inl ⟨cmd, arg, hcmd, hkey, ((Prog.along_bind ..).1 hhandler).1⟩
  | snapshot arg =>
      have hcopied : ¬ (!env.copyFromUser) = true := by simp [show env.copyFromUser = true from haddr]
      have hhandler := ((Prog.along_bind ..).1 h).1
      rw [handleKvSnapshot, if_neg hcopied] at hhandler
      exact .inr ((Prog.along_bind ..).1 hhandler).1
  | count arg =>
      have hhandler := ((Prog.along_bind ..).1 h).1
      exact .inr ((Prog.along_bind ..).1 hhandler).1

/-- An ioctl that addresses a bucket, and uses no lock that has not been initialised, finds one that has
been. -/
theorem IoctlCall.lockReady_of_along (hbuckets : m.table.buckets ≠ none) {c : IoctlCall} {b : ℕ}
    (haddr : c.Addresses H b) (h : (c.code H fuel).Along exec Ready m) :
    ∃ b', m.LockReady m.table.bucketLocks b' := by
  obtain ⟨cmd, arg, hcmd, -, hdispatch⟩ | hcount := along_cases haddr h
  · exact ⟨_, lockReady_of_dispatch hbuckets hcmd hdispatch⟩
  · exact ⟨0, lockReady_of_count hbuckets hcount⟩

/-- Where the arrays are there, it finds the locks of all the buckets that it addresses. -/
theorem IoctlCall.guarded_of_along {L : Layout} (h : Holds H m L []) {c : IoctlCall} {b : ℕ}
    (hb : b < H.n) (haddr : c.Addresses H b) (halong : (c.code H m.live.card).Along exec Ready m) :
    b < L.guarded := by
  have hbuckets : m.table.buckets ≠ none := by simp [h.table]
  obtain ⟨cmd, arg, hcmd, rfl, hdispatch⟩ | hcount := along_cases haddr halong
  · exact h.lockReady_iff.1 (lockReady_of_dispatch hbuckets hcmd hdispatch)
  · simp only [kvHashCount, instr, Prog.call_bind, Prog.ret_bind, Prog.along_call] at hcount
    rw [show exec .table m = (L.toTable H, m) from congrArg (·, m) h.table,
      if_neg (Option.some_ne_none _)] at hcount
    exact guarded_of_countBuckets h le_rfl hcount.2 b (List.mem_range.2 hb)

end TooEarly

end KvMemory
