/-
**A snapshot of the daemon amid other threads.**

`do_kv_snapshot_to_file` goes over the buckets of the table three times: `KV_COUNT` counts the entries,
`KV_SNAPSHOT` counts them again, and then it copies them.  Between two buckets the other threads add and
remove entries.  This module says what is left of the call at each place, as long as what it meets on its
way fits together: `KV_COUNT` meets at least one entry and fewer than `2 ^ 31`, the second scan meets as
many, and the third one no more than that.

What the scans meet is recorded beside the program (`Daemon.Scans`), because the program itself keeps only
what it needs.

Main definitions:

* `Daemon.Scans`, `Daemon.Scans.visit`, `Daemon.Scans.fits` — what the scans have met;
* `Daemon.counting`, `Daemon.copying` — what is left of a call in its scans;
* `Daemon.imageWith` — the image of the entries that have been copied.

Main results:

* `Daemon.counting_of_lt`, `Daemon.copying_of_lt` — the visit of one bucket;
* `Daemon.afterCounting_ofNat`, `Daemon.afterRecounting_ofNat`, `Daemon.afterCopying_filled` — the end of
  each of the three scans.
-/

import KvStore.DaemonFileRace
import KvStore.DaemonThreads
import KvStore.KvSnapshot

set_option relaxedAutoImplicit false
set_option autoImplicit false

namespace Daemon

open CMem Interleave KvHash KvIoctl

variable {H : HashFn} {α : Type}

/-! ### What the scans meet -/

/-- What a call has met on its way: how many buckets it has visited, and how many entries in each of its
three scans. -/
structure Scans where
  visits : ℕ
  counted : ℕ
  recounted : ℕ
  copied : ℕ
deriving DecidableEq

/-- Nothing yet. -/
def Scans.zero : Scans := ⟨0, 0, 0, 0⟩

/-- A bucket is visited, of `n` in each scan. -/
def Scans.visit (n : ℕ) (x : Scans) (entries : ℕ) : Scans :=
  if x.visits < n then { x with visits := x.visits + 1, counted := x.counted + entries }
  else if x.visits < 2 * n then { x with visits := x.visits + 1, recounted := x.recounted + entries }
  else { x with visits := x.visits + 1, copied := x.copied + entries }

/-- What the scans have met fits together: the first one finds a positive number of entries that is an
`int`, the second one as many, and the third one no more. -/
def Scans.fits (n : ℕ) (x : Scans) : Bool :=
  (x.visits != n || (decide (0 < x.counted) && decide (x.counted < 2 ^ 31))) &&
    (x.visits != 2 * n || x.recounted == x.counted) && decide (x.copied ≤ x.counted)

namespace Scans

variable {n : ℕ} {x : Scans}

theorem counted_of_fits (h : x.fits n = true) (hx : x.visits = n) : 0 < x.counted ∧ x.counted < 2 ^ 31 := by
  simp only [fits, hx, bne_self_eq_false, Bool.false_or, Bool.and_eq_true, decide_eq_true_eq] at h
  exact h.1.1

theorem recounted_of_fits (h : x.fits n = true) (hx : x.visits = 2 * n) : x.recounted = x.counted := by
  simp only [fits, hx, bne_self_eq_false, Bool.false_or, Bool.and_eq_true, beq_iff_eq] at h
  exact h.1.2

theorem copied_of_fits (h : x.fits n = true) : x.copied ≤ x.counted := by
  rw [fits, Bool.and_eq_true, decide_eq_true_eq] at h
  exact h.2

theorem visit_of_lt (h : x.visits < n) (entries : ℕ) :
    x.visit n entries = { x with visits := x.visits + 1, counted := x.counted + entries } := if_pos h

theorem visit_add (h : x.visits < 2 * n) (hn : n ≤ x.visits) (entries : ℕ) :
    x.visit n entries = { x with visits := x.visits + 1, recounted := x.recounted + entries } := by
  rw [visit, if_neg (Nat.not_lt.2 hn), if_pos h]

theorem visit_of_le (h : 2 * n ≤ x.visits) (entries : ℕ) :
    x.visit n entries = { x with visits := x.visits + 1, copied := x.copied + entries } := by
  rw [visit, if_neg (by omega), if_neg (Nat.not_lt.2 h)]

end Scans

/-- What a step meets. -/
def Step.scanned (x : Scans) (s : Store H) : Step H → Scans
  | .table _ (.visit b) => x.visit H.n (s.1.chain b).length
  | _ => x

/-! ### Visits -/

/-- The bucket that a scan visits next. -/
theorem ahead_of_lt {t : ℕ} (h : t < H.n) : ahead H t = ⟨t, h⟩ :: ahead H (t + 1) := by
  have hlen : t < (List.finRange H.n).length := by rwa [List.length_finRange]
  rw [ahead, List.drop_eq_getElem_cons hlen, List.getElem_finRange]
  rfl

/-- What is left of a call that has `m` entries counted in `t` buckets. -/
def counting (c : IoctlCall) (t m : ℕ) (g : Int32 → Code H α) : Code H α :=
  inside c (countLoop (ahead H t) (Int32.ofNat m)) >>= g

theorem counting_of_lt (c : IoctlCall) {t : ℕ} (h : t < H.n) (m : ℕ) (g : Int32 → Code H α) :
    counting c t m g =
      .call (.table c (.visit ⟨t, h⟩)) fun chain => counting c (t + 1) (m + chain.length) g := by
  rw [counting, ahead_of_lt h]
  refine congrArg (Prog.call (Step.table c (.visit ⟨t, h⟩))) (funext fun chain => ?_)
  rw [counting, ← countChain_ofNat]
  rfl

theorem counting_of_le (c : IoctlCall) {t : ℕ} (h : H.n ≤ t) (m : ℕ) (g : Int32 → Code H α) :
    counting c t m g = g (Int32.ofNat m) := by
  rw [counting, ahead_of_le h]
  rfl

/-- What is left of a call that has copied the entries `done` of `t` buckets. -/
def copying (c : IoctlCall) (t : ℕ) (slots : List KvMessage) (done : Chain)
    (g : ℤ × ℕ × List KvMessage → Code H α) : Code H α :=
  inside c (copyLoop slots.length (ahead H t) done.length (filled slots done)) >>= g

/-- The visit of a bucket whose entries find room. -/
theorem copying_of_lt (c : IoctlCall) {t : ℕ} (h : t < H.n) (slots : List KvMessage) (done : Chain)
    (g : ℤ × ℕ × List KvMessage → Code H α) :
    ∃ k : Chain → Code H α, copying c t slots done g = .call (.table c (.visit ⟨t, h⟩)) k ∧
      ∀ chain : Chain, (done ++ chain).length ≤ slots.length →
        k chain = copying c (t + 1) slots (done ++ chain) g := by
  rw [copying, ahead_of_lt h]
  refine ⟨_, rfl, fun chain hroom => ?_⟩
  rw [List.length_append] at hroom
  have hcopy := @copyChain_filled slots chain done (by omega)
  have htake : (done ++ chain).take slots.length = done ++ chain :=
    List.take_of_length_le (by rwa [List.length_append])
  have hfull : ¬ slots.length < done.length + chain.length := by omega
  rw [htake, decide_eq_false hfull] at hcopy
  change inside c _ >>= g = _
  beta_reduce
  rw [hcopy]
  rfl

theorem copying_of_le (c : IoctlCall) {t : ℕ} (h : H.n ≤ t) (slots : List KvMessage) (done : Chain)
    (g : ℤ × ℕ × List KvMessage → Code H α) :
    copying c t slots done g = g (0, done.length, filled slots done) := by
  rw [copying, ahead_of_le h]
  rfl

/-! ### `KV_COUNT` -/

/-- The first ioctl of a snapshot. -/
def SnapshotEnv.countCall (env : SnapshotEnv) : IoctlCall := ⟨env.count, .ok, .count 0⟩

/-- What the daemon does with the answer to `KV_COUNT`. -/
def afterKvCount (env : SnapshotEnv) (r : ℤ × Ioctl) : Task Unit :=
  if r.1 < 0 then return
  else if counter 0 r.2 = 0 then return
  else if !env.calloc then return
  else saveSnapshot env (counter 0 r.2)

/-- What is left of the call once `KV_COUNT` has counted. -/
def afterCounting (env : SnapshotEnv) (count : Int32) : Code H Unit :=
  inside env.countCall
      (if count < 0 then return (count.toInt, Ioctl.count 0)
        else if !env.count.copyToUser then return (-EFAULT, Ioctl.count 0)
        else return (0, Ioctl.count count.toUInt32)) >>= fun r =>
    stepwise (afterKvCount env r)

/-- The call begins with a count. -/
theorem stepwise_doKvSnapshotToFile (env : SnapshotEnv) :
    ∃ k : Bool → Code H Unit, stepwise (doKvSnapshotToFile env) = .call .enter k ∧
      k true = counting env.countCall 0 0 (afterCounting env) := by
  have hcall : doKvSnapshotToFile env = .call (.ioctl env.countCall) (afterKvCount env) := rfl
  have hioctl : (kvIoctl env.count (.count 0) : Kernel H (ℤ × Ioctl)) =
      countLoop (ahead H 0) (Int32.ofNat 0) >>= fun count =>
        if count < 0 then return (count.toInt, Ioctl.count 0)
        else if !env.count.copyToUser then return (-EFAULT, Ioctl.count 0)
        else return (0, Ioctl.count count.toUInt32) := by
    rw [kvIoctl, handleKvCount, Prog.bind_assoc]
    refine congrArg (kvHashCount >>= ·) (funext fun count => ?_)
    split
    · rfl
    · split
      · rfl
      · rfl
  rw [hcall, stepwise_ioctl]
  refine ⟨_, rfl, ?_⟩
  rw [if_pos rfl, counting, SnapshotEnv.countCall, hioctl, inside_bind, Prog.bind_assoc]
  rfl

/-- **The end of the first scan**: the daemon asks for a snapshot of as many entries. -/
theorem afterCounting_ofNat {env : SnapshotEnv} (henv : env.Succeeds) {n : ℕ} (hpos : 0 < n)
    (hlt : n < 2 ^ 31) :
    (afterCounting env (Int32.ofNat n) : Code H Unit) = stepwise (saveSnapshot env (UInt32.ofNat n)) := by
  have hneg : ¬ Int32.ofNat n < 0 := by
    rw [Int32.lt_iff_toInt_lt, Int32.toInt_ofNat_of_lt hlt, Int32.toInt_zero]
    omega
  have hzero : UInt32.ofNat n ≠ 0 := by
    rw [Ne, ← UInt32.toNat_inj, UInt32.toNat_ofNat_of_lt' (lt_of_lt_of_le hlt (by decide)),
      UInt32.toNat_zero]
    omega
  have hreply : ¬ (0 : ℤ) < 0 := lt_irrefl 0
  rw [afterCounting, if_neg hneg, henv.count, Int32.toUInt32_ofNat']
  simp only [Bool.not_true, Bool.false_eq_true, if_false, Prog.pure_eq, inside_ret, Prog.ret_bind,
    afterKvCount, counter, hzero, henv.calloc, hreply]

/-! ### `KV_SNAPSHOT` -/

/-- The second ioctl, after `n` entries have been counted. -/
def SnapshotEnv.snapshotCall (env : SnapshotEnv) (n : ℕ) : IoctlCall :=
  ⟨env.snapshot, .ok, .snapshot (zeroed (UInt32.ofNat n))⟩

/-- The slots of the snapshot in the kernel. -/
def SnapshotEnv.slots (env : SnapshotEnv) (n : ℕ) : List KvMessage :=
  (List.range n).map env.snapshot.heapSlot

/-- The image of the entries `done`, in a snapshot of `n` slots. -/
def imageWith (env : SnapshotEnv) (n : ℕ) (done : Chain) : KvSnapshotMessage :=
  { env.snapshot.heapHeader with
    status := SUCCESS
    capacity := UInt32.ofNat n
    count := UInt32.ofNat done.length
    entries := List.zipWith copyEntry done (env.slots n) }

/-- What the daemon does with the answer to `KV_SNAPSHOT`. -/
def afterKvSnapshot (env : SnapshotEnv) (n : ℕ) (r : ℤ × Ioctl) : Task Unit :=
  let snapshot := buffer (zeroed (UInt32.ofNat n)) r.2
  if r.1 < 0 then return
  else if !env.opens then return
  else writeFile (snapshot.encode.take (16 + snapshot.count.toNat * 80))

/-- The answer to `KV_SNAPSHOT`. -/
def snapshotReply (n : ℕ) (r : ℤ × Option KvSnapshotMessage) : ℤ × Ioctl :=
  (r.1, .snapshot (r.2.elim (zeroed (UInt32.ofNat n)) (zeroed (UInt32.ofNat n)).overwrite))

/-- What is left of the call once `KV_SNAPSHOT` has counted. -/
def afterRecounting (env : SnapshotEnv) (n : ℕ) (count : Int32) : Code H Unit :=
  inside (env.snapshotCall n) (snapshotCounted env.snapshot (zeroed (UInt32.ofNat n)) count) >>= fun r =>
    stepwise (afterKvSnapshot env n (snapshotReply n r))

/-- What is left of the call once `KV_SNAPSHOT` has copied. -/
def afterCopying (env : SnapshotEnv) (n : ℕ) (r : ℤ × ℕ × List KvMessage) : Code H Unit :=
  inside (env.snapshotCall n) (snapshotCopied env.snapshot (UInt32.ofNat n) r) >>= fun r =>
    stepwise (afterKvSnapshot env n (snapshotReply n r))

section Snapshot

variable {env : SnapshotEnv} {n : ℕ}

theorem length_slots (env : SnapshotEnv) (n : ℕ) : (env.slots n).length = n := by
  rw [SnapshotEnv.slots, List.length_map, List.length_range]

/-- The second part of the call begins with a count. -/
theorem stepwise_saveSnapshot (henv : env.Succeeds) (n : ℕ) :
    ∃ k : Bool → Code H Unit, stepwise (saveSnapshot env (UInt32.ofNat n)) = .call .enter k ∧
      k true = counting (env.snapshotCall n) 0 0 (afterRecounting env n) := by
  have hcall : saveSnapshot env (UInt32.ofNat n) =
      .call (.ioctl (env.snapshotCall n)) (afterKvSnapshot env n) := rfl
  have hioctl : (kvIoctl env.snapshot (.snapshot (zeroed (UInt32.ofNat n))) : Kernel H (ℤ × Ioctl)) =
      countLoop (ahead H 0) (Int32.ofNat 0) >>= fun count =>
        snapshotCounted env.snapshot (zeroed (UInt32.ofNat n)) count >>= fun r =>
          .ret (snapshotReply n r) := by
    rw [kvIoctl, handleKvSnapshot, henv.copyFromUser, Bool.not_true, if_neg Bool.false_ne_true,
      Prog.bind_assoc]
    rfl
  rw [hcall, stepwise_ioctl]
  refine ⟨_, rfl, ?_⟩
  rw [if_pos rfl, counting, SnapshotEnv.snapshotCall, hioctl, inside_bind, Prog.bind_assoc]
  refine congrArg (inside _ _ >>= ·) (funext fun count => ?_)
  rw [inside_bind, Prog.bind_assoc]
  rfl

/-- **The end of the second scan**, when it has found as many entries as the first. -/
theorem afterRecounting_ofNat (henv : env.Succeeds) (hpos : 0 < n) (hlt : n < 2 ^ 31) :
    (afterRecounting env n (Int32.ofNat n) : Code H Unit) =
      copying (env.snapshotCall n) 0 (env.slots n) [] (afterCopying env n) := by
  have hlt' : n < 2 ^ 32 := lt_of_lt_of_le hlt (by decide)
  have hcap : ¬ UInt32.ofNat n ≠ (zeroed (UInt32.ofNat n)).capacity := not_not.2 rfl
  have hmem : ¬ (!(env.snapshot.kmalloc && decide (allocSize (Int32.ofNat n) < 2 ^ 63))) = true := by
    rw [henv.kmalloc, decide_eq_true ((allocSize_lt_iff hlt').2 hlt)]
    exact Bool.false_ne_true
  have hslots : (List.range n).map env.snapshot.heapSlot = env.slots n := rfl
  rw [afterRecounting, snapshotCounted_eq _ _ hlt', if_neg hcap, if_neg hmem, kvHashSnapshot,
    if_neg hpos.ne', hslots, inside_bind, Prog.bind_assoc, copying, length_slots]
  rfl

/-- The bytes of the buffer that the count in the copied image covers. -/
theorem take_encode_overwrite (arg : KvSnapshotMessage) {image : KvSnapshotMessage}
    (h : image.count.toNat = image.entries.length) :
    (arg.overwrite image).encode.take (16 + image.count.toNat * 80) = image.encode := by
  have hencode : (arg.overwrite image).encode = image.encode ++
      (arg.entries.drop image.entries.length).flatMap KvMessage.encode := by
    rw [KvSnapshotMessage.encode, KvSnapshotMessage.encode, KvSnapshotMessage.overwrite,
      List.flatMap_append, List.append_assoc]
    rfl
  have hlen : image.encode.length = 16 + image.count.toNat * 80 := by
    rw [image.length_encode, h]
    omega
  rw [hencode]
  exact List.take_left' hlen

/-- An image of the copied entries. -/
theorem wholeImage_imageWith {done : Chain} (hlt : n < 2 ^ 31) (hroom : done.length ≤ n) :
    WholeImage (imageWith env n done) where
  count_eq := by
    have hdone : done.length < 2 ^ 32 := lt_of_le_of_lt hroom (lt_of_lt_of_le hlt (by decide))
    rw [imageWith, UInt32.toNat_ofNat_of_lt' hdone, List.length_zipWith, length_slots]
    omega
  terminated := fun _ hm => terminated_of_mem_zipWith (by rwa [length_slots]) hm

/-- What the image says under a key. -/
theorem shown_imageWith {done : Chain} (hroom : done.length ≤ n) (key : HashKey) :
    shown (imageWith env n done) key = (done.dlookup key).map (·.truncate 63) := by
  rw [shown, imageWith, map_entryOf_zipWith (by rwa [length_slots])]
  exact List.dlookup_map₂ (l := done) (f := fun _ v => CStr.truncate v 63) key

/-- **The end of the third scan**: the daemon writes what has been copied. -/
theorem afterCopying_filled (henv : env.Succeeds) (hlt : n < 2 ^ 31) {done : Chain}
    (hroom : done.length ≤ n) :
    (afterCopying env n (0, done.length, filled (env.slots n) done) : Code H Unit) =
      stepwise (writeFile (imageWith env n done).encode) := by
  have hwhole : WholeImage (imageWith env n done) := wholeImage_imageWith hlt hroom
  have hdone : (UInt32.ofNat done.length).toNat = done.length :=
    UInt32.toNat_ofNat_of_lt' (lt_of_le_of_lt hroom (lt_of_lt_of_le hlt (by decide)))
  have hcopied : (snapshotCopied env.snapshot (UInt32.ofNat n)
      (0, done.length, filled (env.slots n) done) : Kernel H (ℤ × Option KvSnapshotMessage)) =
        .ret (0, some (imageWith env n done)) := by
    rw [snapshotCopied, if_neg (lt_irrefl 0), henv.copyToUser, Bool.not_true, if_neg Bool.false_ne_true,
      hdone, take_filled (by rwa [length_slots])]
    rfl
  have hbytes := take_encode_overwrite (zeroed (UInt32.ofNat n)) hwhole.count_eq
  rw [afterCopying, hcopied, inside_ret, Prog.ret_bind, ← hbytes, afterKvSnapshot]
  simp only [snapshotReply, lt_irrefl, if_false, henv.opens, Bool.not_true, Bool.false_eq_true]
  rfl

end Snapshot

end Daemon
