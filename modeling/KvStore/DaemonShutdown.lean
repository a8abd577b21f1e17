/-
**What a shutdown saves.**

When the daemon is told to stop, `main` leaves `listen_network`, takes a last snapshot and returns.
The threads of its clients are detached, and nobody stops them: they go on reading commands, changing
the store and answering, and some of them may be taking snapshots of their own, until `main` returns
and the process ends.  All of them work on the table bucket by bucket (`KvStore/DaemonThreads.lean`), so
that they also come between the buckets of the last snapshot.

This module follows the operations that change the store, from the table to the answer: a log holds
them in the order in which they took effect, each with the client that asked for it, whether `main`
had already copied its bucket, and whether the client has been told that the operation succeeded.  At the
end, the file must show for every key what the last acknowledged operation on it has made of it.

It does so if the shutdown is orderly.  What `main` meets in its scans fits together (`Daemon.Scans.fits`);
from when it has opened the file nobody else opens it or writes to it; no operation on a bucket that `main`
had copied is acknowledged before it returns; and a key on which an operation has been acknowledged by then
was not left to `main` by one that has not been.

Main definitions:

* `Daemon.change?` — what an operation on the table changes, if it succeeds;
* `Daemon.Shutdown`, `Daemon.Shutdown.step` — the main thread, the connections and the log;
* `Daemon.Shutdown.Durable` — the file shows what has been acknowledged;
* `Daemon.Shutdown.orderly` — the condition on a step;
* `Daemon.Shutdown.Copied`, `Daemon.Shutdown.Inv` — what has been copied, and the invariant.

Main results:

* `Daemon.get_exec_change` — an operation on the table changes what `Daemon.change?` says, and nothing else;
* `Daemon.Shutdown.Copied.visit` — what the visit of a bucket adds to the copy;
* `Daemon.Shutdown.Inv.stepMain`, `Daemon.Shutdown.Inv.stepClient` — the invariant is kept by orderly
  steps;
* `Daemon.durable_of_orderly` — **an orderly shutdown persists every acknowledged write**.  In general
  it does not: `Daemon.lateInsert_lost`.
-/

import KvStore.DaemonScan

set_option relaxedAutoImplicit false
set_option autoImplicit false

namespace Daemon

open CMem Text Interleave KvHash KvIoctl

variable {H : HashFn}

/-! ### Operations that change the store -/

/-- What a successful operation changes. -/
structure Change where
  key : HashKey
  /-- what is under the key afterwards -/
  value : Option CStr
  /-- the answer that acknowledges it -/
  reply : List UInt8

/-- The answer to an ioctl that has succeeded. -/
def succeeded (c : IoctlCall) : List UInt8 :=
  match c.ioctl with
  | .message cmd arg => response cmd { KvMessage.zero with key := arg.key }
  | _ => []

/-- What an operation of an ioctl on the table changes, if it is an addition or a removal that succeeds. -/
def change? (c : IoctlCall) (s : Store H) : Op H → Option Change
  | .add key value =>
      if c.alloc.admits s.1 key then some ⟨key, some (cstr value), succeeded c⟩ else none
  | .remove key => if (s.get key).isSome then some ⟨key, none, succeeded c⟩ else none
  | _ => none

/-- What is under a key after a change. -/
def Change.get (ch : Option Change) (before : Option CStr) (key : HashKey) : Option CStr :=
  match ch with
  | none => before
  | some ch => if key = ch.key then ch.value else before

/-- **What an operation does to a key.** -/
theorem get_exec_change (c : IoctlCall) (op : Op H) (s : Store H) (key : HashKey) :
    (exec c.alloc op s).2.get key = Change.get (change? c s op) (s.get key) key := by
  cases op with
  | add k value =>
      rw [exec, Store.get_add, change?]
      cases c.alloc.admits s.1 k with
      | false => simp [Change.get]
      | true => simp [Change.get]
  | remove k =>
      rw [exec, Store.get_remove, change?]
      cases hk : s.get k with
      | none =>
          by_cases hkey : key = k
          · rw [if_pos hkey, hkey, hk]
            rfl
          · rw [if_neg hkey]
            rfl
      | some v => rfl
  | lookup k outBuf => rfl
  | visit b => rfl

/-- What is stored fits into a message. -/
theorem length_change? {c : IoctlCall} {op : Op H} (hreg : (Step.table c op).Regular) {s : Store H}
    {ch : Change} (h : change? c s op = some ch) {v : CStr} (hv : ch.value = some v) :
    v.1.length ≤ 63 := by
  cases op with
  | add k value =>
      rw [change?] at h
      split at h
      · obtain rfl := Option.some.inj h
        obtain rfl := Option.some.inj hv
        exact hreg
      · cases h
  | remove k =>
      rw [change?] at h
      split at h
      · obtain rfl := Option.some.inj h
        cases hv
      · cases h
  | lookup k outBuf => cases h
  | visit b => cases h

/-! ### The main thread and the connections -/

/-- Where `main` is: in `listen_network`, in `do_kv_snapshot_to_file`, after `kill_network` and
`kill_kv`, or gone with the process. -/
inductive MainState (H : HashFn)
  | listening
  | saving (met : Scans) (p : Code H Unit)
  | closed
  | returned

/-- The device is open until `kill_kv`. -/
def MainState.device : MainState H → Bool
  | .closed => false
  | _ => true

/-- `main` has copied the bucket of a key. -/
def MainState.past (key : HashKey) : MainState H → Bool
  | .listening => false
  | .saving met _ => 2 * H.n + (H.kvBucket key).val < met.visits
  | _ => true

/-- `main` has opened the file. -/
def MainState.opened : MainState H → Bool
  | .listening => false
  | .saving _ (.call (.write _) _) => true
  | .saving _ (.call _ _) => false
  | _ => true

/-- An operation in the log. -/
structure Logged (ι : Type) where
  client : ι
  change : Change
  /-- it took effect after `main` had copied its bucket -/
  late : Bool
  /-- the client has been told -/
  acked : Bool

/-- The daemon, with the log of the operations that have changed the store. -/
structure Shutdown (ι : Type) (H : HashFn) where
  threads : Threads ι H
  main : MainState H
  log : List (Logged ι)

/-- `main` or a client takes its next step. -/
inductive ShutdownEvent (ι : Type)
  | main
  | client (i : ι)

/-- The value that the last of the operations in question on a key has left there. -/
def lastOn {ι : Type} (p : Logged ι → Bool) (key : HashKey) (log : List (Logged ι)) :
    Option (Option CStr) :=
  ((log.filter fun e => p e && e.change.key = key).getLast?).map fun e => e.change.value

/-- Of the operations on a key before `main` had copied its bucket, the last one has been acknowledged. -/
def lastAcked {ι : Type} (key : HashKey) (log : List (Logged ι)) : Bool :=
  ((log.filter fun e => !e.late && e.change.key = key).getLast?).all Logged.acked

namespace Shutdown

variable {ι : Type} [DecidableEq ι]

/-- The daemon before its first connection has read anything. -/
def start (inputs : ι → List Input) (w : World H) : Shutdown ι H := ⟨.start inputs w, .listening, []⟩

/-- The next step of `main`. -/
def stepMain (env : SnapshotEnv) (s : Shutdown ι H) : Shutdown ι H :=
  match s.main with
  | .listening => { s with main := .saving .zero (stepwise (doKvSnapshotToFile env)) }
  | .saving met (.call x k) =>
      { s with
        threads := { s.threads with world := (x.exec true s.threads.world).2 }
        main := .saving (x.scanned met s.threads.world.store) (k (x.exec true s.threads.world).1) }
  | .saving _ (.ret _) => { s with main := .closed }
  | .closed => { s with main := .returned }
  | .returned => s

/-- The change that the next step of a client makes. -/
def performs? (s : Shutdown ι H) (i : ι) : Option Change :=
  match (s.threads.thread i).running with
  | some (.call (.table c op) _) => change? c s.threads.world.store op
  | _ => none

/-- The next step of the client tells it that the operation has succeeded. -/
def acknowledges (s : Shutdown ι H) (i : ι) (e : Logged ι) : Bool :=
  match (s.threads.thread i).running with
  | some (.ret (answer, _)) => e.client = i && answer = e.change.reply
  | _ => false

/-- The next step of a client, with the log.  When `main` has closed the device, no ioctl begins. -/
def stepClient (pam : Pam) (s : Shutdown ι H) (i : ι) : Shutdown ι H :=
  match s.main with
  | .returned => s
  | _ =>
      { s with
        threads := s.threads.step pam s.main.device i
        log := (s.log.map fun e => { e with acked := e.acked || s.acknowledges i e }) ++
          (s.performs? i).toList.map fun ch => ⟨i, ch, s.main.past ch.key, false⟩ }

/-- One event of a shutdown. -/
def step (pam : Pam) (env : SnapshotEnv) (s : Shutdown ι H) : ShutdownEvent ι → Shutdown ι H
  | .main => s.stepMain env
  | .client i => s.stepClient pam i

/-- The daemon after some events. -/
def run (pam : Pam) (env : SnapshotEnv) (s : Shutdown ι H) (es : List (ShutdownEvent ι)) :
    Shutdown ι H :=
  Machine.run (step pam env) s es

/-- What a restore reads under a key from the file. -/
def recorded (renv : RestoreEnv) (file : Option (List UInt8)) (key : HashKey) : Option CStr :=
  ((file.elim [] (readEntries renv)).map entryOf).dlookup key

/-- The file shows for every key what the last acknowledged operation on it has left there. -/
def Durable (s : Shutdown ι H) : Prop :=
  ∀ key value, lastOn (fun e => e.acked) key s.log = some value →
    ∀ renv, recorded renv s.threads.world.file key = value

/-- The step of `main` is orderly: what it has met in its scans fits together, the bucket that it is about
to visit included; and it does not return while an operation on a key has been acknowledged, but the last one
that is in the snapshot has not. -/
def orderlyMain (s : Shutdown ι H) : Bool :=
  match s.main with
  | .saving met (.call x _) => (x.scanned met s.threads.world.store).fits H.n
  | .closed => s.log.all fun e => !e.acked || lastAcked e.change.key s.log
  | _ => true

/-- A step on the file that changes it. -/
def touchesFile : Option (Step H) → Bool
  | some .truncate => true
  | some (.write _) => true
  | _ => false

/-- The step of a client is orderly: it does not touch the file once `main` has opened it, and it does
not acknowledge an operation on a bucket that `main` had copied. -/
def orderlyClient (s : Shutdown ι H) (i : ι) : Bool :=
  !(s.main.opened && touchesFile ((s.threads.thread i).running.bind Prog.next?)) &&
    s.log.all fun e => !(e.late && s.acknowledges i e)

/-- The step is orderly. -/
def orderly (s : Shutdown ι H) : ShutdownEvent ι → Bool
  | .main => s.orderlyMain
  | .client i => s.orderlyClient i

end Shutdown

/-! ### The log -/

section Log

variable {ι : Type} {p q : Logged ι → Bool} {key : HashKey} {log : List (Logged ι)}

theorem lastOn_concat (p : Logged ι → Bool) (key : HashKey) (log : List (Logged ι)) (e : Logged ι) :
    lastOn p key (log ++ [e]) =
      if p e = true ∧ e.change.key = key then some e.change.value else lastOn p key log := by
  unfold lastOn
  rw [List.filter_append]
  by_cases h : p e = true ∧ e.change.key = key
  · have hkept : (p e && decide (e.change.key = key)) = true := by simp [h]
    simp only [List.filter_cons, hkept, if_true, List.filter_nil, List.getLast?_concat]
    rw [if_pos h, Option.map_some]
  · have hdropped : (p e && decide (e.change.key = key)) = false := by simpa using h
    simp only [List.filter_cons, hdropped, Bool.false_eq_true, if_false, List.filter_nil,
      List.append_nil]
    rw [if_neg h]

/-- What is done to the entries, other than to their changes, does not matter. -/
theorem lastOn_map {f : Logged ι → Logged ι} (hp : ∀ e, p (f e) = p e)
    (hf : ∀ e, (f e).change = e.change) (key : HashKey) (log : List (Logged ι)) :
    lastOn p key (log.map f) = lastOn p key log := by
  unfold lastOn
  have hfilter : (fun e => p e && decide (e.change.key = key)) ∘ f =
      fun e => p e && decide (e.change.key = key) := by
    funext e
    simp only [Function.comp_apply, hp, hf]
  rw [List.filter_map, hfilter, List.getLast?_map, Option.map_map]
  congr 1
  funext e
  simp only [Function.comp_apply, hf]

theorem lastOn_congr (h : ∀ e ∈ log, e.change.key = key → p e = q e) :
    lastOn p key log = lastOn q key log := by
  unfold lastOn
  rw [List.filter_congr fun e he => ?_]
  by_cases hkey : e.change.key = key
  · rw [h e he hkey]
  · rw [decide_eq_false hkey, Bool.and_false, Bool.and_false]

theorem exists_of_lastOn {value : Option CStr} (h : lastOn p key log = some value) :
    ∃ e ∈ log, p e = true ∧ e.change.key = key ∧ e.change.value = value := by
  obtain ⟨e, he, hvalue⟩ := Option.map_eq_some_iff.1 h
  obtain ⟨hmem, hpe⟩ := List.mem_filter.1 (List.mem_of_getLast? he)
  rw [Bool.and_eq_true, decide_eq_true_eq] at hpe
  exact ⟨e, hmem, hpe.1, hpe.2, hvalue⟩

/-- If the acknowledged operations were not late, and the last one that was not late has been acknowledged,
then it is the last acknowledged one. -/
theorem lastOn_of_lastAcked (hearly : ∀ e ∈ log, e.acked = true → e.late = false)
    (hacked : lastAcked key log = true) {value : Option CStr}
    (h : lastOn (fun e => e.acked) key log = some value) : lastOn (fun e => !e.late) key log = some value := by
  obtain ⟨e, he, hack, hkey, -⟩ := exists_of_lastOn h
  have hmem : e ∈ log.filter fun e => !e.late && decide (e.change.key = key) :=
    List.mem_filter.2 ⟨he, by simp [hearly e he hack, hkey]⟩
  have hfilter : (log.filter fun e => e.acked && decide (e.change.key = key)) =
      (log.filter fun e => !e.late && decide (e.change.key = key)).filter Logged.acked := by
    rw [List.filter_filter]
    refine List.filter_congr fun e he => ?_
    cases hack : e.acked with
    | false => rw [Bool.false_and, Bool.false_and]
    | true => rw [hearly e he hack, Bool.not_false, Bool.true_and, Bool.true_and]
  unfold lastOn at h ⊢
  unfold lastAcked at hacked
  rw [hfilter] at h
  generalize (log.filter fun e => !e.late && decide (e.change.key = key)) = early at hmem hacked h ⊢
  obtain ⟨init, last, rfl⟩ := (List.eq_nil_or_concat' early).resolve_left (List.ne_nil_of_mem hmem)
  rw [List.getLast?_concat, Option.all_some] at hacked
  rw [List.filter_append, List.filter_cons_of_pos hacked, List.filter_nil, List.getLast?_concat] at h
  rw [List.getLast?_concat]
  exact h

end Log

/-! ### What the clients' threads do -/

namespace Shutdown

variable {ι : Type} {pam : Pam} {s : Shutdown ι H} {i : ι}

/-- What a client stores fits into a message. -/
theorem length_performs? (hreg : (s.threads.thread i).Regular) {ch : Change}
    (h : s.performs? i = some ch) {v : CStr} (hv : ch.value = some v) : v.1.length ≤ 63 := by
  unfold performs? at h
  split at h
  · rename_i hrun
    exact length_change? (hreg _ hrun).1 h hv
  · cases h

section Steps

variable [DecidableEq ι] (pam : Pam) (device : Bool)

/-- What a step of a client does: it makes no step on the table or the file, or it makes one. -/
theorem step_cases (s : Shutdown ι H) (i : ι) :
    ((s.threads.step pam device i).world = s.threads.world ∧ s.performs? i = none) ∨
    ∃ x k, (s.threads.thread i).running = some (.call x k) ∧
      (s.threads.step pam device i).world = (x.exec device s.threads.world).2 ∧
      s.performs? i =
        match x with
        | .table c op => change? c s.threads.world.store op
        | _ => none := by
  simp only [Threads.step, Thread.step, performs?]
  cases hrun : (s.threads.thread i).running with
  | none =>
      refine .inl ⟨?_, rfl⟩
      dsimp only
      split
      · rfl
      · rfl
  | some p =>
      cases p with
      | ret r => exact .inl ⟨rfl, rfl⟩
      | call x k =>
          refine .inr ⟨x, k, rfl, rfl, ?_⟩
          cases x with
          | table c op => rfl
          | _ => rfl

/-- What a step of a client does to the store. -/
theorem get_step (s : Shutdown ι H) (i : ι) (key : HashKey) :
    (s.threads.step pam device i).world.store.get key =
      Change.get (s.performs? i) (s.threads.world.store.get key) key := by
  obtain ⟨hworld, hperforms⟩ | ⟨x, k, -, hworld, hperforms⟩ := step_cases pam device s i
  · rw [hworld, hperforms]
    rfl
  · rw [hworld, hperforms]
    cases x with
    | table c op => exact get_exec_change c op s.threads.world.store key
    | enter => rfl
    | truncate => rfl
    | write bytes => rfl
    | read => rfl

/-- A step of a client that does not touch the file. -/
theorem file_step (h : touchesFile ((s.threads.thread i).running.bind Prog.next?) = false) :
    (s.threads.step pam device i).world.file = s.threads.world.file := by
  obtain ⟨hworld, -⟩ | ⟨x, k, hrun, hworld, -⟩ := step_cases pam device s i
  · rw [hworld]
  · rw [hworld]
    rw [hrun] at h
    cases x with
    | truncate => cases h
    | write bytes => cases h
    | enter => rfl
    | table c op => rfl
    | read => rfl

/-- The connections stay regular. -/
theorem regular_step (hreg : ∀ j, (s.threads.thread j).Regular) (j : ι) :
    ((s.threads.step pam device i).thread j).Regular := by
  by_cases hj : j = i
  · subst hj
    rw [Threads.thread_step_self]
    exact (hreg j).step pam _ _
  · rw [Threads.thread_step_of_ne pam device _ hj]
    exact hreg j

end Steps

/-! ### What has been copied -/

/-- The entries that have been copied from the first `t` buckets show for every key in these buckets what
the last operation that was not late has left there. -/
structure Copied (H : HashFn) (t : ℕ) (log : List (Logged ι)) (done : Chain) : Prop where
  bucket : ∀ e ∈ done, (H.kvBucket e.1).val < t
  shown : ∀ key, (H.kvBucket key).val < t → ∀ value,
    lastOn (fun e => !e.late) key log = some value → done.dlookup key = value

/-- **The visit of a bucket** adds what is in the bucket. -/
theorem Copied.visit {t : ℕ} (ht : t < H.n) {log : List (Logged ι)} {done : Chain}
    (h : Copied H t log done) (s : Store H)
    (hnow : ∀ key, (H.kvBucket key).val = t → ∀ value,
      lastOn (fun e => !e.late) key log = some value → s.get key = value) :
    Copied H (t + 1) log (done ++ s.1.chain ⟨t, ht⟩) where
  bucket := by
    intro e he
    rcases List.mem_append.1 he with hdone | hchain
    · exact (h.bucket e hdone).trans t.lt_succ_self
    · rw [s.2.placed _ e hchain]
      exact t.lt_succ_self
  shown := by
    intro key hkey value hlast
    rw [List.dlookup_append]
    rcases Nat.lt_succ_iff_lt_or_eq.1 hkey with hlt | heq
    · -- the bucket was copied before: the key is not in this one
      have hnone : (s.1.chain ⟨t, ht⟩).dlookup key = none := by
        refine List.dlookup_eq_none.2 fun hmem => ?_
        obtain ⟨v, he⟩ := List.exists_of_mem_keys hmem
        have hplaced := s.2.placed _ _ he
        rw [hplaced] at hlt
        exact lt_irrefl t hlt
      rw [hnone, Option.or_none]
      exact h.shown key hlt value hlast
    · have hnone : done.dlookup key = none := by
        refine List.dlookup_eq_none.2 fun hmem => ?_
        obtain ⟨v, he⟩ := List.exists_of_mem_keys hmem
        exact (h.bucket _ he).ne heq
      have hbucket : H.kvBucket key = ⟨t, ht⟩ := Fin.ext heq
      have hget : s.get key = (s.1.chain (H.kvBucket key)).dlookup key := rfl
      rw [hnone, Option.none_or, ← hbucket, ← hget]
      exact hnow key heq value hlast

/-- The image shows for every key what the last operation before it has left there. -/
structure Reflects (m : KvSnapshotMessage) (log : List (Logged ι)) : Prop where
  whole : WholeImage m
  shown : ∀ key value, lastOn (fun e => !e.late) key log = some value → shown m key = value

/-- When all buckets have been copied, the image reflects the log. -/
theorem Copied.reflects {log : List (Logged ι)} {done : Chain} (h : Copied H H.n log done)
    (hshort : ∀ e ∈ log, ∀ v, e.change.value = some v → v.1.length ≤ 63) (env : SnapshotEnv) {n : ℕ}
    (hlt : n < 2 ^ 31) (hroom : done.length ≤ n) : Reflects (imageWith env n done) log where
  whole := wholeImage_imageWith hlt hroom
  shown := by
    intro key value hlast
    rw [shown_imageWith hroom, h.shown key (H.kvBucket key).isLt value hlast]
    obtain ⟨e, he, -, -, hvalue⟩ := exists_of_lastOn hlast
    cases value with
    | none => rfl
    | some v => rw [Option.map_some, CStr.truncate_of_le (hshort e he v hvalue)]

/-! ### The invariant -/

/-- How far `main` has come, and what is in the file then. -/
inductive MainStage (env : SnapshotEnv) (log : List (Logged ι)) (file : Option (List UInt8)) :
    MainState H → Prop
  | listening : MainStage env log file .listening
  | start : MainStage env log file (.saving .zero (stepwise (doKvSnapshotToFile env)))
  | counting {t m : ℕ} (ht : t < H.n) :
      MainStage env log file
        (.saving ⟨t, m, 0, 0⟩ (Daemon.counting env.countCall t m (afterCounting env)))
  | counted {n : ℕ} (hpos : 0 < n) (hlt : n < 2 ^ 31) :
      MainStage env log file (.saving ⟨H.n, n, 0, 0⟩ (stepwise (saveSnapshot env (UInt32.ofNat n))))
  | recounting {n t m : ℕ} (hpos : 0 < n) (hlt : n < 2 ^ 31) (ht : t < H.n) :
      MainStage env log file
        (.saving ⟨H.n + t, n, m, 0⟩ (Daemon.counting (env.snapshotCall n) t m (afterRecounting env n)))
  | copying {n t : ℕ} {done : Chain} (hlt : n < 2 ^ 31) (ht : t < H.n) (h : Copied H t log done) :
      MainStage env log file (.saving ⟨2 * H.n + t, n, n, done.length⟩
        (Daemon.copying (env.snapshotCall n) t (env.slots n) done (afterCopying env n)))
  | holds {met : Scans} {m : KvSnapshotMessage} (hmet : met.visits = 3 * H.n) (h : Reflects m log) :
      MainStage env log file (.saving met (stepwise (writeFile m.encode)))
  | opened {met : Scans} {m : KvSnapshotMessage} (hmet : met.visits = 3 * H.n) (h : Reflects m log)
      (hfile : file = some []) :
      MainStage env log file (.saving met (stepwise (.call (.write m.encode) .ret)))
  | saved {met : Scans} {m : KvSnapshotMessage} (hmet : met.visits = 3 * H.n) (h : Reflects m log)
      (hfile : file = some m.encode) : MainStage env log file (.saving met (.ret ()))
  | closed {m : KvSnapshotMessage} (h : Reflects m log) (hfile : file = some m.encode) :
      MainStage env log file .closed
  | returned {m : KvSnapshotMessage} (h : Reflects m log) (hfile : file = some m.encode)
      (hacked : ∀ e ∈ log, e.acked = true → lastAcked e.change.key log = true) :
      MainStage env log file .returned

/-- The invariant of an orderly shutdown. -/
structure Inv (env : SnapshotEnv) (s : Shutdown ι H) : Prop where
  regular : ∀ i, (s.threads.thread i).Regular
  /-- the store holds what the last operations have left there -/
  store : ∀ key value, lastOn (fun _ => true) key s.log = some value →
    s.threads.world.store.get key = value
  short : ∀ e ∈ s.log, ∀ v, e.change.value = some v → v.1.length ≤ 63
  late : ∀ e ∈ s.log, e.late = true → s.main.past e.change.key = true
  acked : ∀ e ∈ s.log, e.acked = true → e.late = false
  main : MainStage env s.log s.threads.world.file s.main

theorem inv_start (env : SnapshotEnv) (inputs : ι → List Input) (w : World H) :
    (start inputs w).Inv env where
  regular := fun _ => nofun
  store := nofun
  short := nofun
  late := nofun
  acked := nofun
  main := .listening

/-- As long as `main` has not copied its bucket, a key has in the store what the last operation that was
not late has left there. -/
theorem Inv.get_of_ahead {env : SnapshotEnv} (h : s.Inv env) {key : HashKey}
    (hkey : s.main.past key = false) {value : Option CStr}
    (hlast : lastOn (fun e => !e.late) key s.log = some value) :
    s.threads.world.store.get key = value := by
  refine h.store key value ?_
  rw [← hlast]
  refine lastOn_congr fun e he hk => ?_
  cases hlate : e.late with
  | false => rfl
  | true =>
      have hpast := h.late e he hlate
      rw [hk, hkey] at hpast
      cases hpast

/-- What `main` must keep: it leaves the store as it is. -/
theorem Inv.of_main {env : SnapshotEnv} (h : s.Inv env) {file : Option (List UInt8)} {M : MainState H}
    (hpast : ∀ key, s.main.past key = true → M.past key = true) (hstage : MainStage env s.log file M) :
    ({ s with
      threads := { s.threads with world := ⟨s.threads.world.store, file⟩ }
      main := M } : Shutdown ι H).Inv env where
  regular := h.regular
  store := h.store
  short := h.short
  late := fun e he hlate => hpast _ (h.late e he hlate)
  acked := h.acked
  main := hstage

/-- The next step of `main` in its snapshot. -/
theorem stepMain_saving (env : SnapshotEnv) {met : Scans} {p : Code H Unit} {x : Step H}
    {k : StepRes x → Code H Unit} (hmain : s.main = .saving met p) (hp : p = .call x k) :
    s.stepMain env =
      { s with
        threads := { s.threads with world := (x.exec true s.threads.world).2 }
        main := .saving (x.scanned met s.threads.world.store) (k (x.exec true s.threads.world).1) } := by
  subst hp
  unfold stepMain
  rw [hmain]

theorem orderlyMain_saving {met : Scans} {p : Code H Unit} {x : Step H} {k : StepRes x → Code H Unit}
    (hmain : s.main = .saving met p) (hp : p = .call x k) :
    s.orderlyMain = (x.scanned met s.threads.world.store).fits H.n := by
  subst hp
  unfold orderlyMain
  rw [hmain]

/-! ### Steps of `main` -/

section Main

variable {env : SnapshotEnv} {t m n : ℕ}

theorem past_saving_mono {met met' : Scans} {p p' : Code H Unit} (h : met.visits ≤ met'.visits)
    (key : HashKey) (hpast : (MainState.saving met p).past key = true) :
    (MainState.saving met' p').past key = true := by
  simp only [MainState.past, decide_eq_true_eq] at hpast ⊢
  omega

/-- `main` begins to count. -/
theorem Inv.stepMain_start (h : s.Inv env)
    (hM : s.main = .saving .zero (stepwise (doKvSnapshotToFile env))) : (s.stepMain env).Inv env := by
  obtain ⟨k, hcall, hk⟩ := stepwise_doKvSnapshotToFile (H := H) env
  rw [stepMain_saving env hM hcall]
  refine h.of_main ?_ ?_
  · rw [hM]
    exact past_saving_mono le_rfl
  · rw [show k (Step.enter.exec true s.threads.world).1 = _ from hk]
    exact .counting (Nat.two_pow_pos _)

/-- `main` counts a bucket.  After the last one it goes on to ask for a snapshot. -/
theorem Inv.stepMain_counting (henv : env.Succeeds) (h : s.Inv env) (ht : t < H.n)
    (hM : s.main = .saving ⟨t, m, 0, 0⟩ (counting env.countCall t m (afterCounting env)))
    (horderly : s.orderlyMain = true) : (s.stepMain env).Inv env := by
  have hcall := counting_of_lt env.countCall ht m (afterCounting (H := H) env)
  generalize hlen : (s.threads.world.store.1.chain ⟨t, ht⟩).length = l
  have hmet : (Step.table env.countCall (.visit ⟨t, ht⟩)).scanned ⟨t, m, 0, 0⟩ s.threads.world.store =
      ⟨t + 1, m + l, 0, 0⟩ := hlen ▸ Scans.visit_of_lt ht _
  rw [orderlyMain_saving hM hcall, hmet] at horderly
  rw [stepMain_saving env hM hcall, hmet]
  refine h.of_main ?_ ?_
  · rw [hM]
    exact past_saving_mono t.le_succ
  · dsimp only [Step.exec, exec]
    rw [hlen]
    rcases Nat.lt_or_ge (t + 1) H.n with hlt | hge
    · exact .counting hlt
    · have hend : t + 1 = H.n := le_antisymm ht hge
      obtain ⟨hpos, hint⟩ := Scans.counted_of_fits horderly hend
      rw [counting_of_le _ hge, afterCounting_ofNat henv hpos hint, hend]
      exact .counted hpos hint

/-- `main` asks for a snapshot. -/
theorem Inv.stepMain_counted (henv : env.Succeeds) (h : s.Inv env) (hpos : 0 < n) (hint : n < 2 ^ 31)
    (hM : s.main = .saving ⟨H.n, n, 0, 0⟩ (stepwise (saveSnapshot env (UInt32.ofNat n)))) :
    (s.stepMain env).Inv env := by
  obtain ⟨k, hcall, hk⟩ := stepwise_saveSnapshot (H := H) henv n
  rw [stepMain_saving env hM hcall]
  refine h.of_main ?_ ?_
  · rw [hM]
    exact past_saving_mono le_rfl
  · rw [show k (Step.enter.exec true s.threads.world).1 = _ from hk]
    exact .recounting hpos hint (Nat.two_pow_pos _)

/-- The module counts a bucket again.  After the last one it goes on to copy: the counts agree. -/
theorem Inv.stepMain_recounting (henv : env.Succeeds) (h : s.Inv env) (hpos : 0 < n) (hint : n < 2 ^ 31)
    (ht : t < H.n)
    (hM : s.main = .saving ⟨H.n + t, n, m, 0⟩
      (counting (env.snapshotCall n) t m (afterRecounting env n)))
    (horderly : s.orderlyMain = true) : (s.stepMain env).Inv env := by
  have hcall := counting_of_lt (env.snapshotCall n) ht m (afterRecounting (H := H) env n)
  generalize hlen : (s.threads.world.store.1.chain ⟨t, ht⟩).length = l
  have hmet : (Step.table (env.snapshotCall n) (.visit ⟨t, ht⟩)).scanned ⟨H.n + t, n, m, 0⟩
      s.threads.world.store = ⟨H.n + t + 1, n, m + l, 0⟩ :=
    hlen ▸ Scans.visit_add (by dsimp only; omega) (Nat.le_add_right _ _) _
  rw [orderlyMain_saving hM hcall, hmet] at horderly
  rw [stepMain_saving env hM hcall, hmet]
  refine h.of_main ?_ ?_
  · rw [hM]
    exact past_saving_mono (Nat.le_succ _)
  · dsimp only [Step.exec, exec]
    rw [hlen]
    rcases Nat.lt_or_ge (t + 1) H.n with hlt | hge
    · exact .recounting hpos hint hlt
    · have hend : H.n + t + 1 = 2 * H.n := by omega
      have hagree : m + l = n := Scans.recounted_of_fits horderly hend
      rw [counting_of_le _ hge, hagree, afterRecounting_ofNat henv hpos hint, hend]
      have hnone : Copied H 0 s.log [] := ⟨nofun, nofun⟩
      exact .copying hint (Nat.two_pow_pos _) hnone

/-- The module copies a bucket, and finds room for it.  After the last one the daemon has its image. -/
theorem Inv.stepMain_copying (henv : env.Succeeds) (h : s.Inv env) (hint : n < 2 ^ 31) (ht : t < H.n)
    {done : Chain} (hdone : Copied H t s.log done)
    (hM : s.main = .saving ⟨2 * H.n + t, n, n, done.length⟩
      (copying (env.snapshotCall n) t (env.slots n) done (afterCopying env n)))
    (horderly : s.orderlyMain = true) : (s.stepMain env).Inv env := by
  obtain ⟨k, hcall, hk⟩ := copying_of_lt (env.snapshotCall n) ht (env.slots n) done
    (afterCopying (H := H) env n)
  have hmet : (Step.table (env.snapshotCall n) (.visit ⟨t, ht⟩)).scanned
      ⟨2 * H.n + t, n, n, done.length⟩ s.threads.world.store =
        ⟨2 * H.n + t + 1, n, n, (done ++ s.threads.world.store.1.chain ⟨t, ht⟩).length⟩ := by
    rw [List.length_append]
    exact Scans.visit_of_le (Nat.le_add_right _ _) _
  rw [orderlyMain_saving hM hcall, hmet] at horderly
  have hroom' := Scans.copied_of_fits horderly
  have hnext := hk (s.threads.world.store.1.chain ⟨t, ht⟩) (by rwa [length_slots])
  -- what is in the bucket is what the operations on its keys have left there
  have hvisit := hdone.visit ht s.threads.world.store fun key hkey value hlast => by
    refine h.get_of_ahead ?_ hlast
    rw [hM, MainState.past, decide_eq_false_iff_not, hkey]
    exact lt_irrefl _
  rw [stepMain_saving env hM hcall, hmet]
  refine h.of_main ?_ ?_
  · rw [hM]
    exact past_saving_mono (Nat.le_succ _)
  · rw [show k ((Step.table (env.snapshotCall n) (.visit ⟨t, ht⟩)).exec true s.threads.world).1 = _
      from hnext]
    rcases Nat.lt_or_ge (t + 1) H.n with hlt | hge
    · exact .copying hint hlt hvisit
    · have hend : t + 1 = H.n := le_antisymm ht hge
      rw [hend] at hvisit
      rw [copying_of_le _ hge, afterCopying_filled henv hint hroom']
      exact .holds (by dsimp only; omega) (hvisit.reflects h.short env hint hroom')

/-- The invariant is kept by an orderly step of `main`. -/
theorem Inv.stepMain (henv : env.Succeeds) (h : s.Inv env) (horderly : s.orderlyMain = true) :
    (s.stepMain env).Inv env := by
  have hstage := h.main
  generalize hM : s.main = M at hstage
  cases hstage with
  | listening =>
      unfold Shutdown.stepMain
      rw [hM]
      exact h.of_main (by rw [hM]; nofun) .start
  | start => exact h.stepMain_start hM
  | counting ht => exact h.stepMain_counting henv ht hM horderly
  | counted hpos hint => exact h.stepMain_counted henv hpos hint hM
  | recounting hpos hint ht => exact h.stepMain_recounting henv hpos hint ht hM horderly
  | copying hint ht hdone => exact h.stepMain_copying henv hint ht hdone hM horderly
  | holds hmet hm =>
      rw [stepMain_saving env hM rfl]
      refine h.of_main ?_ (.opened hmet hm rfl)
      rw [hM]
      exact past_saving_mono le_rfl
  | @opened met m hmet hm hfile =>
      rw [stepMain_saving env hM rfl]
      refine h.of_main ?_ (.saved hmet hm ?_)
      · rw [hM]
        exact past_saving_mono le_rfl
      · rw [hfile, Option.getD_some, List.drop_nil, List.append_nil]
  | saved hmet hm hfile =>
      unfold Shutdown.stepMain
      rw [hM]
      exact h.of_main (fun _ _ => rfl) (.closed hm hfile)
  | closed hm hfile =>
      unfold orderlyMain at horderly
      unfold Shutdown.stepMain
      rw [hM] at horderly ⊢
      refine h.of_main (fun _ _ => rfl) (.returned hm hfile ?_)
      intro e he hack
      have hall := List.all_eq_true.1 horderly e he
      rwa [hack, Bool.not_true, Bool.false_or] at hall
  | returned hm hfile hacked =>
      unfold Shutdown.stepMain
      rw [hM]
      exact h

end Main

/-! ### Steps of a client -/

/-- When `main` has visited all buckets three times, it has copied all of them. -/
theorem past_of_visits {met : Scans} (h : met.visits = 3 * H.n) (p : Code H Unit) (key : HashKey) :
    (MainState.saving met p).past key = true := by
  have hlt := (H.kvBucket key).isLt
  simp only [MainState.past, decide_eq_true_eq]
  omega

/-- `main` is where it was after a step of a client, if the step leaves the operations on what has been
copied and the opened file alone. -/
theorem MainStage.client {env : SnapshotEnv} {log log' : List (Logged ι)}
    {file file' : Option (List UInt8)} {M : MainState H} (h : MainStage env log file M)
    (hM : M ≠ .returned)
    (hlog : ∀ key, M.past key = true →
      lastOn (fun e => !e.late) key log' = lastOn (fun e => !e.late) key log)
    (hfile : M.opened = true → file' = file) : MainStage env log' file' M := by
  have hreflects : (∀ key, M.past key = true) → ∀ {m}, Reflects m log → Reflects m log' := by
    intro hpast m hm
    refine ⟨hm.whole, fun key value hlast => hm.shown key value ?_⟩
    rw [← hlog key (hpast key), hlast]
  cases h with
  | listening => exact .listening
  | start => exact .start
  | counting ht => exact .counting ht
  | counted hpos hint => exact .counted hpos hint
  | recounting hpos hint ht => exact .recounting hpos hint ht
  | copying hint ht hdone =>
      refine .copying hint ht ⟨hdone.bucket, fun key hkey value hlast => hdone.shown key hkey value ?_⟩
      have hpast : 2 * H.n + (H.kvBucket key).val < 2 * H.n + _ := Nat.add_lt_add_left hkey _
      rw [← hlog key (decide_eq_true hpast), hlast]
  | holds hmet hm => exact .holds hmet (hreflects (past_of_visits hmet _) hm)
  | opened hmet hm hf => exact .opened hmet (hreflects (past_of_visits hmet _) hm) ((hfile rfl).trans hf)
  | saved hmet hm hf => exact .saved hmet (hreflects (past_of_visits hmet _) hm) ((hfile rfl).trans hf)
  | closed hm hf => exact .closed (hreflects (fun _ => rfl) hm) ((hfile rfl).trans hf)
  | returned hm hf hacked => exact absurd rfl hM

section Client

variable [DecidableEq ι]

theorem stepClient_of_ne (pam : Pam) (hM : s.main ≠ .returned) (i : ι) :
    s.stepClient pam i =
      { s with
        threads := s.threads.step pam s.main.device i
        log := (s.log.map fun e => { e with acked := e.acked || s.acknowledges i e }) ++
          (s.performs? i).toList.map fun ch => ⟨i, ch, s.main.past ch.key, false⟩ } := by
  unfold stepClient
  cases hmain : s.main with
  | returned => exact absurd hmain hM
  | _ => rfl

/-- The last operation after a step of a client. -/
theorem lastOn_stepClient {p : Logged ι → Bool} (hp : ∀ e b, p { e with acked := b } = p e)
    (hM : s.main ≠ .returned) (key : HashKey) :
    lastOn p key (s.stepClient pam i).log =
      match s.performs? i with
      | none => lastOn p key s.log
      | some ch =>
          if p ⟨i, ch, s.main.past ch.key, false⟩ = true ∧ ch.key = key then some ch.value
          else lastOn p key s.log := by
  have hmap : lastOn p key (s.log.map fun e => { e with acked := e.acked || s.acknowledges i e }) =
      lastOn p key s.log :=
    lastOn_map (fun e => hp e (e.acked || s.acknowledges i e)) (fun _ => rfl) key s.log
  rw [stepClient_of_ne pam hM]
  cases s.performs? i with
  | none =>
      dsimp only
      rw [Option.toList_none, List.map_nil, List.append_nil, hmap]
  | some ch =>
      dsimp only
      rw [Option.toList_some, List.map_singleton, lastOn_concat, hmap]

/-- The entries of the log after a step of a client. -/
theorem mem_log_stepClient (hM : s.main ≠ .returned) {e' : Logged ι}
    (h : e' ∈ (s.stepClient pam i).log) :
    (∃ e ∈ s.log, e' = { e with acked := e.acked || s.acknowledges i e }) ∨
      ∃ ch, s.performs? i = some ch ∧ e' = ⟨i, ch, s.main.past ch.key, false⟩ := by
  rw [stepClient_of_ne pam hM] at h
  rcases List.mem_append.1 h with hold | hnew
  · obtain ⟨e, he, rfl⟩ := List.mem_map.1 hold
    exact .inl ⟨e, he, rfl⟩
  · obtain ⟨ch, hch, rfl⟩ := List.mem_map.1 hnew
    exact .inr ⟨ch, Option.mem_toList.1 hch, rfl⟩

/-- The invariant is kept by an orderly step of a client. -/
theorem Inv.stepClient {env : SnapshotEnv} (h : s.Inv env) (horderly : s.orderlyClient i = true) :
    (s.stepClient pam i).Inv env := by
  by_cases hM : s.main = .returned
  · unfold Shutdown.stepClient
    rw [hM]
    exact h
  unfold orderlyClient at horderly
  rw [Bool.and_eq_true, Bool.not_eq_true', Bool.and_eq_false_iff, List.all_eq_true] at horderly
  obtain ⟨hfile, hacks⟩ := horderly
  have hthreads : (s.stepClient pam i).threads = s.threads.step pam s.main.device i := by
    rw [stepClient_of_ne pam hM]
  have hmain : (s.stepClient pam i).main = s.main := by rw [stepClient_of_ne pam hM]
  refine ⟨?_, ?_, ?_, ?_, ?_, ?_⟩
  · rw [hthreads]
    exact regular_step pam _ h.regular
  · -- the operation that takes effect is the last one in the log
    intro key value hlast
    rw [hthreads, get_step]
    rw [lastOn_stepClient (fun _ _ => rfl) hM] at hlast
    cases hperforms : s.performs? i with
    | none =>
        rw [hperforms] at hlast
        exact h.store key value hlast
    | some ch =>
        rw [hperforms] at hlast
        dsimp only [Change.get] at hlast ⊢
        by_cases hkey : ch.key = key
        · rw [if_pos ⟨rfl, hkey⟩, Option.some.injEq] at hlast
          rw [if_pos hkey.symm, hlast]
        · rw [if_neg fun hc => hkey hc.2] at hlast
          rw [if_neg (Ne.symm hkey)]
          exact h.store key value hlast
  · intro e' he' v hv
    rcases mem_log_stepClient hM he' with ⟨e, he, rfl⟩ | ⟨ch, hch, rfl⟩
    · exact h.short e he v hv
    · exact length_performs? (h.regular i) hch hv
  · intro e' he' hlate
    rw [hmain]
    rcases mem_log_stepClient hM he' with ⟨e, he, rfl⟩ | ⟨ch, hch, rfl⟩
    · exact h.late e he hlate
    · exact hlate
  · intro e' he' hacked
    rcases mem_log_stepClient hM he' with ⟨e, he, rfl⟩ | ⟨ch, hch, rfl⟩
    · -- an acknowledgement is either old or in order
      rcases Bool.or_eq_true_iff.1 hacked with hold | hnew
      · exact h.acked e he hold
      · have horder := hacks e he
        rwa [hnew, Bool.and_true, Bool.not_eq_true'] at horder
    · cases hacked
  · rw [hmain, hthreads]
    refine h.main.client hM ?_ ?_
    · -- an operation on a bucket that has been copied is logged as late
      intro key hpast
      rw [lastOn_stepClient (fun _ _ => rfl) hM]
      cases s.performs? i with
      | none => rfl
      | some ch =>
          dsimp only
          refine if_neg ?_
          rintro ⟨hearly, rfl⟩
          rw [hpast] at hearly
          cases hearly
    · intro hopened
      refine file_step pam _ (hfile.resolve_left ?_)
      rw [hopened]
      decide

end Client

end Shutdown

/-- **An orderly shutdown persists every acknowledged write.**  Let the main thread and the threads of
any number of clients run in any order, step by step, all that `main` meets succeeding.  If every step of
the run is orderly, then when `main` has returned the file shows for every key what the last
acknowledged operation on it has left there. -/
theorem durable_of_orderly {ι : Type} [DecidableEq ι] {pam : Pam} {env : SnapshotEnv}
    (henv : env.Succeeds) {inputs : ι → List Input} {w : World H} {es : List (ShutdownEvent ι)}
    (horderly : Machine.Along (Shutdown.step pam env) (fun s e => s.orderly e = true)
      (.start inputs w) es)
    (hret : ((Shutdown.start inputs w).run pam env es).main = .returned) :
    ((Shutdown.start inputs w).run pam env es).Durable := by
  have hinv : ((Shutdown.start inputs w).run pam env es).Inv env := by
    refine Machine.along_invariant (Shutdown.step pam env) (fun s => s.Inv env) horderly
      (Shutdown.inv_start env inputs w) ?_
    intro e _ s hs he
    cases e with
    | main => exact hs.stepMain henv he
    | client i => exact hs.stepClient he
  generalize (Shutdown.start inputs w).run pam env es = s at hinv hret
  have hstage := hinv.main
  rw [hret] at hstage
  cases hstage with
  | @returned m hm hfile hacked =>
      intro key value hlast renv
      -- what `main` has copied of the key has been acknowledged
      obtain ⟨e, he, hack, hkey, -⟩ := exists_of_lastOn hlast
      have hlastAcked : lastAcked key s.log = true := hkey ▸ hacked e he hack
      have hsnap := lastOn_of_lastAcked hinv.acked hlastAcked hlast
      rw [Shutdown.recorded, hfile, Option.elim_some, readEntries_encode renv hm.whole.count_eq]
      exact hm.shown key value hsnap

/-! ### Two shutdowns -/

/-- A client that authenticates itself and inserts two keys. -/
def twoInserts : List Input :=
  [⟨⟨ascii "AUTH user password", by decide⟩, .ok⟩, ⟨⟨ascii "KV_INSERT 7 a", by decide⟩, .ok⟩,
    ⟨⟨ascii "KV_INSERT 8 b", by decide⟩, .ok⟩]

/-- The daemon with that client, over a table of two buckets, with key 7 in the second one. -/
def oneClient : Shutdown Unit twoBuckets :=
  .start (fun _ => twoInserts) ⟨Store.init _, none⟩

/-- `main` has counted the first bucket when key 7 is added, and has copied the first bucket when the
client is told so.  Key 8 comes too late for the snapshot, and the client is not told. -/
def servedMeanwhile : List (ShutdownEvent Unit) :=
  List.replicate 4 (.client ()) ++ List.replicate 3 .main ++ List.replicate 2 (.client ()) ++
    List.replicate 5 .main ++ List.replicate 5 (.client ()) ++ List.replicate 5 .main

/-- The second insertion takes effect and is acknowledged after `main` has copied the table. -/
def lateInsert : List (ShutdownEvent Unit) :=
  List.replicate 7 (.client ()) ++ List.replicate 9 .main ++ List.replicate 5 (.client ()) ++
    List.replicate 4 .main

/-- `main` has returned. -/
def MainState.isReturned : MainState H → Bool
  | .returned => true
  | _ => false

theorem MainState.eq_returned {M : MainState H} (h : M.isReturned = true) : M = .returned := by
  cases M with
  | returned => rfl
  | _ => cases h

theorem durable_servedMeanwhile :
    (oneClient.run (fun _ _ => true) .ok servedMeanwhile).main.isReturned = true ∧
      (oneClient.run (fun _ _ => true) .ok servedMeanwhile).log.map (fun e => (e.change.key, e.late, e.acked)) =
        [(7, false, true), (8, true, false)] ∧
      (oneClient.run (fun _ _ => true) .ok servedMeanwhile).Durable := by
  have hret : (oneClient.run (fun _ _ => true) .ok servedMeanwhile).main.isReturned = true := by
    decide +kernel
  exact ⟨hret, by decide +kernel, durable_of_orderly ⟨rfl, rfl, rfl, rfl, rfl, rfl⟩
    (by decide +kernel) (MainState.eq_returned hret)⟩

/-- An acknowledged insertion is lost: the file shows nothing under its key when `main` has
returned. -/
theorem lateInsert_lost :
    (oneClient.run (fun _ _ => true) .ok lateInsert).main.isReturned = true ∧
      (oneClient.run (fun _ _ => true) .ok lateInsert).threads.world.file ≠ none ∧
      ((oneClient.run (fun _ _ => true) .ok lateInsert).threads.thread ()).replies =
        [ascii "OK\n", ascii "INSERT(\"7\") succeeded\n", ascii "INSERT(\"8\") succeeded\n"] ∧
      lastOn (fun e => e.acked) 8 (oneClient.run (fun _ _ => true) .ok lateInsert).log =
        some (some (cstr (ascii "b"))) ∧
      ¬ (oneClient.run (fun _ _ => true) .ok lateInsert).Durable := by
  have hlast : lastOn (fun e => e.acked) 8 (oneClient.run (fun _ _ => true) .ok lateInsert).log =
      some (some (cstr (ascii "b"))) := by decide +kernel
  refine ⟨by decide +kernel, by decide +kernel, by decide +kernel, hlast, ?_⟩
  intro h
  have hshown := h 8 _ hlast .ok
  revert hshown
  decide +kernel

end Daemon
