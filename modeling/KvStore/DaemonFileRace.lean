/-
**Snapshots taken at the same time.**

Every client may ask for a snapshot, and every client has a thread of its own.  Nothing keeps two
calls of `do_kv_snapshot_to_file` apart: each gets its image from the module, opens the file, which
empties it, and writes the image from the start of the file, and the system calls of the others fall
in between.  As long as the number of keys stays the same, all images have the same size, so whoever
writes last overwrites the others completely, whatever was emptied or written in between.

The calls run as a pool of threads (`KvStore/Prog.lean`); the state is extended by a record of who
has got which image, who was the latest to get one, and who was the last to write.

Main definitions:

* `Daemon.Race`, `Daemon.Race.step` — the calls, the store and the file, with the record;
* `Daemon.Stage` — how far a call has come;
* `Daemon.Race.Inv` — **the invariant**: unless a call is about to write, the file holds the image of
  the one that wrote last.

Main results:

* `Daemon.Race.Inv.step` — the invariant is kept by every step;
* `Daemon.file_race` — **the last writer wins**: when all calls have returned, the file holds the
  image of the call that wrote last, and a restore reads that image.  It need not be the latest
  image: `Daemon.olderWritesLast_stale`.
-/

import KvStore.DaemonSaveLoad

set_option relaxedAutoImplicit false
set_option autoImplicit false

namespace Daemon

open CMem Interleave KvHash KvIoctl

variable {H : HashFn} {ι : Type} [DecidableEq ι]

/-! ### The race -/

/-- The image that a system call obtains, if it is a `KV_SNAPSHOT`. -/
def obtained? (s : Store H) : Option SysOp → Option KvSnapshotMessage
  | some (.ioctl ⟨env, alloc, .snapshot arg⟩) =>
      some (buffer arg (ioctl ⟨env, alloc, .snapshot arg⟩ s).1.2)
  | _ => none

/-- The system call writes to the file. -/
def writes? : Option SysOp → Bool
  | some (.write _) => true
  | _ => false

/-- The calls in flight over the store and the file, and what has happened so far: the image each
call has obtained, the call that obtained one latest, and the call that wrote last. -/
structure Race (ι : Type) (H : HashFn) where
  pool : Pool ι (World H) SysOp SysRes Unit
  image : ι → Option KvSnapshotMessage
  latest : Option ι
  writer : Option ι

/-- A call makes its next system call, or another client's request is served. -/
inductive RaceEvent (ι : Type) : Type
  | call (i : ι)
  | other (c : IoctlCall)

namespace Race

/-- The calls are about to start. -/
def start (env : ι → SnapshotEnv) (w : World H) : Race ι H where
  pool := ⟨w, fun i => doKvSnapshotToFile (env i)⟩
  image := fun _ => none
  latest := none
  writer := none

/-- The next step. -/
def step (r : Race ι H) : RaceEvent ι → Race ι H
  | .call i =>
      let op := (r.pool.thread i).next?
      { pool := r.pool.step sysExec (i, ())
        image := match obtained? r.pool.shared.store op with
          | some m => Function.update r.image i (some m)
          | none => r.image
        latest := if (obtained? r.pool.shared.store op).isSome then some i else r.latest
        writer := if writes? op then some i else r.writer }
  | .other c =>
      { r with pool := { r.pool with
          shared := { r.pool.shared with store := (ioctl c r.pool.shared.store).2 } } }

/-- The race after some steps. -/
def run (r : Race ι H) (es : List (RaceEvent ι)) : Race ι H := Machine.run step r es

end Race

/-! ### How far a call has come -/

/-- The stages of a call that succeeds, when the number of entries is `n`, with the image it has
obtained. -/
inductive Stage (env : SnapshotEnv) (n : ℕ) : Task Unit → Option KvSnapshotMessage → Prop
  | start : Stage env n (doKvSnapshotToFile env) none
  | counted (h : env.counts n = true) : Stage env n (saveSnapshot env (UInt32.ofNat n)) none
  | holds {m : KvSnapshotMessage} (h : WholeImage m) (hlen : m.entries.length = n) :
      Stage env n (writeFile m.encode) (some m)
  | opened {m : KvSnapshotMessage} (h : WholeImage m) (hlen : m.entries.length = n) :
      Stage env n (.call (.write m.encode) .ret) (some m)
  | done {m : KvSnapshotMessage} (h : WholeImage m) (hlen : m.entries.length = n) :
      Stage env n (.ret ()) (some m)
  | gaveUp : Stage env n (.ret ()) none

/-- What the next system call of a thread does, and what the thread is after it: it obtains an image,
it opens the file, it writes, or it does none of these. -/
inductive Advance (env : SnapshotEnv) (n : ℕ) (w : World H) (p : Task Unit) :
    Option KvSnapshotMessage → Prop
  | obtains {m : KvSnapshotMessage} (hm : WholeImage m) (hlen : m.entries.length = n)
      (hop : obtained? w.store p.next? = some m) (hw : writes? p.next? = false)
      (hstep : p.step (sysExec ()) w = (writeFile m.encode, w)) : Advance env n w p none
  | opens {m : KvSnapshotMessage} (hm : WholeImage m) (hlen : m.entries.length = n)
      (hp : p = writeFile m.encode) : Advance env n w p (some m)
  | writes {m : KvSnapshotMessage} (hm : WholeImage m) (hlen : m.entries.length = n)
      (hp : p = .call (.write m.encode) .ret) : Advance env n w p (some m)
  | moves {m : Option KvSnapshotMessage} {p' : Task Unit}
      (hop : obtained? w.store p.next? = none) (hw : writes? p.next? = false)
      (hstep : p.step (sysExec ()) w = (p', w)) (hstage : Stage env n p' m)
      (hquiet : ∀ bytes, p' ≠ .call (.write bytes) .ret)
      (hdone : p' = .ret () → m ≠ none → p = .ret ()) : Advance env n w p m

/-- The counter of a snapshot in which nothing fails. -/
theorem SnapshotEnv.Succeeds.saves {env : SnapshotEnv} (henv : env.Succeeds) (n : ℕ) :
    env.saves n n = true := by
  simp only [SnapshotEnv.saves, henv.copyFromUser, henv.kmalloc, henv.copyToUser, henv.opens,
    if_true, Bool.and_true]

/-- What `KV_SNAPSHOT` obtains, when nothing fails and the number of entries is the one counted. -/
theorem obtained?_saveSnapshot {env : SnapshotEnv} (henv : env.Succeeds) {n : ℕ}
    (h : env.counts n = true) {s : Store H} (hs : entryCount s = n) :
    obtained? s (saveSnapshot env (UInt32.ofNat n)).next? = some (imageOf env.snapshot s) := by
  obtain ⟨hpos, hlt⟩ := SnapshotEnv.pos_of_counts h
  have hn : (UInt32.ofNat n).toNat = n :=
    UInt32.toNat_ofNat_of_lt' (lt_of_lt_of_le hlt (by decide))
  have hioctl := ioctl_zeroed env.snapshot .ok (m := UInt32.ofNat n) (by rwa [hn]) (by rwa [hn]) s
  simp only [henv.copyFromUser, henv.kmalloc, henv.copyToUser, hs, hn, ne_eq, not_true_eq_false,
    Bool.true_eq_false, if_false] at hioctl
  have hnext : (saveSnapshot env (UInt32.ofNat n)).next? =
      some (.ioctl ⟨env.snapshot, .ok, .snapshot (zeroed (UInt32.ofNat n))⟩) := rfl
  rw [hnext, obtained?, hioctl]
  rfl

/-- Each stage of a call leads to the next. -/
theorem Stage.advance {env : SnapshotEnv} (henv : env.Succeeds) {n : ℕ} {w : World H}
    (hn : entryCount w.store = n) {p : Task Unit} {m : Option KvSnapshotMessage}
    (h : Stage env n p m) : Advance env n w p m := by
  cases h with
  | start =>
      have hstep := step_doKvSnapshotToFile env w
      rw [hn] at hstep
      cases hc : env.counts n with
      | true =>
          rw [hc, if_pos rfl] at hstep
          exact .moves rfl rfl hstep (.counted hc) nofun fun _ hne => absurd rfl hne
      | false =>
          rw [hc, if_neg (by decide)] at hstep
          exact .moves rfl rfl hstep .gaveUp nofun fun _ hne => absurd rfl hne
  | counted hc =>
      have himage := wholeImage_imageOf env.snapshot w.store
      have hlen : (imageOf env.snapshot w.store).entries.length = n := by
        rw [← himage.count_eq, imageOf, toNat_ofNat_entryCount, hn]
      refine .obtains himage hlen (obtained?_saveSnapshot henv hc hn) rfl ?_
      rw [step_saveSnapshot_of_counts hc, hn, henv.saves, if_pos rfl, written, if_pos hn]
  | holds hm hlen => exact .opens hm hlen rfl
  | opened hm hlen => exact .writes hm hlen rfl
  | done hm hlen => exact .moves rfl rfl rfl (.done hm hlen) nofun fun _ _ => rfl
  | gaveUp => exact .moves rfl rfl rfl .gaveUp nofun fun _ _ => rfl

/-- Some call has emptied the file and is about to write. -/
def Race.Dirty (r : Race ι H) : Prop :=
  ∃ i bytes, r.pool.thread i = .call (.write bytes) .ret

/-- The invariant of the race. -/
structure Race.Inv (env : ι → SnapshotEnv) (n : ℕ) (r : Race ι H) : Prop where
  stage : ∀ i, Stage (env i) n (r.pool.thread i) (r.image i)
  latest : ∀ i, r.latest = some i → r.image i ≠ none
  /-- a call that is done has written -/
  done : ∀ i, r.pool.thread i = .ret () → r.image i ≠ none → r.writer ≠ none
  /-- nothing in an emptied file is longer than an image -/
  size : r.Dirty → ∀ bytes, r.pool.shared.file = some bytes → bytes.length ≤ 16 + 80 * n
  file : r.Dirty ∨ ∀ j, r.writer = some j →
    ∃ m, r.image j = some m ∧ WholeImage m ∧ r.pool.shared.file = some m.encode

namespace Race

theorem thread_call_self (r : Race ι H) (i : ι) :
    (r.step (.call i)).pool.thread i = ((r.pool.thread i).step (sysExec ()) r.pool.shared).1 :=
  Pool.thread_step_self sysExec r.pool (i, ())

theorem thread_call_of_ne (r : Race ι H) {i j : ι} (h : j ≠ i) :
    (r.step (.call i)).pool.thread j = r.pool.thread j :=
  Pool.thread_step_of_ne sysExec r.pool (e := (i, ())) h

theorem shared_call (r : Race ι H) (i : ι) :
    (r.step (.call i)).pool.shared = ((r.pool.thread i).step (sysExec ()) r.pool.shared).2 :=
  Pool.shared_step sysExec r.pool (i, ())

/-- A call that is about to write is still about to write after a step of another. -/
theorem Dirty.call {r : Race ι H} (h : r.Dirty) {i : ι}
    (hi : writes? (r.pool.thread i).next? = false) : (r.step (.call i)).Dirty := by
  obtain ⟨j, bytes, hj⟩ := h
  have hji : j ≠ i := by
    rintro rfl
    rw [hj] at hi
    cases hi
  exact ⟨j, bytes, (r.thread_call_of_ne hji).trans hj⟩

/-- A step that does not write leaves nobody about to write who was not, unless it opens the file. -/
theorem dirty_of_dirty_call {r : Race ι H} {i : ι} (h : (r.step (.call i)).Dirty)
    (hi : ∀ bytes, (r.step (.call i)).pool.thread i ≠ .call (.write bytes) .ret) : r.Dirty := by
  obtain ⟨j, bytes, hj⟩ := h
  have hji : j ≠ i := by
    rintro rfl
    exact hi bytes hj
  exact ⟨j, bytes, (r.thread_call_of_ne hji).symm.trans hj⟩

/-- What a step must do to the record to keep the invariant, apart from what it does to the file. -/
theorem Inv.of_call {env : ι → SnapshotEnv} {n : ℕ} {r : Race ι H} (h : r.Inv env n) {i : ι}
    {p : Task Unit} {m : Option KvSnapshotMessage}
    (hself : (r.step (.call i)).pool.thread i = p) (hstage : Stage (env i) n p m)
    (himage : (r.step (.call i)).image = Function.update r.image i m)
    (hkeep : r.image i ≠ none → m ≠ none)
    (hlatest : ∀ j, (r.step (.call i)).latest = some j → r.latest = some j ∨ j = i ∧ m ≠ none)
    (hdone : p = .ret () → m ≠ none → (r.step (.call i)).writer ≠ none)
    (hwriter : r.writer ≠ none → (r.step (.call i)).writer ≠ none)
    (hsize : (r.step (.call i)).Dirty → ∀ bytes, (r.step (.call i)).pool.shared.file = some bytes →
      bytes.length ≤ 16 + 80 * n)
    (hfile : (r.step (.call i)).Dirty ∨ ∀ j, (r.step (.call i)).writer = some j →
      ∃ m, (r.step (.call i)).image j = some m ∧ WholeImage m ∧
        (r.step (.call i)).pool.shared.file = some m.encode) :
    (r.step (.call i)).Inv env n := by
  have hother : ∀ j, j ≠ i → (r.step (.call i)).image j = r.image j := by
    intro j hj
    rw [himage, Function.update_of_ne hj]
  have hown : (r.step (.call i)).image i = m := by
    rw [himage, Function.update_self]
  refine ⟨?_, ?_, ?_, hsize, hfile⟩
  · intro j
    by_cases hj : j = i
    · subst hj
      rwa [hself, hown]
    · rw [r.thread_call_of_ne hj, hother j hj]
      exact h.stage j
  · intro j hlast
    by_cases hj : j = i
    · subst hj
      rw [hown]
      rcases hlatest j hlast with hbefore | ⟨-, hm⟩
      · exact hkeep (h.latest j hbefore)
      · exact hm
    · rw [hother j hj]
      exact h.latest j ((hlatest j hlast).resolve_right fun hc => hj hc.1)
  · intro j
    by_cases hj : j = i
    · subst hj
      rw [hself, hown]
      exact hdone
    · rw [r.thread_call_of_ne hj, hother j hj]
      intro hret hne
      exact hwriter (h.done j hret hne)

/-- The record after a step that obtains nothing. -/
theorem record_of_obtained?_none {r : Race ι H} {i : ι}
    (hop : obtained? r.pool.shared.store (r.pool.thread i).next? = none) :
    (r.step (.call i)).image = Function.update r.image i (r.image i) ∧
      (r.step (.call i)).latest = r.latest := by
  constructor
  · simp only [step, hop, Function.update_eq_self]
  · simp only [step, hop, Option.isSome_none, Bool.false_eq_true, if_false]

theorem writer_call (r : Race ι H) (i : ι) :
    (r.step (.call i)).writer =
      if writes? (r.pool.thread i).next? then some i else r.writer := rfl

/-- The invariant is kept by the next system call of a call. -/
theorem Inv.call {env : ι → SnapshotEnv} (henv : ∀ i, (env i).Succeeds) {n : ℕ} {r : Race ι H}
    (h : r.Inv env n) (hn : entryCount r.pool.shared.store = n) (i : ι) :
    (r.step (.call i)).Inv env n := by
  have hself := r.thread_call_self i
  have hshared := r.shared_call i
  have hadv := (h.stage i).advance (henv i) hn
  generalize hm : r.image i = m at hadv
  cases hadv with
  | @obtains m hwhole hlen hop hw hstep =>
      rw [hstep] at hself hshared
      have himage : (r.step (.call i)).image = Function.update r.image i (some m) := by
        simp only [step, hop]
      have hwriter : (r.step (.call i)).writer = r.writer := by
        rw [writer_call, hw, if_neg (by decide)]
      refine h.of_call hself (.holds hwhole hlen) himage (fun _ => Option.some_ne_none _) ?_
        (by rintro ⟨⟩) (by rw [hwriter]; exact id) ?_ ?_
      · intro j hlast
        have hlatest : (r.step (.call i)).latest = some i := by
          simp only [step, hop, Option.isSome_some, if_true]
        rw [hlatest, Option.some.injEq] at hlast
        exact .inr ⟨hlast.symm, Option.some_ne_none _⟩
      · intro hdirty
        rw [hshared]
        exact h.size (dirty_of_dirty_call hdirty (by rw [hself]; rintro bytes ⟨⟩))
      · rw [hwriter, hshared]
        refine h.file.imp (fun hdirty => hdirty.call hw) ?_
        intro hwritten j hj
        obtain ⟨m', hj', hrest⟩ := hwritten j hj
        -- the call itself has not written: it had no image
        have hne : j ≠ i := by
          rintro rfl
          rw [hm] at hj'
          cases hj'
        exact ⟨m', by rw [himage, Function.update_of_ne hne, hj'], hrest⟩
  | @opens m hwhole hlen hp =>
      have hnext : (r.pool.thread i).next? = some .truncate := by
        rw [hp]
        rfl
      obtain ⟨himage, hlatest⟩ := record_of_obtained?_none (r := r) (i := i) (by rw [hnext]; rfl)
      have hwriter : (r.step (.call i)).writer = r.writer := by
        rw [writer_call, hnext]
        rfl
      rw [hp] at hself hshared
      have hdirty : (r.step (.call i)).Dirty := ⟨i, m.encode, hself⟩
      rw [hm] at himage
      refine h.of_call hself (.opened hwhole hlen) himage (fun _ => Option.some_ne_none _)
        (by rw [hlatest]; exact fun j hj => .inl hj) (by rintro ⟨⟩) (by rw [hwriter]; exact id) ?_
        (.inl hdirty)
      intro _ bytes hbytes
      rw [hshared] at hbytes
      obtain rfl : [] = bytes := Option.some.inj hbytes
      exact Nat.zero_le _
  | @writes m hwhole hlen hp =>
      have hnext : (r.pool.thread i).next? = some (.write m.encode) := by
        rw [hp]
        rfl
      obtain ⟨himage, hlatest⟩ := record_of_obtained?_none (r := r) (i := i) (by rw [hnext]; rfl)
      have hwriter : (r.step (.call i)).writer = some i := by
        rw [writer_call, hnext]
        rfl
      have hwritten : (r.step (.call i)).writer ≠ none := by
        rw [hwriter]
        exact Option.some_ne_none i
      have hlong : m.encode.length = 16 + 80 * n := by rw [m.length_encode, hlen]
      -- nothing is left of what was in the file
      have hfile : (r.step (.call i)).pool.shared.file = some m.encode := by
        have hrest : (r.pool.shared.file.getD []).drop m.encode.length = [] := by
          refine List.drop_of_length_le ?_
          cases hbytes : r.pool.shared.file with
          | none => exact Nat.zero_le _
          | some bytes =>
              rw [hlong]
              exact h.size ⟨i, m.encode, hp⟩ bytes hbytes
        rw [hshared, hp, Prog.step_call, sysExec, hrest, List.append_nil]
      rw [hp] at hself
      rw [hm] at himage
      refine h.of_call hself (.done hwhole hlen) himage (fun _ => Option.some_ne_none _)
        (by rw [hlatest]; exact fun j hj => .inl hj) (fun _ _ => hwritten) (fun _ => hwritten) ?_
        (.inr ?_)
      · intro _ bytes hbytes
        rw [hfile] at hbytes
        obtain rfl := Option.some.inj hbytes
        exact hlong.le
      · intro j hj
        rw [hwriter] at hj
        obtain rfl := Option.some.inj hj
        exact ⟨m, by rw [himage, Function.update_self], hwhole, hfile⟩
  | @moves m p' hop hw hstep hstage hquiet hdone =>
      obtain ⟨himage, hlatest⟩ := record_of_obtained?_none hop
      have hwriter : (r.step (.call i)).writer = r.writer := by
        rw [writer_call, hw, if_neg (by decide)]
      rw [hstep] at hself hshared
      rw [hm] at himage
      refine h.of_call hself hstage himage (by rw [hm]; exact id)
        (by rw [hlatest]; exact fun j hj => .inl hj) ?_ (by rw [hwriter]; exact id) ?_ ?_
      · intro hret hne
        rw [hwriter]
        exact h.done i (hdone hret hne) (by rwa [hm])
      · intro hdirty
        rw [hshared]
        exact h.size (dirty_of_dirty_call hdirty (by rw [hself]; exact hquiet))
      · rw [hwriter, hshared, himage, ← hm, Function.update_eq_self]
        exact h.file.imp (fun hdirty => hdirty.call hw) id

/-- The invariant is kept by every step that finds the number of entries unchanged. -/
theorem Inv.step {env : ι → SnapshotEnv} (henv : ∀ i, (env i).Succeeds) {n : ℕ} {r : Race ι H}
    (h : r.Inv env n) (hn : entryCount r.pool.shared.store = n) (e : RaceEvent ι) :
    (r.step e).Inv env n := by
  cases e with
  | call i => exact h.call henv hn i
  | other c => exact ⟨h.stage, h.latest, h.done, h.size, h.file⟩

omit [DecidableEq ι] in
theorem inv_start (env : ι → SnapshotEnv) (n : ℕ) (w : World H) : (start env w).Inv env n where
  stage := fun i => .start
  latest := nofun
  done := nofun
  size := by
    rintro ⟨i, bytes, hi⟩
    cases hi
  file := .inr nofun

end Race

/-- **The last writer wins.**  Let any number of calls of `do_kv_snapshot_to_file` run amid each other
and amid requests of others, all their system calls succeeding, while the number of entries stays the
same.  If at least one of them has obtained an image, then when all calls have returned the file holds
the image of the call that wrote last, and that image is what a restore reads. -/
theorem file_race {env : ι → SnapshotEnv} (henv : ∀ i, (env i).Succeeds) {n : ℕ} {w : World H}
    {es : List (RaceEvent ι)}
    (hcount : Machine.Along Race.step (fun r _ => r.pool.shared.store.1.entries.length = n)
      (.start env w) es)
    (hret : ∀ i, ((Race.start env w).run es).pool.thread i = .ret ())
    (hlatest : ((Race.start env w).run es).latest ≠ none) :
    ∃ j m, ((Race.start env w).run es).writer = some j ∧
      ((Race.start env w).run es).image j = some m ∧
      ((Race.start env w).run es).pool.shared.file = some m.encode ∧
      ∀ renv, decodeHeader m.encode = { m with entries := [] } ∧
        readEntries renv m.encode = m.entries := by
  have hinv : ((Race.start env w).run es).Inv env (n % 2 ^ 32) := by
    refine Machine.along_invariant Race.step (fun r => r.Inv env (n % 2 ^ 32)) hcount
      (Race.inv_start env _ w) ?_
    intro e _ r hr hn
    exact hr.step henv (by rw [entryCount, hn]) e
  obtain ⟨i, hi⟩ := Option.ne_none_iff_exists'.1 hlatest
  obtain ⟨j, hj⟩ := Option.ne_none_iff_exists'.1 (hinv.done i (hret i) (hinv.latest i hi))
  rcases hinv.file with ⟨k, bytes, hk⟩ | hfile
  · rw [hret k] at hk
    cases hk
  · obtain ⟨m, himage, hwhole, hbytes⟩ := hfile j hj
    refine ⟨j, m, hj, himage, hbytes, fun renv => ?_⟩
    exact ⟨decodeHeader_encode m, readEntries_encode renv hwhole.count_eq⟩

/-! ### An older image written last -/

/-- An update of key 7. -/
def updateB7 : IoctlCall :=
  .ok (.message .kvUpdate { KvMessage.zero with
    key := 7, value := memcpy (zeros MAX_VALUE_LEN) (ascii "b") })

/-- One call obtains its image, key 7 is updated, the other call runs from start to end, and the first
one goes on. -/
def olderWritesLast : List (RaceEvent Bool) :=
  [.call false, .call false, .other updateB7, .call true, .call true, .call true, .call true,
    .call false, .call false]

/-- The store that the two calls start with. -/
def storeA7small : Store twoBuckets :=
  (ioctl (insertA 7) (Store.init _)).2

/-- Two calls over a table of two buckets. -/
def twoCalls : Race Bool twoBuckets :=
  .start (fun _ => .ok) ⟨storeA7small, none⟩

theorem along_olderWritesLast :
    Machine.Along Race.step (fun r _ => r.pool.shared.store.1.entries.length = 1) twoCalls
      olderWritesLast := by
  decide +kernel

theorem returned_olderWritesLast (i : Bool) :
    (twoCalls.run olderWritesLast).pool.thread i = .ret () := by
  refine Prog.eq_ret_of_result? ?_
  cases i
  · decide +kernel
  · decide +kernel

theorem file_olderWritesLast :
    ∃ j m, (twoCalls.run olderWritesLast).writer = some j ∧
      (twoCalls.run olderWritesLast).image j = some m ∧
      (twoCalls.run olderWritesLast).pool.shared.file = some m.encode := by
  have hlatest : (twoCalls.run olderWritesLast).latest ≠ none := by decide +kernel
  obtain ⟨j, m, hj, himage, hfile, -⟩ := file_race (fun _ => ⟨rfl, rfl, rfl, rfl, rfl, rfl⟩)
    along_olderWritesLast returned_olderWritesLast hlatest
  exact ⟨j, m, hj, himage, hfile⟩

/-- The latest image shows the update; the file does not. -/
theorem olderWritesLast_stale :
    (∀ i, (twoCalls.run olderWritesLast).pool.thread i = .ret ()) ∧
      Machine.Along Race.step (fun r _ => r.pool.shared.store.1.entries.length = 1) twoCalls
        olderWritesLast ∧
      (twoCalls.run olderWritesLast).latest = some true ∧
      ((twoCalls.run olderWritesLast).image true).map (fun m => m.entries.map entryOf) =
        some [⟨7, cstr (ascii "b")⟩] ∧
      (twoCalls.run olderWritesLast).pool.shared.file.map
        (fun bytes => (readEntries .ok bytes).map entryOf) = some [⟨7, cstr (ascii "a")⟩] :=
  ⟨returned_olderWritesLast, along_olderWritesLast, by decide +kernel, by decide +kernel,
    by decide +kernel⟩

end Daemon
