/-
**What a restart brings back.**

A session of the daemon restores the file into the freshly loaded module, handles the commands of
its clients, and saves the store when it is told to stop.  `do_kv_snapshot_to_file` has nothing to
write for an empty store ("No entries to snapshot") and returns; the file then stays as an earlier
snapshot left it, and the next session restores what this one has deleted.

Main definitions:

* `Daemon.Session`, `Daemon.Session.main` — a session, and what the daemon does in it;
* `Daemon.Session.started`, `Daemon.Session.stopping`, `Daemon.Session.stopped` — the store and the
  file after the restore, before the final snapshot, and after it;
* `Daemon.StaysDeleted` — what is absent at one shutdown is absent after the next restore.

Main results:

* `Daemon.staysDeleted_iff` — one restart;
* `Daemon.deleted_stays_deleted_iff` — **deleted keys do not come back** in a run of sessions,
  exactly when at each shutdown the number of entries is a positive `int`, or the file records no
  key but those that are in the store.
-/

import KvStore.DaemonSnapshot

set_option relaxedAutoImplicit false
set_option autoImplicit false

namespace Daemon

open CMem Interleave KvHash KvIoctl

variable {H : HashFn}

/-! ### Sessions -/

/-- A command of a client: a request to the module, or one for a snapshot. -/
inductive Command
  | request (c : IoctlCall)
  | snapshot (env : SnapshotEnv)

/-- What the daemon does on a command. -/
def Command.task : Command → Task Unit
  | .request c => .call (.ioctl c) fun _ => .ret ()
  | .snapshot env => doKvSnapshotToFile env

/-- A session of the daemon, in which one command is handled after the other. -/
structure Session where
  restore : RestoreEnv
  commands : List Command
  shutdown : SnapshotEnv

/-- The commands, one after the other. -/
def listenNetwork : List Command → Task Unit
  | [] => .ret ()
  | c :: cs => do
      c.task
      listenNetwork cs

/-- What `main` does with the device and the file. -/
def Session.main (σ : Session) : Task Unit := do
  let _ ← doKvRestoreFromFile σ.restore
  listenNetwork σ.commands
  doKvSnapshotToFile σ.shutdown

/-- The module is unloaded and loaded again. -/
def World.reload (w : World H) : World H := { w with store := Store.init H }

/-- The store and the file after the restore. -/
def Session.started (σ : Session) (w : World H) : World H :=
  ((doKvRestoreFromFile σ.restore).run (sysExec ()) w.reload).2

/-- The store and the file when the session is told to stop. -/
def Session.stopping (σ : Session) (w : World H) : World H :=
  ((listenNetwork σ.commands).run (sysExec ()) (σ.started w)).2

/-- The store and the file after the session. -/
def Session.stopped (w : World H) (σ : Session) : World H :=
  ((doKvSnapshotToFile σ.shutdown).run (sysExec ()) (σ.stopping w)).2

/-- The three together are a run of `main`. -/
theorem run_main (σ : Session) (w : World H) :
    σ.main.run (sysExec ()) w.reload = ((), σ.stopped w) := by
  rw [Session.main, Prog.run_bind, Prog.run_bind]
  rfl

/-- Every system call of the final snapshot succeeds. -/
structure SnapshotEnv.Succeeds (env : SnapshotEnv) : Prop where
  count : env.count.copyToUser = true
  calloc : env.calloc = true
  copyFromUser : env.snapshot.copyFromUser = true
  kmalloc : env.snapshot.kmalloc = true
  copyToUser : env.snapshot.copyToUser = true
  opens : env.opens = true

/-- A key that is absent when session `σ` is told to stop is absent after the restore of the session
`σ'` that follows it. -/
def StaysDeleted (w : World H) (σ σ' : Session) : Prop :=
  ∀ key, (σ.stopping w).store.get key = none → (σ'.started (σ.stopped w)).store.get key = none

/-- When session `σ` is told to stop, the number of entries is a positive `int`, or every key that
session `σ'` would read from the file as it is then is in the store. -/
def Recorded (w : World H) (σ σ' : Session) : Prop :=
  (0 < entryCount (σ.stopping w).store ∧ entryCount (σ.stopping w).store < 2 ^ 31) ∨
    ∀ key ∈ recordedKeys σ'.restore (σ.stopping w).file, (σ.stopping w).store.get key ≠ none

/-! ### One restart -/

/-- A restore into the fresh table makes the keys of the file present, and no others. -/
theorem get_started {σ : Session} (hσ : σ.restore.Inserts) (w : World H) (key : HashKey) :
    (σ.started w).store.get key ≠ none ↔ key ∈ recordedKeys σ.restore w.file := by
  have hget := get_doKvRestoreFromFile hσ w.reload key
  rw [show w.reload.store = Store.init H from rfl, Store.get_init] at hget
  rw [Session.started, hget]
  exact or_iff_right (not_not.2 rfl)

/-- What is in the file after a snapshot in which nothing fails. -/
theorem file_doKvSnapshotToFile {env : SnapshotEnv} (henv : env.Succeeds) (w : World H) :
    ((doKvSnapshotToFile env).run (sysExec ()) w).2.file =
      if 0 < entryCount w.store ∧ entryCount w.store < 2 ^ 31 then
        some (imageOf env.snapshot w.store).encode
      else w.file := by
  rw [run_doKvSnapshotToFile]
  simp only [SnapshotEnv.counts, SnapshotEnv.saves, henv.count, henv.calloc, henv.copyFromUser,
    henv.kmalloc, henv.copyToUser, henv.opens, if_true, Bool.and_true, Bool.and_eq_true,
    decide_eq_true_eq]

/-- The final snapshot writes the image of the store, if the number of entries is a positive
`int`. -/
theorem file_stopped {σ : Session} (hσ : σ.shutdown.Succeeds) (w : World H) :
    (σ.stopped w).file =
      if 0 < entryCount (σ.stopping w).store ∧ entryCount (σ.stopping w).store < 2 ^ 31 then
        some (imageOf σ.shutdown.snapshot (σ.stopping w).store).encode
      else (σ.stopping w).file :=
  file_doKvSnapshotToFile hσ _

/-- The keys recorded in an image are those of the entries that were copied. -/
theorem mem_recordedKeys_imageOf {env : RestoreEnv} {kenv : KernelEnv} {s : Store H} {key : HashKey}
    (h : key ∈ recordedKeys env (some (imageOf kenv s).encode)) : s.get key ≠ none := by
  rw [recordedKeys, Option.elim_some, readEntries_encode env (count_imageOf kenv s)] at h
  obtain ⟨e, he, rfl⟩ := List.mem_map.1 h
  have hsaid := List.mem_map_of_mem he (f := entryOf)
  rw [map_entryOf_imageOf, List.mem_map] at hsaid
  obtain ⟨d, hd, heq⟩ := hsaid
  have hget : s.get d.1 = some d.2 := s.2.mem_entries.1 (List.mem_of_mem_take hd)
  have hkey : d.1 = e.key := congrArg Sigma.fst heq
  rw [← hkey, hget]
  exact Option.some_ne_none d.2

/-- One restart. -/
theorem staysDeleted_iff {σ σ' : Session} (hσ : σ.shutdown.Succeeds) (hσ' : σ'.restore.Inserts)
    (w : World H) : StaysDeleted w σ σ' ↔ Recorded w σ σ' := by
  have hstays : StaysDeleted w σ σ' ↔
      ∀ key ∈ recordedKeys σ'.restore (σ.stopped w).file, (σ.stopping w).store.get key ≠ none := by
    refine forall_congr' fun key => ?_
    rw [← get_started hσ', not_imp_not]
  rw [hstays, Recorded, file_stopped hσ]
  by_cases hpos : 0 < entryCount (σ.stopping w).store ∧ entryCount (σ.stopping w).store < 2 ^ 31
  · rw [if_pos hpos]
    refine iff_of_true ?_ (.inl hpos)
    intro key hkey
    exact mem_recordedKeys_imageOf hkey
  · rw [if_neg hpos]
    exact (or_iff_right hpos).symm

/-! ### Runs of sessions -/

/-- **Deleted keys do not come back.**  Take any run of sessions, with the module reloaded between
them, in which the system calls of the restores and of the final snapshots succeed.  At every restart
what was absent at the shutdown is absent after the restore, exactly when at every shutdown that is
followed by a restart the number of entries is a positive `int`, or the file records no key but
those that are in the store. -/
theorem deleted_stays_deleted_iff (w : World H) (σs : List Session)
    (hσs : ∀ σ ∈ σs, σ.restore.Inserts ∧ σ.shutdown.Succeeds) :
    (∀ σs₁ σ σ' σs₂, σs = σs₁ ++ σ :: σ' :: σs₂ →
      StaysDeleted (Machine.run Session.stopped w σs₁) σ σ') ↔
    ∀ σs₁ σ σ' σs₂, σs = σs₁ ++ σ :: σ' :: σs₂ →
      Recorded (Machine.run Session.stopped w σs₁) σ σ' := by
  refine forall₄_congr fun σs₁ σ σ' σs₂ => imp_congr_right ?_
  rintro rfl
  have hσ : σ.shutdown.Succeeds := (hσs σ (by simp)).2
  have hσ' : σ'.restore.Inserts := (hσs σ' (by simp)).1
  exact staysDeleted_iff hσ hσ' _

/-- A session in which nothing fails. -/
def sessionOf (commands : List Command) : Session := ⟨.ok, commands, .ok⟩

theorem succeeds_sessionOf (commands : List Command) :
    (sessionOf commands).restore.Inserts ∧ (sessionOf commands).shutdown.Succeeds :=
  ⟨fun _ => ⟨rfl, rfl⟩, rfl, rfl, rfl, rfl, rfl, rfl⟩

/-- The machine on which the daemon has never run. -/
def blank : World HashFn.module := ⟨Store.init HashFn.module, none⟩

/-- A session that inserts key 7. -/
def inserting : Session := sessionOf [.request (insertA 7)]

/-- `KV_DELETE` of key 7. -/
def delete7 : IoctlCall := .ok (.message .kvDelete { KvMessage.zero with key := 7 })

/-- A session that deletes key 7. -/
def deleting : Session := sessionOf [.request delete7]

theorem store_stopping_inserting : (inserting.stopping blank).store = storeA7 := rfl

/-- After a session that has left key 7 in the store, no key that was absent comes back. -/
theorem staysDeleted_inserting : StaysDeleted blank inserting (sessionOf []) := by
  have hok : ∀ σ ∈ [inserting, sessionOf []], σ.restore.Inserts ∧ σ.shutdown.Succeeds := by
    intro σ hσ
    rcases List.mem_pair.1 hσ with rfl | rfl
    · exact succeeds_sessionOf _
    · exact succeeds_sessionOf _
  refine (deleted_stays_deleted_iff blank [inserting, sessionOf []] hok).2 ?_ [] _ _ [] rfl
  intro σs₁ σ σ' σs₂ hσs
  obtain rfl : σs₁ = [] := by
    have hlen := congrArg List.length hσs
    simp only [List.length_append, List.length_cons, List.length_nil] at hlen
    exact List.length_eq_zero_iff.1 (by omega)
  obtain rfl : inserting = σ := (List.cons.inj hσs).1
  refine .inl ?_
  rw [Machine.run_nil, store_stopping_inserting, entryCount_storeA7]
  decide

/-- The file after the session that inserts key 7. -/
theorem file_stopped_inserting :
    (inserting.stopped blank).file = some (imageOf .ok storeA7).encode := by
  have hfile := file_stopped (succeeds_sessionOf _).2 blank (σ := inserting)
  rw [store_stopping_inserting, entryCount_storeA7] at hfile
  exact hfile

theorem recordedKeys_storeA7 (env : RestoreEnv) :
    recordedKeys env (some (imageOf .ok storeA7).encode) = [7] := by
  have hkeys : (imageOf .ok storeA7).entries.map KvMessage.key = [7] := by decide +kernel
  rw [recordedKeys, Option.elim_some, readEntries_encode env (count_imageOf _ _), hkeys]

/-- A session that finds key 7 in the file, and deletes it, empties the store and leaves the file
alone. -/
theorem stopping_deleting {w : World H} (hw : w.file = some (imageOf .ok storeA7).encode) :
    (∀ key, (deleting.stopping w).store.get key = none) ∧ (deleting.stopping w).file = w.file := by
  have hstopping : deleting.stopping w =
      ⟨(ioctl delete7 (deleting.started w).store).2, (deleting.started w).file⟩ := rfl
  rw [hstopping]
  constructor
  · intro key
    have hstarted := get_started (succeeds_sessionOf _).1 w key (σ := deleting)
    rw [hw, recordedKeys_storeA7, List.mem_singleton] at hstarted
    rw [get_ioctl_delete (c := delete7) rfl rfl]
    by_cases hkey : key = 7
    · rw [if_pos hkey]
    · rw [if_neg hkey]
      exact not_not.1 (mt hstarted.1 hkey)
  · exact file_doKvRestoreFromFile RestoreEnv.ok w.reload

theorem entryCount_eq_zero {s : Store H} (h : ∀ key, s.get key = none) : entryCount s = 0 := by
  have hnil : s.1.entries = [] := by
    refine List.eq_nil_iff_forall_not_mem.2 ?_
    intro e he
    have hget : s.get e.1 = some e.2 := s.2.mem_entries.1 he
    rw [h] at hget
    cases hget
  rw [entryCount, hnil]
  rfl

/-- Key 7 is inserted in one session and deleted in the next.  The store is empty when that one is
told to stop, and the third session finds key 7 in the file. -/
theorem deleted_comes_back :
    (deleting.stopping (inserting.stopped blank)).store.get 7 = none ∧
      ((sessionOf []).started (deleting.stopped (inserting.stopped blank))).store.get 7 ≠ none := by
  have hfile := file_stopped_inserting
  generalize inserting.stopped blank = w at hfile ⊢
  obtain ⟨hnone, hstopping⟩ := stopping_deleting hfile
  refine ⟨hnone 7, ?_⟩
  have hstay : (deleting.stopped w).file = some (imageOf .ok storeA7).encode := by
    have hstopped := file_stopped (succeeds_sessionOf _).2 w (σ := deleting)
    rw [entryCount_eq_zero hnone, hstopping, hfile] at hstopped
    exact hstopped
  rw [get_started (succeeds_sessionOf _).1, hstay, recordedKeys_storeA7]
  exact List.mem_singleton.2 rfl

end Daemon
