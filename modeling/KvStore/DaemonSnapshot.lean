/-
**A snapshot to file while other clients are active.**

Between the `KV_COUNT` and the `KV_SNAPSHOT` of one `do_kv_snapshot_to_file` other clients' requests
reach the module.  When they change the number of entries, the buffer has the wrong size; the module
then returns the right number and copies nothing.  The daemon takes a positive number for success,
opens the file for writing, which empties it, and writes the header of its untouched buffer.

Main definitions:

* `Daemon.Contended`, `Daemon.Contended.after` — a call with requests of others between its ioctls;
* `Daemon.Contended.Safe` — the file is as it was, or holds an image of all that was there all the
  time;
* `Daemon.Contended.Intact` — what is there all the time is among the entries copied, unabridged.

Main results:

* `Daemon.Contended.after_eq` — the file after the call;
* `Daemon.Contended.safe_iff` — **when no live data is lost from the file**: exactly when the call
  gives up before it opens the file, or the number of entries is the same at both ioctls, or there
  was nothing to lose.
-/

import KvStore.Daemon

set_option relaxedAutoImplicit false
set_option autoImplicit false

namespace Daemon

open CMem Interleave KvHash KvIoctl Service

variable {H : HashFn}

/-- A call of `do_kv_snapshot_to_file`: what it meets, the store and the file before it, and the
requests of other clients between its two ioctls. -/
structure Contended (H : HashFn) where
  env : SnapshotEnv
  before : World H
  others : List IoctlCall

namespace Contended

/-! ### The call amid the others -/

/-- The first system call, the requests of others, and the other system calls. -/
def events (c : Contended H) : List (Prog.Event SysOp Unit) :=
  .own () :: (c.others.map (fun o => .env () (.ioctl o)) ++ List.replicate 3 (.own ()))

/-- What is left of the call, and the store and the file, after all of this. -/
def after (c : Contended H) : Task Unit × World H :=
  Prog.amidRun sysExec (doKvSnapshotToFile c.env, c.before) c.events

/-- The store that `KV_SNAPSHOT` finds. -/
def store (c : Contended H) : Store H := (serve ioctl c.others c.before.store).2

/-- The call passes through the store `t`. -/
def Passes (c : Contended H) (t : Store H) : Prop :=
  ∃ os, os <+: c.others ∧ (serve ioctl os c.before.store).2 = t

/-- The key is present throughout the call. -/
def Throughout (c : Contended H) (key : HashKey) : Prop := ∀ t, c.Passes t → t.get key ≠ none

/-- The key had this value during the call. -/
def Had (c : Contended H) (key : HashKey) (v : CStr) : Prop := ∃ t, c.Passes t ∧ t.get key = some v

/-- An image with as many entries as its header says, which contains every key present throughout
the call with a value that the key had during the call. -/
structure Complete (c : Contended H) (image : KvSnapshotMessage) : Prop where
  count : image.count.toNat = image.entries.length
  entries : ∀ key, c.Throughout key → ∃ e ∈ image.entries, e.key = key ∧ c.Had key (cstr e.value.1)

/-- After the call the file is what it was before, or holds a complete image. -/
def Safe (c : Contended H) : Prop :=
  c.after.2.file = c.before.file ∨ ∃ image, c.after.2.file = some image.encode ∧ c.Complete image

/-- The call gets as far as writing the file. -/
def writes (c : Contended H) : Bool :=
  c.env.counts (entryCount c.before.store) &&
    c.env.saves (entryCount c.before.store) (entryCount c.store)

theorem amidRun_others (p : Task Unit) (w : World H) (os : List IoctlCall) :
    Prog.amidRun sysExec (p, w) (os.map fun o => .env () (.ioctl o)) =
      (p, { w with store := (serve ioctl os w.store).2 }) := by
  induction os generalizing w with
  | nil => rfl
  | cons o os ih => exact ih _

/-- The whole call: it returns, the store is what the others have made of it, and the file is
written or not. -/
theorem after_eq (c : Contended H) :
    c.after = (.ret (), { store := c.store, file :=
      if c.writes then some (written c.env (entryCount c.before.store) c.store).encode
      else c.before.file }) := by
  have hstep : Prog.amid sysExec (doKvSnapshotToFile c.env, c.before) (.own ()) =
      (if c.env.counts (entryCount c.before.store) then
        saveSnapshot c.env (UInt32.ofNat (entryCount c.before.store)) else .ret (), c.before) :=
    step_doKvSnapshotToFile c.env c.before
  rw [after, events, Prog.amidRun_cons, hstep, Prog.amidRun_append, amidRun_others, writes]
  cases hcounts : c.env.counts (entryCount c.before.store) with
  | false => rfl
  | true =>
      have hrest := Prog.amidRun_replicate_own sysExec
        (within_saveSnapshot c.env (UInt32.ofNat (entryCount c.before.store))) ()
        (⟨c.store, c.before.file⟩ : World H)
      rw [run_saveSnapshot_of_counts hcounts] at hrest
      exact hrest

/-! ### When the file is safe -/

/-- Every key that is present throughout the call is among the first `entryCount c.store` entries of
the table that `KV_SNAPSHOT` finds, and the first 63 bytes of its value there are a value that it
had. -/
def Intact (c : Contended H) : Prop :=
  ∀ key, c.Throughout key →
    ∃ v, (⟨key, v⟩ : KvHashEntry) ∈ c.store.1.entries.take (entryCount c.store) ∧
      c.Had key (v.truncate 63)

theorem passes_store (c : Contended H) : c.Passes c.store := ⟨c.others, List.prefix_rfl, rfl⟩

/-- With fewer than `2 ^ 32` entries and no value of 64 bytes or more, nothing is cut off. -/
theorem intact_of_fits {c : Contended H} (hcount : c.store.1.entries.length < 2 ^ 32)
    (hlen : ∀ key v, c.store.get key = some v → v.1.length < MAX_VALUE_LEN) : c.Intact := by
  intro key hkey
  obtain ⟨v, hv⟩ := Option.ne_none_iff_exists'.1 (hkey c.store c.passes_store)
  refine ⟨v, ?_, c.store, c.passes_store, ?_⟩
  · rw [entryCount, Nat.mod_eq_of_lt hcount, List.take_length]
    exact c.store.2.mem_entries.2 hv
  · rw [CStr.truncate_of_le (Nat.le_of_lt_succ (hlen key v hv))]
    exact hv

/-- The image of the store is complete exactly when nothing is cut off. -/
theorem complete_imageOf_iff (c : Contended H) (env : KernelEnv) :
    c.Complete (imageOf env c.store) ↔ c.Intact := by
  have hcopied : ∀ key v, (∃ e ∈ (imageOf env c.store).entries, e.key = key ∧ cstr e.value.1 = v) ↔
      ∃ u, (⟨key, u⟩ : KvHashEntry) ∈ c.store.1.entries.take (entryCount c.store) ∧
        u.truncate 63 = v := by
    intro key v
    rw [← mem_map_entryOf_iff, map_entryOf_imageOf, List.mem_map]
    constructor
    · rintro ⟨⟨k, u⟩, hu, heq⟩
      cases heq
      exact ⟨u, hu, rfl⟩
    · rintro ⟨u, hu, rfl⟩
      exact ⟨⟨key, u⟩, hu, rfl⟩
  constructor
  · intro h key hkey
    obtain ⟨e, he, hekey, hhad⟩ := h.entries key hkey
    obtain ⟨u, hu, htrunc⟩ := (hcopied key _).1 ⟨e, he, hekey, rfl⟩
    rw [← htrunc] at hhad
    exact ⟨u, hu, hhad⟩
  · intro h
    refine ⟨count_imageOf env c.store, ?_⟩
    intro key hkey
    obtain ⟨u, hu, hhad⟩ := h key hkey
    obtain ⟨e, he, hekey, hval⟩ := (hcopied key _).2 ⟨u, hu, rfl⟩
    rw [← hval] at hhad
    exact ⟨e, he, hekey, hhad⟩

/-- A bare header is complete exactly when there is nothing to be recorded. -/
theorem complete_bareHeader_iff (c : Contended H) (n : ℕ) :
    c.Complete (bareHeader n) ↔ ∀ key, ¬ c.Throughout key := by
  constructor
  · intro h key hkey
    obtain ⟨e, he, -⟩ := h.entries key hkey
    exact List.not_mem_nil he
  · intro h
    exact ⟨rfl, fun key hkey => absurd hkey (h key)⟩

/-- **When a snapshot to file loses no live data.**  The call returns.  After it the file is as it was
before, or an image of all that was in the store throughout the call, exactly when

* the call gives up before it opens the file, or
* the number of entries is the same at both ioctls, and nothing is cut off when they are copied, or
* no key is present throughout the call, or
* the file already holds what is written: the image of the store where the numbers are the same, and
  a bare header where they differ. -/
theorem safe_iff (c : Contended H) :
    c.after.1 = .ret () ∧
      (c.Safe ↔ c.writes = false ∨
        (entryCount c.store = entryCount c.before.store ∧ c.Intact) ∨
        (∀ key, ¬ c.Throughout key) ∨
        c.before.file = some (if entryCount c.store = entryCount c.before.store then
          imageOf c.env.snapshot c.store else bareHeader (entryCount c.before.store)).encode) := by
  refine ⟨by rw [after_eq], ?_⟩
  have hfile : c.after.2.file = if c.writes then
      some (written c.env (entryCount c.before.store) c.store).encode else c.before.file := by
    rw [after_eq]
  rw [Safe, hfile]
  cases hwrites : c.writes with
  | false => simp
  | true =>
      -- the image that was written is the only one the file can hold
      have hcomplete : (∃ image, some (written c.env (entryCount c.before.store) c.store).encode =
          some image.encode ∧ c.Complete image) ↔
          c.Complete (written c.env (entryCount c.before.store) c.store) := by
        constructor
        · rintro ⟨image, himage, h⟩
          rw [KvSnapshotMessage.encode_injective (Option.some.inj himage)]
          exact h
        · intro h
          exact ⟨_, rfl, h⟩
      rw [if_pos rfl, hcomplete, written]
      by_cases heq : entryCount c.store = entryCount c.before.store
      · rw [if_pos heq, complete_imageOf_iff]
        constructor
        · rintro (hsame | hintact)
          · exact .inr (.inr (.inr hsame.symm))
          · exact .inr (.inl ⟨heq, hintact⟩)
        · rintro (hno | ⟨-, hintact⟩ | hnone | hsame)
          · cases hno
          · exact .inr hintact
          · exact .inr fun key hkey => absurd hkey (hnone key)
          · exact .inl hsame.symm
      · rw [if_neg heq, complete_bareHeader_iff]
        constructor
        · rintro (hsame | hnone)
          · exact .inr (.inr (.inr hsame.symm))
          · exact .inr (.inr (.inl hnone))
        · rintro (hno | ⟨hcount, -⟩ | hnone | hsame)
          · cases hno
          · exact absurd hcount heq
          · exact .inr hnone
          · exact .inl hsame.symm

/-- As long as the number of entries is the same at both ioctls, and the store holds fewer than
`2 ^ 32` entries and no value of 64 bytes or more, the file is safe. -/
theorem safe_of_entryCount_eq {c : Contended H}
    (hsame : entryCount c.store = entryCount c.before.store)
    (hcount : c.store.1.entries.length < 2 ^ 32)
    (hlen : ∀ key v, c.store.get key = some v → v.1.length < MAX_VALUE_LEN) : c.Safe := by
  rw [Safe, after_eq]
  cases c.writes with
  | false => exact .inl rfl
  | true =>
      refine .inr ⟨imageOf c.env.snapshot c.store, ?_, ?_⟩
      · rw [written, if_pos hsame]
        rfl
      · exact (complete_imageOf_iff c c.env.snapshot).2 (intact_of_fits hcount hlen)

end Contended

/-! ### An insertion between the two ioctls -/

/-- `KV_INSERT` of `a` under the given key. -/
def insertA (key : HashKey) : IoctlCall :=
  .ok (.message .kvInsert { KvMessage.zero with
    key := key
    value := memcpy (zeros MAX_VALUE_LEN) (ascii "a") })

/-- The store after `KV_INSERT` of key 7. -/
def storeA7 : Store HashFn.module := (ioctl (insertA 7) (Store.init HashFn.module)).2

theorem entryCount_storeA7 : entryCount storeA7 = 1 := by decide +kernel

/-- The store holds key 7 and the file is its image; key 8 is inserted between the two ioctls. -/
def insertedBetween : Contended HashFn.module where
  env := .ok
  before := ⟨storeA7, some (imageOf .ok storeA7).encode⟩
  others := [insertA 8]

/-- The file then holds a bare header: key 7, which was in the store and in the file all the time,
is lost from the file. -/
theorem not_safe_insertedBetween :
    insertedBetween.Throughout 7 ∧
      insertedBetween.after.2.file = some (bareHeader 1).encode ∧ ¬ insertedBetween.Safe := by
  have hcount : entryCount insertedBetween.before.store = 1 := entryCount_storeA7
  have hcount' : entryCount insertedBetween.store = 2 := by decide +kernel
  have hkey : insertedBetween.Throughout 7 := by
    rintro t ⟨os, hos, rfl⟩
    have hos' : os = [] ∨ os = [insertA 8] := by
      rcases os with _ | ⟨o, os⟩
      · exact .inl rfl
      · obtain ⟨rfl, hnil⟩ := List.cons_prefix_cons.1 hos
        rw [List.prefix_nil.1 hnil]
        exact .inr rfl
    rcases hos' with rfl | rfl
    · decide +kernel
    · decide +kernel
  have hfile : insertedBetween.after.2.file = some (bareHeader 1).encode := by
    rw [Contended.after_eq, Contended.writes, written, hcount, hcount']
    rfl
  refine ⟨hkey, hfile, ?_⟩
  rintro (hsame | ⟨image, himage, hcomplete⟩)
  · -- the image of the store has one entry
    rw [hfile] at hsame
    have himage := KvSnapshotMessage.encode_injective (Option.some.inj hsame)
    have hzero := congrArg KvSnapshotMessage.count himage
    rw [imageOf, entryCount_storeA7] at hzero
    exact absurd hzero (by decide)
  · rw [hfile] at himage
    rw [← KvSnapshotMessage.encode_injective (Option.some.inj himage)] at hcomplete
    exact (Contended.complete_bareHeader_iff _ _).1 hcomplete 7 hkey

end Daemon
