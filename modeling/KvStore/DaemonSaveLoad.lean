/-
**Saving and loading.**

On its way into the file and back the store changes its form five times: chains of entries become
slots of the kernel's image, bytes in the user's buffer, bytes of the file, messages read from them,
and insertions into an empty table.  The image says what the table held, up to the first 63 bytes of
each value (`Daemon.map_entryOf_imageOf`), and is read back unharmed (`Daemon.readEntries_encode`).
What is left is the last step, the loop of insertions, and the counting at the start: the number of
entries passes through an `int`.

Main definitions:

* `Daemon.RestoreEnv.Succeeds` — nothing goes wrong during a restore;
* `Daemon.storeAfter` — the store after some insertions of a restore;
* `Daemon.restore`, `Daemon.shown` — what becomes of a file, and what an image says;
* `Daemon.SavedAndLoaded` — the store is what it was, and the restore says so.

Main results:

* `Daemon.store_doKvRestoreFromFile` — a restore is the insertion of the entries it reads, in turn;
* `Daemon.get_storeAfter` — **what a restore inserts**: of the entries with the same key the first,
  and none whose key is there already;
* `Daemon.get_restore_imageOf` — an image is restored to the store it was taken of, with the values cut
  to 63 bytes;
* `Daemon.savedAndLoaded_iff` — **saving and loading is the identity** exactly on the stores of
  fewer than `2 ^ 31` entries.
-/

import KvStore.DaemonRestart
import KvStore.KvIoctlMap

set_option relaxedAutoImplicit false
set_option autoImplicit false

namespace Daemon

open CMem Interleave KvHash KvIoctl Service

variable {H : HashFn}

/-! ### What a restore inserts -/

/-- Every system call of a restore succeeds. -/
structure RestoreEnv.Succeeds (env : RestoreEnv) : Prop where
  inserts : env.Inserts
  copyToUser : ∀ i, (env.insert i).1.copyToUser = true

/-- The values of the store fit into a message. -/
def Fits (s : Store H) : Prop := ∀ key v, s.get key = some v → v.1.length < MAX_VALUE_LEN

/-- What an insertion does to a key, whatever it meets. -/
theorem get_insertCall (env : RestoreEnv) (i : ℕ) (entry : KvMessage) (s : Store H)
    (key : HashKey) :
    (ioctl (env.insertCall i entry) s).2.get key =
      if key = entry.key ∧ (env.insert i).1.copyFromUser = true ∧ s.found entry.key = false ∧
        (env.insert i).2.admits s.1 entry.key = true
      then some (cstr (entry.value.1 ++ (env.insert i).1.stack)) else s.get key := by
  rw [RestoreEnv.insertCall, ioctl_snd]
  cases hin : (env.insert i).1.copyFromUser with
  | false => simp
  | true =>
      simp only [Bool.true_eq_false, if_false, dispatch, run_handleInsert]
      cases hf : s.found entry.key with
      | true => simp
      | false =>
          simp only [Bool.false_eq_true, if_false, run_addAndReply, Store.get_add, true_and]
          refine if_congr ?_ rfl rfl
          rw [and_comm]

/-- The store after the first `n` insertions of a restore. -/
def storeAfter (env : RestoreEnv) (entries : List KvMessage) (s : Store H) : ℕ → Store H
  | 0 => s
  | n + 1 =>
      match entries[n]? with
      | none => storeAfter env entries s n
      | some entry => (ioctl (env.insertCall n entry) (storeAfter env entries s n)).2

theorem storeAfter_succ {env : RestoreEnv} {entries : List KvMessage} {n : ℕ} {entry : KvMessage}
    (h : entries[n]? = some entry) (s : Store H) :
    storeAfter env entries s (n + 1) =
      (ioctl (env.insertCall n entry) (storeAfter env entries s n)).2 := by
  rw [storeAfter, h]

/-- The loop of the restore, from where it has got to. -/
theorem store_restoreLoop_eq (env : RestoreEnv) (status : Int32) (s : Store H)
    (done entries : List KvMessage) (restored skipped : UInt32) {w : World H}
    (hw : w.store = storeAfter env (done ++ entries) s done.length) :
    ((restoreLoop env status done.length entries restored skipped).run (sysExec ()) w).2.store =
      storeAfter env (done ++ entries) s (done ++ entries).length := by
  induction entries generalizing done restored skipped w with
  | nil =>
      rw [List.append_nil] at hw ⊢
      exact hw
  | cons entry entries ih =>
      have hnext : (done ++ entry :: entries)[done.length]? = some entry := by simp
      have hrec := ih (done ++ [entry])
      rw [List.length_append, List.length_singleton, List.append_assoc, List.singleton_append] at hrec
      rw [run_restoreLoop_cons]
      refine hrec _ _ ?_
      rw [storeAfter_succ hnext, ← hw]

/-- A restore is the insertion of the entries it reads, in turn. -/
theorem store_doKvRestoreFromFile (env : RestoreEnv) (s : Store H) (bytes : List UInt8) :
    ((doKvRestoreFromFile env).run (sysExec ()) ⟨s, some bytes⟩).2.store =
      storeAfter env (readEntries env bytes) s (readEntries env bytes).length := by
  rw [run_doKvRestoreFromFile]
  exact store_restoreLoop_eq env _ s [] (readEntries env bytes) 0 0 rfl

theorem found_congr {s t : Store H} {key : HashKey} (h : s.get key = t.get key) :
    s.found key = t.found key := by
  rw [Store.found, Store.found, h]

/-- The values of terminated messages fit into a message. -/
theorem length_lt_of_dlookup {entries : List KvMessage} (hnul : ∀ m ∈ entries, 0 ∈ m.value.1)
    {key : HashKey} {v : CStr} (h : (entries.map entryOf).dlookup key = some v) :
    v.1.length < MAX_VALUE_LEN := by
  obtain ⟨m, hm, -, rfl⟩ := mem_map_entryOf_iff.1 (List.of_mem_dlookup h)
  exact lt_of_lt_of_eq (length_cstr_lt (hnul m hm)) m.value.2

/-- **What a restore inserts.**  Of the entries with the same key the first is inserted, unless a value
that fits into a message is there already. -/
theorem get_storeAfter {env : RestoreEnv} (henv : env.Inserts) {entries : List KvMessage}
    (hnul : ∀ m ∈ entries, 0 ∈ m.value.1) (s : Store H) (n : ℕ) (key : HashKey) :
    (storeAfter env entries s n).get key =
      if s.found key then s.get key
      else (((entries.take n).map entryOf).dlookup key).or (s.get key) := by
  induction n with
  | zero => simp [storeAfter]
  | succ n ih =>
      cases hn : entries[n]? with
      | none => rw [storeAfter, hn, List.take_add_one, hn, Option.toList_none, List.append_nil, ih]
      | some entry =>
          have htake : ((entries.take (n + 1)).map entryOf).dlookup key =
              (((entries.take n).map entryOf).dlookup key).or ([entryOf entry].dlookup key) := by
            rw [List.take_add_one, hn, Option.toList_some, List.map_append, List.dlookup_append]
            rfl
          have hcstr := cstr_append (hnul entry (List.mem_of_getElem? hn)) (env.insert n).1.stack
          obtain ⟨hin, hok⟩ := henv n
          rw [storeAfter_succ hn, get_insertCall, hok, Alloc.admits_ok, hcstr, htake]
          by_cases hkey : key = entry.key
          · subst hkey
            have hentry : [entryOf entry].dlookup entry.key = some (cstr entry.value.1) := by
              rw [entryOf]
              exact List.dlookup_cons_eq ..
            rw [hentry]
            by_cases hfound : s.found entry.key = true
            · -- the key is there
              rw [if_pos hfound] at ih ⊢
              rw [if_neg, ih]
              rintro ⟨-, -, hnot, -⟩
              rw [found_congr ih, hfound] at hnot
              cases hnot
            · rw [if_neg hfound] at ih ⊢
              cases hdl : ((entries.take n).map entryOf).dlookup entry.key with
              | none =>
                  rw [hdl, Option.none_or] at ih
                  rw [if_pos, Option.none_or, Option.some_or]
                  refine ⟨rfl, hin, ?_, rfl⟩
                  rw [found_congr ih]
                  exact Bool.not_eq_true _ ▸ hfound
              | some v =>
                  -- an entry with the same key came before
                  have hshort := length_lt_of_dlookup
                    (fun m hm => hnul m (List.mem_of_mem_take hm)) hdl
                  rw [hdl, Option.some_or] at ih
                  rw [if_neg, ih, Option.some_or, Option.some_or]
                  rintro ⟨-, -, hnot, -⟩
                  rw [Store.found, ih] at hnot
                  exact absurd hshort (of_decide_eq_false hnot)
          · have hentry : [entryOf entry].dlookup key = none :=
              List.dlookup_cons_ne [] (entryOf entry) hkey
            rw [if_neg fun hc => hkey hc.1, ih, hentry, Option.or_none]

/-- The messages of a restore are copied to the module and back. -/
def RestoreEnv.Copies (env : RestoreEnv) : Prop :=
  ∀ i, (env.insert i).1.copyFromUser = true ∧ (env.insert i).1.copyToUser = true

theorem RestoreEnv.Succeeds.copies {env : RestoreEnv} (h : env.Succeeds) : env.Copies := fun i =>
  ⟨(h.inserts i).1, h.copyToUser i⟩

/-- The counters of a restore whose messages are copied: one of them counts all entries. -/
theorem counters_restoreLoop {env : RestoreEnv} (henv : env.Copies) (status : Int32)
    (entries : List KvMessage) (i : ℕ) (restored skipped : UInt32) (w : World H) :
    ((restoreLoop env status i entries restored skipped).run (sysExec ()) w).1 =
      if status = 0 then (restored + UInt32.ofNat entries.length, skipped)
      else (restored, skipped + UInt32.ofNat entries.length) := by
  induction entries generalizing i restored skipped w with
  | nil => simp [restoreLoop]
  | cons entry entries ih =>
      have hret : (ioctl (env.insertCall i entry) w.store).1.1 = 0 := by
        rw [ioctl_message_ok (c := env.insertCall i entry) rfl (by rintro n ⟨⟩)
          (henv i).1 (henv i).2]
      have hone : ∀ c : UInt32, c + 1 + UInt32.ofNat entries.length =
          c + UInt32.ofNat (entries.length + 1) := by
        intro c
        rw [UInt32.ofNat_add, UInt32.add_assoc, UInt32.add_comm 1]
        rfl
      rw [run_restoreLoop_cons, List.length_cons]
      dsimp only
      rw [ih, hret]
      by_cases hstatus : status = 0
      · have hskip : ¬ ((0 : ℤ) < 0 ∨ status ≠ 0) := by
          rw [hstatus]
          decide
        rw [if_pos hstatus, if_pos hstatus, if_neg hskip, if_neg hskip, hone]
      · have hskip : (0 : ℤ) < 0 ∨ status ≠ 0 := .inr hstatus
        rw [if_neg hstatus, if_neg hstatus, if_pos hskip, if_pos hskip, hone]

theorem counters_doKvRestoreFromFile (env : RestoreEnv) (w : World H) :
    ((doKvRestoreFromFile env).run (sysExec ()) w).1 =
      w.file.map fun bytes =>
        ((restoreLoop env (decodeHeader bytes).status 0 (readEntries env bytes) 0 0).run
          (sysExec ()) w).1 := by
  simp only [doKvRestoreFromFile, readFile, Prog.call_bind, Prog.ret_bind, Prog.run_call, sysExec]
  cases w.file with
  | none => rfl
  | some bytes => rw [Prog.run_bind, Prog.pure_eq, Prog.run_ret, Option.map_some]

/-! ### Images -/

/-- The values that have been copied are terminated. -/
theorem terminated_of_mem_zipWith {done : Chain} {slots : List KvMessage}
    (h : done.length ≤ slots.length) {m : KvMessage} (hm : m ∈ List.zipWith copyEntry done slots) :
    0 ∈ m.value.1 := by
  obtain ⟨e, -, -, hvalue⟩ := exists_entry_of_mem_zipWith h hm
  have htake : (e.2.1.take 63).length ≤ 63 := List.length_take_le ..
  rw [hvalue, List.rightpad, List.mem_append]
  refine .inr (List.mem_replicate.2 ⟨?_, rfl⟩)
  omega

/-- The values of an image are terminated. -/
theorem terminated_imageOf (env : KernelEnv) (s : Store H) :
    ∀ m ∈ (imageOf env s).entries, 0 ∈ m.value.1 := by
  intro m hm
  have hlen : (s.1.entries.take (entryCount s)).length ≤
      ((List.range (entryCount s)).map env.heapSlot).length := by
    rw [length_take_entryCount, List.length_map, List.length_range]
  exact terminated_of_mem_zipWith hlen hm

/-- What an image says under a key, when all entries are counted. -/
theorem dlookup_imageOf (env : KernelEnv) {s : Store H} (hs : s.1.entries.length < 2 ^ 32)
    (key : HashKey) :
    ((imageOf env s).entries.map entryOf).dlookup key = (s.get key).map (·.truncate 63) := by
  have hcount : entryCount s = s.1.entries.length := Nat.mod_eq_of_lt hs
  have hget : s.1.entries.dlookup key = s.get key := by
    refine Option.ext fun v => ?_
    rw [← Option.mem_def, List.mem_dlookup_iff s.2.nodupKeys_entries]
    exact s.2.mem_entries
  rw [map_entryOf_imageOf, hcount, List.take_length, ← hget]
  exact List.dlookup_map₂ (l := s.1.entries) (f := fun _ v => CStr.truncate v 63) key

/-- The restore of a file into an empty table. -/
def restore (H : HashFn) (env : RestoreEnv) (file : Option (List UInt8)) : Store H :=
  ((doKvRestoreFromFile env).run (sysExec ()) ⟨Store.init H, file⟩).2.store

/-- A file is restored to what is read from it. -/
theorem get_restore {env : RestoreEnv} (henv : env.Inserts) {bytes : List UInt8}
    (hnul : ∀ m ∈ readEntries env bytes, 0 ∈ m.value.1) (key : HashKey) :
    (restore H env (some bytes)).get key = ((readEntries env bytes).map entryOf).dlookup key := by
  have hfound : (Store.init H).found key = false := by
    rw [Store.found, Store.get_init]
  rw [restore, store_doKvRestoreFromFile, get_storeAfter henv hnul, hfound, Store.get_init,
    List.take_length, Option.or_none]
  rfl

/-- What an image says under a key. -/
def shown (m : KvSnapshotMessage) (key : HashKey) : Option CStr :=
  (m.entries.map entryOf).dlookup key

/-- An image that has as many entries as its header says, each with a terminated value. -/
structure WholeImage (m : KvSnapshotMessage) : Prop where
  count_eq : m.count.toNat = m.entries.length
  terminated : ∀ e ∈ m.entries, 0 ∈ e.value.1

theorem wholeImage_imageOf (env : KernelEnv) (s : Store H) : WholeImage (imageOf env s) :=
  ⟨count_imageOf env s, terminated_imageOf env s⟩

/-- An image is restored to what it says. -/
theorem get_restore_encode {env : RestoreEnv} (henv : env.Inserts) {m : KvSnapshotMessage}
    (hm : WholeImage m) (key : HashKey) :
    (restore H env (some m.encode)).get key = shown m key := by
  have hread := readEntries_encode env hm.count_eq
  have hget := @get_restore H env henv m.encode (by rw [hread]; exact hm.terminated) key
  rw [hread] at hget
  exact hget

/-- **An image is restored** to the store it was taken of, with the values cut to 63 bytes. -/
theorem get_restore_imageOf {env : RestoreEnv} (henv : env.Inserts) (kenv : KernelEnv) {s : Store H}
    (hs : s.1.entries.length < 2 ^ 32) (key : HashKey) :
    (restore H env (some (imageOf kenv s).encode)).get key = (s.get key).map (·.truncate 63) := by
  rw [get_restore_encode henv (wholeImage_imageOf kenv s), shown, dlookup_imageOf kenv hs]

/-- The counters after the restore of an image. -/
theorem counters_imageOf {env : RestoreEnv} (henv : env.Succeeds) (kenv : KernelEnv) (s : Store H)
    (t : Store H) :
    ((doKvRestoreFromFile env).run (sysExec ())
        (⟨t, some (imageOf kenv s).encode⟩ : World H)).1 =
      some (UInt32.ofNat (entryCount s), 0) := by
  have hlen : (imageOf kenv s).entries.length = entryCount s := by
    rw [← count_imageOf, imageOf, toNat_ofNat_entryCount]
  rw [counters_doKvRestoreFromFile, Option.map_some, readEntries_encode env (count_imageOf kenv s),
    decodeHeader_encode, show (imageOf kenv s).status = 0 from rfl,
    counters_restoreLoop henv.copies, if_pos rfl, hlen, UInt32.zero_add]

/-! ### Saving, then loading -/

/-- The store is saved over the given file and loaded into an empty table: the table then holds the
keys and values of the store, and the restore says that it has restored as many entries as there
were, and skipped none. -/
def SavedAndLoaded (env : SnapshotEnv) (renv : RestoreEnv) (s : Store H)
    (file : Option (List UInt8)) : Prop :=
  let saved := ((doKvSnapshotToFile env).run (sysExec ()) ⟨s, file⟩).2
  let loaded := (doKvRestoreFromFile renv).run (sysExec ()) saved.reload
  (∀ key, loaded.2.store.get key = s.get key) ∧
    ∃ restored, loaded.1 = some (restored, 0) ∧ restored.toNat = s.1.entries.length

/-- **Saving and loading is the identity** on a store of short values, at least one of them, exactly
when it has fewer than `2 ^ 31` entries: from there on the module's count is negative or too
small. -/
theorem savedAndLoaded_iff {env : SnapshotEnv} (henv : env.Succeeds) {renv : RestoreEnv}
    (hrenv : renv.Succeeds) {s : Store H} (hne : 0 < s.1.entries.length)
    (hs : ∀ key v, s.get key = some v → v.1.length ≤ 63) :
    (∀ file, SavedAndLoaded env renv s file) ↔ s.1.entries.length < 2 ^ 31 := by
  constructor
  · -- an empty file, so that nothing is loaded unless it is saved
    intro h
    obtain ⟨-, restored, hcounters, hcount⟩ := h none
    dsimp only [World.reload] at hcounters
    rw [file_doKvSnapshotToFile henv] at hcounters
    split at hcounters
    · rename_i hlt
      rw [counters_imageOf hrenv] at hcounters
      obtain ⟨rfl, -⟩ := Prod.mk.inj (Option.some.inj hcounters)
      rw [toNat_ofNat_entryCount] at hcount
      rw [← hcount]
      exact hlt.2
    · rw [counters_doKvRestoreFromFile] at hcounters
      cases hcounters
  · -- the image of the store replaces whatever was in the file
    intro hlt file
    have hcount : entryCount s = s.1.entries.length :=
      Nat.mod_eq_of_lt (lt_of_lt_of_le hlt (by decide))
    have hfile : ((doKvSnapshotToFile env).run (sysExec ()) (⟨s, file⟩ : World H)).2.file =
        some (imageOf env.snapshot s).encode := by
      rw [file_doKvSnapshotToFile henv]
      dsimp only
      rw [hcount, if_pos ⟨hne, hlt⟩]
    refine ⟨?_, UInt32.ofNat (entryCount s), ?_, ?_⟩
    · intro key
      have hget := get_restore_imageOf hrenv.inserts env.snapshot
        (lt_of_lt_of_le hlt (by decide)) key
      rw [restore] at hget
      rw [World.reload, hfile, hget]
      cases hkey : s.get key with
      | none => rfl
      | some v => rw [Option.map_some, CStr.truncate_of_le (hs key v hkey)]
    · rw [World.reload, hfile, counters_imageOf hrenv]
    · rw [toNat_ofNat_entryCount, hcount]

theorem succeeds_ok : RestoreEnv.ok.Succeeds where
  inserts := fun _ => ⟨rfl, rfl⟩
  copyToUser := fun _ => rfl

theorem length_storeA7 : storeA7.1.entries.length = 1 := by decide +kernel

theorem savedAndLoaded_storeA7 :
    storeA7.1.entries.length = 1 ∧ ∀ file, SavedAndLoaded .ok .ok storeA7 file := by
  have hshort : ∀ e ∈ storeA7.1.entries, e.2.1.length ≤ 63 := by decide +kernel
  refine ⟨length_storeA7, (savedAndLoaded_iff ⟨rfl, rfl, rfl, rfl, rfl, rfl⟩ succeeds_ok ?_ ?_).2 ?_⟩
  · rw [length_storeA7]
    decide
  · intro key v hv
    exact hshort ⟨key, v⟩ (storeA7.2.mem_entries.2 hv)
  · rw [length_storeA7]
    decide

/-- The store after the keys below `n` have been inserted. -/
def filledStore (H : HashFn) (n : ℕ) : Store H :=
  (serve ordinaryIoctl (fillCalls n) (Store.init H)).2

theorem length_filledStore (H : HashFn) {n : ℕ} (hn : n ≤ 2 ^ 64) :
    (filledStore H n).1.entries.length = n := by
  rw [filledStore, ← (holds_serve H (fillCalls n)).card_keys]
  exact (keys_serve_fillCalls hn).2

theorem fits_filledStore (H : HashFn) (n : ℕ) : Fits (filledStore H n) := by
  intro key v hv
  have hholds := holds_serve H (fillCalls n)
  rw [filledStore, hholds.get_eq] at hv
  exact hholds.length_lt key v hv

/-- Nothing is saved when the number of entries is negative as an `int`. -/
theorem not_savedAndLoaded {s : Store H} (hs : 2 ^ 31 ≤ entryCount s) :
    ¬ SavedAndLoaded .ok .ok s none := by
  rintro ⟨-, restored, hcounters, -⟩
  have hcount : ¬ (0 < entryCount s ∧ entryCount s < 2 ^ 31) := by omega
  dsimp only [World.reload] at hcounters
  rw [file_doKvSnapshotToFile ⟨rfl, rfl, rfl, rfl, rfl, rfl⟩] at hcounters
  dsimp only at hcounters
  rw [if_neg hcount, counters_doKvRestoreFromFile] at hcounters
  cases hcounters

/-- `2 ^ 31` keys are inserted. -/
theorem not_savedAndLoaded_filledStore :
    0 < (filledStore HashFn.module (2 ^ 31)).1.entries.length ∧
      (∀ key v, (filledStore HashFn.module (2 ^ 31)).get key = some v → v.1.length ≤ 63) ∧
      ¬ SavedAndLoaded .ok .ok (filledStore HashFn.module (2 ^ 31)) none := by
  have hlen := length_filledStore HashFn.module (n := 2 ^ 31) (by decide)
  refine ⟨?_, ?_, ?_⟩
  · rw [hlen]
    norm_num
  · intro key v hv
    exact Nat.le_of_lt_succ (fits_filledStore HashFn.module (2 ^ 31) key v hv)
  · refine not_savedAndLoaded ?_
    rw [entryCount, hlen]
    norm_num

end Daemon
