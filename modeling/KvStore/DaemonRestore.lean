/-
**What a restore makes of the store.**

`do_kv_restore_from_file` reads the header of the snapshot file, allocates room for as many entries as
it says, reads them, and inserts them one by one into whatever the store holds: when the daemon is
restarted and the module is not, that is everything it held before.  It looks neither at how much it
could read nor at what became of an insertion.

This module follows the store from one insertion to the next (`Daemon.storeAfter`).  That shows which
entry has added a key, and so what a restore adds for an arbitrary file, what it leaves alone, and what
the two counters that it prints have to do with it.

Three things go wrong.  Where the file is shorter than its header says, the missing entries are made up
from the memory that `malloc` returned.  A key that is in the store under a value too long for a
message is taken for absent, and overwritten.  And an insertion that is refused, or finds no memory, is
counted as restored all the same, because the ioctl itself returns 0.

Main definitions:

* `Daemon.addsAt` — an insertion adds its key;
* `Daemon.recordAt` — an entry as it stands in the file;
* `Daemon.AddsRecords` — every key that is added comes from a record in the file;
* `Daemon.Merges` — the restore adds what is not there, and a second one adds nothing;
* `Daemon.Truthful` — the counters say how many keys were added.

Main results:

* `Daemon.exists_addsAt` — a key that has been added was added by one of the insertions;
* `Daemon.addsRecords_iff` — **the files from which nothing is made up**;
* `Daemon.merges_iff` — **when a restore is a merge**;
* `Daemon.truthful_iff` — **when the counters are right**.
-/

import KvStore.DaemonSaveLoad

set_option relaxedAutoImplicit false
set_option autoImplicit false

namespace Daemon

open CMem ByteRecord Interleave KvHash KvIoctl

variable {H : HashFn}

/-! ### One insertion after the other -/

/-- An insertion takes no key away. -/
theorem get_insertCall_ne_none {env : RestoreEnv} {i : ℕ} {entry : KvMessage} {s : Store H}
    {key : HashKey} (h : s.get key ≠ none) : (ioctl (env.insertCall i entry) s).2.get key ≠ none := by
  rw [get_insertCall]
  split
  · exact Option.some_ne_none _
  · exact h

theorem get_storeAfter_ne_none {env : RestoreEnv} {entries : List KvMessage} {s : Store H}
    {key : HashKey} {m n : ℕ} (hmn : m ≤ n) (h : (storeAfter env entries s m).get key ≠ none) :
    (storeAfter env entries s n).get key ≠ none := by
  induction n, hmn using Nat.le_induction with
  | base => exact h
  | succ n _ ih =>
      cases hn : entries[n]? with
      | none =>
          rw [storeAfter, hn]
          exact ih
      | some entry =>
          rw [storeAfter_succ hn]
          exact get_insertCall_ne_none ih

/-- The `i`-th insertion adds the key of its entry. -/
def addsAt (env : RestoreEnv) (entries : List KvMessage) (s : Store H) (i : ℕ) : Bool :=
  match entries[i]? with
  | none => false
  | some entry =>
      ((storeAfter env entries s i).get entry.key).isNone &&
        ((storeAfter env entries s (i + 1)).get entry.key).isSome

/-- An insertion adds its key when the key is absent, the message reaches the module and memory is
found. -/
theorem addsAt_iff {env : RestoreEnv} {entries : List KvMessage} {i : ℕ} {entry : KvMessage}
    (h : entries[i]? = some entry) (s : Store H) :
    addsAt env entries s i = true ↔
      (storeAfter env entries s i).get entry.key = none ∧ (env.insert i).1.copyFromUser = true ∧
        (env.insert i).2 = .ok := by
  rw [addsAt, h]
  dsimp only
  rw [storeAfter_succ h, get_insertCall, Bool.and_eq_true, Option.isNone_iff_eq_none]
  refine and_congr_right fun hnone => ?_
  have hfound : (storeAfter env entries s i).found entry.key = false := by
    rw [Store.found, hnone]
  have hadmits : (env.insert i).2.admits (storeAfter env entries s i).1 entry.key = true ↔
      (env.insert i).2 = .ok := by
    have hget : (storeAfter env entries s i).1.get entry.key = none := hnone
    rw [Alloc.admits, hget]
    obtain ⟨kstrdup, kmalloc⟩ := (env.insert i).2
    cases kstrdup <;> cases kmalloc <;> simp [Alloc.ok]
  simp only [hfound, hadmits, hnone, true_and]
  split
  · rename_i hok
    exact ⟨fun _ => hok, fun _ => rfl⟩
  · rename_i hok
    exact ⟨fun hsome => absurd hsome (by simp), fun hc => absurd hc hok⟩

/-- A key that has been added was added by one of the insertions. -/
theorem exists_addsAt {env : RestoreEnv} {entries : List KvMessage} {s : Store H} {key : HashKey}
    (habsent : s.get key = none) {n : ℕ} (h : (storeAfter env entries s n).get key ≠ none) :
    ∃ i < n, ∃ entry, entries[i]? = some entry ∧ entry.key = key ∧ addsAt env entries s i = true := by
  induction n with
  | zero => exact absurd habsent h
  | succ n ih =>
      by_cases hbefore : (storeAfter env entries s n).get key = none
      · cases hn : entries[n]? with
        | none =>
            rw [storeAfter, hn] at h
            exact absurd hbefore h
        | some entry =>
            have hkey : entry.key = key := by
              rw [storeAfter_succ hn, get_insertCall] at h
              split at h
              · rename_i hadds
                exact hadds.1.symm
              · exact absurd hbefore h
            refine ⟨n, Nat.lt_succ_self n, entry, hn, hkey, ?_⟩
            rw [addsAt, hn]
            dsimp only
            rw [hkey, hbefore, Option.isSome_iff_ne_none.2 h]
            rfl
      · obtain ⟨i, hi, hadds⟩ := ih hbefore
        exact ⟨i, Nat.lt_succ_of_lt hi, hadds⟩

/-! ### Arbitrary files -/

/-- The number of entries in the header of a file. -/
def headerCount (bytes : List UInt8) : ℕ := (decodeHeader bytes).count.toNat

/-- The `i`-th entry as it stands in the file. -/
def recordAt (bytes : List UInt8) (i : ℕ) : KvMessage :=
  KvMessage.decode ((bytes.drop (16 + 80 * i)).take 80)

theorem length_readEntries (env : RestoreEnv) (bytes : List UInt8) :
    (readEntries env bytes).length = headerCount bytes := by
  simp only [readEntries, readMessages, List.length_map, length_records, headerCount]

/-- A record that lies completely in the file is read from it. -/
theorem getElem?_readEntries (env : RestoreEnv) {bytes : List UInt8} {i : ℕ}
    (hi : i < headerCount bytes) (hin : 16 + 80 * (i + 1) ≤ bytes.length) :
    (readEntries env bytes)[i]? = some (recordAt bytes i) := by
  have hlen : ¬ bytes.length < 16 := by omega
  rw [headerCount] at hi
  have hcount : 80 * (i + 1) ≤ 80 * (decodeHeader bytes).count.toNat := Nat.mul_le_mul_left 80 hi
  simp only [readEntries, if_neg hlen, readMessages, List.getElem?_map]
  rw [getElem?_records hi, Option.map_some, recordAt]
  congr 2
  rw [List.drop_append_of_le_length, List.take_append_of_le_length, List.drop_take, List.drop_drop,
    List.take_take, Nat.min_eq_left]
  · omega
  · rw [List.length_drop, List.length_take, List.length_drop]
    omega
  · rw [List.length_take, List.length_drop]
    omega

/-- Every key that a restore adds comes, with its value, from a record among those that the header
counts, which lies completely in the file; whatever is in the fresh memory, whatever is in the store,
and whichever insertions fail. -/
def AddsRecords (H : HashFn) (bytes : List UInt8) : Prop :=
  ∀ (env : RestoreEnv) (s : Store H) (key : HashKey) (v : CStr), s.get key = none →
    ((doKvRestoreFromFile env).run (sysExec ()) ⟨s, some bytes⟩).2.store.get key = some v →
    ∃ i < headerCount bytes, 16 + 80 * (i + 1) ≤ bytes.length ∧
      addsAt env (readEntries env bytes) s i = true ∧
      (recordAt bytes i).key = key ∧ cstr (recordAt bytes i).value.1 = v

/-- The record lies completely in the file, and its value is terminated. -/
def WholeRecord (bytes : List UInt8) (i : ℕ) : Prop :=
  16 + 80 * (i + 1) ≤ bytes.length ∧ 0 ∈ (recordAt bytes i).value.1

/-- Where all records are whole, a restore adds nothing else. -/
theorem addsRecords_of_whole {bytes : List UInt8}
    (h : ∀ i < headerCount bytes, WholeRecord bytes i) : AddsRecords H bytes := by
  intro env s key v habsent hv
  rw [store_doKvRestoreFromFile, length_readEntries] at hv
  -- the record that has added the key leaves a short value, which later insertions respect
  have hkeep : ∀ n ≤ headerCount bytes, ∀ v,
      (storeAfter env (readEntries env bytes) s n).get key = some v →
      ∃ i < n, addsAt env (readEntries env bytes) s i = true ∧ (recordAt bytes i).key = key ∧
        cstr (recordAt bytes i).value.1 = v := by
    intro n
    induction n with
    | zero =>
        intro _ v hv
        rw [storeAfter, habsent] at hv
        cases hv
    | succ n ih =>
        intro hn v hv
        have hread := getElem?_readEntries env hn (h n hn).1
        have hcstr := cstr_append (h n hn).2 (env.insert n).1.stack
        cases hbefore : (storeAfter env (readEntries env bytes) s n).get key with
        | none =>
            have hadds : (recordAt bytes n).key = key ∧ cstr (recordAt bytes n).value.1 = v := by
              rw [storeAfter_succ hread, get_insertCall] at hv
              split at hv
              · rename_i hcond
                rw [← hcstr]
                exact ⟨hcond.1.symm, Option.some.inj hv⟩
              · rw [hbefore] at hv
                cases hv
            refine ⟨n, Nat.lt_succ_self n, ?_, hadds⟩
            rw [addsAt, hread]
            dsimp only
            rw [hadds.1, hbefore, hv]
            rfl
        | some v' =>
            obtain ⟨i, hi, hadds, hkey, hvalue⟩ := ih (by omega) v' hbefore
            have hshort : v'.1.length < MAX_VALUE_LEN := by
              rw [← hvalue]
              exact lt_of_lt_of_eq (length_cstr_lt (h i (by omega)).2) (recordAt bytes i).value.2
            have hsame : v' = v := by
              rw [storeAfter_succ hread, get_insertCall, if_neg, hbefore] at hv
              · exact Option.some.inj hv
              · rintro ⟨rfl, -, hfound, -⟩
                rw [Store.found, hbefore] at hfound
                exact absurd hshort (of_decide_eq_false hfound)
            exact ⟨i, by omega, hadds, hkey, hsame ▸ hvalue⟩
  obtain ⟨i, hi, hadds, hkey, hvalue⟩ := hkeep _ le_rfl v hv
  exact ⟨i, hi, (h i hi).1, hadds, hkey, hvalue⟩

/-- Only the `i`-th insertion finds memory, and a byte that is not zero lies behind its message. -/
def RestoreEnv.only (i : ℕ) : RestoreEnv where
  heap := fun _ => 0
  insert := fun j =>
    ({ KernelEnv.ok with stack := [1, 0] }, if j = i then .ok else ⟨false, false⟩)

theorem addsAt_only {i j : ℕ} {entries : List KvMessage} {s : Store H}
    (h : addsAt (.only i) entries s j = true) : j = i := by
  by_contra hne
  cases hj : entries[j]? with
  | none =>
      rw [addsAt, hj] at h
      cases h
  | some entry =>
      have hok := ((addsAt_iff hj s).1 h).2.2
      rw [RestoreEnv.only] at hok
      dsimp only at hok
      rw [if_neg hne] at hok
      cases hok

/-- After the `i`-th insertion nothing is stored any more. -/
theorem get_storeAfter_only {i n : ℕ} (hn : i + 1 ≤ n) (entries : List KvMessage) (s : Store H)
    (key : HashKey) :
    (storeAfter (.only i) entries s n).get key = (storeAfter (.only i) entries s (i + 1)).get key := by
  induction n, hn using Nat.le_induction with
  | base => rfl
  | succ n hn ih =>
      have hne : n ≠ i := by omega
      rw [← ih]
      cases hentry : entries[n]? with
      | none => rw [storeAfter, hentry]
      | some entry =>
          rw [storeAfter_succ hentry, get_insertCall, if_neg]
          rintro ⟨-, -, -, hadmits⟩
          rw [RestoreEnv.only] at hadmits
          dsimp only at hadmits
          rw [if_neg hne] at hadmits
          cases hadmits

/-- The string in an unterminated field goes on into the bytes behind it. -/
theorem cstr_append_one_zero {mem : List UInt8} (h : 0 ∉ mem) :
    (cstr (mem ++ [1, 0])).1 = mem ++ [1] := by
  have hnul : (0 : UInt8) ∉ mem ++ [1] := by simp [h]
  have hread := cstr_val_append ⟨mem ++ [1], hnul⟩ []
  rw [List.append_assoc] at hread
  exact congrArg Subtype.val hread

/-- **The files from which nothing is made up.**  A restore adds nothing but records of the file,
whatever is in the fresh memory and in the store and whichever insertions fail, exactly when each of
the records that the header counts lies completely in the file and has a terminated value. -/
theorem addsRecords_iff (H : HashFn) (bytes : List UInt8) :
    AddsRecords H bytes ↔ ∀ i < headerCount bytes, WholeRecord bytes i := by
  refine ⟨fun h i hi => ?_, addsRecords_of_whole⟩
  have hlt : i < (readEntries (.only i) bytes).length := by
    rwa [length_readEntries]
  obtain ⟨entry, hentry⟩ : ∃ entry, (readEntries (.only i) bytes)[i]? = some entry :=
    ⟨_, List.getElem?_eq_getElem hlt⟩
  -- into the empty store, with memory for this insertion only
  have hbefore : (storeAfter (.only i) (readEntries (.only i) bytes) (Store.init H) i).get entry.key =
      none := by
    by_contra hsome
    obtain ⟨j, hj, -, -, -, hadds⟩ := exists_addsAt (Store.get_init entry.key) hsome
    exact absurd (addsAt_only hadds) hj.ne
  have hfound : (storeAfter (.only i) (readEntries (.only i) bytes) (Store.init H) i).found
      entry.key = false := by
    rw [Store.found, hbefore]
  have hstored : ((doKvRestoreFromFile (.only i)).run (sysExec ())
      ⟨Store.init H, some bytes⟩).2.store.get entry.key =
      some (cstr (entry.value.1 ++ [1, 0])) := by
    rw [store_doKvRestoreFromFile, get_storeAfter_only hlt, storeAfter_succ hentry, get_insertCall,
      if_pos]
    · rfl
    · refine ⟨rfl, rfl, hfound, ?_⟩
      rw [RestoreEnv.only]
      dsimp only
      rw [if_pos rfl, Alloc.admits_ok]
  obtain ⟨j, hj, hin, hadds, -, hvalue⟩ := h (.only i) (Store.init H) _ _ (Store.get_init _) hstored
  obtain rfl : j = i := addsAt_only hadds
  refine ⟨hin, ?_⟩
  by_contra hnul
  rw [getElem?_readEntries _ hj hin] at hentry
  obtain rfl := Option.some.inj hentry
  have hlen := congrArg List.length (congrArg Subtype.val hvalue)
  rw [val_cstr_of_notMem hnul, cstr_append_one_zero hnul, List.length_append,
    List.length_singleton] at hlen
  omega

/-- A file that says it has one entry, and ends there. -/
def headerOnly : List UInt8 := (KvSnapshotMessage.mk 0 1 1 0 []).encode

/-- From this file key 0 is restored, which is not in it. -/
theorem restore_headerOnly :
    headerOnly.length = 16 ∧ (restore HashFn.module .ok (some headerOnly)).get 0 = some (cstr []) ∧
      ¬ AddsRecords HashFn.module headerOnly := by
  refine ⟨by decide, by decide +kernel, ?_⟩
  intro h
  have hget : (restore HashFn.module .ok (some headerOnly)).get 0 = some (cstr []) := by
    decide +kernel
  obtain ⟨i, -, hin, -⟩ := h .ok (Store.init HashFn.module) 0 (cstr []) (Store.get_init 0) hget
  have hlen : headerOnly.length = 16 := by decide
  omega

/-! ### Merging -/

/-- The restore of an image over a store leaves the keys of the store as they are and adds the others
from their first entries; a second restore leaves everything as it is. -/
def Merges (env env' : RestoreEnv) (s : Store H) (m : KvSnapshotMessage) : Prop :=
  let first := ((doKvRestoreFromFile env).run (sysExec ()) ⟨s, some m.encode⟩).2
  (∀ key, first.store.get key = (s.get key).or (shown m key)) ∧
    ((doKvRestoreFromFile env').run (sysExec ()) first).2 = first

/-- What a restore of an image over a store leaves under a key. -/
theorem get_doKvRestoreFromFile_encode {env : RestoreEnv} (henv : env.Inserts)
    {m : KvSnapshotMessage} (hm : WholeImage m) (s : Store H) (key : HashKey) :
    ((doKvRestoreFromFile env).run (sysExec ()) ⟨s, some m.encode⟩).2.store.get key =
      if s.found key then s.get key else (shown m key).or (s.get key) := by
  have hread := readEntries_encode env hm.count_eq
  rw [store_doKvRestoreFromFile, hread, get_storeAfter henv hm.terminated, List.take_length]
  rfl

/-- An entry of the image is shown under its key. -/
theorem shown_ne_none {m : KvSnapshotMessage} {e : KvMessage} (he : e ∈ m.entries) :
    shown m e.key ≠ none := by
  rw [shown, Ne, List.dlookup_eq_none, not_not, List.keys, List.map_map]
  exact List.mem_map_of_mem (f := Sigma.fst ∘ entryOf) he

/-- Entries whose keys are found are not inserted. -/
theorem storeAfter_of_found (env : RestoreEnv) {entries : List KvMessage} {s : Store H}
    (h : ∀ e ∈ entries, s.found e.key = true) (n : ℕ) : storeAfter env entries s n = s := by
  induction n with
  | zero => rfl
  | succ n ih =>
      cases hn : entries[n]? with
      | none => rw [storeAfter, hn, ih]
      | some entry =>
          have hfound := h entry (List.mem_of_getElem? hn)
          rw [storeAfter_succ hn, ih, RestoreEnv.insertCall, ioctl_snd]
          simp only [dispatch, run_handleInsert, hfound, if_true, ite_self]

theorem exists_entry_of_shown {m : KvSnapshotMessage} {key : HashKey} (h : shown m key ≠ none) :
    ∃ e ∈ m.entries, e.key = key := by
  obtain ⟨v, hv⟩ := Option.ne_none_iff_exists'.1 h
  obtain ⟨e, he, hkey, -⟩ := mem_map_entryOf_iff.1 (List.of_mem_dlookup hv)
  exact ⟨e, he, hkey⟩

/-- A second restore changes nothing, whatever it meets: all keys are found. -/
theorem second_restore (env' : RestoreEnv) {env : RestoreEnv} (henv : env.Inserts)
    {m : KvSnapshotMessage} (hm : WholeImage m) (s : Store H) :
    let first := ((doKvRestoreFromFile env).run (sysExec ()) ⟨s, some m.encode⟩).2
    ((doKvRestoreFromFile env').run (sysExec ()) first).2 = first := by
  intro first
  have hfile : first.file = some m.encode := file_doKvRestoreFromFile env _
  have hfound : ∀ e ∈ m.entries, first.store.found e.key = true := by
    intro e he
    have hget : first.store.get e.key = _ := get_doKvRestoreFromFile_encode henv hm s e.key
    split at hget
    · rename_i hs
      rw [found_congr hget, hs]
    · obtain ⟨v, hv⟩ := Option.ne_none_iff_exists'.1 (shown_ne_none he)
      rw [hv, Option.some_or] at hget
      rw [Store.found, hget]
      exact decide_eq_true (length_lt_of_dlookup hm.terminated hv)
  -- from here on it does not matter how the first restore has come about
  clear_value first
  have hfirst : first = ⟨first.store, some m.encode⟩ := by
    rw [← hfile]
  have hstore : ((doKvRestoreFromFile env').run (sysExec ()) first).2.store = first.store := by
    rw [hfirst, store_doKvRestoreFromFile, readEntries_encode env' hm.count_eq]
    exact storeAfter_of_found env' hfound _
  have hfile' := file_doKvRestoreFromFile env' first
  generalize ((doKvRestoreFromFile env').run (sysExec ()) first).2 = second at hstore hfile'
  obtain ⟨store, file⟩ := second
  rw [hfirst, World.mk.injEq]
  exact ⟨hstore, hfile'.trans hfile⟩

/-- **When a restore is a merge.**  Let no insertion fail.  The restore of a whole image over a store
keeps what is there and adds the rest, and a second restore changes nothing, exactly when the keys of
the image are not in the store under values too long for a message. -/
theorem merges_iff {env env' : RestoreEnv} (henv : env.Inserts) {m : KvSnapshotMessage}
    (hm : WholeImage m) (s : Store H) :
    Merges env env' s m ↔
      ∀ e ∈ m.entries, ∀ v, s.get e.key = some v → v.1.length < MAX_VALUE_LEN := by
  have hget := get_doKvRestoreFromFile_encode henv hm s
  have hshort : ∀ {key v}, shown m key = some v → v.1.length < MAX_VALUE_LEN := fun h =>
    length_lt_of_dlookup hm.terminated h
  constructor
  · rintro ⟨hmerge, -⟩ e he v hv
    by_contra hlong
    -- the value is not found, so that the first entry takes its place
    have hfound : s.found e.key = false := by
      rw [Store.found, hv]
      exact decide_eq_false hlong
    obtain ⟨v', hv'⟩ := Option.ne_none_iff_exists'.1 (shown_ne_none he)
    have heq := (hmerge e.key).symm.trans (hget e.key)
    rw [hfound, hv, hv'] at heq
    obtain rfl : v = v' := Option.some.inj heq
    exact hlong (hshort hv')
  · intro h
    refine ⟨?_, second_restore env' henv hm s⟩
    intro key
    rw [hget]
    cases hs : s.get key with
    | none =>
        have hfound : s.found key = false := by
          rw [Store.found, hs]
        rw [hfound, Option.or_none, Option.none_or]
        rfl
    | some v =>
        rw [Option.some_or]
        split
        · rfl
        · rename_i hfound
          have hnone : shown m key = none := by
            by_contra hsome
            obtain ⟨e, he, rfl⟩ := exists_entry_of_shown hsome
            rw [Store.found, hs] at hfound
            exact hfound (decide_eq_true (h e he v hs))
          rw [hnone, Option.none_or]

/-- A file with an entry for key 7, and two for key 8. -/
def duplicates : KvSnapshotMessage where
  status := 0
  capacity := 3
  count := 3
  pad := 0
  entries := [{ KvMessage.zero with key := 7 }, { KvMessage.zero with key := 8 },
    { KvMessage.zero with key := 8, value := memcpy (zeros MAX_VALUE_LEN) (ascii "b") }]

theorem wholeImage_duplicates : WholeImage duplicates := ⟨by decide, by decide⟩

/-- The file is merged into a store that holds key 7. -/
theorem merges_duplicates : WholeImage duplicates ∧ Merges .ok .ok storeA7 duplicates := by
  have hshort : ∀ e ∈ storeA7.1.entries, e.2.1.length < MAX_VALUE_LEN := by decide +kernel
  refine ⟨wholeImage_duplicates, (merges_iff succeeds_ok.inserts wholeImage_duplicates storeA7).2 ?_⟩
  intro e _ v hv
  exact hshort ⟨e.key, v⟩ (storeA7.2.mem_entries.2 hv)

/-- The store after 64 letters have been inserted under key 7 without a terminator. -/
def overlongStore : Store HashFn.module := (ioctl unterminatedCall (Store.init HashFn.module)).2

/-- A restore overwrites these letters. -/
theorem not_merges_overlongStore :
    (overlongStore.get 7).map (·.1.length) = some 64 ∧ WholeImage (imageOf .ok storeA7) ∧
      ¬ Merges .ok .ok overlongStore (imageOf .ok storeA7) := by
  have hlen : (overlongStore.get 7).map (·.1.length) = some 64 := by decide +kernel
  refine ⟨hlen, wholeImage_imageOf .ok storeA7, ?_⟩
  rintro ⟨hmerge, -⟩
  have hget : (((doKvRestoreFromFile .ok).run (sysExec ())
      ⟨overlongStore, some (imageOf .ok storeA7).encode⟩).2.store.get 7).map (·.1.length) = some 1 := by
    decide +kernel
  obtain ⟨v, hv, -⟩ := Option.map_eq_some_iff.1 hlen
  rw [hmerge 7, hv, Option.some_or, ← hv, hlen] at hget
  cases hget

/-! ### Counting -/

/-- The restore of an image reports two numbers.  They add up to the number of entries, and the first
is the number of insertions that have added a key. -/
def Truthful (env : RestoreEnv) (s : Store H) (m : KvSnapshotMessage) : Prop :=
  ∃ restored skipped : UInt32,
    ((doKvRestoreFromFile env).run (sysExec ()) ⟨s, some m.encode⟩).1 = some (restored, skipped) ∧
    restored.toNat + skipped.toNat = m.count.toNat ∧
    restored.toNat = (List.range m.entries.length).countP (addsAt env m.entries s)

/-- Every insertion adds a key when the keys are all different and absent, and memory is always
found. -/
theorem all_addsAt_iff {env : RestoreEnv} (henv : env.Copies) (entries : List KvMessage)
    (s : Store H) :
    (∀ i < entries.length, addsAt env entries s i = true) ↔
      (entries.map KvMessage.key).Nodup ∧
        ∀ i entry, entries[i]? = some entry → s.get entry.key = none ∧ (env.insert i).2 = .ok := by
  have hlt : ∀ {i entry}, entries[i]? = some entry → i < entries.length := fun h =>
    (List.getElem?_eq_some_iff.1 h).1
  constructor
  · intro hall
    refine ⟨?_, ?_⟩
    · -- a key that has been added is there when its next entry comes
      rw [List.nodup_iff_getElem?_ne_getElem?]
      intro i j hij hj heq
      rw [List.length_map] at hj
      obtain ⟨e, he⟩ : ∃ e, entries[i]? = some e := ⟨_, List.getElem?_eq_getElem (hij.trans hj)⟩
      obtain ⟨e', he'⟩ : ∃ e', entries[j]? = some e' := ⟨_, List.getElem?_eq_getElem hj⟩
      rw [List.getElem?_map, List.getElem?_map, he, he', Option.map_some, Option.map_some,
        Option.some.injEq] at heq
      have hadds := hall i (hlt he)
      rw [addsAt, he] at hadds
      dsimp only at hadds
      rw [Bool.and_eq_true, Option.isSome_iff_ne_none, heq] at hadds
      exact get_storeAfter_ne_none hij hadds.2 ((addsAt_iff he' s).1 (hall j hj)).1
    · intro i entry hentry
      obtain ⟨hnone, -, hok⟩ := (addsAt_iff hentry s).1 (hall i (hlt hentry))
      refine ⟨?_, hok⟩
      by_contra hsome
      exact get_storeAfter_ne_none (Nat.zero_le i) hsome hnone
  · rintro ⟨hnodup, habsent⟩ i hi
    obtain ⟨entry, hentry⟩ : ∃ entry, entries[i]? = some entry := ⟨_, List.getElem?_eq_getElem hi⟩
    obtain ⟨hnone, hok⟩ := habsent i entry hentry
    refine (addsAt_iff hentry s).2 ⟨?_, (henv i).1, hok⟩
    by_contra hsome
    obtain ⟨j, hj, e, he, hkey, -⟩ := exists_addsAt hnone hsome
    rw [List.nodup_iff_getElem?_ne_getElem?] at hnodup
    refine hnodup j i hj (by rwa [List.length_map]) ?_
    rw [List.getElem?_map, List.getElem?_map, he, hentry, Option.map_some, Option.map_some, hkey]

/-- No insertion adds a key when each key is in the store or no memory is found for it. -/
theorem no_addsAt_iff {env : RestoreEnv} (henv : env.Copies) (entries : List KvMessage)
    (s : Store H) :
    (∀ i < entries.length, ¬ addsAt env entries s i = true) ↔
      ∀ i entry, entries[i]? = some entry → s.get entry.key ≠ none ∨ (env.insert i).2 ≠ .ok := by
  constructor
  · intro hno i entry hentry
    by_contra hc
    rw [not_or, not_not, not_not] at hc
    have hi := (List.getElem?_eq_some_iff.1 hentry).1
    refine hno i hi ((addsAt_iff hentry s).2 ⟨?_, (henv i).1, hc.2⟩)
    by_contra hsome
    obtain ⟨j, hj, -, -, -, hadds⟩ := exists_addsAt hc.1 hsome
    exact hno j (hj.trans hi) hadds
  · intro h i hi hadds
    obtain ⟨entry, hentry⟩ : ∃ entry, entries[i]? = some entry := ⟨_, List.getElem?_eq_getElem hi⟩
    obtain ⟨hnone, -, hok⟩ := (addsAt_iff hentry s).1 hadds
    rcases h i entry hentry with hsome | hmem
    · exact get_storeAfter_ne_none (Nat.zero_le i) hsome hnone
    · exact hmem hok

/-- **When the counters are right.**  Let the messages be copied to the module and back, and let any
allocations fail.  The numbers that the restore of a whole image reports add up, and tell how many keys
were added, exactly in two cases.  Either the status in the header is 0, the keys of the image are all
different and none of them is in the store, and memory is found for all of them; or the status is not
0, and each key is in the store already or no memory is found for it. -/
theorem truthful_iff {env : RestoreEnv} (henv : env.Copies) {m : KvSnapshotMessage}
    (hm : WholeImage m) (s : Store H) :
    Truthful env s m ↔
      (m.status = 0 ∧ (m.entries.map KvMessage.key).Nodup ∧
        ∀ i entry, m.entries[i]? = some entry → s.get entry.key = none ∧ (env.insert i).2 = .ok) ∨
      (m.status ≠ 0 ∧
        ∀ i entry, m.entries[i]? = some entry → s.get entry.key ≠ none ∨ (env.insert i).2 ≠ .ok) := by
  have hlen : (UInt32.ofNat m.entries.length).toNat = m.entries.length := by
    rw [← hm.count_eq, UInt32.ofNat_toNat]
  have hcounters : ((doKvRestoreFromFile env).run (sysExec ()) (⟨s, some m.encode⟩ : World H)).1 =
      some (if m.status = 0 then (UInt32.ofNat m.entries.length, 0)
        else (0, UInt32.ofNat m.entries.length)) := by
    rw [counters_doKvRestoreFromFile, Option.map_some, readEntries_encode env hm.count_eq,
      decodeHeader_encode, counters_restoreLoop henv, UInt32.zero_add]
  have hrange : ∀ {p : ℕ → Prop}, (∀ i ∈ List.range m.entries.length, p i) ↔
      ∀ i < m.entries.length, p i := by
    simp only [List.mem_range, implies_true]
  rw [Truthful, hcounters]
  by_cases hstatus : m.status = 0
  · rw [if_pos hstatus, ← all_addsAt_iff henv]
    simp only [hstatus, ne_eq, not_true, false_and, or_false, true_and]
    rw [← hrange, ← List.countP_eq_length, List.length_range]
    constructor
    · rintro ⟨restored, skipped, heq, -, hcount⟩
      obtain ⟨rfl, -⟩ := Prod.mk.inj (Option.some.inj heq)
      rw [← hcount, hlen]
    · intro hcount
      refine ⟨_, _, rfl, ?_, ?_⟩
      · rw [hlen, hm.count_eq]
        rfl
      · rw [hlen, hcount]
  · rw [if_neg hstatus, ← no_addsAt_iff henv]
    simp only [hstatus, ne_eq, not_false_iff, false_and, false_or, true_and]
    rw [← hrange, ← List.countP_eq_zero]
    constructor
    · rintro ⟨restored, skipped, heq, -, hcount⟩
      obtain ⟨rfl, -⟩ := Prod.mk.inj (Option.some.inj heq)
      exact hcount.symm
    · intro hcount
      refine ⟨_, _, rfl, ?_, ?_⟩
      · rw [hlen, hm.count_eq]
        exact Nat.zero_add _
      · rw [hcount]
        rfl

/-- Into an empty store every entry is restored. -/
theorem truthful_init :
    WholeImage (imageOf .ok storeA7) ∧ Truthful .ok (Store.init HashFn.module) (imageOf .ok storeA7) := by
  have hwhole := wholeImage_imageOf .ok storeA7
  refine ⟨hwhole, (truthful_iff succeeds_ok.copies hwhole _).2 (.inl ⟨rfl, by decide +kernel, ?_⟩)⟩
  intro i entry _
  exact ⟨Store.get_init entry.key, rfl⟩

/-- Key 7 is there already.  The entry is reported as restored, and it is not. -/
theorem not_truthful_storeA7 :
    ((doKvRestoreFromFile .ok).run (sysExec ())
        (⟨storeA7, some (imageOf .ok storeA7).encode⟩ : World HashFn.module)).1 = some (1, 0) ∧
      ¬ Truthful .ok storeA7 (imageOf .ok storeA7) := by
  have hcounters : ((doKvRestoreFromFile .ok).run (sysExec ())
      (⟨storeA7, some (imageOf .ok storeA7).encode⟩ : World HashFn.module)).1 = some (1, 0) := by
    decide +kernel
  have hadded : (List.range (imageOf .ok storeA7).entries.length).countP
      (addsAt .ok (imageOf .ok storeA7).entries storeA7) = 0 := by
    decide +kernel
  refine ⟨hcounters, ?_⟩
  rintro ⟨restored, skipped, heq, -, hcount⟩
  rw [hcounters] at heq
  obtain ⟨rfl, -⟩ := Prod.mk.inj (Option.some.inj heq)
  rw [hadded] at hcount
  cases hcount

end Daemon
