/-
**A daemon that stops while it writes the snapshot file.**

`do_kv_snapshot_to_file` opens the file for writing, which empties it, and then writes the new image
into it; there is no second file and no renaming.  When the daemon stops in between, the file holds
the first bytes of the new image and nothing else, and the next restore has to make do with that.

Main definitions:

* `Daemon.stopAfter` — the store and the file when a task is stopped after some of its system calls,
  the last of which may have been carried out in part;
* `Daemon.essentialBytes` — the bytes of an image up to the terminator of its last value.

Main results:

* `Daemon.file_stopAfter_of_writes` — what is in the file at each of these points;
* `Daemon.restore_take_encode` — **the tail of an image does not matter**: without it the file is
  restored as the whole image would be;
* `Daemon.restore_take_of_le` — no more than eight bytes of an image are restored to nothing;
* `Daemon.restore_stoppedFile` — the previous store before the file is opened, the new one once the
  essential bytes are written, and neither at the start of the write.
-/

import KvStore.DaemonSaveLoad

set_option relaxedAutoImplicit false
set_option autoImplicit false

namespace Daemon

open CMem ByteRecord Interleave KvHash KvIoctl

variable {H : HashFn}

/-! ### Stopping -/

/-- The store and the file when a task is stopped after `i` system calls; if the next one is a write,
`k` of its bytes have reached the file. -/
def stopAfter {α : Type} : Task α → World H → ℕ → ℕ → World H
  | .ret _, w, _, _ => w
  | .call (.write bytes) _, w, 0, k => (sysExec () (.write (bytes.take k)) w).2
  | .call _ _, w, 0, _ => w
  | .call op c, w, i + 1, k => stopAfter (c (sysExec () op w).1) (sysExec () op w).2 i k

theorem stopAfter_succ {α : Type} (p : Task α) (w : World H) (i k : ℕ) :
    stopAfter p w (i + 1) k =
      stopAfter (p.step (sysExec ()) w).1 (p.step (sysExec ()) w).2 i k := by
  cases p with
  | ret a => simp only [stopAfter, Prog.step_ret]
  | call op c => simp only [stopAfter, Prog.step_call]

theorem stopAfter_ret {α : Type} (a : α) (w : World H) (i k : ℕ) :
    stopAfter (.ret a : Task α) w i k = w := by
  cases i <;> rfl

/-- The call gets as far as writing the file. -/
def SnapshotEnv.Writes (env : SnapshotEnv) (s : Store H) : Prop :=
  env.counts (entryCount s) = true ∧ env.saves (entryCount s) (entryCount s) = true

/-- The file is opened by the third system call and written by the fourth. -/
theorem file_stopAfter_of_writes {env : SnapshotEnv} {w : World H} (h : env.Writes w.store)
    (i k : ℕ) :
    (stopAfter (doKvSnapshotToFile env) w i k).file =
      if i ≤ 2 then w.file
      else if i = 3 then some ((imageOf env.snapshot w.store).encode.take k)
      else some (imageOf env.snapshot w.store).encode := by
  have hcount : (doKvSnapshotToFile env).step (sysExec ()) w =
      (saveSnapshot env (UInt32.ofNat (entryCount w.store)), w) := by
    rw [step_doKvSnapshotToFile, if_pos h.1]
  have hsave : (saveSnapshot env (UInt32.ofNat (entryCount w.store))).step (sysExec ()) w =
      (writeFile (imageOf env.snapshot w.store).encode, w) := by
    rw [step_saveSnapshot_of_counts h.1, if_pos h.2, written, if_pos rfl]
  rcases i with _ | _ | _ | _ | i
  · rfl
  · rw [stopAfter_succ, hcount]
    rfl
  · rw [stopAfter_succ, hcount, stopAfter_succ, hsave]
    rfl
  · rw [stopAfter_succ, hcount, stopAfter_succ, hsave, stopAfter_succ]
    simp [writeFile, stopAfter, sysExec]
  · rw [stopAfter_succ, hcount, stopAfter_succ, hsave, stopAfter_succ, stopAfter_succ,
      if_neg (by omega), if_neg (by omega)]
    simp [writeFile, stopAfter, sysExec]

/-- A call that gives up leaves the file as it is. -/
theorem file_stopAfter_of_not_writes {env : SnapshotEnv} {w : World H} (h : ¬ env.Writes w.store)
    (i k : ℕ) : (stopAfter (doKvSnapshotToFile env) w i k).file = w.file := by
  match i with
  | 0 => rfl
  | i + 1 =>
      rw [stopAfter_succ, step_doKvSnapshotToFile]
      cases hcounts : env.counts (entryCount w.store) with
      | false =>
          rw [if_neg (by decide)]
          exact congrArg World.file (stopAfter_ret ..)
      | true =>
          rw [if_pos rfl]
          match i with
          | 0 => rfl
          | i + 1 =>
              rw [stopAfter_succ, step_saveSnapshot_of_counts hcounts,
                if_neg fun hsaves => h ⟨hcounts, hsaves⟩]
              exact congrArg World.file (stopAfter_ret ..)

/-! ### Torn messages -/

theorem key_decode_congr {bs bs' : List UInt8} (h : bs.take 16 = bs'.take 16) :
    (KvMessage.decode bs).key = (KvMessage.decode bs').key := by
  have hkey : ∀ cs : List UInt8, (cs.drop 8).take 8 = (cs.take 16).drop 8 := by
    intro cs
    rw [List.drop_take]
  simp only [KvMessage.decode, hkey, h]

theorem value_decode {bs : List UInt8} (h : bs.length = 80) :
    (KvMessage.decode bs).value.1 = bs.drop 16 := by
  have hlen : (bs.drop 16).length = MAX_VALUE_LEN := by
    rw [List.length_drop, h]
  exact congrArg Subtype.val (memcpy_val (zeros MAX_VALUE_LEN) ⟨bs.drop 16, hlen⟩)

theorem drop_encode_message (m : KvMessage) : m.encode.drop 16 = m.value.1 := by
  rw [← value_decode m.length_encode, m.decode_encode]

/-- The bytes of a message after the terminator of its value do not matter. -/
theorem entryOf_decode_of_take {m : KvMessage} (hnul : 0 ∈ m.value.1) {bs : List UInt8}
    (hlen : bs.length = 80)
    (h : bs.take (17 + (cstr m.value.1).1.length) =
      m.encode.take (17 + (cstr m.value.1).1.length)) :
    entryOf (KvMessage.decode bs) = entryOf m ∧ 0 ∈ (KvMessage.decode bs).value.1 := by
  have h16 : bs.take 16 = m.encode.take 16 := by
    have htake := congrArg (List.take 16) h
    rwa [List.take_take, List.take_take, Nat.min_eq_left (by omega)] at htake
  have hkey : (KvMessage.decode bs).key = m.key := by
    rw [key_decode_congr h16, m.decode_encode]
  -- the value field starts with the string and its terminator
  have hvalue : (KvMessage.decode bs).value.1 =
      (cstr m.value.1).1 ++ 0 :: bs.drop (17 + (cstr m.value.1).1.length) := by
    have hstr : (m.encode.take (17 + (cstr m.value.1).1.length)).drop 16 =
        (cstr m.value.1).1 ++ [0] := by
      have hshift : 17 + (cstr m.value.1).1.length - 16 = (cstr m.value.1).1.length + 1 := by omega
      rw [List.drop_take, drop_encode_message, hshift, take_cstr_succ hnul]
    have hsplit := congrArg (List.drop 16)
      (List.take_append_drop (17 + (cstr m.value.1).1.length) bs).symm
    rw [List.drop_append_of_le_length (by rw [List.length_take]; omega), h, hstr] at hsplit
    rw [value_decode hlen, hsplit, List.append_assoc, List.singleton_append]
  constructor
  · rw [entryOf, entryOf, hkey, hvalue, cstr_val_append]
  · rw [hvalue]
    simp

/-! ### Torn images -/

/-- The number of bytes of an image up to the terminator of its last value. -/
def essentialBytes (m : KvSnapshotMessage) : ℕ :=
  match m.entries.getLast? with
  | none => 16
  | some last => 16 + 80 * (m.entries.length - 1) + (17 + (cstr last.value.1).1.length)

theorem memcpy_zeros_of_le {bs : List UInt8} (h : 16 ≤ bs.length) :
    (memcpy (zeros 16) bs).1 = bs.take 16 := by
  have hdrop : (zeros 16).1.drop bs.length = [] :=
    List.drop_of_length_le (by rw [(zeros 16).2]; exact h)
  rw [val_memcpy, hdrop, List.append_nil]

/-- The header is read from the first 16 bytes. -/
theorem decodeHeader_take {m : KvSnapshotMessage} {k : ℕ} (hk : 16 ≤ k) :
    decodeHeader (m.encode.take k) = { m with entries := [] } := by
  have hlen : 16 ≤ m.encode.length := by
    rw [m.length_encode]
    omega
  have hlen' : 16 ≤ (m.encode.take k).length := by
    rw [List.length_take]
    omega
  rw [← decodeHeader_encode m]
  simp only [decodeHeader, memcpy_zeros_of_le hlen, memcpy_zeros_of_le hlen', List.take_take,
    Nat.min_eq_left hk]

/-- Messages written one after the other are read back, and then one more. -/
theorem readMessages_concat (ms : List KvMessage) {bs : List UInt8} (h : bs.length = 80) :
    readMessages (ms.length + 1) (ms.flatMap KvMessage.encode ++ bs) =
      ms ++ [KvMessage.decode bs] := by
  induction ms with
  | nil =>
      rw [readMessages, List.flatMap_nil, List.nil_append, List.length_nil, records, records,
        List.take_of_length_le h.le]
      rfl
  | cons m ms ih =>
      have hrest : readMessages (ms.length + 1 + 1)
          (m.encode ++ (ms.flatMap KvMessage.encode ++ bs)) =
          m :: readMessages (ms.length + 1) (ms.flatMap KvMessage.encode ++ bs) := by
        rw [readMessages, records, List.map_cons, List.take_left' m.length_encode,
          List.drop_left' m.length_encode, m.decode_encode]
        rfl
      rw [List.flatMap_cons, List.append_assoc, List.length_cons, hrest, ih, List.cons_append]

/-- What is read from the first bytes of an image that ends with the message `last`: all messages
before it, and what the bytes of `last` and the memory behind them make up. -/
theorem readEntries_take (env : RestoreEnv) {m : KvSnapshotMessage} (hm : WholeImage m)
    {ms : List KvMessage} {last : KvMessage} (hlast : m.entries = ms ++ [last]) {k : ℕ}
    (hk : 16 + 80 * ms.length ≤ k) :
    ∃ bs : List UInt8, bs.length = 80 ∧
      (∀ n ≤ 80, n ≤ k - 16 - 80 * ms.length → bs.take n = last.encode.take n) ∧
      readEntries env (m.encode.take k) = ms ++ [KvMessage.decode bs] := by
  have hcount : m.count.toNat = ms.length + 1 := by
    rw [hm.count_eq, hlast, List.length_append, List.length_singleton]
  have hlong : ¬ (m.encode.take k).length < 16 := by
    rw [List.length_take, m.length_encode]
    omega
  have hflat : m.entries.flatMap KvMessage.encode =
      ms.flatMap KvMessage.encode ++ last.encode := by
    rw [hlast, List.flatMap_append, List.flatMap_singleton]
  have hdata : ((m.encode.take k).drop 16).take (80 * m.count.toNat) =
      ms.flatMap KvMessage.encode ++ last.encode.take (k - 16 - 80 * ms.length) := by
    rw [List.drop_take, m.drop_encode, hflat, List.take_of_length_le, List.take_append,
      List.take_of_length_le, length_flatMap_encode]
    · rw [length_flatMap_encode]
      omega
    · rw [List.length_take, List.length_append, length_flatMap_encode, last.length_encode, hcount]
      omega
  -- where the file ends, `entries` keeps the bytes that `malloc` found there
  set heap := (List.range (80 * m.count.toNat)).map env.heap with hheap
  have hlen : (last.encode.take (k - 16 - 80 * ms.length)).length =
      min (k - 16 - 80 * ms.length) 80 := by
    rw [List.length_take, last.length_encode]
  refine ⟨last.encode.take (k - 16 - 80 * ms.length) ++
    heap.drop (ms.flatMap KvMessage.encode ++
      last.encode.take (k - 16 - 80 * ms.length)).length, ?_, ?_, ?_⟩
  · rw [List.length_append, List.length_drop, List.length_append, length_flatMap_encode, hlen, hheap,
      List.length_map, List.length_range, hcount]
    omega
  · intro n hn hnk
    rw [List.take_append_of_le_length (by rw [hlen]; omega), List.take_take, Nat.min_eq_left hnk]
  · simp only [readEntries, decodeHeader_take (m := m) (show 16 ≤ k by omega), if_neg hlong, hdata]
    rw [← hheap, hcount, List.append_assoc]
    refine readMessages_concat ms ?_
    rw [List.length_append, List.length_drop, List.length_append, length_flatMap_encode, hlen, hheap,
      List.length_map, List.length_range, hcount]
    omega

/-- **The tail of an image does not matter.**  Once the essential bytes are in the file, it is
restored as the whole image would be. -/
theorem restore_take_encode {env : RestoreEnv} (henv : env.Inserts) {m : KvSnapshotMessage}
    (hm : WholeImage m) {k : ℕ} (hk : essentialBytes m ≤ k) (key : HashKey) :
    (restore H env (some (m.encode.take k))).get key = shown m key := by
  rcases List.eq_nil_or_concat m.entries with hnil | ⟨ms, last, hlast⟩
  · -- no entries: the header is all there is
    have hk16 : 16 ≤ k := by
      rwa [essentialBytes, hnil] at hk
    have hall : m.encode.take k = m.encode := by
      refine List.take_of_length_le ?_
      rw [m.length_encode, hnil, List.length_nil]
      omega
    rw [hall, get_restore_encode henv hm]
  · -- only the bytes of the last value behind its terminator may be missing
    rw [List.concat_eq_append] at hlast
    have hnul : 0 ∈ last.value.1 := hm.terminated last (by rw [hlast]; simp)
    have hshort : (cstr last.value.1).1.length < 64 := lt_of_lt_of_eq (length_cstr_lt hnul) last.value.2
    have hbytes : 16 + 80 * ms.length + (17 + (cstr last.value.1).1.length) ≤ k := by
      rw [essentialBytes, hlast, List.getLast?_concat] at hk
      dsimp only at hk
      rw [List.length_append, List.length_singleton, Nat.add_sub_cancel] at hk
      exact hk
    obtain ⟨bs, hlen, htake, hread⟩ := readEntries_take env hm hlast (k := k) (by omega)
    obtain ⟨hentry, hterm⟩ :=
      entryOf_decode_of_take hnul hlen (htake _ (by omega) (by omega))
    have hterms : ∀ e ∈ readEntries env (m.encode.take k), 0 ∈ e.value.1 := by
      intro e he
      rw [hread, List.mem_append, List.mem_singleton] at he
      rcases he with he | rfl
      · exact hm.terminated e (by rw [hlast]; exact List.mem_append_left _ he)
      · exact hterm
    rw [get_restore henv hterms, shown, hread, hlast, List.map_append, List.map_append,
      List.map_singleton, List.map_singleton, hentry]

/-- No more than eight bytes say nothing: the counter in the header is zero. -/
theorem restore_take_of_le {env : RestoreEnv} (henv : env.Inserts) (bytes : List UInt8) {k : ℕ}
    (hk : k ≤ 8) (key : HashKey) : (restore H env (some (bytes.take k))).get key = none := by
  have hcount : (decodeHeader (bytes.take k)).count = 0 := by
    have hdrop : (memcpy (zeros 16) (bytes.take k)).1.drop 8 = List.replicate 8 0 := by
      have hlen : (bytes.take k).length ≤ 8 := by
        rw [List.length_take]
        omega
      rw [val_memcpy, List.take_of_length_le (by omega), zeros, List.drop_replicate,
        List.drop_append, List.drop_of_length_le hlen, List.nil_append, List.drop_replicate]
      congr 1
      omega
    simp only [decodeHeader, hdrop]
    decide
  have hread : readEntries env (bytes.take k) = [] := by
    simp only [readEntries, hcount]
    rfl
  rw [get_restore henv (by rw [hread]; simp), hread]
  rfl

/-! ### Stopping, then restoring -/

/-- The file when the store is saved over an image and the call is stopped. -/
def stoppedFile (env : SnapshotEnv) (old : KvSnapshotMessage) (s : Store H) (i k : ℕ) :
    Option (List UInt8) :=
  (stopAfter (doKvSnapshotToFile env) ⟨s, some old.encode⟩ i k).file

theorem stoppedFile_of_writes {env : SnapshotEnv} {s : Store H} (h : env.Writes s)
    (old : KvSnapshotMessage) (i k : ℕ) :
    stoppedFile env old s i k =
      if i ≤ 2 then some old.encode
      else if i = 3 then some ((imageOf env.snapshot s).encode.take k)
      else some (imageOf env.snapshot s).encode :=
  file_stopAfter_of_writes (w := ⟨s, some old.encode⟩) h i k

theorem stoppedFile_of_not_writes {env : SnapshotEnv} {s : Store H} (h : ¬ env.Writes s)
    (old : KvSnapshotMessage) (i k : ℕ) : stoppedFile env old s i k = some old.encode :=
  file_stopAfter_of_not_writes (w := ⟨s, some old.encode⟩) h i k

/-- **A stop while the snapshot is taken.**  Let the file hold a whole image, and let the daemon stop
at any point of `do_kv_snapshot_to_file`.  Up to the opening of the file (or always, if the call
gives up), a restore yields what the previous image says; once the essential bytes of the new image
are written, it yields what the new image says; and while at most eight bytes are written, it yields
nothing. -/
theorem restore_stoppedFile {renv : RestoreEnv} (hrenv : renv.Inserts) (env : SnapshotEnv)
    {old : KvSnapshotMessage} (hold : WholeImage old) (s : Store H) (i k : ℕ) :
    (i ≤ 2 ∨ ¬ env.Writes s →
      ∀ key, (restore H renv (stoppedFile env old s i k)).get key = shown old key) ∧
    (env.Writes s → (i = 3 ∧ essentialBytes (imageOf env.snapshot s) ≤ k) ∨ 4 ≤ i →
      ∀ key, (restore H renv (stoppedFile env old s i k)).get key =
        shown (imageOf env.snapshot s) key) ∧
    (env.Writes s → i = 3 ∧ k ≤ 8 →
      ∀ key, (restore H renv (stoppedFile env old s i k)).get key = none) := by
  have hnew := wholeImage_imageOf env.snapshot s
  refine ⟨?_, ?_, ?_⟩
  · intro hbefore key
    have hsame : stoppedFile env old s i k = some old.encode := by
      by_cases hw : env.Writes s
      · rw [stoppedFile_of_writes hw, if_pos (hbefore.resolve_right (not_not.2 hw))]
      · exact stoppedFile_of_not_writes hw old i k
    rw [hsame, get_restore_encode hrenv hold]
  · intro hw hafter key
    rw [stoppedFile_of_writes hw]
    rcases hafter with ⟨rfl, hk⟩ | hi
    · rw [if_neg (by omega), if_pos rfl, restore_take_encode hrenv hnew hk]
    · rw [if_neg (by omega), if_neg (by omega), get_restore_encode hrenv hnew]
  · rintro hw ⟨rfl, hk⟩ key
    rw [stoppedFile_of_writes hw, if_neg (by omega), if_pos rfl, restore_take_of_le hrenv _ hk]

/-- The store after `KV_INSERT` of the keys 7 and 8. -/
def storeA78 : Store HashFn.module := (ioctl (insertA 8) storeA7).2

theorem length_storeA78 : storeA78.1.entries.length = 2 := by decide +kernel

theorem writes_storeA78 : SnapshotEnv.ok.Writes storeA78 := by
  rw [SnapshotEnv.Writes, entryCount, length_storeA78]
  decide

/-- Key 8 has been added since the last snapshot, and the daemon stops right after it has opened the
file. -/
theorem restore_stoppedAtOpen :
    SnapshotEnv.ok.Writes storeA78 ∧ ∀ key, (restore HashFn.module .ok
      (stoppedFile .ok (imageOf .ok storeA7) storeA78 3 0)).get key = none := by
  refine ⟨writes_storeA78, ?_⟩
  intro key
  have hold := wholeImage_imageOf .ok storeA7
  have hpoints := restore_stoppedFile succeeds_ok.inserts .ok hold storeA78 3 0
  exact hpoints.2.2 writes_storeA78 ⟨rfl, Nat.zero_le 8⟩ key

/-- Both images show key 7, which is not restored. -/
theorem stoppedAtOpen_neither :
    let restored := restore HashFn.module .ok (stoppedFile .ok (imageOf .ok storeA7) storeA78 3 0)
    (¬ ∀ key, restored.get key = shown (imageOf .ok storeA7) key) ∧
      ¬ ∀ key, restored.get key = shown (imageOf .ok storeA78) key := by
  intro restored
  have hnone : restored.get 7 = none := by
    unfold restored
    rw [stoppedFile_of_writes writes_storeA78, if_neg (by decide), if_pos rfl,
      restore_take_of_le succeeds_ok.inserts _ (Nat.zero_le 8)]
  constructor
  · intro h
    rw [h 7, shown, dlookup_imageOf .ok (by rw [length_storeA7]; decide)] at hnone
    exact absurd hnone (by decide)
  · intro h
    rw [h 7, shown, dlookup_imageOf .ok (by rw [length_storeA78]; decide)] at hnone
    exact absurd hnone (by decide)

end Daemon
