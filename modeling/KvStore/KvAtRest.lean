/-
**Counting, copying and looking up on a table at rest.**

Three functions of the module walk over the same chains: `kv_hash_lookup` searches one of them,
`kv_hash_count` counts the entries of all, and `kv_hash_snapshot` copies entries into an array until
the array is full.  When nobody changes the table they tell the same story, as long as the count fits
into an `int` and the values fit into a message.

`KV_SNAPSHOT` puts two of them together.  The caller says how many entries it has room for, and gets
an image when this is the number of entries; otherwise the ioctl returns that number.  It is meant to
return 0 when there is an image, and nothing else when there is none.  For an empty table that fails
both ways: a caller with room for nothing gets an error, because `kv_hash_snapshot` refuses an array of
no slots, and a caller with room for something gets 0, which is the number of entries.

Main definitions:

* `KvHash.copied` — the slots that `kv_hash_snapshot` writes;
* `KvHash.Agree` — the three functions tell the same story;
* `KvIoctl.FullImage` — an image of the whole table;
* `KvIoctl.Tells` — the return code of `KV_SNAPSHOT` tells whether there is an image.

Main results:

* `KvHash.agree_atRest` — **count, snapshot and lookup agree** on a table at rest;
* `KvIoctl.ret_handleKvSnapshot` — the return code of `KV_SNAPSHOT`;
* `KvIoctl.tells_iff` — **when the return code is to be trusted**: among the tables that can be
  counted, exactly on those that are not empty.
-/

import KvStore.KvHeapLeak
import Mathlib.Data.Set.Card

set_option relaxedAutoImplicit false
set_option autoImplicit false

namespace KvHash

open CMem Interleave KvIoctl

variable {H : HashFn}

/-! ### Three walks over the table -/

/-- `kv_hash_lookup` finds the key, and its value fits into a message. -/
def Found (s : Store H) (key : HashKey) : Prop := ∀ outBuf : Buf MAX_VALUE_LEN,
  0 ≤ (kvHashLookup s.1 key outBuf).1

/-- The slots that `kv_hash_snapshot` has written when it returns. -/
def copied (alloc : Alloc) (s : Store H) (slots : List KvMessage) : List KvMessage :=
  let r := ((kvHashSnapshot slots slots.length).run (exec alloc) s).1
  r.2.2.take r.2.1

/-- `kv_hash_count`, `kv_hash_snapshot` and `kv_hash_lookup` tell the same story about a table of `c`
entries. -/
structure Agree (alloc : Alloc) (s : Store H) (c : ℕ) : Prop where
  /-- the count -/
  count : ((kvHashCount : Kernel H Int32).run (exec alloc) s).1.toInt = c
  /-- there are as many keys that can be looked up -/
  found : {key | Found s key}.ncard = c
  /-- a snapshot succeeds, and fills as many slots as there are entries and room for them -/
  ret : ∀ slots, slots ≠ [] →
    ((kvHashSnapshot slots slots.length).run (exec alloc) s).1.1 = 0 ∧
      ((kvHashSnapshot slots slots.length).run (exec alloc) s).1.2.1 = min c slots.length ∧
      (copied alloc s slots).length = min c slots.length
  /-- no key is listed twice -/
  nodup : ∀ slots, slots ≠ [] → ((copied alloc s slots).map (·.key)).Nodup
  /-- the value in a slot is the one that a lookup returns -/
  value : ∀ slots, slots ≠ [] → ∀ m ∈ copied alloc s slots, Found s m.key ∧
    ∀ outBuf : Buf MAX_VALUE_LEN, m.value.1 =
      ((kvHashLookup s.1 m.key outBuf).2.1.take (kvHashLookup s.1 m.key outBuf).1.toNat).rightpad 64 0
  /-- more room only adds entries at the end -/
  take : ∀ slots slots', slots ≠ [] → slots.length ≤ slots'.length →
    (copied alloc s slots).map fields = ((copied alloc s slots').map fields).take (min c slots.length)
  /-- with room for all, every key is listed -/
  complete : ∀ slots, slots ≠ [] → c ≤ slots.length → ∀ key, Found s key →
    key ∈ (copied alloc s slots).map (·.key)

/-- The slots written are the first entries of the table. -/
theorem copied_eq (alloc : Alloc) (s : Store H) {slots : List KvMessage} (h : slots ≠ []) :
    copied alloc s slots = List.zipWith copyEntry (s.1.entries.take slots.length) slots := by
  have hlen : slots.length ≠ 0 := fun h0 => h (List.length_eq_zero_iff.1 h0)
  rw [copied, run_kvHashSnapshot alloc s hlen]
  exact take_filled (List.length_take_le ..)

theorem map_fields_copied (alloc : Alloc) (s : Store H) {slots : List KvMessage} (h : slots ≠ []) :
    (copied alloc s slots).map fields =
      (s.1.entries.take slots.length).map fun e => (0, e.1, strscpy (zeros MAX_VALUE_LEN) e.2) := by
  rw [copied_eq alloc s h]
  exact map_fields_zipWith (List.length_take_le ..)

/-- A key is found when its value fits into a message. -/
theorem found_iff (s : Store H) (key : HashKey) : Found s key ↔ s.found key = true := by
  constructor
  · intro h
    exact (s.lookup_nonneg_iff key (zeros MAX_VALUE_LEN)).1 (h _)
  · intro h outBuf
    exact (s.lookup_nonneg_iff key outBuf).2 h

/-- Where all values fit into a message, the keys that are found are those of the entries. -/
theorem found_iff_mem_keys {s : Store H} (hs : ∀ key v, s.get key = some v → v.1.length ≤ 63)
    (key : HashKey) : Found s key ↔ key ∈ s.1.entries.keys := by
  rw [found_iff]
  constructor
  · intro h
    obtain ⟨v, hv⟩ := Option.ne_none_iff_exists'.1 (Store.get_ne_none_of_found h)
    exact List.mem_keys_of_mem (s.2.mem_entries (e := ⟨key, v⟩).2 hv)
  · intro h
    obtain ⟨v, hv⟩ := List.exists_of_mem_keys h
    have hget : s.get key = some v := s.2.mem_entries.1 hv
    rw [Store.found, hget]
    exact decide_eq_true (Nat.lt_succ_of_le (hs key v hget))

/-- There are as many keys as entries. -/
theorem ncard_found {s : Store H} (hs : ∀ key v, s.get key = some v → v.1.length ≤ 63) :
    {key | Found s key}.ncard = s.1.entries.length := by
  have hset : {key | Found s key} = (s.1.entries.keys.toFinset : Set HashKey) := by
    ext key
    rw [Set.mem_ofPred_eq, found_iff_mem_keys hs, List.coe_toFinset, Set.mem_ofPred_eq]
  rw [hset, Set.ncard_coe_finset, List.toFinset_card_of_nodup s.2.nodupKeys_entries, List.keys,
    List.length_map]

/-- The value in a slot is the one that a lookup returns. -/
theorem lookup_value {s : Store H} {key : HashKey} {v : CStr} (hget : s.get key = some v)
    (hlen : v.1.length ≤ 63) (outBuf : Buf MAX_VALUE_LEN) :
    (kvHashLookup s.1 key outBuf).2.1.take (kvHashLookup s.1 key outBuf).1.toNat = v.1.take 63 := by
  have hlt : v.1.length < MAX_VALUE_LEN := Nat.lt_succ_of_le hlen
  have hfits : (v.1 ++ [0]).take MAX_VALUE_LEN = v.1 ++ [0] := by
    refine List.take_of_length_le ?_
    rw [List.length_append, List.length_singleton]
    exact hlt
  rw [s.lookup_eq, hget]
  simp only [if_pos hlt]
  rw [val_memcpy, Int.toNat_natCast, List.take_of_length_le hlen, hfits, List.append_assoc,
    List.take_left]

/-- **Count, snapshot and lookup agree** on a table at rest, of fewer than `2 ^ 31` entries with values
of at most 63 bytes. -/
theorem agree_atRest (alloc : Alloc) {s : Store H} (hcount : s.1.entries.length < 2 ^ 31)
    (hs : ∀ key v, s.get key = some v → v.1.length ≤ 63) :
    Agree alloc s s.1.entries.length where
  count := by
    rw [run_kvHashCount]
    exact Int32.toInt_ofNat_of_lt hcount
  found := ncard_found hs
  ret := by
    intro slots hslots
    have hlen : slots.length ≠ 0 := fun h0 => hslots (List.length_eq_zero_iff.1 h0)
    have hmin := Nat.min_comm s.1.entries.length slots.length
    rw [run_kvHashSnapshot alloc s hlen, copied_eq alloc s hslots, List.length_zipWith,
      List.length_take]
    exact ⟨rfl, hmin.symm, by omega⟩
  nodup := by
    intro slots hslots
    rw [copied_eq alloc s hslots, map_key_zipWith (List.length_take_le ..)]
    exact s.2.nodupKeys_entries.sublist (List.take_sublist ..)
  value := by
    intro slots hslots m hm
    rw [copied_eq alloc s hslots] at hm
    obtain ⟨e, he, hkey, hvalue⟩ := exists_entry_of_mem_zipWith (List.length_take_le ..) hm
    have hget : s.get m.key = some e.2 := by
      rw [hkey]
      exact s.2.mem_entries.1 (List.mem_of_mem_take he)
    have hshort := hs m.key e.2 hget
    refine ⟨?_, ?_⟩
    · rw [found_iff, Store.found, hget]
      exact decide_eq_true (Nat.lt_succ_of_le hshort)
    · intro outBuf
      rw [lookup_value hget hshort, hvalue]
  take := by
    intro slots slots' hslots hle
    have hslots' : slots' ≠ [] := by
      rintro rfl
      exact hslots (List.length_eq_zero_iff.1 (Nat.le_zero.1 hle))
    rw [map_fields_copied alloc s hslots, map_fields_copied alloc s hslots', ← List.map_take,
      List.take_take]
    have hmin : min (min s.1.entries.length slots.length) slots'.length =
        min s.1.entries.length slots.length := by omega
    have hall : (s.1.entries.take slots.length).take s.1.entries.length =
        s.1.entries.take slots.length := by
      refine List.take_of_length_le ?_
      rw [List.length_take]
      omega
    rw [hmin, ← List.take_take, hall]
  complete := by
    intro slots hslots hroom key hfound
    rw [copied_eq alloc s hslots, map_key_zipWith (List.length_take_le ..),
      List.take_of_length_le hroom]
    exact (found_iff_mem_keys hs key).1 hfound

/-- A table with two entries. -/
def twoEntries : Store HashFn.module :=
  (((Store.init HashFn.module).add 7 (ascii "a" ++ [0]) .ok).2.add 0 (ascii "b" ++ [0]) .ok).2

theorem length_twoEntries : twoEntries.1.entries.length = 2 := by decide +kernel

theorem agree_twoEntries :
    twoEntries.1.entries.length = 2 ∧ Agree .ok twoEntries twoEntries.1.entries.length := by
  have hshort : ∀ e ∈ twoEntries.1.entries, e.2.1.length ≤ 63 := by decide +kernel
  refine ⟨length_twoEntries, agree_atRest .ok ?_ ?_⟩
  · rw [length_twoEntries]
    decide
  · intro key v hv
    exact hshort ⟨key, v⟩ (twoEntries.2.mem_entries.2 hv)

end KvHash

namespace KvIoctl

open CMem Interleave KvHash Daemon

variable {H : HashFn}

/-! ### The return code of `KV_SNAPSHOT` -/

/-- An image of the whole table, with the values cut to 63 bytes. -/
structure FullImage (s : Store H) (image : KvSnapshotMessage) : Prop where
  status : image.status = SUCCESS
  count : image.count.toNat = s.1.entries.length
  entries : image.entries.map entryOf = s.1.entries.map fun e => ⟨e.1, e.2.truncate 63⟩

/-- The ioctl has overwritten the user's memory with an image of the whole table. -/
def Delivers (env : KernelEnv) (alloc : Alloc) (arg : KvSnapshotMessage) (s : Store H) : Prop :=
  ∃ image, ((handleKvSnapshot env arg).run (exec alloc) s).1.2 = some image ∧ FullImage s image ∧
    (ioctl ⟨env, alloc, .snapshot arg⟩ s).1.2 = .snapshot (arg.overwrite image)

/-- The ioctl returns 0 exactly when it has delivered an image, which is when the capacity is the
number of entries; otherwise the user's memory is as it was, and the return code is not 0. -/
structure Tells (env : KernelEnv) (alloc : Alloc) (arg : KvSnapshotMessage) (s : Store H) : Prop where
  ret : (ioctl ⟨env, alloc, .snapshot arg⟩ s).1.1 = 0 ↔ Delivers env alloc arg s
  capacity : Delivers env alloc arg s ↔ arg.capacity.toNat = s.1.entries.length
  otherwise : ¬ Delivers env alloc arg s → (ioctl ⟨env, alloc, .snapshot arg⟩ s).1.2 = .snapshot arg ∧
    (ioctl ⟨env, alloc, .snapshot arg⟩ s).1.1 ≠ 0

/-- The return code of `KV_SNAPSHOT`, when copies and allocation succeed. -/
theorem ret_handleKvSnapshot {env : KernelEnv} (hin : env.copyFromUser = true)
    (hout : env.copyToUser = true) (hmem : env.kmalloc = true) (alloc : Alloc)
    (arg : KvSnapshotMessage) (s : Store H) :
    ((handleKvSnapshot env arg).run (exec alloc) s).1.1 =
      if arg.capacity.toNat ≠ entryCount s then (Int32.ofNat (entryCount s)).toInt
      else if entryCount s = 0 then -EINVAL
      else if entryCount s < 2 ^ 31 then 0 else -ENOMEM := by
  have hcap : UInt32.ofNat (entryCount s) ≠ arg.capacity ↔ arg.capacity.toNat ≠ entryCount s := by
    rw [Ne, Ne, ← UInt32.toNat_inj, toNat_ofNat_entryCount, eq_comm]
  have hsize := allocSize_lt_iff (entryCount_lt s)
  rw [run_handleKvSnapshot, hin, ← entryCount, run_snapshotCounted _ _ _ (entryCount_lt s), hout, hmem]
  simp only [Bool.true_eq_false, if_false, hcap, Bool.true_and, hsize]
  by_cases hne : arg.capacity.toNat ≠ entryCount s
  · rw [if_pos hne, if_pos hne]
  · rw [if_neg hne, if_neg hne]
    by_cases hlt : entryCount s < 2 ^ 31
    · rw [decide_eq_true hlt, if_neg (by decide), if_pos hlt]
      by_cases hzero : entryCount s = 0
      · rw [if_pos hzero, if_pos hzero]
      · rw [if_neg hzero, if_neg hzero]
    · have hzero : entryCount s ≠ 0 := by omega
      rw [decide_eq_false hlt, if_pos (by decide), if_neg hzero, if_neg hlt]

/-- An image of the whole table is delivered when the capacity is the count, and the count is right and
neither 0 nor negative as an `int`. -/
theorem delivers_iff {env : KernelEnv} (hin : env.copyFromUser = true) (hout : env.copyToUser = true)
    (hmem : env.kmalloc = true) (alloc : Alloc) (arg : KvSnapshotMessage) (s : Store H) :
    Delivers env alloc arg s ↔
      (arg.capacity.toNat = entryCount s ∧ 0 < entryCount s ∧ entryCount s < 2 ^ 31) ∧
        entryCount s = s.1.entries.length := by
  have himage := image_handleKvSnapshot env alloc arg s
  constructor
  · rintro ⟨image, hsome, hfull, -⟩
    rw [hsome] at himage
    split at himage
    · rename_i hcopies
      obtain rfl := Option.some.inj himage
      have hcount := hfull.count
      rw [imageOf, toNat_ofNat_entryCount] at hcount
      exact ⟨hcopies.2.2.2, hcount⟩
    · cases himage
  · rintro ⟨hcap, hcount⟩
    rw [if_pos ⟨hin, hmem, hout, hcap⟩] at himage
    refine ⟨imageOf env s, himage, ⟨rfl, ?_, ?_⟩, ?_⟩
    · rw [imageOf, toNat_ofNat_entryCount, hcount]
    · rw [map_entryOf_imageOf, hcount, List.take_length]
    · rw [ioctl_snapshot rfl, himage]
      rfl

/-- Without an image the user's memory is left alone. -/
theorem ioctl_snapshot_of_not_copies {env : KernelEnv} {arg : KvSnapshotMessage} {s : Store H}
    (h : ¬ Copies env arg s) (alloc : Alloc) :
    (ioctl ⟨env, alloc, .snapshot arg⟩ s).1.2 = .snapshot arg := by
  rw [ioctl_snapshot rfl, image_handleKvSnapshot, if_neg h]
  rfl

theorem toInt_ofNat_eq_zero_iff {n : ℕ} (h : n < 2 ^ 32) : (Int32.ofNat n).toInt = 0 ↔ n = 0 := by
  have hsize : (Int32.size : ℤ) = 4294967296 := rfl
  rw [Int32.toInt_ofNat', Int.bmod_def, hsize]
  split <;> omega

/-- Without an image, the return code must not be 0, and the capacity not the number of entries. -/
theorem tells_of_not_copies {env : KernelEnv} {arg : KvSnapshotMessage} {s : Store H}
    (h : ¬ Copies env arg s) (alloc : Alloc) :
    Tells env alloc arg s ↔
      (ioctl ⟨env, alloc, .snapshot arg⟩ s).1.1 ≠ 0 ∧ arg.capacity.toNat ≠ s.1.entries.length := by
  have hno : ¬ Delivers env alloc arg s := by
    rintro ⟨image, hsome, -⟩
    rw [image_handleKvSnapshot, if_neg h] at hsome
    cases hsome
  constructor
  · intro ht
    exact ⟨(ht.otherwise hno).2, fun hcap => hno (ht.capacity.2 hcap)⟩
  · rintro ⟨hret, hcap⟩
    refine ⟨⟨fun h0 => absurd h0 hret, fun hd => absurd hd hno⟩,
      ⟨fun hd => absurd hd hno, fun hc => absurd hc hcap⟩, fun _ => ⟨?_, hret⟩⟩
    exact ioctl_snapshot_of_not_copies h alloc

/-- **When the return code is to be trusted.**  Let copies and allocation succeed, and let the entries
be counted modulo `2 ^ 32`.  If the capacity is not the count, the return code tells that there is no
image exactly when the count is not 0.  If it is the count, then the return code tells whether there is
an image of the whole table exactly when the count is right and a positive `int`, or wrong and none. -/
theorem tells_iff {env : KernelEnv} (hin : env.copyFromUser = true) (hout : env.copyToUser = true)
    (hmem : env.kmalloc = true) (alloc : Alloc) (arg : KvSnapshotMessage) (s : Store H) :
    Tells env alloc arg s ↔
      if arg.capacity.toNat = entryCount s then
        (s.1.entries.length < 2 ^ 32 ↔ 0 < entryCount s ∧ entryCount s < 2 ^ 31)
      else entryCount s ≠ 0 := by
  have hret := ret_handleKvSnapshot hin hout hmem alloc arg s
  have hdelivers := delivers_iff hin hout hmem alloc arg s
  have hioctl : (ioctl ⟨env, alloc, .snapshot arg⟩ s).1.1 =
      ((handleKvSnapshot env arg).run (exec alloc) s).1.1 := by
    rw [ioctl_snapshot rfl]
  have hlt := entryCount_lt s
  have hexact : entryCount s = s.1.entries.length ↔ s.1.entries.length < 2 ^ 32 := by
    rw [entryCount]
    omega
  by_cases hcap : arg.capacity.toNat = entryCount s
  · rw [if_pos hcap]
    rw [if_neg (not_not.2 hcap)] at hret
    by_cases hpos : 0 < entryCount s ∧ entryCount s < 2 ^ 31
    · -- an image is copied, of as many entries as were counted
      have hne : entryCount s ≠ 0 := by omega
      rw [if_neg hne, if_pos hpos.2, ← hioctl] at hret
      constructor
      · intro ht
        have hcount := (hdelivers.1 (ht.ret.1 hret)).2
        exact ⟨fun _ => hpos, fun _ => hexact.1 hcount⟩
      · intro hiff
        have hcount := hexact.2 (hiff.2 hpos)
        have hd := hdelivers.2 ⟨⟨hcap, hpos⟩, hcount⟩
        exact ⟨⟨fun _ => hd, fun _ => hret⟩, ⟨fun _ => hcap.trans hcount, fun _ => hd⟩,
          fun hno => absurd hd hno⟩
    · have hcopies : ¬ Copies env arg s := fun hc => hpos ⟨hc.2.2.2.2.1, hc.2.2.2.2.2⟩
      have hneg : (ioctl ⟨env, alloc, .snapshot arg⟩ s).1.1 ≠ 0 := by
        rw [hioctl, hret]
        by_cases hzero : entryCount s = 0
        · rw [if_pos hzero]
          decide
        · rw [if_neg hzero, if_neg (by omega)]
          decide
      rw [tells_of_not_copies hcopies, iff_false_right hpos, ← hexact, hcap]
      exact and_iff_right hneg
  · rw [if_neg hcap]
    rw [if_pos hcap, ← hioctl] at hret
    have hcopies : ¬ Copies env arg s := fun hc => hcap hc.2.2.2.1
    have hne : arg.capacity.toNat ≠ s.1.entries.length := by
      intro heq
      have hsmall : s.1.entries.length < 2 ^ 32 := by
        rw [← heq]
        exact arg.capacity.toNat_lt
      exact hcap (heq.trans (hexact.2 hsmall).symm)
    rw [tells_of_not_copies hcopies, hret, Ne, toInt_ofNat_eq_zero_iff hlt]
    exact and_iff_left hne

/-- A buffer with room for `n` entries. -/
def emptyBuffer (n : ℕ) : KvSnapshotMessage where
  status := 0
  capacity := UInt32.ofNat n
  count := 0
  pad := 0
  entries := List.replicate n KvMessage.zero

/-- A table of two entries is delivered to a caller with room for two. -/
theorem tells_twoEntries :
    (ioctl ⟨.ok, .ok, .snapshot (emptyBuffer 2)⟩ twoEntries).1.1 = 0 ∧
      Tells .ok .ok (emptyBuffer 2) twoEntries := by
  have hcount : entryCount twoEntries = 2 := by
    rw [entryCount, length_twoEntries, Nat.mod_eq_of_lt (by decide)]
  refine ⟨by decide +kernel, (tells_iff rfl rfl rfl .ok (emptyBuffer 2) twoEntries).2 ?_⟩
  rw [hcount, if_pos (by decide), length_twoEntries]
  decide

/-- For the empty table the ioctl fails when the capacity is 0, and returns 0 without an image when it
is not. -/
theorem empty_table_misreported :
    (ioctl ⟨.ok, .ok, .snapshot (emptyBuffer 0)⟩ (Store.init HashFn.module)).1.1 = -EINVAL ∧
      ¬ Tells .ok .ok (emptyBuffer 0) (Store.init HashFn.module) ∧
      (ioctl ⟨.ok, .ok, .snapshot (emptyBuffer 1)⟩ (Store.init HashFn.module)).1.1 = 0 ∧
      ¬ Tells .ok .ok (emptyBuffer 1) (Store.init HashFn.module) := by
  have hlen : (Store.init HashFn.module).1.entries.length = 0 := by decide +kernel
  have hret : (ioctl ⟨.ok, .ok, .snapshot (emptyBuffer 0)⟩ (Store.init HashFn.module)).1.1 =
      -EINVAL := by decide +kernel
  have hret' : (ioctl ⟨.ok, .ok, .snapshot (emptyBuffer 1)⟩ (Store.init HashFn.module)).1.1 = 0 := by
    decide +kernel
  refine ⟨hret, ?_, hret', ?_⟩
  · intro ht
    have hzero := ht.ret.2 (ht.capacity.2 hlen.symm)
    rw [hret] at hzero
    cases hzero
  · intro ht
    have hcap := ht.capacity.1 (ht.ret.1 hret')
    rw [hlen] at hcap
    cases hcap

end KvIoctl
