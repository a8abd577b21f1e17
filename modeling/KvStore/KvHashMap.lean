/-
**The hash table is a finite map.**

`KvStore/KvHash.lean` models the three one-bucket operations of `kernel/kv_hash.c`.  Here a table
is put next to what it is for — a finite map from 64-bit keys to NUL-free byte strings — and every
sequence of calls is shown to be answered as that map would answer it, whatever the bucket function
is and whichever allocations fail.

Main definitions:

* `KvHash.HashCall`, `KvHash.HashCall.exec` — a call of one of the three operations, and its effect
  on a table;
* `KvHash.KvMap`, `KvHash.HashCall.spec` — the abstract map, and the answer it owes to a call.

Main results:

* `KvHash.exec_refines` — one call: same reply, and the table still represents the map;
* `KvHash.serve_kvHashInit` — **refinement**: from the initialised table every sequence of calls is
  answered as by the map; in every state reached each entry is in the bucket of its key and no key
  occurs twice.

An empty output buffer is refused by `kv_hash_lookup` before it looks for the key, whether or not
the key is present (`KvHash.kvHashLookup_no_room`), which is why the map answers it with `-EINVAL`.
-/

import KvStore.KvHash
import KvStore.Service

set_option relaxedAutoImplicit false
set_option autoImplicit false

namespace KvHash

open CMem Service

variable {H : HashFn}

/-! ### Calls on a table -/

/-- A call of one of the one-bucket operations, with the outcomes of its allocations. -/
inductive HashCall
  | add (key : HashKey) (value : List UInt8) (alloc : Alloc)
  | remove (key : HashKey)
  | lookup (key : HashKey) (n : ℕ) (outBuf : Buf n)

/-- The effect of a call: its return code, the output buffer where it has one, and the table. -/
def HashCall.exec (ht : HashTable H) : HashCall → (ℤ × List UInt8) × HashTable H
  | add key value alloc =>
      (((kvHashAdd ht key value alloc).1, []), (kvHashAdd ht key value alloc).2)
  | remove key => (((kvHashRemove ht key).1, []), (kvHashRemove ht key).2)
  | lookup key _ outBuf => (((kvHashLookup ht key outBuf).1, (kvHashLookup ht key outBuf).2.1), ht)

/-! ### The abstract map -/

/-- A finite map from keys to NUL-free byte strings. -/
abbrev KvMap := Finmap fun _ : HashKey => CStr

theorem KvMap.lookup_insert_ite (m : KvMap) (key k : HashKey) (v : CStr) :
    (m.insert key v).lookup k = if k = key then some v else m.lookup k := by
  by_cases hk : k = key
  · subst hk
    rw [if_pos rfl, Finmap.lookup_insert]
  · rw [if_neg hk, Finmap.lookup_insert_of_ne _ hk]

theorem KvMap.lookup_erase_ite (m : KvMap) (key k : HashKey) :
    (m.erase key).lookup k = if k = key then none else m.lookup k := by
  by_cases hk : k = key
  · subst hk
    rw [if_pos rfl, Finmap.lookup_erase]
  · rw [if_neg hk, Finmap.lookup_erase_ne hk]

/-- What the map owes to a call.  An addition needs memory for the copy of the value, and for an
entry when the key is new; without it the map is left alone. -/
def HashCall.spec (m : KvMap) : HashCall → (ℤ × List UInt8) × KvMap
  | add key value alloc =>
      if alloc.kstrdup && ((m.lookup key).isSome || alloc.kmalloc) then
        ((0, []), m.insert key (cstr value))
      else ((-ENOMEM, []), m)
  | remove key =>
      if (m.lookup key).isSome then ((0, []), m.erase key) else ((-ENOENT, []), m)
  | lookup key n outBuf =>
      if n = 0 then ((-EINVAL, outBuf.1), m)
      else
        match m.lookup key with
        | some value =>
            if value.1.length + 1 ≤ n then
              ((value.1.length, value.1 ++ 0 :: outBuf.1.drop (value.1.length + 1)), m)
            else ((-ENOSPC, outBuf.1), m)
        | none => ((-ENOENT, outBuf.1), m)

/-- The table represents the map. -/
structure Represents (ht : HashTable H) (m : KvMap) : Prop where
  wellFormed : ht.WellFormed
  get_eq : ∀ key, ht.get key = m.lookup key

/-! ### Refinement -/

/-- One call: the table answers as the map it represents, and represents the map's successor. -/
theorem exec_refines (c : HashCall) (ht : HashTable H) (m : KvMap) (h : Represents ht m) :
    (c.exec ht).1 = (c.spec m).1 ∧ Represents (c.exec ht).2 (c.spec m).2 := by
  obtain ⟨hwf, hget⟩ := h
  cases c with
  | add key value alloc =>
      have hadm : alloc.admits ht key = (alloc.kstrdup && ((m.lookup key).isSome || alloc.kmalloc)) := by
        rw [Alloc.admits, hget]
      have hwf' := wellFormed_kvHashAdd hwf key value alloc
      have hget' := get_kvHashAdd hwf key value alloc
      simp only [HashCall.exec, HashCall.spec, kvHashAdd_fst hwf, ← hadm]
      cases ha : alloc.admits ht key with
      | false => exact ⟨rfl, hwf', fun k => by simp [hget', ha, hget]⟩
      | true =>
          refine ⟨rfl, hwf', fun k => ?_⟩
          rw [if_pos rfl, KvMap.lookup_insert_ite, hget', hget]
          simp [ha]
  | remove key =>
      have hwf' := wellFormed_kvHashRemove hwf key
      simp only [HashCall.exec, HashCall.spec, kvHashRemove_fst hwf, hget]
      cases hk : m.lookup key with
      | none =>
          rw [kvHashRemove_snd_of_none hwf (by rw [hget, hk])]
          exact ⟨rfl, hwf, hget⟩
      | some v =>
          refine ⟨rfl, hwf', fun k => ?_⟩
          rw [get_kvHashRemove hwf, Option.isSome_some, if_pos rfl, KvMap.lookup_erase_ite, hget]
  | lookup key n outBuf =>
      simp only [HashCall.exec, HashCall.spec, kvHashLookup_eq hwf, hget]
      by_cases hn : n = 0
      · simp only [if_pos hn]
        exact ⟨trivial, hwf, hget⟩
      · simp only [if_neg hn]
        cases hk : m.lookup key with
        | none => exact ⟨rfl, hwf, hget⟩
        | some v =>
            by_cases hlen : v.1.length + 1 ≤ n
            · have hgt : ¬ v.1.length + 1 > n := by omega
              have htake : (v.1 ++ [0]).take n = v.1 ++ [0] :=
                List.take_of_length_le (by simpa using hlen)
              simp only [if_neg hgt, if_pos hlen]
              exact ⟨by simp [memcpy, htake], hwf, hget⟩
            · have hgt : v.1.length + 1 > n := by omega
              simp only [if_pos hgt, if_neg hlen]
              exact ⟨trivial, hwf, hget⟩

/-- The initialised table represents the empty map. -/
theorem represents_kvHashInit (H : HashFn) : Represents (kvHashInit H true true).2 ∅ where
  wellFormed := wellFormed_kvHashInit H
  get_eq := by
    intro key
    rw [get_kvHashInit, Finmap.lookup_empty]

/-- **Refinement.**  Every sequence of calls on a table just initialised is answered as by the
finite map, for every bucket function and every pattern of allocation failures.  In the state it
reaches, each entry lies in the bucket of its key, no key occurs twice in the whole table, and the
table holds what the map holds. -/
theorem serve_kvHashInit (H : HashFn) (cs : List HashCall) :
    let t := (serve (fun c ht => HashCall.exec ht c) cs (kvHashInit H true true).2)
    let m := (serve (fun c m => HashCall.spec m c) cs ∅)
    t.1 = m.1 ∧ (∀ b, ∀ e ∈ t.2.chain b, H.kvBucket e.1 = b) ∧ t.2.entries.NodupKeys ∧
      ∀ key, t.2.get key = m.2.lookup key := by
  obtain ⟨hreplies, hwf, hget⟩ := serve_simulation _ _ Represents exec_refines cs
    (represents_kvHashInit H)
  exact ⟨hreplies, hwf.placed, hwf.nodupKeys_entries, hget⟩

/-- `kv_hash_lookup` into an empty buffer: the key is absent, and yet the answer is not
`-ENOENT`. -/
theorem kvHashLookup_no_room :
    (kvHashInit HashFn.module true true).2.get 7 = none ∧
      (kvHashLookup (kvHashInit HashFn.module true true).2 7 (zeros 0)).1 = -EINVAL ∧
      (kvHashLookup (kvHashInit HashFn.module true true).2 7 (zeros 0)).1 ≠ -ENOENT := by
  refine ⟨get_kvHashInit _ _ _ _, rfl, ?_⟩
  decide

end KvHash
