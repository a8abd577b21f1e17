/-
**The hash table of the kernel module.**

`kernel/kv_hash.c` keeps the store in an array of `2 ^ bits` singly linked chains, each guarded by
its own spinlock.  `kv_hash_add`, `kv_hash_remove` and `kv_hash_lookup` lock the one bucket their
key hashes to and walk its chain, so each of them acts on the table in a single critical section;
they are modelled here as functions on the whole table.  `kv_hash_count` and `kv_hash_snapshot`
take the locks one bucket after the other, and are therefore programs of several steps
(`KvStore/KvHashSteps.lean`).

What is not part of the model: `ht`, `value` and `out_buf` are addresses of variables or arrays at
every call in the module, so their `NULL` tests cannot fire; `ht->buckets` is `NULL` before
`kv_hash_init` and after `kv_hash_destroy`, and that test is kept.  The kernel's `hash_min` is a
parameter, of which only its range is known.

Main definitions:

* `KvHash.HashFn` — the number of bits and the bucket function;
* `KvHash.HashTable`, `KvHash.kvHashInit` — tables, and the initialised one;
* `KvHash.kvHashAdd`, `KvHash.kvHashRemove`, `KvHash.kvHashLookup` — the three operations;
* `KvHash.HashTable.get` — what the table holds under a key;
* `KvHash.HashTable.WellFormed` — **the representation invariant**: every entry lies in the bucket
  of its key, and no chain holds a key twice;
* `KvHash.Store` — a well-formed table.

Main results:

* `KvHash.kvHashAdd_fst`, `KvHash.get_kvHashAdd`, `KvHash.kvHashRemove_fst`,
  `KvHash.get_kvHashRemove`, `KvHash.kvHashLookup_eq` — the operations, in terms of
  `KvHash.HashTable.get` alone;
* `KvHash.wellFormed_kvHashAdd`, `KvHash.wellFormed_kvHashRemove` — **the invariant is kept**;
* `KvHash.HashTable.WellFormed.nodupKeys_entries` — no key occurs twice in the whole table.
-/

import KvStore.CString
import Mathlib.Data.Finmap
import Mathlib.Data.List.FinRange
import Mathlib.Logic.Function.Basic

set_option relaxedAutoImplicit false
set_option autoImplicit false

namespace KvHash

open CMem

/-! ### Error numbers -/

/-- No such entry. -/
abbrev ENOENT : ℤ := 2

/-- Out of memory. -/
abbrev ENOMEM : ℤ := 12

/-- Bad address. -/
abbrev EFAULT : ℤ := 14

/-- Invalid argument. -/
abbrev EINVAL : ℤ := 22

/-- No space left. -/
abbrev ENOSPC : ℤ := 28

/-! ### Tables -/

/-- `hash_key_t`. -/
abbrev HashKey := UInt64

/-- The `bits` a table is initialised with and the bucket function `hash_min` at that number of
bits, of which only the range is known. -/
structure HashFn where
  bits : ℕ
  one_le_bits : 1 ≤ bits
  bits_le : bits ≤ 30
  hashMin : HashKey → ℕ
  hashMin_lt : ∀ key, hashMin key < 2 ^ bits

/-- The number of buckets, `1U << bits`. -/
abbrev HashFn.n (H : HashFn) : ℕ := 2 ^ H.bits

/-- The bucket of a key. -/
def HashFn.kvBucket (H : HashFn) (key : HashKey) : Fin H.n := ⟨H.hashMin key, H.hashMin_lt key⟩

/-- The kernel's own bucket function on 64-bit machines, `hash_64`: the high bits of the product
with the golden ratio. -/
def HashFn.hash64 (bits : ℕ) (one_le : 1 ≤ bits) (le : bits ≤ 30) : HashFn where
  bits := bits
  one_le_bits := one_le
  bits_le := le
  hashMin key := (key * 0x61C8864680B583EB).toNat / 2 ^ (64 - bits)
  hashMin_lt key := by
    have hlt : (key * 0x61C8864680B583EB).toNat < 2 ^ 64 := UInt64.toNat_lt _
    have hbits : bits + (64 - bits) = 64 := by omega
    rwa [Nat.div_lt_iff_lt_mul (Nat.two_pow_pos _), ← pow_add, hbits]

/-- The table as the module initialises it, with ten bits. -/
abbrev HashFn.module : HashFn := HashFn.hash64 10 (by decide) (by decide)

/-- A table of two buckets, small enough to be evaluated. -/
abbrev twoBuckets : HashFn := HashFn.hash64 1 (by decide) (by decide)

/-- An entry of a chain: its key and its value. -/
abbrev KvHashEntry := (_ : HashKey) × CStr

/-- A chain, from its head on. -/
abbrev Chain := List KvHashEntry

/-- `struct hash_table`.  The bucket array is `none` where `ht->buckets` is `NULL`. -/
structure HashTable (H : HashFn) where
  buckets : Option (Fin H.n → Chain)

variable {H : HashFn}

/-- The chain of bucket `b`. -/
def HashTable.chain (ht : HashTable H) (b : Fin H.n) : Chain :=
  match ht.buckets with
  | none => []
  | some bs => bs b

/-- All entries of the table, bucket after bucket. -/
def HashTable.entries (ht : HashTable H) : Chain := (List.finRange H.n).flatMap ht.chain

/-- The value the table holds under `key`. -/
def HashTable.get (ht : HashTable H) (key : HashKey) : Option CStr :=
  (ht.chain (H.kvBucket key)).dlookup key

/-- `kv_hash_init`, with the outcomes of its two allocations; on failure the table is left with
no buckets. -/
def kvHashInit (H : HashFn) (bucketsOk locksOk : Bool) : ℤ × HashTable H :=
  if !bucketsOk then (-ENOMEM, ⟨none⟩)
  else if !locksOk then (-ENOMEM, ⟨none⟩)
  else (0, ⟨some fun _ => []⟩)

/-! ### The operations -/

/-- The outcomes of the two allocations of `kv_hash_add`: `true` where memory is found. -/
structure Alloc where
  kstrdup : Bool
  kmalloc : Bool
deriving DecidableEq

/-- Both allocations succeed. -/
def Alloc.ok : Alloc := ⟨true, true⟩

/-- The walk of `kv_hash_add` over a chain: the chain with the value of the first entry for `key`
replaced, or `none` when the walk falls off the end. -/
def updateExisting (key : HashKey) (newstr : CStr) : Chain → Option Chain
  | [] => none
  | e :: chain =>
      if e.1 = key then some (⟨e.1, newstr⟩ :: chain)
      else (updateExisting key newstr chain).map (e :: ·)

/-- The walk of `kv_hash_remove` over a chain: the chain with the first entry for `key` unlinked,
or `none` when the walk falls off the end. -/
def unlink (key : HashKey) : Chain → Option Chain
  | [] => none
  | e :: chain => if e.1 = key then some chain else (unlink key chain).map (e :: ·)

/-- `kv_hash_add`: add a key or update its value.  `value` is the memory the pointer argument
points to; the copy made by `kstrdup` ends at the first NUL. -/
def kvHashAdd (ht : HashTable H) (key : HashKey) (value : List UInt8) (alloc : Alloc) :
    ℤ × HashTable H :=
  match ht.buckets with
  | none => (-EINVAL, ht)
  | some bs =>
      if !alloc.kstrdup then (-ENOMEM, ht)
      else
        let newstr := cstr value
        let bucket := H.kvBucket key
        match updateExisting key newstr (bs bucket) with
        | some chain => (0, ⟨some (Function.update bs bucket chain)⟩)
        | none =>
            if !alloc.kmalloc then (-ENOMEM, ht)
            else (0, ⟨some (Function.update bs bucket (⟨key, newstr⟩ :: bs bucket))⟩)

/-- `kv_hash_remove`. -/
def kvHashRemove (ht : HashTable H) (key : HashKey) : ℤ × HashTable H :=
  match ht.buckets with
  | none => (-EINVAL, ht)
  | some bs =>
      let bucket := H.kvBucket key
      match unlink key (bs bucket) with
      | some chain => (0, ⟨some (Function.update bs bucket chain)⟩)
      | none => (-ENOENT, ht)

/-- `kv_hash_lookup` into a buffer of `out_buflen = n` bytes: the return code, and the buffer
afterwards. -/
def kvHashLookup (ht : HashTable H) (key : HashKey) {n : ℕ} (outBuf : Buf n) : ℤ × Buf n :=
  match ht.buckets with
  | none => (-EINVAL, outBuf)
  | some bs =>
      if n = 0 then (-EINVAL, outBuf)
      else
        match (bs (H.kvBucket key)).dlookup key with
        | some value =>
            if value.1.length + 1 > n then (-ENOSPC, outBuf)
            else (value.1.length, memcpy outBuf (value.1 ++ [0]))
        | none => (-ENOENT, outBuf)

/-! ### The walks over a chain -/

theorem updateExisting_eq_none {key : HashKey} {newstr : CStr} {chain : Chain} :
    updateExisting key newstr chain = none ↔ key ∉ chain.keys := by
  induction chain with
  | nil => simp [updateExisting]
  | cons e chain ih =>
      by_cases he : e.1 = key
      · simp [updateExisting, he]
      · simp [updateExisting, he, ih, Ne.symm he]

/-- A successful update leaves the keys of the chain, in their order, as they were. -/
theorem keys_of_updateExisting {key : HashKey} {newstr : CStr} {chain chain' : Chain}
    (h : updateExisting key newstr chain = some chain') : chain'.keys = chain.keys := by
  induction chain generalizing chain' with
  | nil => simp [updateExisting] at h
  | cons e chain ih =>
      by_cases he : e.1 = key
      · simp only [updateExisting, he, if_true, Option.some.injEq] at h
        subst h
        simp [he]
      · simp only [updateExisting, he, if_false, Option.map_eq_some_iff] at h
        obtain ⟨chain'', hc, rfl⟩ := h
        simp [ih hc]

theorem dlookup_of_updateExisting {key : HashKey} {newstr : CStr} {chain chain' : Chain}
    (h : updateExisting key newstr chain = some chain') (k : HashKey) :
    chain'.dlookup k = if k = key then some newstr else chain.dlookup k := by
  induction chain generalizing chain' with
  | nil => simp [updateExisting] at h
  | cons e chain ih =>
      by_cases he : e.1 = key
      · simp only [updateExisting, he, if_true, Option.some.injEq] at h
        subst h
        by_cases hk : k = key
        · subst hk
          simp
        · rw [if_neg hk, List.dlookup_cons_ne _ _ hk, List.dlookup_cons_ne _ _ (he ▸ hk)]
      · simp only [updateExisting, he, if_false, Option.map_eq_some_iff] at h
        obtain ⟨chain'', hc, rfl⟩ := h
        by_cases hk : k = e.1
        · obtain ⟨e₁, e₂⟩ := e
          obtain rfl : k = e₁ := hk
          simp [he]
        · rw [List.dlookup_cons_ne _ _ hk, List.dlookup_cons_ne _ _ hk, ih hc]

theorem unlink_eq (key : HashKey) (chain : Chain) :
    unlink key chain = if key ∈ chain.keys then some (chain.kerase key) else none := by
  induction chain with
  | nil => simp [unlink]
  | cons e chain ih =>
      by_cases he : e.1 = key
      · simp [unlink, he, List.kerase_cons_eq he.symm]
      · have hmem : key ∈ List.keys (e :: chain) ↔ key ∈ chain.keys := by simp [Ne.symm he]
        rw [unlink, if_neg he, ih, if_congr hmem rfl rfl, List.kerase_cons_ne (Ne.symm he)]
        split <;> rfl

/-! ### The representation invariant -/

/-- A table that has been initialised, each entry of which lies in the bucket of its key, and no
chain of which holds a key twice. -/
structure HashTable.WellFormed (ht : HashTable H) : Prop where
  init : ht.buckets.isSome
  placed : ∀ b, ∀ e ∈ ht.chain b, H.kvBucket e.1 = b
  nodupKeys : ∀ b, (ht.chain b).NodupKeys

theorem HashTable.WellFormed.buckets_eq {ht : HashTable H} (h : ht.WellFormed) :
    ht.buckets = some ht.chain := by
  obtain ⟨bs, hbs⟩ := Option.isSome_iff_exists.1 h.init
  have hchain : ht.chain = bs := by
    funext b
    simp [HashTable.chain, hbs]
  rw [hbs, hchain]

@[simp] theorem HashTable.chain_mk (bs : Fin H.n → Chain) (b : Fin H.n) :
    (HashTable.mk (some bs) : HashTable H).chain b = bs b := rfl

/-- No key occurs twice in the whole table. -/
theorem HashTable.WellFormed.nodupKeys_entries {ht : HashTable H} (h : ht.WellFormed) :
    ht.entries.NodupKeys := by
  rw [HashTable.entries, List.flatMap_def, List.nodupKeys_flatten]
  refine ⟨?_, ?_⟩
  · intro chain hchain
    obtain ⟨b, -, rfl⟩ := List.mem_map.1 hchain
    exact h.nodupKeys b
  · rw [List.pairwise_map, List.pairwise_map]
    refine (List.nodup_finRange H.n).imp ?_
    intro b b' hbb key hkey hkey'
    obtain ⟨v, hv⟩ := List.exists_of_mem_keys hkey
    obtain ⟨v', hv'⟩ := List.exists_of_mem_keys hkey'
    exact hbb ((h.placed b ⟨key, v⟩ hv).symm.trans (h.placed b' ⟨key, v'⟩ hv'))

/-- An entry of the table is found under its key. -/
theorem HashTable.WellFormed.mem_entries {ht : HashTable H} (h : ht.WellFormed)
    {e : KvHashEntry} : e ∈ ht.entries ↔ ht.get e.1 = some e.2 := by
  rw [HashTable.entries, List.mem_flatMap, HashTable.get, ← Option.mem_def,
    List.mem_dlookup_iff (h.nodupKeys _)]
  constructor
  · rintro ⟨b, -, hb⟩
    rw [h.placed b e hb]
    exact hb
  · intro he
    exact ⟨_, List.mem_finRange _, he⟩

/-- The freshly initialised table. -/
theorem wellFormed_kvHashInit (H : HashFn) : (kvHashInit H true true).2.WellFormed where
  init := rfl
  placed := by simp [kvHashInit]
  nodupKeys := by simp [kvHashInit]

@[simp] theorem get_kvHashInit (H : HashFn) (b₁ b₂ : Bool) (key : HashKey) :
    (kvHashInit H b₁ b₂).2.get key = none := by
  cases b₁ <;> cases b₂ <;> rfl

/-- A table with one chain exchanged is well formed when the new chain is. -/
theorem HashTable.WellFormed.update {ht : HashTable H} (h : ht.WellFormed) {b : Fin H.n}
    {chain : Chain} (hplaced : ∀ e ∈ chain, H.kvBucket e.1 = b) (hnodup : chain.NodupKeys) :
    (HashTable.mk (some (Function.update ht.chain b chain)) : HashTable H).WellFormed where
  init := rfl
  placed := by
    intro b'
    by_cases hb : b' = b
    · subst hb
      simpa using hplaced
    · simpa [hb] using h.placed b'
  nodupKeys := by
    intro b'
    by_cases hb : b' = b
    · subst hb
      simpa using hnodup
    · simpa [hb] using h.nodupKeys b'

/-- Exchanging the chain of the bucket of `key` changes what is found under `key` alone, when the
new chain agrees with the old one on the other keys. -/
theorem HashTable.get_update {ht : HashTable H} {key : HashKey} {chain : Chain}
    {r : Option CStr}
    (hchain : ∀ k, chain.dlookup k = if k = key then r else (ht.chain (H.kvBucket key)).dlookup k)
    (k : HashKey) :
    (HashTable.mk (some (Function.update ht.chain (H.kvBucket key) chain)) : HashTable H).get k =
      if k = key then r else ht.get k := by
  rw [HashTable.get, HashTable.chain_mk]
  by_cases hb : H.kvBucket k = H.kvBucket key
  · rw [hb, Function.update_self, hchain k, HashTable.get, hb]
  · have hk : k ≠ key := fun h => hb (by rw [h])
    rw [Function.update_of_ne hb, if_neg hk, HashTable.get]

/-! ### `kv_hash_add` -/

/-- The allocations needed to put `key` into the table succeed: the copy of the value, and an
entry when the key is new. -/
def Alloc.admits (alloc : Alloc) (ht : HashTable H) (key : HashKey) : Bool :=
  alloc.kstrdup && ((ht.get key).isSome || alloc.kmalloc)

@[simp] theorem Alloc.admits_ok (ht : HashTable H) (key : HashKey) :
    Alloc.ok.admits ht key = true := by
  simp [Alloc.admits, Alloc.ok]

/-- What `kv_hash_add` does, by the three ways out of it: memory is short, the key is updated in
place, or a new entry goes to the head of its chain. -/
theorem kvHashAdd_cases {ht : HashTable H} (h : ht.WellFormed) (key : HashKey)
    (value : List UInt8) (alloc : Alloc) :
    (alloc.admits ht key = false ∧ kvHashAdd ht key value alloc = (-ENOMEM, ht)) ∨
    (∃ chain, alloc.admits ht key = true ∧
      updateExisting key (cstr value) (ht.chain (H.kvBucket key)) = some chain ∧
      kvHashAdd ht key value alloc =
        (0, ⟨some (Function.update ht.chain (H.kvBucket key) chain)⟩)) ∨
    (alloc.admits ht key = true ∧ ht.get key = none ∧
      kvHashAdd ht key value alloc =
        (0, ⟨some (Function.update ht.chain (H.kvBucket key)
          (⟨key, cstr value⟩ :: ht.chain (H.kvBucket key)))⟩)) := by
  have hget : (ht.get key).isSome ↔ key ∈ (ht.chain (H.kvBucket key)).keys := List.dlookup_isSome
  simp only [kvHashAdd, h.buckets_eq]
  cases hdup : alloc.kstrdup with
  | false => simp [Alloc.admits, hdup]
  | true =>
      cases hup : updateExisting key (cstr value) (ht.chain (H.kvBucket key)) with
      | some chain =>
          have hkey : key ∈ (ht.chain (H.kvBucket key)).keys := by
            by_contra hk
            rw [updateExisting_eq_none.2 hk] at hup
            simp at hup
          exact Or.inr (Or.inl ⟨chain, by simp [Alloc.admits, hdup, hget.2 hkey], rfl, by simp⟩)
      | none =>
          -- only a new entry needs the memory of `kmalloc`
          have hnone : ht.get key = none := List.dlookup_eq_none.2 (updateExisting_eq_none.1 hup)
          cases hmal : alloc.kmalloc with
          | false => simp [Alloc.admits, hdup, hmal, hnone]
          | true => exact Or.inr (Or.inr ⟨by simp [Alloc.admits, hdup, hmal], hnone, by simp⟩)

theorem wellFormed_kvHashAdd {ht : HashTable H} (h : ht.WellFormed) (key : HashKey)
    (value : List UInt8) (alloc : Alloc) : (kvHashAdd ht key value alloc).2.WellFormed := by
  obtain ⟨-, heq⟩ | ⟨chain, -, hup, heq⟩ | ⟨-, hnone, heq⟩ := kvHashAdd_cases h key value alloc
  · rw [heq]
    exact h
  · rw [heq]
    refine h.update ?_ ?_
    · intro e he
      have hmem : e.1 ∈ (ht.chain (H.kvBucket key)).keys :=
        keys_of_updateExisting hup ▸ List.mem_keys_of_mem he
      obtain ⟨v, hv⟩ := List.exists_of_mem_keys hmem
      exact h.placed _ ⟨e.1, v⟩ hv
    · rw [List.NodupKeys, keys_of_updateExisting hup]
      exact h.nodupKeys _
  · rw [heq]
    refine h.update ?_ ?_
    · intro e he
      rcases List.mem_cons.1 he with rfl | he
      · rfl
      · exact h.placed _ e he
    · exact List.nodupKeys_cons.2 ⟨List.dlookup_eq_none.1 hnone, h.nodupKeys _⟩

/-- `kv_hash_add` reports success exactly when memory was found. -/
theorem kvHashAdd_fst {ht : HashTable H} (h : ht.WellFormed) (key : HashKey)
    (value : List UInt8) (alloc : Alloc) :
    (kvHashAdd ht key value alloc).1 = if alloc.admits ht key then 0 else -ENOMEM := by
  obtain ⟨ha, heq⟩ | ⟨chain, ha, -, heq⟩ | ⟨ha, -, heq⟩ := kvHashAdd_cases h key value alloc <;>
    simp [heq, ha]

/-- `kv_hash_add` sets its key and no other. -/
theorem get_kvHashAdd {ht : HashTable H} (h : ht.WellFormed) (key : HashKey)
    (value : List UInt8) (alloc : Alloc) (k : HashKey) :
    (kvHashAdd ht key value alloc).2.get k =
      if alloc.admits ht key = true ∧ k = key then some (cstr value) else ht.get k := by
  obtain ⟨ha, heq⟩ | ⟨chain, ha, hup, heq⟩ | ⟨ha, hnone, heq⟩ := kvHashAdd_cases h key value alloc
  · simp [heq, ha]
  · rw [heq, HashTable.get_update (dlookup_of_updateExisting hup)]
    simp [ha]
  · rw [heq, HashTable.get_update (r := some (cstr value)) ?_]
    · simp [ha]
    · intro k'
      by_cases hk : k' = key
      · subst hk
        simp
      · rw [List.dlookup_cons_ne _ _ hk, if_neg hk]

/-! ### `kv_hash_remove` -/

/-- What `kv_hash_remove` does: its key is absent, or its entry is unlinked. -/
theorem kvHashRemove_cases {ht : HashTable H} (h : ht.WellFormed) (key : HashKey) :
    (ht.get key = none ∧ kvHashRemove ht key = (-ENOENT, ht)) ∨
    ((ht.get key).isSome ∧ kvHashRemove ht key = (0, ⟨some (Function.update ht.chain
      (H.kvBucket key) ((ht.chain (H.kvBucket key)).kerase key))⟩)) := by
  simp only [kvHashRemove, h.buckets_eq, unlink_eq]
  by_cases hk : key ∈ (ht.chain (H.kvBucket key)).keys
  · exact Or.inr ⟨List.dlookup_isSome.2 hk, by simp [hk]⟩
  · exact Or.inl ⟨List.dlookup_eq_none.2 hk, by simp [hk]⟩

theorem wellFormed_kvHashRemove {ht : HashTable H} (h : ht.WellFormed) (key : HashKey) :
    (kvHashRemove ht key).2.WellFormed := by
  obtain ⟨-, heq⟩ | ⟨-, heq⟩ := kvHashRemove_cases h key
  · rw [heq]
    exact h
  · rw [heq]
    refine h.update ?_ ((h.nodupKeys _).kerase key)
    intro e he
    exact h.placed _ e ((List.kerase_sublist key _).subset he)

/-- `kv_hash_remove` reports success exactly when its key was present. -/
theorem kvHashRemove_fst {ht : HashTable H} (h : ht.WellFormed) (key : HashKey) :
    (kvHashRemove ht key).1 = if (ht.get key).isSome then 0 else -ENOENT := by
  obtain ⟨hk, heq⟩ | ⟨hk, heq⟩ := kvHashRemove_cases h key <;> simp [heq, hk]

/-- `kv_hash_remove` of an absent key leaves the table alone. -/
theorem kvHashRemove_snd_of_none {ht : HashTable H} (h : ht.WellFormed) {key : HashKey}
    (hk : ht.get key = none) : (kvHashRemove ht key).2 = ht := by
  obtain ⟨-, heq⟩ | ⟨hk', -⟩ := kvHashRemove_cases h key
  · rw [heq]
  · simp [hk] at hk'

/-- `kv_hash_remove` erases its key and no other. -/
theorem get_kvHashRemove {ht : HashTable H} (h : ht.WellFormed) (key k : HashKey) :
    (kvHashRemove ht key).2.get k = if k = key then none else ht.get k := by
  obtain ⟨hk, heq⟩ | ⟨-, heq⟩ := kvHashRemove_cases h key
  · rw [heq]
    split
    · rename_i hkk
      rw [hkk, hk]
    · rfl
  · rw [heq, HashTable.get_update]
    intro k'
    by_cases hkk : k' = key
    · subst hkk
      rw [if_pos rfl, List.dlookup_kerase _ (h.nodupKeys _)]
    · rw [if_neg hkk, List.dlookup_kerase_ne hkk]

/-! ### `kv_hash_lookup` -/

/-- `kv_hash_lookup`, in terms of what the table holds under the key. -/
theorem kvHashLookup_eq {ht : HashTable H} (h : ht.WellFormed) (key : HashKey) {n : ℕ}
    (outBuf : Buf n) :
    kvHashLookup ht key outBuf =
      if n = 0 then (-EINVAL, outBuf)
      else
        match ht.get key with
        | some value =>
            if value.1.length + 1 > n then (-ENOSPC, outBuf)
            else (value.1.length, memcpy outBuf (value.1 ++ [0]))
        | none => (-ENOENT, outBuf) := by
  simp only [kvHashLookup, h.buckets_eq]
  rfl

/-! ### Stores -/

/-- A well-formed table: what the module's `kv_store` is once it has been initialised. -/
abbrev Store (H : HashFn) := { ht : HashTable H // ht.WellFormed }

namespace Store

/-- The value the store holds under `key`. -/
def get (s : Store H) (key : HashKey) : Option CStr := s.1.get key

/-- The freshly initialised store. -/
def init (H : HashFn) : Store H := ⟨(kvHashInit H true true).2, wellFormed_kvHashInit H⟩

@[simp] theorem get_init (key : HashKey) : (init H).get key = none := get_kvHashInit H true true key

/-- `kv_hash_add` on a store. -/
def add (s : Store H) (key : HashKey) (value : List UInt8) (alloc : Alloc) : ℤ × Store H :=
  ((kvHashAdd s.1 key value alloc).1, ⟨_, wellFormed_kvHashAdd s.2 key value alloc⟩)

/-- `kv_hash_remove` on a store. -/
def remove (s : Store H) (key : HashKey) : ℤ × Store H :=
  ((kvHashRemove s.1 key).1, ⟨_, wellFormed_kvHashRemove s.2 key⟩)

end Store

end KvHash
