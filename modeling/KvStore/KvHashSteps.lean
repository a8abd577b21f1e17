/-
**The hash table as a shared object: its atomic steps, and the scans made of them.**

Every access of `kernel/kv_hash.c` to a chain happens under the lock of its bucket.  Seen from
another thread, `kv_hash_lookup`, `kv_hash_add` and `kv_hash_remove` are therefore single steps,
while `kv_hash_count` and `kv_hash_snapshot`, which lock one bucket after the other, are loops with
one step per bucket.  This module names the steps, so that everything built on the table can be run
alone or interleaved (`KvStore/Prog.lean`), and models the two scans.

Main definitions:

* `KvHash.Op`, `KvHash.Res`, `KvHash.exec` — the atomic steps, their answers and their effect;
* `KvHash.Kernel` — programs over these steps;
* `KvHash.kvHashCount`, `KvHash.kvHashSnapshot` — the two scans.

Main results:

* `KvHash.get_exec_of_not_writes` — a step changes no key but its own;
* `KvHash.run_kvHashCount` — on a table at rest the count is the number of entries, *as a 32-bit
  signed integer*;
* `KvHash.copyChain_filled`, `KvHash.run_kvHashSnapshot` — on a table at rest the snapshot is the
  first `max_entries` entries of the table, bucket after bucket.
-/

import KvStore.KvHash
import KvStore.KvMessage
import KvStore.Prog

set_option relaxedAutoImplicit false
set_option autoImplicit false

namespace KvHash

open CMem Interleave KvIoctl

variable {H : HashFn}

/-! ### The atomic steps -/

/-- An atomic step on the table: one of the one-bucket operations, or a visit of one bucket by a
scan. -/
inductive Op (H : HashFn) : Type
  | lookup (key : HashKey) (outBuf : Buf MAX_VALUE_LEN)
  | add (key : HashKey) (value : List UInt8)
  | remove (key : HashKey)
  | visit (b : Fin H.n)
deriving DecidableEq

/-- What a step answers: return codes, the output buffer of a lookup, the chain a scan walks. -/
abbrev Res : Op H → Type
  | .lookup _ _ => ℤ × Buf MAX_VALUE_LEN
  | .add _ _ => ℤ
  | .remove _ => ℤ
  | .visit _ => Chain

/-- The effect of a step on the store, with the outcomes of the allocations it makes. -/
def exec (alloc : Alloc) : (op : Op H) → Store H → Res op × Store H
  | .lookup key outBuf, s => (kvHashLookup s.1 key outBuf, s)
  | .add key value, s => s.add key value alloc
  | .remove key, s => s.remove key
  | .visit b, s => (s.1.chain b, s)

/-- Programs over the steps. -/
abbrev Kernel (H : HashFn) (α : Type) := Prog (Op H) Res α

/-- The steps that may change what the table holds under `key`. -/
def Op.Writes (key : HashKey) : Op H → Prop
  | .lookup _ _ => False
  | .add k _ => k = key
  | .remove k => k = key
  | .visit _ => False

/-- The visits of a bucket by a scan. -/
def Op.Visits : Op H → Prop
  | .visit _ => True
  | _ => False

/-! ### What the steps do -/

namespace Store

theorem add_fst (s : Store H) (key : HashKey) (value : List UInt8) (alloc : Alloc) :
    (s.add key value alloc).1 = if alloc.admits s.1 key then 0 else -ENOMEM :=
  kvHashAdd_fst s.2 key value alloc

/-- What is added depends on the string that the pointer denotes, not on the bytes behind it. -/
theorem add_congr (s : Store H) (key : HashKey) {value value' : List UInt8}
    (h : cstr value = cstr value') (alloc : Alloc) :
    s.add key value alloc = s.add key value' alloc := by
  have hht : kvHashAdd s.1 key value alloc = kvHashAdd s.1 key value' alloc := by
    simp only [kvHashAdd, h]
  rw [add, add, Prod.mk.injEq, Subtype.mk.injEq]
  exact ⟨congrArg Prod.fst hht, congrArg Prod.snd hht⟩

theorem get_add (s : Store H) (key : HashKey) (value : List UInt8) (alloc : Alloc)
    (k : HashKey) : (s.add key value alloc).2.get k =
      if alloc.admits s.1 key = true ∧ k = key then some (cstr value) else s.get k :=
  get_kvHashAdd s.2 key value alloc k

theorem remove_fst (s : Store H) (key : HashKey) :
    (s.remove key).1 = if (s.get key).isSome then 0 else -ENOENT :=
  kvHashRemove_fst s.2 key

theorem get_remove (s : Store H) (key k : HashKey) :
    (s.remove key).2.get k = if k = key then none else s.get k :=
  get_kvHashRemove s.2 key k

/-- A lookup into a message's value field. -/
theorem lookup_eq (s : Store H) (key : HashKey) (outBuf : Buf MAX_VALUE_LEN) :
    kvHashLookup s.1 key outBuf =
      match s.get key with
      | some value =>
          if value.1.length < MAX_VALUE_LEN then
            ((value.1.length : ℤ), memcpy outBuf (value.1 ++ [0]))
          else (-ENOSPC, outBuf)
      | none => (-ENOENT, outBuf) := by
  rw [kvHashLookup_eq s.2, if_neg (by decide : ¬ MAX_VALUE_LEN = 0), get]
  cases hk : s.1.get key with
  | none => rfl
  | some v =>
      by_cases hlen : v.1.length < MAX_VALUE_LEN
      · have hgt : ¬ v.1.length + 1 > MAX_VALUE_LEN := by omega
        simp only [if_pos hlen, if_neg hgt]
      · have hgt : v.1.length + 1 > MAX_VALUE_LEN := by omega
        simp only [if_neg hlen, if_pos hgt]

/-- The handlers take a key for present when its value is found and fits into a message. -/
def found (s : Store H) (key : HashKey) : Bool :=
  match s.get key with
  | some value => decide (value.1.length < MAX_VALUE_LEN)
  | none => false

theorem lookup_nonneg_iff (s : Store H) (key : HashKey) (outBuf : Buf MAX_VALUE_LEN) :
    0 ≤ (kvHashLookup s.1 key outBuf).1 ↔ s.found key = true := by
  rw [lookup_eq, found]
  cases hk : s.get key with
  | none => simp
  | some v =>
      by_cases hlen : v.1.length < MAX_VALUE_LEN
      · simp [hlen]
      · simp only [if_neg hlen, decide_eq_false hlen]
        decide

theorem lookup_neg_iff (s : Store H) (key : HashKey) (outBuf : Buf MAX_VALUE_LEN) :
    (kvHashLookup s.1 key outBuf).1 < 0 ↔ s.found key = false := by
  have h := s.lookup_nonneg_iff key outBuf
  rw [← not_le, h, Bool.not_eq_true]

theorem get_ne_none_of_found {s : Store H} {key : HashKey} (h : s.found key = true) :
    s.get key ≠ none := by
  intro hnone
  rw [found, hnone] at h
  exact Bool.false_ne_true h

end Store

/-- A step changes nothing under a key it does not write. -/
theorem get_exec_of_not_writes {alloc : Alloc} {op : Op H} {key : HashKey}
    (h : ¬ op.Writes key) (s : Store H) : (exec alloc op s).2.get key = s.get key := by
  cases op with
  | lookup k outBuf => rfl
  | add k value =>
      have hne : key ≠ k := fun hk => h hk.symm
      rw [exec, Store.get_add, if_neg fun hc => hne hc.2]
  | remove k =>
      have hne : key ≠ k := fun hk => h hk.symm
      rw [exec, Store.get_remove, if_neg hne]
  | visit b => rfl

/-- A program of visits leaves the store as it is. -/
theorem run_snd_of_visits {α : Type} {p : Kernel H α} (hp : p.Uses Op.Visits) (alloc : Alloc)
    (s : Store H) : (p.run (exec alloc) s).2 = s := by
  refine Prog.run_frame (exec alloc) hp (fun t => t = s) ?_ rfl
  intro op hop t ht
  cases op with
  | visit b => exact ht
  | _ => exact hop.elim

/-! ### Counting -/

/-- The inner loop of `kv_hash_count`: one increment of the `int` counter per entry. -/
def countChain (count : Int32) : Chain → Int32
  | [] => count
  | _ :: chain => countChain (count + 1) chain

/-- The outer loop of `kv_hash_count`, from the first of the remaining buckets on. -/
def countLoop : List (Fin H.n) → Int32 → Kernel H Int32
  | [], count => .ret count
  | b :: bs, count => .call (.visit b) fun chain => countLoop bs (countChain count chain)

/-- `kv_hash_count`. -/
def kvHashCount : Kernel H Int32 := countLoop (List.finRange H.n) 0

theorem uses_countLoop (bs : List (Fin H.n)) (count : Int32) :
    (countLoop bs count).Uses Op.Visits := by
  induction bs generalizing count with
  | nil => trivial
  | cons b bs ih => exact ⟨trivial, fun chain => ih _⟩

theorem countChain_ofNat (n : ℕ) (chain : Chain) :
    countChain (Int32.ofNat n) chain = Int32.ofNat (n + chain.length) := by
  induction chain generalizing n with
  | nil => rfl
  | cons e chain ih =>
      have hsucc : Int32.ofNat n + 1 = Int32.ofNat (n + 1) := (Int32.ofNat_add n 1).symm
      rw [countChain, hsucc, ih, List.length_cons]
      congr 1
      omega

theorem run_countLoop (alloc : Alloc) (s : Store H) (bs : List (Fin H.n)) (n : ℕ) :
    (countLoop bs (Int32.ofNat n)).run (exec alloc) s =
      (Int32.ofNat (n + (bs.flatMap s.1.chain).length), s) := by
  induction bs generalizing n with
  | nil => rfl
  | cons b bs ih =>
      have hstep : (countLoop (b :: bs) (Int32.ofNat n)).run (exec alloc) s =
          (countLoop bs (countChain (Int32.ofNat n) (s.1.chain b))).run (exec alloc) s := rfl
      rw [hstep, countChain_ofNat, ih, List.flatMap_cons, List.length_append, Nat.add_assoc]

/-- On a table at rest `kv_hash_count` is the number of entries, wrapped to 32 bits. -/
theorem run_kvHashCount (alloc : Alloc) (s : Store H) :
    (kvHashCount : Kernel H Int32).run (exec alloc) s = (Int32.ofNat s.1.entries.length, s) := by
  have h := run_countLoop alloc s (List.finRange H.n) 0
  rw [Nat.zero_add] at h
  exact h

/-! ### Copying -/

/-- What `kv_hash_snapshot` writes into a slot of the output array.  The padding of the slot is not
written. -/
def copyEntry (e : KvHashEntry) (slot : KvMessage) : KvMessage :=
  { slot with status := 0, key := e.1, value := strscpy (zeros MAX_VALUE_LEN) e.2 }

/-- The inner loop of `kv_hash_snapshot`: whether the array is full, the counter, the array. -/
def copyChain (maxEntries : ℕ) : Chain → ℕ → List KvMessage → Bool × ℕ × List KvMessage
  | [], count, entries => (false, count, entries)
  | e :: chain, count, entries =>
      if count ≥ maxEntries then (true, count, entries)
      else copyChain maxEntries chain (count + 1) (entries.modify count (copyEntry e))

/-- The outer loop of `kv_hash_snapshot`, from the first of the remaining buckets on. -/
def copyLoop (maxEntries : ℕ) :
    List (Fin H.n) → ℕ → List KvMessage → Kernel H (ℤ × ℕ × List KvMessage)
  | [], count, entries => .ret (0, count, entries)
  | b :: bs, count, entries => .call (.visit b) fun chain =>
      match copyChain maxEntries chain count entries with
      | (true, count, entries) => .ret (0, count, entries)
      | (false, count, entries) => copyLoop maxEntries bs count entries

/-- `kv_hash_snapshot` into the array `entries`: the return code, `*out_count` (which is not set
when the call is refused) and the array. -/
def kvHashSnapshot (entries : List KvMessage) (maxEntries : ℕ) :
    Kernel H (ℤ × ℕ × List KvMessage) :=
  if maxEntries = 0 then .ret (-EINVAL, 0, entries)
  else copyLoop maxEntries (List.finRange H.n) 0 entries

theorem uses_copyLoop (maxEntries : ℕ) (bs : List (Fin H.n)) (count : ℕ)
    (entries : List KvMessage) : (copyLoop maxEntries bs count entries).Uses Op.Visits := by
  induction bs generalizing count entries with
  | nil => trivial
  | cons b bs ih =>
      refine ⟨trivial, fun chain => ?_⟩
      dsimp only
      split
      · trivial
      · exact ih _ _

theorem within_copyLoop (maxEntries : ℕ) (bs : List (Fin H.n)) (count : ℕ)
    (entries : List KvMessage) : (copyLoop maxEntries bs count entries).Within bs.length := by
  induction bs generalizing count entries with
  | nil => trivial
  | cons b bs ih =>
      intro chain
      dsimp only
      split
      · trivial
      · exact ih _ _

theorem within_kvHashSnapshot (entries : List KvMessage) (maxEntries : ℕ) :
    (kvHashSnapshot entries maxEntries : Kernel H (ℤ × ℕ × List KvMessage)).Within H.n := by
  rw [kvHashSnapshot]
  split
  · trivial
  · have h := within_copyLoop maxEntries (List.finRange H.n) 0 entries
    rwa [List.length_finRange] at h

theorem uses_kvHashSnapshot (entries : List KvMessage) (maxEntries : ℕ) :
    (kvHashSnapshot entries maxEntries : Kernel H (ℤ × ℕ × List KvMessage)).Uses Op.Visits := by
  rw [kvHashSnapshot]
  split
  · trivial
  · exact uses_copyLoop ..

/-- The outer loop ends where the array is full. -/
theorem run_copyLoop_of_full (alloc : Alloc) {s : Store H} {maxEntries count count' : ℕ}
    {entries entries' : List KvMessage} {b : Fin H.n} (bs : List (Fin H.n))
    (h : copyChain maxEntries (s.1.chain b) count entries = (true, count', entries')) :
    (copyLoop maxEntries (b :: bs) count entries).run (exec alloc) s = ((0, count', entries'), s) := by
  simp only [copyLoop, Prog.run_call, exec, h, Prog.run_ret]

/-- The outer loop goes on where there is room. -/
theorem run_copyLoop_of_room (alloc : Alloc) {s : Store H} {maxEntries count count' : ℕ}
    {entries entries' : List KvMessage} {b : Fin H.n} (bs : List (Fin H.n))
    (h : copyChain maxEntries (s.1.chain b) count entries = (false, count', entries')) :
    (copyLoop maxEntries (b :: bs) count entries).run (exec alloc) s =
      (copyLoop maxEntries bs count' entries').run (exec alloc) s := by
  simp only [copyLoop, Prog.run_call, exec, h]

/-- The array with the entries `done` copied into its first slots. -/
def filled (slots : List KvMessage) (done : Chain) : List KvMessage :=
  List.zipWith copyEntry done slots ++ slots.drop done.length

@[simp] theorem filled_nil (slots : List KvMessage) : filled slots [] = slots := rfl

/-- The slots written so far. -/
theorem take_filled {slots : List KvMessage} {done : Chain} (h : done.length ≤ slots.length) :
    (filled slots done).take done.length = List.zipWith copyEntry done slots := by
  have hlen : (List.zipWith copyEntry done slots).length = done.length := by
    rw [List.length_zipWith]
    omega
  exact List.take_left' hlen

/-- What a message says: its key, and the string in its value field. -/
def entryOf (m : KvMessage) : KvHashEntry := ⟨m.key, cstr m.value.1⟩

theorem mem_map_entryOf_iff {ms : List KvMessage} {key : HashKey} {v : CStr} :
    (⟨key, v⟩ : KvHashEntry) ∈ ms.map entryOf ↔ ∃ m ∈ ms, m.key = key ∧ cstr m.value.1 = v := by
  rw [List.mem_map]
  constructor
  · rintro ⟨m, hm, heq⟩
    exact ⟨m, hm, congrArg Sigma.fst heq, eq_of_heq (Sigma.mk.inj heq).2⟩
  · rintro ⟨m, hm, rfl, rfl⟩
    exact ⟨m, hm, rfl⟩

/-- What a slot shows: all of it but the padding. -/
def fields (m : KvMessage) : Int32 × HashKey × Buf MAX_VALUE_LEN := (m.status, m.key, m.value)

/-- What the slots written so far show. -/
theorem map_fields_zipWith {slots : List KvMessage} {done : Chain}
    (h : done.length ≤ slots.length) :
    (List.zipWith copyEntry done slots).map fields =
      done.map fun e => (0, e.1, strscpy (zeros MAX_VALUE_LEN) e.2) := by
  induction done generalizing slots with
  | nil => rfl
  | cons e done ih =>
      cases slots with
      | nil => simp at h
      | cons slot slots =>
          have hrec := @ih slots (by simpa using h)
          rw [List.zipWith_cons_cons, List.map_cons, List.map_cons, hrec]
          rfl

/-- The slots written so far say what the entries are, up to the first 63 bytes of each value. -/
theorem map_entryOf_zipWith {slots : List KvMessage} {done : Chain}
    (h : done.length ≤ slots.length) :
    (List.zipWith copyEntry done slots).map entryOf =
      done.map fun e => ⟨e.1, e.2.truncate 63⟩ := by
  have hfields := congrArg
    (List.map fun f : Int32 × HashKey × Buf MAX_VALUE_LEN => (⟨f.2.1, cstr f.2.2.1⟩ : KvHashEntry))
    (map_fields_zipWith h)
  rw [List.map_map, List.map_map] at hfields
  refine hfields.trans (List.map_congr_left ?_)
  intro e _
  exact congrArg (Sigma.mk e.1) (cstr_strscpy_zeros e.2)

theorem length_filled {slots : List KvMessage} {done : Chain} (h : done.length ≤ slots.length) :
    (filled slots done).length = slots.length := by
  rw [filled, List.length_append, List.length_zipWith, List.length_drop]
  omega

/-- The keys of the slots written. -/
theorem map_key_zipWith {slots : List KvMessage} {done : Chain} (h : done.length ≤ slots.length) :
    (List.zipWith copyEntry done slots).map (·.key) = done.keys := by
  have hkeys := congrArg (List.map fun f : Int32 × HashKey × Buf MAX_VALUE_LEN => f.2.1)
    (map_fields_zipWith h)
  rwa [List.map_map, List.map_map] at hkeys

/-- A slot written shows one of the entries. -/
theorem exists_entry_of_mem_zipWith {slots : List KvMessage} {done : Chain}
    (h : done.length ≤ slots.length) {m : KvMessage}
    (hm : m ∈ List.zipWith copyEntry done slots) :
    ∃ e ∈ done, m.key = e.1 ∧ m.value.1 = (e.2.1.take 63).rightpad 64 0 := by
  have hfield := List.mem_map_of_mem (f := fields) hm
  rw [map_fields_zipWith h] at hfield
  obtain ⟨e, he, heq⟩ := List.mem_map.1 hfield
  obtain ⟨hkey, hvalue⟩ := Prod.mk.inj (Prod.mk.inj heq).2
  refine ⟨e, he, hkey.symm, ?_⟩
  rw [← hvalue]
  exact val_strscpy_zeros e.2

/-- Each of the entries is shown by a slot written. -/
theorem exists_slot_of_mem {slots : List KvMessage} {done : Chain}
    (h : done.length ≤ slots.length) {e : KvHashEntry} (he : e ∈ done) :
    ∃ m ∈ List.zipWith copyEntry done slots,
      m.key = e.1 ∧ m.value.1 = (e.2.1.take 63).rightpad 64 0 := by
  have hfield := List.mem_map_of_mem
    (f := fun e : KvHashEntry => ((0 : Int32), e.1, strscpy (zeros MAX_VALUE_LEN) e.2)) he
  rw [← map_fields_zipWith h] at hfield
  obtain ⟨m, hm, heq⟩ := List.mem_map.1 hfield
  obtain ⟨hkey, hvalue⟩ := Prod.mk.inj (Prod.mk.inj heq).2
  refine ⟨m, hm, hkey, ?_⟩
  rw [hvalue]
  exact val_strscpy_zeros e.2

theorem filled_modify {slots : List KvMessage} {done : Chain} (h : done.length < slots.length)
    (e : KvHashEntry) :
    (filled slots done).modify done.length (copyEntry e) = filled slots (done ++ [e]) := by
  induction done generalizing slots with
  | nil =>
      cases slots with
      | nil => simp at h
      | cons slot slots => rfl
  | cons d done ih =>
      cases slots with
      | nil => simp at h
      | cons slot slots =>
          have hrec := @ih slots (by simpa using h)
          simp only [filled, List.zipWith_cons_cons, List.length_cons, List.drop_succ_cons,
            List.cons_append, List.modify_succ_cons] at hrec ⊢
          rw [hrec]

/-- The inner loop, with the entries copied so far as the accumulator: it copies on while there is
room. -/
theorem copyChain_filled {slots : List KvMessage} (chain done : Chain)
    (h : done.length ≤ slots.length) :
    copyChain slots.length chain done.length (filled slots done) =
      (decide (slots.length < done.length + chain.length),
        ((done ++ chain).take slots.length).length,
        filled slots ((done ++ chain).take slots.length)) := by
  induction chain generalizing done with
  | nil => simp [copyChain, List.take_of_length_le h, h]
  | cons e chain ih =>
      by_cases hfull : done.length ≥ slots.length
      · have hlen : done.length = slots.length := by omega
        have htake : (done ++ e :: chain).take slots.length = done := by
          rw [← hlen]
          exact List.take_left' rfl
        rw [copyChain, if_pos hfull, htake]
        simp [hlen]
      · have hlt : done.length < slots.length := by omega
        have hrec := ih (done ++ [e]) (by simp; omega)
        rw [copyChain, if_neg hfull, filled_modify hlt]
        rw [List.length_append, List.length_singleton, List.append_assoc] at hrec
        rw [hrec, List.length_cons]
        simp only [List.singleton_append]
        congr 2
        simp only [eq_iff_iff]
        omega

/-- One visit of the outer loop: it ends the loop when the chain does not fit. -/
theorem step_copyLoop (alloc : Alloc) (s : Store H) {slots : List KvMessage} (b : Fin H.n)
    (bs : List (Fin H.n)) {done : Chain} (h : done.length ≤ slots.length) :
    (copyLoop slots.length (b :: bs) done.length (filled slots done)).step (exec alloc) s =
      (if slots.length < done.length + (s.1.chain b).length then
        .ret (0, ((done ++ s.1.chain b).take slots.length).length,
          filled slots ((done ++ s.1.chain b).take slots.length))
      else copyLoop slots.length bs (done ++ s.1.chain b).length
        (filled slots (done ++ s.1.chain b)), s) := by
  have hcopy := copyChain_filled (s.1.chain b) done h
  by_cases hfull : slots.length < done.length + (s.1.chain b).length
  · rw [decide_eq_true hfull] at hcopy
    simp only [copyLoop, Prog.step_call, exec, hcopy, if_pos hfull]
  · have htake : (done ++ s.1.chain b).take slots.length = done ++ s.1.chain b :=
      List.take_of_length_le (by rw [List.length_append]; omega)
    rw [decide_eq_false hfull, htake] at hcopy
    simp only [copyLoop, Prog.step_call, exec, hcopy, if_neg hfull]

theorem run_copyLoop (alloc : Alloc) (s : Store H) {slots : List KvMessage}
    (bs : List (Fin H.n)) (done : Chain) (h : done.length ≤ slots.length) :
    (copyLoop slots.length bs done.length (filled slots done)).run (exec alloc) s =
      ((0, ((done ++ bs.flatMap s.1.chain).take slots.length).length,
        filled slots ((done ++ bs.flatMap s.1.chain).take slots.length)), s) := by
  induction bs generalizing done with
  | nil => simp [copyLoop, List.take_of_length_le h]
  | cons b bs ih =>
      rw [← Prog.run_step, step_copyLoop alloc s b bs h, List.flatMap_cons, ← List.append_assoc]
      by_cases hfull : slots.length < done.length + (s.1.chain b).length
      · have htake : ((done ++ s.1.chain b) ++ bs.flatMap s.1.chain).take slots.length =
            (done ++ s.1.chain b).take slots.length :=
          List.take_append_of_le_length (by rw [List.length_append]; omega)
        rw [if_pos hfull, htake, Prog.run_ret]
      · rw [if_neg hfull]
        exact ih (done ++ s.1.chain b) (by rw [List.length_append]; omega)

/-- On a table at rest `kv_hash_snapshot` copies the first `max_entries` entries of the table. -/
theorem run_kvHashSnapshot (alloc : Alloc) (s : Store H) {slots : List KvMessage}
    (h : slots.length ≠ 0) :
    (kvHashSnapshot slots slots.length).run (exec alloc) s =
      ((0, (s.1.entries.take slots.length).length,
        filled slots (s.1.entries.take slots.length)), s) := by
  rw [kvHashSnapshot, if_neg h]
  exact run_copyLoop alloc s (List.finRange H.n) [] (Nat.zero_le _)

end KvHash
