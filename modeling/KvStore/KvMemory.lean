/-
**The hash table in memory.**

`KvStore/KvHash.lean` treats a table as a function from buckets to chains.  This module is about what
`kernel/kv_hash.c` does to the memory: every access to the structure, to the two arrays and to the
entries, every allocation, every `kfree`, and every lock and unlock is an instruction of its own, in the
order of the code.  So one can say of a call which blocks it uses and when, and what it holds meanwhile.

A call reads the structure once: nothing changes it meanwhile.  The fields of the blocks are functions of
the address of the block, so that a block that is not live still has the contents it had: reading it is
possible, and wrong.  An allocator may hand out any block
that is not live, or fail; the call is told what it does.  An array that has just been allocated has
arbitrary contents, and none of its heads and locks has been initialised.

The walks over a chain follow its pointers.  They are given a number of entries as fuel, and are not
followed beyond it: then the call has not returned (`none`).  `hlist_add_head` and `hlist_del` are those
of the kernel, with what they write into the links of a deleted entry.

Main definitions:

* `KvMemory.Memory`, `KvMemory.Instr`, `KvMemory.exec` — the memory and the instructions;
* `KvMemory.kvHashInit`, `KvMemory.kvHashDestroy`, `KvMemory.kvHashAdd`, `KvMemory.kvHashRemove`,
  `KvMemory.kvHashLookup`, `KvMemory.kvHashCount`, `KvMemory.kvHashSnapshot` — the functions of
  `kernel/kv_hash.c`;
* `KvMemory.Call` — a call of one of the last five;
* `KvMemory.Safe`, `KvMemory.Ready`, `KvMemory.Guarded` — an instruction uses live blocks, heads and locks
  that have been initialised, and entries whose bucket is locked;
* `KvMemory.Quiet` — code that makes no allocation that may sleep.
-/

import KvStore.Blocks
import KvStore.Hlist
import KvStore.KvHashSteps

set_option relaxedAutoImplicit false
set_option autoImplicit false

namespace KvMemory

open CMem KvHash KvIoctl Interleave

/-! ### Memory -/

/-- The address of a block. -/
abbrev Addr := ℕ

/-- A pointer, `none` for `NULL`. -/
abbrev Ptr := Option Addr

/-- A place in memory that holds a pointer into a chain: the head of a bucket of an array, or the `next`
field of an entry. -/
abbrev Place := Hlist.Slot (Ptr × ℕ) Addr

/-- `struct hash_table`. -/
structure Table where
  buckets : Ptr
  bucketLocks : Ptr
  bits : ℕ
deriving DecidableEq

/-- The structure when it has been cleared. -/
def Table.zero : Table := ⟨none, none, 0⟩

/-- The memory that the hash table uses. -/
structure Memory where
  /-- the structure itself, a static variable of the module -/
  table : Table
  /-- the blocks that have been allocated and not been freed since -/
  live : Finset Addr
  /-- the heads of the buckets, and the `node` fields of the entries -/
  links : Hlist.Links (Ptr × ℕ) Addr
  /-- the `key` field of an entry -/
  key : Addr → HashKey
  /-- the `value` field of an entry -/
  value : Addr → Ptr
  /-- the string in a block -/
  string : Addr → CStr
  /-- the heads that have been initialised since their array was allocated -/
  headReady : Addr → ℕ → Bool
  /-- the locks that have been initialised since their array was allocated -/
  lockReady : Addr → ℕ → Bool
  /-- the buckets whose locks the call holds, the last one first -/
  held : List ℕ

/-- Memory is allocated, if the allocator has the block `p` to hand out. -/
def Memory.kmalloc (m : Memory) (p : Ptr) : Ptr × Memory :=
  let r := Blocks.alloc m.live p
  (r.1, { m with
    live := r.2
    headReady := fun a b => if r.1 = some a then false else m.headReady a b
    lockReady := fun a b => if r.1 = some a then false else m.lockReady a b })

theorem Memory.kmalloc_of_not_found {m : Memory} {p : Ptr} (h : ¬ Blocks.Found m.live p) :
    m.kmalloc p = (none, m) := by
  simp [kmalloc, Blocks.alloc_of_not_found h]

section Kmalloc

variable {m : Memory} {a : Addr}

theorem Memory.fst_kmalloc (ha : a ∉ m.live) : (m.kmalloc (some a)).1 = some a := by
  rw [kmalloc, Blocks.alloc_of_found ha]

theorem Memory.live_kmalloc (ha : a ∉ m.live) :
    (m.kmalloc (some a)).2.live = insert a m.live := by
  rw [kmalloc, Blocks.alloc_of_found ha]

/-- None of the heads in a new block has been initialised. -/
theorem Memory.headReady_kmalloc (ha : a ∉ m.live) (c : Addr) (b : ℕ) :
    (m.kmalloc (some a)).2.headReady c b = if c = a then false else m.headReady c b := by
  simp [kmalloc, Blocks.alloc_of_found ha, eq_comm]

/-- None of the locks in a new block has been initialised. -/
theorem Memory.lockReady_kmalloc (ha : a ∉ m.live) (c : Addr) (b : ℕ) :
    (m.kmalloc (some a)).2.lockReady c b = if c = a then false else m.lockReady c b := by
  simp [kmalloc, Blocks.alloc_of_found ha, eq_comm]

end Kmalloc

/-! ### Instructions -/

/-- What the code does to the memory, one access at a time. -/
inductive Instr
  | clearTable
  | table
  | setBuckets (p : Ptr)
  | setBucketLocks (p : Ptr)
  | setBits (bits : ℕ)
  | kmalloc (place : Ptr)
  | kstrdup (s : CStr) (place : Ptr)
  | kfree (p : Ptr)
  | initHead (buckets : Ptr) (b : ℕ)
  | initLock (locks : Ptr) (b : ℕ)
  | lock (locks : Ptr) (b : ℕ)
  | unlock (locks : Ptr) (b : ℕ)
  | load (s : Place)
  | store (s : Place) (p : Ptr)
  | pprev (e : Addr)
  | setPprev (e : Addr) (s : Place)
  | key (e : Addr)
  | setKey (e : Addr) (key : HashKey)
  | value (e : Addr)
  | setValue (e : Addr) (p : Ptr)
  | string (p : Ptr)
deriving DecidableEq

/-- What an instruction answers. -/
abbrev Res : Instr → Type
  | .table => Table
  | .kmalloc _ => Ptr
  | .kstrdup _ _ => Ptr
  | .load _ => Ptr
  | .pprev _ => Place
  | .key _ => HashKey
  | .value _ => Ptr
  | .string _ => CStr
  | _ => Unit

/-- The string that a pointer denotes. -/
def Memory.stringAt (m : Memory) (p : Ptr) : CStr := p.elim (cstr []) m.string

/-- The effect of an instruction.  One call is followed at a time, so that a lock is always free. -/
def exec : (i : Instr) → Memory → Res i × Memory
  | .clearTable, m => ((), { m with table := .zero })
  | .table, m => (m.table, m)
  | .setBuckets p, m => ((), { m with table := { m.table with buckets := p } })
  | .setBucketLocks p, m => ((), { m with table := { m.table with bucketLocks := p } })
  | .setBits bits, m => ((), { m with table := { m.table with bits := bits } })
  | .kmalloc p, m => m.kmalloc p
  | .kstrdup s p, m =>
      let r := m.kmalloc p
      (r.1, { r.2 with string := fun a => if r.1 = some a then s else m.string a })
  | .kfree p, m => ((), { m with live := Blocks.free m.live p })
  | .initHead p b, m => ((), { m with
      links := m.links.store (.head (p, b)) none
      headReady := fun a c => if p = some a ∧ c = b then true else m.headReady a c })
  | .initLock p b, m => ((), { m with
      lockReady := fun a c => if p = some a ∧ c = b then true else m.lockReady a c })
  | .lock _ b, m => ((), { m with held := b :: m.held })
  | .unlock _ b, m => ((), { m with held := m.held.erase b })
  | .load s, m => (m.links.slot s, m)
  | .store s p, m => ((), { m with links := m.links.store s p })
  | .pprev e, m => (m.links.pprev e, m)
  | .setPprev e s, m => ((), { m with links := m.links.storePprev e s })
  | .key e, m => (m.key e, m)
  | .setKey e key, m => ((), { m with key := Function.update m.key e key })
  | .value e, m => (m.value e, m)
  | .setValue e p, m => ((), { m with value := Function.update m.value e p })
  | .string p, m => (m.stringAt p, m)

theorem exec_kstrdup_of_not_found {m : Memory} {p : Ptr} (h : ¬ Blocks.Found m.live p) (s : CStr) :
    exec (.kstrdup s p) m = (none, m) := by
  simp [exec, Memory.kmalloc_of_not_found h]

theorem fst_kstrdup {m : Memory} {a : Addr} (ha : a ∉ m.live) (s : CStr) :
    (exec (.kstrdup s (some a)) m).1 = some a := Memory.fst_kmalloc ha

/-- The block that a place lies in. -/
def block : Place → Ptr
  | .head h => h.1
  | .next a => some a

/-- The pointer through which an instruction reads, writes or frees a block. -/
def Instr.uses : Instr → Option Ptr
  | .kfree p => p.map some
  | .initHead p _ | .initLock p _ | .string p => some p
  | .load s | .store s _ => some (block s)
  | .pprev e | .setPprev e _ | .key e | .setKey e _ | .value e | .setValue e _ => some (some e)
  | _ => none

/-- The head that an instruction reads or writes. -/
def Instr.headOf : Instr → Option (Ptr × ℕ)
  | .load (.head h) | .store (.head h) _ => some h
  | _ => none

/-- The lock that an instruction takes or gives back. -/
def Instr.lockOf : Instr → Option (Ptr × ℕ)
  | .lock p b | .unlock p b => some (p, b)
  | _ => none

/-- An allocation with `GFP_KERNEL`, which may sleep. -/
def Instr.Sleeps : Instr → Prop
  | .kmalloc _ | .kstrdup _ _ => True
  | _ => False

/-- The blocks that are used are live.  What `kstrdup` reads is the caller's, and no block of the module. -/
def Safe (m : Memory) (i : Instr) : Prop :=
  (∀ p, i.uses = some p → ∃ a ∈ m.live, p = some a) ∧
    ∀ p b, i.lockOf = some (p, b) → ∃ a ∈ m.live, p = some a

/-- The head of bucket `b` has been initialised. -/
def Memory.HeadReady (m : Memory) (p : Ptr) (b : ℕ) : Prop := ∃ a, p = some a ∧ m.headReady a b = true

/-- The lock of bucket `b` has been initialised. -/
def Memory.LockReady (m : Memory) (p : Ptr) (b : ℕ) : Prop := ∃ a, p = some a ∧ m.lockReady a b = true

/-- The heads and the locks that are used have been initialised. -/
def Ready (m : Memory) (i : Instr) : Prop :=
  (∀ p b, i.headOf = some (p, b) → m.HeadReady p b) ∧ ∀ p b, i.lockOf = some (p, b) → m.LockReady p b

/-- An entry, and the block of its value. -/
def Memory.own (m : Memory) (e : Addr) : List Addr := e :: (m.value e).toList

/-- The instruction reads or writes the head of bucket `b`, or a block of an entry that is found from
there. -/
def Touches (m : Memory) (b : ℕ) (i : Instr) : Prop :=
  i.headOf = some (m.table.buckets, b) ∨
    ∃ e, m.links.Reaches (.head (m.table.buckets, b)) e ∧ ∃ a ∈ m.own e, i.uses = some (some a)

/-- What belongs to the chain of one of the first `n` buckets is used while the lock of this bucket is held,
and no other. -/
def Guarded (n : ℕ) (m : Memory) (i : Instr) : Prop :=
  ∀ b < n, Touches m b i → m.held = [b]

/-- A lock is taken where none is held, and given back where it is the one that is held. -/
def Paired (m : Memory) : Instr → Prop
  | .lock _ _ => m.held = []
  | .unlock _ b => m.held = [b]
  | _ => True

/-- Code that works on the memory. -/
abbrev Code (α : Type) := Prog Instr Res α

/-- One instruction. -/
def instr (i : Instr) : Code (Res i) := .call i .ret

/-! ### The lists of the kernel -/

/-- `LIST_POISON1`. -/
def LIST_POISON1 : Ptr := some 0x100

/-- `LIST_POISON2`. -/
def LIST_POISON2 : Place := .next 0x122

/-- `if (next) next->pprev = pprev`. -/
def tell (next : Ptr) (pprev : Place) : Code Unit :=
  match next with
  | none => .ret ()
  | some e => instr (.setPprev e pprev)

/-- `hlist_add_head`. -/
def hlistAddHead (e : Addr) (h : Ptr × ℕ) : Code Unit := do
  let first ← instr (.load (.head h))
  instr (.store (.next e) first)
  tell first (.next e)
  instr (.store (.head h) (some e))
  instr (.setPprev e (.head h))

/-- `hlist_del`. -/
def hlistDel (e : Addr) : Code Unit := do
  let next ← instr (.load (.next e))
  let pprev ← instr (.pprev e)
  instr (.store pprev next)
  tell next pprev
  instr (.store (.next e) LIST_POISON1)
  instr (.setPprev e LIST_POISON2)

/-! ### `kv_hash_init` -/

/-- Where the two arrays would be allocated. -/
structure Arrays where
  buckets : Ptr
  bucketLocks : Ptr

/-- The loop of `kv_hash_init`. -/
def initBuckets (buckets locks : Ptr) : List ℕ → Code Unit
  | [] => .ret ()
  | i :: is => do
      instr (.initHead buckets i)
      instr (.initLock locks i)
      initBuckets buckets locks is

/-- `kv_hash_init` once the heads have been allocated. -/
def initLocks (bits : ℕ) (buckets place : Ptr) : Code ℤ := do
  let locks ← instr (.kmalloc place)
  instr (.setBucketLocks locks)
  if locks = none then
    instr (.kfree buckets)
    instr (.setBuckets none)
    instr (.setBits 0)
    return -ENOMEM
  initBuckets buckets locks (List.range (2 ^ bits))
  return 0

/-- `kv_hash_init`. -/
def kvHashInit (bits : ℕ) (arrays : Arrays) : Code ℤ := do
  instr .clearTable
  instr (.setBits bits)
  let buckets ← instr (.kmalloc arrays.buckets)
  instr (.setBuckets buckets)
  if buckets = none then
    instr (.setBits 0)
    return -ENOMEM
  initLocks bits buckets arrays.bucketLocks

/-! ### The three operations on one bucket -/

/-- Where the two allocations of `kv_hash_add` would be made. -/
structure Places where
  kstrdup : Ptr
  kmalloc : Ptr

/-- Whether memory is found for them. -/
def Places.alloc (places : Places) (m : Memory) : Alloc where
  kstrdup := decide (Blocks.Found m.live places.kstrdup)
  kmalloc := decide (Blocks.Found (Blocks.alloc m.live places.kstrdup).2 places.kmalloc)

/-- The walk over a chain from the entry `e` on, up to the first entry for `key`: the entry, or `NULL` at
the end of the chain. -/
def findEntry (key : HashKey) : ℕ → Ptr → Code (Option Ptr)
  | _, none => .ret (some none)
  | 0, some _ => .ret none
  | fuel + 1, some e => do
      let k ← instr (.key e)
      if k = key then return some (some e)
      let next ← instr (.load (.next e))
      findEntry key fuel next

/-- `kv_hash_add` at an entry for the key: the old value is freed, and replaced by the new one. -/
def replaceValue (ht : Table) (bucket : ℕ) (e : Addr) (newstr : Ptr) : Code (Option ℤ) := do
  let value ← instr (.value e)
  instr (.kfree value)
  instr (.setValue e newstr)
  instr (.unlock ht.bucketLocks bucket)
  return some 0

/-- `kv_hash_add` behind the end of the chain: a new entry is allocated, under the lock. -/
def insertNew (ht : Table) (bucket : ℕ) (key : HashKey) (newstr place : Ptr) : Code (Option ℤ) := do
  let e ← instr (.kmalloc place)
  match e with
  | none => do
      instr (.kfree newstr)
      instr (.unlock ht.bucketLocks bucket)
      return some (-ENOMEM)
  | some e => do
      instr (.setKey e key)
      instr (.setValue e newstr)
      hlistAddHead e (ht.buckets, bucket)
      instr (.unlock ht.bucketLocks bucket)
      return some 0

/-- `kv_hash_add`. -/
def kvHashAdd (H : HashFn) (fuel : ℕ) (key : HashKey) (value : List UInt8) (places : Places) :
    Code (Option ℤ) := do
  let ht ← instr .table
  if ht.buckets = none then return some (-EINVAL)
  let newstr ← instr (.kstrdup (cstr value) places.kstrdup)
  if newstr = none then return some (-ENOMEM)
  let bucket := H.hashMin key
  instr (.lock ht.bucketLocks bucket)
  let first ← instr (.load (.head (ht.buckets, bucket)))
  let found ← findEntry key fuel first
  match found with
  | none => return none
  | some (some e) => replaceValue ht bucket e newstr
  | some none => insertNew ht bucket key newstr places.kmalloc

/-- `kv_hash_remove` at an entry for the key. -/
def removeEntry (ht : Table) (bucket : ℕ) (e : Addr) : Code (Option ℤ) := do
  hlistDel e
  let value ← instr (.value e)
  instr (.kfree value)
  instr (.kfree (some e))
  instr (.unlock ht.bucketLocks bucket)
  return some 0

/-- `kv_hash_remove`. -/
def kvHashRemove (H : HashFn) (fuel : ℕ) (key : HashKey) : Code (Option ℤ) := do
  let ht ← instr .table
  if ht.buckets = none then return some (-EINVAL)
  let bucket := H.hashMin key
  instr (.lock ht.bucketLocks bucket)
  let first ← instr (.load (.head (ht.buckets, bucket)))
  let found ← findEntry key fuel first
  match found with
  | none => return none
  | some (some e) => removeEntry ht bucket e
  | some none => do
      instr (.unlock ht.bucketLocks bucket)
      return some (-ENOENT)

/-- `kv_hash_lookup` at an entry for the key. -/
def copyValue (ht : Table) (bucket : ℕ) (e : Addr) {n : ℕ} (outBuf : Buf n) :
    Code (Option (ℤ × Buf n)) := do
  let p ← instr (.value e)
  let value ← instr (.string p)
  if value.1.length + 1 > n then
    instr (.unlock ht.bucketLocks bucket)
    return some (-ENOSPC, outBuf)
  let p ← instr (.value e)
  let value ← instr (.string p)
  instr (.unlock ht.bucketLocks bucket)
  return some (value.1.length, memcpy outBuf (value.1 ++ [0]))

/-- `kv_hash_lookup` into a buffer of `out_buflen = n` bytes. -/
def kvHashLookup (H : HashFn) (fuel : ℕ) (key : HashKey) {n : ℕ} (outBuf : Buf n) :
    Code (Option (ℤ × Buf n)) := do
  let ht ← instr .table
  if ht.buckets = none ∨ n = 0 then return some (-EINVAL, outBuf)
  let bucket := H.hashMin key
  instr (.lock ht.bucketLocks bucket)
  let first ← instr (.load (.head (ht.buckets, bucket)))
  let found ← findEntry key fuel first
  match found with
  | none => return none
  | some (some e) => copyValue ht bucket e outBuf
  | some none => do
      instr (.unlock ht.bucketLocks bucket)
      return some (-ENOENT, outBuf)

/-! ### The scans -/

/-- The inner loop of `kv_hash_count`, from the entry `e` on. -/
def countWalk : ℕ → Ptr → Int32 → Code (Option Int32)
  | _, none, count => .ret (some count)
  | 0, some _, _ => .ret none
  | fuel + 1, some e, count => do
      let next ← instr (.load (.next e))
      countWalk fuel next (count + 1)

/-- The outer loop of `kv_hash_count`, from the first of the remaining buckets on. -/
def countBuckets (ht : Table) (fuel : ℕ) : List ℕ → Int32 → Code (Option Int32)
  | [], count => .ret (some count)
  | b :: bs, count => do
      instr (.lock ht.bucketLocks b)
      let first ← instr (.load (.head (ht.buckets, b)))
      let walked ← countWalk fuel first count
      match walked with
      | none => return none
      | some count => do
          instr (.unlock ht.bucketLocks b)
          countBuckets ht fuel bs count

/-- `kv_hash_count`. -/
def kvHashCount (fuel : ℕ) : Code (Option Int32) := do
  let ht ← instr .table
  if ht.buckets = none then return some (Int32.ofInt (-EINVAL))
  countBuckets ht fuel (List.range (2 ^ ht.bits)) 0

/-- The inner loop of `kv_hash_snapshot`, from the entry `e` on: whether the array is full, the counter,
the array. -/
def copyWalk (maxEntries : ℕ) :
    ℕ → Ptr → ℕ → List KvMessage → Code (Option (Bool × ℕ × List KvMessage))
  | _, none, count, entries => .ret (some (false, count, entries))
  | 0, some _, _, _ => .ret none
  | fuel + 1, some e, count, entries =>
      if count ≥ maxEntries then .ret (some (true, count, entries))
      else do
        let key ← instr (.key e)
        let p ← instr (.value e)
        let value ← instr (.string p)
        let next ← instr (.load (.next e))
        copyWalk maxEntries fuel next (count + 1) (entries.modify count (copyEntry ⟨key, value⟩))

/-- The outer loop of `kv_hash_snapshot`, from the first of the remaining buckets on. -/
def copyBuckets (ht : Table) (maxEntries fuel : ℕ) :
    List ℕ → ℕ → List KvMessage → Code (Option (ℤ × ℕ × List KvMessage))
  | [], count, entries => .ret (some (0, count, entries))
  | b :: bs, count, entries => do
      instr (.lock ht.bucketLocks b)
      let first ← instr (.load (.head (ht.buckets, b)))
      let walked ← copyWalk maxEntries fuel first count entries
      match walked with
      | none => return none
      | some (full, count, entries) => do
          instr (.unlock ht.bucketLocks b)
          if full then return some (0, count, entries)
          copyBuckets ht maxEntries fuel bs count entries

/-- `kv_hash_snapshot`. -/
def kvHashSnapshot (fuel : ℕ) (entries : List KvMessage) (maxEntries : ℕ) :
    Code (Option (ℤ × ℕ × List KvMessage)) := do
  let ht ← instr .table
  if ht.buckets = none ∨ maxEntries = 0 then return some (-EINVAL, 0, entries)
  copyBuckets ht maxEntries fuel (List.range (2 ^ ht.bits)) 0 entries

/-! ### `kv_hash_destroy` -/

/-- The inner loop of `kv_hash_destroy`, from the entry `e` on; the pointer to the next entry is taken
before `e` is freed. -/
def destroyWalk : ℕ → Ptr → Code (Option Unit)
  | _, none => .ret (some ())
  | 0, some _ => .ret none
  | fuel + 1, some e => do
      let tmp ← instr (.load (.next e))
      hlistDel e
      let value ← instr (.value e)
      instr (.kfree value)
      instr (.kfree (some e))
      destroyWalk fuel tmp

/-- The outer loop of `kv_hash_destroy`, from the first of the remaining buckets on. -/
def destroyBuckets (ht : Table) (fuel : ℕ) : List ℕ → Code (Option Unit)
  | [] => .ret (some ())
  | b :: bs => do
      let first ← instr (.load (.head (ht.buckets, b)))
      let walked ← destroyWalk fuel first
      match walked with
      | none => return none
      | some () => destroyBuckets ht fuel bs

/-- `kv_hash_destroy`.  The array of the locks is not freed. -/
def kvHashDestroy (fuel : ℕ) : Code (Option Unit) := do
  let ht ← instr .table
  let walked ← destroyBuckets ht fuel (List.range (2 ^ ht.bits))
  match walked with
  | none => return none
  | some () => do
      instr (.kfree ht.buckets)
      instr (.setBuckets none)
      instr (.setBits 0)
      return some ()

/-! ### Calls -/

/-- A call of one of the operations, with what it meets. -/
inductive Call
  | add (key : HashKey) (value : List UInt8) (places : Places)
  | remove (key : HashKey)
  | lookup (key : HashKey) (n : ℕ) (outBuf : Buf n)
  | count
  | snapshot (entries : List KvMessage) (maxEntries : ℕ)

/-- The return code of the call, if it returns; what it writes for its caller is left out. -/
def Call.code (H : HashFn) (fuel : ℕ) : Call → Code (Option ℤ)
  | .add key value places => kvHashAdd H fuel key value places
  | .remove key => kvHashRemove H fuel key
  | .lookup key _ outBuf => do
      let r ← kvHashLookup H fuel key outBuf
      return r.map Prod.fst
  | .count => do
      let r ← kvHashCount fuel
      return r.map Int32.toInt
  | .snapshot entries maxEntries => do
      let r ← kvHashSnapshot fuel entries maxEntries
      return r.map Prod.fst

/-- The call made of the table in memory.  No chain is longer than there are live blocks. -/
def Call.run (H : HashFn) (c : Call) (m : Memory) : Option ℤ × Memory :=
  (c.code H m.live.card).run exec m

/-- The instructions of the call. -/
def Call.trace (H : HashFn) (c : Call) (m : Memory) : List Instr :=
  (c.code H m.live.card).trace exec m

/-! ### Code that does not sleep -/

section Quiet

variable {α β : Type}

/-- The code never sleeps. -/
def Quiet (p : Code α) : Prop := p.Uses fun i => ¬ i.Sleeps

@[simp] theorem quiet_ret (a : α) : Quiet (.ret a : Code α) := trivial

@[simp] theorem quiet_call (i : Instr) (k : Res i → Code α) :
    Quiet (.call i k) ↔ ¬ i.Sleeps ∧ ∀ r, Quiet (k r) := Iff.rfl

@[simp] theorem quiet_ite (c : Prop) [Decidable c] (p p' : Code α) :
    Quiet (if c then p else p') ↔ (c → Quiet p) ∧ (¬ c → Quiet p') := by
  by_cases hc : c <;> simp [hc]

theorem Quiet.bind {p : Code α} {k : α → Code β} (hp : Quiet p) (hk : ∀ a, Quiet (k a)) :
    Quiet (p >>= k) := Prog.Uses.bind hp hk

theorem quiet_hlistDel (e : Addr) : Quiet (hlistDel e) := by
  simp only [hlistDel, tell, instr, Prog.call_bind, Prog.ret_bind, quiet_call, Instr.Sleeps]
  refine ⟨id, fun next => ⟨id, fun pprev => ⟨id, fun _ => Quiet.bind ?_ fun _ => ?_⟩⟩⟩
  · cases next <;> simp [Instr.Sleeps]
  · simp [Instr.Sleeps]

theorem quiet_hlistAddHead (e : Addr) (h : Ptr × ℕ) : Quiet (hlistAddHead e h) := by
  simp only [hlistAddHead, instr, Prog.call_bind, Prog.ret_bind, quiet_call]
  refine ⟨id, fun first => ⟨id, fun _ => ?_⟩⟩
  cases first with
  | none => exact ⟨id, fun _ => ⟨id, fun _ => trivial⟩⟩
  | some a => exact ⟨id, fun _ => ⟨id, fun _ => ⟨id, fun _ => trivial⟩⟩⟩

theorem quiet_findEntry (key : HashKey) (fuel : ℕ) (p : Ptr) : Quiet (findEntry key fuel p) := by
  induction fuel generalizing p with
  | zero => cases p <;> simp [findEntry]
  | succ fuel ih => cases p <;> simp [findEntry, instr, Instr.Sleeps, ih]

theorem quiet_replaceValue (ht : Table) (bucket : ℕ) (e : Addr) (newstr : Ptr) :
    Quiet (replaceValue ht bucket e newstr) := by
  simp [replaceValue, instr, Instr.Sleeps]

theorem quiet_removeEntry (ht : Table) (bucket : ℕ) (e : Addr) : Quiet (removeEntry ht bucket e) :=
  (quiet_hlistDel e).bind fun _ => by simp [instr, Instr.Sleeps]

theorem quiet_copyValue (ht : Table) (bucket : ℕ) (e : Addr) {n : ℕ} (outBuf : Buf n) :
    Quiet (copyValue ht bucket e outBuf) := by
  simp [copyValue, instr, Instr.Sleeps]

theorem quiet_kvHashRemove (H : HashFn) (fuel : ℕ) (key : HashKey) :
    Quiet (kvHashRemove H fuel key) := by
  simp only [kvHashRemove, instr, Prog.call_bind, Prog.ret_bind, quiet_call, quiet_ite, Instr.Sleeps]
  refine ⟨id, fun ht => ⟨fun _ => quiet_ret _, fun _ => ⟨id, fun _ => ⟨id, fun first => ?_⟩⟩⟩⟩
  refine (quiet_findEntry key fuel first).bind ?_
  rintro (- | - | e)
  · exact quiet_ret _
  · simp [Instr.Sleeps]
  · exact quiet_removeEntry ..

theorem quiet_kvHashLookup (H : HashFn) (fuel : ℕ) (key : HashKey) {n : ℕ} (outBuf : Buf n) :
    Quiet (kvHashLookup H fuel key outBuf) := by
  simp only [kvHashLookup, instr, Prog.call_bind, Prog.ret_bind, quiet_call, quiet_ite, Instr.Sleeps]
  refine ⟨id, fun ht => ⟨fun _ => quiet_ret _, fun _ => ⟨id, fun _ => ⟨id, fun first => ?_⟩⟩⟩⟩
  refine (quiet_findEntry key fuel first).bind ?_
  rintro (- | - | e)
  · exact quiet_ret _
  · simp [Instr.Sleeps]
  · exact quiet_copyValue ..

theorem quiet_countWalk (fuel : ℕ) (p : Ptr) (count : Int32) : Quiet (countWalk fuel p count) := by
  induction fuel generalizing p count with
  | zero => cases p <;> simp [countWalk]
  | succ fuel ih => cases p <;> simp [countWalk, instr, Instr.Sleeps, ih]

theorem quiet_countBuckets (ht : Table) (fuel : ℕ) (bs : List ℕ) (count : Int32) :
    Quiet (countBuckets ht fuel bs count) := by
  induction bs generalizing count with
  | nil => trivial
  | cons b bs ih =>
      simp only [countBuckets, instr, Prog.call_bind, Prog.ret_bind, quiet_call, Instr.Sleeps]
      refine ⟨id, fun _ => ⟨id, fun first => (quiet_countWalk fuel first count).bind ?_⟩⟩
      rintro (- | count) <;> simp [Instr.Sleeps, ih]

theorem quiet_kvHashCount (fuel : ℕ) : Quiet (kvHashCount fuel) := by
  simp [kvHashCount, instr, Instr.Sleeps, quiet_countBuckets]

theorem quiet_copyWalk (maxEntries fuel : ℕ) (p : Ptr) (count : ℕ) (entries : List KvMessage) :
    Quiet (copyWalk maxEntries fuel p count entries) := by
  induction fuel generalizing p count entries with
  | zero => cases p <;> simp [copyWalk]
  | succ fuel ih => cases p <;> simp [copyWalk, instr, Instr.Sleeps, ih]

theorem quiet_copyBuckets (ht : Table) (maxEntries fuel : ℕ) (bs : List ℕ) (count : ℕ)
    (entries : List KvMessage) : Quiet (copyBuckets ht maxEntries fuel bs count entries) := by
  induction bs generalizing count entries with
  | nil => trivial
  | cons b bs ih =>
      simp only [copyBuckets, instr, Prog.call_bind, Prog.ret_bind, quiet_call, Instr.Sleeps]
      refine ⟨id, fun _ => ⟨id, fun first => (quiet_copyWalk ..).bind ?_⟩⟩
      rintro (- | ⟨full, count, entries⟩) <;> simp [Instr.Sleeps, ih]

theorem quiet_kvHashSnapshot (fuel : ℕ) (entries : List KvMessage) (maxEntries : ℕ) :
    Quiet (kvHashSnapshot fuel entries maxEntries) := by
  simp [kvHashSnapshot, instr, Instr.Sleeps, quiet_copyBuckets]

theorem quiet_destroyWalk (fuel : ℕ) (p : Ptr) : Quiet (destroyWalk fuel p) := by
  induction fuel generalizing p with
  | zero => cases p <;> simp [destroyWalk]
  | succ fuel ih =>
      cases p with
      | none => exact quiet_ret _
      | some e =>
          simp only [destroyWalk, instr, Prog.call_bind, Prog.ret_bind, quiet_call, Instr.Sleeps]
          exact ⟨id, fun tmp => (quiet_hlistDel e).bind fun _ => by simp [Instr.Sleeps, ih]⟩

theorem quiet_destroyBuckets (ht : Table) (fuel : ℕ) (bs : List ℕ) :
    Quiet (destroyBuckets ht fuel bs) := by
  induction bs with
  | nil => trivial
  | cons b bs ih =>
      simp only [destroyBuckets, instr, Prog.call_bind, Prog.ret_bind, quiet_call, Instr.Sleeps]
      refine ⟨id, fun first => (quiet_destroyWalk fuel first).bind ?_⟩
      rintro (- | -) <;> simp [ih]

theorem quiet_kvHashDestroy (fuel : ℕ) : Quiet (kvHashDestroy fuel) := by
  simp only [kvHashDestroy, instr, Prog.call_bind, Prog.ret_bind, quiet_call, Instr.Sleeps]
  refine ⟨id, fun ht => (quiet_destroyBuckets ..).bind ?_⟩
  rintro (- | -) <;> simp [Instr.Sleeps]

end Quiet

end KvMemory
