/-
**The ioctl interface is a map with insert-if-absent and update-if-present.**

Run one after the other, the message ioctls of `kernel/kvlkm.c` implement a finite map whose
insertion refuses a key that is there and whose update refuses a key that is not.  This module
proves it for whole sequences of calls from the freshly initialised store, with allocations failing
arbitrarily, as long as the value field of every message holds a terminator; what happens without
one is the subject of `KvStore/KvIoctlLimit.lean`.

`KV_COUNT` is the exception.  The counter of `kv_hash_count` is an `int`, so from `2 ^ 31` entries
on the ioctl answers with a negative number, or with the number of entries modulo `2 ^ 32`: the
replies of a run are those of the map exactly when no `KV_COUNT` is served in such a state.

Main definitions:

* `KvIoctl.IoctlCall.Ordinary` — the calls considered: copies succeed, values are terminated;
* `KvIoctl.Answer`, `KvIoctl.answer` — what the user learns from a call;
* `KvIoctl.ioctlSpec` — the answer the map owes to a call.

Main results:

* `KvIoctl.serve_ioctl` — **refinement**: a run is answered as by the map exactly when every
  `KV_COUNT` of it meets fewer than `2 ^ 31` entries; the store always holds what the map holds, and
  no lookup ever finds a value too long for its buffer;
* `KvIoctl.get_ioctl_of_failed` — **a failed ioctl leaves the map as it was**, unless it was the copy
  back to the user that failed, in which case the map is the one the completed call leaves.
-/

import KvStore.KvHashMap
import KvStore.KvIoctl

set_option relaxedAutoImplicit false
set_option autoImplicit false

namespace KvIoctl

open CMem Interleave KvHash Service

variable {H : HashFn}

/-! ### Ordinary calls -/

/-- A call whose copies succeed and which is one of the four message commands, with a terminator
in its value field, or `KV_COUNT`. -/
structure IoctlCall.Ordinary (c : IoctlCall) : Prop where
  copyFromUser : c.env.copyFromUser = true
  copyToUser : c.env.copyToUser = true
  ioctl : match c.ioctl with
    | .message (.unknown _) _ => False
    | .message _ arg => 0 ∈ arg.value.1
    | .snapshot _ => False
    | .count _ => True

/-- An ordinary call. -/
abbrev OrdinaryCall := { c : IoctlCall // c.Ordinary }

/-- What the user learns from a call: the status of the message, the value that came with a
successful `KV_GET`, a count, or the error code of the call. -/
inductive Answer
  | status (st : Int32)
  | value (v : List UInt8)
  | count (n : ℕ)
  | error (ret : ℤ)

/-- The answer in the return code and the user's memory. -/
def answer : ℤ × Ioctl → Answer
  | (ret, .message cmd msg) =>
      if ret ≠ 0 then .error ret
      else if cmd = .kvGet ∧ msg.status = 0 then .value msg.value.1
      else .status msg.status
  | (ret, .count n) => if ret ≠ 0 then .error ret else .count n.toNat
  | (ret, .snapshot _) => .error ret

/-! ### The abstract map -/

/-- Insertion: refused when the key is there, and otherwise in need of memory for the value and for
an entry. -/
def insertSpec (alloc : Alloc) (arg : KvMessage) (m : KvMap) : Answer × KvMap :=
  if (m.lookup arg.key).isSome then (.status 1, m)
  else if alloc.kstrdup && alloc.kmalloc then (.status 0, m.insert arg.key (cstr arg.value.1))
  else (.status (-12), m)

/-- Update: refused when the key is not there, and otherwise in need of memory for the value. -/
def updateSpec (alloc : Alloc) (arg : KvMessage) (m : KvMap) : Answer × KvMap :=
  if (m.lookup arg.key).isSome then
    if alloc.kstrdup then (.status 0, m.insert arg.key (cstr arg.value.1)) else (.status (-12), m)
  else (.status 1, m)

/-- The value under the key, padded with zeros. -/
def getSpec (arg : KvMessage) (m : KvMap) : Answer × KvMap :=
  match m.lookup arg.key with
  | some v => (.value (v.1 ++ List.replicate (MAX_VALUE_LEN - v.1.length) 0), m)
  | none => (.status 1, m)

/-- Deletion: refused when the key is not there. -/
def deleteSpec (arg : KvMessage) (m : KvMap) : Answer × KvMap :=
  if (m.lookup arg.key).isSome then (.status 0, m.erase arg.key) else (.status 1, m)

/-- What the map owes to an ordinary call. -/
def ioctlSpec (c : OrdinaryCall) (m : KvMap) : Answer × KvMap :=
  match c.1.ioctl with
  | .message .kvInsert arg => insertSpec c.1.alloc arg m
  | .message .kvUpdate arg => updateSpec c.1.alloc arg m
  | .message .kvGet arg => getSpec arg m
  | .message .kvDelete arg => deleteSpec arg m
  | .message (.unknown _) _ => (.error (-EINVAL), m)
  | .count _ => (.count m.keys.card, m)
  | .snapshot _ => (.error 0, m)

/-- The store holds the map, whose values all fit into a message. -/
structure Holds (s : Store H) (m : KvMap) : Prop where
  get_eq : ∀ key, s.get key = m.lookup key
  length_lt : ∀ key v, m.lookup key = some v → v.1.length < MAX_VALUE_LEN

/-- As long as values fit into a message, the handlers find exactly the keys that are there. -/
theorem Holds.found_eq {s : Store H} {m : KvMap} (h : Holds s m) (key : HashKey) :
    s.found key = (m.lookup key).isSome := by
  rw [Store.found, h.get_eq]
  cases hk : m.lookup key with
  | none => rfl
  | some v => exact decide_eq_true (h.length_lt key v hk)

/-- The map has as many keys as the table has entries. -/
theorem Holds.card_keys {s : Store H} {m : KvMap} (h : Holds s m) :
    m.keys.card = s.1.entries.length := by
  have hkeys : m.keys = s.1.entries.keys.toFinset := by
    ext key
    rw [Finmap.mem_keys, Finmap.mem_iff, List.mem_toFinset, List.mem_keys]
    refine exists_congr fun v => ?_
    rw [← h.get_eq, s.2.mem_entries]
    rfl
  rw [hkeys, List.toFinset_card_of_nodup s.2.nodupKeys_entries, List.keys, List.length_map]

theorem Holds.insert {s t : Store H} {m : KvMap} {key : HashKey} {v : CStr} (h : Holds s m)
    (hlen : v.1.length < MAX_VALUE_LEN)
    (hget : ∀ k, t.get k = if k = key then some v else s.get k) : Holds t (m.insert key v) where
  get_eq := by
    intro k
    rw [hget, KvMap.lookup_insert_ite, h.get_eq]
  length_lt := by
    intro k w hw
    rw [KvMap.lookup_insert_ite] at hw
    split at hw
    · cases hw
      exact hlen
    · exact h.length_lt k w hw

theorem Holds.erase {s t : Store H} {m : KvMap} {key : HashKey} (h : Holds s m)
    (hget : ∀ k, t.get k = if k = key then none else s.get k) : Holds t (m.erase key) where
  get_eq := by
    intro k
    rw [hget, KvMap.lookup_erase_ite, h.get_eq]
  length_lt := by
    intro k w hw
    rw [KvMap.lookup_erase_ite] at hw
    split at hw
    · cases hw
    · exact h.length_lt k w hw

/-! ### Refinement -/

/-- The addition at the end of an insertion or an update: it sets the key when memory is found,
and changes nothing otherwise. -/
theorem Holds.add {s : Store H} {m : KvMap} (h : Holds s m) (key : HashKey) {value : Buf MAX_VALUE_LEN}
    (hnul : 0 ∈ value.1) (stack : List UInt8) (alloc : Alloc) :
    Holds (s.add key (value.1 ++ stack) alloc).2
      (if alloc.admits s.1 key then m.insert key (cstr value.1) else m) := by
  have hlen : (cstr value.1).1.length < MAX_VALUE_LEN := lt_of_lt_of_eq (length_cstr_lt hnul) value.2
  have hget := s.get_add key (value.1 ++ stack) alloc
  rw [cstr_append hnul] at hget
  cases ha : alloc.admits s.1 key with
  | true =>
      refine h.insert hlen fun k => ?_
      rw [hget, ha]
      simp
  | false =>
      refine ⟨fun k => ?_, h.length_lt⟩
      rw [hget, ha]
      simpa using h.get_eq k

/-- The map answers a message handler that has run, and the store still holds the map. -/
def Meets (cmd : Cmd) (r : (ℤ × KvMessage) × Store H) (spec : Answer × KvMap) : Prop :=
  answer (0, .message cmd r.1.2) = spec.1 ∧ Holds r.2 spec.2

theorem meets_handleInsert {s : Store H} {m : KvMap} (h : Holds s m) (env : KernelEnv)
    (alloc : Alloc) {arg : KvMessage} (hnul : 0 ∈ arg.value.1) :
    Meets .kvInsert ((handleInsert env arg).run (exec alloc) s) (insertSpec alloc arg m) := by
  rw [run_handleInsert, run_addAndReply, h.found_eq, insertSpec]
  cases hk : (m.lookup arg.key).isSome with
  | true => exact ⟨rfl, h⟩
  | false =>
      have hadm : alloc.admits s.1 arg.key = (alloc.kstrdup && alloc.kmalloc) := by
        have hnone : (s.1.get arg.key).isSome = false := hk ▸ congrArg Option.isSome (h.get_eq _)
        rw [Alloc.admits, hnone, Bool.false_or]
      have hadd := h.add arg.key hnul env.stack alloc
      rw [hadm] at hadd ⊢
      cases halloc : alloc.kstrdup && alloc.kmalloc with
      | true => exact ⟨rfl, by rwa [halloc] at hadd⟩
      | false => exact ⟨rfl, by rwa [halloc] at hadd⟩

theorem meets_handleUpdate {s : Store H} {m : KvMap} (h : Holds s m) (env : KernelEnv)
    (alloc : Alloc) {arg : KvMessage} (hnul : 0 ∈ arg.value.1) :
    Meets .kvUpdate ((handleUpdate env arg).run (exec alloc) s) (updateSpec alloc arg m) := by
  rw [run_handleUpdate, run_addAndReply, h.found_eq, updateSpec]
  cases hk : (m.lookup arg.key).isSome with
  | true =>
      have hadm : alloc.admits s.1 arg.key = alloc.kstrdup := by
        have hsome : (s.1.get arg.key).isSome = true := hk ▸ congrArg Option.isSome (h.get_eq _)
        rw [Alloc.admits, hsome, Bool.true_or, Bool.and_true]
      have hadd := h.add arg.key hnul env.stack alloc
      rw [hadm] at hadd ⊢
      cases halloc : alloc.kstrdup with
      | true => exact ⟨rfl, by rwa [halloc] at hadd⟩
      | false => exact ⟨rfl, by rwa [halloc] at hadd⟩
  | false => exact ⟨rfl, h⟩

theorem meets_handleGet {s : Store H} {m : KvMap} (h : Holds s m) (alloc : Alloc)
    (arg : KvMessage) :
    Meets .kvGet ((handleGet arg).run (exec alloc) s) (getSpec arg m) := by
  rw [run_handleGet, getSpec, h.get_eq]
  cases hk : m.lookup arg.key with
  | none => exact ⟨rfl, h⟩
  | some v =>
      have hlen := h.length_lt _ _ hk
      refine ⟨?_, h⟩
      simp [answer, hlen, val_memcpy_zeros hlen]

theorem meets_handleDelete {s : Store H} {m : KvMap} (h : Holds s m) (alloc : Alloc)
    (arg : KvMessage) :
    Meets .kvDelete ((handleDelete arg).run (exec alloc) s) (deleteSpec arg m) := by
  have herase : Holds (s.remove arg.key).2 (m.erase arg.key) := h.erase (s.get_remove arg.key)
  rw [run_handleDelete, deleteSpec, h.get_eq]
  cases hk : m.lookup arg.key with
  | some v => exact ⟨rfl, herase⟩
  | none =>
      refine ⟨rfl, fun k => ?_, h.length_lt⟩
      rw [herase.get_eq, KvMap.lookup_erase_ite]
      split
      · rename_i hkk
        rw [hkk]
        exact hk.symm
      · rfl

/-- A count is right exactly when it fits into an `int`. -/
theorem answer_count_iff (n : ℕ) (arg : UInt32) :
    answer (if Int32.ofNat n < 0 then ((Int32.ofNat n).toInt, Ioctl.count arg)
      else (0, Ioctl.count (UInt32.ofNat n))) = .count n ↔ n < 2 ^ 31 := by
  have hint : (Int32.ofNat n).toInt =
      if (n : ℤ) % 4294967296 < 2147483648 then (n : ℤ) % 4294967296
      else (n : ℤ) % 4294967296 - 4294967296 := by
    rw [Int32.toInt_ofNat', Int.bmod_def]
    rfl
  have hneg : Int32.ofNat n < 0 ↔ (Int32.ofNat n).toInt < 0 := by
    rw [Int32.lt_iff_toInt_lt]
    rfl
  have hmod : (UInt32.ofNat n).toNat = n % 4294967296 := UInt32.toNat_ofNat'
  by_cases hlt : Int32.ofNat n < 0
  · have hb := hneg.1 hlt
    have hne : ¬ (Int32.ofNat n).toInt = 0 := by omega
    simp only [if_pos hlt, answer, ne_eq, hne, not_false_eq_true, if_true, reduceCtorEq, false_iff]
    rw [hint] at hb
    split at hb <;> omega
  · have hb : ¬ (Int32.ofNat n).toInt < 0 := fun h => hlt (hneg.2 h)
    simp only [if_neg hlt, answer, ne_eq, not_true_eq_false, if_false, hmod, Answer.count.injEq]
    rw [hint] at hb
    split at hb <;> omega

/-- An ordinary call keeps the store and the map in step, and is answered as by the map, except
for a count that does not fit into an `int`. -/
theorem ioctl_refines (c : OrdinaryCall) (s : Store H) (m : KvMap) (h : Holds s m) :
    (answer (ioctl c.1 s).1 = (ioctlSpec c m).1 ↔
      ((∃ arg, c.1.ioctl = .count arg) → s.1.entries.length < 2 ^ 31)) ∧
    Holds (ioctl c.1 s).2 (ioctlSpec c m).2 := by
  have hord := c.2.ioctl
  -- the four messages are alike: what the handler does is copied back to the user
  have hmsg : ∀ {cmd arg spec}, c.1.ioctl = .message cmd arg → (∀ n, cmd ≠ .unknown n) →
      ioctlSpec c m = spec → Meets cmd ((dispatch c.1.env cmd arg).run (exec c.1.alloc) s) spec →
      (answer (ioctl c.1 s).1 = (ioctlSpec c m).1 ↔
        ((∃ arg, c.1.ioctl = .count arg) → s.1.entries.length < 2 ^ 31)) ∧
      Holds (ioctl c.1 s).2 (ioctlSpec c m).2 := by
    rintro cmd arg spec hc hcmd rfl ⟨hans, hholds⟩
    rw [ioctl_message_ok hc hcmd c.2.copyFromUser c.2.copyToUser]
    refine ⟨⟨fun _ => ?_, fun _ => hans⟩, hholds⟩
    rintro ⟨n, hn⟩
    rw [hc] at hn
    cases hn
  rcases hc : c.1.ioctl with ⟨cmd, arg⟩ | arg | arg
  · rw [hc] at hord
    have hspec : ioctlSpec c m = ioctlSpec c m := rfl
    conv_rhs at hspec => rw [ioctlSpec, hc]
    cases cmd with
    | kvInsert => exact hc ▸ hmsg hc (by simp) hspec (meets_handleInsert h _ _ hord)
    | kvUpdate => exact hc ▸ hmsg hc (by simp) hspec (meets_handleUpdate h _ _ hord)
    | kvGet => exact hc ▸ hmsg hc (by simp) hspec (meets_handleGet h _ _)
    | kvDelete => exact hc ▸ hmsg hc (by simp) hspec (meets_handleDelete h _ _)
    | unknown n => exact hord.elim
  · rw [hc] at hord
    exact hord.elim
  · have hrun := run_handleKvCount c.1.env c.1.alloc arg s
    simp only [c.2.copyToUser, Bool.true_eq_false, if_false] at hrun
    rw [ioctl, ioctlSpec, hc, kvIoctl, Prog.run_bind, hrun]
    refine ⟨?_, h⟩
    have hcount := answer_count_iff s.1.entries.length arg
    rw [h.card_keys]
    have hiff : ((∃ arg', Ioctl.count arg = Ioctl.count arg') → s.1.entries.length < 2 ^ 31) ↔
        s.1.entries.length < 2 ^ 31 := ⟨fun hx => hx ⟨arg, rfl⟩, fun hx _ => hx⟩
    rw [hiff, ← hcount]
    by_cases hlt : Int32.ofNat s.1.entries.length < 0
    · simp only [if_pos hlt]
      rfl
    · simp only [if_neg hlt]
      rfl

/-- An ordinary call as a service: what the user learns from it, and the store it leaves. -/
def ordinaryIoctl (c : OrdinaryCall) (s : Store H) : Answer × Store H :=
  (answer (ioctl c.1 s).1, (ioctl c.1 s).2)

/-- The call is not a `KV_COUNT`, or it meets fewer than `2 ^ 31` entries. -/
def CountFits (c : OrdinaryCall) (s : Store H) : Prop :=
  (∃ arg, c.1.ioctl = .count arg) → s.1.entries.length < 2 ^ 31

theorem holds_init (H : HashFn) : Holds (Store.init H) ∅ where
  get_eq := by
    intro key
    rw [Store.get_init, Finmap.lookup_empty]
  length_lt := by
    intro key v hv
    rw [Finmap.lookup_empty] at hv
    cases hv

/-- The store holds the map after every run. -/
theorem holds_serve (H : HashFn) (cs : List OrdinaryCall) :
    Holds (serve ordinaryIoctl cs (Store.init H)).2 (serve ioctlSpec cs ∅).2 :=
  serve_related ordinaryIoctl ioctlSpec Holds (fun c s m h => (ioctl_refines c s m h).2) cs
    (holds_init H)

theorem serve_ordinaryIoctl_iff (H : HashFn) (cs : List OrdinaryCall) :
    (serve ordinaryIoctl cs (Store.init H)).1 = (serve ioctlSpec cs ∅).1 ↔
      Along ordinaryIoctl CountFits cs (Store.init H) :=
  serve_replies_iff ordinaryIoctl ioctlSpec Holds (fun c s m h => (ioctl_refines c s m h).2)
    (fun c s m h => (ioctl_refines c s m h).1) cs (holds_init H)

/-- **Refinement.**  A run of ordinary calls from the fresh table is answered as by the map exactly
when every `KV_COUNT` in it is served with fewer than `2 ^ 31` entries in the table.  In every state
reached the store holds what the map holds, and no lookup answers `-ENOSPC`. -/
theorem serve_ioctl (H : HashFn) (cs : List OrdinaryCall) :
    ((serve ordinaryIoctl cs (Store.init H)).1 = (serve ioctlSpec cs ∅).1 ↔
      Along ordinaryIoctl CountFits cs (Store.init H)) ∧
    (∀ key, (serve ordinaryIoctl cs (Store.init H)).2.get key =
      (serve ioctlSpec cs ∅).2.lookup key) ∧
    ∀ key outBuf,
      (kvHashLookup (serve ordinaryIoctl cs (Store.init H)).2.1 key outBuf : ℤ × Buf MAX_VALUE_LEN).1
        ≠ -ENOSPC := by
  have hholds := holds_serve H cs
  refine ⟨serve_ordinaryIoctl_iff H cs, hholds.get_eq, ?_⟩
  intro key outBuf
  rw [Store.lookup_eq, hholds.get_eq]
  cases hk : (serve ioctlSpec cs ∅).2.lookup key with
  | none => exact (by decide : -ENOENT ≠ -ENOSPC)
  | some v =>
      have hcode : -ENOSPC < 0 := by decide
      simp only [if_pos (hholds.length_lt key v hk)]
      omega

/-! ### A table with `2 ^ 31` keys -/

/-- `KV_INSERT` of a key with the empty value. -/
def insertCall (key : HashKey) : OrdinaryCall where
  val := .ok (.message .kvInsert { KvMessage.zero with key := key })
  property := ⟨rfl, rfl, (by decide : 0 ∈ (zeros MAX_VALUE_LEN).1)⟩

/-- `KV_COUNT`. -/
def countCall : OrdinaryCall where
  val := .ok (.count 0)
  property := ⟨rfl, rfl, trivial⟩

/-- Insert the keys below `n`. -/
def fillCalls (n : ℕ) : List OrdinaryCall := (List.range n).map fun i => insertCall (UInt64.ofNat i)

/-- The map after the keys below `n` have been inserted. -/
theorem keys_serve_fillCalls {n : ℕ} (h : n ≤ 2 ^ 64) :
    (∀ key : HashKey, key ∈ (serve ioctlSpec (fillCalls n) ∅).2 ↔ key.toNat < n) ∧
      (serve ioctlSpec (fillCalls n) ∅).2.keys.card = n := by
  induction n with
  | zero => exact ⟨fun key => by simp [fillCalls, Finmap.notMem_empty], rfl⟩
  | succ n ih =>
      obtain ⟨hmem, hcard⟩ := ih (by omega)
      have hnat : (UInt64.ofNat n).toNat = n := UInt64.toNat_ofNat_of_lt' (Nat.lt_of_succ_le h)
      have hfresh : UInt64.ofNat n ∉ (serve ioctlSpec (fillCalls n) ∅).2 := by
        rw [hmem, hnat]
        omega
      have hlast : (serve ioctlSpec (fillCalls (n + 1)) ∅).2 =
          (serve ioctlSpec (fillCalls n) ∅).2.insert (UInt64.ofNat n) (cstr (zeros MAX_VALUE_LEN).1) := by
        rw [fillCalls, List.range_succ, List.map_append, serve_append_snd, ← fillCalls]
        have hnone := Finmap.lookup_eq_none.2 hfresh
        simp only [List.map_cons, List.map_nil, serve_cons, serve_nil, ioctlSpec, insertCall,
          IoctlCall.ok, insertSpec, hnone]
        rfl
      rw [hlast]
      refine ⟨fun key => ?_, ?_⟩
      · rw [Finmap.mem_insert, hmem, ← UInt64.toNat_inj, hnat]
        omega
      · have hkeys : ((serve ioctlSpec (fillCalls n) ∅).2.insert (UInt64.ofNat n)
            (cstr (zeros MAX_VALUE_LEN).1)).keys =
            insert (UInt64.ofNat n) (serve ioctlSpec (fillCalls n) ∅).2.keys := by
          ext key
          simp only [Finmap.mem_keys, Finmap.mem_insert, Finset.mem_insert]
        rw [hkeys, Finset.card_insert_of_notMem (fun hk => hfresh (Finmap.mem_keys.1 hk)), hcard]

/-- With `2 ^ 31` keys or more in the table, `KV_COUNT` is not answered as by the map. -/
theorem serve_fillCalls_ne (H : HashFn) {n : ℕ} (hn : 2 ^ 31 ≤ n) (hn' : n ≤ 2 ^ 64) :
    (serve ordinaryIoctl (fillCalls n ++ [countCall]) (Store.init H)).1 ≠
      (serve ioctlSpec (fillCalls n ++ [countCall]) ∅).1 := by
  rw [Ne, serve_ordinaryIoctl_iff, along_append]
  rintro ⟨-, hcount, -⟩
  have hlen := hcount ⟨0, rfl⟩
  rw [← (holds_serve H (fillCalls n)).card_keys, (keys_serve_fillCalls hn').2] at hlen
  omega

/-- Counting `2 ^ 31` keys. -/
theorem serve_fillCalls_overflow :
    (serve ordinaryIoctl (fillCalls (2 ^ 31) ++ [countCall]) (Store.init HashFn.module)).1 ≠
      (serve ioctlSpec (fillCalls (2 ^ 31) ++ [countCall]) ∅).1 :=
  serve_fillCalls_ne HashFn.module le_rfl (by decide)

/-! ### Failed calls -/

/-- An addition that is not acknowledged has changed nothing. -/
theorem get_addAndReply_of_status {env : KernelEnv} {alloc : Alloc} {msg : KvMessage}
    {failed : List UInt8} {s : Store H}
    (h : ((addAndReply env msg failed).run (exec alloc) s).1.2.status ≠ 0) (key : HashKey) :
    ((addAndReply env msg failed).run (exec alloc) s).2.get key = s.get key := by
  rw [run_addAndReply] at h ⊢
  cases ha : alloc.admits s.1 msg.key with
  | true => simp [ha] at h
  | false => simp [Store.get_add, ha]

/-- A handler that answers with a status other than 0 has changed nothing. -/
theorem get_dispatch_of_status {env : KernelEnv} {alloc : Alloc} {cmd : Cmd} {msg : KvMessage}
    {s : Store H} (hcmd : ∀ n, cmd ≠ .unknown n)
    (h : ((dispatch env cmd msg).run (exec alloc) s).1.2.status ≠ 0) (key : HashKey) :
    ((dispatch env cmd msg).run (exec alloc) s).2.get key = s.get key := by
  cases cmd with
  | kvInsert =>
      rw [dispatch, run_handleInsert] at h ⊢
      cases hf : s.found msg.key with
      | true => rfl
      | false =>
          rw [hf] at h
          exact get_addAndReply_of_status h key
  | kvUpdate =>
      rw [dispatch, run_handleUpdate] at h ⊢
      cases hf : s.found msg.key with
      | true =>
          rw [hf] at h
          exact get_addAndReply_of_status h key
      | false => rfl
  | kvGet => rw [dispatch, run_handleGet]
  | kvDelete =>
      rw [dispatch, run_handleDelete] at h ⊢
      cases hk : s.get msg.key with
      | some v => simp [hk] at h
      | none =>
          rw [Store.get_remove]
          split
          · rename_i heq
            rw [heq, hk]
          · rfl
  | unknown n => exact absurd rfl (hcmd n)

/-- What the copy back to user space does not change. -/
theorem ioctl_snd_copyToUser (c : IoctlCall) (b : Bool) (s : Store H) :
    (ioctl { c with env := { c.env with copyToUser := b } } s).2 = (ioctl c s).2 := by
  rw [ioctl_snd, ioctl_snd]
  rcases hc : c.ioctl with ⟨cmd, arg⟩ | arg | arg
  · cases cmd <;> rfl
  · rfl
  · rfl

/-- **A failed ioctl leaves the map as it was.**  That is so when the call returns an error code
other than the one of a failed copy back to user space, and when it completes with a status other
than 0.  When the copy back fails the store is the one that the completed call leaves. -/
theorem get_ioctl_of_failed (c : IoctlCall) (s : Store H)
    (hfail : (ioctl c s).1.1 < 0 ∨ (ioctl c s).1.2.status ≠ 0) :
    (¬ (c.env.copyFromUser = true ∧ c.env.copyToUser = false ∧ (ioctl c s).1.1 = -EFAULT) →
      ∀ key, (ioctl c s).2.get key = s.get key) ∧
    (ioctl c s).2 = (ioctl { c with env := { c.env with copyToUser := true } } s).2 := by
  refine ⟨fun hcopy key => ?_, (ioctl_snd_copyToUser c true s).symm⟩
  rw [ioctl_snd]
  rcases hc : c.ioctl with ⟨cmd, arg⟩ | arg | arg
  · cases hin : c.env.copyFromUser with
    | false => rfl
    | true =>
        have hret := run_dispatch_ret c.env c.alloc cmd arg s
        cases cmd with
        | unknown n => rfl
        | _ =>
            refine get_dispatch_of_status (by simp) ?_ key
            cases hout : c.env.copyToUser with
            | false =>
                -- the handler has run, and the reply is lost
                have hioctl := ioctl_message hc s
                simp only [hin, hout, hret, Bool.true_eq_false, if_false, if_true, lt_irrefl]
                  at hioctl
                rw [hioctl] at hcopy
                exact absurd ⟨hin, hout, rfl⟩ hcopy
            | true =>
                rw [ioctl_message_ok hc (by simp) hin hout] at hfail
                exact hfail.resolve_left (lt_irrefl 0)
  · rfl
  · rfl

/-- An insertion that finds no memory for its value. -/
theorem get_ioctl_of_failed_insert :
    (ioctl { IoctlCall.ok (.message .kvInsert { KvMessage.zero with key := 7 }) with
      alloc := ⟨false, true⟩ } (Store.init HashFn.module)).2.get 7 = none := by
  have hfail := get_ioctl_of_failed
    { IoctlCall.ok (.message .kvInsert { KvMessage.zero with key := 7 }) with alloc := ⟨false, true⟩ }
    (Store.init HashFn.module) (.inr (by decide))
  rw [hfail.1 (fun h => Bool.noConfusion h.2.1) 7, Store.get_init]

/-- The insertion of a key whose reply cannot be copied back: the call fails, and yet the key is
there afterwards. -/
theorem ioctl_insert_copyToUser :
    let c := IoctlCall.ok (.message .kvInsert { KvMessage.zero with key := 7 })
    let r := ioctl { c with env := { c.env with copyToUser := false } } (Store.init HashFn.module)
    r.1.1 = -EFAULT ∧ (Store.init HashFn.module).get 7 = none ∧ r.2.get 7 ≠ none := by
  decide

end KvIoctl
