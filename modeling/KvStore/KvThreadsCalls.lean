/-
**The calls of threads.**

The functions of `kernel/kv_hash.c`, as threads run them over a table in memory beside other threads, with
the rules of `KvStore/KvThreads.lean`.  An operation on one bucket has its effect on the store when it gives
back the lock of the bucket, or, if there is no memory for the copy of the value, when `kstrdup` has failed.
A scan has one such effect for each bucket: it sees the chain as it is while it holds the lock.

Under the lock the instructions are those of a call that runs alone, on the own memory of the thread; so
what `KvStore/KvCriticalSection.lean` and `KvStore/KvMemoryCalls.lean` say of the walks and of the list
operations is used here as it stands.

Main definitions:

* `KvMemory.Idle` — the thread has nothing in its custody.

Main results:

* `KvMemory.carries_perform` — **the operations on one bucket** are atomic;
* `KvMemory.carries_kvHashCount`, `KvMemory.carries_kvHashSnapshot` — **the scans** are atomic bucket by
  bucket;
* `KvMemory.carries_ioctl` — every ioctl does what the ioctl of the store does.
-/

import KvStore.KvMemoryIoctl
import KvStore.KvThreads

set_option relaxedAutoImplicit false
set_option autoImplicit false

namespace KvMemory

open CMem KvHash KvIoctl Interleave Blocks

variable {H : HashFn} {ι : Type} [DecidableEq ι]

/-! ### What is done under a lock -/

section Under

variable {A : Base} {o : Memory} {b : ℕ} {es hand : List Addr} {j : Instr}

/-- A walk looks at blocks of the thread. -/
theorem Locked.confined_of_looks (h : Locked H A o b es hand) (hj : Looks o es j) : Confined A o j := by
  have hmine : ∀ a ∈ o.owned es, o.Mine A a := fun a ha => (h.mine_iff a).2 (.inr ha)
  obtain ⟨e, he, rfl | rfl | rfl | rfl⟩ := hj
  · exact .key (hmine e (mem_owned_self o he))
  · exact .value (hmine e (mem_owned_self o he))
  · exact .load (s := .next e) (hmine e (mem_owned_self o he))
  · obtain ⟨v, hv⟩ := Option.ne_none_iff_exists'.1 (h.value he)
    rw [hv]
    exact .string (hmine v (mem_owned_value o he hv))

/-- The list operations use the head that has been locked, and entries of the thread. -/
theorem Locked.confined_of_handles (h : Locked H A o b es hand) {es' : List Addr}
    (hes : ∀ e ∈ es', e ∈ hand ∨ e ∈ es) (hj : Handles (A.head b) es' j)
    (l : Hlist.Links (Ptr × ℕ) Addr) : Confined A { o with links := l } j := by
  have hmine : ∀ e ∈ es', Memory.Mine A { o with links := l } e := fun e he =>
    (h.mine_iff e).2 ((hes e he).imp id (mem_owned_self o))
  have hplace : ∀ s, InChain (A.head b) es' s → Memory.Has A { o with links := l } s := by
    rintro s (rfl | ⟨e, he, rfl⟩)
    · refine ⟨b, ?_, rfl⟩
      change b ∈ o.held
      simp [h.held]
    · exact hmine e he
  cases hj with
  | load hs => exact .load (hplace _ hs)
  | store p hs => exact .store p (hplace _ hs)
  | pprev he => exact .pprev (hmine _ he)
  | setPprev s he => exact .setPprev s (hmine _ he)

theorem Locked.confined_head (h : Locked H A o b es hand) : Confined A o (.load (A.head b)) :=
  .load ⟨b, by simp [h.held], rfl⟩

theorem Locked.mine_hand (h : Locked H A o b es hand) {a : Addr} (ha : a ∈ hand) : o.Mine A a :=
  (h.mine_iff a).2 (.inl ha)

theorem Locked.mine_owned (h : Locked H A o b es hand) {a : Addr} (ha : a ∈ o.owned es) : o.Mine A a :=
  (h.mine_iff a).2 (.inr ha)

/-- A block in hand is no entry of the chain. -/
theorem Locked.notMem_of_hand (h : Locked H A o b es hand) {a : Addr} (ha : a ∈ hand) : a ∉ es := by
  have hmem := (h.holds.notMem_of_hand h.lt ha).1
  rw [Layout.chains_set_self] at hmem
  exact notMem_of_notMem_owned hmem

/-- A block is given back. -/
theorem Locked.kfree {a : Addr} (h : Locked H A o b es (a :: hand)) :
    Locked H A { o with live := o.live.erase a } b es hand := ⟨h.holds.kfree, h.held, h.lt⟩

/-- The fields of a new entry are set. -/
theorem Locked.setFields (h : Locked H A o b es hand) {e : Addr} (he : e ∈ hand) (key : HashKey)
    (p : Ptr) :
    Locked H A
      { o with
        key := Function.update o.key e key
        value := Function.update o.value e p } b es hand :=
  ⟨(h.holds.contents o.string (Function.update o.key e key)).setValue he p, h.held, h.lt⟩

/-- A new entry is linked, with its value. -/
theorem Locked.link {e new : Addr} (h : Locked H A o b es (e :: new :: hand))
    (hv : o.value e = some new) :
    Locked H A { o with links := o.links.addHead e (some A.buckets, b) } b (e :: es) hand := by
  have hlink := h.holds.addHead h.lt hv
  rw [Layout.chains_set_self, Layout.set_set] at hlink
  exact ⟨hlink, h.held, h.lt⟩

/-- An entry is unlinked, with its value. -/
theorem Locked.unlink {xs ys : List Addr} {e v : Addr} (h : Locked H A o b (xs ++ e :: ys) hand)
    (hv : o.value e = some v) (p : Ptr) (s : Place) :
    Locked H A { o with links := o.links.del e p s } b (xs ++ ys) (v :: e :: hand) := by
  have hdel := (h.holds.del h.lt (Layout.chains_set_self ..) hv p s).perm (List.Perm.swap ..)
  rw [Layout.set_set] at hdel
  exact ⟨hdel, h.held, h.lt⟩

/-- The chain when a new entry has been linked. -/
theorem entries_link {e new : Addr} (he : e ∉ es) (key : HashKey) (l : Hlist.Links (Ptr × ℕ) Addr) :
    Memory.entries
      { o with
        key := Function.update o.key e key
        value := Function.update o.value e (some new)
        links := l } (e :: es) = ⟨key, o.string new⟩ :: o.entries es := by
  have hkept : Memory.entries
      { o with
        key := Function.update o.key e key
        value := Function.update o.value e (some new) } es = o.entries es :=
    (Holds.entries_setValue he (some new)).trans (Holds.entries_setKey he key)
  rw [entries_cons]
  refine congrArg₂ List.cons ?_ hkept
  simp [Memory.entryAt, Memory.stringAt]

/-- The value of an entry is exchanged for a new one. -/
theorem Locked.replaceValue {e v new : Addr} (h : Locked H A o b es (new :: hand)) (he : e ∈ es)
    (hv : o.value e = some v) :
    Locked H A { o with value := Function.update o.value e (some new) } b es (v :: hand) := by
  obtain ⟨xs, ys, hsplit⟩ := List.append_of_mem he
  exact ⟨h.holds.replaceValue h.lt ((Layout.chains_set_self ..).trans hsplit) hv, h.held, h.lt⟩

end Under

/-! ### What the operations make of a chain -/

section Takes

variable {key : HashKey} {value : List UInt8} {before after : KvHash.Chain}

theorem takes_of_same {b : Fin H.n} {op : Op H} {f : Alloc} {r : KvHash.Res op}
    (h : ∀ t : Store H, t.1.chain b = before → KvHash.exec f op t = (r, t)) :
    Takes b before op f r before := by
  intro t ht
  rw [h t ht]
  refine ⟨rfl, ?_⟩
  rw [← ht, Function.update_eq_self]

theorem takes_add_update (h : updateExisting key (cstr value) before = some after) :
    Takes (H.kvBucket key) before (.add key value) .ok 0 after := by
  rintro t rfl
  have hadd : KvHash.kvHashAdd t.1 key value .ok =
      (0, ⟨some (Function.update t.1.chain (H.kvBucket key) after)⟩) := by
    simp [KvHash.kvHashAdd, t.2.buckets_eq, Alloc.ok, h]
  exact ⟨congrArg Prod.fst hadd, congrArg (fun r => HashTable.chain r.2) hadd⟩

theorem takes_add_insert (h : updateExisting key (cstr value) before = none) :
    Takes (H.kvBucket key) before (.add key value) .ok 0 (⟨key, cstr value⟩ :: before) := by
  rintro t rfl
  have hadd : KvHash.kvHashAdd t.1 key value .ok = (0, ⟨some (Function.update t.1.chain (H.kvBucket key)
      (⟨key, cstr value⟩ :: t.1.chain (H.kvBucket key)))⟩) := by
    simp [KvHash.kvHashAdd, t.2.buckets_eq, Alloc.ok, h]
  exact ⟨congrArg Prod.fst hadd, congrArg (fun r => HashTable.chain r.2) hadd⟩

/-- There is no memory for a new entry. -/
theorem takes_add_fail (h : updateExisting key (cstr value) before = none) :
    Takes (H.kvBucket key) before (.add key value) ⟨true, false⟩ (-ENOMEM) before := by
  refine takes_of_same fun t ht => ?_
  subst ht
  have hadd : KvHash.kvHashAdd t.1 key value ⟨true, false⟩ = (-ENOMEM, t.1) := by
    simp [KvHash.kvHashAdd, t.2.buckets_eq, h]
  exact Prod.ext (congrArg Prod.fst hadd :) (Subtype.ext (congrArg Prod.snd hadd :))

/-- There is no memory for the copy of the value. -/
theorem exec_add_fail (key : HashKey) (value : List UInt8) (t : Store H) :
    KvHash.exec ⟨false, false⟩ (.add key value) t = (-ENOMEM, t) := by
  have hadd : KvHash.kvHashAdd t.1 key value ⟨false, false⟩ = (-ENOMEM, t.1) := by
    simp [KvHash.kvHashAdd, t.2.buckets_eq]
  exact Prod.ext (congrArg Prod.fst hadd :) (Subtype.ext (congrArg Prod.snd hadd :))

theorem takes_remove (h : KvHash.unlink key before = some after) :
    Takes (H.kvBucket key) before (.remove key) .ok 0 after := by
  rintro t rfl
  have hremove : KvHash.kvHashRemove t.1 key =
      (0, ⟨some (Function.update t.1.chain (H.kvBucket key) after)⟩) := by
    simp [KvHash.kvHashRemove, t.2.buckets_eq, h]
  exact ⟨congrArg Prod.fst hremove, congrArg (fun r => HashTable.chain r.2) hremove⟩

theorem takes_remove_none (h : KvHash.unlink key before = none) :
    Takes (H.kvBucket key) before (.remove key) .ok (-ENOENT) before := by
  refine takes_of_same fun t ht => ?_
  subst ht
  have hremove : KvHash.kvHashRemove t.1 key = (-ENOENT, t.1) := by
    simp [KvHash.kvHashRemove, t.2.buckets_eq, h]
  exact Prod.ext (congrArg Prod.fst hremove :) (Subtype.ext (congrArg Prod.snd hremove :))

/-- What `kv_hash_lookup` answers, from what it finds in the chain. -/
def lookedUp (found : Option CStr) {n : ℕ} (outBuf : Buf n) : ℤ × Buf n :=
  match found with
  | some value =>
      if value.1.length + 1 > n then (-ENOSPC, outBuf)
      else (value.1.length, memcpy outBuf (value.1 ++ [0]))
  | none => (-ENOENT, outBuf)

theorem takes_lookup (key : HashKey) (before : KvHash.Chain) (outBuf : Buf MAX_VALUE_LEN) :
    Takes (H.kvBucket key) before (.lookup key outBuf) .ok (lookedUp (before.dlookup key) outBuf)
      before := by
  refine takes_of_same fun t ht => ?_
  subst ht
  refine Prod.ext ?_ rfl
  change KvHash.kvHashLookup t.1 key outBuf = _
  simp only [KvHash.kvHashLookup, t.2.buckets_eq, if_neg (show ¬ MAX_VALUE_LEN = 0 by decide)]
  rfl

theorem takes_visit (b : Fin H.n) : Takes b before (.visit b) .ok before before :=
  takes_of_same fun t ht => by
    subst ht
    rfl

end Takes

/-! ### The operations on one bucket -/

/-- The thread has nothing in its custody. -/
def Idle (H : HashFn) (A : Base) (v : Custody) : Prop := Outside H A v.own []

/-- The thread is idle, and its program has returned what the abstract program goes on with. -/
def Done {β γ : Type} (A : Base) (g : γ → Kernel H β) (r : Option γ) (v : Custody) (q : Kernel H β) :
    Prop :=
  Idle H A v ∧ ∃ x, r = some x ∧ q = g x

section OneBucket

variable {A : Base} {o : Memory} {fuel : ℕ} {i : ι} {β : Type} {key : HashKey} {b : ℕ}
  {es hand xs ys : List Addr} {e : Addr} {seen : KvHash.Chain} {q : Kernel H β}

/-- The end of a critical section. -/
theorem upholds_leave (h : Locked H A o b es []) {op : Op H} {g : KvHash.Res op → Kernel H β}
    {f : Alloc} {r : KvHash.Res op} (htakes : Takes ⟨b, h.lt⟩ seen op f r (o.entries es)) :
    (protocol ι H A fuel).Upholds i (Done A g)
      (.call (.unlock (some A.locks) b) fun _ => .ret (some r)) ⟨o, seen⟩ (.call op g) :=
  upholds_unlock h htakes fun hidle => (Protocol.upholds_ret ..).2 ⟨hidle, r, rfl, rfl⟩

/-- The value of an entry is read. -/
theorem upholds_value {α : Type} {Q : α → Custody → Kernel H β → Prop} {v : Addr} {k : Ptr → Code α}
    (he : o.Mine A e) (hv : o.value e = some v)
    (hk : (protocol ι H A fuel).Upholds i Q (k (some v)) ⟨o, seen⟩ q) :
    (protocol ι H A fuel).Upholds i Q (.call (.value e) k) ⟨o, seen⟩ q := by
  have hret : (exec (.value e) o).1 = some v := hv
  refine upholds_instr (.value he) ?_
  rw [hret]
  exact hk

/-- The walk over the chain of the bucket, and what follows it. -/
theorem upholds_findEntry {α : Type} {Q : α → Custody → Kernel H β → Prop} (h : Locked H A o b es hand)
    (hf : es.length ≤ fuel) {k : Option Ptr → Code α}
    (hnone : (∀ x ∈ es, o.key x ≠ key) →
      (protocol ι H A fuel).Upholds i Q (k (some none)) ⟨o, seen⟩ q)
    (hsome : ∀ xs e ys, es = xs ++ e :: ys → (∀ x ∈ xs, o.key x ≠ key) → o.key e = key →
      (protocol ι H A fuel).Upholds i Q (k (some (some e))) ⟨o, seen⟩ q) :
    (protocol ι H A fuel).Upholds i Q
      (.call (.load (A.head b)) fun first => findEntry key fuel first >>= k) ⟨o, seen⟩ q := by
  have hwalk := ensures_findEntry key h.chain hf fun j hj => h.confined_of_looks hj
  refine upholds_instr h.confined_head (upholds_own hwalk ?_)
  rintro r o' ⟨rfl, rfl⟩
  cases hfind : es.find? fun e => o'.key e = key with
  | none =>
      refine hnone fun x hx => ?_
      simpa using List.find?_eq_none.1 hfind x hx
  | some e =>
      obtain ⟨hkey, xs, ys, hsplit, hxs⟩ := List.find?_eq_some_iff_append.1 hfind
      exact hsome xs e ys hsplit (fun x hx => by simpa using hxs x hx) (by simpa using hkey)

/-- The value of the first entry for a key is replaced. -/
theorem upholds_replaceValue {new : Addr} {value : List UInt8} {g : ℤ → Kernel H β}
    (h : Locked H A o (H.hashMin key) es [new]) (hsplit : es = xs ++ e :: ys)
    (hxs : ∀ x ∈ xs, o.key x ≠ key) (hkey : o.key e = key) (hnew : o.string new = cstr value) :
    (protocol ι H A fuel).Upholds i (Done A g)
      (replaceValue (A.toTable H) (H.hashMin key) e (some new)) ⟨o, o.entries es⟩
      (.call (.add key value) g) := by
  have he : e ∈ es := by simp [hsplit]
  obtain ⟨v, hv⟩ := Option.ne_none_iff_exists'.1 (h.value he)
  have hlocked := (h.replaceValue he hv).kfree
  have hentries := h.holds.entries_replaceValue h.lt ((Layout.chains_set_self ..).trans hsplit) (some new)
  have hfree : Confined A (exec (.value e) o).2 (.kfree (some v)) :=
    .kfree (h.mine_owned (mem_owned_value o he hv))
  -- the entry is still there when its value has been freed
  have hentry : Memory.Mine A { o with live := o.live.erase v } e := hlocked.mine_owned (mem_owned_self _ he)
  simp only [replaceValue, instr, Prog.call_bind, Prog.ret_bind, Prog.pure_eq]
  refine upholds_value (h.mine_owned (mem_owned_self o he)) hv ?_
  refine upholds_instr hfree (upholds_instr (.setValue _ hentry) ?_)
  refine upholds_leave hlocked (takes_add_update ?_)
  rw [hsplit, updateExisting_entries hxs hkey, ← hnew]
  exact congrArg some hentries.symm

/-- An entry with its value, both new, is linked, if memory is found for the entry. -/
theorem upholds_insertNew {new : Addr} {value : List UInt8} {place : Ptr} {g : ℤ → Kernel H β}
    (h : Locked H A o (H.hashMin key) es [new]) (habsent : ∀ x ∈ es, o.key x ≠ key)
    (hnew : o.string new = cstr value) :
    (protocol ι H A fuel).Upholds i (Done A g)
      (insertNew (A.toTable H) (H.hashMin key) key (some new) place) ⟨o, o.entries es⟩
      (.call (.add key value) g) := by
  have hupdate := updateExisting_entries_eq_none habsent (cstr value)
  simp only [insertNew, instr, Prog.call_bind, Prog.ret_bind, Prog.pure_eq]
  refine upholds_kmalloc ?_ fun e m hgained => ?_
  · -- the copy of the value is freed
    refine upholds_instr (.kfree (h.mine_hand List.mem_cons_self)) ?_
    exact upholds_leave h.kfree (takes_add_fail hupdate)
  · have hsame : ∀ c ∈ o.owned es, SameAt o m c := fun c hc => hgained.2 c (h.mine_owned hc)
    have hlocked := h.gain hgained.1 hsame
    have hentries := entries_of_same fun c hc => (hsame c hc).trans (sameAt_gain o m (insert e o.live) c)
    have hstring : (o.gain m (insert e o.live)).string new = cstr value :=
      (hgained.2 new (h.mine_hand List.mem_cons_self)).string.trans hnew
    rw [← hentries] at hupdate ⊢
    generalize o.gain m (insert e o.live) = o' at hlocked hstring hupdate ⊢
    have he : e ∈ [e, new] := List.mem_cons_self
    have hfields := hlocked.setFields he key (some new)
    have hlink := hfields.link (Function.update_self e (some new) o'.value)
    refine upholds_instr (.setKey key (hlocked.mine_hand he)) ?_
    refine upholds_instr (.setValue _ (hlocked.mine_hand he)) ?_
    refine upholds_own (ensures_hlistAddHead hfields.chain fun j l hj _ =>
      hfields.confined_of_handles ?_ hj l) ?_
    · intro x hx
      exact (List.mem_cons.1 hx).imp (fun hxe : x = e => hxe ▸ he) id
    · rintro ⟨⟩ _ rfl
      have htakes := takes_add_insert (H := H) hupdate
      rw [← hstring, ← entries_link (hlocked.notMem_of_hand he) key
        (o'.links.addHead e (some A.buckets, H.hashMin key))] at htakes
      exact upholds_leave hlink htakes

/-- An entry is unlinked and freed. -/
theorem upholds_removeEntry {g : ℤ → Kernel H β} (h : Locked H A o (H.hashMin key) es [])
    (hsplit : es = xs ++ e :: ys) (hxs : ∀ x ∈ xs, o.key x ≠ key) (hkey : o.key e = key) :
    (protocol ι H A fuel).Upholds i (Done A g) (removeEntry (A.toTable H) (H.hashMin key) e)
      ⟨o, o.entries es⟩ (.call (.remove key) g) := by
  subst hsplit
  obtain ⟨v, hv⟩ := Option.ne_none_iff_exists'.1 (h.value (e := e) (by simp))
  have hunlink := h.unlink hv LIST_POISON1 LIST_POISON2
  have hvalue := hunlink.kfree
  simp only [removeEntry, instr, Prog.call_bind, Prog.ret_bind, Prog.pure_eq]
  refine upholds_own (ensures_hlistDel h.chain fun j l hj _ =>
    h.confined_of_handles (fun x hx => .inr hx) hj l) ?_
  rintro ⟨⟩ _ rfl
  refine upholds_value (hunlink.mine_hand (by simp)) hv ?_
  refine upholds_instr (.kfree (hunlink.mine_hand (by simp))) ?_
  refine upholds_instr (.kfree (hvalue.mine_hand (by simp))) ?_
  exact upholds_leave hvalue.kfree (takes_remove (unlink_entries hxs hkey))

/-- The value of an entry is copied, if there is room for it. -/
theorem upholds_copyValue {outBuf : Buf MAX_VALUE_LEN} {g : ℤ × Buf MAX_VALUE_LEN → Kernel H β}
    (h : Locked H A o (H.hashMin key) es []) (hsplit : es = xs ++ e :: ys)
    (hxs : ∀ x ∈ xs, o.key x ≠ key) (hkey : o.key e = key) :
    (protocol ι H A fuel).Upholds i (Done A g) (copyValue (A.toTable H) (H.hashMin key) e outBuf)
      ⟨o, o.entries es⟩ (.call (.lookup key outBuf) g) := by
  have he : e ∈ es := by simp [hsplit]
  obtain ⟨v, hv⟩ := Option.ne_none_iff_exists'.1 (h.value he)
  have hentry := h.mine_owned (mem_owned_self o he)
  have hstring : Confined A o (.string (some v)) := .string (h.mine_owned (mem_owned_value o he hv))
  have hfound : (o.entries es).dlookup key = some (o.string v) := by
    rw [hsplit, dlookup_entries hxs hkey, hv]
    rfl
  have htakes := takes_lookup (H := H) key (o.entries es) outBuf
  rw [hfound, lookedUp] at htakes
  simp only [copyValue, instr, Prog.call_bind, Prog.ret_bind, Prog.pure_eq]
  refine upholds_value hentry hv (upholds_instr hstring ?_)
  change (protocol ι H A fuel).Upholds i (Done A g) (if (o.string v).1.length + 1 > MAX_VALUE_LEN then _
    else _) _ _
  by_cases hlen : (o.string v).1.length + 1 > MAX_VALUE_LEN
  · rw [if_pos hlen] at htakes ⊢
    exact upholds_leave h htakes
  · rw [if_neg hlen] at htakes ⊢
    exact upholds_value hentry hv (upholds_instr hstring (upholds_leave h htakes))

/-- **`kv_hash_lookup`** is one step of the store. -/
theorem carries_kvHashLookup (key : HashKey) (outBuf : Buf MAX_VALUE_LEN) :
    (protocol ι H A fuel).Carries (Idle H A) β (kvHashLookup H fuel key outBuf)
      (lookup key outBuf) := by
  intro i v g hidle
  have hguard : ¬ ((A.toTable H).buckets = none ∨ MAX_VALUE_LEN = 0) := by
    rintro (hnull | hzero)
    · exact A.buckets_ne H hnull
    · cases hzero
  refine upholds_table ?_
  rw [if_neg hguard]
  simp only [instr, Prog.call_bind, Prog.ret_bind, Prog.pure_eq]
  refine upholds_lock (H.hashMin_lt key) hidle fun o es hlocked hlen _ => ?_
  refine upholds_findEntry hlocked hlen (fun habsent => ?_) fun xs e ys hsplit hxs hkey => ?_
  · have htakes := takes_lookup (H := H) key (o.entries es) outBuf
    rw [dlookup_entries_eq_none habsent] at htakes
    exact upholds_leave hlocked htakes
  · exact upholds_copyValue hlocked hsplit hxs hkey

/-- **`kv_hash_remove`** is one step of the store. -/
theorem carries_kvHashRemove (key : HashKey) :
    (protocol ι H A fuel).Carries (Idle H A) β (kvHashRemove H fuel key) (remove key) := by
  intro i v g hidle
  refine upholds_table ?_
  rw [if_neg (A.buckets_ne H)]
  simp only [instr, Prog.call_bind, Prog.ret_bind, Prog.pure_eq]
  refine upholds_lock (H.hashMin_lt key) hidle fun o es hlocked hlen _ => ?_
  refine upholds_findEntry hlocked hlen (fun habsent => ?_) fun xs e ys hsplit hxs hkey => ?_
  · exact upholds_leave hlocked (takes_remove_none (unlink_entries_eq_none habsent))
  · exact upholds_removeEntry hlocked hsplit hxs hkey

/-- **`kv_hash_add`** is one step of the store. -/
theorem carries_kvHashAdd (key : HashKey) (value : List UInt8) (places : Places) :
    (protocol ι H A fuel).Carries (Idle H A) β (kvHashAdd H fuel key value places)
      (add key value) := by
  intro i v g hidle
  refine upholds_table ?_
  rw [if_neg (A.buckets_ne H)]
  simp only [instr, Prog.call_bind, Prog.ret_bind, Prog.pure_eq]
  refine upholds_kstrdup (exec_add_fail key value) ⟨hidle, _, rfl, rfl⟩ fun a m hgained hstring => ?_
  refine upholds_lock (H.hashMin_lt key) (hidle.gain hgained.1 m) fun o es hlocked hlen hsame => ?_
  have hnew : o.string a = cstr value := (hsame a List.mem_cons_self).string.trans hstring
  refine upholds_findEntry hlocked hlen (fun habsent => ?_) fun xs e ys hsplit hxs hkey => ?_
  · exact upholds_insertNew hlocked habsent hnew
  · exact upholds_replaceValue hlocked hsplit hxs hkey hnew

/-- **The operations on one bucket** are steps of the store. -/
theorem carries_perform (places : Places) {op : Op H} (hop : ¬ op.Visits) :
    (protocol ι H A fuel).Carries (Idle H A) β (perform H fuel places op) (.call op .ret) := by
  cases op with
  | lookup key outBuf => exact carries_kvHashLookup key outBuf
  | add key value => exact carries_kvHashAdd key value places
  | remove key => exact carries_kvHashRemove key
  | visit b => exact absurd trivial hop

end OneBucket

/-! ### The scans -/

section Scans

variable {A : Base} {fuel : ℕ} {β : Type}

/-- The loop of `kv_hash_count`: one visit for each bucket. -/
theorem carries_countBuckets (bs : List (Fin H.n)) (count : Int32) :
    (protocol ι H A fuel).Carries (Idle H A) β
      (countBuckets (A.toTable H) fuel (bs.map Fin.val) count) (countLoop bs count) := by
  induction bs generalizing count with
  | nil => exact Protocol.carries_ret count
  | cons b bs ih =>
      intro i v g hidle
      simp only [List.map_cons, countBuckets, instr, Prog.call_bind, Prog.ret_bind, Prog.pure_eq]
      refine upholds_lock b.2 hidle fun o es hlocked hlen _ => ?_
      have hwalk := ensures_countWalk hlocked.chain hlen (fun j hj => hlocked.confined_of_looks hj) count
      refine upholds_instr hlocked.confined_head (upholds_own hwalk ?_)
      rintro r _ ⟨rfl, rfl⟩
      exact upholds_unlock hlocked (takes_visit b) fun hidle' => ih _ i _ g hidle'

/-- The loop of `kv_hash_snapshot`: one visit for each bucket, until the array is full. -/
theorem carries_copyBuckets (maxEntries : ℕ) (bs : List (Fin H.n)) (count : ℕ)
    (entries : List KvMessage) :
    (protocol ι H A fuel).Carries (Idle H A) β
      (copyBuckets (A.toTable H) maxEntries fuel (bs.map Fin.val) count entries)
      (copyLoop maxEntries bs count entries) := by
  induction bs generalizing count entries with
  | nil => exact Protocol.carries_ret _
  | cons b bs ih =>
      intro i v g hidle
      simp only [List.map_cons, copyBuckets, instr, Prog.call_bind, Prog.ret_bind, Prog.pure_eq]
      refine upholds_lock b.2 hidle fun o es hlocked hlen _ => ?_
      have hwalk := ensures_copyWalk hlocked.chain hlen (fun j hj => hlocked.confined_of_looks hj)
        maxEntries count entries
      refine upholds_instr hlocked.confined_head (upholds_own hwalk ?_)
      rintro r o' ⟨hr, rfl⟩
      obtain ⟨⟨full, count', entries'⟩, hcopy⟩ :
          ∃ res, copyChain maxEntries (o'.entries es) count entries = res := ⟨_, rfl⟩
      obtain rfl : r = some (full, count', entries') := hr.trans (congrArg some hcopy)
      refine upholds_unlock hlocked (takes_visit b) fun hidle' => ?_
      dsimp only
      rw [hcopy]
      cases full with
      | true => exact ⟨hidle', _, rfl, rfl⟩
      | false => exact ih _ _ i _ g hidle'

/-- The buckets that a scan goes through. -/
theorem Base.range_eq (A : Base) :
    List.range (2 ^ (A.toTable H).bits) = (List.finRange H.n).map Fin.val := range_eq_map_finRange H

/-- **`kv_hash_count`** is a visit to each bucket. -/
theorem carries_kvHashCount :
    (protocol ι H A fuel).Carries (Idle H A) β (kvHashCount fuel) KvHash.kvHashCount := by
  intro i v g hidle
  refine upholds_table ?_
  rw [if_neg (A.buckets_ne H), A.range_eq]
  exact carries_countBuckets (List.finRange H.n) 0 i v g hidle

/-- **`kv_hash_snapshot`** is a visit to each bucket, until the array is full. -/
theorem carries_kvHashSnapshot (entries : List KvMessage) (maxEntries : ℕ) :
    (protocol ι H A fuel).Carries (Idle H A) β (kvHashSnapshot fuel entries maxEntries)
      (KvHash.kvHashSnapshot entries maxEntries) := by
  intro i v g hidle
  refine upholds_table ?_
  rw [KvHash.kvHashSnapshot]
  by_cases hmax : maxEntries = 0
  · rw [if_pos (.inr hmax), if_pos hmax]
    exact Protocol.carries_ret _ i v g hidle
  · have hguard : ¬ ((A.toTable H).buckets = none ∨ maxEntries = 0) :=
      not_or.2 ⟨A.buckets_ne H, hmax⟩
    rw [if_neg hguard, if_neg hmax, A.range_eq]
    exact carries_copyBuckets maxEntries (List.finRange H.n) 0 entries i v g hidle

end Scans

/-! ### The ioctls -/

section Ioctls

variable {A : Base} {fuel : ℕ} {β : Type}

theorem carries_handleKvCount (env : KernelEnv) (arg : UInt32) :
    (protocol ι H A fuel).Carries (Idle H A) β (handleKvCount fuel env arg)
      (KvIoctl.handleKvCount env arg) :=
  carries_kvHashCount.bind fun _ => Protocol.carries_ite (Protocol.carries_ret _)
    (Protocol.carries_ite (Protocol.carries_ret _) (Protocol.carries_ret _))

theorem carries_handleSnapshot (msg : KvSnapshotMessage) :
    (protocol ι H A fuel).Carries (Idle H A) β (handleSnapshot fuel msg)
      (KvIoctl.handleSnapshot msg) :=
  (carries_kvHashSnapshot msg.entries msg.capacity.toNat).bind fun _ =>
    Protocol.carries_ite (Protocol.carries_ret _) (Protocol.carries_ret _)

theorem carries_handleKvSnapshot (env : KernelEnv) (arg : KvSnapshotMessage) :
    (protocol ι H A fuel).Carries (Idle H A) β (handleKvSnapshot fuel env arg)
      (KvIoctl.handleKvSnapshot env arg) := by
  refine Protocol.carries_ite (Protocol.carries_ret _) (carries_kvHashCount.bind fun actualCount => ?_)
  refine Protocol.carries_ite (Protocol.carries_ret _) (Protocol.carries_ite (Protocol.carries_ret _) ?_)
  refine (carries_handleSnapshot _).bind fun r => ?_
  exact Protocol.carries_ite (Protocol.carries_ret _)
    (Protocol.carries_ite (Protocol.carries_ret _) (Protocol.carries_ret _))

/-- **An ioctl of a table in memory**, beside others, does what the ioctl of the store does. -/
theorem carries_ioctl (c : IoctlCall) :
    (protocol ι H A fuel).Carries (Idle H A) β (c.code H fuel) (kvIoctl c.env c.ioctl) := by
  obtain ⟨env, places, ioctl⟩ := c
  cases ioctl with
  | message cmd arg =>
      have hperform : ∀ op : Op H, ¬ op.Visits → (protocol ι H A fuel).Carries (Idle H A) β
          (perform H fuel places op) (.call op .ret) := fun op hop => carries_perform places hop
      -- the handlers of messages make no scan
      have hvisits : (KvIoctl.handleKvMessage env cmd arg : Kernel H (ℤ × KvMessage)).Uses
          fun op => ¬ op.Visits := by
        refine (uses_handleKvMessage env cmd arg).mono fun op hop => ?_
        cases op with
        | visit b => exact hop.elim
        | _ => exact id
      exact (Protocol.carries_lower hperform hvisits).map _
  | snapshot arg => exact (carries_handleKvSnapshot env arg).map _
  | count arg => exact (carries_handleKvCount env arg).map _

end Ioctls

end KvMemory
