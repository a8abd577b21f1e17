/-
**What the calls do to the memory.**

An operation on one bucket is the walk to the first entry for its key, and one of the ends of
`KvStore/KvCriticalSection.lean`.  The two scans walk over one chain after the other, and change nothing.

Of each call this module says, in one statement, that all its instructions are in order, that it returns,
what it answers, and what it leaves: the table that `KvStore/KvHash.lean` says it leaves.

Main definitions:

* `KvMemory.Looks` — what the walks do.

Main results:

* `KvMemory.ensures_findEntry`, `KvMemory.ensures_countWalk`, `KvMemory.ensures_copyWalk` — the walks;
* `KvMemory.ensures_kvHashAdd`, `KvMemory.ensures_kvHashRemove`, `KvMemory.ensures_kvHashLookup` — **the
  operations on one bucket**;
* `KvMemory.ensures_kvHashCount`, `KvMemory.ensures_kvHashSnapshot` — **the scans**.
-/

import KvStore.KvCriticalSection

set_option relaxedAutoImplicit false
set_option autoImplicit false

namespace KvMemory

open CMem KvHash KvIoctl Interleave Blocks

variable {H : HashFn}

/-! ### The walks -/

section Walks

variable {P : Memory → Instr → Prop} {m : Memory} {s : Place} {es : List Addr}

/-- What a walk over the entries `es` looks at. -/
def Looks (m : Memory) (es : List Addr) (i : Instr) : Prop :=
  ∃ e ∈ es, i = .key e ∨ i = .value e ∨ i = .load (.next e) ∨ i = .string (m.value e)

theorem looks_key (m : Memory) (e : Addr) (es : List Addr) : Looks m (e :: es) (.key e) :=
  ⟨e, List.mem_cons_self, .inl rfl⟩

theorem looks_value (m : Memory) (e : Addr) (es : List Addr) : Looks m (e :: es) (.value e) :=
  ⟨e, List.mem_cons_self, .inr (.inl rfl)⟩

theorem looks_next (m : Memory) (e : Addr) (es : List Addr) : Looks m (e :: es) (.load (.next e)) :=
  ⟨e, List.mem_cons_self, .inr (.inr (.inl rfl))⟩

theorem looks_string (m : Memory) (e : Addr) (es : List Addr) :
    Looks m (e :: es) (.string (m.value e)) :=
  ⟨e, List.mem_cons_self, .inr (.inr (.inr rfl))⟩

theorem Looks.cons {i : Instr} (h : Looks m es i) (e : Addr) : Looks m (e :: es) i := by
  obtain ⟨e', he', hi⟩ := h
  exact ⟨e', List.mem_cons_of_mem _ he', hi⟩

@[simp] theorem findEntry_none (key : HashKey) (fuel : ℕ) :
    findEntry key fuel none = .ret (some none) := by
  cases fuel <;> rfl

/-- The walk of the operations on one bucket finds the first entry for the key. -/
theorem ensures_findEntry (key : HashKey) {fuel : ℕ} (h : m.links.Chain s es) (hf : es.length ≤ fuel)
    (hP : ∀ i, Looks m es i → P m i) :
    (findEntry key fuel (m.links.slot s)).Ensures exec P
      (fun r t => r = some (es.find? fun e => m.key e = key) ∧ t = m) m := by
  induction es generalizing s fuel with
  | nil =>
      rw [show m.links.slot s = none from h, findEntry_none]
      exact ⟨trivial, rfl, rfl⟩
  | cons e es ih =>
      obtain ⟨hs, -, hrest⟩ := h
      obtain ⟨fuel, rfl⟩ := Nat.exists_eq_add_of_le' (Nat.succ_le_of_lt (Nat.zero_lt_of_lt hf))
      rw [hs, findEntry]
      simp only [instr, Prog.call_bind, Prog.ret_bind, Prog.pure_eq, Prog.ensures_call, Prog.ensures_ret,
        Prog.ensures_ite]
      refine ⟨hP _ (looks_key m e es), fun (hk : m.key e = key) => ?_,
        fun (hk : ¬ m.key e = key) => ⟨hP _ (looks_next m e es), ?_⟩⟩
      · rw [List.find?_cons_of_pos (by simpa using hk)]
        exact ⟨rfl, rfl⟩
      · rw [List.find?_cons_of_neg (by simpa using hk)]
        exact ih hrest (by simpa using hf) fun i hi => hP i (hi.cons e)

@[simp] theorem countWalk_none (fuel : ℕ) (count : Int32) :
    countWalk fuel none count = .ret (some count) := by
  cases fuel <;> rfl

/-- The walk of `kv_hash_count` counts the entries. -/
theorem ensures_countWalk {fuel : ℕ} (h : m.links.Chain s es) (hf : es.length ≤ fuel)
    (hP : ∀ i, Looks m es i → P m i) (count : Int32) :
    (countWalk fuel (m.links.slot s) count).Ensures exec P
      (fun r t => r = some (countChain count (m.entries es)) ∧ t = m) m := by
  induction es generalizing s fuel count with
  | nil =>
      rw [show m.links.slot s = none from h, countWalk_none]
      exact ⟨trivial, rfl, rfl⟩
  | cons e es ih =>
      obtain ⟨hs, -, hrest⟩ := h
      obtain ⟨fuel, rfl⟩ := Nat.exists_eq_add_of_le' (Nat.succ_le_of_lt (Nat.zero_lt_of_lt hf))
      rw [hs, countWalk]
      simp only [instr, Prog.call_bind, Prog.ret_bind, Prog.ensures_call, exec]
      refine ⟨hP _ (looks_next m e es), ?_⟩
      exact ih hrest (by simpa using hf) (fun i hi => hP i (hi.cons e)) (count + 1)

@[simp] theorem copyWalk_none (maxEntries fuel count : ℕ) (entries : List KvMessage) :
    copyWalk maxEntries fuel none count entries = .ret (some (false, count, entries)) := by
  cases fuel <;> rfl

/-- The walk of `kv_hash_snapshot` copies entries while there is room. -/
theorem ensures_copyWalk {fuel : ℕ} (h : m.links.Chain s es) (hf : es.length ≤ fuel)
    (hP : ∀ i, Looks m es i → P m i) (maxEntries count : ℕ) (entries : List KvMessage) :
    (copyWalk maxEntries fuel (m.links.slot s) count entries).Ensures exec P
      (fun r t => r = some (copyChain maxEntries (m.entries es) count entries) ∧ t = m) m := by
  induction es generalizing s fuel count entries with
  | nil =>
      rw [show m.links.slot s = none from h, copyWalk_none]
      exact ⟨trivial, rfl, rfl⟩
  | cons e es ih =>
      obtain ⟨hs, -, hrest⟩ := h
      obtain ⟨fuel, rfl⟩ := Nat.exists_eq_add_of_le' (Nat.succ_le_of_lt (Nat.zero_lt_of_lt hf))
      rw [hs, copyWalk, entries_cons, copyChain]
      by_cases hfull : count ≥ maxEntries
      · rw [if_pos hfull, if_pos hfull]
        exact ⟨trivial, rfl, rfl⟩
      · rw [if_neg hfull, if_neg hfull]
        simp only [instr, Prog.call_bind, Prog.ret_bind, Prog.ensures_call, exec]
        refine ⟨hP _ (looks_key m e es), hP _ (looks_value m e es), hP _ (looks_string m e es),
          hP _ (looks_next m e es), ?_⟩
        exact ih hrest (by simpa using hf) (fun i hi => hP i (hi.cons e)) _ _

end Walks

theorem Inside.fine_of_looks {L₀ L : Layout} {m₀ m : Memory} {b : ℕ} {hand : List Addr}
    (h : Inside H L₀ m₀ b m L hand) {i : Instr} (hi : Looks m (L.chains b) i) : Fine L.ready m i := by
  obtain ⟨e, he, rfl | rfl | rfl | rfl⟩ := hi
  · exact h.fine_entry he rfl rfl rfl
  · exact h.fine_entry he rfl rfl rfl
  · exact h.fine_entry he rfl rfl rfl
  · obtain ⟨v, hv⟩ := Option.ne_none_iff_exists'.1 (h.holds.value b h.lt_ready e he)
    exact h.fine_value he hv (by rw [hv]; rfl) rfl rfl

/-! ### The operations on one bucket -/

section OneBucket

variable {L₀ L : Layout} {m₀ m : Memory} {hand : List Addr} {key : HashKey} {fuel : ℕ}

/-- The structure is read. -/
theorem Holds.ensures_table (h : Holds H m L hand) {α : Type} {k : Table → Code α}
    {Q : α → Memory → Prop} (hk : (k (L.toTable H)).Ensures exec (Fine L.ready) Q m) :
    (instr .table >>= k).Ensures exec (Fine L.ready) Q m := by
  rw [← h.table] at hk
  exact ⟨⟨fine_of_uses_none rfl rfl rfl, hk.1⟩, hk.2⟩

/-- A string is copied, if memory is found for it. -/
theorem ensures_kstrdup {s : CStr} {p : Ptr} {α : Type} {k : Ptr → Code α} {Q : α → Memory → Prop}
    (hnone : ¬ Found m.live p → (k none).Ensures exec (Fine L.ready) Q m)
    (hsome : ∀ a, p = some a → a ∉ m.live →
      (k (some a)).Ensures exec (Fine L.ready) Q (exec (.kstrdup s (some a)) m).2) :
    (instr (.kstrdup s p) >>= k).Ensures exec (Fine L.ready) Q m := by
  have hfine : Fine L.ready m (.kstrdup s p) := fine_of_uses_none rfl rfl rfl
  by_cases hfound : Found m.live p
  · obtain ⟨a, rfl, ha⟩ := hfound
    refine (Prog.ensures_call ..).2 ⟨hfine, ?_⟩
    rw [fst_kstrdup ha]
    exact hsome a rfl ha
  · refine (Prog.ensures_call ..).2 ⟨hfine, ?_⟩
    rw [exec_kstrdup_of_not_found hfound]
    exact hnone hfound

/-- The lock of a bucket is taken. -/
theorem Holds.fine_lock (h : Holds H m L hand) (hheld : m.held = []) {b : ℕ} (hb : b < L.guarded) :
    Fine L.ready m (.lock (some L.locks) b) := by
  refine ⟨⟨by simp [Instr.uses], ?_⟩, ⟨by simp [Instr.headOf], ?_⟩,
    by simp [Guarded, Touches, Instr.headOf, Instr.uses], hheld⟩
  · intro p c hp
    obtain ⟨rfl, rfl⟩ := Prod.mk.inj (Option.some.inj hp)
    exact ⟨_, h.live_locks, rfl⟩
  · intro p c hp
    obtain ⟨rfl, rfl⟩ := Prod.mk.inj (Option.some.inj hp)
    exact ⟨_, rfl, (h.lockReady _).trans (decide_eq_true hb)⟩

theorem Memory.unlock_lock (m : Memory) (b : ℕ) :
    { m with held := (b :: m.held).erase b } = m := by
  rw [List.erase_cons_head]

/-- The beginning of a critical section. -/
theorem Holds.inside (h : Holds H m L hand) (hheld : m.held = []) {b : ℕ} (hb : b < L.guarded) :
    Inside H L m b { m with held := b :: m.held } L hand where
  holds := ⟨h.table, h.ready_le, h.guarded_le, h.chain, h.value, h.headReady, h.lockReady, h.accounts⟩
  held := congrArg (b :: ·) hheld
  lt := hb
  frame := rfl
  others := fun _ _ _ => rfl

/-- A call that has done nothing. -/
theorem Holds.leaves (h : Holds H m L []) (hheld : m.held = []) (b : ℕ) :
    Leaves H L m b (m.entries (L.chains b)) m L :=
  ⟨h, hheld, rfl, rfl, fun _ _ _ => rfl⟩

/-- The walk over the chain of the bucket, and what follows it. -/
theorem Inside.ensures_findEntry {b : ℕ} (h : Inside H L₀ m₀ b m L hand)
    (hf : (L.chains b).length ≤ fuel)
    {α : Type} {k : Option Ptr → Code α} {Q : α → Memory → Prop}
    (hnone : (∀ e ∈ L.chains b, m.key e ≠ key) → (k (some none)).Ensures exec (Fine L.ready) Q m)
    (hsome : ∀ xs e ys, L.chains b = xs ++ e :: ys → (∀ x ∈ xs, m.key x ≠ key) → m.key e = key →
      (k (some (some e))).Ensures exec (Fine L.ready) Q m) :
    (findEntry key fuel (m.links.slot (L.head b)) >>= k).Ensures exec (Fine L.ready) Q m := by
  have hwalk := KvMemory.ensures_findEntry key (h.holds.chain b h.lt_ready) hf
    fun i hi => h.fine_of_looks hi
  rw [Prog.ensures_bind]
  refine hwalk.mono exec (fun _ _ => id) ?_
  rintro r t ⟨rfl, rfl⟩
  cases hfind : (L.chains b).find? fun e => t.key e = key with
  | none =>
      refine hnone fun e he => ?_
      simpa using List.find?_eq_none.1 hfind e he
  | some e =>
      obtain ⟨hkey, xs, ys, hsplit, hxs⟩ := List.find?_eq_some_iff_append.1 hfind
      exact hsome xs e ys hsplit (fun x hx => by simpa using hxs x hx) (by simpa using hkey)

/-- **`kv_hash_remove`.** -/
theorem ensures_kvHashRemove (h : Holds H m L []) (hheld : m.held = []) (hb : H.hashMin key < L.guarded)
    (hf : m.live.card ≤ fuel) :
    (kvHashRemove H fuel key).Ensures exec (Fine L.ready)
      (fun r t => r = some (KvHash.kvHashRemove (L.table H m) key).1 ∧ ∃ L', Leaves H L m (H.hashMin key)
        ((KvHash.kvHashRemove (L.table H m) key).2.chain (H.kvBucket key)) t L') m := by
  have hin := h.inside hheld hb
  have hlen := (h.length_chain_le hin.lt_ready).trans hf
  refine h.ensures_table ?_
  simp only [instr, Prog.call_bind, Prog.ret_bind, Prog.pure_eq, Prog.ensures_call, Prog.ensures_ret,
    Prog.ensures_ite]
  refine ⟨fun hnull => (Option.some_ne_none _ hnull).elim, fun _ =>
    ⟨h.fine_lock hheld hb, hin.fine_head hin.apart rfl rfl rfl, hin.ensures_findEntry hlen ?_ ?_⟩⟩
  · intro habsent
    have hunlink := unlink_entries_eq_none (m := m) habsent
    have hremove : KvHash.kvHashRemove (L.table H m) key = (-ENOENT, L.table H m) := by
      simp [KvHash.kvHashRemove, Layout.table, HashFn.kvBucket, hunlink]
    rw [hremove]
    exact ⟨⟨hin.fine_unlock, trivial⟩, rfl, L, hin.leaves rfl⟩
  · intro xs e ys hsplit hxs he
    have hunlink : KvHash.unlink key (m.entries (L.chains (H.hashMin key))) =
        some (m.entries (xs ++ ys)) := by
      rw [hsplit]
      exact unlink_entries hxs he
    refine (hin.ensures_removeEntry hsplit).mono exec (fun _ _ => id) ?_
    rintro r t ⟨rfl, hleaves⟩
    have hremove : KvHash.kvHashRemove (L.table H m) key = (0, ⟨some (Function.update
        (fun b => m.entries (L.chains b)) (H.kvBucket key) (m.entries (xs ++ ys)))⟩) := by
      simp [KvHash.kvHashRemove, Layout.table, HashFn.kvBucket, hunlink]
    rw [hremove, HashTable.chain_mk, Function.update_self]
    exact ⟨rfl, hleaves⟩

/-- **`kv_hash_lookup`.** -/
theorem ensures_kvHashLookup (h : Holds H m L []) (hheld : m.held = []) (hb : H.hashMin key < L.guarded)
    (hf : m.live.card ≤ fuel) {n : ℕ} (outBuf : Buf n) :
    (kvHashLookup H fuel key outBuf).Ensures exec (Fine L.ready)
      (fun r t => r = some (KvHash.kvHashLookup (L.table H m) key outBuf) ∧ t = m) m := by
  have hin := h.inside hheld hb
  have hlen := (h.length_chain_le hin.lt_ready).trans hf
  refine h.ensures_table ?_
  simp only [instr, Prog.call_bind, Prog.ret_bind, Prog.pure_eq, Prog.ensures_call, Prog.ensures_ret,
    Prog.ensures_ite]
  refine ⟨?_, fun hn => ⟨h.fine_lock hheld hb, hin.fine_head hin.apart rfl rfl rfl,
    hin.ensures_findEntry hlen ?_ ?_⟩⟩
  · rintro (hnull | rfl)
    · exact (Option.some_ne_none _ hnull).elim
    · exact ⟨by simp [KvHash.kvHashLookup, Layout.table], trivial⟩
  · intro habsent
    have hlookup := dlookup_entries_eq_none (m := m) habsent
    have hn0 : ¬ n = 0 := fun h0 => hn (.inr h0)
    have hrefused : KvHash.kvHashLookup (L.table H m) key outBuf = (-ENOENT, outBuf) := by
      simp [KvHash.kvHashLookup, Layout.table, HashFn.kvBucket, hlookup, hn0]
    rw [hrefused]
    exact ⟨⟨hin.fine_unlock, trivial⟩, rfl, Memory.unlock_lock m _⟩
  · intro xs e ys hsplit hxs he
    have hlookup : (m.entries (L.chains (H.hashMin key))).dlookup key =
        some (m.stringAt (m.value e)) := by
      rw [hsplit]
      exact dlookup_entries hxs he
    have hn0 : ¬ n = 0 := fun h0 => hn (.inr h0)
    refine (hin.ensures_copyValue (by simp [hsplit]) outBuf).mono exec (fun _ _ => id) ?_
    rintro r t ⟨rfl, rfl⟩
    refine ⟨?_, Memory.unlock_lock m _⟩
    simp only [KvHash.kvHashLookup, Layout.table, HashFn.kvBucket, hlookup, if_neg hn0]
    rfl

/-- **`kv_hash_add`.** -/
theorem ensures_kvHashAdd (h : Holds H m L []) (hheld : m.held = []) (hb : H.hashMin key < L.guarded)
    (hf : m.live.card ≤ fuel) (value : List UInt8) (places : Places) :
    (kvHashAdd H fuel key value places).Ensures exec (Fine L.ready)
      (fun r t => r = some (KvHash.kvHashAdd (L.table H m) key value (places.alloc m)).1 ∧
        ∃ L', Leaves H L m (H.hashMin key)
          ((KvHash.kvHashAdd (L.table H m) key value (places.alloc m)).2.chain (H.kvBucket key)) t L')
      m := by
  have hr : H.hashMin key < L.ready := hb.trans_le h.guarded_le
  have hlen := (h.length_chain_le hr).trans hf
  refine h.ensures_table ((Prog.ensures_ite ..).2 ⟨fun hnull => (Option.some_ne_none _ hnull).elim,
    fun _ => ensures_kstrdup ?_ ?_⟩)
  · intro hfound
    have hadd : KvHash.kvHashAdd (L.table H m) key value (places.alloc m) = (-ENOMEM, L.table H m) := by
      simp [KvHash.kvHashAdd, Layout.table, Places.alloc, hfound]
    rw [hadd]
    exact (Prog.ensures_ret ..).2 ⟨rfl, L, h.leaves hheld _⟩
  · intro a ha hlive
    have hin : Inside H L m (H.hashMin key) _ L [a] :=
      { (h.kstrdup hlive (cstr value)).inside hheld hb with
        others := fun c hc _ => h.entries_kstrdup hlive (cstr value) hc }
    have hentries := h.entries_kstrdup hlive (cstr value) hr
    have hstring : (exec (.kstrdup (cstr value) (some a)) m).2.string a = cstr value := by
      simp [exec, Memory.kmalloc, alloc_of_found hlive]
    have hkstrdup : (places.alloc m).kstrdup = true := by simp [Places.alloc, Found, ha, hlive]
    have hkmalloc : (places.alloc m).kmalloc =
        decide (Found (exec (.kstrdup (cstr value) (some a)) m).2.live places.kmalloc) := by
      rw [Places.alloc, ha]
      rfl
    simp only [instr, Prog.call_bind, Prog.ret_bind, Prog.ensures_call, Prog.ensures_ite]
    refine ⟨fun hnull => (Option.some_ne_none _ hnull).elim, fun _ =>
      ⟨(h.kstrdup hlive _).fine_lock hheld hb, hin.fine_head hin.apart rfl rfl rfl,
        hin.ensures_findEntry hlen ?_ ?_⟩⟩
    · intro habsent
      have hupdate : updateExisting key (cstr value) (m.entries (L.chains (H.hashMin key))) = none := by
        rw [← hentries]
        exact updateExisting_entries_eq_none habsent _
      by_cases hfound : Found (exec (.kstrdup (cstr value) (some a)) m).2.live places.kmalloc
      · have hadd : KvHash.kvHashAdd (L.table H m) key value (places.alloc m) =
            (0, ⟨some (Function.update (fun b => m.entries (L.chains b)) (H.kvBucket key)
              (⟨key, cstr value⟩ :: m.entries (L.chains (H.hashMin key))))⟩) := by
          simp [KvHash.kvHashAdd, Layout.table, hkstrdup, hkmalloc, hfound, HashFn.kvBucket, hupdate]
        obtain ⟨e, hplace, helive⟩ := hfound
        rw [hplace, hadd, HashTable.chain_mk, Function.update_self]
        exact hin.ensures_insertNew_of_found helive key hstring hentries
      · have hadd : KvHash.kvHashAdd (L.table H m) key value (places.alloc m) =
            (-ENOMEM, L.table H m) := by
          simp [KvHash.kvHashAdd, Layout.table, hkstrdup, hkmalloc, hfound, HashFn.kvBucket, hupdate]
        rw [hadd]
        exact hin.ensures_insertNew_of_not_found hfound key hentries
    · intro xs e ys hsplit hxs he
      obtain ⟨chain, hchain⟩ : ∃ chain, updateExisting key (cstr value)
          (m.entries (L.chains (H.hashMin key))) = some chain := by
        rw [← hentries, hsplit]
        exact ⟨_, updateExisting_entries hxs he _⟩
      have hadd : KvHash.kvHashAdd (L.table H m) key value (places.alloc m) =
          (0, ⟨some (Function.update (fun b => m.entries (L.chains b)) (H.kvBucket key) chain)⟩) := by
        simp [KvHash.kvHashAdd, Layout.table, hkstrdup, HashFn.kvBucket, hchain]
      rw [hadd, HashTable.chain_mk, Function.update_self]
      rw [← hentries] at hchain
      exact hin.ensures_replaceValue hsplit hxs he hstring hchain

end OneBucket

/-! ### The scans -/

section Scans

variable {L : Layout} {m : Memory} {fuel : ℕ}

/-- Nothing but the lock of a bucket is changed on a visit to it. -/
theorem ensures_unlock {L₀ : Layout} {m₀ : Memory} {b : ℕ} {α : Type} {p : Code α}
    {Q : α → Memory → Prop} (h : Inside H L₀ m₀ b { m with held := b :: m.held } L [])
    (hp : p.Ensures exec (Fine L.ready) Q m) :
    (Prog.call (.unlock (some L.locks) b) fun _ => p).Ensures exec (Fine L.ready) Q
      { m with held := b :: m.held } := by
  refine (Prog.ensures_call ..).2 ⟨h.fine_unlock, ?_⟩
  rw [← Memory.unlock_lock m b] at hp
  exact hp

/-- The loop of `kv_hash_count` counts what the loop over the store counts. -/
theorem ensures_countBuckets (h : Holds H m L []) (hheld : m.held = []) (hf : m.live.card ≤ fuel)
    {bs : List (Fin H.n)} (hbs : ∀ b ∈ bs, b.1 < L.guarded) (count : Int32) :
    (countBuckets (L.toTable H) fuel (bs.map Fin.val) count).Ensures exec (Fine L.ready)
      (fun r t => t = m ∧ ∃ a, r = some a ∧ ∀ s : Store H, s.1 = L.table H m → ∀ alloc,
        ((countLoop bs count).run (KvHash.exec alloc) s).1 = a) m := by
  induction bs generalizing count with
  | nil => exact (Prog.ensures_ret ..).2 ⟨rfl, count, rfl, fun _ _ _ => rfl⟩
  | cons b bs ih =>
      have hb : b.1 < L.guarded := hbs b List.mem_cons_self
      have hin := h.inside hheld hb
      have hlen := (h.length_chain_le hin.lt_ready).trans hf
      simp only [List.map_cons, countBuckets, instr, Prog.call_bind, Prog.ret_bind, Prog.pure_eq,
        Prog.ensures_call]
      refine ⟨h.fine_lock hheld hb, hin.fine_head hin.apart rfl rfl rfl, ?_⟩
      rw [Prog.ensures_bind]
      have hwalk := ensures_countWalk (hin.holds.chain b hin.lt_ready) hlen
        (fun i hi => hin.fine_of_looks hi) count
      refine hwalk.mono exec (fun _ _ => id) ?_
      rintro r t ⟨rfl, rfl⟩
      refine ensures_unlock hin ((ih (fun b' hb' => hbs b' (List.mem_cons_of_mem _ hb')) _).mono exec
        (fun _ _ => id) ?_)
      rintro r t ⟨rfl, a, rfl, ha⟩
      refine ⟨rfl, a, rfl, fun s hs alloc => ?_⟩
      have hchain : s.1.chain b = t.entries (L.chains b) := by
        rw [hs]
        rfl
      refine Eq.trans ?_ (ha s hs alloc)
      exact congrArg (fun chain => ((countLoop bs (countChain count chain)).run (KvHash.exec alloc) s).1)
        hchain

/-- The loop of `kv_hash_snapshot` copies what the loop over the store copies. -/
theorem ensures_copyBuckets (h : Holds H m L []) (hheld : m.held = []) (hf : m.live.card ≤ fuel)
    {bs : List (Fin H.n)} (hbs : ∀ b ∈ bs, b.1 < L.guarded) (maxEntries count : ℕ)
    (entries : List KvMessage) :
    (copyBuckets (L.toTable H) maxEntries fuel (bs.map Fin.val) count entries).Ensures exec (Fine L.ready)
      (fun r t => t = m ∧ ∃ a, r = some a ∧ ∀ s : Store H, s.1 = L.table H m → ∀ alloc,
        ((copyLoop maxEntries bs count entries).run (KvHash.exec alloc) s).1 = a) m := by
  induction bs generalizing count entries with
  | nil => exact (Prog.ensures_ret ..).2 ⟨rfl, _, rfl, fun _ _ _ => rfl⟩
  | cons b bs ih =>
      have hb : b.1 < L.guarded := hbs b List.mem_cons_self
      have hin := h.inside hheld hb
      have hlen := (h.length_chain_le hin.lt_ready).trans hf
      simp only [List.map_cons, copyBuckets, instr, Prog.call_bind, Prog.ret_bind, Prog.pure_eq,
        Prog.ensures_call]
      refine ⟨h.fine_lock hheld hb, hin.fine_head hin.apart rfl rfl rfl, ?_⟩
      rw [Prog.ensures_bind]
      have hwalk := ensures_copyWalk (hin.holds.chain b hin.lt_ready) hlen
        (fun i hi => hin.fine_of_looks hi) maxEntries count entries
      obtain ⟨⟨full, count', entries'⟩, hcopy⟩ :
          ∃ res, copyChain maxEntries (m.entries (L.chains b)) count entries = res := ⟨_, rfl⟩
      have hchain : ∀ s : Store H, s.1 = L.table H m →
          copyChain maxEntries (s.1.chain b) count entries = (full, count', entries') := by
        intro s hs
        rw [hs]
        exact hcopy
      refine hwalk.mono exec (fun _ _ => id) ?_
      rintro r t ⟨hr, rfl⟩
      obtain rfl : r = some (full, count', entries') := hr.trans (congrArg some hcopy)
      refine ensures_unlock hin ((Prog.ensures_ite ..).2 ⟨?_, ?_⟩)
      · rintro rfl
        refine (Prog.ensures_ret ..).2 ⟨rfl, _, rfl, fun s hs alloc => ?_⟩
        rw [run_copyLoop_of_full alloc bs (hchain s hs)]
      · intro hfull
        obtain rfl : full = false := by simpa using hfull
        refine (ih (fun b' hb' => hbs b' (List.mem_cons_of_mem _ hb')) _ _).mono exec (fun _ _ => id) ?_
        rintro r t ⟨rfl, a, rfl, ha⟩
        refine ⟨rfl, a, rfl, fun s hs alloc => ?_⟩
        rw [run_copyLoop_of_room alloc bs (hchain s hs)]
        exact ha s hs alloc

/-- The buckets, in the order in which a scan visits them. -/
theorem range_eq_map_finRange (H : HashFn) :
    List.range (2 ^ H.bits) = (List.finRange H.n).map Fin.val := List.map_coe_finRange_eq_range.symm

/-- **`kv_hash_count`.** -/
theorem ensures_kvHashCount (h : Holds H m L []) (hheld : m.held = []) (hg : L.guarded = H.n)
    (hf : m.live.card ≤ fuel) :
    (kvHashCount fuel).Ensures exec (Fine L.ready)
      (fun r t => t = m ∧ ∃ a, r = some a ∧ ∀ s : Store H, s.1 = L.table H m → ∀ alloc,
        (KvHash.kvHashCount.run (KvHash.exec alloc) s).1 = a) m := by
  refine h.ensures_table ((Prog.ensures_ite ..).2 ⟨fun hnull => (Option.some_ne_none _ hnull).elim,
    fun _ => ?_⟩)
  rw [range_eq_map_finRange]
  exact ensures_countBuckets h hheld hf (fun b _ => b.2.trans_eq hg.symm) 0

/-- **`kv_hash_snapshot`.** -/
theorem ensures_kvHashSnapshot (h : Holds H m L []) (hheld : m.held = []) (hg : L.guarded = H.n)
    (hf : m.live.card ≤ fuel) (entries : List KvMessage) (maxEntries : ℕ) :
    (kvHashSnapshot fuel entries maxEntries).Ensures exec (Fine L.ready)
      (fun r t => t = m ∧ ∃ a, r = some a ∧ ∀ s : Store H, s.1 = L.table H m → ∀ alloc,
        ((KvHash.kvHashSnapshot entries maxEntries).run (KvHash.exec alloc) s).1 = a) m := by
  refine h.ensures_table ((Prog.ensures_ite ..).2 ⟨?_, fun hmax => ?_⟩)
  · rintro (hnull | rfl)
    · exact (Option.some_ne_none _ hnull).elim
    · exact (Prog.ensures_ret ..).2 ⟨rfl, _, rfl, fun _ _ _ => rfl⟩
  · have hmax0 : ¬ maxEntries = 0 := fun h0 => hmax (.inr h0)
    rw [range_eq_map_finRange]
    simp only [KvHash.kvHashSnapshot, if_neg hmax0]
    exact ensures_copyBuckets h hheld hf (fun b _ => b.2.trans_eq hg.symm) maxEntries 0 entries

end Scans

end KvMemory
