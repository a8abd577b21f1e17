/-
**What the memory of the hash table looks like.**

In the memory of `KvStore/KvMemory.lean` a table consists of two arrays and of the entries that are linked
into the chains, each with the block of its value.  A layout says which blocks these are, and up to which
bucket the arrays have been initialised.

The blocks of the layout, together with those that a call has in its hands, account for all live blocks.
So a block that is freed is one that the call has in its hands, and what is done to one chain does not
concern the others.  The lemmas of this module say what the parts of an operation do to the layout and to
the blocks in hand; the operations are put together from them in `KvStore/KvMemoryCalls.lean`.

Main definitions:

* `KvMemory.Layout`, `KvMemory.Layout.blocks` — layouts, and their blocks;
* `KvMemory.Holds` — **the memory has this layout**, and the call has these blocks in its hands;
* `KvMemory.Memory.entries` — what a chain contains.

Main results:

* `KvMemory.Holds.kmalloc`, `KvMemory.Holds.kfree`, `KvMemory.Holds.replaceValue`,
  `KvMemory.Holds.addHead`, `KvMemory.Holds.del` — the parts of the operations;
* `KvMemory.Holds.initHead`, `KvMemory.Holds.initLock` — the loop of `kv_hash_init`.
-/

import KvStore.KvMemory

set_option relaxedAutoImplicit false
set_option autoImplicit false

namespace KvMemory

open CMem KvHash KvIoctl Interleave Blocks

variable {H : HashFn}

/-! ### Layouts -/

/-- The two arrays, how many heads and how many locks have been initialised, and the entries of each
chain. -/
structure Layout where
  buckets : Addr
  locks : Addr
  ready : ℕ
  guarded : ℕ
  chains : ℕ → List Addr

/-- The structure, once both arrays are there. -/
abbrev Layout.toTable (H : HashFn) (L : Layout) : Table := ⟨some L.buckets, some L.locks, H.bits⟩

/-- What no call changes: the arrays, and how far they have been initialised. -/
def Layout.frame (L : Layout) : Addr × Addr × ℕ × ℕ := (L.buckets, L.locks, L.ready, L.guarded)

theorem Layout.frame_eq_iff {L : Layout} {a c : Addr} {r g : ℕ} :
    L.frame = (a, c, r, g) ↔ L.buckets = a ∧ L.locks = c ∧ L.ready = r ∧ L.guarded = g := by
  simp [frame]

/-- The place of the head of a bucket. -/
def Layout.head (L : Layout) (b : ℕ) : Place := .head (some L.buckets, b)

/-- One chain is exchanged. -/
def Layout.set (L : Layout) (b : ℕ) (es : List Addr) : Layout :=
  { L with chains := Function.update L.chains b es }

@[simp] theorem Layout.chains_set_self (L : Layout) (b : ℕ) (es : List Addr) :
    (L.set b es).chains b = es := Function.update_self ..

theorem Layout.chains_set_of_ne (L : Layout) {b c : ℕ} (es : List Addr) (h : c ≠ b) :
    (L.set b es).chains c = L.chains c := Function.update_of_ne h ..

@[simp] theorem Layout.set_self (L : Layout) (b : ℕ) : L.set b (L.chains b) = L := by
  rw [set, Function.update_eq_self]

/-- One more head, with an empty chain. -/
def Layout.growHead (L : Layout) : Layout :=
  { L with ready := L.ready + 1, chains := Function.update L.chains L.ready [] }

/-- One more lock. -/
def Layout.growLock (L : Layout) : Layout := { L with guarded := L.guarded + 1 }

@[simp] theorem Layout.chains_growHead_self (L : Layout) : L.growHead.chains L.ready = [] :=
  Function.update_self ..

theorem Layout.chains_growHead_of_lt (L : Layout) {b : ℕ} (h : b < L.ready) :
    L.growHead.chains b = L.chains b := Function.update_of_ne h.ne ..

/-- The blocks of a chain. -/
def Memory.owned (m : Memory) (es : List Addr) : List Addr := es.flatMap m.own

/-- The blocks of the table. -/
def Layout.blocks (L : Layout) (m : Memory) : List Addr :=
  L.buckets :: L.locks :: (List.range L.ready).flatMap fun b => m.owned (L.chains b)

/-- The blocks of the chains of the other buckets than `b`. -/
def Layout.foreign (L : Layout) (m : Memory) (b : ℕ) : List Addr :=
  ((List.range L.ready).erase b).flatMap fun c => m.owned (L.chains c)

/-- The blocks of the table that do not belong to the chain of bucket `b`. -/
def Layout.others (L : Layout) (m : Memory) (b : ℕ) : List Addr :=
  L.buckets :: L.locks :: L.foreign m b

theorem mem_owned_self (m : Memory) {es : List Addr} {e : Addr} (h : e ∈ es) : e ∈ m.owned es :=
  List.mem_flatMap.2 ⟨e, h, List.mem_cons_self⟩

theorem mem_owned_value (m : Memory) {es : List Addr} {e v : Addr} (h : e ∈ es)
    (hv : m.value e = some v) : v ∈ m.owned es :=
  List.mem_flatMap.2 ⟨e, h, by simp [Memory.own, hv]⟩

theorem owned_cons (m : Memory) (e : Addr) (es : List Addr) :
    m.owned (e :: es) = m.own e ++ m.owned es := List.flatMap_cons ..

theorem owned_append (m : Memory) (es es' : List Addr) :
    m.owned (es ++ es') = m.owned es ++ m.owned es' := List.flatMap_append ..

/-- The blocks of a chain depend on the values of its entries. -/
theorem owned_congr {m m' : Memory} {es : List Addr} (h : ∀ e ∈ es, m'.value e = m.value e) :
    m'.owned es = m.owned es :=
  List.flatMap_congr fun e he => by rw [Memory.own, Memory.own, h e he]

/-- An entry of which the blocks of a chain know nothing is not in the chain. -/
theorem notMem_of_notMem_owned {m : Memory} {es : List Addr} {a : Addr} (h : a ∉ m.owned es) :
    a ∉ es := fun ha => h (mem_owned_self m ha)

theorem Layout.blocks_perm (L : Layout) (m : Memory) {b : ℕ} (hb : b < L.ready) :
    (L.blocks m).Perm (m.owned (L.chains b) ++ L.others m b) := by
  have hrange : (List.range L.ready).Perm (b :: (List.range L.ready).erase b) :=
    List.perm_cons_erase (List.mem_range.2 hb)
  have hflat := hrange.flatMap_right fun c => m.owned (L.chains c)
  rw [List.flatMap_cons] at hflat
  refine ((hflat.cons L.locks).cons L.buckets).trans ?_
  refine (List.Perm.cons L.buckets List.perm_middle.symm).trans ?_
  exact List.perm_middle.symm

theorem mem_foreign_iff {L : Layout} {m : Memory} {b : ℕ} {a : Addr} :
    a ∈ L.foreign m b ↔ ∃ c < L.ready, c ≠ b ∧ a ∈ m.owned (L.chains c) := by
  rw [Layout.foreign, List.mem_flatMap]
  constructor
  · rintro ⟨c, hc, ha⟩
    have hcb : c ≠ b := fun h => List.Nodup.not_mem_erase List.nodup_range (h ▸ hc)
    exact ⟨c, List.mem_range.1 (List.mem_of_mem_erase hc), hcb, ha⟩
  · rintro ⟨c, hc, hcb, ha⟩
    exact ⟨c, (List.mem_erase_of_ne hcb).2 (List.mem_range.2 hc), ha⟩

theorem mem_others_of_foreign {L : Layout} {m : Memory} {b : ℕ} {a : Addr} (h : a ∈ L.foreign m b) :
    a ∈ L.others m b := List.mem_cons_of_mem _ (List.mem_cons_of_mem _ h)

/-- The buckets whose chains are among the others. -/
theorem mem_others_of_ne {L : Layout} {m : Memory} {b c : ℕ} (hc : c < L.ready) (hcb : c ≠ b)
    {a : Addr} (ha : a ∈ m.owned (L.chains c)) : a ∈ L.others m b :=
  mem_others_of_foreign (mem_foreign_iff.2 ⟨c, hc, hcb, ha⟩)

/-- The blocks of the other chains depend on these chains and the values of their entries. -/
theorem Layout.foreign_set {L : Layout} {m m' : Memory} {b : ℕ} (es : List Addr)
    (hvalue : ∀ e ∈ L.foreign m b, m'.value e = m.value e) :
    (L.set b es).foreign m' b = L.foreign m b := by
  refine List.flatMap_congr fun c hc => ?_
  have hcb : c ≠ b := fun h => List.Nodup.not_mem_erase List.nodup_range (h ▸ hc)
  have hcr : c < L.ready := List.mem_range.1 (List.mem_of_mem_erase hc)
  rw [L.chains_set_of_ne es hcb]
  refine owned_congr fun e he => hvalue e ?_
  exact mem_foreign_iff.2 ⟨c, hcr, hcb, mem_owned_self m he⟩

theorem Layout.others_set {L : Layout} {m m' : Memory} {b : ℕ} (es : List Addr)
    (hvalue : ∀ e ∈ L.foreign m b, m'.value e = m.value e) :
    (L.set b es).others m' b = L.others m b := by
  rw [others, others, foreign_set es hvalue]
  rfl

/-! ### What a chain contains -/

/-- An entry of a chain, as `KvStore/KvHash.lean` has it. -/
def Memory.entryAt (m : Memory) (e : Addr) : KvHashEntry := ⟨m.key e, m.stringAt (m.value e)⟩

/-- What a chain contains. -/
def Memory.entries (m : Memory) (es : List Addr) : KvHash.Chain := es.map m.entryAt

@[simp] theorem entries_nil (m : Memory) : m.entries [] = [] := rfl

@[simp] theorem entries_cons (m : Memory) (e : Addr) (es : List Addr) :
    m.entries (e :: es) = m.entryAt e :: m.entries es := rfl

theorem entries_append (m : Memory) (es es' : List Addr) :
    m.entries (es ++ es') = m.entries es ++ m.entries es' := List.map_append

/-- What a chain contains depends on its blocks. -/
theorem entries_congr {m m' : Memory} {es : List Addr} (hkey : ∀ e ∈ es, m'.key e = m.key e)
    (hvalue : ∀ e ∈ es, m'.value e = m.value e) (hstring : ∀ a ∈ m.owned es, m'.string a = m.string a) :
    m'.entries es = m.entries es := by
  refine List.map_congr_left fun e he => ?_
  have hstr : m'.stringAt (m.value e) = m.stringAt (m.value e) := by
    cases hv : m.value e with
    | none => rfl
    | some v => exact hstring v (mem_owned_value m he hv)
  rw [Memory.entryAt, Memory.entryAt, hkey e he, hvalue e he, hstr]

/-- The table in memory. -/
def Layout.table (H : HashFn) (L : Layout) (m : Memory) : HashTable H :=
  ⟨some fun b => m.entries (L.chains b)⟩

theorem notMem_keys_entries {m : Memory} {es : List Addr} {key : HashKey} :
    key ∉ (m.entries es).keys ↔ ∀ e ∈ es, m.key e ≠ key := by
  simp [Memory.entries, List.keys, Memory.entryAt, eq_comm]

section Absent

variable {m : Memory} {key : HashKey} {es : List Addr}

theorem updateExisting_entries_eq_none (h : ∀ e ∈ es, m.key e ≠ key) (newstr : CStr) :
    updateExisting key newstr (m.entries es) = none :=
  updateExisting_eq_none.2 (notMem_keys_entries.2 h)

theorem unlink_entries_eq_none (h : ∀ e ∈ es, m.key e ≠ key) : unlink key (m.entries es) = none := by
  rw [unlink_eq, if_neg (notMem_keys_entries.2 h)]

theorem dlookup_entries_eq_none (h : ∀ e ∈ es, m.key e ≠ key) :
    (m.entries es).dlookup key = none :=
  List.dlookup_eq_none.2 (notMem_keys_entries.2 h)

end Absent

section Split

variable {m : Memory} {key : HashKey} {xs ys : List Addr} {e : Addr}

/-- The first entry for a key is the one that `kv_hash_add` updates. -/
theorem updateExisting_entries (hxs : ∀ x ∈ xs, m.key x ≠ key) (he : m.key e = key) (newstr : CStr) :
    updateExisting key newstr (m.entries (xs ++ e :: ys)) =
      some (m.entries xs ++ ⟨m.key e, newstr⟩ :: m.entries ys) := by
  induction xs with
  | nil => exact if_pos he
  | cons x xs ih =>
      have hx : (m.entryAt x).1 ≠ key := hxs x List.mem_cons_self
      rw [List.cons_append, entries_cons, updateExisting, if_neg hx,
        ih fun y hy => hxs y (List.mem_cons_of_mem _ hy)]
      rfl

/-- The first entry for a key is the one that `kv_hash_remove` unlinks. -/
theorem unlink_entries (hxs : ∀ x ∈ xs, m.key x ≠ key) (he : m.key e = key) :
    unlink key (m.entries (xs ++ e :: ys)) = some (m.entries (xs ++ ys)) := by
  induction xs with
  | nil => exact if_pos he
  | cons x xs ih =>
      have hx : (m.entryAt x).1 ≠ key := hxs x List.mem_cons_self
      rw [List.cons_append, entries_cons, unlink, if_neg hx,
        ih fun y hy => hxs y (List.mem_cons_of_mem _ hy)]
      rfl

/-- The first entry for a key is the one that `kv_hash_lookup` copies. -/
theorem dlookup_entries (hxs : ∀ x ∈ xs, m.key x ≠ key) (he : m.key e = key) :
    (m.entries (xs ++ e :: ys)).dlookup key = some (m.stringAt (m.value e)) := by
  subst he
  induction xs with
  | nil => exact List.dlookup_cons_eq _ _ _
  | cons x xs ih =>
      have hx : m.key e ≠ (m.entryAt x).1 := Ne.symm (hxs x List.mem_cons_self)
      rw [List.cons_append, entries_cons, List.dlookup_cons_ne _ _ hx]
      exact ih fun y hy => hxs y (List.mem_cons_of_mem _ hy)

end Split

/-! ### The memory of a table -/

/-- The memory has the layout `L`, and the blocks in `hand` are in the hands of the call. -/
structure Holds (H : HashFn) (m : Memory) (L : Layout) (hand : List Addr) : Prop where
  table : m.table = L.toTable H
  ready_le : L.ready ≤ H.n
  guarded_le : L.guarded ≤ L.ready
  chain : ∀ b < L.ready, m.links.Chain (L.head b) (L.chains b)
  value : ∀ b < L.ready, ∀ e ∈ L.chains b, m.value e ≠ none
  headReady : ∀ b, m.headReady L.buckets b = decide (b < L.ready)
  lockReady : ∀ b, m.lockReady L.locks b = decide (b < L.guarded)
  accounts : Accounts m.live (hand ++ L.blocks m)

namespace Holds

variable {m : Memory} {L : Layout} {hand : List Addr}

/-- The account with the blocks of one chain in front. -/
theorem accounts_chain (h : Holds H m L hand) {b : ℕ} (hb : b < L.ready) :
    Accounts m.live (hand ++ (m.owned (L.chains b) ++ L.others m b)) :=
  h.accounts.perm ((L.blocks_perm m hb).append_left hand)

/-- An account with the blocks of one chain in front, for memory that is otherwise as it was. -/
theorem of_chain {m' : Memory} {es hand' : List Addr} {b : ℕ} (h : Holds H m L hand) (hb : b < L.ready)
    (htable : m'.table = m.table) (hhead : m'.headReady = m.headReady)
    (hlock : m'.lockReady = m.lockReady) (hchain : m'.links.Chain (L.head b) es)
    (hothers : ∀ c < L.ready, c ≠ b → m'.links.Chain (L.head c) (L.chains c))
    (hvalue : ∀ e ∈ es, m'.value e ≠ none) (hvalues : ∀ e ∈ L.foreign m b, m'.value e = m.value e)
    (haccounts : Accounts m'.live (hand' ++ (m'.owned es ++ L.others m b))) :
    Holds H m' (L.set b es) hand' where
  table := htable.trans h.table
  ready_le := h.ready_le
  guarded_le := h.guarded_le
  chain := by
    intro c hc
    by_cases hcb : c = b
    · subst hcb
      rw [L.chains_set_self]
      exact hchain
    · rw [L.chains_set_of_ne es hcb]
      exact hothers c hc hcb
  value := by
    intro c hc e he
    by_cases hcb : c = b
    · subst hcb
      rw [L.chains_set_self] at he
      exact hvalue e he
    · rw [L.chains_set_of_ne es hcb] at he
      rw [hvalues e (mem_foreign_iff.2 ⟨c, hc, hcb, mem_owned_self m he⟩)]
      exact h.value c hc e he
  headReady := by
    rw [hhead]
    exact h.headReady
  lockReady := by
    rw [hlock]
    exact h.lockReady
  accounts := by
    refine haccounts.perm (List.Perm.append_left hand' ?_)
    have hperm := (L.set b es).blocks_perm m' (b := b) hb
    rw [L.chains_set_self] at hperm
    rw [Layout.others_set es hvalues] at hperm
    exact hperm.symm

/-! ### Which blocks are live, and which are different -/

theorem live_of_mem (h : Holds H m L hand) {a : Addr} (ha : a ∈ hand) : a ∈ m.live :=
  h.accounts.mem (List.mem_append_left _ ha)

theorem live_buckets (h : Holds H m L hand) : L.buckets ∈ m.live :=
  h.accounts.mem (List.mem_append_right _ List.mem_cons_self)

theorem live_locks (h : Holds H m L hand) : L.locks ∈ m.live :=
  h.accounts.mem (List.mem_append_right _ (List.mem_cons_of_mem _ List.mem_cons_self))

theorem live_of_mem_owned (h : Holds H m L hand) {b : ℕ} (hb : b < L.ready) {a : Addr}
    (ha : a ∈ m.owned (L.chains b)) : a ∈ m.live :=
  (h.accounts_chain hb).mem (List.mem_append_right _ (List.mem_append_left _ ha))

theorem live_entry (h : Holds H m L hand) {b : ℕ} (hb : b < L.ready) {e : Addr}
    (he : e ∈ L.chains b) : e ∈ m.live :=
  h.live_of_mem_owned hb (mem_owned_self m he)

theorem nodup_owned (h : Holds H m L hand) {b : ℕ} (hb : b < L.ready) :
    (m.owned (L.chains b)).Nodup :=
  (List.nodup_append.1 (List.nodup_append.1 (h.accounts_chain hb).nodup).2.1).1

theorem nodup_chain (h : Holds H m L hand) {b : ℕ} (hb : b < L.ready) : (L.chains b).Nodup := by
  refine (List.nodup_flatMap.1 (h.nodup_owned hb)).2.imp ?_
  intro e e' hdisj hee
  exact hdisj (List.mem_cons_self) (hee ▸ List.mem_cons_self)

/-- The blocks of a chain are none of the others. -/
theorem notMem_others (h : Holds H m L hand) {b : ℕ} (hb : b < L.ready) {a : Addr}
    (ha : a ∈ m.owned (L.chains b)) : a ∉ L.others m b := by
  have hnd := (List.nodup_append.1 (h.accounts_chain hb).nodup).2.1
  exact fun ha' => (List.nodup_append.1 hnd).2.2 a ha a ha' rfl

theorem notMem_foreign (h : Holds H m L hand) {b : ℕ} (hb : b < L.ready) {a : Addr}
    (ha : a ∈ m.owned (L.chains b)) : a ∉ L.foreign m b := fun hf =>
  h.notMem_others hb ha (mem_others_of_foreign hf)

/-- The blocks in hand are none of the table. -/
theorem notMem_of_hand (h : Holds H m L hand) {b : ℕ} (hb : b < L.ready) {a : Addr} (ha : a ∈ hand) :
    a ∉ m.owned (L.chains b) ∧ a ∉ L.others m b := by
  have hdisj := (List.nodup_append.1 (h.accounts_chain hb).nodup).2.2
  exact ⟨fun ha' => hdisj a ha a (List.mem_append_left _ ha') rfl,
    fun ha' => hdisj a ha a (List.mem_append_right _ ha') rfl⟩

/-- Two chains have no entry in common. -/
theorem disjoint_chains (h : Holds H m L hand) {b c : ℕ} (hb : b < L.ready) (hc : c < L.ready)
    (hcb : c ≠ b) {e : Addr} (he : e ∈ L.chains b) : e ∉ L.chains c := fun he' =>
  h.notMem_others hb (mem_owned_self m he) (mem_others_of_ne hc hcb (mem_owned_self m he'))

/-- No chain is longer than there are live blocks. -/
theorem length_chain_le (h : Holds H m L hand) {b : ℕ} (hb : b < L.ready) :
    (L.chains b).length ≤ m.live.card := by
  have hlen : (L.chains b).length ≤ (m.owned (L.chains b)).length := by
    rw [Memory.owned, List.length_flatMap]
    refine List.length_le_sum_of_one_le _ ?_ |>.trans' (by simp)
    intro n hn
    obtain ⟨e, -, rfl⟩ := List.mem_map.1 hn
    simp [Memory.own]
  rw [← (h.accounts_chain hb).length_eq, List.length_append, List.length_append]
  omega

/-- The order of the blocks in hand does not matter. -/
theorem perm (h : Holds H m L hand) {hand' : List Addr} (hp : hand.Perm hand') : Holds H m L hand' :=
  ⟨h.table, h.ready_le, h.guarded_le, h.chain, h.value, h.headReady, h.lockReady,
    h.accounts.perm (hp.append_right _)⟩

/-! ### The parts of the operations -/

/-- A new block is in the hands of the call. -/
theorem kmalloc (h : Holds H m L hand) {a : Addr} (ha : a ∉ m.live) :
    Holds H (m.kmalloc (some a)).2 L (a :: hand) := by
  have hbuckets : a ≠ L.buckets := fun hab => ha (hab ▸ h.live_buckets)
  have hlocks : a ≠ L.locks := fun hab => ha (hab ▸ h.live_locks)
  rw [Memory.kmalloc, alloc_of_found ha]
  refine ⟨h.table, h.ready_le, h.guarded_le, h.chain, h.value, ?_, ?_, h.accounts.cons ha⟩
  · intro b
    simpa [hbuckets] using h.headReady b
  · intro b
    simpa [hlocks] using h.lockReady b

/-- A block leaves the hands of the call. -/
theorem kfree {a : Addr} (h : Holds H m L (a :: hand)) :
    Holds H { m with live := m.live.erase a } L hand :=
  ⟨h.table, h.ready_le, h.guarded_le, h.chain, h.value, h.headReady, h.lockReady, h.accounts.uncons⟩

/-- The strings and the keys do not matter to the layout. -/
theorem contents (h : Holds H m L hand) (string : Addr → CStr) (key : Addr → HashKey) :
    Holds H { m with string := string, key := key } L hand :=
  ⟨h.table, h.ready_le, h.guarded_le, h.chain, h.value, h.headReady, h.lockReady, h.accounts⟩

/-- A new string is in the hands of the call. -/
theorem kstrdup (h : Holds H m L hand) {a : Addr} (ha : a ∉ m.live) (s : CStr) :
    Holds H (exec (.kstrdup s (some a)) m).2 L (a :: hand) :=
  (h.kmalloc ha).contents _ _

/-- A new string does not concern the chains. -/
theorem entries_kstrdup (h : Holds H m L hand) {a : Addr} (ha : a ∉ m.live) (s : CStr) {b : ℕ}
    (hb : b < L.ready) :
    (exec (.kstrdup s (some a)) m).2.entries (L.chains b) = m.entries (L.chains b) := by
  refine entries_congr (fun _ _ => rfl) (fun _ _ => rfl) fun a' ha' => ?_
  have hne : a ≠ a' := fun haa => ha (haa ▸ h.live_of_mem_owned hb ha')
  simp [exec, Memory.kmalloc, alloc_of_found ha, hne]

/-- The `value` field of an entry that is not linked. -/
theorem setValue (h : Holds H m L hand) {e : Addr} (he : e ∈ hand) (p : Ptr) :
    Holds H { m with value := Function.update m.value e p } L hand where
  table := h.table
  ready_le := h.ready_le
  guarded_le := h.guarded_le
  chain := h.chain
  value := by
    intro b hb e' he'
    have hne : e' ≠ e := fun hee => (h.notMem_of_hand hb he).1 (hee ▸ mem_owned_self m he')
    simpa [hne] using h.value b hb e' he'
  headReady := h.headReady
  lockReady := h.lockReady
  accounts := by
    have hblocks : L.blocks { m with value := Function.update m.value e p } = L.blocks m := by
      rw [Layout.blocks, Layout.blocks]
      congr 2
      refine List.flatMap_congr fun b hb => owned_congr fun e' he' => ?_
      have hnot := (h.notMem_of_hand (List.mem_range.1 hb) he).1
      have hne : e' ≠ e := fun hee => hnot (hee ▸ mem_owned_self m he')
      simp [hne]
    rw [hblocks]
    exact h.accounts

/-- An entry of a chain is given another value: the old one comes into the hands of the call. -/
theorem replaceValue {new : Addr} (h : Holds H m L (new :: hand)) {b : ℕ} (hb : b < L.ready)
    {xs ys : List Addr} {e v : Addr} (he : L.chains b = xs ++ e :: ys) (hv : m.value e = some v) :
    Holds H { m with value := Function.update m.value e (some new) } L (v :: hand) := by
  have hmem : e ∈ L.chains b := by simp [he]
  have hnd : (xs ++ e :: ys).Nodup := he ▸ h.nodup_chain hb
  rw [← L.set_self b]
  refine h.of_chain hb rfl rfl rfl (h.chain b hb) (fun c hc _ => h.chain c hc) ?_ ?_ ?_
  · intro e' he'
    by_cases hee : e' = e
    · simp [hee]
    · simpa [hee] using h.value b hb e' he'
  · intro e' he'
    have hee : e' ≠ e := fun hee => h.notMem_foreign hb (mem_owned_self m hmem) (hee ▸ he')
    simp [hee]
  · -- the two blocks change their places
    have hsides : ∀ zs, (∀ z ∈ zs, z ≠ e) →
        Memory.owned { m with value := Function.update m.value e (some new) } zs = m.owned zs :=
      fun zs hzs => owned_congr fun z hz => Function.update_of_ne (hzs z hz) ..
    have hxs : ∀ z ∈ xs, z ≠ e := by
      rintro z hz rfl
      exact (List.nodup_append.1 hnd).2.2 z hz z List.mem_cons_self rfl
    have hys : ∀ z ∈ ys, z ≠ e := by
      rintro z hz rfl
      exact (List.nodup_cons.1 (List.nodup_append.1 hnd).2.1).1 hz
    have haccounts := h.accounts_chain hb
    rw [he, owned_append, owned_cons, Memory.own, hv] at haccounts
    rw [he, owned_append, owned_cons, hsides xs hxs, hsides ys hys, Memory.own]
    simp only [Function.update_self, Option.toList_some]
    have hbefore : Accounts m.live
        (new :: ((hand ++ (m.owned xs ++ [e])) ++ v :: (m.owned ys ++ L.others m b))) := by
      simpa using haccounts
    simpa using hbefore.exchange

/-- What is written into the `key` field of another block does not concern a chain. -/
theorem entries_setKey {es : List Addr} {e : Addr} (he : e ∉ es) (key : HashKey) :
    Memory.entries { m with key := Function.update m.key e key } es = m.entries es := by
  refine entries_congr ?_ (fun _ _ => rfl) fun _ _ => rfl
  exact fun z hz => Function.update_of_ne (fun hze : z = e => he (hze ▸ hz)) ..

/-- What is written into the `value` field of another block does not concern a chain. -/
theorem entries_setValue {es : List Addr} {e : Addr} (he : e ∉ es) (p : Ptr) :
    Memory.entries { m with value := Function.update m.value e p } es = m.entries es := by
  refine entries_congr (fun _ _ => rfl) ?_ fun _ _ => rfl
  exact fun z hz => Function.update_of_ne (fun hze : z = e => he (hze ▸ hz)) ..

/-- The chain in which a value has been replaced. -/
theorem entries_replaceValue (h : Holds H m L hand) {b : ℕ} (hb : b < L.ready) {xs ys : List Addr}
    {e : Addr} (he : L.chains b = xs ++ e :: ys) (p : Ptr) :
    Memory.entries { m with value := Function.update m.value e p } (xs ++ e :: ys) =
      m.entries xs ++ ⟨m.key e, m.stringAt p⟩ :: m.entries ys := by
  have hnd : (xs ++ e :: ys).Nodup := he ▸ h.nodup_chain hb
  have hxs : e ∉ xs := fun hex => (List.nodup_append.1 hnd).2.2 e hex e List.mem_cons_self rfl
  have hys : e ∉ ys := (List.nodup_cons.1 (List.nodup_append.1 hnd).2.1).1
  rw [entries_append, entries_cons, entries_setValue hxs, entries_setValue hys, Memory.entryAt]
  simp only [Function.update_self]
  rfl

/-- A new entry is linked: its blocks leave the hands of the call. -/
theorem addHead {e new : Addr} (h : Holds H m L (e :: new :: hand)) {b : ℕ} (hb : b < L.ready)
    (hv : m.value e = some new) :
    Holds H { m with links := m.links.addHead e (some L.buckets, b) } (L.set b (e :: L.chains b))
      hand := by
  have he : e ∈ e :: new :: hand := List.mem_cons_self
  have hnot := h.notMem_of_hand hb he
  refine h.of_chain hb rfl rfl rfl ?_ ?_ ?_ (fun _ _ => rfl) ?_
  · exact Hlist.Links.chain_addHead (h.chain b hb) (h.nodup_chain hb) (notMem_of_notMem_owned hnot.1)
  · intro c hc hcb
    refine (h.chain c hc).addHead_of_disjoint (h.chain b hb) ?_ ?_ ?_
    · exact fun heq => hcb (congrArg Prod.snd heq)
    · exact fun a ha => h.disjoint_chains hb hc hcb ha
    · exact fun hec => hnot.2 (mem_others_of_ne hc hcb (mem_owned_self m hec))
  · intro e' he'
    rcases List.mem_cons.1 he' with rfl | he'
    · simp [hv]
    · exact h.value b hb e' he'
  · have hown : Memory.own { m with links := m.links.addHead e (some L.buckets, b) } e = [e, new] := by
      simp [Memory.own, hv]
    have hsame : Memory.owned { m with links := m.links.addHead e (some L.buckets, b) } (L.chains b) =
        m.owned (L.chains b) := rfl
    rw [owned_cons, hown, hsame]
    refine (h.accounts_chain hb).perm ?_
    have hperm : ([e, new] ++ hand ++ (m.owned (L.chains b) ++ L.others m b)).Perm
        (hand ++ [e, new] ++ (m.owned (L.chains b) ++ L.others m b)) :=
      List.perm_append_comm.append_right _
    simpa using hperm

/-- An entry is unlinked: its blocks come into the hands of the call. -/
theorem del (h : Holds H m L hand) {b : ℕ} (hb : b < L.ready) {xs ys : List Addr} {e v : Addr}
    (he : L.chains b = xs ++ e :: ys) (hv : m.value e = some v) (p : Ptr) (s : Place) :
    Holds H { m with links := m.links.del e p s } (L.set b (xs ++ ys)) (e :: v :: hand) := by
  have hnd : (xs ++ e :: ys).Nodup := he ▸ h.nodup_chain hb
  have hchain : m.links.Chain (L.head b) (xs ++ e :: ys) := he ▸ h.chain b hb
  have hhead : ∀ c, ∀ a : Addr, L.head c ≠ .next a := by
    rintro c a ⟨⟩
  refine h.of_chain hb rfl rfl rfl ?_ ?_ ?_ (fun _ _ => rfl) ?_
  · exact Hlist.Links.chain_del hchain hnd (fun _ _ => hhead b _) p s
  · intro c hc hcb
    refine (h.chain c hc).del_of_disjoint hchain ?_ ?_ (fun _ _ => hhead c _) (fun _ _ => hhead b _) p s
    · exact fun heq => hcb (congrArg Prod.snd (Hlist.Slot.head.inj heq))
    · intro a ha ha'
      exact h.disjoint_chains hb hc hcb (he ▸ ha') ha
  · intro e' he'
    refine h.value b hb e' ?_
    rw [he]
    exact List.mem_append.2 ((List.mem_append.1 he').imp id (List.mem_cons_of_mem _))
  · have haccounts := h.accounts_chain hb
    rw [he, owned_append, owned_cons, Memory.own, hv] at haccounts
    have hsame : Memory.owned { m with links := m.links.del e p s } (xs ++ ys) =
        m.owned xs ++ m.owned ys := owned_append m xs ys
    rw [hsame]
    refine haccounts.perm ?_
    simp only [Option.toList_some, List.cons_append, List.append_assoc, List.nil_append]
    rw [← List.append_assoc hand, ← List.append_assoc hand]
    exact List.perm_middle.trans (List.perm_middle.cons e)

/-- The loop of `kv_hash_init` initialises the next head. -/
theorem initHead (h : Holds H m L hand) (hr : L.ready < H.n) :
    Holds H (exec (.initHead (some L.buckets) L.ready) m).2 L.growHead hand where
  table := h.table
  ready_le := hr
  guarded_le := h.guarded_le.trans (Nat.le_succ _)
  chain := by
    intro b hb
    rcases Nat.lt_succ_iff_lt_or_eq.1 hb with hb | rfl
    · rw [L.chains_growHead_of_lt hb]
      refine (h.chain b hb).congr ?_ (fun a _ => ?_) fun _ _ => rfl
      · simp [exec, Hlist.Links.store, Layout.head, hb.ne]
      · simp [exec, Hlist.Links.store]
    · rw [L.chains_growHead_self]
      exact Function.update_self ..
  value := by
    intro b hb e he
    rcases Nat.lt_succ_iff_lt_or_eq.1 hb with hb | rfl
    · rw [L.chains_growHead_of_lt hb] at he
      exact h.value b hb e he
    · rw [L.chains_growHead_self] at he
      cases he
  headReady := by
    intro b
    by_cases hb : b = L.ready
    · simp [exec, Layout.growHead, hb]
    · simp only [exec, Layout.growHead, hb, and_false, if_false]
      rw [h.headReady b]
      exact decide_eq_decide.2 (by omega)
  lockReady := h.lockReady
  accounts := by
    have hblocks : L.growHead.blocks m = L.blocks m := by
      have hrange : (List.range L.ready).flatMap (fun b => m.owned (L.growHead.chains b)) =
          (List.range L.ready).flatMap fun b => m.owned (L.chains b) :=
        List.flatMap_congr fun b hb => by rw [L.chains_growHead_of_lt (List.mem_range.1 hb)]
      have hlast : m.owned (L.growHead.chains L.ready) = [] := by rw [L.chains_growHead_self]; rfl
      have hready : L.growHead.ready = L.ready + 1 := rfl
      rw [Layout.blocks, hready, List.range_succ, List.flatMap_append, List.flatMap_singleton, hlast,
        List.append_nil, hrange]
      rfl
    have haccounts := h.accounts
    rw [← hblocks] at haccounts
    exact haccounts

/-- The loop of `kv_hash_init` initialises the next lock. -/
theorem initLock (h : Holds H m L hand) (hg : L.guarded < L.ready) :
    Holds H (exec (.initLock (some L.locks) L.guarded) m).2 L.growLock hand where
  table := h.table
  ready_le := h.ready_le
  guarded_le := hg
  chain := h.chain
  value := h.value
  headReady := h.headReady
  lockReady := by
    intro b
    by_cases hb : b = L.guarded
    · simp [exec, Layout.growLock, hb]
    · simp only [exec, Layout.growLock, hb, and_false, if_false]
      rw [h.lockReady b]
      exact decide_eq_decide.2 (by omega)
  accounts := h.accounts

end Holds

end KvMemory
