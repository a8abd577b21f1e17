/-
**Who owns the blocks of the hash table.**

While the table is in use, every live block is one of the two arrays, a linked entry, or the value of one:
the copy of the value that `kv_hash_add` makes is handed to an entry or freed on each way out of it, and
`kv_hash_remove` frees what it unlinks.  No call uses a block that is not live.

`kv_hash_destroy` frees all this, but for one block: the array of the locks.  After a `kv_hash_init` that
failed it follows a `NULL` pointer.

Main definitions:

* `KvMemory.Owned` — **the live blocks are those of the table**;
* `KvMemory.Releases` — what `kv_hash_destroy` is for.

Main results:

* `KvMemory.blocks_owned` — **no block is lost, freed twice or used after it has been freed**;
* `KvMemory.destroy_keeps_locks` — `kv_hash_destroy` frees all blocks but the array of the locks.
-/

import KvStore.KvMemoryTable

set_option relaxedAutoImplicit false
set_option autoImplicit false

namespace KvMemory

open CMem KvHash KvIoctl Interleave Blocks

variable {H : HashFn}

/-! ### While the table is in use -/

/-- The live blocks are the two arrays and, for each entry that is linked into the table, the entry and its
value, all of them different. -/
def Owned (H : HashFn) (m : Memory) : Prop :=
  ∃ buckets locks, ∃ chains : ℕ → List Addr,
    m.table = ⟨some buckets, some locks, H.bits⟩ ∧
      (∀ b < H.n, m.links.Chain (.head (some buckets, b)) (chains b)) ∧
      (∀ b < H.n, ∀ e ∈ chains b, m.value e ≠ none) ∧
      Accounts m.live (buckets :: locks :: (List.range H.n).flatMap fun b => (chains b).flatMap m.own)

theorem Whole.owned {m : Memory} {L : Layout} (h : Whole H m L) : Owned H m := by
  refine ⟨L.buckets, L.locks, L.chains, h.holds.table, ?_, ?_, ?_⟩
  · exact fun b hb => h.holds.chain b (hb.trans_eq h.ready.symm)
  · exact fun b hb => h.holds.value b (hb.trans_eq h.ready.symm)
  · have haccounts := h.accounts
    rw [Layout.blocks, h.ready] at haccounts
    exact haccounts

/-- **No block is lost, freed twice, or used after it has been freed.**  Whatever calls are made after
`kv_hash_init`, and whichever allocations fail, all of them return, each instruction uses blocks that are
live, and the blocks that are live afterwards are those of the table; there are none if `kv_hash_init`
failed. -/
theorem blocks_owned (H : HashFn) (arrays : Arrays) (m : Memory) (calls : List Call) :
    (kvHashInit H.bits arrays).Along exec Safe m.unused ∧
      Machine.Along (Call.next H)
        (fun t c => (c.code H t.live.card).Along exec Safe t ∧ (c.run H t).1 ≠ none)
        (started H arrays m).2 calls ∧
      ((started H arrays m).1 = 0 ∧ Owned H (after H arrays m calls) ∨
        (started H arrays m).1 = -ENOMEM ∧ (after H arrays m calls).live = ∅) := by
  have hinit := ensures_kvHashInit (H := H) arrays (m := m.unused) rfl rfl
  refine ⟨hinit.1, ?_, ?_⟩
  · -- the state in which a call is made is one that the calls before it have led to
    refine (Machine.along_iff ..).2 fun cs c _ _ => ?_
    by_cases hret : (started H arrays m).1 = 0
    · obtain ⟨L, hwhole⟩ := exists_whole_after hret cs
      obtain ⟨hfine, ret, L', hrun, -⟩ := c.ensures hwhole
      refine ⟨Machine.Along.mono _ hfine fun t i _ hi => hi.1, fun hnone => ?_⟩
      exact Option.some_ne_none _ (hrun.symm.trans hnone)
    · have habsent := (absent_after hret cs).1
      refine ⟨habsent.along (safe_of_uses_none rfl rfl) c, fun hnone => ?_⟩
      exact Option.some_ne_none _ ((congrArg Prod.fst (habsent.run c)).symm.trans hnone)
  · obtain ⟨hret, -⟩ | ⟨hret, -⟩ := started_spec H arrays m
    · obtain ⟨L, hwhole⟩ := exists_whole_after hret calls
      exact .inl ⟨hret, hwhole.owned⟩
    · have hne : (started H arrays m).1 ≠ 0 := by
        rw [hret]
        decide
      exact .inr ⟨hret, (absent_after hne calls).2⟩

/-! ### `kv_hash_destroy` -/

theorem safe_of_uses {m : Memory} {i : Instr} {a : Addr} (ha : a ∈ m.live) (hi : i.uses = some (some a))
    (hlock : i.lockOf = none) : Safe m i :=
  ⟨fun _ hp => ⟨a, ha, Option.some.inj (hp.symm.trans hi)⟩, by simp [hlock]⟩

/-- The list operations use the head of the chain and its entries. -/
theorem Holds.safe_of_handles {m : Memory} {L : Layout} {hand : List Addr} (h : Holds H m L hand) {b : ℕ}
    (hb : b < L.ready) {i : Instr} (hi : Handles (L.head b) (L.chains b) i)
    (l : Hlist.Links (Ptr × ℕ) Addr) : Safe { m with links := l } i := by
  obtain ⟨hlock, ⟨huses, -⟩ | ⟨e, he, huses, -⟩⟩ := hi.uses
  · exact safe_of_uses h.live_buckets huses hlock
  · exact safe_of_uses (h.live_entry hb he) huses hlock

@[simp] theorem destroyWalk_none (fuel : ℕ) : destroyWalk fuel none = .ret (some ()) := by
  cases fuel <;> rfl

/-- The inner loop frees the entries of a chain with their values. -/
theorem ensures_destroyWalk {m : Memory} {L : Layout} {b fuel : ℕ} {es : List Addr} (h : Holds H m L [])
    (hb : b < L.ready) (hes : L.chains b = es) (hf : es.length ≤ fuel) :
    (destroyWalk fuel (m.links.slot (L.head b))).Ensures exec Safe
      (fun r t => r = some () ∧ t.held = m.held ∧ Holds H t (L.set b []) []) m := by
  induction es generalizing m L fuel with
  | nil =>
      have hslot : m.links.slot (L.head b) = none := by simpa [hes] using h.chain b hb
      have hset : L.set b [] = L := by rw [← hes, L.set_self]
      rw [hslot, destroyWalk_none, hset]
      exact ⟨trivial, rfl, rfl, h⟩
  | cons e es ih =>
      have hsplit : L.chains b = [] ++ e :: es := hes
      have hchain : m.links.Chain (L.head b) ([] ++ e :: es) := hsplit ▸ h.chain b hb
      have hmem : e ∈ L.chains b := by simp [hes]
      obtain ⟨fuel, rfl⟩ := Nat.exists_eq_add_of_le' (Nat.succ_le_of_lt (Nat.zero_lt_of_lt hf))
      obtain ⟨v, hv⟩ := Option.ne_none_iff_exists'.1 (h.value b hb e hmem)
      have hdel := h.del hb hsplit hv LIST_POISON1 LIST_POISON2
      have hvalue := (hdel.perm (List.Perm.swap ..)).kfree
      have hentry := hvalue.kfree
      rw [hchain.1, destroyWalk]
      simp only [instr, Prog.call_bind, Prog.ret_bind, Prog.ensures_call]
      refine ⟨h.safe_of_handles hb (.load (.inr ⟨e, hmem, rfl⟩)) m.links, ?_⟩
      rw [Prog.ensures_bind]
      refine (ensures_hlistDel hchain fun i l hi _ => ?_).mono exec (fun _ _ => id) ?_
      · exact h.safe_of_handles hb (hsplit ▸ hi) l
      rintro ⟨⟩ t rfl
      simp only [Prog.ensures_call, exec, hv]
      refine ⟨safe_of_uses (hdel.live_of_mem (by simp)) rfl rfl,
        safe_of_uses (hdel.live_of_mem (by simp)) rfl rfl,
        safe_of_uses (hvalue.live_of_mem (by simp)) rfl rfl, ?_⟩
      -- the pointer to the next entry is now the one in the head
      have htmp : m.links.slot (.next e) =
          (m.links.del e LIST_POISON1 LIST_POISON2).slot ((L.set b es).head b) := by
        have hrest := hentry.chain b hb
        rw [L.chains_set_self] at hrest
        exact hchain.2.2.head?_eq.trans hrest.head?_eq.symm
      rw [htmp]
      refine (ih hentry hb (L.chains_set_self ..) (by simpa using hf)).mono exec (fun _ _ => id) ?_
      rintro r t ⟨hr, hheld, hholds⟩
      refine ⟨hr, hheld, ?_⟩
      rw [Layout.set, Layout.set, Function.update_idem] at hholds
      exact hholds

/-- The outer loop empties the chains. -/
theorem ensures_destroyBuckets {m : Memory} {L : Layout} {fuel : ℕ} {bs : List ℕ} (h : Holds H m L [])
    (hbs : ∀ b ∈ bs, b < L.ready) (hf : ∀ b ∈ bs, (L.chains b).length ≤ fuel) :
    (destroyBuckets (L.toTable H) fuel bs).Ensures exec Safe
      (fun r t => r = some () ∧ t.held = m.held ∧ ∃ L', Holds H t L' [] ∧ L'.frame = L.frame ∧
        (∀ b, L.chains b = [] → L'.chains b = []) ∧ ∀ b ∈ bs, L'.chains b = []) m := by
  induction bs generalizing m L with
  | nil =>
      refine (Prog.ensures_ret ..).2 ⟨rfl, rfl, L, h, rfl, fun _ hb => hb, ?_⟩
      rintro b ⟨⟩
  | cons b bs ih =>
      have hb : b < L.ready := hbs b List.mem_cons_self
      rw [destroyBuckets]
      simp only [instr, Prog.call_bind, Prog.ret_bind, Prog.ensures_call]
      refine ⟨h.safe_of_handles hb (.load (.inl rfl)) m.links, ?_⟩
      rw [Prog.ensures_bind]
      refine (ensures_destroyWalk h hb rfl (hf b List.mem_cons_self)).mono exec (fun _ _ => id) ?_
      rintro r t ⟨rfl, hheld, hset⟩
      have hlen : ∀ c ∈ bs, ((L.set b []).chains c).length ≤ fuel := by
        intro c hc
        by_cases hcb : c = b
        · simp [hcb]
        · rw [L.chains_set_of_ne [] hcb]
          exact hf c (List.mem_cons_of_mem _ hc)
      refine (ih hset (fun c hc => hbs c (List.mem_cons_of_mem _ hc)) hlen).mono exec (fun _ _ => id) ?_
      rintro r t ⟨rfl, hheld', L', hholds, hframe, hkept, hempty⟩
      refine ⟨rfl, hheld'.trans hheld, L', hholds, hframe, fun c hc => hkept c ?_, fun c hc => ?_⟩
      · by_cases hcb : c = b
        · rw [hcb, L.chains_set_self]
        · rw [L.chains_set_of_ne [] hcb, hc]
      · rcases List.mem_cons.1 hc with rfl | hc
        · exact hkept c (L.chains_set_self ..)
        · exact hempty c hc

/-- The memory when `kv_hash_destroy` has returned. -/
def Memory.destroyed (m : Memory) : Memory := ((kvHashDestroy m.live.card).run exec m).2

/-- Every later call is refused, and looks at nothing but the structure. -/
def Refuses (H : HashFn) (m : Memory) : Prop :=
  ∀ calls, Machine.Along (Call.next H)
    (fun t c => (c.run H t).1 = some (-EINVAL) ∧ (c.code H t.live.card).Along exec Safe t) m calls

/-- **What `kv_hash_destroy` is for**: it returns, frees every block once and no other, and the calls after
it are refused. -/
structure Releases (H : HashFn) (m : Memory) : Prop where
  safe : (kvHashDestroy m.live.card).Along exec Safe m
  returns : ((kvHashDestroy m.live.card).run exec m).1 = some ()
  once : ∀ a ∈ m.live, ((kvHashDestroy m.live.card).trace exec m).count (.kfree (some a)) = 1
  live : m.destroyed.live = ∅
  refuses : Refuses H m.destroyed

theorem Absent.refuses {m : Memory} (h : Absent m) : Refuses H m := by
  intro calls
  induction calls with
  | nil => trivial
  | cons c calls ih =>
      refine ⟨⟨congrArg Prod.fst (h.run c), h.along (safe_of_uses_none rfl rfl) c⟩, ?_⟩
      rw [h.next c]
      exact ih

/-- `kv_hash_destroy` of a table frees all its blocks but the array of the locks. -/
theorem ensures_kvHashDestroy {m : Memory} {L : Layout} (h : Whole H m L) :
    (kvHashDestroy m.live.card).Ensures exec Safe
      (fun r t => r = some () ∧ Absent t ∧ t.live = {L.locks}) m := by
  have hbs : ∀ b ∈ List.range (2 ^ H.bits), b < L.ready := fun b hb =>
    (List.mem_range.1 hb).trans_eq h.ready.symm
  have hwalk := ensures_destroyBuckets h.holds hbs fun b hb => h.holds.length_chain_le (hbs b hb)
  simp only [kvHashDestroy, instr, Prog.call_bind, Prog.ret_bind, Prog.ensures_call]
  refine ⟨safe_of_uses_none rfl rfl, ?_⟩
  rw [show (exec .table m).1 = L.toTable H from h.holds.table, Prog.ensures_bind]
  refine hwalk.mono exec (fun _ _ => id) ?_
  rintro r t ⟨rfl, hheld, L', hholds, hframe, -, hempty⟩
  obtain ⟨hbuckets, hlocks, hready, -⟩ := Layout.frame_eq_iff.1 hframe
  have hblocks : L'.blocks t = [L.buckets, L.locks] := by
    have hnone : (List.range L'.ready).flatMap (fun b => t.owned (L'.chains b)) = [] := by
      refine List.flatMap_eq_nil_iff.2 fun b hb => ?_
      rw [hready, h.ready] at hb
      rw [hempty b hb]
      rfl
    rw [Layout.blocks, hnone, hbuckets, hlocks]
  have haccounts := hholds.accounts
  rw [List.nil_append, hblocks] at haccounts
  refine ⟨⟨safe_of_uses (haccounts.mem List.mem_cons_self) rfl rfl, safe_of_uses_none rfl rfl,
    safe_of_uses_none rfl rfl, trivial⟩, rfl, ⟨rfl, hheld.trans h.held⟩, ?_⟩
  ext a
  exact (haccounts.uncons.mem_iff a).trans (by simp)

/-- An instruction that allocates nothing takes a block away if it frees it. -/
theorem mem_live_exec {i : Instr} (hi : ¬ i.Sleeps) {a : Addr} (hne : i ≠ .kfree (some a)) (m : Memory) :
    a ∈ (exec i m).2.live ↔ a ∈ m.live := by
  cases i with
  | kmalloc p => exact absurd trivial hi
  | kstrdup s p => exact absurd trivial hi
  | kfree p =>
      cases p with
      | none => exact Iff.rfl
      | some c =>
          have hac : a ≠ c := fun hac => hne (hac ▸ rfl)
          exact Finset.mem_erase.trans (and_iff_right hac)
  | _ => exact Iff.rfl

/-- Where nothing is allocated, the blocks that are live before and not afterwards are freed once, and no
other is freed. -/
theorem count_kfree {es : List Instr} {m : Memory}
    (hsafe : Machine.Along (fun m i => (exec i m).2) Safe m es) (hes : ∀ i ∈ es, ¬ i.Sleeps) (a : Addr) :
    es.count (.kfree (some a)) +
        (if a ∈ (Machine.run (fun m i => (exec i m).2) m es).live then 1 else 0) =
      if a ∈ m.live then 1 else 0 := by
  induction es generalizing m with
  | nil => exact Nat.zero_add _
  | cons i es ih =>
      have hrest := ih hsafe.2 fun j hj => hes j (List.mem_cons_of_mem _ hj)
      by_cases hi : i = .kfree (some a)
      · subst hi
        obtain ⟨c, hc, hac⟩ := hsafe.1.1 _ rfl
        obtain rfl : a = c := Option.some.inj hac
        have hfreed : a ∉ (exec (.kfree (some a)) m).2.live := Finset.notMem_erase a m.live
        rw [if_neg hfreed] at hrest
        rw [Machine.run_cons, List.count_cons_self, if_pos hc, Nat.add_right_comm]
        exact congrArg (· + 1) hrest
      · have hkept := mem_live_exec (hes i List.mem_cons_self) hi m
        rw [Machine.run_cons, List.count_cons_of_ne hi, hrest, if_congr hkept rfl rfl]

/-- Of a table `kv_hash_destroy` frees every block once but the array of the locks, which stays live. -/
theorem Whole.keeps_locks {m : Memory} {L : Layout} (h : Whole H m L) :
    m.table.bucketLocks = some L.locks ∧
      (kvHashDestroy m.live.card).Ensures exec Safe
        (fun r t => r = some () ∧ t.live = {L.locks} ∧ Refuses H t) m ∧
      ∀ a ∈ m.live, ((kvHashDestroy m.live.card).trace exec m).count (.kfree (some a)) =
        if a = L.locks then 0 else 1 := by
  obtain ⟨hsafe, hrun, habsent, hlive⟩ := ensures_kvHashDestroy h
  refine ⟨congrArg Table.bucketLocks h.holds.table, ⟨hsafe, hrun, hlive, habsent.refuses⟩, fun a ha => ?_⟩
  have hquiet : ∀ i ∈ (kvHashDestroy m.live.card).trace exec m, ¬ i.Sleeps := fun i hi =>
    Prog.Uses.of_mem_trace exec (quiet_kvHashDestroy _) hi
  have hcount := count_kfree hsafe hquiet a
  rw [← Prog.run_snd, hlive, if_pos ha] at hcount
  by_cases hal : a = L.locks
  · rw [if_pos (Finset.mem_singleton.2 hal)] at hcount
    rw [if_pos hal]
    omega
  · rw [if_neg (mt Finset.mem_singleton.1 hal)] at hcount
    rw [if_neg hal]
    omega

/-- **`kv_hash_destroy` does not free all.**  It never does what it is for.  Of a table in use it frees
every block once but the array of the locks, and this one stays live; the calls after it are refused.  If
`kv_hash_init` failed, it follows a `NULL` pointer. -/
theorem destroy_keeps_locks (H : HashFn) (arrays : Arrays) (m : Memory) (calls : List Call) :
    ¬ Releases H (after H arrays m calls) ∧
      ((started H arrays m).1 = 0 → ∃ locks,
        (after H arrays m calls).table.bucketLocks = some locks ∧
          (kvHashDestroy (after H arrays m calls).live.card).Ensures exec Safe
            (fun r t => r = some () ∧ t.live = {locks} ∧ Refuses H t) (after H arrays m calls) ∧
          ∀ a ∈ (after H arrays m calls).live,
            ((kvHashDestroy (after H arrays m calls).live.card).trace exec
              (after H arrays m calls)).count (.kfree (some a)) = if a = locks then 0 else 1) := by
  by_cases hret : (started H arrays m).1 = 0
  · obtain ⟨L, hwhole⟩ := exists_whole_after hret calls
    generalize after H arrays m calls = t at hwhole ⊢
    refine ⟨fun hreleases => ?_, fun _ => ⟨L.locks, hwhole.keeps_locks⟩⟩
    obtain ⟨-, -, -, hlive⟩ := ensures_kvHashDestroy hwhole
    exact Finset.singleton_ne_empty _ (hlive.symm.trans hreleases.live)
  · obtain ⟨habsent, hlive⟩ := absent_after hret calls
    generalize after H arrays m calls = t at habsent hlive ⊢
    refine ⟨fun hreleases => ?_, fun h0 => absurd h0 hret⟩
    -- the first instruction after the look at the structure loads the first head
    have hsafe := hreleases.safe
    obtain ⟨n, hn⟩ : ∃ n, 2 ^ t.table.bits = n + 1 := Nat.exists_eq_add_of_le' Nat.one_le_two_pow
    have hload : Safe t (.load (.head (t.table.buckets, 0))) := by
      have hrange : List.range (2 ^ t.table.bits) = 0 :: (List.range n).map Nat.succ := by
        rw [hn, List.range_succ_eq_map]
      simp only [kvHashDestroy, instr, Prog.call_bind, Prog.ret_bind, Prog.along_call,
        show (exec .table t).1 = t.table from rfl, hrange, destroyBuckets] at hsafe
      exact hsafe.2.1
    obtain ⟨a, ha, -⟩ := hload.1 _ rfl
    rw [hlive] at ha
    exact Finset.notMem_empty a ha

/-- The other three blocks of a table with one entry are freed once. -/
theorem destroy_oneEntry : ∃ locks, oneEntry.table.bucketLocks = some locks ∧
    (kvHashDestroy oneEntry.live.card).Ensures exec Safe
      (fun r t => r = some () ∧ t.live = {locks} ∧ Refuses twoBuckets t) oneEntry ∧
    ∀ a ∈ oneEntry.live, ((kvHashDestroy oneEntry.live.card).trace exec oneEntry).count
      (.kfree (some a)) = if a = locks then 0 else 1 :=
  (destroy_keeps_locks twoBuckets ⟨some 1, some 2⟩ blank [.add 7 [97] ⟨some 3, some 4⟩]).2 rfl

/-- A table with one entry: the locks, block 2, are still there when `kv_hash_destroy` has returned. -/
theorem not_releases_oneEntry : ¬ Releases twoBuckets oneEntry := by
  have hlive : 2 ∈ oneEntry.destroyed.live := by decide
  intro h
  rw [h.live] at hlive
  exact Finset.notMem_empty 2 hlive

end KvMemory
