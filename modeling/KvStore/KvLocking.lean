/-
**The locks of the buckets.**

Every operation takes and gives back the locks of the buckets by hand, with an unlock on each of its ways
out, some of them from inside a loop.  All of them are paired, one lock is held at a time, and what belongs
to a chain is used under the lock of its bucket.

A lock is a spin lock, so that nothing may sleep while it is held.  `kv_hash_add` makes the copy of the
value before it takes the lock.  The entry for a new key, however, it allocates under the lock, and with
`GFP_KERNEL`; no other call does such a thing.

Main definitions:

* `KvMemory.LockEvent`, `KvMemory.Instr.event` — locks and unlocks, as a trace has them;
* `KvMemory.Disciplined` — **the locks are balanced and protect every access**;
* `KvMemory.Awake` — an instruction that may sleep is performed while no lock is held;
* `KvMemory.Call.Inserts` — the call adds a new key.

Main results:

* `KvMemory.call_disciplined` — every call is disciplined;
* `KvMemory.awake_iff_not_inserts` — a call sleeps under a lock **exactly if it adds a new key**.
-/

import KvStore.KvMemoryTable

set_option relaxedAutoImplicit false
set_option autoImplicit false

namespace KvMemory

open CMem KvHash KvIoctl Interleave Blocks

variable {H : HashFn}

/-! ### The events of the locks -/

/-- What happens to the locks. -/
inductive LockEvent
  | lock (b : ℕ)
  | unlock (b : ℕ)

/-- What an instruction does to the locks. -/
def Instr.event : Instr → Option LockEvent
  | .lock _ b => some (.lock b)
  | .unlock _ b => some (.unlock b)
  | _ => none

/-- A lock of each of the buckets, followed by the unlock. -/
def lockPairs (bs : List ℕ) : List LockEvent := bs.flatMap fun b => [.lock b, .unlock b]

theorem lockPairs_cons (b : ℕ) (bs : List ℕ) :
    lockPairs (b :: bs) = .lock b :: .unlock b :: lockPairs bs := rfl

theorem held_exec_of_event_none {i : Instr} (hi : i.event = none) (m : Memory) :
    (exec i m).2.held = m.held := by
  cases i with
  | lock p b => cases hi
  | unlock p b => cases hi
  | _ => rfl

section Paired

variable {es : List Instr} {m : Memory}

/-- Where locks are taken one at a time and all are given back, the events come in pairs. -/
theorem exists_lockPairs (h : Machine.Along (fun m i => (exec i m).2) Paired m es)
    (hend : (Machine.run (fun m i => (exec i m).2) m es).held = []) :
    (m.held = [] → ∃ bs, es.filterMap Instr.event = lockPairs bs) ∧
      ∀ b, m.held = [b] → ∃ bs, es.filterMap Instr.event = .unlock b :: lockPairs bs := by
  induction es generalizing m with
  | nil => exact ⟨fun _ => ⟨[], rfl⟩, fun b hb => absurd (hb.symm.trans hend) (List.cons_ne_nil _ _)⟩
  | cons i es ih =>
      obtain ⟨hnone, hsome⟩ := ih h.2 hend
      cases hi : i.event with
      | none =>
          rw [List.filterMap_cons_none hi, ← held_exec_of_event_none hi m]
          exact ⟨hnone, hsome⟩
      | some ev =>
          rw [List.filterMap_cons_some hi]
          cases i with
          | lock p b =>
              obtain rfl : LockEvent.lock b = ev := Option.some.inj hi
              have hheld : m.held = [] := h.1
              refine ⟨fun _ => ?_, fun c hc => absurd (hc.symm.trans hheld) (List.cons_ne_nil _ _)⟩
              obtain ⟨bs, hbs⟩ := hsome b (congrArg (b :: ·) hheld)
              exact ⟨b :: bs, by rw [hbs, lockPairs_cons]⟩
          | unlock p b =>
              obtain rfl : LockEvent.unlock b = ev := Option.some.inj hi
              have hheld : m.held = [b] := h.1
              refine ⟨fun hc => absurd (hheld.symm.trans hc) (List.cons_ne_nil _ _), fun c hc => ?_⟩
              obtain rfl : b = c := List.singleton_inj.1 (hheld.symm.trans hc)
              have hfree : (exec (.unlock p b) m).2.held = [] := by simp [exec, hheld]
              obtain ⟨bs, hbs⟩ := hnone hfree
              exact ⟨bs, by rw [hbs]⟩
          | _ => cases hi

/-- Where locks are taken one at a time, at most one is held. -/
theorem along_length_held_le (h : Machine.Along (fun m i => (exec i m).2) Paired m es)
    (hm : m.held.length ≤ 1) :
    Machine.Along (fun m i => (exec i m).2) (fun t _ => t.held.length ≤ 1) m es := by
  induction es generalizing m with
  | nil => trivial
  | cons i es ih =>
      refine ⟨hm, ih h.2 ?_⟩
      cases i with
      | lock p b =>
          have hheld : m.held = [] := h.1
          simp [exec, hheld]
      | unlock p b => exact List.length_erase_le.trans hm
      | _ => exact hm

end Paired

/-! ### Every call -/

/-- **The discipline of the locks.**  The call returns, after as many unlocks as locks, each of them of the
bucket that has just been locked; it never holds two locks; it uses what belongs to a chain under the lock
of its bucket; and it holds none in the end. -/
structure Disciplined (H : HashFn) (m : Memory) (c : Call) : Prop where
  returns : (c.run H m).1 ≠ none
  balanced : ∃ bs, (c.trace H m).filterMap Instr.event = lockPairs bs
  single : (c.code H m.live.card).Along exec (fun t _ => t.held.length ≤ 1) m
  protects : (c.code H m.live.card).Along exec (Guarded H.n) m
  settled : (c.run H m).2.held = []

/-- The trace of a call in which locks are taken one at a time. -/
theorem disciplined_of_paired {m : Memory} {c : Call} (hm : m.held = []) (hreturns : (c.run H m).1 ≠ none)
    (hpaired : (c.code H m.live.card).Along exec Paired m)
    (hguarded : (c.code H m.live.card).Along exec (Guarded H.n) m)
    (hend : (c.run H m).2.held = []) : Disciplined H m c where
  returns := hreturns
  balanced := by
    have hrun : (Machine.run (fun m i => (exec i m).2) m (c.trace H m)).held = [] := by
      rw [Call.trace, ← Prog.run_snd]
      exact hend
    exact (exists_lockPairs hpaired hrun).1 hm
  single := along_length_held_le hpaired (by simp [hm])
  protects := hguarded
  settled := hend

/-- **The locks are balanced and protect every access**, whatever the call, the table and the
allocations. -/
theorem call_disciplined {m : Memory} (h : Usable H m) (c : Call) : Disciplined H m c := by
  obtain habsent | ⟨L, hwhole⟩ := h
  · have hrun := habsent.run (H := H) c
    refine disciplined_of_paired habsent.held ?_ (habsent.along trivial c)
      (habsent.along (fun b _ htouch => ?_) c) ?_
    · rw [hrun]
      exact Option.some_ne_none _
    · simp [Touches, Instr.headOf, Instr.uses] at htouch
    · rw [hrun]
      exact habsent.held
  · obtain ⟨hfine, ret, L', hret, hwhole', -⟩ := c.ensures hwhole
    refine disciplined_of_paired hwhole.held ?_ (Machine.Along.mono _ hfine fun _ _ _ hi => hi.2.2.2)
      (Machine.Along.mono _ hfine fun _ _ _ hi => hi.2.2.1) hwhole'.held
    intro hnone
    exact Option.some_ne_none _ (hret.symm.trans hnone)

/-- A removal from a table with one entry, which gives the lock back where the entry has been freed. -/
theorem call_disciplined_oneEntry : Disciplined twoBuckets oneEntry (.remove 7) :=
  call_disciplined (usable_after ..) (.remove 7)

/-! ### What may sleep -/

/-- What may sleep is done while no lock is held. -/
def Awake (m : Memory) (i : Instr) : Prop := i.Sleeps → m.held = []

theorem Quiet.awake {α : Type} {p : Code α} (hp : Quiet p) (m : Memory) : p.Along exec Awake m :=
  Prog.Uses.along exec hp (fun _ _ hi hs => absurd hs hi) m

/-- The call adds a key that is not in the chain of its bucket, and memory is found for the value. -/
def Call.Inserts (H : HashFn) (m : Memory) : Call → Prop
  | .add key _ places => m.table.buckets ≠ none ∧ Found m.live places.kstrdup ∧
      ∀ e, m.links.Reaches (.head (m.table.buckets, H.hashMin key)) e → m.key e ≠ key
  | _ => False

/-- If what follows the walk over a chain sleeps where the key has not been found, then it matters whether
the key is there. -/
theorem awake_findEntry_iff {m : Memory} {s : Place} {es : List Addr} (h : m.links.Chain s es) {fuel : ℕ}
    (hf : es.length ≤ fuel) (key : HashKey) {α : Type} {k : Option Ptr → Code α}
    (hnone : ¬ (k (some none)).Along exec Awake m) (hsome : ∀ e, Quiet (k (some (some e)))) :
    (findEntry key fuel (m.links.slot s) >>= k).Along exec Awake m ↔ ¬ ∀ e ∈ es, m.key e ≠ key := by
  have hwalk := ensures_findEntry (P := fun _ _ => True) key h hf fun _ _ => trivial
  rw [Prog.along_bind, and_iff_right ((quiet_findEntry key fuel _).awake m), hwalk.2.1, hwalk.2.2]
  cases hfind : es.find? fun e => m.key e = key with
  | none =>
      refine iff_of_false hnone fun habsent => habsent fun e he => ?_
      simpa using List.find?_eq_none.1 hfind e he
  | some e =>
      refine iff_of_true ((hsome e).awake m) fun habsent => ?_
      exact habsent e (List.mem_of_find?_eq_some hfind) (by simpa using List.find?_some hfind)

/-- `kv_hash_add` of a table. -/
theorem Whole.awake_kvHashAdd_iff {m : Memory} {L : Layout} (h : Whole H m L) (key : HashKey)
    (value : List UInt8) (places : Places) :
    (kvHashAdd H m.live.card key value places).Along exec Awake m ↔
      ¬ (Call.add key value places).Inserts H m := by
  have hlt : H.hashMin key < L.ready := (H.hashMin_lt key).trans_eq h.ready.symm
  have hinserts : (Call.add key value places).Inserts H m ↔
      Found m.live places.kstrdup ∧ ∀ e ∈ L.chains (H.hashMin key), m.key e ≠ key := by
    have hchain := h.holds.chain (H.hashMin key) hlt
    rw [Call.Inserts, h.holds.table, and_iff_right (Option.some_ne_none _)]
    refine and_congr_right fun _ => forall_congr' fun e => imp_congr_left ?_
    exact ⟨hchain.mem_of_reaches rfl fun _ _ => rfl, hchain.reaches_of_mem⟩
  have htable : exec .table m = (L.toTable H, m) := congrArg (·, m) h.holds.table
  have hlook : Awake m .table := fun hs => hs.elim
  have hkstrdup : Awake m (.kstrdup (cstr value) places.kstrdup) := fun _ => h.held
  rw [hinserts, kvHashAdd]
  simp only [instr, Prog.call_bind, Prog.ret_bind, Prog.along_call]
  rw [and_iff_right hlook, htable, if_neg (Option.some_ne_none _), Prog.along_call,
    and_iff_right hkstrdup]
  by_cases hfound : Found m.live places.kstrdup
  · obtain ⟨a, hplace, ha⟩ := hfound
    have hcopy := h.holds.kstrdup ha (cstr value)
    rw [hplace, fst_kstrdup ha, if_neg (Option.some_ne_none a), and_iff_right ⟨a, rfl, ha⟩]
    refine (and_iff_right fun hs => hs.elim).trans ((and_iff_right fun hs => hs.elim).trans ?_)
    refine awake_findEntry_iff ((hcopy.inside h.held (h.lt_guarded key)).holds.chain _ hlt)
      (h.holds.length_chain_le hlt) key ?_ fun e => quiet_replaceValue ..
    -- the entry for a new key is allocated under the lock
    intro hawake
    exact List.cons_ne_nil _ _ (hawake.1 trivial)
  · rw [exec_kstrdup_of_not_found hfound]
    exact iff_of_true trivial fun hins => hfound hins.1

/-- **A call sleeps under a lock exactly if it inserts**: if it adds a key that is not there, and memory is
found for the value. -/
theorem awake_iff_not_inserts {m : Memory} (h : Usable H m) (c : Call) :
    (c.code H m.live.card).Along exec Awake m ↔ ¬ c.Inserts H m := by
  cases c with
  | add key value places =>
      obtain habsent | ⟨L, hwhole⟩ := h
      · have hlook : Awake m .table := fun hs => hs.elim
        exact iff_of_true (habsent.along hlook _) fun hins => hins.1 habsent.buckets
      · exact hwhole.awake_kvHashAdd_iff key value places
  | remove key => exact iff_of_true ((quiet_kvHashRemove ..).awake m) id
  | lookup key n outBuf =>
      exact iff_of_true (((quiet_kvHashLookup ..).bind fun _ => quiet_ret _).awake m) id
  | count => exact iff_of_true (((quiet_kvHashCount _).bind fun _ => quiet_ret _).awake m) id
  | snapshot entries maxEntries =>
      exact iff_of_true (((quiet_kvHashSnapshot ..).bind fun _ => quiet_ret _).awake m) id

/-- The value of the entry that is there is replaced. -/
theorem awake_update_oneEntry :
    ((Call.add 7 [98] ⟨some 5, some 6⟩).code twoBuckets oneEntry.live.card).Along exec Awake oneEntry := by
  refine (awake_iff_not_inserts (usable_after ..) _).2 ?_
  rintro ⟨-, -, hnew⟩
  exact hnew 4 (.here rfl) rfl

/-- An entry is added to a table that has no entries: the fifth instruction may sleep, under the lock. -/
theorem not_awake_insert :
    ¬ ((Call.add 7 [97] ⟨some 3, some 4⟩).code twoBuckets
      (started twoBuckets ⟨some 1, some 2⟩ blank).2.live.card).Along exec Awake
        (started twoBuckets ⟨some 1, some 2⟩ blank).2 := by
  intro h
  exact absurd (h.2.2.2.2.1 trivial) (by decide)

end KvMemory
