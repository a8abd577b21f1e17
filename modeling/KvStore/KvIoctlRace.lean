/-
**Concurrent insertions, updates and deletions of one key.**

`_handle_insert` and `_handle_update` look their key up in one critical section and write it in a
second one.  Between the two the lock of the bucket is free, and what the first section found may no
longer hold in the second.  This module runs any number of requests concurrently, in any order of
their critical sections, and says which orders keep the promises of the two operations.

An insertion is the pattern of `KvStore/CheckThenAct.lean`: seen through its key, a pool of requests
is that state machine, and the requests for other keys are steps in which it does not move.

Main definitions:

* `KvIoctl.inFlight` — a pool of requests over a store;
* `KvIoctl.InsertOverlaps` — an insertion looks its key up while another insertion of the key is
  between its lookup and its addition;
* `KvIoctl.RemoveOverlaps` — a deletion removes its key while an update of the key is between its
  lookup and its addition.

Main results:

* `KvIoctl.insert_once_iff` — exactly one of the insertions of an absent key is acknowledged, and
  its value is the one stored, **if and only if** no two insertions overlap;
* `KvIoctl.update_never_creates` — as long as no deletion overlaps an update, no update makes an
  absent key present, and a deleted key stays away until it is inserted again.
-/

import KvStore.CheckThenAct
import KvStore.KvIoctl

set_option relaxedAutoImplicit false
set_option autoImplicit false

namespace KvIoctl

open CMem Interleave KvHash

variable {H : HashFn} {ι : Type}

/-! ### Requests in flight -/

/-- A pool of requests, none of which has taken a step. -/
def inFlight (s : Store H) (req : ι → Request) : Pool ι (Store H) (Op H) Res (ℤ × KvMessage) where
  shared := s
  thread := fun i => (req i).prog

/-- The request has ended with the given status. -/
def EndedWith (status : Int32) : Kernel H (ℤ × KvMessage) → Prop
  | .ret (ret, msg) => ret = 0 ∧ msg.status = status
  | .call _ _ => False

instance (status : Int32) : (p : Kernel H (ℤ × KvMessage)) → Decidable (EndedWith status p)
  | .ret (_, _) => inferInstanceAs (Decidable (_ ∧ _))
  | .call _ _ => inferInstanceAs (Decidable False)

/-- The next step is a lookup of the key. -/
def aboutToLookUp (key : HashKey) : Kernel H (ℤ × KvMessage) → Bool
  | .call (.lookup k _) _ => k == key
  | _ => false

/-- The next step is an addition under the key. -/
def aboutToAdd (key : HashKey) : Kernel H (ℤ × KvMessage) → Bool
  | .call (.add k _) _ => k == key
  | _ => false

/-- The next step is a removal of the key. -/
def aboutToRemove (key : HashKey) : Kernel H (ℤ × KvMessage) → Bool
  | .call (.remove k) _ => k == key
  | _ => false

/-- The request is the given command for the given key. -/
def Request.Is (r : Request) (cmd : Cmd) (key : HashKey) : Prop := r.cmd = cmd ∧ r.arg.key = key

instance (r : Request) (cmd : Cmd) (key : HashKey) : Decidable (r.Is cmd key) :=
  inferInstanceAs (Decidable (_ ∧ _))

/-- A request that neither adds nor removes under the key leaves it alone. -/
theorem uses_prog_not_writes (r : Request) {key : HashKey}
    (h : r.arg.key = key → r.cmd ≠ .kvInsert ∧ r.cmd ≠ .kvUpdate ∧ r.cmd ≠ .kvDelete) :
    (r.prog : Kernel H (ℤ × KvMessage)).Uses fun op => ¬ op.Writes key := by
  refine (uses_prog r).mono fun op hop hw => ?_
  cases op with
  | lookup k outBuf => exact hw
  | add k value =>
      obtain ⟨rfl, -, hcmd⟩ := hop
      obtain ⟨hi, hu, -⟩ := h hw
      exact hcmd.elim hi hu
  | remove k =>
      obtain ⟨rfl, hcmd⟩ := hop
      exact (h hw).2.2 hcmd
  | visit b => exact hw

/-! ### Insertions -/

/-- An insertion, by the phase it is in. -/
def insertPhase (r : Request) : CheckThenAct.Phase → Kernel H (ℤ × KvMessage)
  | .start => handleInsert r.env r.arg
  | .pending => addAndReply r.env r.arg (ascii "Insert failed.\n")
  | .stored => .ret (0, { r.arg with status := 0 })
  | .refused => .ret (0, { r.arg with
      status := 1
      value := snprintf r.arg.value (ascii "Key exists. Use update.\n") })

/-- An insertion of the key is about to look it up while another one is between its lookup and its
addition. -/
def InsertOverlaps (req : ι → Request) (key : HashKey)
    (q : Pool ι (Store H) (Op H) Res (ℤ × KvMessage)) (e : ι × Alloc) : Prop :=
  (req e.1).Is .kvInsert key ∧ aboutToLookUp key (q.thread e.1) = true ∧
    ∃ j, (req j).Is .kvInsert key ∧ aboutToAdd key (q.thread j) = true

theorem aboutToLookUp_insertPhase {r : Request} (ph : CheckThenAct.Phase) :
    aboutToLookUp r.arg.key (insertPhase r ph : Kernel H (ℤ × KvMessage)) = true ↔ ph = .start := by
  cases ph with
  | start => exact iff_of_true (beq_self_eq_true _) rfl
  | pending => exact iff_of_false Bool.false_ne_true CheckThenAct.Phase.noConfusion
  | stored => exact iff_of_false Bool.false_ne_true CheckThenAct.Phase.noConfusion
  | refused => exact iff_of_false Bool.false_ne_true CheckThenAct.Phase.noConfusion

theorem aboutToAdd_insertPhase {r : Request} (ph : CheckThenAct.Phase) :
    aboutToAdd r.arg.key (insertPhase r ph : Kernel H (ℤ × KvMessage)) = true ↔ ph = .pending := by
  cases ph with
  | start => exact iff_of_false Bool.false_ne_true CheckThenAct.Phase.noConfusion
  | pending => exact iff_of_true (beq_self_eq_true _) rfl
  | stored => exact iff_of_false Bool.false_ne_true CheckThenAct.Phase.noConfusion
  | refused => exact iff_of_false Bool.false_ne_true CheckThenAct.Phase.noConfusion

/-- The pool seen through the key: each insertion is in its phase, the other requests leave the key
alone, and the cell is what the store holds under the key. -/
structure SeenThrough (req : ι → Request) (key : HashKey)
    (q : Pool ι (Store H) (Op H) Res (ℤ × KvMessage)) (a : CheckThenAct.State ι CStr) : Prop where
  insert : ∀ i, (req i).Is .kvInsert key → q.thread i = insertPhase (req i) (a.phase i)
  other : ∀ i, ¬ (req i).Is .kvInsert key →
    a.phase i = .start ∧ (q.thread i).Uses fun op => ¬ op.Writes key
  cell : q.shared.get key = a.cell
  short : ∀ v, a.cell = some v → v.1.length < MAX_VALUE_LEN

section Insertions

variable {req : ι → Request} {key : HashKey}
variable {q : Pool ι (Store H) (Op H) Res (ℤ × KvMessage)} {a : CheckThenAct.State ι CStr}

/-- The value an insertion is to store. -/
def insertValue (req : ι → Request) (i : ι) : CStr := cstr (req i).arg.value.1

/-- The lookup of an insertion is a check of the cell. -/
theorem SeenThrough.found_eq (h : SeenThrough req key q a) : q.shared.found key = a.cell.isSome := by
  rw [Store.found, h.cell]
  cases hv : a.cell with
  | none => rfl
  | some v => exact decide_eq_true (h.short v hv)

theorem SeenThrough.endedWith_zero_iff (h : SeenThrough req key q a) {i : ι}
    (hi : (req i).Is .kvInsert key) : EndedWith 0 (q.thread i) ↔ a.phase i = .stored := by
  have hone : ¬ (1 : Int32) = 0 := by decide
  rw [h.insert i hi]
  cases a.phase i with
  | start => exact iff_of_false not_false CheckThenAct.Phase.noConfusion
  | pending => exact iff_of_false not_false CheckThenAct.Phase.noConfusion
  | stored => exact iff_of_true ⟨rfl, rfl⟩ rfl
  | refused => exact iff_of_false (fun hst => hone hst.2) CheckThenAct.Phase.noConfusion

theorem SeenThrough.endedWith_one_iff (h : SeenThrough req key q a) {i : ι}
    (hi : (req i).Is .kvInsert key) : EndedWith 1 (q.thread i) ↔ a.phase i = .refused := by
  have hzero : ¬ (0 : Int32) = 1 := by decide
  rw [h.insert i hi]
  cases a.phase i with
  | start => exact iff_of_false not_false CheckThenAct.Phase.noConfusion
  | pending => exact iff_of_false not_false CheckThenAct.Phase.noConfusion
  | stored => exact iff_of_false (fun hst => hzero hst.2) CheckThenAct.Phase.noConfusion
  | refused => exact iff_of_true ⟨rfl, rfl⟩ rfl

/-- Overlaps of insertions are overlaps of the pattern. -/
theorem SeenThrough.overlaps_iff (h : SeenThrough req key q a) {e : ι × Alloc}
    (he : (req e.1).Is .kvInsert key) :
    InsertOverlaps req key q e ↔ CheckThenAct.Overlaps a e.1 := by
  have hlook : ∀ i, (req i).Is .kvInsert key →
      (aboutToLookUp key (q.thread i) = true ↔ a.phase i = .start) := by
    intro i hi
    rw [h.insert i hi, ← hi.2]
    exact aboutToLookUp_insertPhase _
  have hadd : ∀ i, (req i).Is .kvInsert key →
      (aboutToAdd key (q.thread i) = true ↔ a.phase i = .pending) := by
    intro i hi
    rw [h.insert i hi, ← hi.2]
    exact aboutToAdd_insertPhase _
  constructor
  · rintro ⟨-, hl, j, hj, hp⟩
    exact ⟨(hlook e.1 he).1 hl, j, (hadd j hj).1 hp⟩
  · rintro ⟨hs, j, hp⟩
    have hj : (req j).Is .kvInsert key := by
      by_contra hn
      rw [(h.other j hn).1] at hp
      cases hp
    exact ⟨he, (hlook e.1 he).2 hs, j, hj, (hadd j hj).2 hp⟩

/-- A pool in which nothing has happened yet, seen through a key that is absent. -/
theorem seenThrough_inFlight {s : Store H} (habsent : s.get key = none)
    (hother : ∀ i, (req i).arg.key = key → (req i).cmd ≠ .kvUpdate ∧ (req i).cmd ≠ .kvDelete) :
    SeenThrough req key (inFlight s req) CheckThenAct.State.init where
  insert := by
    rintro i ⟨hcmd, -⟩
    change (req i).prog = handleInsert _ _
    rw [Request.prog, hcmd, dispatch]
  other := by
    intro i hi
    refine ⟨rfl, uses_prog_not_writes (req i) fun hkey => ?_⟩
    exact ⟨fun hcmd => hi ⟨hcmd, hkey⟩, hother i hkey⟩
  cell := habsent
  short := by
    intro v hv
    cases hv

/-- An insertion that has returned is in one of the two final phases. -/
theorem SeenThrough.phase_of_done (h : SeenThrough req key q a) {i : ι}
    (hi : (req i).Is .kvInsert key) (hdone : (q.thread i).next? = none) :
    a.phase i = .stored ∨ a.phase i = .refused := by
  rw [h.insert i hi] at hdone
  cases hph : a.phase i with
  | start =>
      rw [hph] at hdone
      cases hdone
  | pending =>
      rw [hph] at hdone
      cases hdone
  | stored => exact .inl rfl
  | refused => exact .inr rfl

/-- The insertion that takes the step, if it is one of the key. -/
def insertOf (req : ι → Request) (key : HashKey) (e : ι × Alloc) : Option ι :=
  if (req e.1).Is .kvInsert key then some e.1 else none

theorem insertOf_eq_none {e : ι × Alloc} (h : insertOf req key e = none) :
    ¬ (req e.1).Is .kvInsert key := by
  intro hi
  rw [insertOf, if_pos hi] at h
  cases h

theorem insertOf_eq_some {e : ι × Alloc} {i : ι} (h : insertOf req key e = some i) :
    (req e.1).Is .kvInsert key ∧ i = e.1 := by
  rw [insertOf] at h
  split at h
  · rename_i hi
    exact ⟨hi, (Option.some.inj h).symm⟩
  · cases h

variable [DecidableEq ι]

/-- A step of a request that is not an insertion of the key. -/
theorem SeenThrough.step_other (h : SeenThrough req key q a) {e : ι × Alloc}
    (he : ¬ (req e.1).Is .kvInsert key) : SeenThrough req key (q.step exec e) a where
  insert := by
    intro i hi
    have hne : i ≠ e.1 := by
      rintro rfl
      exact he hi
    rw [Pool.thread_step_of_ne exec q hne]
    exact h.insert i hi
  other := by
    intro i hi
    refine ⟨(h.other i hi).1, ?_⟩
    rcases eq_or_ne i e.1 with rfl | hne
    · rw [Pool.thread_step_self]
      exact (h.other e.1 hi).2.step _ _
    · rw [Pool.thread_step_of_ne exec q hne]
      exact (h.other i hi).2
  cell := by
    refine Prog.step_frame (exec e.2) (h.other e.1 he).2 (fun t => t.get key = a.cell) ?_ h.cell
    intro op hop t ht
    rw [get_exec_of_not_writes hop]
    exact ht
  short := h.short

/-- A step of an insertion of the key is a step of the pattern. -/
theorem SeenThrough.step_insert (h : SeenThrough req key q a) {e : ι × Alloc}
    (he : (req e.1).Is .kvInsert key) (halloc : e.2 = Alloc.ok) (hnul : 0 ∈ (req e.1).arg.value.1) :
    SeenThrough req key (q.step exec e) (CheckThenAct.step (insertValue req) a e.1) := by
  have hkey : (req e.1).arg.key = key := he.2
  have hfound := h.found_eq
  -- the insertions that do not move, and the other requests
  have hstill : ∀ i, i ≠ e.1 → (req i).Is .kvInsert key → (q.step exec e).thread i =
      insertPhase (req i) ((CheckThenAct.step (insertValue req) a e.1).phase i) := by
    intro i hne hi
    rw [Pool.thread_step_of_ne exec q hne, CheckThenAct.phase_step_of_ne _ a hne]
    exact h.insert i hi
  have hother : ∀ i, ¬ (req i).Is .kvInsert key →
      (CheckThenAct.step (insertValue req) a e.1).phase i = .start ∧
        ((q.step exec e).thread i).Uses fun op => ¬ op.Writes key := by
    intro i hi
    have hne : i ≠ e.1 := by
      rintro rfl
      exact hi he
    rw [Pool.thread_step_of_ne exec q hne, CheckThenAct.phase_step_of_ne _ a hne]
    exact h.other i hi
  have hthread := h.insert e.1 he
  -- what is left is the insertion that moves
  suffices hmove : (q.step exec e).thread e.1 =
        insertPhase (req e.1) ((CheckThenAct.step (insertValue req) a e.1).phase e.1) ∧
      (q.step exec e).shared.get key = (CheckThenAct.step (insertValue req) a e.1).cell ∧
      ∀ v, (CheckThenAct.step (insertValue req) a e.1).cell = some v →
        v.1.length < MAX_VALUE_LEN by
    refine ⟨fun i hi => ?_, hother, hmove.2.1, hmove.2.2⟩
    rcases eq_or_ne i e.1 with rfl | hne
    · exact hmove.1
    · exact hstill i hne hi
  rw [Pool.thread_step_self, Pool.shared_step, hthread, halloc]
  cases hph : a.phase e.1 with
  | start =>
      rw [insertPhase, step_handleInsert, hkey, hfound, CheckThenAct.step, hph]
      refine ⟨?_, h.cell, h.short⟩
      cases a.cell.isSome with
      | true => simp [insertPhase, hkey]
      | false => simp [insertPhase]
  | pending =>
      have hget := q.shared.get_add key ((req e.1).arg.value.1 ++ (req e.1).env.stack) Alloc.ok key
      have hadm : Alloc.ok.admits q.shared.1 key = true := by simp [Alloc.admits, Alloc.ok]
      rw [if_pos ⟨hadm, rfl⟩, cstr_append hnul] at hget
      rw [insertPhase, step_addAndReply, hkey, hadm, CheckThenAct.step, hph]
      refine ⟨?_, hget, fun v hv => ?_⟩
      · simp [insertPhase, hkey]
      · obtain rfl := Option.some.inj hv
        exact lt_of_lt_of_eq (length_cstr_lt hnul) (req e.1).arg.value.2
  | stored =>
      rw [CheckThenAct.step, hph]
      exact ⟨by rw [hph]; rfl, h.cell, h.short⟩
  | refused =>
      rw [CheckThenAct.step, hph]
      exact ⟨by rw [hph]; rfl, h.cell, h.short⟩

/-- A step of an insertion is matched by the pattern, and overlaps another insertion when it does
so in the pattern. -/
theorem SeenThrough.step_some (h : SeenThrough req key q a) {e : ι × Alloc} {i : ι}
    (hnul : ∀ i, (req i).Is .kvInsert key → 0 ∈ (req i).arg.value.1) (halloc : e.2 = Alloc.ok)
    (he : insertOf req key e = some i) :
    SeenThrough req key (q.step exec e) (CheckThenAct.step (insertValue req) a i) ∧
      (¬ InsertOverlaps req key q e ↔ ¬ CheckThenAct.Overlaps a i) := by
  obtain ⟨hi, rfl⟩ := insertOf_eq_some he
  exact ⟨h.step_insert hi halloc (hnul e.1 hi), not_congr (h.overlaps_iff hi)⟩

/-- **Insert-if-absent.**  Let any number of insertions of an absent key run concurrently, with
terminated values and successful allocations, among requests that neither update nor delete the
key, until all of the insertions are done.  Exactly one of them has ended with status 0 and all
others with status 1, and the value stored is the one of the former, if and only if no insertion
looked the key up while another one was between its lookup and its addition. -/
theorem insert_once_iff {s : Store H} (habsent : s.get key = none)
    (hnul : ∀ i, (req i).Is .kvInsert key → 0 ∈ (req i).arg.value.1)
    (hother : ∀ i, (req i).arg.key = key → (req i).cmd ≠ .kvUpdate ∧ (req i).cmd ≠ .kvDelete)
    (hsome : ∃ i, (req i).Is .kvInsert key) {es : List (ι × Alloc)}
    (hes : ∀ e ∈ es, e.2 = Alloc.ok)
    (hdone : ∀ i, (req i).Is .kvInsert key →
      (((inFlight s req).run exec es).thread i).next? = none) :
    (∃ i, (req i).Is .kvInsert key ∧ EndedWith 0 (((inFlight s req).run exec es).thread i) ∧
      ((inFlight s req).run exec es).shared.get key = some (cstr (req i).arg.value.1) ∧
      ∀ j, (req j).Is .kvInsert key → j ≠ i →
        EndedWith 1 (((inFlight s req).run exec es).thread j)) ↔
    Machine.Along (Pool.step exec) (fun q e => ¬ InsertOverlaps req key q e) (inFlight s req) es := by
  have hstart : SeenThrough req key (inFlight s req) CheckThenAct.State.init :=
    seenThrough_inFlight habsent hother
  -- the schedule of the insertions alone is a run of the pattern
  have hend : SeenThrough req key ((inFlight s req).run exec es)
      (Machine.run (CheckThenAct.step (insertValue req)) CheckThenAct.State.init
        (es.filterMap (insertOf req key))) :=
    Machine.run_simulation (fun e _ hfe q a h => h.step_other (insertOf_eq_none hfe))
      (fun e he i hfe q a h => (h.step_some hnul (hes e he) hfe).1) hstart
  have halong : Machine.Along (Pool.step exec) (fun q e => ¬ InsertOverlaps req key q e)
        (inFlight s req) es ↔
      Machine.Along (CheckThenAct.step (insertValue req)) (fun a i => ¬ CheckThenAct.Overlaps a i)
        CheckThenAct.State.init (es.filterMap (insertOf req key)) :=
    Machine.along_simulation_iff
      (fun e _ hfe q a h =>
        ⟨h.step_other (insertOf_eq_none hfe), fun hov => insertOf_eq_none hfe hov.1⟩)
      (fun e he i hfe q a h => h.step_some hnul (hes e he) hfe) hstart
  have hmem : ∀ i ∈ es.filterMap (insertOf req key), i ∈ { i | (req i).Is .kvInsert key } := by
    intro i hi
    obtain ⟨e, -, hfe⟩ := List.mem_filterMap.1 hi
    obtain ⟨he, rfl⟩ := insertOf_eq_some hfe
    exact he
  rw [halong, ← CheckThenAct.stored_once_iff (insertValue req) hsome hmem
    fun i hi => hend.phase_of_done hi (hdone i hi)]
  constructor
  · rintro ⟨i, hi, hzero, hcell, hone⟩
    refine ⟨i, hi, (hend.endedWith_zero_iff hi).1 hzero, hend.cell.symm.trans hcell, ?_⟩
    intro j hj hne
    exact (hend.endedWith_one_iff hj).1 (hone j hj hne)
  · rintro ⟨i, hi, hstored, hcell, hrefused⟩
    refine ⟨i, hi, (hend.endedWith_zero_iff hi).2 hstored, hend.cell.trans hcell, ?_⟩
    intro j hj hne
    exact (hend.endedWith_one_iff hj).2 (hrefused j hj hne)

end Insertions

/-- Two insertions of key 7, with the values `a` and `b`. -/
def twoInserts (i : Fin 2) : Request where
  env := .ok
  cmd := .kvInsert
  arg := { KvMessage.zero with
    key := 7
    value := memcpy (zeros MAX_VALUE_LEN) (if i.val = 0 then ascii "a" else ascii "b") }

/-- One after the other. -/
theorem insert_once_in_turn :
    let q := (inFlight (Store.init HashFn.module) twoInserts).run exec
      [(0, .ok), (0, .ok), (1, .ok), (1, .ok)]
    ∃ i, (twoInserts i).Is .kvInsert 7 ∧ EndedWith 0 (q.thread i) ∧
      q.shared.get 7 = some (cstr (twoInserts i).arg.value.1) ∧
      ∀ j, (twoInserts j).Is .kvInsert 7 → j ≠ i → EndedWith 1 (q.thread j) := by
  intro q
  refine (insert_once_iff (Store.get_init 7) (by decide) (by decide) ⟨0, by decide⟩ (by decide)
    (by decide)).2 ⟨?_, ?_, ?_, ?_, trivial⟩
  all_goals
    unfold InsertOverlaps
    decide

/-- Both lookups first: both insertions are acknowledged, and the second overwrites the first. -/
theorem insert_twice :
    let q := (inFlight (Store.init HashFn.module) twoInserts).run exec
      [(0, .ok), (1, .ok), (0, .ok), (1, .ok)]
    EndedWith 0 (q.thread 0) ∧ EndedWith 0 (q.thread 1) ∧
      q.shared.get 7 = some (cstr (twoInserts 1).arg.value.1) ∧
      cstr (twoInserts 1).arg.value.1 ≠ cstr (twoInserts 0).arg.value.1 := by
  decide

/-! ### Updates and deletions -/

section Updates

variable {req : ι → Request} {q : Pool ι (Store H) (Op H) Res (ℤ × KvMessage)}

/-- A deletion is about to remove its key while an update of the key is between its lookup and its
addition. -/
def RemoveOverlaps (req : ι → Request) (q : Pool ι (Store H) (Op H) Res (ℤ × KvMessage))
    (e : ι × Alloc) : Prop :=
  ∃ key, (req e.1).Is .kvDelete key ∧ aboutToRemove key (q.thread e.1) = true ∧
    ∃ j, (req j).Is .kvUpdate key ∧ aboutToAdd key (q.thread j) = true

/-- Where an update may be: before its lookup, between lookup and addition, or done. -/
def UpdateShape (r : Request) (p : Kernel H (ℤ × KvMessage)) : Prop :=
  p = handleUpdate r.env r.arg ∨ p = addAndReply r.env r.arg (ascii "Update failed.\n") ∨
    ∃ reply, p = .ret reply

/-- What holds as long as no deletion overlaps an update: the key of an update that is about to add
is present. -/
structure UpdateSafe (req : ι → Request) (q : Pool ι (Store H) (Op H) Res (ℤ × KvMessage)) :
    Prop where
  performs : ∀ i, (q.thread i).Uses (req i).Performs
  shape : ∀ i, (req i).cmd = .kvUpdate → UpdateShape (req i) (q.thread i)
  present : ∀ i, (req i).cmd = .kvUpdate → aboutToAdd (req i).arg.key (q.thread i) = true →
    q.shared.get (req i).arg.key ≠ none

theorem updateSafe_inFlight (s : Store H) (req : ι → Request) :
    UpdateSafe req (inFlight s req) where
  performs := fun i => uses_prog (req i)
  shape := by
    intro i hi
    left
    change (req i).prog = _
    rw [Request.prog, hi, dispatch]
  present := by
    intro i hi hadd
    change aboutToAdd _ (req i).prog = true at hadd
    rw [Request.prog, hi, dispatch] at hadd
    cases hadd

/-- Only a removal makes a key absent. -/
theorem get_exec_ne_none {alloc : Alloc} {op : Op H} {key : HashKey} {s : Store H}
    (hop : op ≠ .remove key) (h : s.get key ≠ none) : (exec alloc op s).2.get key ≠ none := by
  cases op with
  | lookup k outBuf => exact h
  | add k value =>
      rw [exec, Store.get_add]
      split
      · exact Option.some_ne_none _
      · exact h
  | remove k =>
      have hne : key ≠ k := by
        rintro rfl
        exact hop rfl
      rw [exec, Store.get_remove, if_neg hne]
      exact h
  | visit b => exact h

theorem UpdateShape.step {r : Request} {p : Kernel H (ℤ × KvMessage)} (h : UpdateShape r p)
    (alloc : Alloc) (s : Store H) : UpdateShape r (p.step (exec alloc) s).1 := by
  rcases h with rfl | rfl | ⟨reply, rfl⟩
  · rw [step_handleUpdate]
    cases s.found r.arg.key with
    | true => exact .inr (.inl rfl)
    | false => exact .inr (.inr ⟨_, rfl⟩)
  · rw [step_addAndReply]
    exact .inr (.inr ⟨_, rfl⟩)
  · exact .inr (.inr ⟨reply, rfl⟩)

/-- An update that has just become ready to add has found its key. -/
theorem UpdateShape.get_step_ne_none {r : Request} {p : Kernel H (ℤ × KvMessage)}
    (h : UpdateShape r p) {alloc : Alloc} {s : Store H}
    (hadd : aboutToAdd r.arg.key (p.step (exec alloc) s).1 = true) :
    (p.step (exec alloc) s).2.get r.arg.key ≠ none := by
  rcases h with rfl | rfl | ⟨reply, rfl⟩
  · rw [step_handleUpdate] at hadd ⊢
    cases hf : s.found r.arg.key with
    | true => exact Store.get_ne_none_of_found hf
    | false =>
        rw [hf] at hadd
        cases hadd
  · rw [step_addAndReply] at hadd
    cases hadd
  · cases hadd

/-- An update whose key is present when it adds makes no absent key present. -/
theorem UpdateShape.get_step_eq_none {r : Request} {p : Kernel H (ℤ × KvMessage)}
    (h : UpdateShape r p) {alloc : Alloc} {s : Store H}
    (hpresent : aboutToAdd r.arg.key p = true → s.get r.arg.key ≠ none) {key : HashKey}
    (hkey : s.get key = none) : (p.step (exec alloc) s).2.get key = none := by
  rcases h with rfl | rfl | ⟨reply, rfl⟩
  · rw [step_handleUpdate]
    exact hkey
  · have hne : key ≠ r.arg.key := by
      rintro rfl
      exact hpresent (beq_self_eq_true _) hkey
    rw [step_addAndReply, Store.get_add, if_neg fun hc => hne hc.2]
    exact hkey
  · exact hkey

variable [DecidableEq ι]

/-- A step that does not overlap keeps the updates safe. -/
theorem UpdateSafe.step (h : UpdateSafe req q) {e : ι × Alloc} (he : ¬ RemoveOverlaps req q e) :
    UpdateSafe req (q.step exec e) where
  performs := Pool.uses_run exec [e] h.performs
  shape := by
    intro i hi
    rcases eq_or_ne i e.1 with rfl | hne
    · rw [Pool.thread_step_self]
      exact (h.shape e.1 hi).step _ _
    · rw [Pool.thread_step_of_ne exec q hne]
      exact h.shape i hi
  present := by
    intro i hi hadd
    rcases eq_or_ne i e.1 with rfl | hne
    · rw [Pool.thread_step_self] at hadd
      exact (h.shape e.1 hi).get_step_ne_none hadd
    · rw [Pool.thread_step_of_ne exec q hne] at hadd
      have hbefore := h.present i hi hadd
      rw [Pool.shared_step]
      cases hth : q.thread e.1 with
      | ret reply => exact hbefore
      | call op k =>
          -- the step is not a removal of the key, because that would overlap the update
          refine get_exec_ne_none ?_ hbefore
          rintro rfl
          have hop : (req e.1).Performs (.remove (req i).arg.key : Op H) :=
            (h.performs e.1).of_next? (by rw [hth, Prog.next?_call])
          obtain ⟨hkey, hcmd⟩ := hop
          refine he ⟨(req i).arg.key, ⟨hcmd, hkey.symm⟩, ?_, i, ⟨hi, rfl⟩, hadd⟩
          rw [hth]
          exact beq_self_eq_true _

/-- With safe updates only an insertion of the key makes it present. -/
theorem UpdateSafe.get_step_eq_none (h : UpdateSafe req q) {e : ι × Alloc} {key : HashKey}
    (hkey : q.shared.get key = none)
    (he : (req e.1).Is .kvInsert key → (q.thread e.1).next? = none) :
    (q.step exec e).shared.get key = none := by
  rw [Pool.shared_step]
  by_cases hupd : (req e.1).cmd = .kvUpdate
  · exact (h.shape e.1 hupd).get_step_eq_none (h.present e.1 hupd) hkey
  · cases hth : q.thread e.1 with
    | ret reply => exact hkey
    | call op k =>
        have hop : (req e.1).Performs op :=
          (h.performs e.1).of_next? (by rw [hth, Prog.next?_call])
        rw [Prog.step_call]
        cases op with
        | lookup k outBuf => exact hkey
        | add k value =>
            obtain ⟨rfl, -, hcmd⟩ := hop
            have hne : key ≠ (req e.1).arg.key := by
              rintro rfl
              have hret := he ⟨hcmd.resolve_right hupd, rfl⟩
              rw [hth] at hret
              cases hret
            rw [exec, Store.get_add, if_neg fun hc => hne hc.2]
            exact hkey
        | remove k =>
            rw [exec, Store.get_remove]
            split
            · rfl
            · exact hkey
        | visit b => exact hkey

/-- A request that has returned stays as it is. -/
theorem next?_step {i : ι} (h : (q.thread i).next? = none) (e : ι × Alloc) :
    ((q.step exec e).thread i).next? = none := by
  rcases eq_or_ne i e.1 with rfl | hne
  · rw [Pool.thread_step_self]
    cases hth : q.thread e.1 with
    | ret reply => rfl
    | call op k =>
        rw [hth] at h
        cases h
  · rw [Pool.thread_step_of_ne exec q hne]
    exact h

/-- A key that has just been removed is absent. -/
theorem get_step_of_aboutToRemove {e : ι × Alloc} {key : HashKey}
    (h : aboutToRemove key (q.thread e.1) = true) : (q.step exec e).shared.get key = none := by
  rw [Pool.shared_step]
  cases hth : q.thread e.1 with
  | ret reply =>
      rw [hth] at h
      cases h
  | call op k =>
      cases op with
      | remove k' =>
          rw [hth] at h
          have hkey : key = k' := (beq_iff_eq.1 h).symm
          rw [Prog.step_call, exec, Store.get_remove, if_pos hkey]
      | _ =>
          rw [hth] at h
          cases h

/-- **Update-if-present.**  Let any number of requests run concurrently on any store, with
allocations failing arbitrarily.  If no deletion removes its key while an update of the key is
between its lookup and its addition, then no step of an update makes a key present that was absent
right before it, and a key whose deletion is acknowledged with status 0 is absent from then on as
long as no insertion of it takes a step. -/
theorem update_never_creates {s : Store H} {es : List (ι × Alloc)}
    (h : Machine.Along (Pool.step exec) (fun q e => ¬ RemoveOverlaps req q e) (inFlight s req) es) :
    (∀ es₁ e es₂ key, es = es₁ ++ e :: es₂ → (req e.1).cmd = .kvUpdate →
      ((inFlight s req).run exec es₁).shared.get key = none →
      ((inFlight s req).run exec (es₁ ++ [e])).shared.get key = none) ∧
    ∀ es₁ e es₂ es₃ key, es = es₁ ++ e :: es₂ ++ es₃ → (req e.1).Is .kvDelete key →
      aboutToRemove key (((inFlight s req).run exec es₁).thread e.1) = true →
      EndedWith 0 (((inFlight s req).run exec (es₁ ++ [e])).thread e.1) →
      (∀ e' ∈ es₂, (req e'.1).Is .kvInsert key →
        (((inFlight s req).run exec (es₁ ++ [e])).thread e'.1).next? = none) →
      ((inFlight s req).run exec (es₁ ++ e :: es₂)).shared.get key = none := by
  have hsafe : ∀ es₁ es₂, es = es₁ ++ es₂ → UpdateSafe req ((inFlight s req).run exec es₁) := by
    rintro es₁ es₂ rfl
    exact Machine.along_invariant (Pool.step exec) (UpdateSafe req)
      ((Machine.along_append ..).1 h).1 (updateSafe_inFlight s req)
      fun e _ q hq he => hq.step he
  refine ⟨?_, ?_⟩
  · rintro es₁ e es₂ key hes hupd hkey
    have hq := hsafe es₁ (e :: es₂) hes
    rw [Pool.run_concat]
    exact hq.get_step_eq_none hkey fun hins => absurd (hins.1.symm.trans hupd) (by decide)
  · rintro es₁ e es₂ es₃ key rfl hdel hrem - hins
    have hq := hsafe (es₁ ++ [e]) (es₂ ++ es₃) (by simp)
    rw [Pool.run_concat] at hq hins
    have halong : Machine.Along (Pool.step exec) (fun q e => ¬ RemoveOverlaps req q e)
        (((inFlight s req).run exec es₁).step exec e) es₂ := by
      have hall := ((Machine.along_append ..).1 h).1
      exact ((Machine.along_append ..).1 hall).2.2
    rw [Pool.run_append, Pool.run_cons]
    -- from the removal on: the key is absent, and its insertions are done
    refine (Machine.along_invariant (Pool.step exec)
      (fun q => UpdateSafe req q ∧ q.shared.get key = none ∧
        ∀ e' ∈ es₂, (req e'.1).Is .kvInsert key → (q.thread e'.1).next? = none)
      halong ⟨hq, ?_, hins⟩ ?_).2.1
    · exact get_step_of_aboutToRemove hrem
    · rintro e' he' q ⟨hsafe', hkey, hdone⟩ hov
      refine ⟨hsafe'.step hov, hsafe'.get_step_eq_none hkey (hdone e' he'), ?_⟩
      intro e'' he'' hins''
      exact next?_step (hdone e'' he'' hins'') e'

end Updates

/-- Two updates of key 7 to `b`, and a deletion of it. -/
def updateAndDelete (i : Fin 3) : Request where
  env := .ok
  cmd := if i.val = 1 then .kvDelete else .kvUpdate
  arg := { KvMessage.zero with
    key := 7
    value := memcpy (zeros MAX_VALUE_LEN) (ascii "b") }

/-- A store that holds `a` under key 7. -/
def storeWithA : Store HashFn.module := ((Store.init HashFn.module).add 7 (ascii "a" ++ [0]) .ok).2

/-- An update first, then the deletion, and then the other update, which does not find the key: the key is
gone. -/
theorem update_then_delete :
    ((inFlight storeWithA updateAndDelete).run exec
      ([(0, .ok), (0, .ok)] ++ (1, .ok) :: [(2, .ok)])).shared.get 7 = none := by
  have halong : Machine.Along (Pool.step exec) (fun q e => ¬ RemoveOverlaps updateAndDelete q e)
      (inFlight storeWithA updateAndDelete) [(0, .ok), (0, .ok), (1, .ok), (2, .ok)] := by
    refine ⟨?_, ?_, ?_, ?_, trivial⟩
    · rintro ⟨key, ⟨hcmd, -⟩, -⟩
      exact absurd hcmd (by decide)
    · rintro ⟨key, ⟨hcmd, -⟩, -⟩
      exact absurd hcmd (by decide)
    · rintro ⟨key, ⟨-, rfl⟩, -, hpending⟩
      exact absurd hpending (by decide)
    · rintro ⟨key, ⟨hcmd, -⟩, -⟩
      exact absurd hcmd (by decide)
  exact (update_never_creates halong).2 [(0, .ok), (0, .ok)] (1, .ok) [(2, .ok)] [] 7 rfl (by decide)
    (by decide) (by decide) (by decide)

/-- The deletion between the lookup and the addition of the update: both are acknowledged, and the
addition makes the absent key present. -/
theorem update_resurrects :
    let q := (inFlight storeWithA updateAndDelete).run exec [(0, .ok), (1, .ok)]
    EndedWith 0 (q.thread 1) ∧ q.shared.get 7 = none ∧
      (q.step exec (0, .ok)).shared.get 7 ≠ none ∧
      EndedWith 0 ((q.step exec (0, .ok)).thread 0) := by
  decide

end KvIoctl
