/-
**A table scan amid other threads.**

`kv_hash_snapshot` locks one bucket after the other, and between two of its visits any number of
entries may be added, replaced or removed.  This module describes what such a scan returns.  The
description is in terms of the *instants* of its visits: what the scan has met after some events
(`KvHash.met`) is, bucket after bucket, the chain each bucket had when it was visited, and what is
returned is as much of it as there was room for.

Main definitions:

* `KvHash.met` — the entries a scan meets amid the others;
* `KvHash.VisitsAt` — the instants at which a call of `kv_hash_snapshot` visits a bucket;
* `KvHash.WeaklyConsistent`, `KvHash.BucketwiseCut` — two descriptions of what a call returns.

Main results:

* `KvHash.amid_copyLoop_met`, `KvHash.amid_kvHashSnapshot` — **the scan returns what it has met**;
* `KvHash.weaklyConsistent_kvHashSnapshot` — nothing is returned twice, nothing is invented, and
  nothing that stays is missed, as long as there is room;
* `KvHash.bucketwiseCut_kvHashSnapshot` — **each bucket is returned as it was at one instant**, and
  these instants follow the order of the buckets.  They need not be the same instant:
  `KvHash.not_cut_of_two_adds`.
-/

import KvStore.KvHashSteps

set_option relaxedAutoImplicit false
set_option autoImplicit false

namespace KvHash

open CMem Interleave KvIoctl

variable {H : HashFn} {β : Type}

/-! ### What a scan meets -/

/-- What a scan of the given buckets meets amid the others, if it is not stopped. -/
def met : List (Fin H.n) → Store H → List (Prog.Event (Op H) Alloc) → Chain
  | [], _, _ => []
  | _ :: _, _, [] => []
  | b :: bs, s, .own _ :: es => s.1.chain b ++ met bs s es
  | b :: bs, s, .env alloc op :: es => met (b :: bs) (exec alloc op s).2 es

theorem met_nil (bs : List (Fin H.n)) (s : Store H) : met bs s [] = [] := by
  cases bs <;> rfl

/-- The store after what the others have done. -/
def afterOthers (s : Store H) : List (Prog.Event (Op H) Alloc) → Store H
  | [] => s
  | .own _ :: es => afterOthers s es
  | .env alloc op :: es => afterOthers (exec alloc op s).2 es

/-- A program of visits leaves the store to the others. -/
theorem amidRun_snd {α : Type} {p : Kernel H α} (hp : p.Uses Op.Visits) (s : Store H)
    (es : List (Prog.Event (Op H) Alloc)) :
    (Prog.amidRun exec (p, s) es).2 = afterOthers s es := by
  induction es generalizing p s with
  | nil => rfl
  | cons e es ih =>
      cases e with
      | own alloc =>
          have hs : (p.step (exec alloc) s).2 = s := by
            refine Prog.step_frame (exec alloc) hp (fun t => t = s) ?_ rfl
            intro op hop t ht
            cases op with
            | visit b => exact ht
            | _ => exact hop.elim
          have hrec := ih (hp.step (exec alloc) s) (p.step (exec alloc) s).2
          rw [Prog.amidRun_cons]
          exact hrec.trans (by rw [hs]; rfl)
      | env alloc op => exact ih hp _

/-- An entry lies in a chain exactly when it is found under its key, and its bucket is that of the
chain. -/
theorem mem_chain_iff (s : Store H) (b : Fin H.n) (e : KvHashEntry) :
    e ∈ s.1.chain b ↔ H.kvBucket e.1 = b ∧ s.get e.1 = some e.2 := by
  constructor
  · intro he
    have hb := s.2.placed b e he
    refine ⟨hb, ?_⟩
    rw [← hb] at he
    exact (List.mem_dlookup_iff (s.2.nodupKeys _)).2 he
  · rintro ⟨rfl, hget⟩
    exact (List.mem_dlookup_iff (s.2.nodupKeys _)).1 hget

/-- An entry that is met was there when its bucket was visited. -/
theorem exists_visit_of_mem_met {bs : List (Fin H.n)} {s : Store H}
    {es : List (Prog.Event (Op H) Alloc)} {e : KvHashEntry} (h : e ∈ met bs s es) :
    ∃ es₁ alloc es₂, es = es₁ ++ .own alloc :: es₂ ∧
      bs[Prog.ownSteps es₁]? = some (H.kvBucket e.1) ∧ (afterOthers s es₁).get e.1 = some e.2 := by
  induction es generalizing bs s with
  | nil =>
      rw [met_nil] at h
      cases h
  | cons ev es ih =>
      cases bs with
      | nil => cases h
      | cons b bs =>
          cases ev with
          | own alloc =>
              rw [met, List.mem_append] at h
              rcases h with h | h
              · obtain ⟨hb, hget⟩ := (mem_chain_iff s b e).1 h
                exact ⟨[], alloc, es, rfl, congrArg some hb.symm, hget⟩
              · obtain ⟨es₁, alloc', es₂, rfl, hb, hget⟩ := ih h
                exact ⟨.own alloc :: es₁, alloc', es₂, rfl, hb, hget⟩
          | env alloc op =>
              obtain ⟨es₁, alloc', es₂, rfl, hb, hget⟩ := ih h
              exact ⟨.env alloc op :: es₁, alloc', es₂, rfl, hb, hget⟩

theorem kvBucket_mem_of_mem_met {bs : List (Fin H.n)} {s : Store H}
    {es : List (Prog.Event (Op H) Alloc)} {e : KvHashEntry} (h : e ∈ met bs s es) :
    H.kvBucket e.1 ∈ bs := by
  obtain ⟨es₁, alloc, es₂, -, hb, -⟩ := exists_visit_of_mem_met h
  exact List.mem_of_getElem? hb

/-- What is met in a bucket is what is there when it is visited. -/
theorem mem_met_iff {bs : List (Fin H.n)} (hbs : bs.Nodup) {s : Store H}
    {es₁ es₂ : List (Prog.Event (Op H) Alloc)} {alloc : Alloc} {e : KvHashEntry}
    (hb : bs[Prog.ownSteps es₁]? = some (H.kvBucket e.1)) :
    e ∈ met bs s (es₁ ++ .own alloc :: es₂) ↔ (afterOthers s es₁).get e.1 = some e.2 := by
  induction es₁ generalizing bs s with
  | nil =>
      cases bs with
      | nil => cases hb
      | cons b bs =>
          obtain rfl : b = H.kvBucket e.1 := Option.some.inj hb
          rw [List.nil_append, met, List.mem_append, mem_chain_iff]
          constructor
          · rintro (⟨-, hget⟩ | hlater)
            · exact hget
            · exact absurd (kvBucket_mem_of_mem_met hlater) (List.nodup_cons.1 hbs).1
          · intro hget
            exact .inl ⟨rfl, hget⟩
  | cons ev es₁ ih =>
      cases ev with
      | own alloc' =>
          cases bs with
          | nil => cases hb
          | cons b bs =>
              obtain ⟨hnotin, hnodup⟩ := List.nodup_cons.1 hbs
              have hb' : bs[Prog.ownSteps es₁]? = some (H.kvBucket e.1) := hb
              rw [List.cons_append, met, List.mem_append, mem_chain_iff, ih hnodup hb']
              constructor
              · rintro (⟨rfl, -⟩ | hget)
                · exact absurd (List.mem_of_getElem? hb') hnotin
                · exact hget
              · exact Or.inr
      | env alloc' op =>
          cases bs with
          | nil => cases hb
          | cons b bs => exact ih hbs hb

/-- No key is met twice. -/
theorem nodupKeys_met {bs : List (Fin H.n)} (hbs : bs.Nodup) (s : Store H)
    (es : List (Prog.Event (Op H) Alloc)) : (met bs s es).NodupKeys := by
  induction es generalizing bs s with
  | nil =>
      rw [met_nil]
      exact List.nodupKeys_nil
  | cons ev es ih =>
      cases bs with
      | nil => exact List.nodupKeys_nil
      | cons b bs =>
          cases ev with
          | own alloc =>
              obtain ⟨hnotin, hnodup⟩ := List.nodup_cons.1 hbs
              rw [met, List.NodupKeys, List.keys, List.map_append, List.nodup_append]
              refine ⟨s.2.nodupKeys b, ih hnodup s, ?_⟩
              -- a key met in two buckets would belong to both of them
              rintro _ hk key hk' rfl
              obtain ⟨e, he, rfl⟩ := List.mem_map.1 hk
              obtain ⟨e', he', heq⟩ := List.mem_map.1 hk'
              have hbucket := kvBucket_mem_of_mem_met he'
              rw [heq, s.2.placed b e he] at hbucket
              exact hnotin hbucket
          | env alloc op => exact ih hbs _

/-! ### The loop -/

/-- The copying amid the others, with what has been copied so far as the accumulator: up to some
event it visits the buckets in turn, and it leaves with what it has met, as far as there is room
for it.  If there is room to spare, all buckets have been visited. -/
theorem amid_copyLoop_met {slots : List KvMessage} {g : ℤ × ℕ × List KvMessage → Kernel H β}
    {res : β} (es : List (Prog.Event (Op H) Alloc)) (s : Store H) (bs : List (Fin H.n))
    (done : Chain) (hdone : done.length ≤ slots.length)
    (hend : (Prog.amidRun exec
      (copyLoop slots.length bs done.length (filled slots done) >>= g, s) es).1 = .ret res) :
    ∃ es₁ es₂ s₁, es = es₁ ++ es₂ ∧
      Prog.amidRun exec (copyLoop slots.length bs done.length (filled slots done) >>= g, s) es₁ =
        (g (0, ((done ++ met bs s es₁).take slots.length).length,
          filled slots ((done ++ met bs s es₁).take slots.length)), s₁) ∧
      (((done ++ met bs s es₁).take slots.length).length < slots.length →
        bs.length = Prog.ownSteps es₁) ∧
      ∀ es₀ e es', es₁ = es₀ ++ e :: es' →
        (Prog.amidRun exec
          (copyLoop slots.length bs done.length (filled slots done) >>= g, s) es₀).1.next? =
          bs[Prog.ownSteps es₀]?.map .visit := by
  induction es generalizing s bs done with
  | nil =>
      cases bs with
      | nil =>
          refine ⟨[], [], s, rfl, ?_, fun _ => rfl, by simp⟩
          simp only [met, List.append_nil, List.take_of_length_le hdone]
          rfl
      | cons b bs => cases hend
  | cons e es ih =>
      cases bs with
      | nil =>
          refine ⟨[], e :: es, s, rfl, ?_, fun _ => rfl, by simp⟩
          simp only [met, List.append_nil, List.take_of_length_le hdone]
          rfl
      | cons b bs =>
          cases e with
          | own alloc =>
              have hvisit : Prog.amid exec (copyLoop slots.length (b :: bs) done.length
                  (filled slots done) >>= g, s) (.own alloc) = _ :=
                Prog.step_bind (exec alloc) (p := copyLoop _ (b :: bs) _ _) rfl g s
              rw [step_copyLoop alloc s b bs hdone] at hvisit
              by_cases hfull : slots.length < done.length + (s.1.chain b).length
              · -- the chain does not fit: the scan stops here
                rw [if_pos hfull] at hvisit
                refine ⟨[.own alloc], es, s, rfl, ?_, fun hlt => ?_, ?_⟩
                · rw [met, met_nil, List.append_nil]
                  exact hvisit
                · rw [met, met_nil, List.append_nil, List.length_take, List.length_append] at hlt
                  omega
                · intro es₀ e es' heq
                  obtain rfl : es₀ = [] := by
                    cases es₀ with
                    | nil => rfl
                    | cons e₀ es₀ => simp at heq
                  rfl
              · have hfits : (done ++ s.1.chain b).length ≤ slots.length := by
                  rw [List.length_append]
                  omega
                rw [if_neg hfull] at hvisit
                rw [Prog.amidRun_cons, hvisit] at hend
                obtain ⟨es₁, es₂, s₁, rfl, hrun, hall, hnext⟩ :=
                  ih s bs (done ++ s.1.chain b) hfits hend
                refine ⟨.own alloc :: es₁, es₂, s₁, rfl, ?_, fun hlt => ?_, ?_⟩
                · rw [Prog.amidRun_cons, hvisit, hrun, met, List.append_assoc]
                · rw [met, ← List.append_assoc] at hlt
                  rw [List.length_cons, hall hlt, Prog.ownSteps_own]
                · intro es₀ e es' heq
                  cases es₀ with
                  | nil => rfl
                  | cons e₀ es₀ =>
                      rw [List.cons_append, List.cons.injEq] at heq
                      obtain ⟨rfl, heq⟩ := heq
                      rw [Prog.amidRun_cons, hvisit]
                      exact hnext es₀ e es' heq
          | env alloc op =>
              obtain ⟨es₁, es₂, s₁, rfl, hrun, hall, hnext⟩ :=
                ih (exec alloc op s).2 (b :: bs) done hdone hend
              refine ⟨.env alloc op :: es₁, es₂, s₁, rfl, hrun, hall, ?_⟩
              intro es₀ e es' heq
              cases es₀ with
              | nil => rfl
              | cons e₀ es₀ =>
                  rw [List.cons_append, List.cons.injEq] at heq
                  obtain ⟨rfl, heq⟩ := heq
                  exact hnext es₀ e es' heq

/-! ### The call -/

/-- A call of `kv_hash_snapshot` into the array `slots`, as large as it is told, after some events
of its own and of the others. -/
abbrev scanning (slots : List KvMessage) (s : Store H) (es : List (Prog.Event (Op H) Alloc)) :
    Kernel H (ℤ × ℕ × List KvMessage) × Store H :=
  Prog.amidRun exec (kvHashSnapshot slots slots.length, s) es

/-- After the events `es₁` of `es` the call visits bucket `b`. -/
def VisitsAt (slots : List KvMessage) (s : Store H) (es : List (Prog.Event (Op H) Alloc))
    (b : Fin H.n) (es₁ : List (Prog.Event (Op H) Alloc)) : Prop :=
  (∃ alloc es₂, es = es₁ ++ .own alloc :: es₂) ∧
    (scanning slots s es₁).1.next? = some (.visit b)

/-- The events that are left out of the account are those after the call has returned. -/
theorem amid_kvHashSnapshot {slots : List KvMessage} (hslots : slots.length ≠ 0) {s : Store H}
    {es : List (Prog.Event (Op H) Alloc)} {res : ℤ × ℕ × List KvMessage}
    (hend : (scanning slots s es).1 = .ret res) :
    ∃ es₁ es₂, es = es₁ ++ es₂ ∧
      res = (0, ((met (List.finRange H.n) s es₁).take slots.length).length,
        filled slots ((met (List.finRange H.n) s es₁).take slots.length)) ∧
      (((met (List.finRange H.n) s es₁).take slots.length).length < slots.length →
        H.n = Prog.ownSteps es₁) ∧
      ∀ es₀ e es', es₁ = es₀ ++ e :: es' →
        (scanning slots s es₀).1.next? =
          (List.finRange H.n)[Prog.ownSteps es₀]?.map .visit := by
  have hcall : kvHashSnapshot slots slots.length =
      (copyLoop slots.length (List.finRange H.n) ([] : Chain).length (filled slots []) >>=
        Prog.ret : Kernel H (ℤ × ℕ × List KvMessage)) := by
    rw [kvHashSnapshot, if_neg hslots, Prog.bind_ret]
    rfl
  rw [scanning, hcall] at hend
  obtain ⟨es₁, es₂, s₁, rfl, hrun, hall, hnext⟩ :=
    amid_copyLoop_met es s (List.finRange H.n) [] (Nat.zero_le _) hend
  rw [List.length_finRange] at hall
  rw [← hcall] at hnext
  refine ⟨es₁, es₂, rfl, ?_, hall, hnext⟩
  rw [Prog.amidRun_append, hrun] at hend
  exact (Prog.eq_of_amidRun_ret exec hend).symm

/-- An entry among those met was met at a visit of its bucket. -/
theorem exists_visitsAt_of_mem_met {slots : List KvMessage} {s : Store H}
    {es es₁ es₂ : List (Prog.Event (Op H) Alloc)} (hes : es = es₁ ++ es₂)
    (hnext : ∀ es₀ e es', es₁ = es₀ ++ e :: es' →
      (scanning slots s es₀).1.next? = (List.finRange H.n)[Prog.ownSteps es₀]?.map .visit)
    {e : KvHashEntry} (he : e ∈ met (List.finRange H.n) s es₁) :
    ∃ es₀, VisitsAt slots s es (H.kvBucket e.1) es₀ ∧
      (scanning slots s es₀).2.get e.1 = some e.2 := by
  obtain ⟨es₀, alloc, es', rfl, hb, hget⟩ := exists_visit_of_mem_met he
  refine ⟨es₀, ⟨⟨alloc, es' ++ es₂, ?_⟩, ?_⟩, ?_⟩
  · rw [hes, List.append_assoc, List.cons_append]
  · rw [hnext es₀ _ es' rfl, hb]
    rfl
  · rw [scanning, amidRun_snd (uses_kvHashSnapshot _ _)]
    exact hget

/-- When there is room to spare, every bucket has its visit, in the order of the buckets, and what
is met in a bucket is what is there at that instant. -/
theorem exists_visitsAt {slots : List KvMessage} {s : Store H}
    {es es₁ es₂ : List (Prog.Event (Op H) Alloc)} (hes : es = es₁ ++ es₂)
    (hall : H.n = Prog.ownSteps es₁)
    (hnext : ∀ es₀ e es', es₁ = es₀ ++ e :: es' →
      (scanning slots s es₀).1.next? = (List.finRange H.n)[Prog.ownSteps es₀]?.map .visit)
    (b : Fin H.n) :
    ∃ es₀, VisitsAt slots s es b es₀ ∧ Prog.ownSteps es₀ = b ∧
      ∀ e : KvHashEntry, H.kvBucket e.1 = b →
        (e ∈ met (List.finRange H.n) s es₁ ↔ (scanning slots s es₀).2.get e.1 = some e.2) := by
  have hb : b.1 < Prog.ownSteps es₁ := by
    have hlt := b.2
    omega
  obtain ⟨es₀, alloc, es', rfl, hown⟩ := Prog.exists_own hb
  have hfin : (List.finRange H.n)[Prog.ownSteps es₀]? = some b := by
    rw [hown, List.getElem?_eq_getElem (by simp)]
    simp
  refine ⟨es₀, ⟨⟨alloc, es' ++ es₂, ?_⟩, ?_⟩, hown, ?_⟩
  · rw [hes, List.append_assoc, List.cons_append]
  · rw [hnext es₀ _ es' rfl, hfin]
    rfl
  · rintro e rfl
    rw [scanning, amidRun_snd (uses_kvHashSnapshot _ _)]
    exact mem_met_iff (List.nodup_finRange _) hfin

/-- What a call of `kv_hash_snapshot` amid the others may return. -/
structure WeaklyConsistent (slots : List KvMessage) (s : Store H)
    (es : List (Prog.Event (Op H) Alloc)) (outCount : ℕ) (entries : List KvMessage) : Prop where
  /-- There is room for what is returned. -/
  count_le : outCount ≤ slots.length
  length_eq : entries.length = slots.length
  /-- No key is returned twice. -/
  nodup : ((entries.take outCount).map (·.key)).Nodup
  /-- What is returned was there when its bucket was visited. -/
  sound : ∀ m ∈ entries.take outCount, ∃ es₁ v, VisitsAt slots s es (H.kvBucket m.key) es₁ ∧
    (scanning slots s es₁).2.get m.key = some v ∧ m.value.1 = (v.1.take 63).rightpad 64 0
  /-- If there is room to spare, what keeps its value until the call returns is returned, cut to 63
  bytes. -/
  complete : outCount < slots.length → ∀ key v,
    (∀ es₁ es₂, es = es₁ ++ es₂ → (scanning slots s es₁).1.next? ≠ none →
      (scanning slots s es₁).2.get key = some v) →
    ∃ m ∈ entries.take outCount, m.key = key ∧ m.value.1 = (v.1.take 63).rightpad 64 0

/-- **The scan is weakly consistent.**  Let `kv_hash_snapshot` run amid arbitrary steps of others,
from any table and into an array of any size but zero.  It returns once it has taken as many steps
of its own as there are buckets, and what it returns is weakly consistent. -/
theorem weaklyConsistent_kvHashSnapshot {slots : List KvMessage} (hslots : slots.length ≠ 0)
    (s : Store H) (es : List (Prog.Event (Op H) Alloc)) :
    (H.n ≤ Prog.ownSteps es → ∃ res, (scanning slots s es).1 = .ret res) ∧
      ∀ ret outCount entries, (scanning slots s es).1 = .ret (ret, outCount, entries) →
        ret = 0 ∧ WeaklyConsistent slots s es outCount entries := by
  constructor
  · intro hown
    have hwithin := Prog.within_amidRun exec (within_kvHashSnapshot slots slots.length) s es
    rw [Nat.sub_eq_zero_of_le hown] at hwithin
    exact hwithin.eq_ret
  · intro ret outCount entries hend
    obtain ⟨es₁, es₂, hes, hres, hall, hnext⟩ := amid_kvHashSnapshot hslots hend
    obtain ⟨rfl, hres'⟩ := Prod.mk.inj hres
    obtain ⟨rfl, rfl⟩ := Prod.mk.inj hres'
    have hle : ((met (List.finRange H.n) s es₁).take slots.length).length ≤ slots.length :=
      List.length_take_le ..
    refine ⟨rfl, hle, length_filled hle, ?_, ?_, ?_⟩
    · rw [take_filled hle, map_key_zipWith hle]
      exact (nodupKeys_met (List.nodup_finRange H.n) s es₁).sublist (List.take_sublist ..)
    · intro m hm
      rw [take_filled hle] at hm
      obtain ⟨e, he, hkey, hvalue⟩ := exists_entry_of_mem_zipWith hle hm
      obtain ⟨es₀, hvisit, hget⟩ :=
        exists_visitsAt_of_mem_met hes hnext (List.mem_of_mem_take he)
      exact ⟨es₀, e.2, hkey ▸ hvisit, hkey ▸ hget, hvalue⟩
    · -- with room to spare, the bucket of the key has been visited
      intro hroom key v hstable
      obtain ⟨es₀, ⟨⟨alloc, es', hes'⟩, hvisit⟩, -, hmem⟩ :=
        exists_visitsAt hes (hall hroom) hnext (H.kvBucket key)
      have hget := hstable es₀ _ hes' (by rw [hvisit]; exact Option.some_ne_none _)
      have he : (⟨key, v⟩ : KvHashEntry) ∈ (met (List.finRange H.n) s es₁).take slots.length := by
        rw [List.length_take] at hroom
        rw [List.take_of_length_le (by omega)]
        exact (hmem ⟨key, v⟩ rfl).2 hget
      rw [take_filled hle]
      exact exists_slot_of_mem hle he

/-- An array of two cleared slots. -/
def twoSlots : List KvMessage := [KvMessage.zero, KvMessage.zero]

/-- Between the two visits keys 0 and 7 are added, in this order.  Key 0 belongs to the bucket that
has been visited, key 7 to the one that has not. -/
def twoAdds : List (Prog.Event (Op twoBuckets) Alloc) :=
  [.own .ok, .env .ok (.add 0 (ascii "a" ++ [0])), .env .ok (.add 7 (ascii "b" ++ [0])), .own .ok]

/-- What the call returns amid `twoAdds`. -/
theorem scanning_twoAdds : (scanning twoSlots (Store.init twoBuckets) twoAdds).1 =
    .ret (0, 1, [copyEntry ⟨7, cstr (ascii "b")⟩ KvMessage.zero, KvMessage.zero]) := by
  refine Prog.eq_ret_of_result? ?_
  decide +kernel

theorem weaklyConsistent_twoAdds :
    WeaklyConsistent twoSlots (Store.init twoBuckets) twoAdds 1
      [copyEntry ⟨7, cstr (ascii "b")⟩ KvMessage.zero, KvMessage.zero] :=
  ((weaklyConsistent_kvHashSnapshot (by decide) _ _).2 _ _ _ scanning_twoAdds).2

/-- A value of 64 bytes is there all the time, and there is room to spare, but what is returned is
not that value. -/
theorem scan_cuts_value :
    let v := cstr (List.replicate 64 97)
    let s := ((Store.init twoBuckets).add 7 (List.replicate 64 97) .ok).2
    let es := [.own .ok, .own .ok]
    ∃ entries, (scanning twoSlots s es).1 = .ret (0, 1, entries) ∧
      (∀ i, (scanning twoSlots s (es.take i)).2.get 7 = some v) ∧
      ∀ m ∈ entries.take 1, m.key = 7 → cstr m.value.1 ≠ v := by
  intro v s es
  have hres : (scanning twoSlots s es).1.result? =
      some (0, 1, [copyEntry ⟨7, v⟩ KvMessage.zero, KvMessage.zero]) := by decide +kernel
  refine ⟨_, Prog.eq_ret_of_result? hres, ?_, by decide +kernel⟩
  intro i
  rw [scanning, amidRun_snd (uses_kvHashSnapshot _ _)]
  match i with
  | 0 => decide +kernel
  | 1 => decide +kernel
  | n + 2 =>
      rw [show es.take (n + 2) = es from List.take_of_length_le (Nat.le_add_left 2 n)]
      decide +kernel

/-! ### The instants of a scan -/

/-- What a call returns, bucket by bucket. -/
structure BucketwiseCut (slots : List KvMessage) (s : Store H)
    (es : List (Prog.Event (Op H) Alloc)) (ms : List KvMessage) : Prop where
  /-- The call visits each bucket at one instant, these instants follow the order of the buckets,
  and what it returns of a bucket is what the table holds there at that instant, with the values
  cut to 63 bytes. -/
  instants : ∃ visit : Fin H.n → List (Prog.Event (Op H) Alloc),
    (∀ b b', b ≤ b' → visit b <+: visit b') ∧
    ∀ b, VisitsAt slots s es b (visit b) ∧ ∀ key, H.kvBucket key = b → ∀ w,
      (⟨key, w⟩ : KvHashEntry) ∈ ms.map entryOf ↔
        ((scanning slots s (visit b)).2.get key).map (·.truncate 63) = some w
  /-- If `a` is there whenever `b` is or has been, and its bucket does not come before that of `b`,
  then `b` is not returned without `a`. -/
  causal : ∀ a b, H.kvBucket b ≤ H.kvBucket a →
    (∀ es₁ es₂, es₁ <+: es₂ → es₂ <+: es → (scanning slots s es₁).2.get b ≠ none →
      (scanning slots s es₂).2.get a ≠ none) →
    b ∈ ms.map (·.key) → a ∈ ms.map (·.key)

/-- The instants at which the buckets are visited. -/
theorem exists_instants {slots : List KvMessage} (hslots : slots.length ≠ 0) {s : Store H}
    {es : List (Prog.Event (Op H) Alloc)} {ret : ℤ} {outCount : ℕ}
    {entries : List KvMessage} (hend : (scanning slots s es).1 = .ret (ret, outCount, entries))
    (hroom : outCount < slots.length) :
    ∃ visit : Fin H.n → List (Prog.Event (Op H) Alloc),
      (∀ b b', b ≤ b' → visit b <+: visit b') ∧
      ∀ b, VisitsAt slots s es b (visit b) ∧ ∀ key, H.kvBucket key = b → ∀ w,
        (⟨key, w⟩ : KvHashEntry) ∈ (entries.take outCount).map entryOf ↔
          ((scanning slots s (visit b)).2.get key).map (·.truncate 63) = some w := by
  obtain ⟨es₁, es₂, hes, hres, hall, hnext⟩ := amid_kvHashSnapshot hslots hend
  obtain ⟨-, hres'⟩ := Prod.mk.inj hres
  obtain ⟨rfl, rfl⟩ := Prod.mk.inj hres'
  have hle : ((met (List.finRange H.n) s es₁).take slots.length).length ≤ slots.length :=
    List.length_take_le ..
  choose visit hvisit hown hmem using exists_visitsAt hes (hall hroom) hnext
  refine ⟨visit, ?_, ?_⟩
  · intro b b' hbb
    obtain ⟨⟨alloc, rest, heq⟩, -⟩ := hvisit b
    obtain ⟨⟨alloc', rest', heq'⟩, -⟩ := hvisit b'
    have hpre : visit b <+: es := ⟨_, heq.symm⟩
    have hpre' : visit b' <+: es := ⟨_, heq'.symm⟩
    rcases List.prefix_or_prefix_of_prefix hpre hpre' with h | ⟨mid, hmid⟩
    · exact h
    · -- the other way round, both visits come after as many steps of the call
      have hsteps := congrArg Prog.ownSteps hmid
      rw [Prog.ownSteps_append, hown, hown] at hsteps
      obtain rfl : b = b' := le_antisymm hbb (by rw [Fin.le_def]; omega)
      exact List.prefix_rfl
  · intro b
    refine ⟨hvisit b, ?_⟩
    intro key hkey w
    rw [take_filled hle, map_entryOf_zipWith hle, List.mem_map, Option.map_eq_some_iff]
    rw [List.length_take] at hroom
    rw [List.take_of_length_le (by omega)]
    constructor
    · rintro ⟨e, he, heq⟩
      obtain ⟨rfl, hw⟩ := Sigma.mk.inj heq
      exact ⟨e.2, (hmem b e hkey).1 he, eq_of_heq hw⟩
    · rintro ⟨v, hv, rfl⟩
      exact ⟨⟨key, v⟩, (hmem b ⟨key, v⟩ hkey).2 hv, rfl⟩

/-- **Each bucket is returned as it was at one instant.**  Let `kv_hash_snapshot` run amid arbitrary
steps of others, from any table, and let it return with room to spare. -/
theorem bucketwiseCut_kvHashSnapshot {slots : List KvMessage} (hslots : slots.length ≠ 0)
    (s : Store H) (es : List (Prog.Event (Op H) Alloc)) {ret : ℤ} {outCount : ℕ}
    {entries : List KvMessage} (hend : (scanning slots s es).1 = .ret (ret, outCount, entries))
    (hroom : outCount < slots.length) :
    BucketwiseCut slots s es (entries.take outCount) := by
  have hinst := exists_instants hslots hend hroom
  refine ⟨hinst, ?_⟩
  obtain ⟨visit, hmono, hvisit⟩ := hinst
  intro a b hab hcausal hb
  obtain ⟨m, hm, rfl⟩ := List.mem_map.1 hb
  have hmem := mem_map_entryOf_iff.2 ⟨m, hm, rfl, rfl⟩
  rw [(hvisit (H.kvBucket m.key)).2 m.key rfl] at hmem
  obtain ⟨⟨⟨alloc, es', hes⟩, -⟩, hthere⟩ := hvisit (H.kvBucket a)
  -- `b` is there at the visit of its bucket, so `a` is there at the later visit of its own
  have hget : (scanning slots s (visit (H.kvBucket m.key))).2.get m.key ≠ none := by
    intro hnone
    rw [hnone] at hmem
    cases hmem
  have hpre : visit (H.kvBucket a) <+: es := ⟨_, hes.symm⟩
  obtain ⟨v, hv⟩ := Option.ne_none_iff_exists'.1 (hcausal _ _ (hmono _ _ hab) hpre hget)
  have hreturned := (hthere a rfl (v.truncate 63)).2 (by rw [hv]; rfl)
  obtain ⟨m', hm', hkey, -⟩ := mem_map_entryOf_iff.1 hreturned
  exact List.mem_map.2 ⟨m', hm', hkey⟩

theorem bucketwiseCut_twoAdds :
    BucketwiseCut twoSlots (Store.init twoBuckets) twoAdds
      [copyEntry ⟨7, cstr (ascii "b")⟩ KvMessage.zero] :=
  bucketwiseCut_kvHashSnapshot (by decide) _ _ scanning_twoAdds (by decide)

/-- At no instant of the call does the table hold what is returned: key 7 is returned and key 0 is
not, but key 0 was added before key 7 and nothing was removed. -/
theorem not_cut_of_two_adds :
    ∃ entries, (scanning twoSlots (Store.init twoBuckets) twoAdds).1 = .ret (0, 1, entries) ∧
      (entries.take 1).map (·.key) = [7] ∧
      ∀ i, ¬ ∀ key v,
        (scanning twoSlots (Store.init twoBuckets) (twoAdds.take i)).2.get key = some v ↔
          (⟨key, v⟩ : KvHashEntry) ∈ (entries.take 1).map entryOf := by
  refine ⟨_, scanning_twoAdds, rfl, ?_⟩
  intro i hcut
  rw [scanning, amidRun_snd (uses_kvHashSnapshot _ _)] at hcut
  have h7 := (hcut 7 (cstr (ascii "b"))).2 (by decide +kernel)
  have h0 := mt (hcut 0 (cstr (ascii "a"))).1 (by decide +kernel)
  match i with
  | 0 => exact absurd h7 (by decide +kernel)
  | 1 => exact absurd h7 (by decide +kernel)
  | 2 => exact absurd h7 (by decide +kernel)
  | 3 => exact h0 (by decide +kernel)
  | n + 4 =>
      have htake : twoAdds.take (n + 4) = twoAdds := List.take_of_length_le (Nat.le_add_left 4 n)
      rw [htake] at h0
      exact h0 (by decide +kernel)

end KvHash
