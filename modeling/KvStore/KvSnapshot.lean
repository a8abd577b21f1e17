/-
**A snapshot amid other clients.**

`_handle_kv_snapshot` counts the entries bucket by bucket, allocates room for as many, and then
copies them bucket by bucket.  Each visit of a bucket is atomic, but others add and remove entries
between the visits.  When the copying meets more entries than were counted it stops ("This should
not happen"), drops what is left, and reports success.

Whether that happens is a matter of bookkeeping.  After `t` visits the buckets fall into three
parts: those *ahead* of the counting, the *window* of those that were counted and are yet to be
copied, and those that were copied.  What the others add to a bucket ahead is counted; what they add
to a bucket in the window is not, and takes room meant for something else.

Main definitions:

* `KvIoctl.ahead`, `KvIoctl.window` — the two parts, after a number of visits;
* `KvIoctl.netGrowth` — by how much the others make a part grow during the call.

Main results:

* `KvIoctl.amid_countLoop`, `KvIoctl.amid_copyLoop` — the two scans amid arbitrary steps of others;
* `KvIoctl.snapshot_complete` — **a snapshot that reports success is complete**, as long as the
  window does not grow: every key that keeps its value during the call is in the image.
-/

import KvStore.KvIoctl

set_option relaxedAutoImplicit false
set_option autoImplicit false

namespace KvIoctl

open CMem Interleave KvHash

variable {H : HashFn} {β : Type}

/-! ### Growth -/

/-- The number of entries in a list of buckets. -/
def load (s : Store H) (bs : List (Fin H.n)) : ℤ := (bs.map fun b => ((s.1.chain b).length : ℤ)).sum

/-- The buckets that the counting has not reached after `t` visits. -/
def ahead (H : HashFn) (t : ℕ) : List (Fin H.n) := (List.finRange H.n).drop t

/-- The buckets that have been counted and not copied after `t` visits. -/
def window (H : HashFn) (t : ℕ) : List (Fin H.n) := ((List.finRange H.n).take t).drop (t - H.n)

/-- By how much the others make a part of the table grow during the call, the part depending on the
number `t` of visits made so far. -/
def netGrowth (part : ℕ → List (Fin H.n)) : ℕ → Store H → List (Prog.Event (Op H) Alloc) → ℤ
  | _, _, [] => 0
  | t, s, .own _ :: es => netGrowth part (t + 1) s es
  | t, s, .env alloc op :: es =>
      load (exec alloc op s).2 (part t) - load s (part t) +
        netGrowth part t (exec alloc op s).2 es

@[simp] theorem load_nil (s : Store H) : load s [] = 0 := rfl

@[simp] theorem load_cons (s : Store H) (b : Fin H.n) (bs : List (Fin H.n)) :
    load s (b :: bs) = (s.1.chain b).length + load s bs := rfl

theorem load_concat (s : Store H) (bs : List (Fin H.n)) (b : Fin H.n) :
    load s (bs ++ [b]) = load s bs + (s.1.chain b).length := by
  simp [load]

theorem load_nonneg (s : Store H) (bs : List (Fin H.n)) : 0 ≤ load s bs := by
  induction bs with
  | nil => exact le_refl 0
  | cons b bs ih =>
      rw [load_cons]
      omega

/-- All buckets together hold all entries. -/
theorem load_finRange (s : Store H) : load s (List.finRange H.n) = s.1.entries.length := by
  rw [HashTable.entries, load]
  induction List.finRange H.n with
  | nil => rfl
  | cons b bs ih => simp [ih]

/-- While the counting goes on, the window is what has been counted. -/
theorem window_of_le {t : ℕ} (h : t ≤ H.n) : window H t = (List.finRange H.n).take t := by
  rw [window, Nat.sub_eq_zero_of_le h, List.drop_zero]

/-- While the copying goes on, the window is what is yet to be copied. -/
theorem window_add (j : ℕ) : window H (H.n + j) = ahead H j := by
  rw [window, Nat.add_sub_cancel_left, List.take_of_length_le (by simp), ahead]

/-- In between, the window is the whole table. -/
theorem window_full : window H H.n = ahead H 0 := window_add 0

theorem ahead_cons {t : ℕ} (h : t < H.n) :
    ∃ b, ahead H t = b :: ahead H (t + 1) ∧ window H (t + 1) = window H t ++ [b] := by
  have hlen : t < (List.finRange H.n).length := by rwa [List.length_finRange]
  refine ⟨(List.finRange H.n).get ⟨t, hlen⟩, List.drop_eq_getElem_cons hlen, ?_⟩
  rw [window_of_le h, window_of_le h.le]
  exact (List.take_append_getElem hlen).symm

theorem ahead_of_le {t : ℕ} (h : H.n ≤ t) : ahead H t = [] :=
  List.drop_of_length_le (by rwa [List.length_finRange])

/-- Nothing grows ahead of a counting that is over. -/
theorem netGrowth_ahead_of_le {t : ℕ} (h : H.n ≤ t) (s : Store H)
    (es : List (Prog.Event (Op H) Alloc)) : netGrowth (ahead H) t s es = 0 := by
  induction es generalizing t s with
  | nil => rfl
  | cons e es ih =>
      cases e with
      | own alloc => exact ih (Nat.le_succ_of_le h) s
      | env alloc op =>
          rw [netGrowth, ahead_of_le h, load_nil, load_nil, ih h]
          rfl

/-- What is yet to be copied, with its growth, is what the copying will have met. -/
theorem load_add_netGrowth_nonneg (j : ℕ) (s : Store H) (es : List (Prog.Event (Op H) Alloc)) :
    0 ≤ load s (ahead H j) + netGrowth (window H) (H.n + j) s es := by
  induction es generalizing j s with
  | nil =>
      rw [netGrowth, add_zero]
      exact load_nonneg s _
  | cons e es ih =>
      cases e with
      | own alloc =>
          have hrec := ih (j + 1) s
          have hdrop : load s (ahead H (j + 1)) ≤ load s (ahead H j) := by
            rcases lt_or_ge j H.n with hj | hj
            · obtain ⟨b, hb, -⟩ := ahead_cons hj
              rw [hb, load_cons]
              omega
            · rw [ahead_of_le hj, ahead_of_le (Nat.le_succ_of_le hj)]
          rw [netGrowth, Nat.add_assoc]
          omega
      | env alloc op =>
          have hrec := ih j (exec alloc op s).2
          rw [netGrowth, window_add]
          omega

/-! ### The two scans -/

/-- An entry that is found lies in the chain of its bucket. -/
theorem mem_chain_of_get {s : Store H} {key : HashKey} {v : CStr} (h : s.get key = some v) :
    (⟨key, v⟩ : KvHashEntry) ∈ s.1.chain (H.kvBucket key) :=
  List.of_mem_dlookup h

/-- The copying amid the others.  As long as there is room for what has been copied, what is yet to
be copied, and its growth, an entry that has been copied or is yet to be visited, and keeps its
value, is copied in the end. -/
theorem amid_copyLoop {slots : List KvMessage} {g : ℤ × ℕ × List KvMessage → Kernel H β} {res : β}
    {key : HashKey} {v : CStr} (es : List (Prog.Event (Op H) Alloc)) (s : Store H) (j : ℕ)
    (done : Chain) (hdone : done.length ≤ slots.length)
    (hend : (Prog.amidRun exec
      (copyLoop slots.length (ahead H j) done.length (filled slots done) >>= g, s) es).1 = .ret res)
    (hroom : done.length + load s (ahead H j) + netGrowth (window H) (H.n + j) s es ≤ slots.length)
    (hstable : Machine.Along (Prog.amid exec) (fun c _ => c.2.get key = some v)
      (copyLoop slots.length (ahead H j) done.length (filled slots done) >>= g, s) es)
    (hkey : H.kvBucket key ∈ ahead H j ∨ (⟨key, v⟩ : KvHashEntry) ∈ done) :
    ∃ done' s' es', done'.length ≤ slots.length ∧ (⟨key, v⟩ : KvHashEntry) ∈ done' ∧
      (Prog.amidRun exec (g (0, done'.length, filled slots done'), s') es').1 = .ret res := by
  induction es generalizing s j done with
  | nil =>
      cases hbs : ahead H j with
      | nil =>
          rw [hbs] at hend hkey
          exact ⟨done, s, [], hdone, hkey.resolve_left (List.not_mem_nil), hend⟩
      | cons b bs =>
          rw [hbs] at hend
          cases hend
  | cons e es ih =>
      rcases lt_or_ge j H.n with hj | hj
      · obtain ⟨b, hb, -⟩ := ahead_cons hj
        cases e with
        | own alloc =>
            -- the visit of `b`: its chain fits, since what comes after takes no negative room
            have hrest := load_add_netGrowth_nonneg (j + 1) s es
            have hroom' : (done.length : ℤ) + (s.1.chain b).length + load s (ahead H (j + 1)) +
                netGrowth (window H) (H.n + (j + 1)) s es ≤ slots.length := by
              rw [hb, load_cons, netGrowth, Nat.add_assoc] at hroom
              omega
            have hfits : (done ++ s.1.chain b).length ≤ slots.length := by
              rw [List.length_append]
              omega
            have hstep : Prog.amid exec
                (copyLoop slots.length (ahead H j) done.length (filled slots done) >>= g, s)
                (.own alloc) =
                (copyLoop slots.length (ahead H (j + 1)) (done ++ s.1.chain b).length
                  (filled slots (done ++ s.1.chain b)) >>= g, s) := by
              have hfull : ¬ slots.length < done.length + (s.1.chain b).length := by
                rw [List.length_append] at hfits
                omega
              rw [hb, Prog.amid, Prog.step_bind _ rfl, step_copyLoop alloc s b _ hdone, if_neg hfull]
            rw [Prog.amidRun_cons, hstep] at hend
            have hget : s.get key = some v := hstable.1
            have hstable' := hstable.2
            rw [hstep] at hstable'
            refine ih s (j + 1) _ hfits hend ?_ hstable' ?_
            · rw [List.length_append]
              push_cast
              omega
            · rw [hb, List.mem_cons] at hkey
              rcases hkey with (hbucket | hlater) | hmem
              · right
                have hmem := mem_chain_of_get hget
                rw [hbucket] at hmem
                exact List.mem_append_right _ hmem
              · exact .inl hlater
              · exact .inr (List.mem_append_left _ hmem)
        | env alloc op =>
            refine ih (exec alloc op s).2 j done hdone hend ?_ hstable.2 hkey
            rw [netGrowth, window_add] at hroom
            omega
      · rw [ahead_of_le hj] at hend hkey
        exact ⟨done, s, e :: es, hdone, hkey.resolve_left (List.not_mem_nil), hend⟩

/-- The counting is over: what has been counted is the count. -/
theorem amid_countLoop_done {g : Int32 → Kernel H β} {res : β} {key : HashKey} {v : CStr}
    (es : List (Prog.Event (Op H) Alloc)) (s : Store H) (m : ℕ)
    (hend : (Prog.amidRun exec (countLoop (ahead H H.n) (Int32.ofNat m) >>= g, s) es).1 = .ret res)
    (hfits : m + load s (ahead H H.n) + netGrowth (ahead H) H.n s es < 2 ^ 32)
    (hroom : load s (window H H.n) + netGrowth (window H) H.n s es ≤ m)
    (hstable : Machine.Along (Prog.amid exec) (fun c _ => c.2.get key = some v)
      (countLoop (ahead H H.n) (Int32.ofNat m) >>= g, s) es) :
    ∃ n s' es', n < 2 ^ 32 ∧ (Prog.amidRun exec (g (Int32.ofNat n), s') es').1 = .ret res ∧
      load s' (ahead H 0) + netGrowth (window H) H.n s' es' ≤ n ∧
      Machine.Along (Prog.amid exec) (fun c _ => c.2.get key = some v) (g (Int32.ofNat n), s') es' := by
  rw [netGrowth_ahead_of_le le_rfl, ahead_of_le le_rfl, load_nil] at hfits
  rw [ahead_of_le le_rfl] at hend hstable
  rw [window_full] at hroom
  exact ⟨m, s, es, by omega, hend, hroom, hstable⟩

/-- The counting amid the others.  The count is below `2 ^ 32` when what has been counted, what is
ahead and its growth are, and it leaves room for the window and its growth when it did so before. -/
theorem amid_countLoop {g : Int32 → Kernel H β} {res : β} {key : HashKey} {v : CStr}
    (es : List (Prog.Event (Op H) Alloc)) (s : Store H) (t m : ℕ) (ht : t ≤ H.n)
    (hend : (Prog.amidRun exec (countLoop (ahead H t) (Int32.ofNat m) >>= g, s) es).1 = .ret res)
    (hfits : m + load s (ahead H t) + netGrowth (ahead H) t s es < 2 ^ 32)
    (hroom : load s (window H t) + netGrowth (window H) t s es ≤ m)
    (hstable : Machine.Along (Prog.amid exec) (fun c _ => c.2.get key = some v)
      (countLoop (ahead H t) (Int32.ofNat m) >>= g, s) es) :
    ∃ n s' es', n < 2 ^ 32 ∧ (Prog.amidRun exec (g (Int32.ofNat n), s') es').1 = .ret res ∧
      load s' (ahead H 0) + netGrowth (window H) H.n s' es' ≤ n ∧
      Machine.Along (Prog.amid exec) (fun c _ => c.2.get key = some v) (g (Int32.ofNat n), s') es' := by
  induction es generalizing s t m with
  | nil =>
      rcases ht.lt_or_eq with hlt | rfl
      · obtain ⟨b, hb, -⟩ := ahead_cons hlt
        rw [hb] at hend
        cases hend
      · exact amid_countLoop_done [] s m hend hfits hroom hstable
  | cons e es ih =>
      rcases ht.lt_or_eq with hlt | rfl
      · obtain ⟨b, hb, hwin⟩ := ahead_cons hlt
        cases e with
        | own alloc =>
            have hstep : Prog.amid exec (countLoop (ahead H t) (Int32.ofNat m) >>= g, s) (.own alloc) =
                (countLoop (ahead H (t + 1)) (Int32.ofNat (m + (s.1.chain b).length)) >>= g, s) := by
              rw [hb, ← countChain_ofNat]
              rfl
            have hstable' := hstable.2
            rw [Prog.amidRun_cons, hstep] at hend
            rw [hstep] at hstable'
            refine ih s (t + 1) _ hlt hend ?_ ?_ hstable'
            · rw [hb, load_cons, netGrowth] at hfits
              push_cast
              omega
            · rw [netGrowth] at hroom
              rw [hwin, load_concat]
              push_cast
              omega
        | env alloc op =>
            refine ih (exec alloc op s).2 t m ht hend ?_ ?_ hstable.2
            · rw [netGrowth] at hfits
              omega
            · rw [netGrowth] at hroom
              omega
      · exact amid_countLoop_done (e :: es) s m hend hfits hroom hstable

/-! ### The whole call -/

/-- An entry that was copied is in the image, with its value if that fits into a message. -/
theorem exists_mem_zipWith {slots : List KvMessage} {done : Chain} {key : HashKey} {v : CStr}
    (hdone : done.length ≤ slots.length) (hmem : (⟨key, v⟩ : KvHashEntry) ∈ done)
    (hlen : v.1.length < MAX_VALUE_LEN) :
    ∃ e ∈ List.zipWith copyEntry done slots, e.key = key ∧ cstr e.value.1 = v := by
  have hsaid : (⟨key, v.truncate 63⟩ : KvHashEntry) ∈
      (List.zipWith copyEntry done slots).map entryOf := by
    rw [map_entryOf_zipWith hdone]
    exact List.mem_map_of_mem hmem
  rw [CStr.truncate_of_le (Nat.le_of_lt_succ hlen)] at hsaid
  exact mem_map_entryOf_iff.1 hsaid

/-- The call from the count on. -/
theorem snapshotCounted_complete {env : KernelEnv} {arg image : KvSnapshotMessage} {s : Store H}
    {es : List (Prog.Event (Op H) Alloc)} {n : ℕ} (hn : n < 2 ^ 32)
    (hend : (Prog.amidRun exec (snapshotCounted env arg (Int32.ofNat n), s) es).1 =
      .ret (0, some image))
    (hroom : load s (ahead H 0) + netGrowth (window H) H.n s es ≤ n) {key : HashKey} {v : CStr}
    (hstable : Machine.Along (Prog.amid exec) (fun c _ => c.2.get key = some v)
      (snapshotCounted env arg (Int32.ofNat n), s) es)
    (hlen : v.1.length < MAX_VALUE_LEN) :
    image.status = SUCCESS ∧ ∃ e ∈ image.entries, e.key = key ∧ cstr e.value.1 = v := by
  have hnone : ∀ {ret : ℤ} {t : Store H} {es' : List (Prog.Event (Op H) Alloc)},
      (Prog.amidRun exec ((.ret (ret, none) : Kernel H (ℤ × Option KvSnapshotMessage)), t) es').1 ≠
        .ret (0, some image) := by
    intro ret t es' h
    exact Option.some_ne_none image (congrArg Prod.snd (Prog.eq_of_amidRun_ret exec h)).symm
  rw [snapshotCounted_eq env arg hn] at hend hstable
  split at hend
  · exact absurd hend hnone
  rename_i hcap
  rw [if_neg hcap] at hstable
  split at hend
  · exact absurd hend hnone
  rename_i hmem
  rw [if_neg hmem, kvHashSnapshot] at hstable
  rw [kvHashSnapshot] at hend
  split at hend
  · exact absurd hend hnone
  rename_i hzero
  rw [if_neg hzero] at hstable
  -- the copying, into as many slots as were counted
  have hslots : ((List.range n).map env.heapSlot).length = n := by simp
  generalize (List.range n).map env.heapSlot = slots at hend hstable hslots
  subst hslots
  obtain ⟨done, s₁, es₁, hdone, hmem, hend₁⟩ := amid_copyLoop es s 0 [] (Nat.zero_le _) hend
    (by simpa using hroom) hstable (.inl (List.mem_finRange _))
  have hcount : (UInt32.ofNat done.length).toNat = done.length :=
    UInt32.toNat_ofNat_of_lt' (lt_of_le_of_lt hdone hn)
  cases hout : env.copyToUser with
  | false =>
      rw [snapshotCopied, hout] at hend₁
      exact absurd hend₁ hnone
  | true =>
      rw [snapshotCopied, hout] at hend₁
      have himage := Option.some.inj (congrArg Prod.snd (Prog.eq_of_amidRun_ret exec hend₁))
      subst himage
      refine ⟨rfl, ?_⟩
      dsimp only
      rw [hcount, take_filled hdone]
      exact exists_mem_zipWith hdone hmem hlen

/-- **A snapshot that reports success is complete.**  Let `_handle_kv_snapshot` run amid arbitrary
steps of others, and let it copy an image to the user and return 0.  If fewer than `2 ^ 32` entries
are there to be counted and the others do not make the window grow, then every key that is present
with the same value during the whole call is in the image with that value, provided that the value
fits into a message. -/
theorem snapshot_complete {env : KernelEnv} {arg image : KvSnapshotMessage} {s : Store H}
    {es : List (Prog.Event (Op H) Alloc)}
    (hend : (Prog.amidRun exec (handleKvSnapshot env arg, s) es).1 = .ret (0, some image))
    (hcount : s.1.entries.length + netGrowth (ahead H) 0 s es < 2 ^ 32)
    (hgrowth : netGrowth (window H) 0 s es ≤ 0) {key : HashKey} {v : CStr}
    (hstable : Machine.Along (Prog.amid exec) (fun c _ => c.2.get key = some v)
      (handleKvSnapshot env arg, s) es)
    (hlen : v.1.length < MAX_VALUE_LEN) :
    image.status = SUCCESS ∧ ∃ e ∈ image.entries, e.key = key ∧ cstr e.value.1 = v := by
  cases hin : env.copyFromUser with
  | false =>
      rw [handleKvSnapshot, hin] at hend
      cases Prog.eq_of_amidRun_ret exec hend
  | true =>
      have heq : (handleKvSnapshot env arg : Kernel H (ℤ × Option KvSnapshotMessage)) =
          countLoop (ahead H 0) (Int32.ofNat 0) >>= snapshotCounted env arg := by
        rw [handleKvSnapshot, hin]
        rfl
      rw [heq] at hend hstable
      -- the counting
      obtain ⟨n, s₁, es₁, hn, hend₁, hroom, hstable₁⟩ := amid_countLoop es s 0 0 (Nat.zero_le _)
        hend (by rw [← load_finRange] at hcount; simpa [ahead] using hcount)
        (by simpa [window] using hgrowth) hstable
      exact snapshotCounted_complete hn hend₁ hroom hstable₁ hlen

/-! ### Others between the two scans -/

/-- The whole counting, the given steps of others, and the whole copying. -/
def betweenScans (H : HashFn) (ops : List (Op H)) : List (Prog.Event (Op H) Alloc) :=
  List.replicate H.n (.own .ok) ++ (ops.map (.env .ok) ++ List.replicate H.n (.own .ok))

/-- The counting, undisturbed. -/
theorem amidRun_countLoop {g : Int32 → Kernel H β} (s : Store H) (bs : List (Fin H.n)) (m : ℕ) :
    Prog.amidRun exec (countLoop bs (Int32.ofNat m) >>= g, s)
        (List.replicate bs.length (.own Alloc.ok)) =
      (g (Int32.ofNat (m + (bs.flatMap s.1.chain).length)), s) := by
  induction bs generalizing m with
  | nil => rfl
  | cons b bs ih =>
      have hstep : Prog.amid exec (countLoop (b :: bs) (Int32.ofNat m) >>= g, s) (.own Alloc.ok) =
          (countLoop bs (Int32.ofNat (m + (s.1.chain b).length)) >>= g, s) := by
        rw [← countChain_ofNat]
        rfl
      rw [List.length_cons, List.replicate_succ, Prog.amidRun_cons, hstep, ih, List.flatMap_cons,
        List.length_append, Nat.add_assoc]

/-- With steps of others between the scans only, the image shows the table after these steps, in
slots for the table before them. -/
theorem amidRun_betweenScans {env : KernelEnv} (hin : env.copyFromUser = true)
    (arg : KvSnapshotMessage) (s : Store H) (ops : List (Op H))
    (hn : s.1.entries.length < 2 ^ 32) :
    (Prog.amidRun exec (handleKvSnapshot env arg, s) (betweenScans H ops)).1 =
      .ret ((snapshotCounted env arg (Int32.ofNat s.1.entries.length)).run (exec Alloc.ok)
        (ops.foldl (fun t op => (exec Alloc.ok op t).2) s)).1 := by
  have hothers : ∀ (p : Kernel H (ℤ × Option KvSnapshotMessage)) (s : Store H),
      Prog.amidRun exec (p, s) (ops.map (.env Alloc.ok)) =
        (p, ops.foldl (fun t op => (exec Alloc.ok op t).2) s) := by
    intro p
    induction ops with
    | nil => exact fun s => rfl
    | cons op ops ih => exact fun s => ih (exec Alloc.ok op s).2
  have hcount := amidRun_countLoop (g := snapshotCounted env arg) s (List.finRange H.n) 0
  rw [List.length_finRange, Nat.zero_add, ← HashTable.entries] at hcount
  have heq : (handleKvSnapshot env arg : Kernel H (ℤ × Option KvSnapshotMessage)) =
      countLoop (List.finRange H.n) (Int32.ofNat 0) >>= snapshotCounted env arg := by
    rw [handleKvSnapshot, hin]
    rfl
  rw [betweenScans, Prog.amidRun_append, Prog.amidRun_append, heq, hcount, hothers,
    Prog.amidRun_replicate_own exec (within_snapshotCounted env arg hn)]

/-- A key that nobody writes keeps its value during the call. -/
theorem along_get_of_not_writes {p : Kernel H β} (hp : p.Uses Op.Visits) {key : HashKey} {v : CStr}
    {s : Store H} (hget : s.get key = some v) {es : List (Prog.Event (Op H) Alloc)}
    (hes : ∀ alloc op, .env alloc op ∈ es → ¬ op.Writes key) :
    Machine.Along (Prog.amid exec) (fun c _ => c.2.get key = some v) (p, s) es := by
  induction es generalizing p s with
  | nil => trivial
  | cons e es ih =>
      refine ⟨hget, ?_⟩
      cases e with
      | own alloc =>
          refine ih (hp.step (exec alloc) s) ?_ fun alloc op hop =>
            hes alloc op (List.mem_cons_of_mem _ hop)
          refine Prog.step_frame (exec alloc) hp (fun t => t.get key = some v) ?_ hget
          intro op hop t ht
          cases op with
          | visit b => exact ht
          | _ => exact hop.elim
      | env alloc op =>
          refine ih hp ?_ fun alloc op hop => hes alloc op (List.mem_cons_of_mem _ hop)
          rw [get_exec_of_not_writes (hes alloc op (List.mem_cons_self ..))]
          exact hget

/-- A store that holds `a` under key 7. -/
def storeWith7 (H : HashFn) : Store H := ((Store.init H).add 7 (ascii "a" ++ [0]) .ok).2

/-- A request for a snapshot of one entry. -/
def requestOne : KvSnapshotMessage where
  status := 0
  capacity := 1
  count := 0
  pad := 0
  entries := [KvMessage.zero]

/-- Another key is added between the two scans, and removed again. -/
theorem snapshot_complete_undisturbed :
    let H := HashFn.hash64 1 (by decide) (by decide)
    ∃ image, (Prog.amidRun exec (handleKvSnapshot .ok requestOne, storeWith7 H)
        (betweenScans H [.add 0 (ascii "b" ++ [0]), .remove 0])).1 = .ret (0, some image) ∧
      ∃ e ∈ image.entries, e.key = 7 ∧ cstr e.value.1 = cstr (ascii "a") := by
  intro H
  have hres : (Prog.amidRun exec (handleKvSnapshot .ok requestOne, storeWith7 H)
      (betweenScans H [.add 0 (ascii "b" ++ [0]), .remove 0])).1.result? = some (0, some
        { KernelEnv.ok.heapHeader with
          status := SUCCESS
          capacity := 1
          count := 1
          entries := [copyEntry ⟨7, cstr (ascii "a")⟩ KvMessage.zero] }) := by
    decide +kernel
  have hend := Prog.eq_ret_of_result? hres
  refine ⟨_, hend, (snapshot_complete hend ?_ ?_ ?_ (by decide)).2⟩
  · decide +kernel
  · decide +kernel
  · decide +kernel

/-- Key 0 is added between the two scans.  Its bucket comes first, so it takes the room counted for
key 7, which was there all the time and is missing from the image. -/
theorem snapshot_drops :
    (∃ image, (Prog.amidRun exec (handleKvSnapshot .ok requestOne, storeWith7 HashFn.module)
        (betweenScans HashFn.module [.add 0 (ascii "b" ++ [0])])).1 = .ret (0, some image) ∧
      image.status = SUCCESS ∧ ∀ e ∈ image.entries, e.key ≠ 7) ∧
    Machine.Along (Prog.amid exec) (fun c _ => c.2.get 7 = some (cstr (ascii "a")))
      (handleKvSnapshot .ok requestOne, storeWith7 HashFn.module)
      (betweenScans HashFn.module [.add 0 (ascii "b" ++ [0])]) := by
  have hget : (storeWith7 HashFn.module).get 7 = some (cstr (ascii "a")) := by decide
  have hone : (storeWith7 HashFn.module).1.entries.length = 1 := by decide +kernel
  have hfirst : ((storeWith7 HashFn.module).add 0 (ascii "b" ++ [0]) .ok).2.1.entries.take 1 =
      [⟨0, cstr (ascii "b")⟩] := by decide +kernel
  constructor
  · have hend := amidRun_betweenScans (rfl : KernelEnv.ok.copyFromUser = true) requestOne
      (storeWith7 HashFn.module) [.add 0 (ascii "b" ++ [0])] (by rw [hone]; decide)
    rw [hone, run_snapshotCounted _ _ _ (by decide)] at hend
    simp only [List.foldl_cons, List.foldl_nil, exec, hfirst] at hend
    exact ⟨_, hend, rfl, by decide⟩
  · refine along_get_of_not_writes (uses_handleKvSnapshot _ _) hget ?_
    intro alloc op hop
    simp only [betweenScans, List.mem_append, List.mem_replicate, List.map_cons, List.map_nil,
      List.mem_singleton, reduceCtorEq, and_false, or_false, false_or, Prog.Event.env.injEq] at hop
    obtain ⟨-, rfl⟩ := hop
    exact (by decide : ¬ (0 : HashKey) = 7)

end KvIoctl
