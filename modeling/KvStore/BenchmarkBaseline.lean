/-
**The baseline benchmark.**

`run_baseline_single_thread` inserts, reads and deletes the keys from 0 on, over one connection, and counts
what has failed.  `kv_insert` and `kv_delete` only tell whether the daemon has answered at all, and a value
is looked for between quotes in the answer to `KV_GET`.

This module says what the counters come to, whatever was in the store before, and whatever other clients do
to other keys meanwhile: nothing is counted but the keys that held a value before which does not look like
the value of the benchmark.  An insertion that is refused is not counted.

Main definitions:

* `Benchmark.Counters`, `Benchmark.Counters.count` — the counters, and what an answer adds to them;
* `Benchmark.baselineRequests`, `Benchmark.baseline` — the requests, and the counters in the end.

Main results:

* `Benchmark.unlike_iff` — a mismatch is another value;
* `Benchmark.baseline_baselineAnswers` — the counters, from the answers to the three loops;
* `Benchmark.baseline_single_thread` — **only values that were there before are counted**.
-/

import KvStore.BenchmarkRuns

set_option relaxedAutoImplicit false
set_option autoImplicit false

namespace Benchmark

open CMem Text Interleave KvHash KvIoctl Service Daemon

variable {H : HashFn}

/-! ### Counting -/

/-- What `kv_insert` and `kv_delete` return when `read` has returned: an answer of no bytes means that the
connection is closed. -/
def returned (answer : List UInt8) : ℤ := if answer = [] then -1 else 0

/-- What `kv_get` returns.  There is room for 1023 bytes in its buffer, which was cleared before. -/
def received (answer : List UInt8) : List UInt8 := (cstr (answer.take 1023)).1

/-- What is received is neither the value nor has it between quotes. -/
def mismatch (value out : List UInt8) : Bool :=
  out ≠ value && (afterFirst (ascii "\"" ++ value ++ ascii "\"") out).isNone

/-- The counters of `run_baseline_single_thread`. -/
structure Counters where
  failedInserts : ℕ
  failedGetEmpty : ℕ
  failedGetMismatch : ℕ
  failedDeletes : ℕ
deriving DecidableEq

/-- The value that is inserted for a key. -/
def baselineValue (i : ℕ) : List UInt8 := numbered "value" i

/-- What is counted of an answer. -/
def Counters.count (c : Counters) : Request × List UInt8 → Counters
  | (.insert _ _, answer) =>
      if returned answer < 0 then { c with failedInserts := c.failedInserts + 1 } else c
  | (.get i, answer) =>
      if received answer = [] then { c with failedGetEmpty := c.failedGetEmpty + 1 }
      else if mismatch (baselineValue i) (received answer) then
        { c with failedGetMismatch := c.failedGetMismatch + 1 }
      else c
  | (.update _ _, _) => c
  | (.delete _, answer) =>
      if returned answer < 0 then { c with failedDeletes := c.failedDeletes + 1 } else c

/-- The loops of `run_baseline_single_thread`. -/
def baselineLoops : List (ℕ → Request) :=
  [fun i => .insert i (baselineValue i), fun i => .get i, fun i => .delete i]

def baselineRequests (keyCount : ℕ) : List Request := loops keyCount baselineLoops

/-- The counters, when these are the answers. -/
def baseline (keyCount : ℕ) (answers : List (List UInt8)) : Counters :=
  ((baselineRequests keyCount).zip answers).foldl Counters.count ⟨0, 0, 0, 0⟩

/-- The value is not found in the answer to `KV_GET`, when `v` is under the key. -/
def unlike (i : ℕ) (v : CStr) : Bool :=
  mismatch (baselineValue i) (received (getReply (UInt64.ofNat i) v.1))

/-! ### The answers -/

theorem received_getReply_ne_nil (key : HashKey) (value : List UInt8) :
    received (getReply key value) ≠ [] := by
  have hsplit : getReply key value = 71 :: (ascii "ET(\"" ++ keyStr key ++ ascii "\") " ++ arrow ++
      ascii " \"" ++ value ++ ascii "\"\n") := rfl
  rw [hsplit, received, List.take_succ_cons, val_cstr_cons (by decide)]
  exact List.cons_ne_nil _ _

theorem short_baselineValue {i : ℕ} (hi : i < 2 ^ 64) :
    IsValue (baselineValue i) ∧ (baselineValue i).length ≤ 40 :=
  short_numbered (show IsValue (ascii "value") ∧ _ by decide) hi

theorem val_stored_baselineValue {i : ℕ} (hi : i < 2 ^ 64) :
    (Request.stored (baselineValue i)).1 = baselineValue i := by
  obtain ⟨hvalue, hlength⟩ := short_baselineValue hi
  have hval : (cstr (baselineValue i)).1 = baselineValue i := val_cstr_of_notMem hvalue.noNul
  rw [Request.stored, CStr.truncate_of_le (by rw [hval]; omega), hval]

theorem quote_notMem_baselineValue (i : ℕ) : (34 : UInt8) ∉ baselineValue i := by
  intro h
  rcases List.mem_append.1 h with h | h
  · exact absurd h (by decide)
  · cases isDigit_of_mem_decimal h

/-- The answer to `KV_GET` is received as it was sent. -/
theorem received_getReply (key : HashKey) {v : CStr} (hv : v.1.length ≤ 900) :
    received (getReply key v.1) = getReply key v.1 := by
  have hdigits : (keyStr key).length ≤ 20 :=
    length_decimal_le (by decide) (key.toNat_lt.trans (by decide))
  have hshort : (getReply key v.1).length ≤ 1023 := by
    have hlengths : (ascii "GET(\"").length = 5 ∧ (ascii "\") ").length = 3 ∧ arrow.length = 3 ∧
        (ascii " \"").length = 2 ∧ (ascii "\"\n").length = 2 := ⟨rfl, rfl, rfl, rfl, rfl⟩
    simp only [getReply, List.length_append]
    omega
  have hnul : (0 : UInt8) ∉ getReply key v.1 := by
    have hkey : (0 : UInt8) ∉ keyStr key := fun h => by cases isDigit_of_mem_decimal h
    simp only [getReply, List.mem_append, not_or]
    exact ⟨⟨⟨⟨⟨⟨by decide, hkey⟩, by decide⟩, by decide⟩, by decide⟩, v.2⟩, by decide⟩
  rw [received, List.take_of_length_le hshort, val_cstr_of_notMem hnul]

/-- Between quotes there are the key and the value in the answer to `KV_GET`. -/
theorem quoted_infix_getReply_iff (key : HashKey) {v : CStr} (hquote : (34 : UInt8) ∉ v.1) (i : ℕ) :
    ascii "\"" ++ baselineValue i ++ ascii "\"" <:+: getReply key v.1 ↔ v.1 = baselineValue i := by
  have hpat : ascii "\"" ++ baselineValue i ++ ascii "\"" = 34 :: (baselineValue i ++ [34]) := rfl
  have hreply : getReply key v.1 = ascii "GET(" ++ 34 :: (keyStr key ++ 34 :: (ascii ") " ++ arrow ++
      ascii " " ++ 34 :: (v.1 ++ 34 :: [10]))) := by
    have hsplit : getReply key v.1 = (ascii "GET(" ++ [34]) ++ keyStr key ++ (34 :: ascii ") ") ++ arrow ++
        (ascii " " ++ [34]) ++ v.1 ++ (34 :: [10]) := rfl
    rw [hsplit]
    simp only [List.append_assoc, List.cons_append, List.nil_append]
  have hkey : ∀ b ∈ keyStr key, isDigit b = true := fun b hb => isDigit_of_mem_decimal hb
  have hkeyQuote : (34 : UInt8) ∉ keyStr key := fun h => by cases hkey 34 h
  -- the value begins with a letter
  have hvalue : baselineValue i = 118 :: (ascii "alue" ++ decimal i) := rfl
  have hfirst : baselineValue i ≠ keyStr key := by
    intro h
    have hmem : (118 : UInt8) ∈ keyStr key := h ▸ hvalue ▸ List.mem_cons_self ..
    cases hkey 118 hmem
  have hsecond : baselineValue i ≠ ascii ") " ++ arrow ++ ascii " " := by
    intro h
    cases congrArg List.head? h
  have hthird : ¬ baselineValue i ++ [34] <+: [10] := by
    rw [hvalue, List.cons_append, List.cons_prefix_cons]
    exact fun h => absurd h.1 (by decide)
  have hend : ¬ 34 :: (baselineValue i ++ [34]) <:+: [10] := by
    rw [List.infix_cons_iff, List.cons_prefix_cons, List.infix_nil]
    exact fun h => h.elim (fun h => absurd h.1 (by decide)) (List.cons_ne_nil _ _)
  have hquoteValue := quote_notMem_baselineValue i
  rw [hpat, hreply, infix_append_cons_iff (by decide), prefix_append_cons_iff hquoteValue hkeyQuote,
    infix_append_cons_iff hkeyQuote, prefix_append_cons_iff hquoteValue (by decide),
    infix_append_cons_iff (by decide), prefix_append_cons_iff hquoteValue hquote,
    infix_append_cons_iff hquote, or_iff_right hfirst, or_iff_right hsecond,
    or_iff_left (not_or.2 ⟨hthird, hend⟩)]
  exact eq_comm

/-- **A mismatch is another value**, if it has no quotes. -/
theorem unlike_iff {i : ℕ} {v : CStr} (hlength : v.1.length ≤ 900) (hquote : (34 : UInt8) ∉ v.1) :
    unlike i v = true ↔ v.1 ≠ baselineValue i := by
  have hfound := quoted_infix_getReply_iff (UInt64.ofNat i) hquote i
  rw [← isSome_afterFirst_iff] at hfound
  rw [unlike, received_getReply _ hlength, mismatch, Bool.and_eq_true, Option.isNone_iff_eq_none,
    ← Option.not_isSome_iff_eq_none, hfound, decide_eq_true_iff]
  refine and_iff_right_of_imp fun _ h => ?_
  have hhead : some (71 : UInt8) = some 118 := congrArg List.head? h
  exact absurd hhead (by decide)

theorem not_unlike_stored {i : ℕ} (hi : i < 2 ^ 64) :
    unlike i (Request.stored (baselineValue i)) = false := by
  have hval := val_stored_baselineValue hi
  have hlength := (short_baselineValue hi).2
  have hsame := unlike_iff (i := i) (v := Request.stored (baselineValue i))
    (by rw [hval]; omega) (by rw [hval]; exact quote_notMem_baselineValue i)
  rw [← Bool.not_eq_true, hsame, hval]
  exact fun h => h rfl

/-! ### The counters -/

section Counters

variable (c : Counters)

/-- `kv_insert` and `kv_delete` do not look at the answer. -/
theorem count_answered {r : Request} (hr : ∀ i, r ≠ .get i) {answer : List UInt8} (hanswer : answer ≠ []) :
    c.count (r, answer) = c := by
  have hreturned : ¬ returned answer < 0 := by
    rw [returned, if_neg hanswer]
    exact lt_irrefl 0
  cases r with
  | insert key value => exact if_neg hreturned
  | get key => exact absurd rfl (hr key)
  | update key value => rfl
  | delete key => exact if_neg hreturned

theorem count_get (i : ℕ) (v : CStr) :
    c.count (.get i, getReply (UInt64.ofNat i) v.1) =
      if unlike i v then { c with failedGetMismatch := c.failedGetMismatch + 1 } else c := by
  rw [Counters.count, if_neg (received_getReply_ne_nil _ _)]
  rfl

/-- A loop that inserts or deletes. -/
theorem foldl_count_answered {request : ℕ → Request} (hrequest : ∀ i k, request i ≠ .get k)
    {answer : ℕ → List UInt8} (hanswer : ∀ i, answer i ≠ []) (is : List ℕ) :
    (is.map fun i => (request i, answer i)).foldl Counters.count c = c := by
  induction is with
  | nil => rfl
  | cons i is ih =>
      rw [List.map_cons, List.foldl_cons, count_answered c (hrequest i) (hanswer i)]
      exact ih

/-- The loop that reads. -/
theorem foldl_count_get (v : ℕ → CStr) (is : List ℕ) :
    (is.map fun i => (Request.get i, getReply (UInt64.ofNat i) (v i).1)).foldl Counters.count c =
      { c with failedGetMismatch := c.failedGetMismatch + is.countP fun i => unlike i (v i) } := by
  induction is generalizing c with
  | nil => rfl
  | cons i is ih =>
      rw [List.map_cons, List.foldl_cons, count_get, List.countP_cons]
      by_cases h : unlike i (v i) = true
      · rw [if_pos h, if_pos h, ih]
        dsimp only
        rw [Nat.add_right_comm, Nat.add_assoc]
      · rw [if_neg h, if_neg h, ih]
        rfl

end Counters

/-- What the benchmark is answered: `f` says what was there before. -/
def baselineAnswers (keyCount : ℕ) (f : HashKey → Option CStr) : List (List UInt8) :=
  let key i := UInt64.ofNat i
  (List.range keyCount).map (fun i => insertAnswer (key i) (f (key i))) ++
    ((List.range keyCount).map
      (fun i => getReply (key i) ((f (key i)).getD (Request.stored (baselineValue i))).1) ++
    (List.range keyCount).map (fun i => Request.deleteReply (key i)))

theorem number_baselineLoops : ∀ request ∈ baselineLoops, ∀ i, (request i).number = 0 + i := by
  simp [baselineLoops, Request.number]

/-- The benchmark on its own. -/
theorem serve_baselineRequests {n : ℕ} (hn : n ≤ 2 ^ 64) (f : HashKey → Option CStr) :
    (serve Request.serve (baselineRequests n) f).1 = baselineAnswers n f := by
  have hrange : 0 + n ≤ 2 ^ 64 := by rwa [Nat.zero_add]
  obtain ⟨hanswers, -, -⟩ := serve_loops hrange number_baselineLoops (f := f)
    (g := fun i => f (UInt64.ofNat i)) fun i _ => by rw [Nat.zero_add]
  have hkey : ∀ i, (Request.insert i (baselineValue i)).answer (f (UInt64.ofNat i)) =
      (insertAnswer (UInt64.ofNat i) (f (UInt64.ofNat i)),
        some ((f (UInt64.ofNat i)).getD (Request.stored (baselineValue i)))) := fun i => answer_insert ..
  rw [baselineRequests, hanswers, baselineAnswers]
  simp only [baselineLoops, serve_cons, serve_nil, serveLoop, hkey, List.flatten_cons, List.flatten_nil,
    List.append_nil]
  rfl

theorem insertAnswer_ne_nil (key : HashKey) (o : Option CStr) : insertAnswer key o ≠ [] := by
  cases o with
  | none => exact List.cons_ne_nil _ _
  | some v => exact List.cons_ne_nil _ _

theorem deleteReply_ne_nil (key : HashKey) : Request.deleteReply key ≠ [] := List.cons_ne_nil _ _

/-- **The counters, from the answers.**  A key whose value was there before counts if this value is unlike
that of the benchmark. -/
theorem baseline_baselineAnswers {n : ℕ} (hn : n ≤ 2 ^ 64) (f : HashKey → Option CStr) :
    baseline n (baselineAnswers n f) =
      ⟨0, 0, (List.range n).countP fun i => (f (UInt64.ofNat i)).any (unlike i), 0⟩ := by
  have hloops : baselineRequests n = (List.range n).map (fun i => .insert i (baselineValue i)) ++
      ((List.range n).map .get ++ (List.range n).map .delete) := by
    rw [baselineRequests, loops, baselineLoops, List.flatMap_cons, List.flatMap_cons, List.flatMap_singleton]
  have hcount : ∀ i ∈ List.range n,
      unlike i ((f (UInt64.ofNat i)).getD (Request.stored (baselineValue i))) =
        (f (UInt64.ofNat i)).any (unlike i) := by
    intro i hi
    cases f (UInt64.ofNat i) with
    | none =>
        rw [Option.getD_none, Option.any_none]
        exact not_unlike_stored ((List.mem_range.1 hi).trans_le hn)
    | some v => rw [Option.getD_some, Option.any_some]
  rw [baseline, hloops, baselineAnswers, List.zip_append (by simp), List.zip_append (by simp),
    List.zip_map', List.zip_map', List.zip_map', List.foldl_append, List.foldl_append,
    foldl_count_answered _ (fun i k h => by cases h) (fun i => insertAnswer_ne_nil _ _),
    foldl_count_get, foldl_count_answered _ (fun i k h => by cases h) (fun i => deleteReply_ne_nil _)]
  dsimp only
  rw [Nat.zero_add, List.countP_congr fun i hi => by rw [hcount i hi]]

/-! ### The benchmark among other clients -/

theorem mem_baselineRequests {n : ℕ} {r : Request} : r ∈ baselineRequests n ↔
    ∃ i < n, r = .insert i (baselineValue i) ∨ r = .get i ∨ r = .delete i := by
  rw [baselineRequests, mem_loops]
  constructor
  · rintro ⟨request, hrequest, i, hi, rfl⟩
    simp only [baselineLoops, List.mem_cons, List.not_mem_nil, or_false] at hrequest
    rcases hrequest with rfl | rfl | rfl
    · exact ⟨i, hi, .inl rfl⟩
    · exact ⟨i, hi, .inr (.inl rfl)⟩
    · exact ⟨i, hi, .inr (.inr rfl)⟩
  · rintro ⟨i, hi, rfl | rfl | rfl⟩
    · exact ⟨_, List.mem_cons_self .., i, hi, rfl⟩
    · exact ⟨_, List.mem_cons_of_mem _ (List.mem_cons_self ..), i, hi, rfl⟩
    · exact ⟨_, List.mem_cons_of_mem _ (List.mem_cons_of_mem _ (List.mem_cons_self ..)), i, hi, rfl⟩

/-- The benchmark asks for its keys, with short values. -/
theorem request_baseline {n : ℕ} (hn : n ≤ 2 ^ 64) {r : Request} (hr : r ∈ baselineRequests n) :
    (r.Valid ∧ r.value.length ≤ 40) ∧ r.number < n := by
  obtain ⟨i, hi, hr⟩ := mem_baselineRequests.1 hr
  have hkey : i < 2 ^ 64 := hi.trans_le hn
  rcases hr with rfl | rfl | rfl
  · obtain ⟨hvalue, hlength⟩ := short_baselineValue hkey
    exact ⟨⟨⟨hkey, hvalue⟩, hlength⟩, hi⟩
  · exact ⟨⟨hkey, Nat.zero_le _⟩, hi⟩
  · exact ⟨⟨hkey, Nat.zero_le _⟩, hi⟩

/-- **Only values that were there before are counted**, as mismatches, if they are unlike those of the
benchmark: whatever other clients do to other keys, and however the threads of the daemon are scheduled.
That an insertion is refused, since its key is there, is not counted. -/
theorem baseline_single_thread {ι : Type} [DecidableEq ι] {w : World H} {m : KvMap} {pam : Pam}
    {username password : List UInt8} {keyCount : ℕ} {inputs : ι → List Input} {i : ι}
    (h : Holds w.store m) (hcount : keyCount ≤ 2 ^ 31)
    (hlogin : (login pam username password).2 = true)
    (hsends : Sends username password (baselineRequests keyCount) (inputs i))
    (hothers : ∀ j, j ≠ i → ∀ b ∈ inputs j, ∀ k < keyCount, UInt64.ofNat k ∉ b.written pam)
    {es : List ι} (hes : 6 * (inputs i).length ≤ es.count i) :
    let s := (Server.start inputs w).run pam es
    baseline keyCount (s.conn i).replies.tail =
      ⟨0, 0, (List.range keyCount).countP fun k => (m.lookup (UInt64.ofNat k)).any (unlike k), 0⟩ := by
  intro s
  have hn : keyCount ≤ 2 ^ 64 := hcount.trans (Nat.pow_le_pow_right Nat.zero_lt_two (by decide))
  have hvalid : ∀ r ∈ baselineRequests keyCount, r.Valid := fun r hr => (request_baseline hn hr).1.1
  have hapart : ∀ j, j ≠ i → Apart pam (inputs j) (inputs i) := by
    intro j hj b hb key hkey a ha hused
    obtain ⟨r, hr, rfl⟩ := (hsends.mem_used_iff hvalid).1 ⟨a, ha, hused⟩
    exact hothers j hj b hb r.number (request_baseline hn hr).2 hkey
  obtain ⟨-, hdone⟩ := replies_isolated h hapart es
  obtain ⟨hanswers, -⟩ := hsends.serve hvalid hlogin m
  rw [(hdone hes).1, hanswers, List.tail_cons, serve_baselineRequests hn, baseline_baselineAnswers hn]

/-- What a client inserts under a key of its own. -/
def besideRequests : List Request := [.insert 50000 (baselineValue 50000)]

theorem request_beside {r : Request} (hr : r ∈ besideRequests) :
    (r.Valid ∧ r.value.length ≤ 40) ∧ r.number = 50000 := by
  have hkey : 50000 < 2 ^ 64 := by decide
  obtain ⟨hvalue, hlength⟩ := short_baselineValue hkey
  obtain rfl := List.mem_singleton.1 hr
  exact ⟨⟨⟨hkey, hvalue⟩, hlength⟩, rfl⟩

theorem fits_beside : ∀ line ∈ threadLines (ascii "vboxuser") (ascii "vboxuser") besideRequests,
    line ≠ [] ∧ line.length ≤ 1023 :=
  fits_threadLines (fun _ hr => (request_beside hr).1) (by decide)

theorem fits_baseline : ∀ line ∈ threadLines (ascii "vboxuser") (ascii "vboxuser") (baselineRequests 50000),
    line ≠ [] ∧ line.length ≤ 1023 :=
  fits_threadLines (fun _ hr => (request_baseline (by decide) hr).1) (by decide)

/-- The benchmark with the count of the source, beside this client. -/
def baselineBeside (other : Bool) : List Input :=
  if other then deliver (threadLines (ascii "vboxuser") (ascii "vboxuser") besideRequests) fits_beside
  else deliver (threadLines (ascii "vboxuser") (ascii "vboxuser") (baselineRequests 50000)) fits_baseline

theorem baseline_beside :
    let s := (Server.start baselineBeside ⟨Store.init HashFn.module, none⟩).run (fun _ _ => true)
      (List.replicate 12 true ++ List.replicate (6 * (baselineBeside false).length) false)
    baseline 50000 (s.conn false).replies.tail = ⟨0, 0, 0, 0⟩ := by
  have hlogin : (login (fun _ _ => true) (ascii "vboxuser") (ascii "vboxuser")).2 = true := rfl
  have hsends : Sends (ascii "vboxuser") (ascii "vboxuser") (baselineRequests 50000)
      (baselineBeside false) := sends_deliver fits_baseline
  have hbeside : Sends (ascii "vboxuser") (ascii "vboxuser") besideRequests (baselineBeside true) :=
    sends_deliver fits_beside
  have hothers : ∀ j, j ≠ false → ∀ b ∈ baselineBeside j, ∀ k < 50000,
      UInt64.ofNat k ∉ b.written fun _ _ => true := by
    intro j hj b hb k hk hwritten
    obtain rfl := Bool.eq_true_of_not_eq_false hj
    obtain ⟨r, hr, hkey⟩ := (hbeside.mem_used_iff fun r hr => (request_beside hr).1.1).1
      ⟨b, hb, b.used_of_written hwritten⟩
    obtain ⟨⟨hvalid, -⟩, hnumber⟩ := request_beside hr
    have hlt : k < 2 ^ 64 := hk.trans (by decide)
    have hsame : r.number = k := eq_of_ofNat_eq hvalid.number_lt hlt hkey
    omega
  have hes : 6 * (baselineBeside false).length ≤
      (List.replicate 12 true ++ List.replicate (6 * (baselineBeside false).length) false).count false := by
    rw [List.count_append, List.count_replicate_self]
    exact Nat.le_add_left _ _
  have hcounters := baseline_single_thread (w := ⟨Store.init HashFn.module, none⟩)
    (holds_init HashFn.module) (by decide) hlogin hsends hothers hes
  have hnone : ((List.range 50000).countP fun k =>
      ((∅ : KvMap).lookup (UInt64.ofNat k)).any (unlike k)) = 0 := by
    refine List.countP_eq_zero.2 fun k _ => ?_
    rw [Finmap.lookup_empty, Option.any_none]
    exact Bool.false_ne_true
  rw [hnone] at hcounters
  exact hcounters

end Benchmark
