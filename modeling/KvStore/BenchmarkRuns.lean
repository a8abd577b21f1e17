/-
**The latency benchmarks.**

`run_latency_bench_single_core` and `run_latency_bench_multi_thread` insert, read, update and delete a range
of keys; the second does so in several threads, each with a range for itself.  Neither looks at an answer
before it sends the next command.

This module says what the answers are, whatever was in the store before, and however the threads of the
daemon are scheduled: the threads do not disturb each other, since their keys are different
(`KvStore/DaemonIsolation.lean`).  It also says what the benchmarks leave behind: the keys that warm up are
never deleted.

Main definitions:

* `Benchmark.Request` — a call of `kv_insert`, `kv_get`, `kv_update` or `kv_delete`;
* `Benchmark.Request.answer` — its answer, and what it leaves under its key;
* `Benchmark.worker`, `Benchmark.workerAnswers` — a thread, and what it is answered;
* `Benchmark.Sends` — the lines of a thread, as the daemon gets them.

Main results:

* `Benchmark.serve_distinct`, `Benchmark.serve_loops` — requests for different keys are answered from what
  was there before, and each key is served on its own;
* `Benchmark.threads_in_ranges` — threads with ranges of their own, however they are scheduled;
* `Benchmark.latency_bench_multi_thread` — **the threads of the latency benchmark do not disturb each
  other**.
-/

import KvStore.DaemonIsolation

set_option relaxedAutoImplicit false
set_option autoImplicit false

namespace Benchmark

open CMem Text Interleave KvHash KvIoctl Service Daemon

variable {H : HashFn}

/-! ### Requests -/

/-- A call of `kv_insert`, `kv_get`, `kv_update` or `kv_delete`.  The keys are numbers, which `to_string`
writes. -/
inductive Request
  | insert (key : ℕ) (value : List UInt8)
  | get (key : ℕ)
  | update (key : ℕ) (value : List UInt8)
  | delete (key : ℕ)
deriving DecidableEq

namespace Request

/-- What is sent.  The menu of the client sends the same. -/
def choice : Request → Choice
  | insert key value => .insert (decimal key) value
  | get key => .get (decimal key)
  | update key value => .update (decimal key) value
  | delete key => .delete (decimal key)

/-- The number of the key. -/
def number : Request → ℕ
  | insert key _ | get key | update key _ | delete key => key

/-- The key. -/
def key (r : Request) : HashKey := UInt64.ofNat r.number

/-- The ioctl command that the daemon makes of it. -/
def cmd : Request → Cmd
  | insert _ _ => .kvInsert
  | get _ => .kvGet
  | update _ _ => .kvUpdate
  | delete _ => .kvDelete

/-- The value that is sent. -/
def value : Request → List UInt8
  | insert _ value | update _ value => value
  | get _ | delete _ => []

/-- The number is a key, and the value can be sent. -/
def Valid : Request → Prop
  | insert key value | update key value => key < 2 ^ 64 ∧ IsValue value
  | get key | delete key => key < 2 ^ 64

theorem decimal_eq_typedKey {n : ℕ} (h : n < 2 ^ 64) : decimal n = typedKey 0 (UInt64.ofNat n) := by
  rw [typedKey, List.replicate_zero, List.nil_append, keyStr, UInt64.toNat_ofNat_of_lt' h]

theorem asks {r : Request} (h : r.Valid) :
    r.choice.Asks r.key r.cmd (typedKey 0 r.key) r.value := by
  cases r with
  | insert key value =>
      rw [choice, decimal_eq_typedKey h.1]
      exact .insert 0 h.2
  | get key =>
      rw [choice, decimal_eq_typedKey h]
      exact .get 0
  | update key value =>
      rw [choice, decimal_eq_typedKey h.1]
      exact .update 0 h.2
  | delete key =>
      rw [choice, decimal_eq_typedKey h]
      exact .delete 0

/-- What is stored of a value. -/
def stored (value : List UInt8) : CStr := (cstr value).truncate 63

/-- The answer to an insertion under a key that is there. -/
def existsReply (key : HashKey) : List UInt8 :=
  ascii "INSERT(\"" ++ keyStr key ++ ascii "\") failed, key already exists, use update\n"

/-- The answer to a deletion. -/
def deleteReply (key : HashKey) : List UInt8 :=
  ascii "DELETE(\"" ++ keyStr key ++ ascii "\") succeeded\n"

/-- The answer to a request, and what it leaves under its key, if nothing fails: `o` is what is there. -/
def answer (r : Request) (o : Option CStr) : List UInt8 × Option CStr :=
  match r, o with
  | insert _ value, none => (WriteOp.insert.reply r.key, some (stored value))
  | insert _ _, some v => (existsReply r.key, some v)
  | get _, none => (ascii "GET(\"" ++ keyStr r.key ++ ascii "\") failed: key does not exist\n", none)
  | get _, some v => (getReply r.key v.1, some v)
  | update _ _, none => (ascii "UPDATE(\"" ++ keyStr r.key ++ ascii "\") failed (status=1)\n", none)
  | update _ value, some _ => (updateReply r.key, some (stored value))
  | delete _, none =>
      (ascii "DELETE(\"" ++ keyStr r.key ++
        ascii "\") failed: key not found or error (status=1)\n", none)
  | delete _, some _ => (deleteReply r.key, none)

end Request

/-- Nothing fails between the daemon and the module. -/
structure Works (env : CommandEnv) : Prop where
  copyFromUser : env.kernel.copyFromUser = true
  copyToUser : env.kernel.copyToUser = true
  alloc : env.alloc = .ok

/-- The answers to the statuses. -/
theorem answerText_status (key : HashKey) :
    answerText .kvInsert key (.status 0) = WriteOp.insert.reply key ∧
      answerText .kvInsert key (.status 1) = Request.existsReply key ∧
      answerText .kvGet key (.status 1) =
        ascii "GET(\"" ++ keyStr key ++ ascii "\") failed: key does not exist\n" ∧
      answerText .kvUpdate key (.status 0) = updateReply key ∧
      answerText .kvUpdate key (.status 1) =
        ascii "UPDATE(\"" ++ keyStr key ++ ascii "\") failed (status=1)\n" ∧
      answerText .kvDelete key (.status 0) = Request.deleteReply key ∧
      answerText .kvDelete key (.status 1) =
        ascii "DELETE(\"" ++ keyStr key ++
          ascii "\") failed: key not found or error (status=1)\n" := by
  refine ⟨?_, ?_, ?_, ?_, ?_, ?_, ?_⟩
  all_goals
    simp only [answerText, response, WriteOp.reply, Request.existsReply, Request.deleteReply, updateReply,
      List.append_assoc]
    rfl

section OnMap

variable (key : HashKey) (value : List UInt8) (m : KvMap)

theorem cstr_value_requestMessage : cstr (requestMessage key value).value.1 = Request.stored value := by
  have hread := cstr_requestMessage key value []
  rwa [List.append_nil] at hread

/-- An insertion with memory. -/
theorem insertSpec_request : insertSpec .ok (requestMessage key value) m =
    if (m.lookup key).isSome then (.status 1, m)
    else (.status 0, m.insert key (Request.stored value)) := by
  rw [← cstr_value_requestMessage key value]
  rfl

/-- An update with memory. -/
theorem updateSpec_request : updateSpec .ok (requestMessage key value) m =
    if (m.lookup key).isSome then (.status 0, m.insert key (Request.stored value))
    else (.status 1, m) := by
  rw [← cstr_value_requestMessage key value]
  rfl

variable {key m} in
theorem messageSpec_get_of_none (h : m.lookup key = none) :
    messageSpec .ok .kvGet (requestMessage key []) m = (.status 1, m) := by
  dsimp only [messageSpec, getSpec, requestMessage]
  rw [h]

variable {key m} in
theorem messageSpec_get_of_some {v : CStr} (h : m.lookup key = some v) :
    messageSpec .ok .kvGet (requestMessage key []) m =
      (.value (v.1 ++ List.replicate (MAX_VALUE_LEN - v.1.length) 0), m) := by
  dsimp only [messageSpec, getSpec, requestMessage]
  rw [h]

/-- The value that is found is read in the message up to its terminator. -/
theorem answerText_value (v : CStr) (n : ℕ) :
    answerText .kvGet key (.value (v.1 ++ List.replicate n 0)) = getReply key v.1 := by
  have hcstr : (cstr (v.1 ++ List.replicate n 0)).1 = v.1 := by
    cases n with
    | zero => rw [List.replicate_zero, List.append_nil, val_cstr_of_notMem v.2]
    | succ n => rw [List.replicate_succ, cstr_val_append]
  rw [answerText, hcstr]

end OnMap

/-- What a request is answered, and what it leaves, is told by what is under its key. -/
theorem operate_request {env : CommandEnv} (henv : Works env) (r : Request) (m : KvMap) :
    (operate env r.cmd r.key r.value m).1 = (r.answer (m.lookup r.key)).1 ∧
      (operate env r.cmd r.key r.value m).2.lookup r.key = (r.answer (m.lookup r.key)).2 := by
  obtain ⟨hins, hexists, hmissing, hupd, hnone, hdel, hgone⟩ := answerText_status r.key
  have hcopy : ¬ (!true) = true := Bool.false_ne_true
  have hmissed : ¬ (none : Option CStr).isSome = true := Bool.false_ne_true
  have hfound : ∀ v : CStr, (some v).isSome = true := fun _ => rfl
  unfold operate
  rw [henv.copyFromUser, henv.copyToUser, henv.alloc, if_neg hcopy]
  dsimp only
  rw [if_pos rfl]
  cases r with
  | insert key value =>
      dsimp only [Request.cmd, messageSpec]
      rw [insertSpec_request]
      cases hm : m.lookup (Request.insert key value).key with
      | none =>
          rw [if_neg hmissed, Finmap.lookup_insert]
          exact ⟨hins, rfl⟩
      | some v =>
          rw [if_pos (hfound v)]
          exact ⟨hexists, hm⟩
  | get key =>
      dsimp only [Request.cmd, Request.value]
      cases hm : m.lookup (Request.get key).key with
      | none =>
          rw [messageSpec_get_of_none hm]
          exact ⟨hmissing, hm⟩
      | some v =>
          rw [messageSpec_get_of_some hm]
          exact ⟨answerText_value .., hm⟩
  | update key value =>
      dsimp only [Request.cmd, messageSpec]
      rw [updateSpec_request]
      cases hm : m.lookup (Request.update key value).key with
      | none =>
          rw [if_neg hmissed]
          exact ⟨hnone, hm⟩
      | some v =>
          rw [if_pos (hfound v), Finmap.lookup_insert]
          exact ⟨hupd, rfl⟩
  | delete key =>
      have hspec : messageSpec .ok .kvDelete (requestMessage (Request.delete key).key []) m =
          if (m.lookup (Request.delete key).key).isSome then
            (.status 0, m.erase (Request.delete key).key)
          else (.status 1, m) := rfl
      dsimp only [Request.cmd, Request.value]
      rw [hspec]
      cases hm : m.lookup (Request.delete key).key with
      | none =>
          rw [if_neg hmissed]
          exact ⟨hgone, hm⟩
      | some v =>
          rw [if_pos (hfound v), Finmap.lookup_erase]
          exact ⟨hdel, rfl⟩

/-! ### Requests in a row -/

/-- A request is served: `f` says what is under the keys. -/
def Request.serve (r : Request) (f : HashKey → Option CStr) : List UInt8 × (HashKey → Option CStr) :=
  ((r.answer (f r.key)).1, Function.update f r.key (r.answer (f r.key)).2)

/-- A line that is a request, on a connection that is authenticated. -/
theorem serveLine_request (pam : Pam) {a : Input} (henv : Works a.env) {r : Request} (hr : r.Valid)
    (hline : a.chunk.1 = r.choice.command) (m : KvMap) :
    (serveLine pam a (true, m)).1 = (r.serve m.lookup).1 ∧ (serveLine pam a (true, m)).2.1 = true ∧
      (serveLine pam a (true, m)).2.2.lookup = (r.serve m.lookup).2 := by
  have hparse : parseCommand pam a.chunk.command true = .operation r.cmd r.key r.value := by
    rw [(Request.asks hr).chunk_command hline]
    exact (Request.asks hr).parseCommand pam
  obtain ⟨hanswer, hlookup⟩ := operate_request henv r m
  have hserved : serveLine pam a (true, m) =
      ((operate a.env r.cmd r.key r.value m).1, true, (operate a.env r.cmd r.key r.value m).2) := by
    unfold serveLine
    dsimp only
    rw [hparse]
    rfl
  rw [hserved]
  refine ⟨hanswer, rfl, funext fun k => ?_⟩
  dsimp only [Request.serve]
  by_cases hk : k = r.key
  · subst hk
    rw [hlookup, Function.update_self]
  · rw [lookup_operate_of_ne a.env r.cmd hk r.value, Function.update_of_ne hk]

/-- Requests one after the other. -/
theorem serve_requests (pam : Pam) {rs : List Request} (hrs : ∀ r ∈ rs, r.Valid) {as : List Input}
    (hlines : as.map (fun a => a.chunk.1) = rs.map fun r => r.choice.command)
    (henv : ∀ a ∈ as, Works a.env) (m : KvMap) :
    (serve (serveLine pam) as (true, m)).1 = (serve Request.serve rs m.lookup).1 ∧
      (serve (serveLine pam) as (true, m)).2.2.lookup = (serve Request.serve rs m.lookup).2 := by
  induction rs generalizing as m with
  | nil =>
      obtain rfl := List.map_eq_nil_iff.1 hlines
      exact ⟨rfl, rfl⟩
  | cons r rs ih =>
      obtain ⟨a, as, rfl, hline, hlines⟩ := List.map_eq_cons_iff.1 hlines
      obtain ⟨hanswer, hauth, hlookup⟩ := serveLine_request pam (henv a (List.mem_cons_self ..))
        (hrs r (List.mem_cons_self ..)) hline m
      obtain ⟨hanswers, hlast⟩ := ih (fun r hr => hrs r (List.mem_cons_of_mem _ hr)) hlines
        (fun a ha => henv a (List.mem_cons_of_mem _ ha)) (serveLine pam a (true, m)).2.2
      have hnext : (serveLine pam a (true, m)).2 = (true, (serveLine pam a (true, m)).2.2) :=
        Prod.ext hauth rfl
      rw [serve_cons, serve_cons, hnext, hanswer, ← hlookup]
      exact ⟨congrArg _ hanswers, hlast⟩

/-- **Requests for different keys** are answered from what was there before, and leave the other keys
alone. -/
theorem serve_distinct {rs : List Request} (hkeys : (rs.map Request.key).Nodup)
    (f : HashKey → Option CStr) :
    (serve Request.serve rs f).1 = rs.map (fun r => (r.answer (f r.key)).1) ∧
      (∀ r ∈ rs, (serve Request.serve rs f).2 r.key = (r.answer (f r.key)).2) ∧
        ∀ key, key ∉ rs.map Request.key → (serve Request.serve rs f).2 key = f key := by
  induction rs generalizing f with
  | nil =>
      refine ⟨rfl, ?_, fun _ _ => rfl⟩
      rintro r ⟨⟩
  | cons r rs ih =>
      rw [List.map_cons, List.nodup_cons] at hkeys
      obtain ⟨hanswers, hown, hothers⟩ := ih hkeys.2 (r.serve f).2
      have hafter : ∀ key, key ≠ r.key → (r.serve f).2 key = f key := fun key hkey =>
        Function.update_of_ne hkey _ _
      have hne : ∀ r' ∈ rs, r'.key ≠ r.key := fun r' hr' h =>
        hkeys.1 (h ▸ List.mem_map_of_mem hr')
      rw [serve_cons]
      refine ⟨?_, ?_, ?_⟩
      · rw [hanswers, List.map_cons]
        refine congrArg ((r.serve f).1 :: ·) (List.map_congr_left fun r' hr' => ?_)
        rw [hafter _ (hne r' hr')]
      · intro r' hr'
        rcases List.mem_cons.1 hr' with rfl | hr'
        · refine (hothers _ hkeys.1).trans ?_
          exact Function.update_self ..
        · rw [hown r' hr', hafter _ (hne r' hr')]
      · intro key hkey
        rw [List.map_cons, List.mem_cons, not_or] at hkey
        rw [hothers key hkey.2, hafter key hkey.1]

/-- Numbers below `2 ^ 64` are different keys. -/
theorem eq_of_ofNat_eq {a b : ℕ} (ha : a < 2 ^ 64) (hb : b < 2 ^ 64)
    (h : UInt64.ofNat a = UInt64.ofNat b) : a = b := by
  rw [← UInt64.toNat_ofNat_of_lt' ha, h, UInt64.toNat_ofNat_of_lt' hb]

/-- Requests for the keys from `base` on. -/
theorem serve_range {n base : ℕ} (hbase : base + n ≤ 2 ^ 64) {request : ℕ → Request}
    (hnumber : ∀ i, (request i).number = base + i) (f : HashKey → Option CStr) :
    let r := serve Request.serve ((List.range n).map request) f
    r.1 = (List.range n).map (fun i => ((request i).answer (f (UInt64.ofNat (base + i)))).1) ∧
      (∀ i < n, r.2 (UInt64.ofNat (base + i)) = ((request i).answer (f (UInt64.ofNat (base + i)))).2) ∧
        ∀ k < 2 ^ 64, (∀ i < n, k ≠ base + i) → r.2 (UInt64.ofNat k) = f (UInt64.ofNat k) := by
  have hkey : ∀ i, (request i).key = UInt64.ofNat (base + i) := fun i =>
    congrArg UInt64.ofNat (hnumber i)
  have hinj : ∀ {i k : ℕ}, i < n → k < 2 ^ 64 →
      UInt64.ofNat k = UInt64.ofNat (base + i) → k = base + i := fun {i k} hi hk h =>
    eq_of_ofNat_eq hk (show base + i < 2 ^ 64 by omega) h
  have hkeys : (((List.range n).map request).map Request.key).Nodup := by
    rw [List.map_map]
    refine List.Nodup.map_on (fun i hi j hj h => ?_) List.nodup_range
    rw [List.mem_range] at hi hj
    dsimp only [Function.comp_apply] at h
    rw [hkey, hkey] at h
    have hsum := hinj hj (show base + i < 2 ^ 64 by omega) h
    omega
  obtain ⟨hanswers, hown, hothers⟩ := serve_distinct hkeys f
  refine ⟨?_, fun i hi => ?_, fun k hk hne => hothers _ ?_⟩
  · rw [hanswers, List.map_map]
    refine List.map_congr_left fun i _ => ?_
    dsimp only [Function.comp_apply]
    rw [hkey]
  · have hmem : request i ∈ (List.range n).map request := List.mem_map_of_mem (List.mem_range.2 hi)
    have hleft := hown _ hmem
    rwa [hkey] at hleft
  · rw [List.map_map, List.mem_map]
    rintro ⟨i, hi, h⟩
    dsimp only [Function.comp_apply] at h
    rw [hkey] at h
    exact hne i (List.mem_range.1 hi) (hinj (List.mem_range.1 hi) hk h.symm)

/-- Loops over `n` keys, one after the other. -/
def loops (n : ℕ) (requests : List (ℕ → Request)) : List Request :=
  requests.flatMap fun request => (List.range n).map request

/-- A loop over `n` keys, seen from the keys: `g` says what is under each of them. -/
def serveLoop (n : ℕ) (request : ℕ → Request) (g : ℕ → Option CStr) :
    List (List UInt8) × (ℕ → Option CStr) :=
  ((List.range n).map fun i => ((request i).answer (g i)).1, fun i => ((request i).answer (g i)).2)

/-- **Loops over the same keys**: each key is served on its own. -/
theorem serve_loops {n base : ℕ} (hbase : base + n ≤ 2 ^ 64) {requests : List (ℕ → Request)}
    (hnumber : ∀ request ∈ requests, ∀ i, (request i).number = base + i) {f : HashKey → Option CStr}
    {g : ℕ → Option CStr} (hg : ∀ i < n, f (UInt64.ofNat (base + i)) = g i) :
    let r := serve Request.serve (loops n requests) f
    let r' := serve (serveLoop n) requests g
    r.1 = r'.1.flatten ∧ (∀ i < n, r.2 (UInt64.ofNat (base + i)) = r'.2 i) ∧
      ∀ k < 2 ^ 64, (∀ i < n, k ≠ base + i) → r.2 (UInt64.ofNat k) = f (UInt64.ofNat k) := by
  induction requests generalizing f g with
  | nil => exact ⟨rfl, hg, fun _ _ _ => rfl⟩
  | cons request requests ih =>
      obtain ⟨hanswers, hown, hothers⟩ := serve_range hbase (hnumber request (List.mem_cons_self ..)) f
      obtain ⟨hanswers', hown', hothers'⟩ := ih (fun request hr => hnumber request (List.mem_cons_of_mem _ hr))
        (f := (serve Request.serve ((List.range n).map request) f).2) (g := (serveLoop n request g).2)
        fun i hi => by rw [hown i hi, hg i hi, serveLoop]
      have hfirst : (serve Request.serve ((List.range n).map request) f).1 = (serveLoop n request g).1 := by
        rw [hanswers]
        refine List.map_congr_left fun i hi => ?_
        rw [hg i (List.mem_range.1 hi)]
      have hsplit : loops n (request :: requests) = (List.range n).map request ++ loops n requests := rfl
      intro r r'
      refine ⟨?_, fun i hi => ?_, fun k hk hne => ?_⟩
      · rw [show r = serve Request.serve (loops n (request :: requests)) f from rfl, hsplit, serve_append_fst,
          hfirst, hanswers']
        rfl
      · rw [show r = serve Request.serve (loops n (request :: requests)) f from rfl, hsplit,
          serve_append_snd, hown' i hi]
        rfl
      · rw [show r = serve Request.serve (loops n (request :: requests)) f from rfl, hsplit,
          serve_append_snd, hothers' k hk hne, hothers k hk hne]

/-! ### The latency benchmarks -/

/-- A text and a number. -/
def numbered (text : String) (i : ℕ) : List UInt8 := ascii text ++ decimal i

/-- The loop that warms up. -/
def warmupLoop (keyCount baseKey : ℕ) (i : ℕ) : Request :=
  .insert (baseKey + keyCount * 10 + i) (numbered "Warmup:" i)

/-- The loops that are measured. -/
def latencyLoops (baseKey : ℕ) : List (ℕ → Request) :=
  [fun i => .insert (baseKey + i) (numbered "value" i),
    fun i => .get (baseKey + i),
    fun i => .update (baseKey + i) (numbered "updated_value" i),
    fun i => .delete (baseKey + i)]

/-- The requests of a thread of `run_latency_bench_multi_thread`, whose keys begin at `baseKey`; those of
`run_latency_bench_single_core` begin at 0. -/
def worker (keyCount warmupCount baseKey : ℕ) : List Request :=
  loops warmupCount [warmupLoop keyCount baseKey] ++ loops keyCount (latencyLoops baseKey)

/-- What an insertion is answered: `o` is what was there. -/
def insertAnswer (key : HashKey) (o : Option CStr) : List UInt8 :=
  if o.isSome then Request.existsReply key else WriteOp.insert.reply key

/-- What the thread is answered: `f` says what was there before. -/
def workerAnswers (keyCount warmupCount baseKey : ℕ) (f : HashKey → Option CStr) :
    List (List UInt8) :=
  let warmup i := UInt64.ofNat (baseKey + keyCount * 10 + i)
  let key i := UInt64.ofNat (baseKey + i)
  (List.range warmupCount).map (fun i => insertAnswer (warmup i) (f (warmup i))) ++
    ((List.range keyCount).map (fun i => insertAnswer (key i) (f (key i))) ++
    ((List.range keyCount).map
      (fun i => getReply (key i) ((f (key i)).getD (Request.stored (numbered "value" i))).1) ++
    ((List.range keyCount).map (fun i => updateReply (key i)) ++
    (List.range keyCount).map (fun i => Request.deleteReply (key i)))))

theorem number_warmupLoop {keyCount baseKey : ℕ} :
    ∀ request ∈ [warmupLoop keyCount baseKey], ∀ i, (request i).number = baseKey + keyCount * 10 + i := by
  simp [warmupLoop, Request.number]

theorem number_latencyLoops {baseKey : ℕ} :
    ∀ request ∈ latencyLoops baseKey, ∀ i, (request i).number = baseKey + i := by
  simp [latencyLoops, Request.number]

theorem answer_insert (number : ℕ) (value : List UInt8) (o : Option CStr) :
    (Request.insert number value).answer o =
      (insertAnswer (UInt64.ofNat number) o, some (o.getD (Request.stored value))) := by
  cases o with
  | none => rfl
  | some v => rfl

/-- A thread on its own. -/
theorem serve_worker {n warm base : ℕ} (hbase : base + n * 10 + warm ≤ 2 ^ 64)
    (f : HashKey → Option CStr) :
    let r := serve Request.serve (worker n warm base) f
    r.1 = workerAnswers n warm base f ∧
      (∀ i < warm, r.2 (UInt64.ofNat (base + n * 10 + i)) =
        some ((f (UInt64.ofNat (base + n * 10 + i))).getD (Request.stored (numbered "Warmup:" i)))) ∧
      ∀ i < n, r.2 (UInt64.ofNat (base + i)) = none := by
  have hmain : base + n ≤ 2 ^ 64 := by omega
  have hlt : ∀ i < n, base + i < 2 ^ 64 := fun i hi => by omega
  have hltw : ∀ i < warm, base + n * 10 + i < 2 ^ 64 := fun i hi => by omega
  have hne : ∀ i < n, ∀ j < warm, base + i ≠ base + n * 10 + j := fun i hi j hj => by omega
  obtain ⟨hanswers, hown, hothers⟩ := serve_loops hbase number_warmupLoop
    (f := f) (g := fun i => f (UInt64.ofNat (base + n * 10 + i))) fun _ _ => rfl
  generalize hwarm : (serve Request.serve (loops warm [warmupLoop n base]) f).2 = f' at hown hothers
  obtain ⟨hanswers', hown', hothers'⟩ := serve_loops hmain number_latencyLoops (f := f')
    (g := fun i => f (UInt64.ofNat (base + i))) fun i hi => hothers _ (hlt i hi) (hne i hi)
  -- the loops, seen from a key
  have hkey : ∀ i, (Request.insert (base + i) (numbered "value" i)).answer (f (UInt64.ofNat (base + i))) =
      (insertAnswer (UInt64.ofNat (base + i)) (f (UInt64.ofNat (base + i))),
        some ((f (UInt64.ofNat (base + i))).getD (Request.stored (numbered "value" i)))) := fun i =>
    answer_insert ..
  intro r
  refine ⟨?_, fun i hi => ?_, fun i hi => ?_⟩
  · rw [show r = serve Request.serve (worker n warm base) f from rfl, worker, serve_append_fst, hwarm,
      hanswers, hanswers', workerAnswers]
    simp only [latencyLoops, serve_cons, serve_nil, serveLoop, hkey, warmupLoop, answer_insert,
      List.flatten_cons, List.flatten_nil, List.append_nil]
    rfl
  · rw [show r = serve Request.serve (worker n warm base) f from rfl, worker, serve_append_snd, hwarm,
      hothers' _ (hltw i hi) fun j hj => (hne j hj i hi).symm, hown i hi]
    simp only [serve_cons, serve_nil, serveLoop, warmupLoop, answer_insert]
  · rw [show r = serve Request.serve (worker n warm base) f from rfl, worker, serve_append_snd, hwarm,
      hown' i hi]
    simp only [latencyLoops, serve_cons, serve_nil, serveLoop, hkey]
    rfl

/-! ### Threads of the benchmarks -/

/-- What `auth_user` is answered, and whether the connection is authenticated then. -/
def login (pam : Pam) (username password : List UInt8) : List UInt8 × Bool :=
  handleAuth pam (cstr (username ++ ascii " " ++ password)).1

/-- What a thread sends: `setup_connection`, and then the requests, whatever is answered. -/
def threadLines (username password : List UInt8) (rs : List Request) : List (List UInt8) :=
  authCommand username password :: rs.map fun r => r.choice.command

/-- The lines of a thread.  Each of them is delivered by one read, and nothing fails between the daemon and
the module. -/
structure Sends (username password : List UInt8) (rs : List Request) (inputs : List Input) : Prop where
  lines : inputs.map (fun a => a.chunk.1) = threadLines username password rs
  works : ∀ a ∈ inputs, Works a.env

/-- Lines that are delivered by one read each, when nothing fails. -/
def deliver (lines : List (List UInt8)) (h : ∀ line ∈ lines, line ≠ [] ∧ line.length ≤ 1023) :
    List Input :=
  lines.attach.map fun line => ⟨⟨line.1, h line.1 line.2⟩, .ok⟩

section Sends

variable {pam : Pam} {username password : List UInt8} {rs : List Request} {inputs : List Input}

theorem parseCommand_login {a : Input} (ha : a.chunk.1 = authCommand username password)
    (authenticated : Bool) :
    parseCommand pam a.chunk.command authenticated =
      .answered (login pam username password).1 (authenticated || (login pam username password).2) := by
  have hcommand : a.chunk.command =
      ascii "AUTH" ++ 32 :: (cstr (username ++ ascii " " ++ password)).1 := by
    rw [Chunk.command, ha, authCommand, List.append_assoc, List.append_assoc, ← List.append_assoc username]
    rfl
  rw [hcommand]
  exact parseCommand_auth pam _ authenticated

/-- The credentials have been accepted. -/
theorem login_fst (h : (login pam username password).2 = true) :
    (login pam username password).1 = ascii "OK\n" := by
  unfold login handleAuth at h ⊢
  cases hfirst : token (cstr (username ++ ascii " " ++ password)).1 with
  | none =>
      rw [hfirst] at h
      cases h
  | some p =>
      rw [hfirst] at h
      dsimp only at h ⊢
      cases hsecond : token p.2 with
      | none =>
          rw [hsecond] at h
          cases h
      | some q =>
          rw [hsecond] at h
          dsimp only at h ⊢
          by_cases hpam : pam p.1 q.1 = true
          · rw [if_pos hpam]
          · rw [if_neg hpam] at h
            cases h

theorem sends_deliver (h : ∀ line ∈ threadLines username password rs, line ≠ [] ∧ line.length ≤ 1023) :
    Sends username password rs (deliver (threadLines username password rs) h) where
  lines := by
    rw [deliver, List.map_map]
    exact List.attach_map_subtype_val _
  works := by
    intro a ha
    obtain ⟨line, -, rfl⟩ := List.mem_map.1 ha
    exact ⟨rfl, rfl, rfl⟩

theorem Sends.exists_cons (h : Sends username password rs inputs) : ∃ a as, inputs = a :: as ∧
    a.chunk.1 = authCommand username password ∧
      as.map (fun a => a.chunk.1) = rs.map fun r => r.choice.command :=
  List.map_eq_cons_iff.1 h.lines

/-- A thread asks for the keys of its requests. -/
theorem Sends.mem_used_iff (h : Sends username password rs inputs) (hrs : ∀ r ∈ rs, r.Valid)
    {key : HashKey} : (∃ a ∈ inputs, key ∈ a.used pam) ↔ ∃ r ∈ rs, r.key = key := by
  have hused : ∀ {a : Input} {r : Request}, r ∈ rs → a.chunk.1 = r.choice.command →
      a.used pam = some r.key := by
    intro a r hr hline
    have hparse : parseCommand pam a.chunk.command true = .operation r.cmd r.key r.value := by
      rw [(Request.asks (hrs r hr)).chunk_command hline]
      exact (Request.asks (hrs r hr)).parseCommand pam
    exact Input.mem_used hparse
  obtain ⟨a, as, rfl, hauth, hlines⟩ := h.exists_cons
  constructor
  · rintro ⟨b, hb, hkey⟩
    rcases List.mem_cons.1 hb with rfl | hb
    · rw [Input.used, parseCommand_login hauth] at hkey
      cases hkey
    · have hmem : b.chunk.1 ∈ rs.map fun r => r.choice.command :=
        hlines ▸ List.mem_map_of_mem hb
      obtain ⟨r, hr, hline⟩ := List.mem_map.1 hmem
      rw [hused hr hline.symm] at hkey
      exact ⟨r, hr, Option.some.inj hkey⟩
  · rintro ⟨r, hr, rfl⟩
    have hmem : r.choice.command ∈ as.map fun a => a.chunk.1 :=
      hlines ▸ List.mem_map_of_mem hr
    obtain ⟨b, hb, hline⟩ := List.mem_map.1 hmem
    exact ⟨b, List.mem_cons_of_mem _ hb, hused hr hline⟩

/-- A thread whose credentials are accepted, on its own. -/
theorem Sends.serve (h : Sends username password rs inputs) (hrs : ∀ r ∈ rs, r.Valid)
    (hlogin : (login pam username password).2 = true) (m : KvMap) :
    (Service.serve (serveLine pam) inputs (false, m)).1 =
        ascii "OK\n" :: (Service.serve Request.serve rs m.lookup).1 ∧
      (Service.serve (serveLine pam) inputs (false, m)).2.2.lookup =
        (Service.serve Request.serve rs m.lookup).2 := by
  obtain ⟨a, as, rfl, hauth, hlines⟩ := h.exists_cons
  obtain ⟨hanswers, hlast⟩ := serve_requests pam hrs hlines
    (fun b hb => h.works b (List.mem_cons_of_mem _ hb)) m
  have hfirst : serveLine pam a (false, m) = (ascii "OK\n", true, m) := by
    unfold serveLine
    dsimp only
    rw [parseCommand_login hauth, hlogin, login_fst hlogin]
    rfl
  rw [serve_cons, hfirst]
  exact ⟨congrArg _ hanswers, hlast⟩

end Sends

/-! ### The keys of a thread -/

theorem mem_loops {n : ℕ} {requests : List (ℕ → Request)} {r : Request} :
    r ∈ loops n requests ↔ ∃ request ∈ requests, ∃ i < n, request i = r := by
  simp only [loops, List.mem_flatMap, List.mem_map, List.mem_range]

instance (value : List UInt8) : Decidable (IsValue value) :=
  decidable_of_iff (value ≠ [] ∧ (10 : UInt8) ∉ value ∧ (0 : UInt8) ∉ value)
    ⟨fun h => ⟨h.1, h.2.1, h.2.2⟩, fun h => ⟨h.nonempty, h.line, h.noNul⟩⟩

/-- A short text and a number are a short value. -/
theorem short_numbered {text : String} (htext : IsValue (ascii text) ∧ (ascii text).length ≤ 20) {i : ℕ}
    (hi : i < 2 ^ 64) : IsValue (numbered text i) ∧ (numbered text i).length ≤ 40 := by
  obtain ⟨hvalue, hlength⟩ := htext
  refine ⟨⟨fun h => hvalue.nonempty (List.append_eq_nil_iff.1 h).1, fun h => ?_, fun h => ?_⟩, ?_⟩
  · rcases List.mem_append.1 h with h | h
    · exact hvalue.line h
    · cases isDigit_of_mem_decimal h
  · rcases List.mem_append.1 h with h | h
    · exact hvalue.noNul h
    · cases isDigit_of_mem_decimal h
  · have hdigits : (decimal i).length ≤ 20 := length_decimal_le (by decide) (hi.trans (by decide))
    rw [numbered, List.length_append]
    exact Nat.add_le_add hlength hdigits

/-- A thread stays in its range of keys. -/
theorem number_worker {n warm base : ℕ} {r : Request} (hr : r ∈ worker n warm base) :
    base ≤ r.number ∧ r.number < base + n * 10 + warm := by
  rcases List.mem_append.1 hr with hr | hr
  · obtain ⟨request, hrequest, i, hi, rfl⟩ := mem_loops.1 hr
    rw [number_warmupLoop request hrequest i]
    omega
  · obtain ⟨request, hrequest, i, hi, rfl⟩ := mem_loops.1 hr
    rw [number_latencyLoops request hrequest i]
    omega

/-- A thread asks for keys, with short values. -/
theorem request_worker {n warm base : ℕ} (hbase : base + n * 10 + warm ≤ 2 ^ 64) {r : Request}
    (hr : r ∈ worker n warm base) : r.Valid ∧ r.value.length ≤ 40 := by
  have hnumber : r.number < 2 ^ 64 := (number_worker hr).2.trans_le hbase
  rcases List.mem_append.1 hr with hr | hr
  · obtain ⟨request, hrequest, i, hi, rfl⟩ := mem_loops.1 hr
    obtain rfl := List.mem_singleton.1 hrequest
    obtain ⟨hvalue, hlength⟩ :=
      short_numbered (show IsValue (ascii "Warmup:") ∧ _ by decide) (show i < 2 ^ 64 by omega)
    exact ⟨⟨hnumber, hvalue⟩, hlength⟩
  · obtain ⟨request, hrequest, i, hi, rfl⟩ := mem_loops.1 hr
    have hi : i < 2 ^ 64 := by omega
    simp only [latencyLoops, List.mem_cons, List.not_mem_nil, or_false] at hrequest
    rcases hrequest with rfl | rfl | rfl | rfl
    · obtain ⟨hvalue, hlength⟩ := short_numbered (show IsValue (ascii "value") ∧ _ by decide) hi
      exact ⟨⟨hnumber, hvalue⟩, hlength⟩
    · exact ⟨hnumber, Nat.zero_le _⟩
    · obtain ⟨hvalue, hlength⟩ := short_numbered (show IsValue (ascii "updated_value") ∧ _ by decide) hi
      exact ⟨⟨hnumber, hvalue⟩, hlength⟩
    · exact ⟨hnumber, Nat.zero_le _⟩

theorem warmup_mem_worker {n warm base k : ℕ} (hk : k < warm) :
    warmupLoop n base k ∈ worker n warm base :=
  List.mem_append_left _ (mem_loops.2 ⟨_, List.mem_singleton_self _, k, hk, rfl⟩)

theorem insert_mem_worker {n warm base k : ℕ} (hk : k < n) :
    Request.insert (base + k) (numbered "value" k) ∈ worker n warm base :=
  List.mem_append_right _ (mem_loops.2 ⟨_, List.mem_cons_self .., k, hk, rfl⟩)

theorem length_command (r : Request) : 0 < r.choice.command.length ∧
    r.choice.command.length ≤ 11 + (decimal r.number).length + r.value.length := by
  have hblank : (ascii " ").length = 1 := rfl
  cases r with
  | insert key value =>
      have hname : (ascii "KV_INSERT ").length = 10 := rfl
      simp only [Request.choice, Choice.command, Request.number, Request.value, List.length_append]
      omega
  | get key =>
      have hname : (ascii "KV_GET ").length = 7 := rfl
      simp only [Request.choice, Choice.command, Request.number, List.length_append]
      omega
  | update key value =>
      have hname : (ascii "KV_UPDATE ").length = 10 := rfl
      simp only [Request.choice, Choice.command, Request.number, Request.value, List.length_append]
      omega
  | delete key =>
      have hname : (ascii "KV_DELETE ").length = 10 := rfl
      simp only [Request.choice, Choice.command, Request.number, List.length_append]
      omega

theorem Request.Valid.number_lt {r : Request} (h : r.Valid) : r.number < 2 ^ 64 := by
  cases r with
  | insert key value => exact h.1
  | get key => exact h
  | update key value => exact h.1
  | delete key => exact h

/-- A request for a key with a short value fits into the buffer of the daemon. -/
theorem fits_request {r : Request} (h : r.Valid ∧ r.value.length ≤ 40) :
    r.choice.command ≠ [] ∧ r.choice.command.length ≤ 1023 := by
  have hdigits : (decimal r.number).length ≤ 20 :=
    length_decimal_le (by decide) (h.1.number_lt.trans (by decide))
  obtain ⟨hpos, hle⟩ := length_command r
  have hvalue := h.2
  exact ⟨List.ne_nil_of_length_pos hpos, by omega⟩

/-- The lines of a thread fit into the buffer of the daemon. -/
theorem fits_threadLines {rs : List Request}
    (hrs : ∀ r ∈ rs, r.Valid ∧ r.value.length ≤ 40) {username password : List UInt8}
    (hlength : username.length + password.length ≤ 1000) :
    ∀ line ∈ threadLines username password rs, line ≠ [] ∧ line.length ≤ 1023 := by
  intro line hline
  rcases List.mem_cons.1 hline with rfl | hline
  · have hname : (ascii "AUTH ").length = 5 := rfl
    have hblank : (ascii " ").length = 1 := rfl
    refine ⟨List.ne_nil_of_length_pos ?_, ?_⟩
    all_goals
      simp only [authCommand, List.length_append]
      omega
  · obtain ⟨r, hr, rfl⟩ := List.mem_map.1 hline
    exact fits_request (hrs r hr)

theorem fits_worker {n warm base : ℕ} (hbase : base + n * 10 + warm ≤ 2 ^ 64)
    {username password : List UInt8} (hlength : username.length + password.length ≤ 1000) :
    ∀ line ∈ threadLines username password (worker n warm base), line ≠ [] ∧ line.length ≤ 1023 :=
  fits_threadLines (fun _ hr => request_worker hbase hr) hlength

/-- The keys of requests in disjoint ranges are different. -/
theorem key_ne_of_disjoint {r r' : Request} {a b : ℕ} (hr : r.number < a ∧ a ≤ 2 ^ 64)
    (hr' : b ≤ r'.number ∧ r'.number < 2 ^ 64) (hab : a ≤ b) : r.key ≠ r'.key := by
  intro h
  have hnumber : r.number = r'.number := eq_of_ofNat_eq (hr.1.trans_le hr.2) hr'.2 h
  omega

section Threads

variable {ι : Type} [DecidableEq ι] {w : World H} {m : KvMap} {pam : Pam}
  {username password : List UInt8} {n warm : ℕ} {base : ι → ℕ} {inputs : ι → List Input}

omit [DecidableEq ι] in
/-- Threads in disjoint ranges do not write under each other's keys. -/
theorem apart_of_disjoint (hbase : ∀ i, base i + n * 10 + warm ≤ 2 ^ 64)
    (hdisjoint : ∀ i j, i ≠ j →
      base i + n * 10 + warm ≤ base j ∨ base j + n * 10 + warm ≤ base i)
    (hsends : ∀ i, Sends username password (worker n warm (base i)) (inputs i)) {i j : ι}
    (hij : j ≠ i) : Apart pam (inputs j) (inputs i) := by
  intro b hb key hkey a ha hkey'
  obtain ⟨r, hr, rfl⟩ := ((hsends j).mem_used_iff fun r hr => (request_worker (hbase j) hr).1).1
    ⟨b, hb, b.used_of_written hkey⟩
  obtain ⟨r', hr', hsame⟩ := ((hsends i).mem_used_iff fun r hr => (request_worker (hbase i) hr).1).1
    ⟨a, ha, hkey'⟩
  obtain ⟨hlow, hhigh⟩ := number_worker hr
  obtain ⟨hlow', hhigh'⟩ := number_worker hr'
  rcases hdisjoint i j hij.symm with h | h
  · exact key_ne_of_disjoint ⟨hhigh', hbase i⟩ ⟨hlow, hhigh.trans_le (hbase j)⟩ h hsame
  · exact key_ne_of_disjoint ⟨hhigh, hbase j⟩ ⟨hlow', hhigh'.trans_le (hbase i)⟩ h hsame.symm

/-- Threads in disjoint ranges, however they are scheduled. -/
theorem threads_in_ranges (h : Holds w.store m) (hbase : ∀ i, base i + n * 10 + warm ≤ 2 ^ 64)
    (hdisjoint : ∀ i j, i ≠ j →
      base i + n * 10 + warm ≤ base j ∨ base j + n * 10 + warm ≤ base i)
    (hlogin : (login pam username password).2 = true)
    (hsends : ∀ i, Sends username password (worker n warm (base i)) (inputs i)) (es : List ι) :
    let s := (Server.start inputs w).run pam es
    (∀ i, let answers := ascii "OK\n" :: workerAnswers n warm (base i) m.lookup
      (s.conn i).replies <+: answers ∧
        (6 * (inputs i).length ≤ es.count i →
          (s.conn i).replies = answers ∧
            (∀ k < warm, let key := UInt64.ofNat (base i + n * 10 + k)
              s.world.store.get key =
                some ((m.lookup key).getD (Request.stored (numbered "Warmup:" k)))) ∧
            ∀ k < n, s.world.store.get (UInt64.ofNat (base i + k)) = none)) ∧
      ∀ key, (∀ i, ∀ r ∈ worker n warm (base i), r.key ≠ key) →
        s.world.store.get key = m.lookup key := by
  intro s
  have hvalid : ∀ i, ∀ r ∈ worker n warm (base i), r.Valid := fun i r hr =>
    (request_worker (hbase i) hr).1
  have hused : ∀ i key, (∃ a ∈ inputs i, key ∈ a.used pam) ↔
      ∃ r ∈ worker n warm (base i), r.key = key := fun i key => (hsends i).mem_used_iff (hvalid i)
  have hapart : ∀ i j, j ≠ i → Apart pam (inputs j) (inputs i) := fun i j hj =>
    apart_of_disjoint hbase hdisjoint hsends hj
  refine ⟨fun i => ?_, fun key hkey => ?_⟩
  · obtain ⟨hfirst, hdone⟩ := replies_isolated h (hapart i) es
    obtain ⟨hanswers, hlast⟩ := (hsends i).serve (hvalid i) hlogin m
    obtain ⟨hworker, hwarm, hmain⟩ := serve_worker (hbase i) m.lookup
    rw [hanswers, hworker] at hfirst hdone
    refine ⟨hfirst, fun hes => ?_⟩
    obtain ⟨hreplies, hget⟩ := hdone hes
    -- the keys are those of requests
    have hleft : ∀ r ∈ worker n warm (base i), s.world.store.get r.key =
        (Service.serve Request.serve (worker n warm (base i)) m.lookup).2 r.key := by
      intro r hr
      obtain ⟨a, ha, hkey⟩ := (hused i r.key).2 ⟨r, hr, rfl⟩
      exact (hget a ha r.key hkey).trans (congrFun hlast r.key)
    refine ⟨hreplies, fun k hk => ?_, fun k hk => ?_⟩
    · exact (hleft _ (warmup_mem_worker hk)).trans (hwarm k hk)
    · exact (hleft _ (insert_mem_worker hk)).trans (hmain k hk)
  · refine get_of_unwritten h (fun j a ha hwritten => ?_) es
    obtain ⟨r, hr, hsame⟩ := (hused j key).1 ⟨a, ha, a.used_of_written hwritten⟩
    exact hkey j r hr hsame

end Threads

/-- **The threads of the latency benchmark do not disturb each other**: however the threads of the daemon
are scheduled, and whatever was in the store before, each of them is answered as if it had the store for
itself.  What they insert is deleted, but for the keys that warmed up. -/
theorem latency_bench_multi_thread {ι : Type} [DecidableEq ι] {w : World H} {m : KvMap} {pam : Pam}
    {username password : List UInt8} {keyCount warmupCount : ℕ} {tid : ι → ℕ} {inputs : ι → List Input}
    (h : Holds w.store m) (hcount : keyCount * 10 + warmupCount ≤ 1000000)
    (htid : Function.Injective tid) (hint : ∀ i, tid i * 1000000 + 1000000 ≤ 2 ^ 31)
    (hlogin : (login pam username password).2 = true)
    (hsends : ∀ i, Sends username password (worker keyCount warmupCount (tid i * 1000000)) (inputs i))
    (es : List ι) :
    let s := (Server.start inputs w).run pam es
    (∀ i,
      let answers := ascii "OK\n" :: workerAnswers keyCount warmupCount (tid i * 1000000) m.lookup
      (s.conn i).replies <+: answers ∧
        (6 * (inputs i).length ≤ es.count i →
          (s.conn i).replies = answers ∧
            (∀ k < warmupCount, let key := UInt64.ofNat (tid i * 1000000 + keyCount * 10 + k)
              s.world.store.get key =
                some ((m.lookup key).getD (Request.stored (numbered "Warmup:" k)))) ∧
            ∀ k < keyCount, s.world.store.get (UInt64.ofNat (tid i * 1000000 + k)) = none)) ∧
      ∀ key, (∀ i, ∀ r ∈ worker keyCount warmupCount (tid i * 1000000), r.key ≠ key) →
        s.world.store.get key = m.lookup key := by
  have hbase : ∀ i, tid i * 1000000 + keyCount * 10 + warmupCount ≤ 2 ^ 64 := fun i => calc
    tid i * 1000000 + keyCount * 10 + warmupCount ≤ tid i * 1000000 + 1000000 := by
      rw [Nat.add_assoc]
      exact Nat.add_le_add_left hcount _
    _ ≤ 2 ^ 31 := hint i
    _ ≤ 2 ^ 64 := Nat.pow_le_pow_right (Nat.zero_lt_two) (by decide)
  refine threads_in_ranges h hbase (fun i j hij => ?_) hlogin hsends es
  -- the ranges are a million apart
  rcases Nat.lt_or_gt_of_ne (htid.ne hij) with hlt | hlt
  · left
    omega
  · right
    omega

/-- The threads of the source. -/
theorem range_eightThreads (i : Fin 8) : i.val * 1000000 + 20000 * 10 + 2000 ≤ 2 ^ 64 := by
  have hi := i.isLt
  omega

def eightThreads (i : Fin 8) : List Input :=
  deliver (threadLines (ascii "vboxuser") (ascii "vboxuser") (worker 20000 2000 (i.val * 1000000)))
    (fits_worker (range_eightThreads i) (by decide))

/-- Each of them takes `n` steps, in turns. -/
def eightTurns (n : ℕ) : List (Fin 8) := (List.range n).flatMap fun _ => List.finRange 8

theorem latency_bench_eight_threads :
    let s := (Server.start eightThreads ⟨Store.init HashFn.module, none⟩).run (fun _ _ => true)
      (eightTurns 492006)
    (∀ i,
      let answers := ascii "OK\n" ::
        workerAnswers 20000 2000 (i.val * 1000000) fun key => (∅ : KvMap).lookup key
      (s.conn i).replies <+: answers ∧
        (6 * (eightThreads i).length ≤ (eightTurns 492006).count i →
          (s.conn i).replies = answers ∧
            (∀ k < 2000, let key := UInt64.ofNat (i.val * 1000000 + 20000 * 10 + k)
              s.world.store.get key =
                some (((∅ : KvMap).lookup key).getD (Request.stored (numbered "Warmup:" k)))) ∧
            ∀ k < 20000, s.world.store.get (UInt64.ofNat (i.val * 1000000 + k)) = none)) ∧
      ∀ key, (∀ i : Fin 8, ∀ r ∈ worker 20000 2000 (i.val * 1000000), r.key ≠ key) →
        s.world.store.get key = (∅ : KvMap).lookup key := by
  have hint : ∀ i : Fin 8, i.val * 1000000 + 1000000 ≤ 2 ^ 31 := fun i => by
    have hi := i.isLt
    omega
  have hcount : 20000 * 10 + 2000 ≤ 1000000 := by decide
  have hlogin : (login (fun _ _ => true) (ascii "vboxuser") (ascii "vboxuser")).2 = true := rfl
  have hsends : ∀ i : Fin 8, Sends (ascii "vboxuser") (ascii "vboxuser")
      (worker 20000 2000 (i.val * 1000000)) (eightThreads i) := fun i =>
    sends_deliver (fits_worker (range_eightThreads i) (by decide))
  exact latency_bench_multi_thread (holds_init HashFn.module) hcount Fin.val_injective hint hlogin hsends
    (eightTurns 492006)

end Benchmark
