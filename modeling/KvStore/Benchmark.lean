/-
**One writer and many readers of one key.**

`benchmark/benchmark.cpp` lets one thread write the values `count:0`, `count:1`, … under a key, each
after the answer to the one before, while other threads read the key and take the number out of the
answer again (`check_value`).  It counts the answers that make no sense.  This module proves that there
are none, and that the numbers never go backwards.

The threads' requests are programs over the atomic steps of the hash table: `do_kv_operation` with the
module's handlers in place of the system call.  A run is any interleaving of the steps of the writer,
of the readers and of others who do not write to the key, with any allocations failing.  A `KV_GET` is
one lookup, so it answers with what the key held at one instant; what the key holds never decreases,
and an update that has been acknowledged is in the table.  The rest is a round trip of the number
through `to_string`, the value field, the answer and the digits that `check_value` finds in it.

Main definitions:

* `Benchmark.checkValue` — the number in an answer;
* `Benchmark.HotKey`, `Benchmark.HotKey.step` — the writer, the readers and the store;
* `Benchmark.Writing` — what an update may still do, and what its acknowledgement means;
* `Benchmark.HotKey.Inv` — the invariant.

Main results:

* `Benchmark.checkValue_getReply` — the number is read back from the answer;
* `Benchmark.step_kvGet`, `Benchmark.writing_kvUpdate` — what a read and an update do;
* `Benchmark.reads_whole_and_monotone` — **every answer is whole, none is older than what had been
  acknowledged, and no reader sees the numbers go backwards**.
-/

import KvStore.DaemonCommand

set_option relaxedAutoImplicit false
set_option autoImplicit false

namespace Benchmark

open CMem Text Interleave KvHash KvIoctl Daemon

variable {H : HashFn}

/-! ### The number in an answer -/

/-- The digit loop of `check_value`, on a signed 64-bit integer. -/
def digitsInt64 (digits : List UInt8) : Int64 :=
  digits.foldl (fun v b => v * 10 + Int64.ofNat (b.toNat - 48)) 0

/-- `check_value`: the number after the first `count:`, quotes and blanks skipped. -/
def checkValue (resp : List UInt8) : Option Int64 :=
  match afterFirst (ascii "count:") resp with
  | none => none
  | some rest =>
      let digits := (rest.dropWhile fun b => b = 34 || isSpace b).takeWhile isDigit
      if digits = [] then none else some (digitsInt64 digits)

/-- The value that is written for `n`. -/
def countText (n : ℕ) : List UInt8 := ascii "count:" ++ decimal n

/-- The answer of `KV_GET` to a value. -/
def getReply (key : HashKey) (value : List UInt8) : List UInt8 :=
  ascii "GET(\"" ++ keyStr key ++ ascii "\") " ++ arrow ++ ascii " \"" ++ value ++ ascii "\"\n"

theorem foldl_digitsInt64 (digits : List UInt8) (v : ℕ) :
    digits.foldl (fun v b => v * 10 + Int64.ofNat (b.toNat - 48)) (Int64.ofNat v) =
      Int64.ofNat (digitsFrom v digits) := by
  induction digits generalizing v with
  | nil => rfl
  | cons b digits ih =>
      have hstep : Int64.ofNat v * 10 + Int64.ofNat (b.toNat - 48) =
          Int64.ofNat (v * 10 + (b.toNat - 48)) := by
        rw [Int64.ofNat_add, Int64.ofNat_mul]
        rfl
      rw [List.foldl_cons, hstep, ih]
      rfl

/-- Below `2 ^ 63` the loop computes the number. -/
theorem toInt_digitsInt64 {n : ℕ} (h : n < 2 ^ 63) : (digitsInt64 (decimal n)).toInt = n := by
  have hloop : digitsInt64 (decimal n) = Int64.ofNat n := by
    refine (foldl_digitsInt64 (decimal n) 0).trans ?_
    exact congrArg Int64.ofNat (digitsValue_decimal n)
  rw [hloop]
  exact Int64.toInt_ofNat_of_lt h

/-- The digits of a number are not skipped. -/
theorem dropWhile_decimal (n : ℕ) (rest : List UInt8) :
    (decimal n ++ rest).dropWhile (fun b => b = 34 || isSpace b) = decimal n ++ rest := by
  obtain ⟨b, digits, hdigits⟩ := List.exists_cons_of_ne_nil (decimal_ne_nil n)
  have hb : isDigit b = true := isDigit_of_mem_decimal (by rw [hdigits]; exact List.mem_cons_self ..)
  have hskip : (decide (b = 34) || isSpace b) = false := by
    rw [isSpace_of_isDigit hb, Bool.or_false, decide_eq_false_iff_not]
    rintro rfl
    exact absurd hb (by decide)
  rw [hdigits, List.cons_append, List.dropWhile_cons_of_neg (by simp [hskip])]

/-- There is no `c` in the answer before the value. -/
theorem notMem_before (key : HashKey) :
    (99 : UInt8) ∉ ascii "GET(\"" ++ keyStr key ++ ascii "\") " ++ arrow ++ ascii " \"" := by
  have hkey : (99 : UInt8) ∉ keyStr key := by
    intro hmem
    exact absurd (isDigit_of_mem_decimal hmem) (by decide)
  simp only [List.mem_append, not_or]
  exact ⟨⟨⟨⟨by decide, hkey⟩, by decide⟩, by decide⟩, by decide⟩

/-- The number is read back from the answer. -/
theorem checkValue_getReply (key : HashKey) {n : ℕ} (h : n < 2 ^ 63) :
    (checkValue (getReply key (countText n))).map Int64.toInt = some (n : ℤ) := by
  have hcount : ascii "count:" = 99 :: ascii "ount:" := rfl
  have hreply : getReply key (countText n) =
      (ascii "GET(\"" ++ keyStr key ++ ascii "\") " ++ arrow ++ ascii " \"") ++
        (99 :: ascii "ount:") ++ (decimal n ++ 34 :: ascii "\n") := by
    rw [getReply, countText, hcount, ← List.append_assoc, List.append_assoc _ (decimal n)]
    rfl
  have hdigits : ((decimal n ++ 34 :: ascii "\n").dropWhile
      fun b => b = 34 || isSpace b).takeWhile isDigit = decimal n := by
    rw [dropWhile_decimal, takeWhile_decimal n (by decide)]
  unfold checkValue
  rw [hreply, hcount, afterFirst_append (notMem_before key)]
  dsimp only
  rw [hdigits, if_neg (decimal_ne_nil n), Option.map_some, toInt_digitsInt64 h]

/-! ### The requests -/

/-- `kv_get`, as the module sees it. -/
def kvGet (env : KernelEnv) (text : List UInt8) : Kernel H (List UInt8) :=
  doKvOperation (kvIoctl env) .kvGet text []

/-- `kv_update` with the value for `n`, as the module sees it. -/
def kvUpdate (env : KernelEnv) (text : List UInt8) (n : ℕ) : Kernel H (List UInt8) :=
  doKvOperation (kvIoctl env) .kvUpdate text (countText n)

/-- The acknowledgement of an update. -/
def updateReply (key : HashKey) : List UInt8 :=
  ascii "UPDATE(\"" ++ keyStr key ++ ascii "\") succeeded\n"

/-- A read is one step: it answers with what the key holds at that instant. -/
theorem step_kvGet {env : KernelEnv} {text : List UInt8} {key : HashKey}
    (hkey : parseKey text = some key) (hin : env.copyFromUser = true) (hout : env.copyToUser = true)
    (alloc : Alloc) {s : Store H} {value : CStr} (hvalue : s.get key = some value)
    (hlen : value.1.length < MAX_VALUE_LEN) :
    (kvGet env text).step (exec alloc) s = (.ret (getReply key value.1), s) := by
  have hcstr : cstr (memcpy (zeros MAX_VALUE_LEN) (value.1 ++ [0])).1 = value := by
    have hread := cstr_memcpy_zeros hlen []
    rwa [List.append_nil] at hread
  have hpos : ¬ (value.1.length : ℤ) < 0 := by omega
  have hlook := s.lookup_eq key (zeros MAX_VALUE_LEN)
  rw [hvalue] at hlook
  simp only [if_pos hlen] at hlook
  have hmsg : (requestMessage key []).key = key := rfl
  simp only [kvGet, doKvOperation_kvIoctl hin hkey, dispatch, handleGet, lookup, Prog.call_bind,
    Prog.ret_bind, Prog.step_call, exec, hmsg, hlook, if_neg hpos, Prog.pure_eq, clientReply, hout,
    Bool.true_eq_false, lt_irrefl, or_self, if_false, response, if_true, hcstr]
  simp only [getReply, List.append_assoc]
  rfl

/-- The value that is written for `n`, as a string. -/
def countStr (n : ℕ) : CStr := ⟨countText n, by
  have hdigits : (0 : UInt8) ∉ decimal n := fun hmem =>
    absurd (isDigit_of_mem_decimal hmem) (by decide)
  rw [countText, List.mem_append, not_or]
  exact ⟨by decide, hdigits⟩⟩

theorem length_countStr {n : ℕ} (h : n < 2 ^ 63) : (countStr n).1.length ≤ 25 := by
  have hdigits : (decimal n).length ≤ 19 := length_decimal_le (by decide) (h.trans (by decide))
  have hlen : (countStr n).1.length = 6 + (decimal n).length := List.length_append
  omega

/-- The value fits into a message. -/
theorem cstr_countText {n : ℕ} (h : n < 2 ^ 63) : (cstr (countText n)).truncate 63 = countStr n := by
  have hcstr : cstr (countText n) = countStr n := Subtype.ext (val_cstr_of_notMem (countStr n).2)
  rw [hcstr, CStr.truncate_of_le]
  exact (length_countStr h).trans (by decide)

/-- What is left of an update of `key` to `value` only looks keys up and adds the value, and it does
not end with the acknowledgement unless the value has been added; `done` says whether it has. -/
def Writing (key : HashKey) (value : CStr) : Bool → Kernel H (List UInt8) → Prop
  | done, .ret reply => reply = updateReply key → done = true
  | done, .call (.lookup _ _) k => ∀ r, Writing key value done (k r)
  | _, .call (.add key' bytes) k =>
      key' = key ∧ cstr bytes = value ∧ Writing key value true (k (0 : ℤ)) ∧
        Writing key value false (k (-ENOMEM))
  | _, .call (.remove _) _ => False
  | _, .call (.visit _) _ => False

/-- Only an update with status 0 is acknowledged. -/
theorem status_of_updateReply {msg : KvMessage}
    (h : response .kvUpdate msg = updateReply msg.key) : msg.status = 0 := by
  by_contra hstatus
  simp only [response, if_neg hstatus, updateReply] at h
  have hcall : ascii "UPDATE(\"" ++ keyStr msg.key ++ ascii "\") succeeded\n" =
      (ascii "UPDATE" ++ ascii "(\"" ++ keyStr msg.key ++ ascii "\")") ++ ascii " succeeded\n" := by
    rw [List.append_assoc _ (ascii "\")")]
    rfl
  rw [hcall, List.append_assoc (ascii " failed (status=")] at h
  exact failed_ne_succeeded _ _ h

theorem ioctlFailed_ne_updateReply (key : HashKey) : ascii "ioctl failed" ≠ updateReply key := by
  intro h
  have hhead := congrArg (List.take 1) h
  rw [updateReply, List.append_assoc, List.take_append_of_le_length (by decide)] at hhead
  exact absurd hhead (by decide)

theorem writing_clientReply {env : KernelEnv} {key : HashKey} {value : CStr} {done : Bool}
    (msg : KvMessage) (hkey : msg.key = key) (h : msg.status = 0 → done = true) :
    Writing key value done (.ret (clientReply env .kvUpdate (0, msg)) : Kernel H (List UInt8)) := by
  intro hreply
  subst hkey
  unfold clientReply at hreply
  split at hreply
  · exact absurd hreply (ioctlFailed_ne_updateReply _)
  · exact h (status_of_updateReply hreply)

theorem writing_addAndReply {env : KernelEnv} {key : HashKey} {value : CStr} {msg : KvMessage}
    (hkey : msg.key = key) (hvalue : cstr (msg.value.1 ++ env.stack) = value) (failed : List UInt8) :
    Writing key value false
      (addAndReply env msg failed >>= fun r => .ret (clientReply env .kvUpdate r) :
        Kernel H (List UInt8)) := by
  refine ⟨hkey, hvalue, ?_, ?_⟩
  · exact writing_clientReply { msg with status := 0 } hkey fun _ => rfl
  · refine writing_clientReply
      { msg with status := Int32.ofInt (-ENOMEM), value := snprintf msg.value failed } hkey ?_
    intro hstatus
    exact absurd (show Int32.ofInt (-ENOMEM) = 0 from hstatus) (by decide)

/-- An update adds its value before it is acknowledged. -/
theorem writing_kvUpdate (env : KernelEnv) {text : List UInt8} {key : HashKey}
    (hkey : parseKey text = some key) {n : ℕ} (h : n < 2 ^ 63) :
    Writing key (countStr n) false (kvUpdate env text n : Kernel H (List UInt8)) := by
  cases hin : env.copyFromUser with
  | false =>
      simp only [kvUpdate, doKvOperation, hkey, kvIoctl, handleKvMessage, hin, Bool.not_false, if_true]
      intro hreply
      exact absurd hreply (ioctlFailed_ne_updateReply key)
  | true =>
      have hvalue : cstr ((requestMessage key (countText n)).value.1 ++ env.stack) = countStr n := by
        rw [cstr_requestMessage, cstr_countText h]
      rw [kvUpdate, doKvOperation_kvIoctl hin hkey]
      simp only [dispatch, handleUpdate, lookup, Prog.call_bind, Prog.ret_bind]
      intro r
      dsimp only
      split
      · -- the key is not found
        refine writing_clientReply { requestMessage key (countText n) with
          status := 1, value := snprintf _ _ } rfl ?_
        intro hstatus
        exact absurd (show (1 : Int32) = 0 from hstatus) (by decide)
      · exact writing_addAndReply rfl hvalue _

/-! ### The writer, the readers and the others -/

/-- An answer to a reader. -/
structure Answer where
  reply : List UInt8
  /-- the last number that had been acknowledged when the request was made -/
  acked : ℕ
  /-- how many numbers the writer had begun to write when the answer was given -/
  started : ℕ

/-- A reader: the request under way, with the last number acknowledged before it, and the answers to
the requests before. -/
structure Reader (H : HashFn) where
  running : Option (Kernel H (List UInt8) × ℕ)
  answers : List Answer

/-- The threads of the benchmark. -/
structure HotKey (ρ : Type) (H : HashFn) where
  store : Store H
  /-- how many numbers the writer has begun to write -/
  started : ℕ
  /-- what is left of the update under way -/
  writer : Option (Kernel H (List UInt8))
  /-- the last number that has been acknowledged -/
  acked : ℕ
  reader : ρ → Reader H

/-- What happens in the benchmark: the writer makes its next request, or takes a step of the one under
way; a reader does so; another thread takes a step. -/
inductive HotKeyEvent (ρ : Type) (H : HashFn)
  | startUpdate (env : KernelEnv)
  | stepWriter (alloc : Alloc)
  | startGet (i : ρ) (env : KernelEnv)
  | stepReader (i : ρ) (alloc : Alloc)
  | other (alloc : Alloc) (op : Op H)

/-- Nobody but the writer writes to the key, and the readers' messages are copied. -/
def HotKeyEvent.Admissible {ρ : Type} (key : HashKey) : HotKeyEvent ρ H → Prop
  | .startGet _ env => env.copyFromUser = true ∧ env.copyToUser = true
  | .other _ op => ¬ op.Writes key
  | _ => True

namespace HotKey

variable {ρ : Type} [DecidableEq ρ]

/-- The benchmark before it starts. -/
def start (s : Store H) : HotKey ρ H where
  store := s
  started := 0
  writer := none
  acked := 0
  reader := fun _ => ⟨none, []⟩

/-- The writer's next request. -/
def startUpdate (text : List UInt8) (s : HotKey ρ H) (env : KernelEnv) : HotKey ρ H :=
  match s.writer with
  | some _ => s
  | none =>
      if s.started < 2 ^ 63 then
        { s with started := s.started + 1, writer := some (kvUpdate env text s.started) }
      else s

/-- A step of the writer's request, or its end. -/
def stepWriter (key : HashKey) (s : HotKey ρ H) (alloc : Alloc) : HotKey ρ H :=
  match s.writer with
  | none => s
  | some (.ret reply) =>
      { s with
        writer := none
        acked := if reply = updateReply key then s.started - 1 else s.acked }
  | some (.call op k) =>
      { s with
        store := (exec alloc op s.store).2
        writer := some (k (exec alloc op s.store).1) }

/-- A reader's next request. -/
def startGet (text : List UInt8) (s : HotKey ρ H) (i : ρ) (env : KernelEnv) : HotKey ρ H :=
  match (s.reader i).running with
  | some _ => s
  | none =>
      { s with
        reader := Function.update s.reader i
          { s.reader i with running := some (kvGet env text, s.acked) } }

/-- A step of a reader's request, or its end. -/
def stepReader (s : HotKey ρ H) (i : ρ) (alloc : Alloc) : HotKey ρ H :=
  match (s.reader i).running with
  | none => s
  | some (.ret reply, acked) =>
      { s with
        reader := Function.update s.reader i
          { running := none, answers := (s.reader i).answers ++ [⟨reply, acked, s.started⟩] } }
  | some (.call op k, acked) =>
      { s with
        store := (exec alloc op s.store).2
        reader := Function.update s.reader i
          { s.reader i with running := some (k (exec alloc op s.store).1, acked) } }

/-- One event of the benchmark on `key`, which the clients write as `text`. -/
def step (key : HashKey) (text : List UInt8) (s : HotKey ρ H) : HotKeyEvent ρ H → HotKey ρ H
  | .startUpdate env => s.startUpdate text env
  | .stepWriter alloc => s.stepWriter key alloc
  | .startGet i env => s.startGet text i env
  | .stepReader i alloc => s.stepReader i alloc
  | .other alloc op => { s with store := (exec alloc op s.store).2 }

/-- The benchmark after some events. -/
def run (key : HashKey) (text : List UInt8) (s : HotKey ρ H) (es : List (HotKeyEvent ρ H)) :
    HotKey ρ H :=
  Machine.run (step key text) s es

end HotKey

/-! ### The invariant -/

/-- The answer shows the number `n`, which the writer had begun to write, and which is not older than
what had been acknowledged. -/
structure Answer.Shows (key : HashKey) (a : Answer) (n : ℕ) : Prop where
  reply : a.reply = getReply key (countText n)
  lt : n < 2 ^ 63
  begun : n = 0 ∨ n < a.started
  acked : a.acked ≤ n

/-- The request under way has not looked the key up yet, or it has found a number between what had been
acknowledged and what the key holds now. -/
inductive Reading (key : HashKey) (text : List UInt8) (m : ℕ) (ns : List ℕ) :
    Kernel H (List UInt8) × ℕ → Prop
  | asked (env : KernelEnv) (hin : env.copyFromUser = true) (hout : env.copyToUser = true) (acked : ℕ)
      (hacked : acked ≤ m) : Reading key text m ns (kvGet env text, acked)
  | found (n acked : ℕ) (hacked : acked ≤ n) (hn : n ≤ m) (hns : ∀ n' ∈ ns, n' ≤ n) :
      Reading key text m ns (.ret (getReply key (countText n)), acked)

/-- The reader has seen the numbers `ns`, when the key holds the number `m`. -/
structure Reader.Inv (key : HashKey) (text : List UInt8) (m : ℕ) (ns : List ℕ) (r : Reader H) :
    Prop where
  shows : List.Forall₂ (Answer.Shows key) r.answers ns
  sorted : ns.Pairwise (· ≤ ·)
  le : ∀ n ∈ ns, n ≤ m
  running : ∀ p, r.running = some p → Reading key text m ns p

/-- The invariant of the benchmark, when the key holds the number `m`. -/
structure HotKey.Inv {ρ : Type} (key : HashKey) (text : List UInt8) (m : ℕ) (s : HotKey ρ H) : Prop where
  value : s.store.get key = some (countStr m)
  lt : m < 2 ^ 63
  begun : m = 0 ∨ m < s.started
  started : s.started ≤ 2 ^ 63
  acked : s.acked ≤ m
  writer : ∀ p, s.writer = some p → 0 < s.started ∧ ∃ done,
    Writing key (countStr (s.started - 1)) done p ∧ (done = true → m = s.started - 1)
  reader : ∀ i, ∃ ns, (s.reader i).Inv key text m ns

theorem Reading.mono {key : HashKey} {text : List UInt8} {m m' : ℕ} {ns : List ℕ}
    {p : Kernel H (List UInt8) × ℕ} (h : Reading key text m ns p) (hm : m ≤ m') :
    Reading key text m' ns p := by
  cases h with
  | asked env hin hout acked hacked => exact .asked env hin hout acked (hacked.trans hm)
  | found n acked hacked hn hns => exact .found n acked hacked (hn.trans hm) hns

theorem Reader.Inv.mono {key : HashKey} {text : List UInt8} {m m' : ℕ} {ns : List ℕ} {r : Reader H}
    (h : r.Inv key text m ns) (hm : m ≤ m') : r.Inv key text m' ns where
  shows := h.shows
  sorted := h.sorted
  le := fun n hn => (h.le n hn).trans hm
  running := fun p hp => (h.running p hp).mono hm

/-- The answers of a reader whose request has come to its end. -/
theorem Reader.Inv.answered {key : HashKey} {text : List UInt8} {m : ℕ} {ns : List ℕ} {r : Reader H}
    (h : r.Inv key text m ns) {n acked started : ℕ} (hm : m < 2 ^ 63) (hbegun : m = 0 ∨ m < started)
    (hacked : acked ≤ n) (hn : n ≤ m) (hns : ∀ n' ∈ ns, n' ≤ n) :
    Reader.Inv (H := H) key text m (ns ++ [n])
      ⟨none, r.answers ++ [⟨getReply key (countText n), acked, started⟩]⟩ where
  shows := by
    have hshows : Answer.Shows key ⟨getReply key (countText n), acked, started⟩ n :=
      ⟨rfl, by omega, show n = 0 ∨ n < started by omega, hacked⟩
    exact List.rel_append h.shows (.cons hshows .nil)
  sorted := by
    rw [List.pairwise_append]
    refine ⟨h.sorted, List.pairwise_singleton _ _, ?_⟩
    intro n' hn' n'' hn''
    rw [List.mem_singleton.1 hn'']
    exact hns n' hn'
  le := by
    intro n' hn'
    rcases List.mem_append.1 hn' with hold | hnew
    · exact h.le n' hold
    · rw [List.mem_singleton.1 hnew]
      exact hn
  running := nofun

/-- A reader whose request goes on. -/
theorem Reader.Inv.request {key : HashKey} {text : List UInt8} {m : ℕ} {ns : List ℕ} {r : Reader H}
    (h : r.Inv key text m ns) {p : Kernel H (List UInt8) × ℕ} (hp : Reading key text m ns p) :
    Reader.Inv key text m ns { r with running := some p } where
  shows := h.shows
  sorted := h.sorted
  le := h.le
  running := by
    rintro p ⟨⟩
    exact hp

namespace HotKey.Inv

variable {ρ : Type} {key : HashKey} {text : List UInt8} {m : ℕ} {s : HotKey ρ H}

theorem startUpdate (h : s.Inv key text m) (hkey : parseKey text = some key) (env : KernelEnv) :
    (s.startUpdate text env).Inv key text m := by
  unfold HotKey.startUpdate
  cases hwriter : s.writer with
  | some p => exact h
  | none =>
      dsimp only
      split
      · rename_i hlt
        have hbegun := h.begun
        refine ⟨h.value, h.lt, ?_, ?_, h.acked, ?_, h.reader⟩
        · dsimp only
          omega
        · exact hlt
        · rintro p ⟨⟩
          exact ⟨Nat.succ_pos _, false, writing_kvUpdate env hkey hlt, nofun⟩
      · exact h

/-- A step of the writer's request leaves the number under the key as it is, or puts the number of the
request there. -/
theorem stepWriter (h : s.Inv key text m) (alloc : Alloc) :
    ∃ m', (s.stepWriter key alloc).Inv key text m' := by
  unfold HotKey.stepWriter
  cases hwriter : s.writer with
  | none => exact ⟨m, h⟩
  | some p =>
      obtain ⟨hpos, done, hwriting, hdone⟩ := h.writer p hwriter
      have hbegun := h.begun
      have hstarted := h.started
      cases p with
      | ret reply =>
          refine ⟨m, h.value, h.lt, h.begun, h.started, ?_, nofun, h.reader⟩
          dsimp only
          split
          · rename_i hreply
            exact (hdone (hwriting hreply)).ge
          · exact h.acked
      | call op k =>
          cases op with
          | lookup key' outBuf =>
              refine ⟨m, h.value, h.lt, h.begun, h.started, h.acked, ?_, h.reader⟩
              rintro p ⟨⟩
              exact ⟨hpos, done, hwriting _, hdone⟩
          | add key' bytes =>
              obtain ⟨rfl, hbytes, hok, hfail⟩ := hwriting
              have hget := s.store.get_add key' bytes alloc key'
              have hret := s.store.add_fst key' bytes alloc
              cases hadmits : alloc.admits s.store.1 key' with
              | false =>
                  -- no memory: the old number stays
                  rw [hadmits] at hget hret
                  refine ⟨m, hget.trans h.value, h.lt, h.begun, h.started, h.acked, ?_, h.reader⟩
                  rintro p ⟨⟩
                  refine ⟨hpos, false, ?_, nofun⟩
                  simp only [exec, hret]
                  exact hfail
              | true =>
                  rw [hadmits, hbytes] at hget
                  rw [hadmits] at hret
                  -- numbers only grow, since the writer has one request at a time
                  have hle : m ≤ s.started - 1 := by omega
                  refine ⟨s.started - 1, hget.trans (if_pos ⟨rfl, rfl⟩), ?_, ?_, h.started,
                    h.acked.trans hle, ?_, ?_⟩
                  · omega
                  · dsimp only
                    omega
                  · rintro p ⟨⟩
                    refine ⟨hpos, true, ?_, fun _ => rfl⟩
                    simp only [exec, hret]
                    exact hok
                  · intro i
                    obtain ⟨ns, hns⟩ := h.reader i
                    exact ⟨ns, hns.mono hle⟩
          | remove key' => exact hwriting.elim
          | visit b => exact hwriting.elim

variable [DecidableEq ρ]

/-- What the readers must keep when one of them takes a step. -/
theorem of_reader (h : s.Inv key text m) {i : ρ} {r : Reader H} {ns : List ℕ}
    (hr : r.Inv key text m ns) {store : Store H} (hstore : store.get key = s.store.get key) :
    ({ s with store := store, reader := Function.update s.reader i r } : HotKey ρ H).Inv key text m where
  value := hstore.trans h.value
  lt := h.lt
  begun := h.begun
  started := h.started
  acked := h.acked
  writer := h.writer
  reader := by
    intro j
    dsimp only
    by_cases hj : j = i
    · subst hj
      rw [Function.update_self]
      exact ⟨ns, hr⟩
    · rw [Function.update_of_ne hj]
      exact h.reader j

theorem startGet (h : s.Inv key text m) (i : ρ) {env : KernelEnv} (hin : env.copyFromUser = true)
    (hout : env.copyToUser = true) : (s.startGet text i env).Inv key text m := by
  unfold HotKey.startGet
  cases hrun : (s.reader i).running with
  | some p => exact h
  | none =>
      obtain ⟨ns, hns⟩ := h.reader i
      exact h.of_reader (hns.request (.asked env hin hout s.acked h.acked)) rfl

/-- A step of a reader's request, from where it is. -/
theorem stepReader (h : s.Inv key text m) (hkey : parseKey text = some key) (i : ρ) (alloc : Alloc) :
    (s.stepReader i alloc).Inv key text m := by
  unfold HotKey.stepReader
  cases hrun : (s.reader i).running with
  | none => exact h
  | some p =>
      obtain ⟨ns, hns⟩ := h.reader i
      have hreading := hns.running p hrun
      obtain ⟨p, acked⟩ := p
      cases hreading with
      | found n acked hacked hn hle =>
          exact h.of_reader (hns.answered h.lt h.begun hacked hn hle) rfl
      | asked env hin hout acked hacked =>
          have hlen : (countStr m).1.length < MAX_VALUE_LEN :=
            (length_countStr h.lt).trans_lt (by decide)
          have hstep := step_kvGet hkey hin hout alloc h.value hlen
          cases hget : (kvGet env text : Kernel H (List UInt8)) with
          | ret reply =>
              -- this does not happen, but it would be no harm
              rw [hget, Prog.step_ret, Prod.mk.injEq, Prog.ret.injEq] at hstep
              rw [hstep.1]
              exact h.of_reader (hns.answered h.lt h.begun hacked le_rfl hns.le) rfl
          | call op k =>
              rw [hget, Prog.step_call, Prod.mk.injEq] at hstep
              dsimp only
              rw [hstep.1, hstep.2]
              exact h.of_reader (hns.request (.found m acked hacked le_rfl hns.le)) rfl

/-- Some number under the key makes the invariant hold after every admissible event. -/
theorem step (h : s.Inv key text m) (hkey : parseKey text = some key) {e : HotKeyEvent ρ H}
    (he : e.Admissible key) : ∃ m', (s.step key text e).Inv key text m' := by
  cases e with
  | startUpdate env => exact ⟨m, h.startUpdate hkey env⟩
  | stepWriter alloc => exact h.stepWriter alloc
  | startGet i env => exact ⟨m, h.startGet i he.1 he.2⟩
  | stepReader i alloc => exact ⟨m, h.stepReader hkey i alloc⟩
  | other alloc op =>
      have hget := @get_exec_of_not_writes H alloc op key he s.store
      exact ⟨m, hget.trans h.value, h.lt, h.begun, h.started, h.acked, h.writer, h.reader⟩

end HotKey.Inv

theorem HotKey.inv_start {ρ : Type} {key : HashKey} {s : Store H} (text : List UInt8)
    (h : s.get key = some (countStr 0)) : (HotKey.start s : HotKey ρ H).Inv key text 0 where
  value := h
  lt := by decide
  begun := .inl rfl
  started := Nat.zero_le _
  acked := le_rfl
  writer := nofun
  reader := fun _ => ⟨[], .nil, .nil, nofun, nofun⟩

/-- **Reads are whole and never go backwards.**  Let a key hold `count:0`, let one writer update it to
`count:0`, `count:1`, … (below `2 ^ 63`), each after the answer to the one before, and let readers get
it, while others do anything to other keys.  In every interleaving of the atomic steps and whatever
allocations fail, `check_value` accepts every answer that a reader has got; the number it yields is the
first one or one that the writer had begun to write, and not less than the last one that had been
acknowledged before the request; and the numbers of each reader do not decrease. -/
theorem reads_whole_and_monotone {ρ : Type} [DecidableEq ρ] {key : HashKey} {text : List UInt8}
    (hkey : parseKey text = some key) {s : Store H}
    (hs : (s.get key).map Subtype.val = some (ascii "count:0"))
    {es : List (HotKeyEvent ρ H)} (hes : ∀ e ∈ es, e.Admissible key) (i : ρ) :
    ∃ ns : List ℕ, List.Forall₂
        (fun (a : Answer) (n : ℕ) => (checkValue a.reply).map Int64.toInt = some (n : ℤ) ∧
          (n = 0 ∨ n < a.started) ∧ a.acked ≤ n)
        (((HotKey.start s).run key text es).reader i).answers ns ∧
      ns.Pairwise (· ≤ ·) := by
  have hvalue : s.get key = some (countStr 0) := by
    obtain ⟨v, hv, htext⟩ := Option.map_eq_some_iff.1 hs
    rw [hv]
    exact congrArg some (Subtype.ext htext)
  obtain ⟨m, hm⟩ : ∃ m, ((HotKey.start s : HotKey ρ H).run key text es).Inv key text m := by
    refine Machine.run_invariant (HotKey.step key text) (fun t => ∃ m, t.Inv key text m)
      ⟨0, HotKey.inv_start text hvalue⟩ ?_
    rintro e he t ⟨m, hm⟩
    exact hm.step hkey (hes e he)
  obtain ⟨ns, hns⟩ := hm.reader i
  refine ⟨ns, hns.shows.imp ?_, hns.sorted⟩
  intro a n ha
  refine ⟨?_, ha.begun, ha.acked⟩
  rw [ha.reply]
  exact checkValue_getReply key ha.lt

/-- A small table that holds `count:0` under key 7. -/
def hotStore : Store twoBuckets :=
  (ioctl (.ok (.message .kvInsert (requestMessage 7 (ascii "count:0")))) (Store.init _)).2

/-- The reader is answered between the two steps of the second update, and again after it. -/
def hotEvents : List (HotKeyEvent Unit twoBuckets) :=
  [.startUpdate .ok, .stepWriter .ok, .stepWriter .ok, .stepWriter .ok, .startUpdate .ok,
    .startGet () .ok, .stepWriter .ok, .stepReader () .ok, .stepWriter .ok, .stepReader () .ok,
    .startGet () .ok, .stepReader () .ok, .stepReader () .ok]

theorem reads_hotEvents :
    (((HotKey.start hotStore).run 7 (ascii "7") hotEvents).reader ()).answers.map Answer.reply =
        [getReply 7 (ascii "count:0"), getReply 7 (ascii "count:1")] ∧
      ∃ ns : List ℕ, List.Forall₂
          (fun (a : Answer) (n : ℕ) => (checkValue a.reply).map Int64.toInt = some (n : ℤ) ∧
            (n = 0 ∨ n < a.started) ∧ a.acked ≤ n)
          (((HotKey.start hotStore).run 7 (ascii "7") hotEvents).reader ()).answers ns ∧
        ns.Pairwise (· ≤ ·) := by
  refine ⟨by decide +kernel, reads_whole_and_monotone (by decide +kernel) (by decide +kernel) ?_ ()⟩
  simp [hotEvents, HotKeyEvent.Admissible, KernelEnv.ok]

end Benchmark
