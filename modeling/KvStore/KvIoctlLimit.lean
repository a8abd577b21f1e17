/-
**Which values get past the limit of 64 bytes.**

A message carries its value in a field of 64 bytes, and a lookup has room for 63 bytes and a
terminator.  `_handle_insert` makes a terminated copy of the field and then hands `kv_hash_add` the
field itself, as `_handle_update` does from the start.  When the field holds no terminator, the copy
that `kstrdup` makes runs on into whatever lies behind the message on the kernel stack: the stored
value has at least 64 bytes, and no later lookup of the key succeeds.

This module is about runs of arbitrary ioctls, with failing copies and allocations and without any
assumption on the messages.

Main definitions:

* `KvIoctl.IoctlCall.Stores` — the call stores the value of its message;
* `KvIoctl.WithinLimit` — the stored values are short, and each was submitted;
* `KvIoctl.Retrievable` — an acknowledged insertion or update is found by the next `KV_GET`.

Main results:

* `KvIoctl.get_ioctl_of_stores`, `KvIoctl.get_ioctl_cases` — what one ioctl does to a key;
* `KvIoctl.withinLimit_serve_iff` — **the limit is kept** along a run exactly when every call of it
  that stores a value carries a terminator.
-/

import KvStore.KvIoctl
import KvStore.Service

set_option relaxedAutoImplicit false
set_option autoImplicit false

namespace KvIoctl

open CMem Interleave KvHash Service

variable {H : HashFn}

/-! ### One ioctl -/

/-- The call stores the value of the message `arg`: it is an insertion of a key that is not found or
an update of one that is, the message is copied in, and memory is found. -/
structure IoctlCall.Stores (c : IoctlCall) (arg : KvMessage) (s : Store H) : Prop where
  copyFromUser : c.env.copyFromUser = true
  admits : c.alloc.admits s.1 arg.key = true
  ioctl : (c.ioctl = .message .kvInsert arg ∧ s.found arg.key = false) ∨
    (c.ioctl = .message .kvUpdate arg ∧ s.found arg.key = true)

/-- A call that stores a value is an addition. -/
theorem snd_ioctl_of_stores {c : IoctlCall} {arg : KvMessage} {s : Store H} (h : c.Stores arg s) :
    (ioctl c s).2 = (s.add arg.key (arg.value.1 ++ c.env.stack) c.alloc).2 := by
  rcases h.ioctl with ⟨hc, hf⟩ | ⟨hc, hf⟩
  · rw [ioctl_snd, hc]
    simp only [h.copyFromUser, dispatch, run_handleInsert, hf, run_addAndReply, Bool.true_eq_false,
      Bool.false_eq_true, if_false]
  · rw [ioctl_snd, hc]
    simp only [h.copyFromUser, dispatch, run_handleUpdate, hf, run_addAndReply, Bool.true_eq_false,
      if_false, if_true]

/-- What a call that stores a value stores. -/
theorem get_ioctl_of_stores {c : IoctlCall} {arg : KvMessage} {s : Store H} (h : c.Stores arg s) :
    (ioctl c s).2.get arg.key = some (cstr (arg.value.1 ++ c.env.stack)) := by
  rw [snd_ioctl_of_stores h, Store.get_add, if_pos ⟨h.admits, rfl⟩]

/-- What a call that stores a terminated value does to the table. -/
theorem get_ioctl_of_stored {c : IoctlCall} {arg : KvMessage} {s : Store H} (h : c.Stores arg s)
    (hnul : 0 ∈ arg.value.1) (key : HashKey) :
    (ioctl c s).2.get key = if key = arg.key then some (cstr arg.value.1) else s.get key := by
  rw [snd_ioctl_of_stores h, Store.get_add, cstr_append hnul]
  simp only [h.admits, true_and]

/-- What a deletion does to the table. -/
theorem get_ioctl_delete {c : IoctlCall} {arg : KvMessage} (hc : c.ioctl = .message .kvDelete arg)
    (hin : c.env.copyFromUser = true) (s : Store H) (key : HashKey) :
    (ioctl c s).2.get key = if key = arg.key then none else s.get key := by
  rw [ioctl_snd, hc]
  simp only [hin, Bool.true_eq_false, if_false, dispatch, run_handleDelete, Store.get_remove]

/-- An ioctl that is no message changes nothing. -/
theorem ioctl_snd_of_not_message {c : IoctlCall} (h : ∀ cmd arg, c.ioctl ≠ .message cmd arg)
    (s : Store H) : (ioctl c s).2 = s := by
  rw [ioctl_snd]
  rcases hc : c.ioctl with ⟨cmd, arg⟩ | arg | arg
  · exact absurd hc (h cmd arg)
  · rfl
  · rfl

/-- The addition at the end of a handler stores the value under its own key, or nothing. -/
theorem get_addAndReply_cases (env : KernelEnv) (alloc : Alloc) (msg : KvMessage)
    (failed : List UInt8) (s : Store H) (key : HashKey) :
    ((addAndReply env msg failed).run (exec alloc) s).2.get key = s.get key ∨
      (key = msg.key ∧ alloc.admits s.1 msg.key = true) := by
  rw [run_addAndReply, Store.get_add]
  by_cases h : alloc.admits s.1 msg.key = true ∧ key = msg.key
  · exact .inr ⟨h.2, h.1⟩
  · exact .inl (if_neg h)

/-- What an ioctl may do to a key: nothing, remove it, or store a value under it. -/
theorem get_ioctl_cases (c : IoctlCall) (s : Store H) (key : HashKey) :
    (ioctl c s).2.get key = s.get key ∨
      ((ioctl c s).2.get key = none ∧ ∃ arg, c.ioctl = .message .kvDelete arg ∧ key = arg.key) ∨
      ∃ arg, c.Stores arg s ∧ key = arg.key := by
  rcases hc : c.ioctl with ⟨cmd, arg⟩ | arg | arg
  · cases hin : c.env.copyFromUser with
    | false => exact .inl (by rw [ioctl_snd, hc]; simp [hin])
    | true =>
        have hsnd : (ioctl c s).2 = ((dispatch c.env cmd arg).run (exec c.alloc) s).2 := by
          rw [ioctl_snd, hc]
          simp [hin]
        rw [hsnd]
        cases cmd with
        | kvInsert =>
            rw [dispatch, run_handleInsert]
            cases hf : s.found arg.key with
            | true => exact .inl rfl
            | false =>
                rcases get_addAndReply_cases c.env c.alloc arg _ s key with h | ⟨hkey, hadm⟩
                · exact .inl h
                · exact .inr (.inr ⟨arg, ⟨hin, hadm, .inl ⟨hc, hf⟩⟩, hkey⟩)
        | kvUpdate =>
            rw [dispatch, run_handleUpdate]
            cases hf : s.found arg.key with
            | false => exact .inl rfl
            | true =>
                rcases get_addAndReply_cases c.env c.alloc arg _ s key with h | ⟨hkey, hadm⟩
                · exact .inl h
                · exact .inr (.inr ⟨arg, ⟨hin, hadm, .inr ⟨hc, hf⟩⟩, hkey⟩)
        | kvGet => exact .inl (by rw [dispatch, run_handleGet])
        | kvDelete =>
            rw [dispatch, run_handleDelete, Store.get_remove]
            by_cases hkey : key = arg.key
            · exact .inr (.inl ⟨if_pos hkey, arg, rfl, hkey⟩)
            · exact .inl (if_neg hkey)
        | unknown n => exact .inl rfl
  · exact .inl (by rw [ioctl_snd, hc])
  · exact .inl (by rw [ioctl_snd, hc])

/-! ### Runs -/

/-- A value is within the limit when it leaves room for its terminator and is a prefix of the value
field of a message submitted by one of the calls. -/
def WithinLimit (cs : List IoctlCall) (v : CStr) : Prop :=
  v.1.length < MAX_VALUE_LEN ∧
    ∃ c ∈ cs, ∃ cmd arg, c.ioctl = .message cmd arg ∧ v.1 <+: arg.value.1

theorem WithinLimit.mono {cs cs' : List IoctlCall} {v : CStr} (h : WithinLimit cs v)
    (hsub : cs ⊆ cs') : WithinLimit cs' v := by
  obtain ⟨hlen, c, hc, hprefix⟩ := h
  exact ⟨hlen, c, hsub hc, hprefix⟩

/-- If the call is an insertion or an update that returns with status 0, then every undisturbed
`KV_GET` of the same key after it returns with status 0. -/
def Retrievable (c : IoctlCall) (s : Store H) : Prop :=
  ∀ cmd arg, c.ioctl = .message cmd arg → (cmd = .kvInsert ∨ cmd = .kvUpdate) →
    (ioctl c s).1.1 = 0 → (ioctl c s).1.2.status = 0 →
      ∀ c' arg', c'.ioctl = .message .kvGet arg' → arg'.key = arg.key →
        c'.env.copyFromUser = true → c'.env.copyToUser = true →
          (ioctl c' (ioctl c s).2).1.1 = 0 ∧ (ioctl c' (ioctl c s).2).1.2.status = 0

/-- A value that the call stores carries a terminator. -/
def Terminated (c : IoctlCall) (s : Store H) : Prop :=
  ∀ arg, c.Stores arg s → 0 ∈ arg.value.1

/-- An addition that is acknowledged has found memory. -/
theorem admits_of_status {env : KernelEnv} {alloc : Alloc} {msg : KvMessage}
    {failed : List UInt8} {s : Store H}
    (h : ((addAndReply env msg failed).run (exec alloc) s).1.2.status = 0) :
    alloc.admits s.1 msg.key = true := by
  have hcode : (-12 : Int32) ≠ 0 := by decide
  rw [run_addAndReply] at h
  by_contra hno
  rw [if_neg hno] at h
  exact hcode h

/-- An acknowledged insertion or update has stored its value. -/
theorem stores_of_status {c : IoctlCall} {s : Store H} {cmd : Cmd} {arg : KvMessage}
    (hc : c.ioctl = .message cmd arg) (hcmd : cmd = .kvInsert ∨ cmd = .kvUpdate)
    (hret : (ioctl c s).1.1 = 0) (hst : (ioctl c s).1.2.status = 0) : c.Stores arg s := by
  have hone : (1 : Int32) ≠ 0 := by decide
  obtain ⟨hin, hout⟩ := copies_of_ret hc hret
  rcases hcmd with rfl | rfl
  · rw [ioctl_message_ok hc (by simp) hin hout, dispatch, run_handleInsert] at hst
    cases hf : s.found arg.key with
    | true =>
        rw [if_pos hf] at hst
        exact absurd hst hone
    | false =>
        rw [hf] at hst
        exact ⟨hin, admits_of_status hst, .inl ⟨hc, hf⟩⟩
  · rw [ioctl_message_ok hc (by simp) hin hout, dispatch, run_handleUpdate] at hst
    cases hf : s.found arg.key with
    | false =>
        rw [hf] at hst
        exact absurd hst hone
    | true =>
        rw [if_pos hf] at hst
        exact ⟨hin, admits_of_status hst, .inr ⟨hc, hf⟩⟩

/-- A value that is found and fits is returned by `KV_GET`. -/
theorem ioctl_get_of_found {c : IoctlCall} {arg : KvMessage} {s : Store H} {v : CStr}
    (hc : c.ioctl = .message .kvGet arg) (hin : c.env.copyFromUser = true)
    (hout : c.env.copyToUser = true) (hget : s.get arg.key = some v)
    (hlen : v.1.length < MAX_VALUE_LEN) :
    (ioctl c s).1.1 = 0 ∧ (ioctl c s).1.2.status = 0 := by
  rw [ioctl_message_ok hc (by simp) hin hout, dispatch, run_handleGet, hget]
  simp only [if_pos hlen]
  exact ⟨trivial, rfl⟩

/-- One call: if the value it stores is terminated, all values stay within the limit. -/
theorem withinLimit_ioctl {cs : List IoctlCall} {c : IoctlCall} {s : Store H}
    (hs : ∀ key v, s.get key = some v → WithinLimit cs v) (hc : Terminated c s) :
    ∀ key v, (ioctl c s).2.get key = some v → WithinLimit (cs ++ [c]) v := by
  intro key v hv
  rcases get_ioctl_cases c s key with h | ⟨h, -⟩ | ⟨arg, hst, rfl⟩
  · rw [h] at hv
    exact (hs key v hv).mono (List.subset_append_left ..)
  · rw [h] at hv
    cases hv
  · have hnul := hc arg hst
    rw [get_ioctl_of_stores hst, cstr_append hnul] at hv
    cases hv
    refine ⟨lt_of_lt_of_eq (length_cstr_lt hnul) arg.value.2, c, by simp, ?_⟩
    rcases hst.ioctl with ⟨hioctl, -⟩ | ⟨hioctl, -⟩
    · exact ⟨_, arg, hioctl, cstr_prefix _⟩
    · exact ⟨_, arg, hioctl, cstr_prefix _⟩

/-- A whole run. -/
theorem withinLimit_serve {cs : List IoctlCall} (h : Along ioctl Terminated cs (Store.init H)) :
    ∀ key v, (serve ioctl cs (Store.init H)).2.get key = some v → WithinLimit cs v := by
  -- the last call is the one that may store a value not submitted before
  induction cs using List.reverseRecOn with
  | nil =>
      intro key v hv
      rw [serve_nil, Store.get_init] at hv
      cases hv
  | append_singleton cs c ih =>
      obtain ⟨hcs, hc, -⟩ := (along_append ..).1 h
      have hlast := withinLimit_ioctl (ih hcs) hc
      rw [serve_append_snd]
      exact hlast

/-- **The limit.**  Take any run of ioctls from the fresh table.  Every value ever stored along it is
shorter than 64 bytes and a prefix of a value field submitted before, and every acknowledged
insertion and update is found by a `KV_GET` right after it, exactly when each call of the run that
stores a value carries a terminator in its value field. -/
theorem withinLimit_serve_iff (H : HashFn) (cs : List IoctlCall) :
    ((∀ cs₁ cs₂, cs = cs₁ ++ cs₂ →
        ∀ key v, (serve ioctl cs₁ (Store.init H)).2.get key = some v → WithinLimit cs₁ v) ∧
      ∀ cs₁ c cs₂, cs = cs₁ ++ c :: cs₂ → Retrievable c (serve ioctl cs₁ (Store.init H)).2) ↔
    Along ioctl Terminated cs (Store.init H) := by
  refine ⟨fun h => ?_, fun h => ⟨?_, ?_⟩⟩
  · -- a value stored without a terminator is too long right after the call that stores it
    rw [along_iff]
    rintro cs₁ c cs₂ rfl arg hst
    by_contra hnul
    have hget := get_ioctl_of_stores hst
    have hstate : (serve ioctl (cs₁ ++ [c]) (Store.init H)).2 =
        (ioctl c (serve ioctl cs₁ (Store.init H)).2).2 := by
      rw [serve_append_snd]
      rfl
    rw [← hstate] at hget
    have hlimit := h.1 (cs₁ ++ [c]) cs₂ (by simp) arg.key _ hget
    have hlong := length_le_cstr_append hnul c.env.stack
    rw [arg.value.2] at hlong
    exact absurd hlimit.1 (not_lt.2 hlong)
  · rintro cs₁ cs₂ rfl
    exact withinLimit_serve ((along_append ..).1 h).1
  · rintro cs₁ c cs₂ rfl cmd arg hc hcmd hret hst c' arg' hc' hkey hin hout
    have hstores := stores_of_status hc hcmd hret hst
    have hget := get_ioctl_of_stores hstores
    have hall := ((along_append ..).1 h).2
    have hterm := hall.1 arg hstores
    rw [← hkey, cstr_append hterm] at hget
    have hlen := lt_of_lt_of_eq (length_cstr_lt hterm) arg.value.2
    exact ioctl_get_of_found hc' hin hout hget hlen

/-- `KV_INSERT` of key 7 with 64 letters and no terminator. -/
def unterminatedCall : IoctlCall :=
  .ok (.message .kvInsert { KvMessage.zero with
    key := 7
    value := ⟨List.replicate MAX_VALUE_LEN 97, List.length_replicate⟩ })

/-- The insertion of 64 letters is acknowledged; 64 bytes are stored, and `KV_GET` does not find
them. -/
theorem ioctl_unterminatedCall :
    let r := ioctl unterminatedCall (Store.init HashFn.module)
    let get := IoctlCall.ok (.message .kvGet { KvMessage.zero with key := 7 })
    r.1.1 = 0 ∧ r.1.2.status = 0 ∧ (∃ v, r.2.get 7 = some v ∧ ¬ v.1.length ≤ 63) ∧
      (ioctl get r.2).1.1 = 0 ∧ (ioctl get r.2).1.2.status = 1 := by
  refine ⟨by decide, by decide, ?_, by decide, by decide⟩
  exact ⟨cstr (List.replicate MAX_VALUE_LEN 97 ++ [0]), by decide, by decide⟩

end KvIoctl
