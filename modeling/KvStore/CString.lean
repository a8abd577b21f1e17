/-
**C strings and fixed-size buffers.**

A C string is the run of bytes before a terminating NUL; a function that is handed a pointer reads
on until it meets one, whatever array the pointer was taken from.  This module fixes the vocabulary
for both sides of that convention: `CMem.CStr` is a string as the reader understands it — bytes
among which no NUL occurs — and `CMem.Buf n` is an array of exactly `n` bytes.  A pointer is
modelled by the list of bytes that starts where it points, `CMem.cstr` is the string found there,
and `CMem.memcpy`, `CMem.strscpy` and `CMem.snprintf` write into a buffer from its first byte on.

Main results:

* `CMem.cstr_append` — **a terminated array is read alone**: the bytes after it do not matter;
* `CMem.length_le_cstr_append` — **an unterminated array is overrun**: the string read from it is at
  least as long as the array;
* `CMem.val_memcpy_zeros` — a string copied into a cleared buffer is the string padded with zeros.
-/

import Mathlib.Data.List.Basic
import Mathlib.Data.List.TakeWhile

set_option relaxedAutoImplicit false
set_option autoImplicit false

namespace CMem

/-- A C string: the bytes before the terminating NUL. -/
abbrev CStr := { s : List UInt8 // 0 ∉ s }

/-- An array of `n` bytes. -/
abbrev Buf (n : ℕ) := { b : List UInt8 // b.length = n }

/-- The text as bytes. -/
def ascii (s : String) : List UInt8 := s.toList.map fun c => c.val.toUInt8

/-! ### Reading a string -/

theorem zero_notMem_takeWhile (mem : List UInt8) : (0 : UInt8) ∉ mem.takeWhile (· ≠ 0) := by
  intro h
  simpa using List.mem_takeWhile_imp h

/-- The string a pointer to the bytes `mem` denotes: everything before the first NUL. -/
def cstr (mem : List UInt8) : CStr := ⟨mem.takeWhile (· ≠ 0), zero_notMem_takeWhile mem⟩

theorem cstr_prefix (mem : List UInt8) : (cstr mem).1 <+: mem := List.takeWhile_prefix _

theorem val_cstr_of_notMem {mem : List UInt8} (h : (0 : UInt8) ∉ mem) : (cstr mem).1 = mem := by
  refine List.takeWhile_eq_self_iff.2 ?_
  intro b hb
  simp only [ne_eq, decide_eq_true_eq]
  rintro rfl
  exact h hb

theorem cstr_cons_zero (mem : List UInt8) : cstr (0 :: mem) = ⟨[], by simp⟩ :=
  Subtype.ext (by simp [cstr])

theorem val_cstr_cons {b : UInt8} (hb : b ≠ 0) (mem : List UInt8) :
    (cstr (b :: mem)).1 = b :: (cstr mem).1 := by
  simp [cstr, hb]

/-- A terminated array is read alone: the bytes after it do not matter. -/
theorem cstr_append {mem : List UInt8} (h : 0 ∈ mem) (tail : List UInt8) :
    cstr (mem ++ tail) = cstr mem := by
  induction mem with
  | nil => simp at h
  | cons b mem ih =>
      by_cases hb : b = 0
      · rw [hb, List.cons_append, cstr_cons_zero, cstr_cons_zero]
      · have hmem : 0 ∈ mem := (List.mem_cons.1 h).resolve_left (Ne.symm hb)
        exact Subtype.ext (by rw [List.cons_append, val_cstr_cons hb, val_cstr_cons hb, ih hmem])

/-- The string read from a terminated array leaves room for the terminator. -/
theorem length_cstr_lt {mem : List UInt8} (h : 0 ∈ mem) : (cstr mem).1.length < mem.length := by
  induction mem with
  | nil => simp at h
  | cons b mem ih =>
      by_cases hb : b = 0
      · simp [hb, cstr_cons_zero]
      · have hmem : 0 ∈ mem := (List.mem_cons.1 h).resolve_left (Ne.symm hb)
        simpa [val_cstr_cons hb] using ih hmem

/-- A terminated array starts with its string and the terminator. -/
theorem take_cstr_succ {mem : List UInt8} (h : 0 ∈ mem) :
    mem.take ((cstr mem).1.length + 1) = (cstr mem).1 ++ [0] := by
  induction mem with
  | nil => simp at h
  | cons b mem ih =>
      by_cases hb : b = 0
      · simp [hb, cstr_cons_zero]
      · have hmem : 0 ∈ mem := (List.mem_cons.1 h).resolve_left (Ne.symm hb)
        rw [val_cstr_cons hb, List.length_cons, List.take_succ_cons, ih hmem, List.cons_append]

/-- An unterminated array is overrun: reading goes on into the bytes after it. -/
theorem length_le_cstr_append {mem : List UInt8} (h : 0 ∉ mem) (tail : List UInt8) :
    mem.length ≤ (cstr (mem ++ tail)).1.length := by
  induction mem with
  | nil => simp
  | cons b mem ih =>
      have hb : b ≠ 0 := fun hb => h (by simp [hb])
      simpa [val_cstr_cons hb] using ih fun hm => h (List.mem_cons_of_mem _ hm)

/-- The string found where a string was written, whatever comes after its terminator. -/
theorem cstr_val_append (s : CStr) (tail : List UInt8) : cstr (s.1 ++ 0 :: tail) = s := by
  have h : s.1.takeWhile (· ≠ 0) = s.1 := by
    rw [List.takeWhile_eq_self_iff]
    intro b hb
    simpa using fun hb0 : b = 0 => s.2 (hb0 ▸ hb)
  refine Subtype.ext ?_
  show (s.1 ++ 0 :: tail).takeWhile (· ≠ 0) = s.1
  rw [List.takeWhile_append, h]
  simp

/-! ### Writing into a buffer -/

/-- A buffer of zeros. -/
def zeros (n : ℕ) : Buf n := ⟨List.replicate n 0, List.length_replicate⟩

/-- Write the bytes `src` to the start of the buffer; the bytes behind them stay as they are. -/
def memcpy {n : ℕ} (dst : Buf n) (src : List UInt8) : Buf n :=
  ⟨src.take n ++ dst.1.drop src.length, by simp [dst.2]; omega⟩

theorem val_memcpy {n : ℕ} (dst : Buf n) (src : List UInt8) :
    (memcpy dst src).1 = src.take n ++ dst.1.drop src.length := rfl

/-- Bytes that fill the buffer replace all of it. -/
theorem memcpy_val {n : ℕ} (dst src : Buf n) : memcpy dst src.1 = src := by
  have htake : src.1.take n = src.1 := List.take_of_length_le (by rw [src.2])
  have hdrop : dst.1.drop src.1.length = [] := List.drop_of_length_le (by rw [src.2, dst.2])
  exact Subtype.ext (by rw [val_memcpy, htake, hdrop, List.append_nil])

/-- `strscpy`: as much of the string as leaves room for the terminator, and the terminator. -/
def strscpy {n : ℕ} (dst : Buf n) (src : CStr) : Buf n := memcpy dst (src.1.take (n - 1) ++ [0])

/-- `snprintf` of an already formatted text. -/
def snprintf {n : ℕ} (dst : Buf n) (text : List UInt8) : Buf n :=
  memcpy dst (text.take (n - 1) ++ [0])

/-- A string copied with its terminator into a cleared buffer is padded with zeros. -/
theorem val_memcpy_zeros {n : ℕ} {s : List UInt8} (h : s.length < n) :
    (memcpy (zeros n) (s ++ [0])).1 = s ++ List.replicate (n - s.length) 0 := by
  obtain ⟨d, rfl⟩ : ∃ d, n = s.length + 1 + d := ⟨n - s.length - 1, by omega⟩
  have hlen : (s ++ [0]).take (s.length + 1 + d) = s ++ [0] :=
    List.take_of_length_le (by simp)
  have hrep : s.length + 1 + d - s.length = d + 1 := by omega
  simp [memcpy, zeros, hlen, hrep, List.replicate_succ]

/-- In a cleared buffer there is a terminator behind whatever is copied into it. -/
theorem memcpy_zeros_terminated {n : ℕ} {s : List UInt8} (h : s.length < n) :
    memcpy (zeros n) s = memcpy (zeros n) (s ++ [0]) := by
  refine Subtype.ext ?_
  rw [val_memcpy_zeros h, val_memcpy, List.take_of_length_le h.le, zeros, List.drop_replicate]

/-- What `strscpy` leaves in a cleared buffer. -/
theorem val_strscpy_zeros {n : ℕ} (s : CStr) :
    (strscpy (zeros (n + 1)) s).1 = (s.1.take n).rightpad (n + 1) 0 := by
  have hlen : (s.1.take n).length < n + 1 := Nat.lt_succ_of_le (List.length_take_le n s.1)
  exact val_memcpy_zeros hlen

/-- The string is read back from the cleared buffer it was copied into. -/
theorem cstr_memcpy_zeros {n : ℕ} {s : CStr} (h : s.1.length < n) (tail : List UInt8) :
    cstr ((memcpy (zeros n) (s.1 ++ [0])).1 ++ tail) = s := by
  obtain ⟨d, hd⟩ : ∃ d, n - s.1.length = d + 1 := ⟨n - s.1.length - 1, by omega⟩
  rw [val_memcpy_zeros h, hd, List.replicate_succ, List.append_assoc, List.cons_append]
  exact cstr_val_append s _

/-- The first `k` bytes of a string. -/
def CStr.truncate (s : CStr) (k : ℕ) : CStr :=
  ⟨s.1.take k, fun h => s.2 (List.mem_of_mem_take h)⟩

theorem CStr.truncate_of_le {s : CStr} {k : ℕ} (h : s.1.length ≤ k) : s.truncate k = s :=
  Subtype.ext (List.take_of_length_le h)

/-- What is read back from the cleared buffer a string was copied into by `strscpy`. -/
theorem cstr_strscpy_zeros {n : ℕ} (s : CStr) : cstr (strscpy (zeros (n + 1)) s).1 = s.truncate n := by
  have hlen : (s.truncate n).1.length < n + 1 := by
    have htake : (s.1.take n).length ≤ n := List.length_take_le n s.1
    exact Nat.lt_succ_of_le htake
  have hread := cstr_memcpy_zeros hlen []
  rw [List.append_nil] at hread
  exact hread

end CMem
