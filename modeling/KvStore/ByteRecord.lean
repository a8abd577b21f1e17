/-
**Little-endian numbers and records of fixed width.**

A C structure written to a file as a block is the concatenation of its fields, each a little-endian
number or an array of bytes, and an array of structures is the concatenation of equally long
records.  This module has the two round trips that such a file format rests on: numbers of `n`
bytes, and lists of records of `w` bytes.

Main results:

* `ByteRecord.leValue_leBytes` — a number below `256 ^ n` is read back from its `n` bytes;
* `ByteRecord.records_flatMap` — the records cut from a concatenation of encodings are the
  encodings, whatever follows them.
-/

import Mathlib.Data.List.Basic
import Mathlib.Data.Nat.ModEq
import Mathlib.Tactic.Ring

set_option relaxedAutoImplicit false
set_option autoImplicit false

namespace ByteRecord

/-! ### Little-endian numbers -/

/-- The `n` low bytes of `x`, lowest first. -/
def leBytes : ℕ → ℕ → List UInt8
  | 0, _ => []
  | n + 1, x => UInt8.ofNat x :: leBytes n (x / 256)

/-- The number with the given bytes, lowest first. -/
def leValue : List UInt8 → ℕ
  | [] => 0
  | b :: bs => b.toNat + 256 * leValue bs

@[simp] theorem length_leBytes (n x : ℕ) : (leBytes n x).length = n := by
  induction n generalizing x with
  | zero => rfl
  | succ n ih => simp [leBytes, ih]

/-- A number is read back from its bytes. -/
theorem leValue_leBytes {n x : ℕ} (h : x < 256 ^ n) : leValue (leBytes n x) = x := by
  induction n generalizing x with
  | zero =>
      have hx : x = 0 := by simpa using h
      simp [leBytes, leValue, hx]
  | succ n ih =>
      have hdiv : x / 256 < 256 ^ n := by
        rw [Nat.div_lt_iff_lt_mul (by decide)]
        rwa [pow_succ] at h
      have hmod : (UInt8.ofNat x).toNat = x % 256 := by simp
      rw [leBytes, leValue, ih hdiv, hmod, Nat.mod_add_div]

/-- Bytes are read back from their number. -/
theorem leBytes_leValue (bs : List UInt8) : leBytes bs.length (leValue bs) = bs := by
  induction bs with
  | nil => rfl
  | cons b bs ih =>
      have hlow : UInt8.ofNat (b.toNat + 256 * leValue bs) = b := by
        rw [← UInt8.toNat_inj, UInt8.toNat_ofNat']
        have hb := b.toNat_lt
        omega
      have hrest : (b.toNat + 256 * leValue bs) / 256 = leValue bs := by
        have hb := b.toNat_lt
        omega
      rw [List.length_cons, leValue, leBytes, hlow, hrest, ih]

theorem leValue_lt (bs : List UInt8) : leValue bs < 256 ^ bs.length := by
  induction bs with
  | nil => simp [leValue]
  | cons b bs ih =>
      have hb := b.toNat_lt
      rw [leValue, List.length_cons, pow_succ]
      omega

/-! ### Records -/

/-- The first `n` records of `w` bytes each. -/
def records (w : ℕ) : ℕ → List UInt8 → List (List UInt8)
  | 0, _ => []
  | n + 1, bs => bs.take w :: records w n (bs.drop w)

theorem length_records (w n : ℕ) (bs : List UInt8) : (records w n bs).length = n := by
  induction n generalizing bs with
  | zero => rfl
  | succ n ih => rw [records, List.length_cons, ih]

/-- The `i`-th record. -/
theorem getElem?_records {w n i : ℕ} (h : i < n) (bs : List UInt8) :
    (records w n bs)[i]? = some ((bs.drop (w * i)).take w) := by
  induction n generalizing i bs with
  | zero => omega
  | succ n ih =>
      cases i with
      | zero => rfl
      | succ i =>
          rw [records, List.getElem?_cons_succ, ih (by omega), List.drop_drop, Nat.mul_succ,
            Nat.add_comm]

/-- The records cut from a concatenation of encodings of width `w` are these encodings. -/
theorem records_flatMap {α : Type} {w : ℕ} {encode : α → List UInt8}
    (hw : ∀ a, (encode a).length = w) (as : List α) (rest : List UInt8) :
    records w as.length (as.flatMap encode ++ rest) = as.map encode := by
  induction as with
  | nil => rfl
  | cons a as ih =>
      have htake : (encode a ++ (as.flatMap encode ++ rest)).take w = encode a := by
        rw [List.take_append_of_le_length (by rw [hw]), List.take_of_length_le (by rw [hw])]
      have hdrop : (encode a ++ (as.flatMap encode ++ rest)).drop w = as.flatMap encode ++ rest := by
        rw [← hw a, List.drop_left]
      rw [List.flatMap_cons, List.append_assoc, List.length_cons, records, htake, hdrop, ih,
        List.map_cons]

end ByteRecord
