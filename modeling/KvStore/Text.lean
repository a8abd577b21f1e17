/-
**Reading and writing text, byte by byte.**

Programs that talk to each other in text take their input apart with a few standard functions: the
next word of a stream, the rest of its line, the number at its start.  This module fixes these
functions on lists of bytes, with the meaning they have in C and C++ in the standard locale, and the
decimal notation of a number, and proves what is needed to read back what was written.

Main definitions:

* `Text.token`, `Text.getline` — the next word of a stream, and the rest of its line;
* `Text.decimal`, `Text.digitsValue` — the decimal notation of a number, and the number of a run of
  digits;
* `Text.strtoull` — the number at the start of a text, as `strtoull` reads it;
* `Text.Numeral` — a run of digits that stands for a number below `2 ^ 64`;
* `Text.afterFirst` — what comes after the first occurrence of a text.

Main results:

* `Text.digitsValue_decimal` — **a number is read back from its decimal notation**;
* `Text.takeWhile_decimal` — the digits end where the number ends;
* `Text.token_append` — a word is read up to the white space behind it;
* `Text.strtoull_of_numeral`, `Text.numeral_of_strtoull` — what is read whole is a run of digits after
  a sign;
* `Text.dropZeros_eq_of_digitsValue` — notations of one number differ in leading zeros only;
* `Text.afterFirst_append` — a text is found where it was written, if its first byte does not occur
  before;
* `Text.isSome_afterFirst_iff`, `Text.infix_append_cons_iff` — a text is found if it occurs, and it can
  only begin where its first byte is.
-/

import KvStore.CString
import Mathlib.Algebra.Group.Nat.Defs
import Mathlib.Data.List.Induction

set_option relaxedAutoImplicit false
set_option autoImplicit false

namespace Text

open CMem

/-! ### Words and lines -/

/-- `isspace`: blank, tab, newline, vertical tab, form feed, carriage return. -/
def isSpace (b : UInt8) : Bool := b = 32 || (9 ≤ b && b ≤ 13)

/-- `isdigit`. -/
def isDigit (b : UInt8) : Bool := 48 ≤ b && b ≤ 57

/-- `stream >> word`: the next word of the stream and what is left of it, unless there is none. -/
def token (stream : List UInt8) : Option (List UInt8 × List UInt8) :=
  let rest := stream.dropWhile isSpace
  if rest = [] then none
  else some (rest.takeWhile (!isSpace ·), rest.dropWhile (!isSpace ·))

/-- `getline(stream, line)`: everything up to the next newline. -/
def getline (stream : List UInt8) : List UInt8 := stream.takeWhile (· ≠ 10)

theorem token_blank (stream : List UInt8) : token (32 :: stream) = token stream := rfl

/-- A word is read up to the white space behind it. -/
theorem token_append {word rest : List UInt8} (hne : word ≠ [])
    (hword : ∀ b ∈ word, isSpace b = false) (hrest : ∀ b ∈ rest.head?, isSpace b = true) :
    token (word ++ rest) = some (word, rest) := by
  obtain ⟨b, bs, rfl⟩ := List.exists_cons_of_ne_nil hne
  have hskip : (b :: bs ++ rest).dropWhile isSpace = b :: bs ++ rest := by
    rw [List.cons_append, List.dropWhile_cons_of_neg]
    rw [hword b (List.mem_cons_self ..)]
    exact Bool.false_ne_true
  have hall : ∀ c ∈ b :: bs, (!isSpace c) = true := by
    intro c hc
    rw [hword c hc]
    rfl
  have htake : rest.takeWhile (!isSpace ·) = [] ∧ rest.dropWhile (!isSpace ·) = rest := by
    cases rest with
    | nil => exact ⟨rfl, rfl⟩
    | cons c rest =>
        have hc : isSpace c = true := hrest c rfl
        simp [hc]
  rw [token, hskip, if_neg (by simp), List.takeWhile_append_of_pos hall,
    List.dropWhile_append_of_pos hall, htake.1, htake.2, List.append_nil]

/-- There is no white space in a word. -/
theorem isSpace_of_token {stream word rest : List UInt8} (h : token stream = some (word, rest)) :
    ∀ b ∈ word, isSpace b = false := by
  intro b hb
  unfold token at h
  dsimp only at h
  split at h
  · cases h
  · obtain ⟨rfl, rfl⟩ := Prod.mk.inj (Option.some.inj h)
    simpa using List.mem_takeWhile_imp hb

/-- A text without a newline is one line. -/
theorem getline_of_notMem {stream : List UInt8} (h : 10 ∉ stream) : getline stream = stream := by
  rw [getline, List.takeWhile_eq_self_iff]
  intro b hb
  rw [decide_eq_true_eq]
  rintro rfl
  exact h hb

/-! ### Numbers -/

/-- A number in decimal notation. -/
def decimal (n : ℕ) : List UInt8 := ascii (Nat.repr n)

/-- The number of a run of digits, continued from `v`. -/
def digitsFrom (v : ℕ) (digits : List UInt8) : ℕ :=
  digits.foldl (fun v b => v * 10 + (b.toNat - 48)) v

/-- The number of a run of digits. -/
def digitsValue (digits : List UInt8) : ℕ := digitsFrom 0 digits

/-- `strtoull(text, &end, 10)`: the number, whether `errno` is set to `ERANGE`, and the text from
`end` on.  White space and a sign may precede the digits; without digits `end` is the start of the
text. -/
def strtoull (text : List UInt8) : UInt64 × Bool × List UInt8 :=
  let signed := text.dropWhile isSpace
  let negative := signed.head? = some 45
  let unsigned := if signed.head? = some 43 ∨ negative then signed.tail else signed
  let digits := unsigned.takeWhile isDigit
  let rest := unsigned.dropWhile isDigit
  if digits = [] then (0, false, text)
  else if 2 ^ 64 ≤ digitsValue digits then (UInt64.ofNat (2 ^ 64 - 1), true, rest)
  else if negative then (-UInt64.ofNat (digitsValue digits), false, rest)
  else (UInt64.ofNat (digitsValue digits), false, rest)

theorem toNat_digit {c : Char} (h : c.isDigit = true) :
    (c.val.toUInt8).toNat = c.toNat ∧ 48 ≤ c.toNat ∧ c.toNat ≤ 57 := by
  have hrange : 48 ≤ c.toNat ∧ c.toNat ≤ 57 := Char.isDigit_iff_toNat.1 h
  have hbyte : (c.val.toUInt8).toNat = c.toNat % 2 ^ 8 := UInt32.toNat_toUInt8 c.val
  omega

theorem isDigit_iff {b : UInt8} : isDigit b = true ↔ 48 ≤ b.toNat ∧ b.toNat ≤ 57 := by
  rw [isDigit, Bool.and_eq_true, decide_eq_true_eq, decide_eq_true_eq, UInt8.le_iff_toNat_le,
    UInt8.le_iff_toNat_le]
  rfl

theorem isSpace_of_isDigit {b : UInt8} (h : isDigit b = true) : isSpace b = false := by
  rw [isDigit_iff] at h
  rw [isSpace, Bool.or_eq_false_iff, Bool.and_eq_false_iff, decide_eq_false_iff_not,
    decide_eq_false_iff_not, decide_eq_false_iff_not, UInt8.le_iff_toNat_le, UInt8.le_iff_toNat_le]
  have hnine : (9 : UInt8).toNat = 9 := rfl
  have hthirteen : (13 : UInt8).toNat = 13 := rfl
  refine ⟨?_, by omega⟩
  rintro rfl
  exact absurd h.1 (by decide)

/-- The decimal notation of a number is a run of digits. -/
theorem isDigit_of_mem_decimal {n : ℕ} {b : UInt8} (h : b ∈ decimal n) : isDigit b = true := by
  rw [decimal, ascii, Nat.toList_repr, List.mem_map] at h
  obtain ⟨c, hc, rfl⟩ := h
  obtain ⟨hbyte, hlow, hhigh⟩ := toNat_digit (Nat.isDigit_of_mem_toDigits (by decide) (by decide) hc)
  rw [isDigit_iff, hbyte]
  exact ⟨hlow, hhigh⟩

theorem decimal_ne_nil (n : ℕ) : decimal n ≠ [] := by
  rw [decimal, ascii, Nat.toList_repr, Ne, List.map_eq_nil_iff]
  exact Nat.toDigits_ne_nil

theorem length_decimal_le {n k : ℕ} (hk : 0 < k) (h : n < 10 ^ k) : (decimal n).length ≤ k := by
  rw [decimal, ascii, List.length_map, Nat.toList_repr]
  exact (Nat.length_toDigits_le_iff (by decide) hk).2 h

/-- The number of a run of digits does not depend on whether they are bytes or characters. -/
theorem digitsFrom_map {cs : List Char} (h : ∀ c ∈ cs, c.isDigit = true) (v : ℕ) :
    digitsFrom v (cs.map fun c => c.val.toUInt8) = Nat.ofDigitChars 10 cs v := by
  induction cs generalizing v with
  | nil => rfl
  | cons c cs ih =>
      have hrec := ih (fun c' hc' => h c' (List.mem_cons_of_mem _ hc'))
        (v * 10 + (c.val.toUInt8.toNat - 48))
      rw [Nat.ofDigitChars_cons, List.map_cons]
      refine hrec.trans ?_
      have hzero : '0'.toNat = 48 := rfl
      rw [(toNat_digit (h c (List.mem_cons_self ..))).1, Nat.mul_comm v 10, hzero]

/-- A number is read back from its decimal notation. -/
theorem digitsValue_decimal (n : ℕ) : digitsValue (decimal n) = n := by
  have hdigits : ∀ c ∈ Nat.toDigits 10 n, c.isDigit = true := fun c hc =>
    Nat.isDigit_of_mem_toDigits (by decide) (by decide) hc
  rw [digitsValue, decimal, ascii, Nat.toList_repr, digitsFrom_map hdigits,
    Nat.ofDigitChars_ten_toDigits]

theorem digitsFrom_append (v : ℕ) (ds es : List UInt8) :
    digitsFrom v (ds ++ es) = digitsFrom (digitsFrom v ds) es :=
  List.foldl_append ..

/-- Leading zeros do not count. -/
theorem digitsValue_replicate_zero (j : ℕ) (ds : List UInt8) :
    digitsValue (List.replicate j 48 ++ ds) = digitsValue ds := by
  induction j with
  | zero => rfl
  | succ j ih => exact ih

/-- The number of the last digit, and of those before it. -/
theorem digitsValue_concat (ds : List UInt8) (d : UInt8) :
    digitsValue (ds ++ [d]) = digitsValue ds * 10 + (d.toNat - 48) :=
  digitsFrom_append 0 ds [d]

/-- The digits end where the number ends. -/
theorem takeWhile_decimal (n : ℕ) {b : UInt8} (hb : isDigit b = false) (rest : List UInt8) :
    (decimal n ++ b :: rest).takeWhile isDigit = decimal n := by
  rw [List.takeWhile_append_of_pos fun c hc => isDigit_of_mem_decimal hc]
  simp [hb]

/-! ### Numerals -/

/-- A run of digits that stands for a number below `2 ^ 64`. -/
def Numeral (text : List UInt8) : Prop :=
  text ≠ [] ∧ (∀ b ∈ text, isDigit b = true) ∧ digitsValue text < 2 ^ 64

instance (text : List UInt8) : Decidable (Numeral text) := inferInstanceAs (Decidable (_ ∧ _))

/-- The decimal notation of a number below `2 ^ 64`, after any number of zeros. -/
theorem numeral_decimal (j : ℕ) {n : ℕ} (h : n < 2 ^ 64) :
    Numeral (List.replicate j 48 ++ decimal n) := by
  refine ⟨?_, ?_, ?_⟩
  · intro hnil
    exact decimal_ne_nil n (List.append_eq_nil_iff.1 hnil).2
  · intro b hb
    rcases List.mem_append.1 hb with hzero | hdigit
    · rw [List.eq_of_mem_replicate hzero]
      rfl
    · exact isDigit_of_mem_decimal hdigit
  · rw [digitsValue_replicate_zero, digitsValue_decimal]
    exact h

/-- A text without the sign it may start with. -/
def unsign (text : List UInt8) : List UInt8 :=
  if text.head? = some 43 ∨ text.head? = some 45 then text.tail else text

/-- A numeral has no sign. -/
theorem Numeral.not_signed {text : List UInt8} (h : Numeral text) :
    ¬ (text.head? = some 43 ∨ text.head? = some 45) := by
  obtain ⟨b, bs, rfl⟩ := List.exists_cons_of_ne_nil h.1
  have hdigit := isDigit_iff.1 (h.2.1 b (List.mem_cons_self ..))
  rw [List.head?_cons, Option.some.injEq, Option.some.injEq]
  rintro (rfl | rfl)
  · exact absurd hdigit.1 (by decide)
  · exact absurd hdigit.1 (by decide)

theorem Numeral.unsign {text : List UInt8} (h : Numeral text) : unsign text = text :=
  if_neg h.not_signed

/-- `strtoull` on a text that does not start with white space. -/
theorem strtoull_eq {text : List UInt8} (hspace : ∀ b ∈ text.head?, isSpace b = false) :
    strtoull text =
      if (unsign text).takeWhile isDigit = [] then (0, false, text)
      else if 2 ^ 64 ≤ digitsValue ((unsign text).takeWhile isDigit) then
        (UInt64.ofNat (2 ^ 64 - 1), true, (unsign text).dropWhile isDigit)
      else if text.head? = some 45 then
        (-UInt64.ofNat (digitsValue ((unsign text).takeWhile isDigit)), false,
          (unsign text).dropWhile isDigit)
      else (UInt64.ofNat (digitsValue ((unsign text).takeWhile isDigit)), false,
        (unsign text).dropWhile isDigit) := by
  have hskip : text.dropWhile isSpace = text := by
    cases text with
    | nil => rfl
    | cons b bs =>
        have hb : isSpace b = false := hspace b rfl
        exact List.dropWhile_cons_of_neg (by simp [hb])
  simp only [strtoull, hskip]
  rfl

/-- A numeral is read whole; after a minus the number is negated. -/
theorem strtoull_of_numeral {text : List UInt8} (hspace : ∀ b ∈ text.head?, isSpace b = false)
    (h : Numeral (unsign text)) :
    strtoull text =
      (if text.head? = some 45 then -UInt64.ofNat (digitsValue (unsign text))
        else UInt64.ofNat (digitsValue (unsign text)), false, []) := by
  have htake : (unsign text).takeWhile isDigit = unsign text :=
    List.takeWhile_eq_self_iff.2 h.2.1
  have hdrop : (unsign text).dropWhile isDigit = [] := List.dropWhile_eq_nil_iff.2 h.2.1
  rw [strtoull_eq hspace, htake, hdrop, if_neg h.1, if_neg (Nat.not_le.2 h.2.2)]
  split
  · rfl
  · rfl

/-- A text that is read to its end, without `ERANGE`, is a numeral after its sign. -/
theorem numeral_of_strtoull {text : List UInt8} (hspace : ∀ b ∈ text.head?, isSpace b = false)
    (hrange : (strtoull text).2.1 = false) (hsome : (strtoull text).2.2.length ≠ text.length)
    (hrest : (strtoull text).2.2 = []) : Numeral (unsign text) := by
  rw [strtoull_eq hspace] at hrange hsome hrest
  by_cases hnone : (unsign text).takeWhile isDigit = []
  · rw [if_pos hnone] at hsome
    exact absurd rfl hsome
  · rw [if_neg hnone] at hrange hrest
    by_cases hlarge : 2 ^ 64 ≤ digitsValue ((unsign text).takeWhile isDigit)
    · rw [if_pos hlarge] at hrange
      cases hrange
    · have hdrop : (unsign text).dropWhile isDigit = [] := by
        rw [if_neg hlarge] at hrest
        split at hrest
        · exact hrest
        · exact hrest
      have hdigits : ∀ b ∈ unsign text, isDigit b = true := List.dropWhile_eq_nil_iff.1 hdrop
      rw [List.takeWhile_eq_self_iff.2 hdigits] at hnone hlarge
      exact ⟨hnone, hdigits, Nat.not_le.1 hlarge⟩

theorem head?_of_concat {ds : List UInt8} {d : UInt8} (h : (ds ++ [d]).head? ≠ some 48) :
    ds.head? ≠ some 48 := by
  cases ds with
  | nil => nofun
  | cons b bs => exact h

/-- A run of digits without a leading zero is positive. -/
theorem digitsValue_pos {ds : List UInt8} (hds : ∀ b ∈ ds, isDigit b = true) (hne : ds ≠ [])
    (hd : ds.head? ≠ some 48) : 0 < digitsValue ds := by
  induction ds using List.reverseRecOn with
  | nil => exact absurd rfl hne
  | append_singleton ds d ih =>
      rw [digitsValue_concat]
      by_cases hnil : ds = []
      · subst hnil
        have hdigit := isDigit_iff.1 (hds d (List.mem_singleton_self d))
        have hzero : d.toNat ≠ 48 := fun h => hd (congrArg some (UInt8.toNat_inj.1 h))
        omega
      · have hpos := ih (fun b hb => hds b (List.mem_append_left _ hb)) hnil (head?_of_concat hd)
        omega

/-- Two runs of digits without leading zeros that stand for the same number are the same. -/
theorem eq_of_digitsValue {ds es : List UInt8} (hds : ∀ b ∈ ds, isDigit b = true)
    (hes : ∀ b ∈ es, isDigit b = true) (hd : ds.head? ≠ some 48) (he : es.head? ≠ some 48)
    (h : digitsValue ds = digitsValue es) : ds = es := by
  -- from the last digit to the first: it is the remainder by ten, and the others are the quotient
  induction ds using List.reverseRecOn generalizing es with
  | nil =>
      by_contra hne
      have hpos := digitsValue_pos hes (Ne.symm hne) he
      rw [← h] at hpos
      exact absurd hpos (Nat.lt_irrefl 0)
  | append_singleton ds d ih =>
      rcases List.eq_nil_or_concat es with rfl | ⟨es, e, rfl⟩
      · have hpos := digitsValue_pos hds (List.append_ne_nil_of_right_ne_nil ds nofun) hd
        rw [h] at hpos
        exact absurd hpos (Nat.lt_irrefl 0)
      · rw [List.concat_eq_append] at hes he h ⊢
        rw [digitsValue_concat, digitsValue_concat] at h
        have hdigit := isDigit_iff.1 (hds d (List.mem_append_right _ (List.mem_singleton_self d)))
        have hdigit' := isDigit_iff.1 (hes e (List.mem_append_right _ (List.mem_singleton_self e)))
        have hlast : d = e := UInt8.toNat_inj.1 (by omega)
        have hinit : ds = es := by
          refine ih (fun b hb => hds b (List.mem_append_left _ hb))
            (fun b hb => hes b (List.mem_append_left _ hb)) (head?_of_concat hd)
            (head?_of_concat he) ?_
          omega
        rw [hlast, hinit]

/-- A run of digits and its leading zeros. -/
theorem digitsValue_dropZeros (ds : List UInt8) :
    digitsValue (ds.dropWhile (· = 48)) = digitsValue ds := by
  have hzeros : ds.takeWhile (· = 48) = List.replicate (ds.takeWhile (· = 48)).length 48 := by
    refine List.eq_replicate_of_mem fun b hb => ?_
    have hzero := List.mem_takeWhile_imp hb
    exact of_decide_eq_true hzero
  conv_rhs => rw [← List.takeWhile_append_dropWhile (p := (· = 48)) (l := ds), hzeros]
  rw [digitsValue_replicate_zero]

/-- Two runs of digits that stand for the same number differ in leading zeros only. -/
theorem dropZeros_eq_of_digitsValue {ds es : List UInt8} (hds : ∀ b ∈ ds, isDigit b = true)
    (hes : ∀ b ∈ es, isDigit b = true) (h : digitsValue ds = digitsValue es) :
    ds.dropWhile (· = 48) = es.dropWhile (· = 48) := by
  have hhead : ∀ bs : List UInt8, (bs.dropWhile (· = 48)).head? ≠ some 48 := by
    intro bs hsome
    have hnot := List.head?_dropWhile_not (· = 48) bs
    rw [hsome] at hnot
    exact absurd rfl (of_decide_eq_false hnot)
  refine eq_of_digitsValue ?_ ?_ (hhead ds) (hhead es) ?_
  · exact fun b hb => hds b ((List.dropWhile_sublist _).mem hb)
  · exact fun b hb => hes b ((List.dropWhile_sublist _).mem hb)
  · rw [digitsValue_dropZeros, digitsValue_dropZeros, h]

/-! ### Searching -/

/-- What comes after the first occurrence of `pat`, if there is one. -/
def afterFirst (pat : List UInt8) : List UInt8 → Option (List UInt8)
  | [] => if pat = [] then some [] else none
  | b :: bs => if pat <+: b :: bs then some ((b :: bs).drop pat.length) else afterFirst pat bs

/-- A text is found where it was written, if its first byte does not occur before. -/
theorem afterFirst_append {b : UInt8} {pat before : List UInt8} (h : b ∉ before)
    (rest : List UInt8) :
    afterFirst (b :: pat) (before ++ (b :: pat) ++ rest) = some rest := by
  induction before with
  | nil =>
      have hpre : b :: pat <+: b :: (pat ++ rest) := ⟨rest, rfl⟩
      rw [List.nil_append, List.cons_append, afterFirst, if_pos hpre, ← List.cons_append,
        List.drop_left]
  | cons c before ih =>
      have hne : ¬ b :: pat <+: c :: (before ++ (b :: pat) ++ rest) := by
        intro hpre
        exact h (List.mem_cons.2 (.inl (List.cons_prefix_cons.1 hpre).1))
      rw [List.cons_append, List.cons_append, afterFirst, if_neg hne]
      exact ih fun hb => h (List.mem_cons_of_mem _ hb)

/-- A text is found wherever it occurs. -/
theorem isSome_afterFirst_iff {pat text : List UInt8} : (afterFirst pat text).isSome ↔ pat <:+: text := by
  induction text with
  | nil =>
      rw [afterFirst, List.infix_nil]
      by_cases hpat : pat = []
      · simp [hpat]
      · simp [hpat]
  | cons b text ih =>
      rw [afterFirst, List.infix_cons_iff]
      by_cases hpre : pat <+: b :: text
      · simp [hpre]
      · simp [hpre, ih]

/-- A text that begins with `b` begins at one of the `b`s. -/
theorem infix_append_cons_iff {b : UInt8} {pat before rest : List UInt8} (h : b ∉ before) :
    b :: pat <:+: before ++ b :: rest ↔ pat <+: rest ∨ b :: pat <:+: rest := by
  induction before with
  | nil => rw [List.nil_append, List.infix_cons_iff, List.cons_prefix_cons, and_iff_right rfl]
  | cons c before ih =>
      rw [List.mem_cons, not_or] at h
      rw [List.cons_append, List.infix_cons_iff, List.cons_prefix_cons, ih h.2]
      exact or_iff_right fun hpre => h.1 hpre.1

/-- Texts without `b` are compared up to the first `b`. -/
theorem prefix_append_cons_iff {b : UInt8} {x y rest : List UInt8} (hx : b ∉ x) (hy : b ∉ y) :
    x ++ [b] <+: y ++ b :: rest ↔ x = y := by
  induction x generalizing y with
  | nil =>
      cases y with
      | nil => simp
      | cons c y =>
          rw [List.mem_cons, not_or] at hy
          simp [hy.1]
  | cons c x ih =>
      rw [List.mem_cons, not_or] at hx
      cases y with
      | nil => simp [Ne.symm hx.1]
      | cons d y =>
          rw [List.mem_cons, not_or] at hy
          rw [List.cons_append, List.cons_append, List.cons_prefix_cons, ih hx.2 hy.2, List.cons.injEq]

end Text
