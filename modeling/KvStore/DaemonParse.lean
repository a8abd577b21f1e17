/-
**What the daemon makes of the text of a command.**

The client joins what was typed with blanks, and `parse_and_handle_command` takes the text apart with
the functions of the standard library: words with `>>`, the rest of a line with `getline`, a number
with `strtoull`.  This module follows the three kinds of text that go this way.

A key that was written in decimal, and a value, arrive as they were typed: the value is the rest of the
line after one blank, so blanks at its start and its end are kept.  A user name and a password are taken
as words, so they arrive only if there is no white space in them.  A key is read by `strtoull`, which
takes a sign in front of the digits, and after a minus the number is negated modulo `2 ^ 64`.

Main definitions:

* `Daemon.parseAndHandleCommandWith` — `parse_and_handle_command` with any function in the place of
  `do_kv_operation`;
* `Daemon.Choice.Asks` — the choices of the menu that ask for an operation on a key;
* `Daemon.authCommand`, `Daemon.authUser` — a round of `auth_user` in the client;
* `Daemon.Authenticates` — PAM is asked about what was typed;
* `Daemon.ParsedAsUnsigned` — a key is taken as an unsigned decimal number or not at all.

Main results:

* `Daemon.parse_choice` — **the parser inverts the encoder**;
* `Daemon.authenticates_iff` — **the credentials that arrive**;
* `Daemon.parsedAsUnsigned_iff` — **the keys that are taken as numbers**.
-/

import KvStore.DaemonFraming

set_option relaxedAutoImplicit false
set_option autoImplicit false

namespace Daemon

open CMem Text Interleave KvHash KvIoctl

/-! ### Keys -/

/-- A text that `>>` can deliver and that is not cut short as a C string. -/
structure IsToken (text : List UInt8) : Prop where
  noSpace : ∀ b ∈ text, isSpace b = false
  noNul : (0 : UInt8) ∉ text

theorem isToken_iff_all {text : List UInt8} :
    (text.all fun b => !isSpace b && b != 0) = true ↔ IsToken text := by
  rw [List.all_eq_true]
  constructor
  · intro h
    refine ⟨fun b hb => ?_, fun hnul => ?_⟩
    · simpa using (Bool.and_eq_true_iff.1 (h b hb)).1
    · exact absurd (h 0 hnul) (by decide)
  · intro h b hb
    have hne : b ≠ 0 := by
      rintro rfl
      exact h.noNul hb
    simp [h.noSpace b hb, hne]

instance (text : List UInt8) : Decidable (IsToken text) := decidable_of_iff _ isToken_iff_all

theorem IsToken.head {text : List UInt8} (h : IsToken text) :
    ∀ b ∈ text.head?, isSpace b = false := fun b hb => h.noSpace b (List.mem_of_mem_head? hb)

/-- `parse_key` takes a numeral, with or without a sign. -/
theorem parseKey_eq {text : List UInt8} (h : IsToken text) :
    parseKey text =
      if Numeral (unsign text) then
        some (if text.head? = some 45 then -UInt64.ofNat (digitsValue (unsign text))
          else UInt64.ofNat (digitsValue (unsign text)))
      else none := by
  unfold parseKey
  rw [val_cstr_of_notMem h.noNul]
  dsimp only
  by_cases hnum : Numeral (unsign text)
  · have hne : text ≠ [] := by
      rintro rfl
      exact hnum.1 rfl
    have hlen : ([] : List UInt8).length ≠ text.length := fun hnil =>
      hne (List.length_eq_zero_iff.1 hnil.symm)
    rw [strtoull_of_numeral h.head hnum, if_pos hnum, if_neg]
    rintro (herange | hnone | hrest)
    · cases herange
    · exact hlen hnone
    · exact hrest rfl
  · rw [if_neg hnum, if_pos]
    by_contra hall
    rw [not_or, not_or, Bool.not_eq_true, ne_eq, not_not] at hall
    exact hnum (numeral_of_strtoull h.head hall.1 hall.2.1 hall.2.2)

/-- A sign in front of a numeral. -/
def SignedNumeral (text : List UInt8) : Prop :=
  (text.head? = some 43 ∨ text.head? = some 45) ∧ Numeral text.tail

instance (text : List UInt8) : Decidable (SignedNumeral text) :=
  inferInstanceAs (Decidable (_ ∧ _))

/-- What is a numeral after its sign has one or has none. -/
theorem numeral_unsign_iff {text : List UInt8} :
    Numeral (unsign text) ↔ Numeral text ∨ SignedNumeral text := by
  constructor
  · intro h
    by_cases hsign : text.head? = some 43 ∨ text.head? = some 45
    · rw [unsign, if_pos hsign] at h
      exact .inr ⟨hsign, h⟩
    · rw [unsign, if_neg hsign] at h
      exact .inl h
  · rintro (h | h)
    · rw [h.unsign]
      exact h
    · rw [unsign, if_pos h.1]
      exact h.2

/-- A numeral is taken for its number. -/
theorem parseKey_of_numeral {text : List UInt8} (h : IsToken text) (hnum : Numeral text) :
    parseKey text = some (UInt64.ofNat (digitsValue text)) := by
  have hplain : text.head? ≠ some 45 := fun hminus => hnum.not_signed (.inr hminus)
  rw [parseKey_eq h, hnum.unsign, if_pos hnum, if_neg hplain]

/-- The key in the message of the ioctl that a task is about to make. -/
def addressed {α : Type} (task : Task α) : Option HashKey :=
  match task.next? with
  | some (.ioctl ⟨_, _, .message _ msg⟩) => some msg.key
  | _ => none

/-- An operation addresses the key that `parse_key` has found. -/
theorem addressed_doKvOperation (env : CommandEnv) (cmd : Cmd) (key value : List UInt8) :
    addressed (doKvOperation (sysIoctl env) cmd key value) = parseKey key := by
  unfold doKvOperation
  cases parseKey key with
  | none => rfl
  | some parsedKey => rfl

theorem doKvOperation_of_none (env : CommandEnv) (cmd : Cmd) {key : List UInt8}
    (h : parseKey key = none) (value : List UInt8) :
    doKvOperation (sysIoctl env) cmd key value =
      .ret (ascii "Invalid key: expected unsigned integer\n") := by
  unfold doKvOperation
  rw [h]
  rfl

/-- A key is taken as an unsigned decimal number or not at all: there is an ioctl exactly if the text is
a numeral, its number is the key in the message, and every other text is refused without an ioctl. -/
structure ParsedAsUnsigned (env : CommandEnv) (cmd : Cmd) (key value : List UInt8) : Prop where
  proceeds : (doKvOperation (sysIoctl env) cmd key value).next?.isSome ↔ Numeral key
  number : Numeral key → ∃ k : HashKey, k.toNat = digitsValue key ∧
    addressed (doKvOperation (sysIoctl env) cmd key value) = some k
  refused : ¬ Numeral key → doKvOperation (sysIoctl env) cmd key value =
    .ret (ascii "Invalid key: expected unsigned integer\n")

/-- Two texts address the same entry only if they are equal up to leading zeros. -/
def EqualIfSame (env : CommandEnv) (cmd : Cmd) (key other value : List UInt8) : Prop :=
  ∀ k, addressed (doKvOperation (sysIoctl env) cmd key value) = some k →
    addressed (doKvOperation (sysIoctl env) cmd other value) = some k →
      key.dropWhile (· = 48) = other.dropWhile (· = 48)

/-- There is an ioctl exactly if `parse_key` finds a key. -/
theorem isSome_next?_doKvOperation (env : CommandEnv) (cmd : Cmd) (key value : List UInt8) :
    (doKvOperation (sysIoctl env) cmd key value).next?.isSome = (parseKey key).isSome := by
  unfold doKvOperation
  cases parseKey key with
  | none => rfl
  | some parsedKey => rfl

theorem isSome_parseKey_iff {text : List UInt8} (h : IsToken text) :
    (parseKey text).isSome ↔ Numeral text ∨ SignedNumeral text := by
  rw [parseKey_eq h, ← numeral_unsign_iff]
  split
  · simpa
  · simpa

/-- A text that is not a signed numeral is taken as an unsigned number or not at all. -/
theorem parsedAsUnsigned_of_not_signed (env : CommandEnv) (cmd : Cmd) {key : List UInt8}
    (h : IsToken key) (hsign : ¬ SignedNumeral key) (value : List UInt8) :
    ParsedAsUnsigned env cmd key value where
  proceeds := by
    rw [isSome_next?_doKvOperation, isSome_parseKey_iff h, or_iff_left hsign]
  number := by
    intro hnum
    refine ⟨UInt64.ofNat (digitsValue key), UInt64.toNat_ofNat_of_lt' hnum.2.2, ?_⟩
    rw [addressed_doKvOperation, parseKey_of_numeral h hnum]
  refused := by
    intro hnum
    refine doKvOperation_of_none env cmd ?_ value
    rw [← Option.not_isSome_iff_eq_none, isSome_parseKey_iff h]
    exact not_or.2 ⟨hnum, hsign⟩

/-- A signed numeral is no numeral, but there is an ioctl for it. -/
theorem SignedNumeral.not_parsedAsUnsigned {key : List UInt8} (h : SignedNumeral key)
    (hkey : IsToken key) (env : CommandEnv) (cmd : Cmd) (value : List UInt8) :
    ¬ ParsedAsUnsigned env cmd key value := by
  intro hparsed
  have hproceeds := hparsed.proceeds
  rw [isSome_next?_doKvOperation, isSome_parseKey_iff hkey] at hproceeds
  exact (hproceeds.1 (.inr h)).not_signed h.1

/-- Numerals of the same key differ in leading zeros only. -/
theorem equalIfSame_of_not_signed (env : CommandEnv) (cmd : Cmd) {key other : List UInt8}
    (hkey : IsToken key) (hother : IsToken other) (hsign : ¬ SignedNumeral key)
    (hsign' : ¬ SignedNumeral other) (value : List UInt8) :
    EqualIfSame env cmd key other value := by
  intro k hk hk'
  rw [addressed_doKvOperation] at hk hk'
  have hnum : Numeral key :=
    ((isSome_parseKey_iff hkey).1 (by rw [hk]; rfl)).resolve_right hsign
  have hnum' : Numeral other :=
    ((isSome_parseKey_iff hother).1 (by rw [hk']; rfl)).resolve_right hsign'
  rw [parseKey_of_numeral hkey hnum, Option.some.injEq] at hk
  rw [parseKey_of_numeral hother hnum', Option.some.injEq, ← hk] at hk'
  refine dropZeros_eq_of_digitsValue hnum.2.1 hnum'.2.1 ?_
  rw [← UInt64.toNat_ofNat_of_lt' hnum.2.2, ← UInt64.toNat_ofNat_of_lt' hnum'.2.2, hk']

/-- **Key texts.**  For any two key texts, the daemon takes each of them as an unsigned decimal number
below `2 ^ 64` or refuses it without an ioctl, and takes them for the same key only if they are equal up
to leading zeros, exactly when neither of them is such a number with a sign in front. -/
theorem parsedAsUnsigned_iff (env : CommandEnv) (cmd : Cmd) {key other : List UInt8}
    (hkey : IsToken key) (hother : IsToken other) (value : List UInt8) :
    (ParsedAsUnsigned env cmd key value ∧ ParsedAsUnsigned env cmd other value ∧
        EqualIfSame env cmd key other value) ↔
      ¬ SignedNumeral key ∧ ¬ SignedNumeral other := by
  constructor
  · rintro ⟨hparsed, hparsed', -⟩
    exact ⟨fun h => h.not_parsedAsUnsigned hkey env cmd value hparsed,
      fun h => h.not_parsedAsUnsigned hother env cmd value hparsed'⟩
  · rintro ⟨hsign, hsign'⟩
    exact ⟨parsedAsUnsigned_of_not_signed env cmd hkey hsign value,
      parsedAsUnsigned_of_not_signed env cmd hother hsign' value,
      equalIfSame_of_not_signed env cmd hkey hother hsign hsign' value⟩

/-- The largest key, once with zeros in front. -/
theorem parsedAsUnsigned_largest :
    (ParsedAsUnsigned .ok .kvGet (ascii "18446744073709551615") [] ∧
        ParsedAsUnsigned .ok .kvGet (ascii "0018446744073709551615") [] ∧
        EqualIfSame .ok .kvGet (ascii "18446744073709551615") (ascii "0018446744073709551615") []) ↔
      ¬ SignedNumeral (ascii "18446744073709551615") ∧
        ¬ SignedNumeral (ascii "0018446744073709551615") :=
  parsedAsUnsigned_iff .ok .kvGet (by decide) (by decide) []

/-- The key `-1` is taken for the largest key. -/
theorem minusOne_parsed :
    IsToken (ascii "-1") ∧ ¬ Numeral (ascii "-1") ∧
      addressed (doKvOperation (sysIoctl .ok) .kvGet (ascii "-1") []) =
        some (UInt64.ofNat (2 ^ 64 - 1)) ∧
      addressed (doKvOperation (sysIoctl .ok) .kvGet (ascii "18446744073709551615") []) =
        some (UInt64.ofNat (2 ^ 64 - 1)) ∧
      ¬ ParsedAsUnsigned .ok .kvGet (ascii "-1") [] ∧
      ¬ EqualIfSame .ok .kvGet (ascii "-1") (ascii "18446744073709551615") [] := by
  have hminus : addressed (doKvOperation (sysIoctl .ok) .kvGet (ascii "-1") []) =
      some (UInt64.ofNat (2 ^ 64 - 1)) := by
    decide +kernel
  have hlargest : addressed
      (doKvOperation (sysIoctl .ok) .kvGet (ascii "18446744073709551615") []) =
        some (UInt64.ofNat (2 ^ 64 - 1)) := by
    decide +kernel
  have hnot : ¬ Numeral (ascii "-1") := by decide
  refine ⟨by decide, hnot, hminus, hlargest, ?_, ?_⟩
  · intro h
    have hret := h.refused hnot
    rw [hret] at hminus
    cases hminus
  · intro h
    have heq := h _ hminus hlargest
    revert heq
    decide

/-! ### Operations -/

/-- `parse_and_handle_command` with any function in the place of `do_kv_operation`. -/
def parseAndHandleCommandWith (operate : Cmd → List UInt8 → List UInt8 → Task (List UInt8))
    (env : CommandEnv) (pam : Pam) (command : List UInt8) (authenticated : Bool) :
    Task (List UInt8 × Bool) :=
  match token command with
  | none => return (ascii "Invalid command format. Expected: kv <operation> ...\n", authenticated)
  | some (operation, rest) =>
      if operation = ascii "AUTH" then
        let (answer, ok) := handleAuth pam rest
        return (answer, authenticated || ok)
      else if !authenticated then return (ascii "Connection not authenticated!\n", authenticated)
      else if operation = ascii "KV_SNAPSHOT" then do
        doKvSnapshotToFile env.snapshot
        return (ascii "Snap", authenticated)
      else
        match token rest with
        | none =>
            return (ascii "Invalid command format. Expected: kv <operation> <key> ", authenticated)
        | some (key, rest) =>
            let value := commandValue rest
            match commandOf operation value with
            | .error answer => return (answer, authenticated)
            | .ok cmd => do
                let answer ← operate cmd key value
                return (answer, authenticated)

theorem parseAndHandleCommandWith_doKvOperation (env : CommandEnv) :
    parseAndHandleCommandWith (doKvOperation (sysIoctl env)) env = parseAndHandleCommand env := rfl

/-- A value that can be typed: a line that is not empty, without zero bytes. -/
structure IsValue (value : List UInt8) : Prop where
  nonempty : value ≠ []
  line : (10 : UInt8) ∉ value
  noNul : (0 : UInt8) ∉ value

/-- A key in decimal notation, after `j` zeros. -/
def typedKey (j : ℕ) (key : HashKey) : List UInt8 := List.replicate j 48 ++ keyStr key

/-- The choices that ask for an operation on `key`: its ioctl command, the key as typed, and the
value. -/
inductive Choice.Asks (key : HashKey) : Choice → Cmd → List UInt8 → List UInt8 → Prop
  | insert (j : ℕ) {value : List UInt8} (h : IsValue value) :
      Asks key (.insert (typedKey j key) value) .kvInsert (typedKey j key) value
  | update (j : ℕ) {value : List UInt8} (h : IsValue value) :
      Asks key (.update (typedKey j key) value) .kvUpdate (typedKey j key) value
  | get (j : ℕ) : Asks key (.get (typedKey j key)) .kvGet (typedKey j key) []
  | delete (j : ℕ) : Asks key (.delete (typedKey j key)) .kvDelete (typedKey j key) []

theorem numeral_typedKey (j : ℕ) (key : HashKey) : Numeral (typedKey j key) :=
  numeral_decimal j key.toNat_lt

theorem isToken_of_numeral {text : List UInt8} (h : Numeral text) : IsToken text where
  noSpace := fun b hb => isSpace_of_isDigit (h.2.1 b hb)
  noNul := fun hnul => absurd (h.2.1 0 hnul) (by decide)

theorem parseKey_typedKey (j : ℕ) (key : HashKey) : parseKey (typedKey j key) = some key := by
  have hnum := numeral_typedKey j key
  have hvalue : digitsValue (typedKey j key) = key.toNat := by
    rw [typedKey, digitsValue_replicate_zero, keyStr, digitsValue_decimal]
  rw [parseKey_of_numeral (isToken_of_numeral hnum) hnum, hvalue, UInt64.ofNat_toNat]

/-- The value behind its blank is taken as it stands. -/
theorem commandValue_blank {value : List UInt8} (h : 10 ∉ value) :
    commandValue (32 :: value) = value := by
  have hline : getline (32 :: value) = 32 :: value := by
    refine getline_of_notMem fun hmem => ?_
    rcases List.mem_cons.1 hmem with hblank | hvalue
    · exact absurd hblank (by decide)
    · exact h hvalue
  rw [commandValue, hline]
  rfl

/-- A word that is followed by a key. -/
structure TakesKey (operation : List UInt8) : Prop where
  isToken : IsToken operation
  nonempty : operation ≠ []
  notAuth : operation ≠ ascii "AUTH"
  notSnapshot : operation ≠ ascii "KV_SNAPSHOT"

theorem takesKey_iff {operation : List UInt8} :
    (IsToken operation ∧ operation ≠ [] ∧ operation ≠ ascii "AUTH" ∧
      operation ≠ ascii "KV_SNAPSHOT") ↔ TakesKey operation :=
  ⟨fun h => ⟨h.1, h.2.1, h.2.2.1, h.2.2.2⟩,
    fun h => ⟨h.isToken, h.nonempty, h.notAuth, h.notSnapshot⟩⟩

instance (operation : List UInt8) : Decidable (TakesKey operation) :=
  decidable_of_iff _ takesKey_iff

section Operation

variable (operate : Cmd → List UInt8 → List UInt8 → Task (List UInt8)) (env : CommandEnv) (pam : Pam)
  {operation key : List UInt8} {cmd : Cmd}

/-- A word, a blank and a key: the word says what is done with the key and the rest of the line. -/
theorem parse_operation (hop : TakesKey operation) (hkey : Numeral key) (rest : List UInt8)
    (hrest : ∀ b ∈ rest.head?, isSpace b = true)
    (hcmd : commandOf operation (commandValue rest) = .ok cmd) :
    parseAndHandleCommandWith operate env pam (operation ++ 32 :: (key ++ rest)) true =
      (operate cmd key (commandValue rest) >>= fun answer => .ret (answer, true)) := by
  have hfirst : token (operation ++ 32 :: (key ++ rest)) = some (operation, 32 :: (key ++ rest)) := by
    refine token_append hop.nonempty hop.isToken.noSpace ?_
    rintro b ⟨⟩
    rfl
  have hsecond : token (32 :: (key ++ rest)) = some (key, rest) := by
    rw [token_blank]
    exact token_append hkey.1 (isToken_of_numeral hkey).noSpace hrest
  unfold parseAndHandleCommandWith
  rw [hfirst]
  dsimp only
  rw [if_neg hop.notAuth, if_neg (by decide), if_neg hop.notSnapshot, hsecond]
  dsimp only
  rw [hcmd]
  rfl

/-- A command without a value. -/
theorem parse_keyOnly (hop : TakesKey operation) (hkey : Numeral key)
    (hcmd : commandOf operation [] = .ok cmd) :
    parseAndHandleCommandWith operate env pam (operation ++ 32 :: key) true =
      (operate cmd key [] >>= fun answer => .ret (answer, true)) := by
  have hparse := parse_operation operate env pam hop hkey [] nofun hcmd
  rw [List.append_nil] at hparse
  exact hparse

/-- A command with a value: one blank is taken off, and nothing else. -/
theorem parse_withValue (hop : TakesKey operation) (hkey : Numeral key) {value : List UInt8}
    (hline : 10 ∉ value) (hcmd : commandOf operation value = .ok cmd) :
    parseAndHandleCommandWith operate env pam (operation ++ 32 :: (key ++ 32 :: value)) true =
      (operate cmd key value >>= fun answer => .ret (answer, true)) := by
  have hvalue := commandValue_blank hline
  have hblank : ∀ b ∈ (32 :: value).head?, isSpace b = true := by
    rintro b ⟨⟩
    rfl
  have hparse := parse_operation operate env pam hop hkey (32 :: value) hblank (hvalue.symm ▸ hcmd)
  rw [hvalue] at hparse
  exact hparse

/-- The text of a choice, taken apart by the daemon. -/
theorem Choice.Asks.parse {key : HashKey} {c : Choice} {keyText value : List UInt8}
    (h : c.Asks key cmd keyText value) :
    parseAndHandleCommandWith operate env pam c.command true =
      (operate cmd keyText value >>= fun answer => .ret (answer, true)) := by
  cases h with
  | insert j hv =>
      have hcmd : commandOf (ascii "KV_INSERT") value = .ok .kvInsert := by
        rw [commandOf, if_pos rfl, if_neg hv.nonempty]
      have hparse := parse_withValue operate env pam (by decide) (numeral_typedKey j key) hv.line hcmd
      rw [← hparse, Choice.command, List.append_assoc]
      rfl
  | update j hv =>
      have hcmd : commandOf (ascii "KV_UPDATE") value = .ok .kvUpdate := by
        rw [commandOf, if_neg (by decide), if_neg (by decide), if_neg (by decide), if_pos rfl,
          if_neg hv.nonempty]
      have hparse := parse_withValue operate env pam (by decide) (numeral_typedKey j key) hv.line hcmd
      rw [← hparse, Choice.command, List.append_assoc]
      rfl
  | get j =>
      have hop : TakesKey (ascii "KV_GET") := by decide
      exact parse_keyOnly operate env pam hop (numeral_typedKey j key) rfl
  | delete j =>
      have hop : TakesKey (ascii "KV_DELETE") := by decide
      exact parse_keyOnly operate env pam hop (numeral_typedKey j key) rfl

end Operation

/-- There is no zero byte in the text of a choice. -/
theorem Choice.Asks.noNul {key : HashKey} {c : Choice} {cmd : Cmd} {keyText value : List UInt8}
    (h : c.Asks key cmd keyText value) : (0 : UInt8) ∉ c.command := by
  have hkey : ∀ j, (0 : UInt8) ∉ typedKey j key := fun j =>
    (isToken_of_numeral (numeral_typedKey j key)).noNul
  cases h with
  | insert j hv =>
      simp only [Choice.command, List.mem_append, not_or]
      exact ⟨⟨⟨by decide, hkey j⟩, by decide⟩, hv.noNul⟩
  | update j hv =>
      simp only [Choice.command, List.mem_append, not_or]
      exact ⟨⟨⟨by decide, hkey j⟩, by decide⟩, hv.noNul⟩
  | get j =>
      simp only [Choice.command, List.mem_append, not_or]
      exact ⟨by decide, hkey j⟩
  | delete j =>
      simp only [Choice.command, List.mem_append, not_or]
      exact ⟨by decide, hkey j⟩

theorem Choice.Asks.parseKey {key : HashKey} {c : Choice} {cmd : Cmd} {keyText value : List UInt8}
    (h : c.Asks key cmd keyText value) : parseKey keyText = some key := by
  cases h with
  | insert j hv => exact parseKey_typedKey j key
  | update j hv => exact parseKey_typedKey j key
  | get j => exact parseKey_typedKey j key
  | delete j => exact parseKey_typedKey j key

/-- A choice that is delivered by one read is the command of that read. -/
theorem Choice.Asks.chunk_command {key : HashKey} {c : Choice} {cmd : Cmd}
    {keyText value : List UInt8} (h : c.Asks key cmd keyText value) {chunk : Chunk}
    (hchunk : chunk.1 = c.command) : chunk.command = c.command := by
  rw [Chunk.command, hchunk, val_cstr_of_notMem h.noNul]

/-- **The parser inverts the encoder.**  A choice of the menu that asks for an operation on a key, and
whose text is delivered by one read, makes the daemon call `do_kv_operation` with the command of the
choice, with a text that `parse_key` takes for the key, and with exactly the value that was typed. -/
theorem parse_choice {key : HashKey} {c : Choice} {cmd : Cmd} {keyText value : List UInt8}
    (h : c.Asks key cmd keyText value) (chunk : Chunk) (hchunk : chunk.1 = c.command)
    (env : CommandEnv) (pam : Pam) :
    parseKey keyText = some key ∧
      (∀ operate, parseAndHandleCommandWith operate env pam chunk.command true =
        (operate cmd keyText value >>= fun answer => .ret (answer, true))) ∧
      parseAndHandleCommand env pam chunk.command true =
        (doKvOperation (sysIoctl env) cmd keyText value >>= fun answer => .ret (answer, true)) := by
  rw [h.chunk_command hchunk, ← parseAndHandleCommandWith_doKvOperation]
  exact ⟨h.parseKey, fun operate => h.parse operate env pam, h.parse _ env pam⟩

/-- A value of blanks and quotes, for a key with a zero in front. -/
theorem parse_choice_blanks :
    parseKey (ascii "07") = some 7 ∧
      (∀ operate, parseAndHandleCommandWith operate .ok (fun _ _ => false)
          (ascii "KV_INSERT 07  \"a \" ") true =
        (operate .kvInsert (ascii "07") (ascii " \"a \" ") >>= fun answer =>
          .ret (answer, true))) ∧
      parseAndHandleCommand .ok (fun _ _ => false) (ascii "KV_INSERT 07  \"a \" ") true =
        (doKvOperation (sysIoctl .ok) .kvInsert (ascii "07") (ascii " \"a \" ") >>= fun answer =>
          .ret (answer, true)) :=
  parse_choice (@Choice.Asks.insert 7 1 _ ⟨by decide, by decide, by decide⟩)
    ⟨ascii "KV_INSERT 07  \"a \" ", by decide⟩ rfl .ok (fun _ _ => false)

/-! ### Credentials -/

/-- What `auth_user` sends. -/
def authCommand (username password : List UInt8) : List UInt8 :=
  ascii "AUTH " ++ username ++ ascii " " ++ password

/-- What `auth_user` returns when `read` has brought an answer, unless it asks for the credentials
again.  There is room for 127 bytes in its buffer, which was cleared before. -/
def authUser (answer : List UInt8) : Option ℤ :=
  if answer = [] then some (-1)
  else if (afterFirst (ascii "OK") (cstr (answer.take 127)).1).isSome then some 0
  else none

/-- A user name or a password that can be typed: a line that is not empty, without zero bytes. -/
abbrev IsCredential (text : List UInt8) : Prop := IsValue text

/-- PAM is asked about the credentials that were typed, whatever it says about any others, its verdict
is answered, and the client takes the answer for this verdict. -/
def Authenticates (env : CommandEnv) (chunk : Chunk) (username password : List UInt8) : Prop :=
  ∀ (pam : Pam) (authenticated : Bool), ∃ answer,
    parseAndHandleCommand env pam chunk.command authenticated =
        .ret (answer, authenticated || pam username password) ∧
      answer = (if pam username password then ascii "OK\n" else ascii "FAIL\n") ∧
      (authUser answer = some 0 ↔ pam username password = true)

theorem handleAuth_blank (pam : Pam) (rest : List UInt8) :
    handleAuth pam (32 :: rest) = handleAuth pam rest := rfl

/-- `AUTH` with what follows it. -/
theorem parse_auth (env : CommandEnv) (pam : Pam) (rest : List UInt8) (authenticated : Bool) :
    parseAndHandleCommand env pam (ascii "AUTH" ++ 32 :: rest) authenticated =
      .ret ((handleAuth pam rest).1, authenticated || (handleAuth pam rest).2) := by
  have hauth : IsToken (ascii "AUTH") := by decide
  have hfirst : token (ascii "AUTH" ++ 32 :: rest) = some (ascii "AUTH", 32 :: rest) := by
    refine token_append (by decide) hauth.noSpace ?_
    rintro b ⟨⟩
    rfl
  unfold parseAndHandleCommand
  rw [hfirst]
  dsimp only
  rw [if_pos rfl, handleAuth_blank]
  rfl

/-- Two words are handed to PAM as they are. -/
theorem handleAuth_words (pam : Pam) {username password : List UInt8} (hu : username ≠ [])
    (hp : password ≠ []) (hus : ∀ b ∈ username, isSpace b = false)
    (hps : ∀ b ∈ password, isSpace b = false) :
    handleAuth pam (username ++ 32 :: password) =
      if pam username password then (ascii "OK\n", true) else (ascii "FAIL\n", false) := by
  have hfirst : token (username ++ 32 :: password) = some (username, 32 :: password) := by
    refine token_append hu hus ?_
    rintro b ⟨⟩
    rfl
  have hsecond : token (32 :: password) = some (password, []) := by
    have happ : token (password ++ []) = some (password, []) := token_append hp hps nofun
    rw [List.append_nil] at happ
    rw [token_blank, happ]
  unfold handleAuth
  rw [hfirst]
  dsimp only
  rw [hsecond]

/-- PAM has accepted two words. -/
theorem words_of_handleAuth {pam : Pam} {rest : List UInt8} (h : (handleAuth pam rest).2 = true) :
    ∃ username password, pam username password = true ∧ (∀ b ∈ username, isSpace b = false) ∧
      ∀ b ∈ password, isSpace b = false := by
  unfold handleAuth at h
  cases hfirst : token rest with
  | none =>
      rw [hfirst] at h
      cases h
  | some p =>
      rw [hfirst] at h
      dsimp only at h
      cases hsecond : token p.2 with
      | none =>
          rw [hsecond] at h
          cases h
      | some q =>
          rw [hsecond] at h
          dsimp only at h
          refine ⟨p.1, q.1, ?_, isSpace_of_token hfirst, isSpace_of_token hsecond⟩
          by_contra hpam
          rw [if_neg hpam] at h
          cases h

/-- An `AUTH` that is delivered by one read is the command of that read. -/
theorem chunk_command_auth {chunk : Chunk} {username password : List UInt8}
    (hu : IsCredential username) (hp : IsCredential password)
    (hchunk : chunk.1 = authCommand username password) :
    chunk.command = ascii "AUTH" ++ 32 :: (username ++ 32 :: password) := by
  have hnul : (0 : UInt8) ∉ authCommand username password := by
    simp only [authCommand, List.mem_append, not_or]
    exact ⟨⟨⟨by decide, hu.noNul⟩, by decide⟩, hp.noNul⟩
  rw [Chunk.command, hchunk, val_cstr_of_notMem hnul, authCommand, List.append_assoc]
  rfl

/-- **Credentials.**  An `AUTH` that is delivered by one read makes the daemon ask PAM about exactly the
user name and the password that were typed, and the client report success exactly if PAM accepts them,
exactly when there is no white space in either of them. -/
theorem authenticates_iff (env : CommandEnv) {username password : List UInt8}
    (hu : IsCredential username) (hp : IsCredential password) (chunk : Chunk)
    (hchunk : chunk.1 = authCommand username password) :
    Authenticates env chunk username password ↔
      (∀ b ∈ username, isSpace b = false) ∧ ∀ b ∈ password, isSpace b = false := by
  unfold Authenticates
  rw [chunk_command_auth hu hp hchunk]
  constructor
  · intro h
    -- a PAM that accepts what was typed and nothing else
    obtain ⟨answer, hret, -, -⟩ :=
      h (fun u p => decide (u = username ∧ p = password)) false
    rw [parse_auth, Prog.ret.injEq, Prod.mk.injEq, Bool.false_or, Bool.false_or] at hret
    have haccepted := hret.2.trans (decide_eq_true ⟨rfl, rfl⟩)
    obtain ⟨u, p, hpam, hus, hps⟩ := words_of_handleAuth haccepted
    obtain ⟨rfl, rfl⟩ := of_decide_eq_true hpam
    exact ⟨hus, hps⟩
  · rintro ⟨hus, hps⟩ pam authenticated
    refine ⟨_, parse_auth env pam _ authenticated |>.trans ?_, rfl, ?_⟩
    · rw [handleAuth_words pam hu.nonempty hp.nonempty hus hps]
      cases pam username password with
      | false => rfl
      | true => rfl
    · cases pam username password with
      | false => exact ⟨fun h => absurd h (by decide), nofun⟩
      | true => exact ⟨fun _ => rfl, fun _ => by decide⟩

/-- A user and a password without white space. -/
theorem authenticates_words :
    Authenticates .ok ⟨ascii "AUTH bob s3cret", by decide⟩ (ascii "bob") (ascii "s3cret") ↔
      (∀ b ∈ ascii "bob", isSpace b = false) ∧ ∀ b ∈ ascii "s3cret", isSpace b = false :=
  authenticates_iff .ok ⟨by decide, by decide, by decide⟩ ⟨by decide, by decide, by decide⟩
    ⟨ascii "AUTH bob s3cret", by decide⟩ rfl

/-- The password `my pass` is cut at its blank: PAM is asked about `my`, and a user whose password that
is gets in. -/
theorem passphrase_cut :
    IsCredential (ascii "bob") ∧ IsCredential (ascii "my pass") ∧
      (∀ pam : Pam, parseAndHandleCommand .ok pam (authCommand (ascii "bob") (ascii "my pass")) false =
        .ret (if pam (ascii "bob") (ascii "my") then (ascii "OK\n", true)
          else (ascii "FAIL\n", false))) ∧
      ¬ Authenticates .ok ⟨authCommand (ascii "bob") (ascii "my pass"), by decide⟩ (ascii "bob")
        (ascii "my pass") := by
  have hparse : ∀ pam : Pam,
      parseAndHandleCommand .ok pam (authCommand (ascii "bob") (ascii "my pass")) false =
        .ret (if pam (ascii "bob") (ascii "my") then (ascii "OK\n", true)
          else (ascii "FAIL\n", false)) := by
    intro pam
    have hwords : handleAuth pam (ascii "bob my pass") =
        if pam (ascii "bob") (ascii "my") then (ascii "OK\n", true) else (ascii "FAIL\n", false) := by
      rfl
    refine (parse_auth .ok pam (ascii "bob my pass") false).trans ?_
    rw [hwords, Bool.false_or]
  refine ⟨⟨by decide, by decide, by decide⟩, ⟨by decide, by decide, by decide⟩, hparse, ?_⟩
  intro h
  obtain ⟨answer, hret, -, -⟩ := h (fun _ p => decide (p = ascii "my pass")) false
  have hcut := (hparse (fun _ p => decide (p = ascii "my pass"))).symm.trans hret
  rw [Prog.ret.injEq, if_neg (by decide), Prod.mk.injEq] at hcut
  cases hcut.2

end Daemon
