/-
**The messages of the ioctl interface.**

`include/kv_ioctl.h` defines the two structures that cross the boundary between the kernel module
and its users.  They are modelled with their padding: on a 64-bit machine four bytes lie between
`status` and `key` of a `kv_message`, and four bytes follow `count` in a `kv_snapshot_message`, so
that a structure is determined by its bytes and nothing is lost when it is written to a file.

Main definitions:

* `KvIoctl.KvMessage`, `KvIoctl.KvSnapshotMessage` — the two structures;
* `KvIoctl.KvMessage.encode`, `KvIoctl.KvMessage.decode` — the 80 bytes of a message;
* `KvIoctl.KvSnapshotMessage.encode`, `KvIoctl.decodeHeader` — the bytes of a snapshot, and the
  reading of its 16-byte header.

Main results:

* `KvIoctl.KvMessage.decode_encode` — **a message is read back from its bytes**;
* `KvIoctl.readMessages_flatMap` — an array of messages is read back, whatever follows it;
* `KvIoctl.decodeHeader_encode` — the header is read back from the first 16 bytes of a snapshot;
* `KvIoctl.KvSnapshotMessage.encode_injective` — the bytes of a snapshot determine it.
-/

import KvStore.ByteRecord
import KvStore.CString

set_option relaxedAutoImplicit false
set_option autoImplicit false

namespace KvIoctl

open CMem ByteRecord

/-! ### The structures -/

/-- The size of the value field. -/
abbrev MAX_VALUE_LEN : ℕ := 64

/-- `SUCCESS`. -/
abbrev SUCCESS : Int32 := 0

/-- `ERROR`. -/
abbrev ERROR : Int32 := 1

/-- `struct kv_message`, with its four bytes of padding. -/
structure KvMessage where
  status : Int32
  pad : UInt32
  key : UInt64
  value : Buf MAX_VALUE_LEN
deriving DecidableEq

/-- `struct kv_snapshot_message`, with the padding after its three counters. -/
structure KvSnapshotMessage where
  status : Int32
  capacity : UInt32
  count : UInt32
  pad : UInt32
  entries : List KvMessage
deriving DecidableEq

/-- A message of zeros. -/
def KvMessage.zero : KvMessage := ⟨0, 0, 0, zeros MAX_VALUE_LEN⟩

/-! ### Their bytes -/

/-- The four bytes of a 32-bit number. -/
def word (x : UInt32) : List UInt8 := leBytes 4 x.toNat

/-- The 32-bit number in the first four of the given bytes. -/
def readWord (bs : List UInt8) : UInt32 := UInt32.ofNat (leValue (bs.take 4))

@[simp] theorem length_word (x : UInt32) : (word x).length = 4 := length_leBytes 4 _

/-- A 32-bit number is read back, whatever follows it. -/
@[simp] theorem readWord_word (x : UInt32) (rest : List UInt8) : readWord (word x ++ rest) = x := by
  have hlt : x.toNat < 256 ^ 4 := lt_of_lt_of_eq x.toNat_lt (by norm_num)
  rw [readWord, List.take_left' (length_word x), word, leValue_leBytes hlt, UInt32.ofNat_toNat]

/-- The four bytes of the number in four bytes. -/
theorem word_readWord {bs : List UInt8} (h : 4 ≤ bs.length) : word (readWord bs) = bs.take 4 := by
  have hlen : (bs.take 4).length = 4 := by
    rw [List.length_take]
    omega
  have hlt : leValue (bs.take 4) < 2 ^ 32 := by
    have hval := leValue_lt (bs.take 4)
    rw [hlen] at hval
    exact lt_of_lt_of_eq hval (by norm_num)
  have hbytes := leBytes_leValue (bs.take 4)
  rwa [hlen, ← UInt32.toNat_ofNat_of_lt' hlt] at hbytes

/-- The rest of the bytes after a 32-bit number. -/
@[simp] theorem drop_word (x : UInt32) (rest : List UInt8) (n : ℕ) :
    (word x ++ rest).drop (4 + n) = rest.drop n := by
  rw [← List.drop_drop, List.drop_left' (length_word x)]

/-- The bytes of a message. -/
def KvMessage.encode (m : KvMessage) : List UInt8 :=
  word m.status.toUInt32 ++ (word m.pad ++ (leBytes 8 m.key.toNat ++ m.value.1))

/-- The message with the given bytes. -/
def KvMessage.decode (bs : List UInt8) : KvMessage where
  status := (readWord bs).toInt32
  pad := readWord (bs.drop 4)
  key := UInt64.ofNat (leValue ((bs.drop 8).take 8))
  value := memcpy (zeros MAX_VALUE_LEN) (bs.drop 16)

@[simp] theorem KvMessage.length_encode (m : KvMessage) : m.encode.length = 80 := by
  have hvalue : m.value.1.length = 64 := m.value.2
  simp [KvMessage.encode, hvalue]

/-- A message is read back from its bytes. -/
theorem KvMessage.decode_encode (m : KvMessage) : KvMessage.decode m.encode = m := by
  have hpad : m.encode.drop 4 = word m.pad ++ (leBytes 8 m.key.toNat ++ m.value.1) :=
    drop_word _ _ 0
  have hkey : m.encode.drop 8 = leBytes 8 m.key.toNat ++ m.value.1 := by
    rw [show 8 = 4 + 4 from rfl, ← List.drop_drop, hpad]
    exact drop_word _ _ 0
  have hvalue : m.encode.drop 16 = m.value.1 := by
    rw [show 16 = 8 + 8 from rfl, ← List.drop_drop, hkey, List.drop_left' (length_leBytes 8 _)]
  have hlt : m.key.toNat < 256 ^ 8 := lt_of_lt_of_eq m.key.toNat_lt (by norm_num)
  rw [KvMessage.decode, hpad, hkey, hvalue, memcpy_val, readWord_word,
    List.take_left' (length_leBytes 8 _), leValue_leBytes hlt, UInt64.ofNat_toNat,
    KvMessage.encode, readWord_word, Int32.toInt32_toUInt32]

/-- The messages in the first `n` records of the given bytes. -/
def readMessages (n : ℕ) (bs : List UInt8) : List KvMessage := (records 80 n bs).map KvMessage.decode

/-- Messages written one after the other are read back, whatever follows them. -/
theorem readMessages_flatMap (ms : List KvMessage) (rest : List UInt8) :
    readMessages ms.length (ms.flatMap KvMessage.encode ++ rest) = ms := by
  have hid : KvMessage.decode ∘ KvMessage.encode = id := funext KvMessage.decode_encode
  rw [readMessages, records_flatMap KvMessage.length_encode, List.map_map, hid, List.map_id]

theorem length_flatMap_encode (ms : List KvMessage) :
    (ms.flatMap KvMessage.encode).length = 80 * ms.length := by
  induction ms with
  | nil => rfl
  | cons m ms ih =>
      rw [List.flatMap_cons, List.length_append, m.length_encode, ih, List.length_cons]
      omega

/-- The header of a snapshot. -/
def KvSnapshotMessage.header (m : KvSnapshotMessage) : List UInt8 :=
  word m.status.toUInt32 ++ (word m.capacity ++ (word m.count ++ word m.pad))

/-- The bytes of a snapshot: the header, and the entries. -/
def KvSnapshotMessage.encode (m : KvSnapshotMessage) : List UInt8 :=
  m.header ++ m.entries.flatMap KvMessage.encode

/-- The header at the start of the given bytes, with no entries.  Where bytes are missing, those of
a header of zeros stay in place. -/
def decodeHeader (bs : List UInt8) : KvSnapshotMessage :=
  let hdr := (memcpy (zeros 16) bs).1
  { status := (readWord hdr).toInt32
    capacity := readWord (hdr.drop 4)
    count := readWord (hdr.drop 8)
    pad := readWord (hdr.drop 12)
    entries := [] }

@[simp] theorem KvSnapshotMessage.length_header (m : KvSnapshotMessage) :
    m.header.length = 16 := by
  simp [KvSnapshotMessage.header]

theorem KvSnapshotMessage.drop_encode (m : KvSnapshotMessage) :
    m.encode.drop 16 = m.entries.flatMap KvMessage.encode :=
  List.drop_left' m.length_header

/-- The header is read back from the bytes of a snapshot. -/
theorem decodeHeader_encode (m : KvSnapshotMessage) :
    decodeHeader m.encode = { m with entries := [] } := by
  have hhdr : (memcpy (zeros 16) m.encode).1 = m.header := by
    have hlen : (zeros 16).1.drop m.encode.length = [] := by
      refine List.drop_of_length_le ?_
      rw [(zeros 16).2, KvSnapshotMessage.encode, List.length_append, m.length_header]
      omega
    rw [val_memcpy, hlen, List.append_nil, KvSnapshotMessage.encode,
      List.take_left' m.length_header]
  have h4 : m.header.drop 4 = word m.capacity ++ (word m.count ++ word m.pad) := drop_word _ _ 0
  have h8 : m.header.drop 8 = word m.count ++ word m.pad := by
    rw [show 8 = 4 + 4 from rfl, ← List.drop_drop, h4]
    exact drop_word _ _ 0
  have h12 : m.header.drop 12 = word m.pad ++ [] := by
    rw [show 12 = 8 + 4 from rfl, ← List.drop_drop, h8, List.append_nil]
    exact drop_word _ _ 0
  simp only [decodeHeader, hhdr, h4, h8, h12, readWord_word]
  simp [KvSnapshotMessage.header]

theorem KvSnapshotMessage.length_encode (m : KvSnapshotMessage) :
    m.encode.length = 16 + 80 * m.entries.length := by
  rw [KvSnapshotMessage.encode, List.length_append, m.length_header, length_flatMap_encode]

/-- The bytes of a snapshot determine it. -/
theorem KvSnapshotMessage.encode_injective : Function.Injective KvSnapshotMessage.encode := by
  intro m m' h
  have hheader : ({ m with entries := [] } : KvSnapshotMessage) = { m' with entries := [] } := by
    rw [← decodeHeader_encode, ← decodeHeader_encode, h]
  have hlen : m.entries.length = m'.entries.length := by
    have hbytes := congrArg List.length h
    rw [m.length_encode, m'.length_encode] at hbytes
    omega
  have hentries : m.entries = m'.entries := by
    have hread := readMessages_flatMap m.entries []
    rw [← m.drop_encode, h, m'.drop_encode, hlen, readMessages_flatMap] at hread
    exact hread.symm
  obtain ⟨status, capacity, count, pad, entries⟩ := m
  obtain ⟨status', capacity', count', pad', entries'⟩ := m'
  simp only [KvSnapshotMessage.mk.injEq, and_true] at hheader hentries ⊢
  obtain ⟨hstatus, hcapacity, hcount, hpad⟩ := hheader
  exact ⟨hstatus, hcapacity, hcount, hpad, hentries⟩

end KvIoctl
