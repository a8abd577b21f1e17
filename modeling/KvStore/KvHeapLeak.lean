/-
**What a snapshot shows of the kernel's heap.**

`_handle_kv_snapshot` builds the image in memory obtained from `kmalloc`, whose contents are
whatever was freed there before.  The fields of the header and of the entries are all written, and
the value fields are cleared first; but the image is copied to the user in one piece, with the four
bytes of padding after the three counters and the four bytes between status and key of every entry,
and these nobody writes.

The heap is a byte array here, and what the handler meets in its fields is read from it.

Main definitions:

* `KvIoctl.KernelEnv.onHeap` — a call whose buffer starts out with the given bytes;
* `KvIoctl.copiedBytes` — the bytes the user receives;
* `KvIoctl.Copies` — the requests that are answered with an image.

Main results:

* `KvIoctl.clearPad_imageOf` — apart from the padding, an image does not depend on the heap;
* `KvIoctl.padding_copiedBytes` — **the padding of the header is the heap's**;
* `KvIoctl.copiedBytes_heap_iff` — a call is independent of the heap exactly when it is not answered
  with an image.
-/

import KvStore.Daemon

set_option relaxedAutoImplicit false
set_option autoImplicit false

namespace KvIoctl

open CMem Interleave KvHash Daemon

variable {H : HashFn}

/-! ### The buffer as bytes -/

/-- The `n` bytes from `offset` on. -/
def heapBytes (heap : ℕ → UInt8) (offset n : ℕ) : List UInt8 :=
  (List.range n).map fun i => heap (offset + i)

@[simp] theorem length_heapBytes (heap : ℕ → UInt8) (offset n : ℕ) :
    (heapBytes heap offset n).length = n := by
  simp [heapBytes]

/-- The call when the memory it obtains holds the given bytes: 16 for the header, and 80 for each of
the slots after it. -/
def KernelEnv.onHeap (env : KernelEnv) (heap : ℕ → UInt8) : KernelEnv :=
  { env with
    heapHeader := decodeHeader (heapBytes heap 0 16)
    heapSlot := fun i => KvMessage.decode (heapBytes heap (16 + 80 * i) 80) }

/-- The bytes that `_handle_kv_snapshot` copies to the user. -/
def copiedBytes (env : KernelEnv) (alloc : Alloc) (arg : KvSnapshotMessage) (s : Store H) :
    List UInt8 :=
  ((handleKvSnapshot env arg).run (exec alloc) s).1.2.elim [] KvSnapshotMessage.encode

/-! ### When an image is copied -/

/-- The request asks for as many entries as are counted, which is a positive `int`, memory is found
for them, and both copies succeed. -/
def Copies (env : KernelEnv) (arg : KvSnapshotMessage) (s : Store H) : Prop :=
  env.copyFromUser = true ∧ env.kmalloc = true ∧ env.copyToUser = true ∧
    arg.capacity.toNat = entryCount s ∧ 0 < entryCount s ∧ entryCount s < 2 ^ 31

instance (env : KernelEnv) (arg : KvSnapshotMessage) (s : Store H) : Decidable (Copies env arg s) :=
  inferInstanceAs (Decidable (_ ∧ _))

theorem image_handleKvSnapshot (env : KernelEnv) (alloc : Alloc) (arg : KvSnapshotMessage)
    (s : Store H) :
    ((handleKvSnapshot env arg).run (exec alloc) s).1.2 =
      if Copies env arg s then some (imageOf env s) else none := by
  have hcap : UInt32.ofNat (entryCount s) = arg.capacity ↔ arg.capacity.toNat = entryCount s := by
    rw [← UInt32.toNat_inj, toNat_ofNat_entryCount, eq_comm]
  rw [run_handleKvSnapshot, ← entryCount, run_snapshotCounted _ _ _ (entryCount_lt s)]
  by_cases hcopies : Copies env arg s
  · obtain ⟨hin, hmem, hout, hcount, hpos, hlt⟩ := id hcopies
    have hsize := (allocSize_lt_iff (entryCount_lt s)).2 hlt
    have hne : entryCount s ≠ 0 := by omega
    rw [if_pos hcopies, if_neg (by rw [hin]; decide), if_neg (not_not.2 (hcap.2 hcount)), hmem,
      decide_eq_true hsize, if_neg (by decide), if_neg hne, if_neg (by rw [hout]; decide),
      length_take_entryCount]
    rfl
  · rw [if_neg hcopies]
    by_cases hin : env.copyFromUser = false
    · rw [if_pos hin]
    rw [if_neg hin]
    by_cases hcount : arg.capacity.toNat = entryCount s
    · rw [if_neg (not_not.2 (hcap.2 hcount))]
      by_cases hmem : (!(env.kmalloc && decide (allocSize (Int32.ofNat (entryCount s)) < 2 ^ 63))) =
          true
      · rw [if_pos hmem]
      rw [if_neg hmem]
      by_cases hzero : entryCount s = 0
      · rw [if_pos hzero]
      rw [if_neg hzero]
      by_cases hout : env.copyToUser = false
      · rw [if_pos hout]
      · rw [Bool.not_eq_true, Bool.not_eq_false', Bool.and_eq_true, decide_eq_true_eq,
          allocSize_lt_iff (entryCount_lt s)] at hmem
        rw [Bool.not_eq_false] at hin hout
        exact absurd ⟨hin, hmem.1, hout, hcount, by omega, hmem.2⟩ hcopies
    · rw [if_pos fun h => hcount (hcap.1 h)]

theorem copiedBytes_eq (env : KernelEnv) (alloc : Alloc) (arg : KvSnapshotMessage) (s : Store H) :
    copiedBytes env alloc arg s = if Copies env arg s then (imageOf env s).encode else [] := by
  rw [copiedBytes, image_handleKvSnapshot]
  split <;> rfl

/-- Whether an image is copied does not depend on the heap. -/
theorem copies_onHeap (env : KernelEnv) (heap : ℕ → UInt8) (arg : KvSnapshotMessage)
    (s : Store H) : Copies (env.onHeap heap) arg s ↔ Copies env arg s := Iff.rfl

/-! ### The padding -/

/-- The message with its padding cleared. -/
def KvMessage.clearPad (m : KvMessage) : KvMessage := { m with pad := 0 }

/-- The image with all padding cleared. -/
def KvSnapshotMessage.clearPad (m : KvSnapshotMessage) : KvSnapshotMessage :=
  { m with pad := 0, entries := m.entries.map KvMessage.clearPad }

theorem map_clearPad_zipWith {slots slots' : List KvMessage} (hlen : slots.length = slots'.length)
    (done : Chain) :
    (List.zipWith copyEntry done slots).map KvMessage.clearPad =
      (List.zipWith copyEntry done slots').map KvMessage.clearPad := by
  induction done generalizing slots slots' with
  | nil => rfl
  | cons e done ih =>
      cases slots with
      | nil =>
          obtain rfl : slots' = [] := List.length_eq_zero_iff.1 hlen.symm
          rfl
      | cons slot slots =>
          cases slots' with
          | nil => cases hlen
          | cons slot' slots' =>
              have hrec := ih (Nat.succ.inj hlen)
              rw [List.zipWith_cons_cons, List.zipWith_cons_cons, List.map_cons, List.map_cons, hrec]
              rfl

/-- Apart from the padding, an image does not depend on the heap. -/
theorem clearPad_imageOf (env : KernelEnv) (heap heap' : ℕ → UInt8) (s : Store H) :
    (imageOf (env.onHeap heap) s).clearPad = (imageOf (env.onHeap heap') s).clearPad := by
  have hlen : ((List.range (entryCount s)).map (env.onHeap heap).heapSlot).length =
      ((List.range (entryCount s)).map (env.onHeap heap').heapSlot).length := by
    rw [List.length_map, List.length_map]
  have hentries := map_clearPad_zipWith hlen (s.1.entries.take (entryCount s))
  simp only [KvSnapshotMessage.clearPad, imageOf, hentries]

theorem pad_decodeHeader {bs : List UInt8} (h : bs.length = 16) :
    word (decodeHeader bs).pad = bs.drop 12 := by
  have hbuf : (memcpy (zeros 16) bs).1 = bs := congrArg Subtype.val (memcpy_val (zeros 16) ⟨bs, h⟩)
  have hlen : (bs.drop 12).length = 4 := by
    rw [List.length_drop]
    omega
  have hword := @word_readWord (bs.drop 12) (by omega)
  rw [List.take_of_length_le (by omega)] at hword
  simp only [decodeHeader, hbuf]
  exact hword

/-- The padding of the header reaches the user as it was found. -/
theorem padding_copiedBytes {env : KernelEnv} (alloc : Alloc) {arg : KvSnapshotMessage}
    {s : Store H} (h : Copies env arg s) (heap : ℕ → UInt8) :
    ((copiedBytes (env.onHeap heap) alloc arg s).drop 12).take 4 = heapBytes heap 12 4 := by
  have hpad : word (imageOf (env.onHeap heap) s).pad = heapBytes heap 12 4 := by
    refine (pad_decodeHeader (length_heapBytes heap 0 16)).trans ?_
    simp [heapBytes, List.range_succ]
  rw [copiedBytes_eq, if_pos ((copies_onHeap env heap arg s).2 h), KvSnapshotMessage.encode,
    KvSnapshotMessage.header, hpad]
  simp only [List.append_assoc]
  rw [show 12 = 4 + (4 + (4 + 0)) from rfl, drop_word, drop_word, drop_word, List.drop_zero]
  exact List.take_left' (length_heapBytes heap 12 4)

/-- **What the user receives is independent of the heap exactly when it is nothing.**  For every
store and every request, with any outcome of the copies and of the allocation: the bytes that are
copied to the user are the same for any two initial contents of the buffer if and only if no image
is copied at all. -/
theorem copiedBytes_heap_iff (env : KernelEnv) (alloc : Alloc) (arg : KvSnapshotMessage)
    (s : Store H) :
    (∀ heap heap', copiedBytes (env.onHeap heap) alloc arg s =
      copiedBytes (env.onHeap heap') alloc arg s) ↔ ¬ Copies env arg s := by
  constructor
  · intro hsame hcopies
    have hpad := padding_copiedBytes alloc hcopies fun _ => 0
    rw [hsame (fun _ => 0) fun _ => 1, padding_copiedBytes alloc hcopies] at hpad
    exact absurd hpad (by decide)
  · intro hnot heap heap'
    have hnothing : ∀ heap, copiedBytes (env.onHeap heap) alloc arg s = [] := by
      intro heap
      rw [copiedBytes_eq, if_neg fun h => hnot ((copies_onHeap env heap arg s).1 h)]
    rw [hnothing, hnothing]

/-- The store holds one key and the request is for one entry: the bytes 12 to 15 of what the user
receives are those of the heap. -/
theorem copiedBytes_leak :
    let s := ((Store.init HashFn.module).add 7 (ascii "a" ++ [0]) .ok).2
    copiedBytes (KernelEnv.ok.onHeap fun _ => 0) .ok (zeroed 1) s ≠
      copiedBytes (KernelEnv.ok.onHeap fun _ => 1) .ok (zeroed 1) s := by
  intro s hsame
  have hcopies : Copies KernelEnv.ok (zeroed 1) s := by decide +kernel
  have hpad := padding_copiedBytes .ok hcopies fun _ => 0
  rw [hsame, padding_copiedBytes .ok hcopies] at hpad
  exact absurd hpad (by decide)

end KvIoctl
