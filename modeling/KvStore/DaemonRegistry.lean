/-
**The store and the snapshot file as a map that can be saved.**

Between two commands the daemon has its data in two places: the store in the module, and the snapshot
file.  What they amount to is a map, and the map as it was when it was last saved.  Saving an empty map
does nothing.  When the module is unloaded what is not saved is lost, and when the daemon starts what
was saved comes back, except under keys that are there.

The file holds the map as an image of some store that held it.  How that store was laid out, and what
the image has in its padding, is all forgotten here.

Main definitions:

* `Daemon.Registry` — a map that can be saved, with `save`, `forget` and `restore`;
* `Daemon.Realises` — the store and the file hold the two maps.

Main results:

* `Daemon.Realises.snapshot`, `Daemon.Realises.reload`, `Daemon.Realises.restore` — **the daemon's
  functions on the file** do what they are to do to the map;
* `Daemon.Registry.restore_forget_save` — what is saved survives.
-/

import KvStore.DaemonSaveLoad

set_option relaxedAutoImplicit false
set_option autoImplicit false

namespace Daemon

open CMem Interleave KvHash KvIoctl

variable {H : HashFn}

/-! ### Maps that can be saved -/

/-- A map that can be saved: the map as it is, and as it was when it was last saved. -/
structure Registry where
  live : KvMap
  saved : Option KvMap
deriving DecidableEq

namespace Registry

/-- Nothing has been stored or saved. -/
def blank : Registry := ⟨∅, none⟩

/-- The map is saved, unless there is nothing in it. -/
def save (r : Registry) : Registry := if r.live.keys = ∅ then r else { r with saved := some r.live }

/-- What is not saved is lost. -/
def forget (r : Registry) : Registry := { r with live := ∅ }

/-- What was saved comes back, except under keys that are there. -/
def restore (r : Registry) : Registry := { r with live := r.live ∪ r.saved.getD ∅ }

/-- The keys of both maps. -/
def keys (r : Registry) : Finset HashKey := r.live.keys ∪ (r.saved.getD ∅).keys

variable {r : Registry}

theorem keys_live_subset : r.live.keys ⊆ r.keys := Finset.subset_union_left

theorem keys_save_subset : r.save.keys ⊆ r.keys := by
  unfold save
  split
  · exact Finset.Subset.refl _
  · have hlive := keys_live_subset (r := r)
    exact Finset.union_subset hlive hlive

theorem keys_forget_subset : r.forget.keys ⊆ r.keys := by
  have hkeys : r.forget.keys = ∅ ∪ (r.saved.getD ∅).keys := by
    rw [keys, forget, Finmap.keys_empty]
  rw [hkeys, Finset.empty_union]
  exact Finset.subset_union_right

theorem keys_restore_subset : r.restore.keys ⊆ r.keys := by
  have hkeys : r.restore.keys = (r.live.keys ∪ (r.saved.getD ∅).keys) ∪ (r.saved.getD ∅).keys := by
    rw [keys, restore, Finmap.keys_union]
  rw [hkeys]
  exact Finset.union_subset (Finset.Subset.refl _) Finset.subset_union_right

/-- **What is saved survives**, unless there is nothing to save. -/
theorem restore_forget_save (h : r.live.keys ≠ ∅) : r.save.forget.restore = r.save := by
  have hsave : r.save = ⟨r.live, some r.live⟩ := if_neg h
  have hunion : ∅ ∪ r.live = r.live := Finmap.empty_union
  rw [hsave]
  unfold forget restore
  rw [Option.getD_some, hunion]

end Registry

/-! ### What the store and the file hold -/

/-- The file holds a map: it is the image of a store that held it. -/
def FileHolds (H : HashFn) : Option (List UInt8) → Option KvMap → Prop
  | none, none => True
  | some bytes, some m => ∃ (env : KernelEnv) (s : Store H), Holds s m ∧ s.1.entries.length < 2 ^ 32 ∧
      bytes = (imageOf env s).encode
  | _, _ => False

/-- The store and the file hold the two maps. -/
structure Realises (w : World H) (r : Registry) : Prop where
  store : Holds w.store r.live
  file : FileHolds H w.file r.saved

/-- The machine on which the daemon has never run. -/
theorem realises_blank (H : HashFn) : Realises (⟨Store.init H, none⟩ : World H) .blank :=
  ⟨holds_init H, trivial⟩

instance (env : SnapshotEnv) : Decidable env.Succeeds :=
  decidable_of_iff (env.count.copyToUser = true ∧ env.calloc = true ∧ env.snapshot.copyFromUser = true ∧
      env.snapshot.kmalloc = true ∧ env.snapshot.copyToUser = true ∧ env.opens = true)
    ⟨fun h => ⟨h.1, h.2.1, h.2.2.1, h.2.2.2.1, h.2.2.2.2.1, h.2.2.2.2.2⟩,
      fun h => ⟨h.count, h.calloc, h.copyFromUser, h.kmalloc, h.copyToUser, h.opens⟩⟩

/-- Undisturbed, a snapshot is saved exactly if nothing fails and the number of entries is a positive
`int`. -/
theorem saves_iff (env : SnapshotEnv) (n : ℕ) :
    (env.counts n && env.saves n n) = true ↔ 0 < n ∧ n < 2 ^ 31 ∧ env.Succeeds := by
  constructor
  · intro h
    simp only [SnapshotEnv.counts, SnapshotEnv.saves, if_true, Bool.and_eq_true, decide_eq_true_eq] at h
    obtain ⟨⟨⟨⟨hpos, hlt⟩, hcount⟩, hcalloc⟩, ⟨hin, hopens⟩, hmem, hout⟩ := h
    exact ⟨hpos, hlt, hcount, hcalloc, hin, hmem, hout, hopens⟩
  · rintro ⟨hpos, hlt, henv⟩
    simp only [SnapshotEnv.counts, SnapshotEnv.saves, henv.count, henv.calloc, henv.copyFromUser,
      henv.kmalloc, henv.copyToUser, henv.opens, hpos, hlt, decide_true, if_true, Bool.and_true]

/-- The number of entries is that of the keys. -/
theorem entryCount_eq_card {s : Store H} {m : KvMap} (h : Holds s m) (hcard : m.keys.card < 2 ^ 32) :
    entryCount s = m.keys.card := by
  rw [h.card_keys] at hcard ⊢
  exact Nat.mod_eq_of_lt hcard

theorem entries_eq_nil_iff {s : Store H} {m : KvMap} (h : Holds s m) : s.1.entries = [] ↔ m.keys = ∅ := by
  rw [← List.length_eq_zero_iff, ← h.card_keys, Finset.card_eq_zero]

/-- A value that fits into a message is not cut. -/
theorem map_truncate_lookup {s : Store H} {m : KvMap} (h : Holds s m) (key : HashKey) :
    (m.lookup key).map (·.truncate 63) = m.lookup key := by
  cases hkey : m.lookup key with
  | none => rfl
  | some v => rw [Option.map_some, CStr.truncate_of_le (Nat.le_of_lt_succ (h.length_lt key v hkey))]

namespace Realises

variable {w : World H} {r : Registry}

/-- **A snapshot saves the map**, if nothing fails. -/
theorem snapshot (h : Realises w r) (env : SnapshotEnv) (hcard : r.live.keys.card < 2 ^ 31) :
    Realises ((doKvSnapshotToFile env).run (sysExec ()) w).2 (if env.Succeeds then r.save else r) := by
  have hlt : r.live.keys.card < 2 ^ 32 := lt_of_lt_of_le hcard (by decide)
  have hcount := entryCount_eq_card h.store hlt
  rw [run_doKvSnapshotToFile, hcount]
  by_cases hsaves :
      (env.counts r.live.keys.card && env.saves r.live.keys.card r.live.keys.card) = true
  · obtain ⟨hpos, -, henv⟩ := (saves_iff env _).1 hsaves
    have hne : r.live.keys ≠ ∅ := Finset.card_pos.1 hpos |>.ne_empty
    have hsave : r.save = { r with saved := some r.live } := if_neg hne
    rw [if_pos hsaves, if_pos henv, hsave]
    refine ⟨h.store, env.snapshot, w.store, h.store, ?_, rfl⟩
    rw [← h.store.card_keys]
    exact hlt
  · have hkeep : (if env.Succeeds then r.save else r) = r := by
      by_cases henv : env.Succeeds
      · have hempty : r.live.keys = ∅ := by
          by_contra hne
          have hpos := Finset.card_pos.2 (Finset.nonempty_iff_ne_empty.2 hne)
          exact hsaves ((saves_iff env _).2 ⟨hpos, hcard, henv⟩)
        rw [if_pos henv]
        exact if_pos hempty
      · exact if_neg henv
    rw [if_neg hsaves, hkeep]
    exact h

/-- **When the module is loaded again** its store is empty, and the file is what it was. -/
theorem reload (h : Realises w r) : Realises w.reload r.forget := ⟨holds_init H, h.file⟩

/-- **A restore brings back what was saved.** -/
theorem restore (h : Realises w r) {env : RestoreEnv} (henv : env.Inserts) :
    Realises ((doKvRestoreFromFile env).run (sysExec ()) w).2 r.restore := by
  obtain ⟨s, file⟩ := w
  obtain ⟨live, saved⟩ := r
  refine ⟨?_, (file_doKvRestoreFromFile env _).symm ▸ h.file⟩
  cases file with
  | none =>
      cases saved with
      | none =>
          have hlive : (Registry.restore ⟨live, none⟩).live = live := Finmap.union_empty
          rw [run_doKvRestoreFromFile, hlive]
          exact h.store
      | some m => exact h.file.elim
  | some bytes =>
      cases saved with
      | none => exact h.file.elim
      | some m =>
          obtain ⟨kenv, t, ht, hlen, rfl⟩ := h.file
          have hwhole := wholeImage_imageOf kenv t
          have hread := readEntries_encode env hwhole.count_eq
          have hget : ∀ key,
              (storeAfter env (imageOf kenv t).entries s (imageOf kenv t).entries.length).get key =
                if (live.lookup key).isSome then live.lookup key
                else (m.lookup key).or (live.lookup key) := by
            intro key
            rw [get_storeAfter henv hwhole.terminated, List.take_length, dlookup_imageOf kenv hlen,
              ht.get_eq, map_truncate_lookup ht, h.store.found_eq, h.store.get_eq]
          refine ⟨fun key => ?_, fun key v hv => ?_⟩
          · rw [store_doKvRestoreFromFile, hread, hget]
            by_cases hmem : key ∈ live
            · rw [if_pos (Finmap.lookup_isSome.2 hmem)]
              exact (Finmap.lookup_union_left hmem).symm
            · have hnone : live.lookup key = none := Finmap.lookup_eq_none.2 hmem
              rw [hnone, Option.isSome_none, if_neg Bool.false_ne_true, Option.or_none]
              exact (Finmap.lookup_union_right hmem).symm
          · by_cases hmem : key ∈ live
            · exact h.store.length_lt key v ((Finmap.lookup_union_left hmem).symm.trans hv)
            · exact ht.length_lt key v ((Finmap.lookup_union_right hmem).symm.trans hv)

end Realises

end Daemon
