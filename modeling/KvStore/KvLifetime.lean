/-
**A life of the module.**

The module is loaded, clients use it all at once, and when they have returned it is unloaded.
`cleanup_module` destroys the table before it unregisters the device, but the kernel does not unload a module
while a file of it is open, so that no ioctl is under way then.

This module puts the parts together: `kv_hash_init` sets up a table, the clients leave a table behind, whatever
their schedule, and `kv_hash_destroy` frees what belongs to it but for the array of the locks.  Nothing that
the clients have allocated outlives the module.

Main definitions:

* `KvMemory.LoadEnv.loaded` — `init_module` in a memory of which nothing has been allocated;
* `KvMemory.cleanupModule` — `cleanup_module`.

Main result:

* `KvMemory.module_lifetime` — **what is left of the module** is the array of the locks.
-/

import KvStore.KvLoading
import KvStore.KvOwnership
import KvStore.KvTermination

set_option relaxedAutoImplicit false
set_option autoImplicit false

namespace KvMemory

open CMem KvHash KvIoctl Interleave

variable {H : HashFn} {ι : Type}

/-- `init_module` from `cdev_add` on, when nothing else is called meanwhile. -/
def LoadEnv.loaded (H : HashFn) (env : LoadEnv) (m : Memory) : ℤ × Memory :=
  (initModule H.bits env).run exec { m.unused with table := .zero }

/-- `cleanup_module`, up to the calls that unregister the device. -/
def cleanupModule (fuel : ℕ) : Code (Option Unit) := kvHashDestroy fuel

/-- When `init_module` succeeds, `kv_hash_init` has. -/
theorem started_of_loaded {env : LoadEnv} {m : Memory} (h : (env.loaded H m).1 = 0) :
    (started H env.arrays { m with table := .zero }).1 = 0 ∧
      (env.loaded H m).2 = (started H env.arrays { m with table := .zero }).2 := by
  obtain ⟨classCreate, deviceCreate, arrays⟩ := env
  cases classCreate with
  | false =>
      have hret : (-1 : ℤ) = 0 := h
      exact absurd hret (by decide)
  | true =>
      cases deviceCreate with
      | false =>
          have hret : (-1 : ℤ) = 0 := h
          exact absurd hret (by decide)
      | true =>
          have hloaded : LoadEnv.loaded H ⟨true, true, arrays⟩ m =
              let r := started H arrays { m with table := .zero }
              (if r.1 < 0 then -1 else 0, r.2) := by
            have hrun : LoadEnv.loaded H ⟨true, true, arrays⟩ m =
                (kvHashInit H.bits arrays >>= fun ret =>
                  if ret < 0 then (pure (-1) : Code ℤ) else pure 0).run exec
                  ({ m with table := .zero } : Memory).unused := rfl
            rw [hrun, Prog.run_bind]
            dsimp only [started]
            split
            · rfl
            · rfl
          rw [hloaded] at h ⊢
          dsimp only at h ⊢
          refine ⟨?_, rfl⟩
          obtain ⟨hret, -⟩ | ⟨hret, -⟩ := started_spec H arrays { m with table := .zero }
          · exact hret
          · rw [hret] at h
            exact absurd h (by decide)

section Lifetime

variable [DecidableEq ι] [Fintype ι]

/-- **What is left of the module.**  The module is loaded, and clients run their instructions in any order that
is fair.  Then all of them return, and `cleanup_module` uses live blocks only, frees each block that is live
once but for the array of the locks, and leaves no table to the calls after it. -/
theorem module_lifetime {env : LoadEnv} {m : Memory} (hloaded : (env.loaded H m).1 = 0)
    (cs : ι → List IoctlCall) {fuel : ℕ}
    (hfuel : (env.loaded H m).2.live.card + ∑ i, 2 * (cs i).length ≤ fuel) {σ : ℕ → ι}
    (hfair : ∀ i n, ∃ k, n ≤ k ∧ σ k = i) :
    ∃ n, let p := (clients H fuel (env.loaded H m).2 cs).turns exec may ((List.range n).map σ)
      (∀ i, ∃ answers, answers.length = (cs i).length ∧ p.thread i = .ret (some answers)) ∧
        ∃ locks, p.shared.table.bucketLocks = some locks ∧
          (cleanupModule p.shared.live.card).Ensures exec Safe
            (fun r t => r = some () ∧ t.live = {locks} ∧ Refuses H t) p.shared ∧
          ∀ a ∈ p.shared.live, ((cleanupModule p.shared.live.card).trace exec p.shared).count
            (.kfree (some a)) = if a = locks then 0 else 1 := by
  obtain ⟨hret, hmemory⟩ := started_of_loaded hloaded
  have hrepresents : (env.loaded H m).2.Represents (Store.init H) := hmemory ▸ represents_started hret
  obtain ⟨n, A, G, q, hlinked, hreturned⟩ := linked_returned hrepresents cs hfuel hfair
  have hdone : ∀ i, (((clients H fuel (env.loaded H m).2 cs).turns exec may
      ((List.range n).map σ)).thread i).result? ≠ none := by
    intro i
    obtain ⟨answers, -, hi⟩ := hreturned i
    rw [hi]
    exact Option.some_ne_none _
  obtain ⟨L, hwhole, -⟩ := represents_of_returned hlinked hdone
  exact ⟨n, hreturned, L.locks, hwhole.keeps_locks⟩

/-- A module with two buckets, in which all calls succeed, and the two arrays are 1 and 2. -/
def twoBucketsLoaded : LoadEnv := ⟨true, true, ⟨some 1, some 2⟩⟩

theorem twoInserters_lifetime :
    ∃ n,
      let p := (clients twoBuckets 10 (twoBucketsLoaded.loaded twoBuckets blank).2 twoInserters).turns
        exec may ((List.range n).map alternately)
      (∀ i, ∃ answers, answers.length = (twoInserters i).length ∧ p.thread i = .ret (some answers)) ∧
        ∃ locks, p.shared.table.bucketLocks = some locks ∧
          (cleanupModule p.shared.live.card).Ensures exec Safe
            (fun r t => r = some () ∧ t.live = {locks} ∧ Refuses twoBuckets t) p.shared ∧
          ∀ a ∈ p.shared.live, ((cleanupModule p.shared.live.card).trace exec p.shared).count
            (.kfree (some a)) = if a = locks then 0 else 1 :=
  module_lifetime rfl twoInserters (by decide) alternately_fair

end Lifetime

end KvMemory
