/-
**The numbers that signals close.**

All numbers below that of the listening socket stay taken as long as the device is open.  So the order in
which descriptors are obtained and given back decides what the number of the listening socket designates
when a handler or `kill_network` closes it.  As long as such a close has hit nothing else, the threads'
own variables agree with the table; the first close that does hit something else is one that the order
does not permit.

The runs of the process are followed through their phases: the device is opened, the snapshot is read,
the listening socket is created and its number is made known to the handlers, and from there on until
`main` returns everything is possible.

Main definitions:

* `DaemonFd.Process.Watched` — the order of the calls says what the two numbers stand for;
* `DaemonFd.Process.Phase` — where a process is that has been orderly.

Main results:

* `DaemonFd.Process.Phase.step` — what one step does, as long as the process has been orderly;
* `DaemonFd.Process.sound_iff_orderly` — **the runs in which the right number is closed**.
-/

import KvStore.DaemonDescriptors

set_option relaxedAutoImplicit false
set_option autoImplicit false

namespace DaemonFd

open FdTable

/-! ### The phases of a run -/

/-- `main` is in `listen_network` or after it. -/
def MainStage.serves : MainStage → Bool
  | .initKv | .restore | .restoring | .initNetwork | .configure | .publish | .returned => false
  | _ => true

namespace Process

variable {ι : Type} [DecidableEq ι] {s : Process ι} {kv sv : ℕ} {c : Cells (Object ι)} {x : Object ι}

/-- No handler has anything to close. -/
structure Quiet (s : Process ι) : Prop where
  unpublished : s.shutdownServerFd = none
  idle : ∀ t, s.handlers t = 0
  unclosed : ∀ was, .closeServer was ∉ s.calls

/-- The device is open, and there is no listening socket yet. -/
structure Opened (s : Process ι) (kv : ℕ) : Prop where
  fd_device : s.fd .device = some kv
  get_device : get s.table kv = some .device
  below : ∀ m < kv, (get s.table m).isSome
  others : ∀ x, x ≠ .device → x ≠ .file .main → s.fd x = none
  unwatched : watched s.calls = none

/-- The order of the calls says what the numbers of the device and of the listening socket stand for. -/
structure Watched (s : Process ι) (kv sv : ℕ) (c : Cells (Object ι)) : Prop where
  listener : s.fd .listener = some sv
  cells : watched s.calls = some c
  tracked : Tracked (· ≠ Object.listener) s.table s.fd kv sv c

/-- Where a process is that has been orderly. -/
inductive Phase (s : Process ι) : Prop
  | opening (hquiet : s.Quiet) (hmain : s.main = .initKv) (hfd : ∀ x, s.fd x = none)
      (hcells : watched s.calls = none)
  | restoring (hquiet : s.Quiet) (hmain : s.main = .restore ∨ s.main = .initNetwork) (kv : ℕ)
      (hopened : s.Opened kv) (hfile : s.fd (.file .main) = none)
  | reading (hquiet : s.Quiet) (hmain : s.main = .restoring) (kv n : ℕ) (hopened : s.Opened kv)
      (hfile : s.fd (.file .main) = some n) (hlt : kv < n)
  | preparing (hquiet : s.Quiet) (hmain : s.main = .configure ∨ s.main = .publish) (kv sv : ℕ)
      (c : Cells (Object ι)) (hwatched : s.Watched kv sv c) (hfile : s.fd (.file .main) = none)
  /-- there will be no listening socket -/
  | failed (hquiet : s.Quiet) (hmain : s.main = .killKv ∨ s.main = .exiting)
  | serving (hmain : s.main.serves = true) (kv sv : ℕ) (c : Cells (Object ι))
      (hpublished : s.shutdownServerFd = some sv) (hwatched : s.Watched kv sv c)
      (hfile : s.main ≠ .writing → s.fd (.file .main) = none)
  | ended (hmain : s.main = .returned)

/-- What a step does with descriptors, and where it leads. -/
inductive Moves (s s' : Process ι) : Prop
  | nothing (hcalls : s'.calls = s.calls) (hphase : s'.Phase)
  | call (x : FdCall ι) (hx : ∀ was, x ≠ .closeServer was) (hcalls : s'.calls = s.calls ++ [x])
      (hphase : s'.Phase)
  | close (c : Cells (Object ι)) (hcells : watched s.calls = some c)
      (hcalls : s'.calls = s.calls ++ [.closeServer c.high])
      (hphase : c.high = none ∨ c.high = some .listener → s'.Phase)

/-! ### What is done with descriptors -/

theorem giveBack_of_none (h : s.fd x = none) : s.giveBack x = s := by
  unfold giveBack
  rw [h]

theorem giveBack_of_some {n : ℕ} (h : s.fd x = some n) :
    s.giveBack x =
      { s with
        table := close s.table n
        fd := Function.update s.fd x none
        calls := s.calls ++ [.giveBack x] } := by
  unfold giveBack
  rw [h]

/-- Giving something back changes nothing else. -/
theorem giveBack_frame (s : Process ι) (x : Object ι) :
    (s.giveBack x).main = s.main ∧ (s.giveBack x).shutdownServerFd = s.shutdownServerFd ∧
      (s.giveBack x).handlers = s.handlers ∧ ∀ y, y ≠ x → (s.giveBack x).fd y = s.fd y := by
  cases h : s.fd x with
  | none =>
      rw [giveBack_of_none h]
      exact ⟨rfl, rfl, rfl, fun _ _ => rfl⟩
  | some n =>
      rw [giveBack_of_some h]
      exact ⟨rfl, rfl, rfl, fun y hy => Function.update_of_ne hy ..⟩

theorem fd_giveBack_self (s : Process ι) (x : Object ι) : (s.giveBack x).fd x = none := by
  cases h : s.fd x with
  | none => rw [giveBack_of_none h, h]
  | some n =>
      rw [giveBack_of_some h]
      exact Function.update_self ..

/-- What is given back is not closed by a handler. -/
theorem calls_giveBack (s : Process ι) (x : Object ι) :
    (s.giveBack x).calls = s.calls ∨ (s.giveBack x).calls = s.calls ++ [.giveBack x] := by
  cases h : s.fd x with
  | none =>
      rw [giveBack_of_none h]
      exact .inl rfl
  | some n =>
      rw [giveBack_of_some h]
      exact .inr rfl

theorem fd_obtain_self (s : Process ι) (x : Object ι) :
    (s.obtain x).fd x = some (lowest s.table) :=
  Function.update_self ..

theorem fd_obtain_of_ne (s : Process ι) {x y : Object ι} (h : y ≠ x) :
    (s.obtain x).fd y = s.fd y :=
  Function.update_of_ne h ..

theorem Quiet.obtain (h : s.Quiet) (x : Object ι) : (s.obtain x).Quiet where
  unpublished := h.unpublished
  idle := h.idle
  unclosed := fun was hmem => by
    rcases List.mem_append.1 hmem with hmem | hmem
    · exact h.unclosed was hmem
    · cases List.mem_singleton.1 hmem

theorem Quiet.giveBack (h : s.Quiet) (x : Object ι) : (s.giveBack x).Quiet where
  unpublished := (s.giveBack_frame x).2.1.trans h.unpublished
  idle := fun t => (congrFun (s.giveBack_frame x).2.2.1 t).trans (h.idle t)
  unclosed := fun was hmem => by
    rcases s.calls_giveBack x with hcalls | hcalls
    · rw [hcalls] at hmem
      exact h.unclosed was hmem
    · rw [hcalls] at hmem
      rcases List.mem_append.1 hmem with hmem | hmem
      · exact h.unclosed was hmem
      · cases List.mem_singleton.1 hmem

omit [DecidableEq ι] in
/-- Where `main` is does not matter. -/
theorem Quiet.goto (h : s.Quiet) (m : MainStage) : { s with main := m }.Quiet :=
  ⟨h.unpublished, h.idle, h.unclosed⟩

theorem Opened.goto (h : s.Opened kv) (m : MainStage) : { s with main := m }.Opened kv :=
  ⟨h.fd_device, h.get_device, h.below, h.others, h.unwatched⟩

theorem Watched.goto (h : s.Watched kv sv c) (m : MainStage) : { s with main := m }.Watched kv sv c :=
  ⟨h.listener, h.cells, h.tracked⟩

theorem Watched.obtain (h : s.Watched kv sv c) (hx : x ≠ .listener) (hnew : s.fd x = none) :
    (s.obtain x).Watched kv sv (c.put x) where
  listener := (Function.update_of_ne hx.symm ..).trans h.listener
  cells := by
    rw [Process.obtain, watched_concat, h.cells]
    rfl
  tracked := h.tracked.put hx hnew

theorem Watched.giveBack (h : s.Watched kv sv c) (hx : x ≠ .listener) :
    ∃ c', (s.giveBack x).Watched kv sv c' := by
  cases hfd : s.fd x with
  | none =>
      rw [giveBack_of_none hfd]
      exact ⟨c, h⟩
  | some n =>
      rw [giveBack_of_some hfd]
      refine ⟨c.clear x, (Function.update_of_ne hx.symm ..).trans h.listener, ?_,
        h.tracked.giveBack hx hfd⟩
      rw [watched_concat, h.cells]
      rfl

/-- The number of the listening socket is closed while it stands for nothing else. -/
theorem Watched.closeServer (h : s.Watched kv sv c)
    (hperm : c.high = none ∨ c.high = some .listener) :
    (s.closeServer sv).Watched kv sv c.closeHigh where
  listener := h.listener
  cells := by
    rw [Process.closeServer, watched_concat, h.cells]
    rfl
  tracked := by
    refine h.tracked.closeHigh ?_
    rintro x hx hhigh
    rcases hperm with hperm | hperm
    · rw [hperm] at hhigh
      cases hhigh
    · rw [hperm] at hhigh
      exact hx (Option.some.inj hhigh).symm

/-- What the number of the listening socket designates is what the order of the calls says. -/
theorem Watched.calls_closeServer (h : s.Watched kv sv c) :
    (s.closeServer sv).calls = s.calls ++ [.closeServer c.high] := by
  rw [Process.closeServer, h.tracked.high.get_eq]

/-! ### One step -/

theorem moves_obtain {s' : Process ι} (hcalls : s'.calls = s.calls ++ [.obtain x]) (h : s'.Phase) :
    s.Moves s' :=
  .call (.obtain x) nofun hcalls h

theorem moves_giveBack {s' : Process ι} (hcalls : s'.calls = (s.giveBack x).calls) (h : s'.Phase) :
    s.Moves s' := by
  rcases s.calls_giveBack x with hsame | hgave
  · exact .nothing (hcalls.trans hsame) h
  · exact .call (.giveBack x) nofun (hcalls.trans hgave) h

/-- A client's thread opens a file. -/
theorem Phase.openFile (h : s.Phase) {i : ι} (hlive : s.main ≠ .returned)
    (hconn : (s.fd (.connection i)).isSome) (hnew : s.fd (.file (.client i)) = none) :
    s.Moves (s.obtain (.file (.client i))) := by
  refine moves_obtain rfl ?_
  have hfile := s.fd_obtain_of_ne (nofun : Object.file .main ≠ .file (.client i))
  have hunborn : ∀ kv, s.Opened kv → False := by
    intro kv hopened
    rw [hopened.others (.connection i) nofun nofun] at hconn
    cases hconn
  cases h with
  | opening hquiet hmain hfd hcells =>
      rw [hfd] at hconn
      cases hconn
  | restoring hquiet hmain kv hopened hfile => exact (hunborn kv hopened).elim
  | reading hquiet hmain kv n hopened hfile hlt => exact (hunborn kv hopened).elim
  | preparing hquiet hmain kv sv c hwatched hnone =>
      exact .preparing (hquiet.obtain _) hmain kv sv _ (hwatched.obtain nofun hnew)
        (hfile.trans hnone)
  | failed hquiet hmain => exact .failed (hquiet.obtain _) hmain
  | serving hmain kv sv c hpublished hwatched hnone =>
      exact .serving hmain kv sv _ hpublished (hwatched.obtain nofun hnew) fun hw =>
        hfile.trans (hnone hw)
  | ended hmain => exact absurd hmain hlive

/-- A client's thread gives its file or its connection back. -/
theorem Phase.clientGivesBack (h : s.Phase) (hlive : s.main ≠ .returned) (hdevice : x ≠ .device)
    (hlistener : x ≠ .listener) (hmainFile : Object.file .main ≠ x) : s.Moves (s.giveBack x) := by
  obtain ⟨hmain', hpublished', -, hothers⟩ := s.giveBack_frame x
  have hfile := hothers (.file .main) hmainFile
  cases h with
  | opening hquiet hmain hfd hcells =>
      rw [giveBack_of_none (hfd x)]
      exact .nothing rfl (.opening hquiet hmain hfd hcells)
  | restoring hquiet hmain kv hopened hnone =>
      rw [giveBack_of_none (hopened.others x hdevice hmainFile.symm)]
      exact .nothing rfl (.restoring hquiet hmain kv hopened hnone)
  | reading hquiet hmain kv n hopened hsome hlt =>
      rw [giveBack_of_none (hopened.others x hdevice hmainFile.symm)]
      exact .nothing rfl (.reading hquiet hmain kv n hopened hsome hlt)
  | preparing hquiet hmain kv sv c hwatched hnone =>
      obtain ⟨c', hwatched'⟩ := hwatched.giveBack hlistener
      refine moves_giveBack rfl ?_
      exact .preparing (hquiet.giveBack x) (by rwa [hmain']) kv sv c' hwatched' (hfile.trans hnone)
  | failed hquiet hmain =>
      refine moves_giveBack rfl ?_
      exact .failed (hquiet.giveBack x) (by rwa [hmain'])
  | serving hmain kv sv c hpublished hwatched hnone =>
      obtain ⟨c', hwatched'⟩ := hwatched.giveBack hlistener
      refine moves_giveBack rfl ?_
      refine .serving (by rwa [hmain']) kv sv c' (hpublished'.trans hpublished) hwatched' ?_
      intro hw
      rw [hmain'] at hw
      exact hfile.trans (hnone hw)
  | ended hmain => exact absurd hmain hlive

/-- From `listen_network` to `kill_network` there is a listening socket whose number is known to the
handlers. -/
theorem Phase.served (h : s.Phase) (hserves : s.main.serves = true) (hkill : s.main ≠ .killKv)
    (hexit : s.main ≠ .exiting) :
    ∃ kv sv c, s.shutdownServerFd = some sv ∧ s.Watched kv sv c ∧
      (s.main ≠ .writing → s.fd (.file .main) = none) := by
  have hno : ∀ {m : MainStage}, s.main = m → m.serves = false → False := by
    intro m hm hfalse
    rw [hm, hfalse] at hserves
    cases hserves
  cases h with
  | opening hquiet hmain hfd hcells => exact (hno hmain rfl).elim
  | restoring hquiet hmain kv hopened hfile =>
      rcases hmain with hmain | hmain
      · exact (hno hmain rfl).elim
      · exact (hno hmain rfl).elim
  | reading hquiet hmain kv n hopened hfile hlt => exact (hno hmain rfl).elim
  | preparing hquiet hmain kv sv c hwatched hnone =>
      rcases hmain with hmain | hmain
      · exact (hno hmain rfl).elim
      · exact (hno hmain rfl).elim
  | failed hquiet hmain =>
      rcases hmain with hmain | hmain
      · exact absurd hmain hkill
      · exact absurd hmain hexit
  | serving hmain kv sv c hpublished hwatched hfile => exact ⟨kv, sv, c, hpublished, hwatched, hfile⟩
  | ended hmain => exact (hno hmain rfl).elim

/-- `accept` returns a connection. -/
theorem Phase.accepted (h : s.Phase) {i : ι} (haccept : s.main = .accept)
    (hnew : s.fd (.connection i) = none) :
    s.Moves { s.obtain (.connection i) with main := .check } := by
  refine moves_obtain rfl ?_
  obtain ⟨kv, sv, c, hpublished, hwatched, hnone⟩ :=
    h.served (by rw [haccept]; rfl) (by rw [haccept]; nofun) (by rw [haccept]; nofun)
  have hfile : s.fd (.file .main) = none := hnone (by rw [haccept]; nofun)
  have hobtained := hwatched.obtain (x := .connection i) nofun hnew
  have hother := s.fd_obtain_of_ne (nofun : Object.file .main ≠ .connection i)
  exact .serving rfl kv sv _ hpublished (hobtained.goto .check) fun _ => hother.trans hfile

/-- A signal is delivered. -/
theorem Phase.signal (h : s.Phase) (hlive : s.main ≠ .returned) (t : Thread ι) :
    s.Moves (s.signal t) := by
  refine .nothing rfl ?_
  have hquiet' : s.Quiet → (s.signal t).Quiet := by
    intro hquiet
    refine ⟨hquiet.unpublished, fun t' => ?_, hquiet.unclosed⟩
    have hhandlers : (s.signal t).handlers = s.handlers := by
      unfold Process.signal
      rw [hquiet.unpublished]
      rfl
    rw [hhandlers]
    exact hquiet.idle t'
  have hmain' : s.main ≠ .accept → (s.signal t).main = s.main := fun hne =>
    if_neg fun hand => hne hand.2
  cases h with
  | opening hquiet hmain hfd hcells =>
      exact .opening (hquiet' hquiet) ((hmain' (by rw [hmain]; nofun)).trans hmain) hfd hcells
  | restoring hquiet hmain kv hopened hfile =>
      have hstays := hmain' (by rcases hmain with hmain | hmain <;> rw [hmain] <;> nofun)
      refine .restoring (hquiet' hquiet) (by rwa [hstays]) kv ?_ hfile
      exact ⟨hopened.fd_device, hopened.get_device, hopened.below, hopened.others,
        hopened.unwatched⟩
  | reading hquiet hmain kv n hopened hfile hlt =>
      refine .reading (hquiet' hquiet) ((hmain' (by rw [hmain]; nofun)).trans hmain) kv n ?_ hfile hlt
      exact ⟨hopened.fd_device, hopened.get_device, hopened.below, hopened.others,
        hopened.unwatched⟩
  | preparing hquiet hmain kv sv c hwatched hnone =>
      have hstays := hmain' (by rcases hmain with hmain | hmain <;> rw [hmain] <;> nofun)
      exact .preparing (hquiet' hquiet) (by rwa [hstays]) kv sv c
        ⟨hwatched.listener, hwatched.cells, hwatched.tracked⟩ hnone
  | failed hquiet hmain =>
      have hstays := hmain' (by rcases hmain with hmain | hmain <;> rw [hmain] <;> nofun)
      exact .failed (hquiet' hquiet) (by rwa [hstays])
  | serving hmain kv sv c hpublished hwatched hfile =>
      have hwatched' : (s.signal t).Watched kv sv c :=
        ⟨hwatched.listener, hwatched.cells, hwatched.tracked⟩
      by_cases haccept : s.main = .accept
      · -- `accept` is called again
        have hfile' : s.fd (.file .main) = none := hfile (by rw [haccept]; nofun)
        refine .serving ?_ kv sv c hpublished hwatched' fun _ => hfile'
        unfold Process.signal
        dsimp only
        split
        · rfl
        · exact hmain
      · have hstays := hmain' haccept
        refine .serving (by rwa [hstays]) kv sv c hpublished hwatched' ?_
        rw [hstays]
        exact hfile
  | ended hmain => exact absurd hmain hlive

/-- A handler closes the number of the listening socket. -/
theorem Phase.handle (h : s.Phase) (hlive : s.main ≠ .returned) (t : Thread ι) :
    s.Moves (s.handle t) := by
  have hidle : s.Quiet → s.Moves (s.handle t) := by
    intro hquiet
    have hsame : s.handle t = s := by
      unfold Process.handle
      rw [hquiet.unpublished]
    rw [hsame]
    exact .nothing rfl h
  cases h with
  | opening hquiet => exact hidle hquiet
  | restoring hquiet => exact hidle hquiet
  | reading hquiet => exact hidle hquiet
  | preparing hquiet => exact hidle hquiet
  | failed hquiet => exact hidle hquiet
  | serving hmain kv sv c hpublished hwatched hfile =>
      unfold Process.handle
      rw [hpublished]
      dsimp only
      split
      · exact .nothing rfl (.serving hmain kv sv c hpublished hwatched hfile)
      · refine .close c hwatched.cells hwatched.calls_closeServer fun hperm => ?_
        obtain ⟨hlistener, hcells, htracked⟩ := hwatched.closeServer hperm
        exact .serving hmain kv sv _ hpublished ⟨hlistener, hcells, htracked⟩ hfile
  | ended hmain => exact absurd hmain hlive

/-- The device is opened. -/
theorem opened_obtain (hfd : ∀ x, s.fd x = none) (hcells : watched s.calls = none) :
    (s.obtain .device).Opened (lowest s.table) where
  fd_device := s.fd_obtain_self .device
  get_device := by
    rw [Process.obtain, get_put, if_pos rfl]
  below := by
    intro k hk
    rw [Process.obtain, get_put, if_neg (Nat.ne_of_lt hk)]
    exact isSome_of_lt_lowest hk
  others := fun y hy _ => (s.fd_obtain_of_ne hy).trans (hfd y)
  unwatched := by
    rw [Process.obtain, watched_concat, hcells]
    rfl

/-- A number above that of the device is the lowest free one. -/
theorem Opened.lt_lowest (h : s.Opened kv) : kv < lowest s.table := by
  refine FdTable.lt_lowest fun m hm => ?_
  rcases Nat.lt_or_eq_of_le hm with hlt | heq
  · exact h.below m hlt
  · rw [heq, h.get_device]
    rfl

/-- The file of `do_kv_restore_from_file` is opened. -/
theorem Opened.obtain (h : s.Opened kv) : (s.obtain (.file .main)).Opened kv where
  fd_device := (s.fd_obtain_of_ne (nofun : Object.device ≠ .file .main)).trans h.fd_device
  get_device := by
    rw [Process.obtain, get_put, if_neg (Nat.ne_of_lt h.lt_lowest), h.get_device]
  below := by
    intro k hk
    rw [Process.obtain, get_put, if_neg (Nat.ne_of_lt (Nat.lt_trans hk h.lt_lowest))]
    exact h.below k hk
  others := fun y hy hy' => (s.fd_obtain_of_ne hy').trans (h.others y hy hy')
  unwatched := by
    rw [Process.obtain, watched_concat, h.unwatched]
    rfl

/-- The file of `do_kv_restore_from_file` is closed. -/
theorem Opened.giveBack (h : s.Opened kv) {n : ℕ} (hfile : s.fd (.file .main) = some n)
    (hlt : kv < n) : (s.giveBack (.file .main)).Opened kv := by
  have hother := (s.giveBack_frame (.file .main)).2.2.2
  refine ⟨(hother .device nofun).trans h.fd_device, ?_, ?_,
    fun y hy hy' => (hother y hy').trans (h.others y hy hy'), ?_⟩
  · rw [giveBack_of_some hfile, get_close, if_neg (Nat.ne_of_lt hlt), h.get_device]
  · intro k hk
    rw [giveBack_of_some hfile, get_close, if_neg (Nat.ne_of_lt (Nat.lt_trans hk hlt))]
    exact h.below k hk
  · rw [giveBack_of_some hfile, watched_concat, h.unwatched]
    rfl

/-- The listening socket is created: from here on the numbers are followed. -/
theorem Opened.watched_obtain (h : s.Opened kv) (hfile : s.fd (.file .main) = none) :
    (s.obtain .listener).Watched kv (lowest s.table) ⟨some .device, some .listener⟩ := by
  have hlt := h.lt_lowest
  have hfd : ∀ y, y ≠ .listener → ∀ n, s.fd y = some n → y = .device ∧ n = kv := by
    intro y hy n hn
    by_cases hdev : y = .device
    · rw [hdev, h.fd_device, Option.some.injEq] at hn
      exact ⟨hdev, hn.symm⟩
    · by_cases hmain : y = .file .main
      · rw [hmain, hfile] at hn
        cases hn
      · rw [h.others y hdev hmain] at hn
        cases hn
  refine ⟨s.fd_obtain_self .listener, ?_, ⟨hlt, ⟨?_, ?_⟩, ⟨?_, ?_⟩, ?_, ?_⟩⟩
  · rw [Process.obtain, watched_concat, h.unwatched]
    rfl
  · rw [Process.obtain, get_put, if_neg (Nat.ne_of_lt hlt), h.get_device]
  · intro y hy
    rw [s.fd_obtain_of_ne hy]
    constructor
    · intro hdev
      rw [← Option.some.inj hdev, h.fd_device]
    · intro hn
      rw [(hfd y hy kv hn).1]
  · rw [Process.obtain, get_put, if_pos rfl]
  · intro y hy
    rw [s.fd_obtain_of_ne hy]
    constructor
    · intro hlis
      exact absurd (Option.some.inj hlis).symm hy
    · intro hn
      exact absurd (hfd y hy _ hn).2 (Nat.ne_of_gt hlt)
  · intro k hk _
    rw [Process.obtain, get_put, if_neg (Nat.ne_of_lt hk)]
    exact isSome_of_lt_lowest hk
  · intro y n hy hn
    rw [s.fd_obtain_of_ne hy] at hn
    exact .inl (hfd y hy n hn).2

/-- `main` before there is a listening socket. -/
theorem stepMain_opening (hquiet : s.Quiet) (hmain : s.main = .initKv) (hfd : ∀ x, s.fd x = none)
    (hcells : watched s.calls = none) (ok : Bool) : s.Moves (s.stepMain ok) := by
  have hother := s.fd_obtain_of_ne (nofun : Object.file .main ≠ .device)
  unfold stepMain
  rw [hmain]
  dsimp only
  cases ok with
  | false => exact .nothing rfl (.ended rfl)
  | true =>
      rw [if_neg (by decide)]
      split
      · exact moves_obtain rfl (.ended rfl)
      · refine moves_obtain rfl (.restoring ((hquiet.obtain .device).goto .restore) (.inl rfl) _
          ((opened_obtain hfd hcells).goto .restore) ?_)
        exact hother.trans (hfd _)

theorem stepMain_restoring (hquiet : s.Quiet) (hmain : s.main = .restore ∨ s.main = .initNetwork)
    (hopened : s.Opened kv) (hfile : s.fd (.file .main) = none) (ok : Bool) :
    s.Moves (s.stepMain ok) := by
  have hother := s.fd_obtain_of_ne (nofun : Object.file .main ≠ .listener)
  unfold stepMain
  rcases hmain with hmain | hmain
  · rw [hmain]
    cases ok with
    | false =>
        exact .nothing rfl (.restoring (hquiet.goto _) (.inr rfl) kv (hopened.goto _) hfile)
    | true =>
        exact moves_obtain rfl (.reading ((hquiet.obtain _).goto _) rfl kv (lowest s.table)
          (hopened.obtain.goto _) (s.fd_obtain_self (.file .main)) hopened.lt_lowest)
  · rw [hmain]
    cases ok with
    | false => exact .nothing rfl (.failed (hquiet.goto _) (.inl rfl))
    | true =>
        exact moves_obtain rfl (.preparing ((hquiet.obtain _).goto _) (.inl rfl) kv _ _
          ((hopened.watched_obtain hfile).goto _) (hother.trans hfile))

theorem stepMain_reading (hquiet : s.Quiet) (hmain : s.main = .restoring) (hopened : s.Opened kv)
    {n : ℕ} (hfile : s.fd (.file .main) = some n) (hlt : kv < n) (ok : Bool) :
    s.Moves (s.stepMain ok) := by
  unfold stepMain
  rw [hmain]
  exact moves_giveBack rfl (.restoring ((hquiet.giveBack _).goto _) (.inr rfl) kv
    ((hopened.giveBack hfile hlt).goto _) (s.fd_giveBack_self _))

/-- `main` while the listening socket is set up. -/
theorem stepMain_preparing (hquiet : s.Quiet) (hmain : s.main = .configure ∨ s.main = .publish)
    (hwatched : s.Watched kv sv c) (hfile : s.fd (.file .main) = none) (ok : Bool) :
    s.Moves (s.stepMain ok) := by
  unfold stepMain
  rcases hmain with hmain | hmain
  · rw [hmain]
    cases ok with
    | false => exact moves_giveBack rfl (.failed ((hquiet.giveBack _).goto _) (.inl rfl))
    | true =>
        exact .nothing rfl (.preparing (hquiet.goto _) (.inr rfl) kv sv c (hwatched.goto _) hfile)
  · rw [hmain]
    exact .nothing rfl (.serving rfl kv sv c hwatched.listener
      ⟨hwatched.listener, hwatched.cells, hwatched.tracked⟩ fun _ => hfile)

theorem stepMain_failed (hquiet : s.Quiet) (hmain : s.main = .killKv ∨ s.main = .exiting) (ok : Bool) :
    s.Moves (s.stepMain ok) := by
  unfold stepMain
  rcases hmain with hmain | hmain
  · rw [hmain]
    exact moves_giveBack rfl (.failed ((hquiet.giveBack _).goto _) (.inr rfl))
  · rw [hmain]
    exact .nothing rfl (.ended rfl)

/-- `main` from `listen_network` on. -/
theorem stepMain_serving (hmain : s.main.serves = true) (hpublished : s.shutdownServerFd = some sv)
    (hwatched : s.Watched kv sv c) (hfile : s.main ≠ .writing → s.fd (.file .main) = none) (ok : Bool) :
    s.Moves (s.stepMain ok) := by
  have hgo : ∀ m : MainStage, m.serves = true → s.main ≠ .writing →
      s.Moves { s with main := m } := by
    intro m hm hnot
    exact .nothing rfl (.serving hm kv sv c hpublished (hwatched.goto m) fun _ => hfile hnot)
  unfold stepMain
  cases hstage : s.main with
  | initKv => rw [hstage] at hmain; cases hmain
  | restore => rw [hstage] at hmain; cases hmain
  | restoring => rw [hstage] at hmain; cases hmain
  | initNetwork => rw [hstage] at hmain; cases hmain
  | configure => rw [hstage] at hmain; cases hmain
  | publish => rw [hstage] at hmain; cases hmain
  | returned => rw [hstage] at hmain; cases hmain
  | check =>
      dsimp only
      split
      · exact hgo .snapshot rfl (by rw [hstage]; nofun)
      · exact hgo .call rfl (by rw [hstage]; nofun)
  | call =>
      dsimp only
      split
      · exact hgo .accept rfl (by rw [hstage]; nofun)
      · exact hgo .check rfl (by rw [hstage]; nofun)
  | accept => exact hgo .check rfl (by rw [hstage]; nofun)
  | snapshot =>
      have hnone : s.fd (.file .main) = none := hfile (by rw [hstage]; nofun)
      cases ok with
      | false => exact hgo .killNetwork rfl (by rw [hstage]; nofun)
      | true =>
          have hobtained := hwatched.obtain (x := .file .main) nofun hnone
          exact moves_obtain rfl (.serving rfl kv sv _ hpublished (hobtained.goto _) fun hw =>
            absurd rfl hw)
  | writing =>
      obtain ⟨c', hgave⟩ := hwatched.giveBack (x := .file .main) nofun
      have hpublished' := (s.giveBack_frame (.file .main)).2.1.trans hpublished
      exact moves_giveBack rfl (.serving rfl kv sv c' hpublished' (hgave.goto _) fun _ =>
        s.fd_giveBack_self _)
  | killNetwork =>
      have hnone : s.fd (.file .main) = none := hfile (by rw [hstage]; nofun)
      dsimp only
      rw [hwatched.listener]
      dsimp only
      refine .close c hwatched.cells hwatched.calls_closeServer fun hperm => ?_
      exact .serving rfl kv sv _ hpublished ((hwatched.closeServer hperm).goto _) fun _ => hnone
  | killKv =>
      have hnone : s.fd (.file .main) = none := hfile (by rw [hstage]; nofun)
      obtain ⟨c', hgave⟩ := hwatched.giveBack (x := .device) nofun
      obtain ⟨-, hpublished', -, hother⟩ := s.giveBack_frame .device
      exact moves_giveBack rfl (.serving rfl kv sv c' (hpublished'.trans hpublished) (hgave.goto _)
        fun _ => (hother (.file .main) nofun).trans hnone)
  | exiting => exact .nothing rfl (.ended rfl)

/-- **One step.**  As long as the process has been orderly, a step makes at most one call, and a close
by a handler or by `kill_network` finds what the order of the calls says. -/
theorem Phase.step (h : s.Phase) (e : FdEvent ι) : s.Moves (s.step e) := by
  unfold Process.step
  by_cases hlive : s.main = .returned
  · rw [if_pos hlive]
    exact .nothing rfl h
  · rw [if_neg hlive]
    cases e with
    | main ok =>
        dsimp only
        split
        · cases h with
          | opening hquiet hmain hfd hcells => exact stepMain_opening hquiet hmain hfd hcells ok
          | restoring hquiet hmain kv hopened hfile =>
              exact stepMain_restoring hquiet hmain hopened hfile ok
          | reading hquiet hmain kv n hopened hfile hlt =>
              exact stepMain_reading hquiet hmain hopened hfile hlt ok
          | preparing hquiet hmain kv sv c hwatched hnone =>
              exact stepMain_preparing hquiet hmain hwatched hnone ok
          | failed hquiet hmain => exact stepMain_failed hquiet hmain ok
          | serving hmain kv sv c hpublished hwatched hfile =>
              exact stepMain_serving hmain hpublished hwatched hfile ok
          | ended hmain => exact absurd hmain hlive
        · exact .nothing rfl h
    | accepted i =>
        dsimp only
        split
        · rename_i hguard
          exact h.accepted hguard.2.1 hguard.2.2
        · exact .nothing rfl h
    | openFile i =>
        dsimp only
        split
        · rename_i hguard
          exact h.openFile hlive hguard.2.1 hguard.2.2
        · exact .nothing rfl h
    | closeFile i =>
        dsimp only
        split
        · exact h.clientGivesBack hlive nofun nofun nofun
        · exact .nothing rfl h
    | disconnect i =>
        dsimp only
        split
        · exact h.clientGivesBack hlive nofun nofun nofun
        · exact .nothing rfl h
    | signal t =>
        dsimp only
        split
        · exact h.signal hlive t
        · exact .nothing rfl h
    | handle t => exact h.handle hlive t

/-! ### Runs -/

theorem prefix_giveBack (s : Process ι) (x : Object ι) : s.calls <+: (s.giveBack x).calls := by
  rcases s.calls_giveBack x with hsame | hgave
  · exact ⟨[], by rw [hsame, List.append_nil]⟩
  · rw [hgave]
    exact List.prefix_append ..

theorem prefix_stepMain (s : Process ι) (ok : Bool) : s.calls <+: (s.stepMain ok).calls := by
  unfold stepMain
  repeat' split
  all_goals
    first
    | exact List.prefix_rfl
    | exact List.prefix_append ..
    | exact s.prefix_giveBack _

/-- What has been done is not forgotten. -/
theorem prefix_step (s : Process ι) (e : FdEvent ι) : s.calls <+: (s.step e).calls := by
  unfold step handle signal
  repeat' split
  all_goals
    first
    | exact List.prefix_rfl
    | exact List.prefix_append ..
    | exact s.prefix_giveBack _
    | exact s.prefix_stepMain _

/-- Both hold, or neither does; and while they hold the process is in one of its phases. -/
structure Inv (s : Process ι) : Prop where
  iff : s.Sound ↔ Orderly s.calls
  phase : Orderly s.calls → s.Phase

omit [DecidableEq ι] in
theorem sound_concat {s s' : Process ι} {call : FdCall ι} (h : s'.calls = s.calls ++ [call]) :
    s'.Sound ↔ s.Sound ∧ ∀ x, call = .closeServer (some x) → x = .listener := by
  unfold Sound
  rw [h]
  constructor
  · intro hs
    refine ⟨fun x hx => hs x (List.mem_append_left _ hx), fun x hx => hs x ?_⟩
    rw [hx]
    exact List.mem_append_right _ (List.mem_singleton_self _)
  · rintro ⟨hs, hcall⟩ x hx
    rcases List.mem_append.1 hx with hx | hx
    · exact hs x hx
    · exact hcall x (List.mem_singleton.1 hx).symm

theorem Inv.step (h : s.Inv) (e : FdEvent ι) : (s.step e).Inv := by
  by_cases horderly : Orderly s.calls
  · have hsound : s.Sound := h.iff.2 horderly
    cases (h.phase horderly).step e with
    | nothing hcalls hphase =>
        refine ⟨?_, fun _ => hphase⟩
        unfold Sound
        rw [hcalls]
        exact h.iff
    | call x hx hcalls hphase =>
        have horderly' : Orderly (s.step e).calls := by
          rw [hcalls, orderly_concat]
          refine ⟨horderly, ?_⟩
          cases x with
          | obtain x => cases watched s.calls <;> trivial
          | giveBack x => cases watched s.calls <;> trivial
          | closeServer was => exact absurd rfl (hx was)
        have hsound' : (s.step e).Sound :=
          (sound_concat hcalls).2 ⟨hsound, fun y hy => absurd hy (hx (some y))⟩
        exact ⟨⟨fun _ => horderly', fun _ => hsound'⟩, fun _ => hphase⟩
    | close c hcells hcalls hphase =>
        -- what the number designates is what the order of the calls says
        have horderly' : Orderly (s.step e).calls ↔ c.high = none ∨ c.high = some .listener := by
          rw [hcalls, orderly_concat, hcells]
          exact and_iff_right horderly
        have hsound' : (s.step e).Sound ↔ c.high = none ∨ c.high = some .listener := by
          rw [sound_concat hcalls, and_iff_right hsound]
          cases hhigh : c.high with
          | none => simp
          | some x => simp
        exact ⟨hsound'.trans horderly'.symm, fun ho => hphase (horderly'.1 ho)⟩
  · -- it is too late
    obtain ⟨rest, hrest⟩ := s.prefix_step e
    have hno : ¬ Orderly (s.step e).calls := by
      intro ho
      rw [← hrest] at ho
      exact horderly ((Machine.along_append ..).1 ho).1
    have hunsound : ¬ (s.step e).Sound := by
      intro hs
      refine horderly (h.iff.1 fun x hx => hs x ?_)
      rw [← hrest]
      exact List.mem_append_left _ hx
    exact ⟨⟨fun hs => absurd hs hunsound, fun ho => absurd ho hno⟩, fun ho => absurd ho hno⟩

theorem inv_start (inherited : List Bool) : (start inherited : Process ι).Inv := by
  have hquiet : (start inherited : Process ι).Quiet := ⟨rfl, fun _ => rfl, fun _ => nofun⟩
  have horderly : Orderly (start inherited : Process ι).calls := trivial
  refine ⟨⟨fun _ => horderly, fun _ x hx => nomatch hx⟩, fun _ => ?_⟩
  exact .opening hquiet rfl (fun _ => rfl) rfl

/-- **Shutdown.**  However the process was started, however its threads are interleaved and whenever
signals are delivered to them: handlers and `kill_network` close no number that designates something
else than the listening socket, exactly when they close no number while a descriptor is open that was
handed out first after the listening socket was closed. -/
theorem sound_iff_orderly (inherited : List Bool) (es : List (FdEvent ι)) :
    ((start inherited).run es).Sound ↔ Orderly ((start inherited).run es).calls :=
  (Machine.run_invariant step Inv (inv_start inherited) fun e _ _ h => h.step e).iff

/-- The daemon starts, finds no snapshot, and waits in `accept` on descriptor 4. -/
def startup : List (FdEvent Unit) :=
  [.main true, .main false, .main true, .main true, .main true, .main true, .main true]

/-- A signal, and then `main` until it has opened the file of its last snapshot. -/
def toLastSnapshot : List (FdEvent Unit) :=
  [.signal .main, .handle .main, .main true, .main true, .main true]

/-- One signal: the file of the last snapshot is given back before `kill_network`. -/
example : Orderly ((start [true, true, true]).run (startup ++ toLastSnapshot ++
    [.main true, .main true, .main true, .main true])).calls := by
  decide

/-- A second signal while the last snapshot is written closes its file.  And so does `kill_network` to
the file of a client that was opened after the first signal. -/
theorem secondSignal_closes_file :
    FdCall.closeServer (some (.file .main)) ∈
        ((start [true, true, true]).run
          (startup ++ toLastSnapshot ++ [.signal .main, .handle .main])).calls ∧
      FdCall.closeServer (some (.file (.client ()))) ∈
        ((start [true, true, true]).run
          (startup ++ [.accepted (), .main true, .main true, .signal .main, .handle .main,
            .openFile (), .main true, .main true, .main true, .main true, .main true])).calls ∧
      ¬ ((start [true, true, true]).run
          (startup ++ toLastSnapshot ++ [.signal .main, .handle .main])).Sound := by
  have hclosed : FdCall.closeServer (some (.file .main)) ∈
      ((start [true, true, true]).run
        (startup ++ toLastSnapshot ++ [.signal .main, .handle .main])).calls := by
    decide
  refine ⟨hclosed, by decide, ?_⟩
  intro h
  cases h _ hclosed

end Process

end DaemonFd
