/-
**Ioctls that take effect at once.**

`_handle_insert` and `_handle_update` look a key up and then add it, and between the two somebody else may
change what has been seen.  Nobody does if each key is written by one client only: then what a client has
seen of a key that it writes stays as it was, and looking it up again would give the same answer.  So the
addition, together with the look that came before, has the effect of the whole ioctl at the instant of the
addition.  The other requests are one step anyway.

The clients here keep a history (`KvStore/KvHistory.lean`), so that one can say when an ioctl takes effect:
whatever the order in which the instructions are performed, there is a run of the same clients in
which each ioctl is a single operation, and in which at each time the history is the same.

Main definitions:

* `KvMemory.sessionsAtOnce` — clients that keep a history, over a store on which an ioctl is one operation;
* `KvMemory.Brief` — what a handler of messages looks like;
* `KvMemory.watching` — what a client has seen of a key stays true.

Main result:

* `KvMemory.sessions_linearizable` — **ioctls are linearizable** where each key has one writer.
-/

import KvStore.KvHistory

set_option relaxedAutoImplicit false
set_option autoImplicit false

namespace KvMemory

open CMem KvHash KvIoctl Interleave Blocks

variable {H : HashFn} {ι : Type}

/-! ### Clients whose ioctls take effect at once -/

/-- A client that makes its ioctls one after the other, each of which is a single operation. -/
def sessionAtOnce (i : ι) :
    List IoctlCall → Prog (Kernel H (ℤ × Ioctl) ⊕ Entry ι) (LogRes (fun _ => ℤ × Ioctl) (Entry ι)) Unit
  | [] => .ret ()
  | c :: cs => do
      note (.called i c)
      let answer ← (kvIoctl c.env c.ioctl).atOnce.silent
      note (.answered i answer)
      sessionAtOnce i cs

/-- Clients over a store. -/
def sessionsAtOnce (s : Store H) (cs : ι → List IoctlCall) :
    Pool ι (Store H × List (Entry ι)) (Kernel H (ℤ × Ioctl) ⊕ Entry ι)
      (LogRes (fun _ => ℤ × Ioctl) (Entry ι)) Unit where
  shared := (s, [])
  thread := fun i => sessionAtOnce i (cs i)

/-- The argument of the ioctl is a message. -/
def IoctlCall.IsMessage (c : IoctlCall) : Prop := ∃ cmd arg, c.ioctl = .message cmd arg

/-- The ioctl may write the key. -/
def IoctlCall.Writes (c : IoctlCall) (key : HashKey) : Prop :=
  ∃ cmd arg, c.ioctl = .message cmd arg ∧ arg.key = key ∧
    (cmd = .kvInsert ∨ cmd = .kvUpdate ∨ cmd = .kvDelete)

/-! ### Handlers of messages -/

/-- The program performs at most one operation, or it looks a key up and may add it then.  What it writes
is in `W`. -/
inductive Brief (W : HashKey → Prop) {α : Type} : Kernel H α → Prop
  | ret (a : α) : Brief W (.ret a)
  | once {op : Op H} {k : KvHash.Res op → Kernel H α} (hop : ∀ key, op.Writes key → W key)
      (hk : ∀ r, ∃ a, k r = .ret a) : Brief W (.call op k)
  | probe {key : HashKey} {outBuf : Buf MAX_VALUE_LEN} {k : ℤ × Buf MAX_VALUE_LEN → Kernel H α}
      (hkey : W key) (hk : ∀ r, (∃ a, k r = .ret a) ∨ ∃ value k', k r = .call (.add key value) k' ∧
        ∀ r', ∃ a, k' r' = .ret a) : Brief W (.call (.lookup key outBuf) k)

theorem Brief.map {W : HashKey → Prop} {α β : Type} {p : Kernel H α} (h : Brief W p) (f : α → β) :
    Brief W (p >>= fun a => .ret (f a)) := by
  cases h with
  | ret a => exact .ret (f a)
  | once hop hk =>
      refine .once hop fun r => ?_
      obtain ⟨a, ha⟩ := hk r
      exact ⟨f a, by rw [ha]; rfl⟩
  | probe hkey hk =>
      refine .probe hkey fun r => ?_
      obtain ⟨a, ha⟩ | ⟨value, k', hr, hk'⟩ := hk r
      · exact .inl ⟨f a, by rw [ha]; rfl⟩
      · refine .inr ⟨value, _, by rw [hr]; rfl, fun r' => ?_⟩
        obtain ⟨a, ha⟩ := hk' r'
        exact ⟨f a, by rw [ha]; rfl⟩

theorem brief_dispatch {W : HashKey → Prop} (env : KernelEnv) (cmd : Cmd) (arg : KvMessage)
    (hW : cmd = .kvInsert ∨ cmd = .kvUpdate ∨ cmd = .kvDelete → W arg.key) :
    Brief W (dispatch env cmd arg : Kernel H (ℤ × KvMessage)) := by
  have hret : ∀ (c : Prop) [Decidable c] (a b : ℤ × KvMessage),
      ∃ r, (if c then .ret a else .ret b : Kernel H (ℤ × KvMessage)) = .ret r := by
    intro c _ a b
    by_cases hc : c
    · exact ⟨a, if_pos hc⟩
    · exact ⟨b, if_neg hc⟩
  have hadd : ∀ failed, ∃ value k', (addAndReply env arg failed : Kernel H (ℤ × KvMessage)) =
      .call (.add arg.key value) k' ∧ ∀ r', ∃ a, k' r' = .ret a :=
    fun failed => ⟨_, _, rfl, fun r' => hret _ _ _⟩
  cases cmd with
  | kvInsert =>
      refine .probe (hW (.inl rfl)) fun r => ?_
      by_cases hr : r.1 ≥ 0
      · exact .inl ⟨_, if_pos hr⟩
      · obtain ⟨value, k', hk, hk'⟩ := hadd (ascii "Insert failed.\n")
        exact .inr ⟨value, k', (if_neg hr).trans hk, hk'⟩
  | kvUpdate =>
      refine .probe (hW (.inr (.inl rfl))) fun r => ?_
      by_cases hr : r.1 < 0
      · exact .inl ⟨_, if_pos hr⟩
      · obtain ⟨value, k', hk, hk'⟩ := hadd (ascii "Update failed.\n")
        exact .inr ⟨value, k', (if_neg hr).trans hk, hk'⟩
  | kvGet => exact .once (fun key hw => hw.elim) fun r => hret _ _ _
  | kvDelete =>
      refine .once (fun key hw => ?_) fun r => hret _ _ _
      obtain rfl : arg.key = key := hw
      exact hW (.inr (.inr rfl))
  | unknown n => exact .ret _

theorem brief_kvIoctl {W : HashKey → Prop} {c : IoctlCall} (hc : c.IsMessage)
    (hwrites : ∀ key, c.Writes key → W key) :
    Brief W (kvIoctl c.env c.ioctl : Kernel H (ℤ × Ioctl)) := by
  obtain ⟨cmd, arg, hmsg⟩ := hc
  have hW : cmd = .kvInsert ∨ cmd = .kvUpdate ∨ cmd = .kvDelete → W arg.key := fun hcmd =>
    hwrites _ ⟨cmd, arg, hmsg, rfl, hcmd⟩
  have hhandle : Brief W (handleKvMessage c.env cmd arg : Kernel H (ℤ × KvMessage)) := by
    rw [handleKvMessage]
    split
    · exact .ret _
    · have hmap := (brief_dispatch (H := H) c.env cmd arg hW).map fun r =>
        if r.1 < 0 then (r.1, arg) else if !c.env.copyToUser then (-EFAULT, arg) else r
      convert hmap using 2
      funext r
      obtain ⟨ret, msg⟩ := r
      change (if ret < 0 then _ else _ : Kernel H (ℤ × KvMessage)) = _
      split
      · rfl
      · split <;> rfl
  rw [hmsg]
  exact hhandle.map _

/-! ### What has been seen -/

/-- No key is written by two clients. -/
def OneWriter (cs : ι → List IoctlCall) : Prop :=
  ∀ i j, i ≠ j → ∀ c ∈ cs i, ∀ c' ∈ cs j, ∀ key, c.Writes key → ¬ c'.Writes key

/-- What the store holds under a key at which a client has looked, before writing it, is what it has seen. -/
def watching (H : HashFn) (cs : ι → List IoctlCall) :
    Protocol ι (Store H) (Op H) KvHash.Res (Store H) (Kernel H (ℤ × Ioctl)) (fun _ => ℤ × Ioctl) Alloc Alloc
      (Option (HashKey × Option CStr)) where
  exec := KvHash.exec
  may := fun _ _ => true
  spec := runAtOnce KvHash.exec
  inv := fun s G t => s = t ∧ ∀ i key v, G i = some (key, v) →
    s.get key = v ∧ ∃ c ∈ cs i, c.Writes key
  legal := fun _ _ _ => True
  room := fun _ => True

section Watching

variable [DecidableEq ι] {cs : ι → List IoctlCall} {i : ι} {s : Store H} {G : ι → Option (HashKey × Option CStr)}

/-- The operations of one client leave alone what the others have seen. -/
theorem watching_exec (hone : OneWriter cs)
    (hG : ∀ j key v, G j = some (key, v) → s.get key = v ∧ ∃ c ∈ cs j, c.Writes key) {op : Op H}
    (hop : ∀ key, op.Writes key → ∃ c ∈ cs i, c.Writes key) (f : Alloc)
    {w : Option (HashKey × Option CStr)}
    (hw : ∀ key v, w = some (key, v) →
      (KvHash.exec f op s).2.get key = v ∧ ∃ c ∈ cs i, c.Writes key) :
    (watching H cs).inv (KvHash.exec f op s).2 (Function.update G i w) (KvHash.exec f op s).2 := by
  refine ⟨rfl, fun j key v hj => ?_⟩
  by_cases hji : j = i
  · subst hji
    rw [Function.update_self] at hj
    exact hw key v hj
  · rw [Function.update_of_ne hji] at hj
    obtain ⟨hget, c, hc, hwrites⟩ := hG j key v hj
    refine ⟨?_, c, hc, hwrites⟩
    rw [get_exec_of_not_writes fun hopw => ?_, hget]
    obtain ⟨c', hc', hwrites'⟩ := hop key hopw
    exact hone j i hji c hc c' hc' key hwrites hwrites'

/-- The program returns after this operation, and alone it would have come to the same. -/
theorem upholds_last (hone : OneWriter cs) {op : Op H} {k : KvHash.Res op → Kernel H (ℤ × Ioctl)}
    {p : Kernel H (ℤ × Ioctl)} {w : Option (HashKey × Option CStr)}
    (hop : ∀ key, op.Writes key → ∃ c ∈ cs i, c.Writes key)
    (h : ∀ s : Store H, (∀ key v, w = some (key, v) → s.get key = v) → ∀ f, ∃ a,
      k (KvHash.exec f op s).1 = .ret a ∧ p.run (KvHash.exec f) s = (a, (KvHash.exec f op s).2)) :
    (watching H cs).Upholds i (fun x w a => w = none ∧ a = .ret x) (.call op k) w (.call p .ret) := by
  rintro s G t ⟨rfl, hG⟩ hw -
  refine ⟨trivial, fun _ f => ⟨none, .inr ⟨f, ?_, ?_⟩⟩⟩
  all_goals obtain ⟨a, ha, hrun⟩ := h s (fun key v hwkey => (hG i key v (hw.trans hwkey)).1) f
  · change (watching H cs).inv _ _ (p.run (KvHash.exec f) s).2
    rw [hrun]
    exact watching_exec hone hG hop f (by rintro key v ⟨⟩)
  · change (watching H cs).Upholds i _ (k (KvHash.exec f op s).1) none (.ret (p.run (KvHash.exec f) s).1)
    rw [hrun, ha]
    exact ⟨rfl, rfl⟩

/-- A look at a key gives what is stored there. -/
theorem fst_lookup_congr {s t : Store H} {key : HashKey} (h : s.get key = t.get key) (f f' : Alloc)
    (outBuf : Buf MAX_VALUE_LEN) :
    (KvHash.exec f (.lookup key outBuf) s).1 = (KvHash.exec f' (.lookup key outBuf) t).1 := by
  simp only [KvHash.exec, Store.lookup_eq, h]

/-- **A handler of messages takes effect at once**, if nobody else writes what it writes. -/
theorem upholds_brief (hone : OneWriter cs) {p : Kernel H (ℤ × Ioctl)}
    (hp : Brief (fun key => ∃ c ∈ cs i, c.Writes key) p) :
    (watching H cs).Upholds i (fun x w a => w = none ∧ a = .ret x) p none p.atOnce := by
  cases hp with
  | ret a => exact ⟨rfl, rfl⟩
  | once hop hk =>
      refine upholds_last hone hop fun s _ f => ?_
      obtain ⟨a, ha⟩ := hk (KvHash.exec f _ s).1
      exact ⟨a, ha, by rw [Prog.run_call, ha]; rfl⟩
  | @probe key outBuf k hkey hk =>
      rintro s G t ⟨rfl, hG⟩ - -
      have hop : ∀ key', (Op.lookup key outBuf : Op H).Writes key' → ∃ c ∈ cs i, c.Writes key' :=
        fun _ hw => hw.elim
      refine ⟨trivial, fun _ f => ?_⟩
      obtain ⟨a, ha⟩ | ⟨value, k', hr, hk'⟩ := hk (KvHash.exec f (.lookup key outBuf) s).1
      · -- the request has been carried out
        refine ⟨none, .inr ⟨f, ?_, ?_⟩⟩
        · change (watching H cs).inv s _ ((k (KvHash.exec f (.lookup key outBuf) s).1).run _ s).2
          rw [ha]
          exact watching_exec (w := none) hone hG hop f (by rintro key v ⟨⟩)
        · change (watching H cs).Upholds i _ (k (KvHash.exec f (.lookup key outBuf) s).1) none
            (.ret ((k (KvHash.exec f (.lookup key outBuf) s).1).run _ s).1)
          rw [ha]
          exact ⟨rfl, rfl⟩
      · -- what has been seen is kept in mind until the addition, where another look would show the same
        refine ⟨some (key, s.get key), .inl ⟨?_, ?_⟩⟩
        · refine watching_exec hone hG hop f ?_
          rintro key' v ⟨⟩
          exact ⟨rfl, hkey⟩
        · change (watching H cs).Upholds i _ (k (KvHash.exec f (.lookup key outBuf) s).1) _ _
          rw [hr]
          refine upholds_last hone (fun key' hw => ?_) fun t ht f' => ?_
          · obtain rfl : key = key' := hw
            exact hkey
          · obtain ⟨a, ha⟩ := hk' (KvHash.exec f' (.add key value) t).1
            have hlook := fst_lookup_congr (ht key _ rfl) f' f outBuf
            refine ⟨a, ha, ?_⟩
            change (k (KvHash.exec f' (.lookup key outBuf) t).1).run (KvHash.exec f') t = _
            rw [hlook, hr, Prog.run_call, ha]
            rfl

end Watching

/-! ### Runs -/

section Runs

variable [DecidableEq ι] {cs : ι → List IoctlCall} {i : ι} {A : Base} {m : Memory} {s : Store H} {fuel : ℕ}

/-- The protocol of the threads over a table, on top of which each has in mind what it has seen, with a
history. -/
def recorded (H : HashFn) (A : Base) (fuel : ℕ) (cs : ι → List IoctlCall) :=
  ((protocol ι H A fuel).comp (watching H cs)).logged (Entry ι) fun vw => Idle H A vw.1 ∧ vw.2 = none

/-- An ioctl of a table in memory, beside others, takes effect at once. -/
theorem upholds_ioctl (hone : OneWriter cs) {c : IoctlCall} (hc : c ∈ cs i) (hmsg : c.IsMessage)
    {v : Custody} (hv : Idle H A v) :
    ((protocol ι H A fuel).comp (watching H cs)).Upholds i
      (fun r vw b => Idle H A vw.1 ∧ vw.2 = none ∧ ∃ x, r = some x ∧ b = .ret x) (c.code H fuel) (v, none)
      (kvIoctl c.env c.ioctl).atOnce := by
  have hcarries : (protocol ι H A fuel).Carries (Idle H A) (ℤ × Ioctl) (c.code H fuel)
      (kvIoctl c.env c.ioctl) := carries_ioctl c
  have hsteps := hcarries i v Prog.ret hv
  rw [Prog.bind_ret] at hsteps
  have honce := upholds_brief hone (brief_kvIoctl (H := H) hmsg fun key hkey => ⟨c, hc, hkey⟩)
  refine (hsteps.comp rfl (fun _ _ => rfl) (fun _ => trivial) honce).mono ?_
  rintro r vw b ⟨a, ⟨hidle, x, hr, rfl⟩, hb⟩
  exact ⟨hidle, hb.1, x, hr, hb.2⟩

/-- A client has nothing in its custody, and nothing in mind. -/
def Ended (H : HashFn) (A : Base) (_ : Option Unit) (vw : Custody × Option (HashKey × Option CStr))
    (_ : Prog (Kernel H (ℤ × Ioctl) ⊕ Entry ι) (LogRes (fun _ => ℤ × Ioctl) (Entry ι)) Unit) : Prop :=
  Idle H A vw.1 ∧ vw.2 = none

theorem upholds_session (hone : OneWriter cs) (hmsg : ∀ c ∈ cs i, c.IsMessage) {cs' : List IoctlCall}
    (hsub : cs' ⊆ cs i) {v : Custody} (hv : Idle H A v) :
    (recorded H A fuel cs).Upholds i (Ended H A) (session H fuel i cs') (v, none) (sessionAtOnce i cs') := by
  have hnonempty : Nonempty Alloc := ⟨.ok⟩
  induction cs' generalizing v with
  | nil => exact ⟨hv, rfl⟩
  | cons c cs' ih =>
      have hc : c ∈ cs i := hsub List.mem_cons_self
      have hrest : cs' ⊆ cs i := fun c' hc' => hsub (List.mem_cons_of_mem c hc')
      refine Protocol.upholds_note _ ⟨hv, rfl⟩ (((upholds_ioctl hone hc (hmsg c hc) hv).silent _).bind ?_)
      rintro r ⟨v', w⟩ b ⟨a, ⟨hidle, rfl, x, rfl, rfl⟩, rfl⟩
      exact Protocol.upholds_note _ ⟨hidle, rfl⟩ (ih hrest hidle)

/-- **Ioctls are linearizable** where each key has one writer.  Clients pass messages to the module, and
their instructions are performed in any order.  Turn by turn this is a run of the same clients in which each
ioctl is a single operation and is performed at a turn of its client: at all times the history of calls and
answers is the same, and when all clients have returned, the memory holds the table that the store says. -/
theorem sessions_linearizable (h : m.Represents s) (hone : OneWriter cs)
    (hmsg : ∀ i, ∀ c ∈ cs i, c.IsMessage) {is : List ι} (hfuel : m.live.card + is.length ≤ fuel) :
    ∃ allocs : List (Option Alloc), allocs.length = is.length ∧ ∀ n,
      let p := (sessions H fuel m cs).turns (logExec exec) (logMay may) (is.take n)
      let q := (sessionsAtOnce s cs).run (fun f => logExec (runAtOnce KvHash.exec f))
        (Protocol.matched (is.take n) (allocs.take n))
      p.shared.2 = q.shared.2 ∧
        ((∀ i, (p.thread i).result? ≠ none) → p.shared.1.Represents q.shared.1) := by
  obtain ⟨L, hwhole, hs⟩ := h
  have hlinked : (recorded H L.base fuel cs).Linked (Ended H L.base) (sessions H fuel m cs)
      (sessionsAtOnce s cs) fun _ => (⟨m.vacate L.base, []⟩, none) := by
    refine ⟨⟨⟨s, ⟨_, hwhole.shared hs⟩, rfl, by rintro j key v ⟨⟩⟩, rfl⟩, fun i => ?_⟩
    exact upholds_session hone (hmsg i) (List.Subset.refl _) hwhole.idle
  obtain ⟨allocs, hlen, hall⟩ := hlinked.turns (along_room_sessions cs hfuel).1
  refine ⟨allocs, hlen, fun n => ?_⟩
  obtain ⟨G, hlinked'⟩ := hall n
  obtain ⟨⟨t, ⟨D, hshared⟩, rfl, -⟩, hlog⟩ := hlinked'.1
  refine ⟨hlog, fun hdone => ?_⟩
  refine hshared.represents fun i => ?_
  obtain ⟨r, hr⟩ := Option.ne_none_iff_exists'.1 (hdone i)
  exact (hlinked'.returned (Prog.eq_ret_of_result? hr)).1

/-- A client that inserts key 7 and deletes it, and a client that reads it. -/
def writerAndReader (reader : Bool) : List IoctlCall :=
  let msg := { KvMessage.zero with key := 7 }
  if reader then [⟨.ok, ⟨none, none⟩, .message .kvGet msg⟩]
  else [⟨.ok, ⟨some 3, some 5⟩, .message .kvInsert msg⟩, ⟨.ok, ⟨none, none⟩, .message .kvDelete msg⟩]

theorem writerAndReader_oneWriter : OneWriter writerAndReader := by
  have hreader : ∀ c ∈ writerAndReader true, ∀ key, ¬ c.Writes key := by
    rintro c hc key ⟨cmd, arg, hmsg, -, hcmd⟩
    obtain rfl := List.mem_singleton.1 hc
    cases hmsg
    simp at hcmd
  intro i j hij c hc c' hc' key hwrites hwrites'
  cases i with
  | true => exact hreader c hc key hwrites
  | false =>
      cases j with
      | true => exact hreader c' hc' key hwrites'
      | false => exact hij rfl

theorem writerAndReader_isMessage (reader : Bool) : ∀ c ∈ writerAndReader reader, c.IsMessage := by
  cases reader with
  | true => exact List.forall_mem_singleton.2 ⟨_, _, rfl⟩
  | false => exact List.forall_mem_cons.2 ⟨⟨_, _, rfl⟩, List.forall_mem_singleton.2 ⟨_, _, rfl⟩⟩

/-- After their turns both clients have returned. -/
theorem writerAndReader_linearizable :
    (∀ i, (((sessions twoBuckets 92 emptyTable writerAndReader).turns (logExec exec) (logMay may)
        inTurns).thread i).result? = some (some ())) ∧
      ∃ allocs : List (Option Alloc), allocs.length = inTurns.length ∧ ∀ n,
        let p := (sessions twoBuckets 92 emptyTable writerAndReader).turns (logExec exec) (logMay may)
          (inTurns.take n)
        let q := (sessionsAtOnce (Store.init twoBuckets) writerAndReader).run
          (fun f => logExec (runAtOnce KvHash.exec f)) (Protocol.matched (inTurns.take n) (allocs.take n))
        p.shared.2 = q.shared.2 ∧
          ((∀ i, (p.thread i).result? ≠ none) → p.shared.1.Represents q.shared.1) :=
  ⟨by decide +kernel, sessions_linearizable represents_emptyTable writerAndReader_oneWriter
    writerAndReader_isMessage (by decide)⟩

end Runs

end KvMemory
