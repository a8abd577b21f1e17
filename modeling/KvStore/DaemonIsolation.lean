/-
**Clients that keep out of each other's way.**

All connections work on one store, and each of their threads runs when the scheduler lets it.  But what a
line asks for concerns one key.  So a client with keys of its own, under which no other connection writes,
cannot tell that there are others: at every time the answers it has are the first of those that it would
get if it were alone, and in the end it has them all, and has left its keys as it would have left them.

The threads take turns with whole system calls here, as in `KvStore/DaemonClients.lean`.  The proof is about
the service that serves one line at a time: leaving out the lines of all others changes nothing that the
client can see.

Main definitions:

* `Daemon.Input.used`, `Daemon.Input.written` — the key that a line asks for, and the key that it may
  write under;
* `Daemon.Apart` — connections that do not write under the keys of another one;
* `Daemon.Desks.Alike` — what a client cannot tell apart;
* `Daemon.serveLine` — a line on a connection that has the map for itself.

Main results:

* `Daemon.messageSpec_congr`, `Daemon.lookup_messageSpec_of_ne` — an operation concerns one key;
* `Daemon.Desks.Alike.run_replicate` — the lines of others can be left out;
* `Daemon.replies_isolated` — the answers are those of a map that the connection has for itself;
* `Daemon.clients_isolated` — **a client with keys of its own is served as if it were alone**.
-/

import KvStore.DaemonClients

set_option relaxedAutoImplicit false
set_option autoImplicit false

namespace Daemon

open CMem Text Interleave KvHash KvIoctl Service

variable {H : HashFn}

/-! ### An operation concerns one key -/

section OneKey

variable {m m' : KvMap} {arg : KvMessage} {key k : HashKey}

/-- A message leaves the other keys alone. -/
theorem lookup_messageSpec_of_ne (alloc : Alloc) (cmd : Cmd) (h : k ≠ arg.key) :
    (messageSpec alloc cmd arg m).2.lookup k = m.lookup k := by
  cases cmd with
  | kvInsert =>
      dsimp only [messageSpec, insertSpec]
      split
      · rfl
      · split
        · exact Finmap.lookup_insert_of_ne _ h
        · rfl
  | kvUpdate =>
      dsimp only [messageSpec, updateSpec]
      split
      · split
        · exact Finmap.lookup_insert_of_ne _ h
        · rfl
      · rfl
  | kvGet =>
      dsimp only [messageSpec, getSpec]
      split
      · rfl
      · rfl
  | kvDelete =>
      dsimp only [messageSpec, deleteSpec]
      split
      · exact Finmap.lookup_erase_ne h
      · rfl
  | unknown n => rfl

/-- What a message does to its key, and its answer, depend on what is there under this key. -/
theorem messageSpec_congr (alloc : Alloc) (cmd : Cmd) (h : m.lookup arg.key = m'.lookup arg.key) :
    (messageSpec alloc cmd arg m).1 = (messageSpec alloc cmd arg m').1 ∧
      (messageSpec alloc cmd arg m).2.lookup arg.key =
        (messageSpec alloc cmd arg m').2.lookup arg.key := by
  cases cmd with
  | kvInsert =>
      dsimp only [messageSpec, insertSpec]
      rw [h]
      split
      · exact ⟨rfl, h⟩
      · split
        · exact ⟨rfl, by rw [Finmap.lookup_insert, Finmap.lookup_insert]⟩
        · exact ⟨rfl, h⟩
  | kvUpdate =>
      dsimp only [messageSpec, updateSpec]
      rw [h]
      split
      · split
        · exact ⟨rfl, by rw [Finmap.lookup_insert, Finmap.lookup_insert]⟩
        · exact ⟨rfl, h⟩
      · exact ⟨rfl, h⟩
  | kvGet =>
      dsimp only [messageSpec, getSpec]
      rw [h]
      split
      · exact ⟨rfl, h⟩
      · exact ⟨rfl, h⟩
  | kvDelete =>
      dsimp only [messageSpec, deleteSpec]
      rw [h]
      split
      · exact ⟨rfl, by rw [Finmap.lookup_erase, Finmap.lookup_erase]⟩
      · exact ⟨rfl, h⟩
  | unknown n => exact ⟨rfl, h⟩

theorem lookup_operate_of_ne (env : CommandEnv) (cmd : Cmd) (h : k ≠ key) (value : List UInt8) :
    (operate env cmd key value m).2.lookup k = m.lookup k := by
  unfold operate
  split
  · rfl
  · exact lookup_messageSpec_of_ne env.alloc cmd h

theorem operate_congr (env : CommandEnv) (cmd : Cmd) (value : List UInt8)
    (h : m.lookup key = m'.lookup key) :
    (operate env cmd key value m).1 = (operate env cmd key value m').1 ∧
      (operate env cmd key value m).2.lookup key = (operate env cmd key value m').2.lookup key := by
  unfold operate
  split
  · exact ⟨rfl, h⟩
  · have hkey : (requestMessage key value).key = key := rfl
    have hlookup' : m.lookup (requestMessage key value).key = m'.lookup (requestMessage key value).key := h
    obtain ⟨hanswer, hlookup⟩ := messageSpec_congr env.alloc cmd hlookup'
    dsimp only
    rw [hanswer]
    exact ⟨rfl, hlookup⟩

/-- `KV_GET` writes nothing. -/
theorem operate_kvGet_snd (env : CommandEnv) (value : List UInt8) :
    (operate env .kvGet key value m).2 = m := by
  unfold operate
  split
  · rfl
  · dsimp only [messageSpec, getSpec]
    split
    · rfl
    · rfl

end OneKey

/-! ### The keys of a line -/

/-- The key on which a line asks for an operation. -/
def Input.used (pam : Pam) (a : Input) : Option HashKey :=
  match parseCommand pam a.chunk.command true with
  | .operation _ key _ => some key
  | _ => none

/-- The key under which a line may write. -/
def Input.written (pam : Pam) (a : Input) : Option HashKey :=
  match parseCommand pam a.chunk.command true with
  | .operation .kvGet _ _ => none
  | .operation _ key _ => some key
  | _ => none

/-- The lines `others` do not write under the keys that the lines `mine` ask for. -/
def Apart (pam : Pam) (others mine : List Input) : Prop :=
  ∀ b ∈ others, ∀ key ∈ b.written pam, ∀ a ∈ mine, key ∉ a.used pam

instance (pam : Pam) (others mine : List Input) : Decidable (Apart pam others mine) :=
  inferInstanceAs (Decidable (∀ b ∈ others, ∀ key ∈ b.written pam, ∀ a ∈ mine, key ∉ a.used pam))

/-- The keys of two connections can be compared as lists. -/
theorem apart_of_keys {pam : Pam} {others mine : List Input} {written used : List (Option HashKey)}
    (hwritten : others.map (Input.written pam) = written) (hused : mine.map (Input.used pam) = used)
    (h : ∀ key, some key ∈ written → some key ∉ used) : Apart pam others mine := by
  intro b hb key hkey a ha hkey'
  rw [Option.mem_def] at hkey hkey'
  refine h key ?_ ?_
  · rw [← hwritten, ← hkey]
    exact List.mem_map_of_mem hb
  · rw [← hused, ← hkey']
    exact List.mem_map_of_mem ha

/-- Only on an authenticated connection a line gets to an operation. -/
theorem authenticated_of_operation {pam : Pam} {command : List UInt8} {authenticated : Bool} {cmd : Cmd}
    {key : HashKey} {value : List UInt8}
    (h : parseCommand pam command authenticated = .operation cmd key value) : authenticated = true := by
  cases authenticated with
  | true => rfl
  | false =>
      unfold parseCommand at h
      split at h
      · cases h
      · split at h
        · cases h
        · cases h

theorem Input.mem_used {pam : Pam} {a : Input} {authenticated : Bool} {cmd : Cmd} {key : HashKey}
    {value : List UInt8} (h : parseCommand pam a.chunk.command authenticated = .operation cmd key value) :
    key ∈ a.used pam := by
  obtain rfl := authenticated_of_operation h
  rw [used, h]
  rfl

theorem Input.mem_written {pam : Pam} {a : Input} {authenticated : Bool} {cmd : Cmd} {key : HashKey}
    {value : List UInt8} (h : parseCommand pam a.chunk.command authenticated = .operation cmd key value)
    (hcmd : cmd ≠ .kvGet) : key ∈ a.written pam := by
  obtain rfl := authenticated_of_operation h
  rw [written, h]
  cases cmd with
  | kvGet => exact absurd rfl hcmd
  | kvInsert => rfl
  | kvUpdate => rfl
  | kvDelete => rfl
  | unknown n => rfl

/-- What is written under is asked for. -/
theorem Input.used_of_written {pam : Pam} (a : Input) {key : HashKey} (h : key ∈ a.written pam) :
    key ∈ a.used pam := by
  unfold written at h
  split at h
  · cases h
  · rename_i hparse
    rw [used, hparse]
    exact h
  · cases h

/-! ### Lines of others are left out -/

section Alike

variable {ι : Type} [DecidableEq ι] {pam : Pam} {i : ι} {d d' : Desks ι} {mine : List Input}

/-- Connection `i`, whose lines are among `mine`, cannot tell the two apart, and no line of another
connection will change that. -/
structure Desks.Alike (pam : Pam) (i : ι) (mine : List Input) (d d' : Desks ι) : Prop where
  desk : d.desk i = d'.desk i
  lookup : ∀ a ∈ mine, ∀ key ∈ a.used pam, d.live.lookup key = d'.live.lookup key
  own : ∀ a ∈ (d.desk i).pending, a ∈ mine
  apart : ∀ j, j ≠ i → Apart pam (d.desk j).pending mine

theorem Desks.step_of_nil (h : (d.desk i).pending = []) : d.step pam i = d := by
  rw [step, h]

theorem Desks.step_of_cons {input : Input} {pending : List Input}
    (h : (d.desk i).pending = input :: pending) :
    d.step pam i =
      (let x := (⟨d.live, none⟩ : Registry).command input.env
        (parseCommand pam input.chunk.command (d.desk i).authenticated)
      { live := x.2.live
        desk := Function.update d.desk i ⟨pending, x.1.2, (d.desk i).replies ++ [x.1.1]⟩ }) := by
  rw [step, h]

theorem Desks.desk_step_of_ne {j : ι} (h : j ≠ i) : (d.step pam i).desk j = d.desk j := by
  cases hpending : (d.desk i).pending with
  | nil => rw [step_of_nil hpending]
  | cons input pending =>
      rw [step_of_cons hpending]
      exact Function.update_of_ne h _ _

/-- What is left of a connection's lines is a part of them. -/
theorem Desks.pending_step_subset (j : ι) : ((d.step pam i).desk j).pending ⊆ (d.desk j).pending := by
  by_cases hj : j = i
  · subst hj
    cases hpending : (d.desk j).pending with
    | nil =>
        rw [step_of_nil hpending, hpending]
        exact List.Subset.refl _
    | cons input pending =>
        rw [step_of_cons hpending]
        dsimp only
        rw [Function.update_self]
        exact List.subset_cons_self ..
  · rw [desk_step_of_ne hj]
    exact List.Subset.refl _

theorem live_snapshot (env : SnapshotEnv) (r : Registry) : (r.snapshot env).live = r.live := by
  unfold Registry.snapshot Registry.save
  split
  · split
    · rfl
    · rfl
  · rfl

/-- A line changes the map under the key it may write under, and nowhere else. -/
theorem lookup_command {a : Input} {authenticated : Bool} {key : HashKey} (r : Registry)
    (h : key ∉ a.written pam) :
    (r.command a.env (parseCommand pam a.chunk.command authenticated)).2.live.lookup key =
      r.live.lookup key := by
  cases hparse : parseCommand pam a.chunk.command authenticated with
  | answered answer authenticated => rfl
  | snapshot => exact congrArg (Finmap.lookup key) (live_snapshot _ r)
  | operation cmd k value =>
      by_cases hcmd : cmd = .kvGet
      · subst hcmd
        exact congrArg (Finmap.lookup key) (operate_kvGet_snd a.env value)
      · have hne : key ≠ k := by
          rintro rfl
          exact h (Input.mem_written hparse hcmd)
        exact lookup_operate_of_ne a.env cmd hne value

/-- A line of another connection is left out. -/
theorem Desks.Alike.step_other (h : d.Alike pam i mine d') {j : ι} (hj : j ≠ i) :
    (d.step pam j).Alike pam i mine d' where
  desk := (desk_step_of_ne hj.symm).trans h.desk
  lookup := by
    intro a ha key hkey
    cases hpending : (d.desk j).pending with
    | nil =>
        rw [step_of_nil hpending]
        exact h.lookup a ha key hkey
    | cons input pending =>
        have hinput : input ∈ (d.desk j).pending := hpending ▸ List.mem_cons_self ..
        have hwritten : key ∉ input.written pam := fun hw => h.apart j hj input hinput key hw a ha hkey
        rw [step_of_cons hpending]
        exact (lookup_command _ hwritten).trans (h.lookup a ha key hkey)
  own := by
    rw [desk_step_of_ne hj.symm]
    exact h.own
  apart := fun k hk b hb => h.apart k hk b (pending_step_subset k hb)

/-- Each of its lines is served alike. -/
theorem Desks.Alike.step_self (h : d.Alike pam i mine d') : (d.step pam i).Alike pam i mine (d'.step pam i) := by
  have hapart : ∀ j, j ≠ i → Apart pam ((d.step pam i).desk j).pending mine := by
    intro j hj
    rw [desk_step_of_ne hj]
    exact h.apart j hj
  have hown : ∀ a ∈ ((d.step pam i).desk i).pending, a ∈ mine := fun a ha =>
    h.own a (pending_step_subset i ha)
  cases hpending : (d.desk i).pending with
  | nil =>
      have hpending' : (d'.desk i).pending = [] := h.desk ▸ hpending
      rw [step_of_nil hpending, step_of_nil hpending']
      exact h
  | cons input pending =>
      have hpending' : (d'.desk i).pending = input :: pending := h.desk ▸ hpending
      have hinput : input ∈ mine := h.own input (hpending ▸ List.mem_cons_self ..)
      have hserved : ∀ p, p = parseCommand pam input.chunk.command (d.desk i).authenticated →
          ((⟨d.live, none⟩ : Registry).command input.env p).1 =
              ((⟨d'.live, none⟩ : Registry).command input.env p).1 ∧
            ∀ a ∈ mine, ∀ key ∈ a.used pam,
              ((⟨d.live, none⟩ : Registry).command input.env p).2.live.lookup key =
                ((⟨d'.live, none⟩ : Registry).command input.env p).2.live.lookup key := by
        intro p hp
        cases p with
        | answered answer authenticated => exact ⟨rfl, h.lookup⟩
        | snapshot =>
            refine ⟨rfl, fun a ha key hkey => ?_⟩
            dsimp only [Registry.command]
            rw [live_snapshot, live_snapshot]
            exact h.lookup a ha key hkey
        | operation cmd key value =>
            have hlookup := h.lookup input hinput key (Input.mem_used hp.symm)
            obtain ⟨hanswer, hkey⟩ := operate_congr input.env cmd value hlookup
            refine ⟨Prod.ext hanswer rfl, fun a ha k hk => ?_⟩
            by_cases hne : k = key
            · rw [hne]
              exact hkey
            · have hsame := h.lookup a ha k hk
              exact (lookup_operate_of_ne _ cmd hne value).trans
                (hsame.trans (lookup_operate_of_ne _ cmd hne value).symm)
      obtain ⟨hanswer, hlookup⟩ := hserved _ rfl
      refine ⟨?_, ?_, hown, hapart⟩
      · rw [step_of_cons hpending, step_of_cons hpending', ← h.desk]
        dsimp only
        rw [Function.update_self, Function.update_self, hanswer]
      · rw [step_of_cons hpending, step_of_cons hpending', ← h.desk]
        exact hlookup

/-- **The lines of others can be left out.** -/
theorem Desks.Alike.run_replicate (h : d.Alike pam i mine d') (es : List ι) :
    (d.run pam es).Alike pam i mine (d'.run pam (List.replicate (es.count i) i)) := by
  have hdrop : ∀ j ∈ es, Option.guard (· == i) j = none → ∀ s t : Desks ι,
      s.Alike pam i mine t → (s.step pam j).Alike pam i mine t := by
    intro j _ hj s t hst
    refine hst.step_other fun hji => ?_
    rw [hji, Option.guard_eq_none_iff] at hj
    exact Bool.false_ne_true (hj.symm.trans (beq_self_eq_true i))
  have hkeep : ∀ j ∈ es, ∀ k, Option.guard (· == i) j = some k → ∀ s t : Desks ι,
      s.Alike pam i mine t → (s.step pam j).Alike pam i mine (t.step pam k) := by
    intro j _ k hk s t hst
    obtain ⟨rfl, hji⟩ := Option.guard_eq_some_iff.1 hk
    obtain rfl := eq_of_beq hji
    exact hst.step_self
  have hsim := Machine.run_simulation hdrop hkeep h
  rw [List.filterMap_eq_filter, List.filter_beq] at hsim
  exact hsim

/-! ### A connection on its own -/

/-- The next line of a connection that has the map for itself. -/
def serveLine (pam : Pam) (a : Input) (s : Bool × KvMap) : List UInt8 × Bool × KvMap :=
  let x := (⟨s.2, none⟩ : Registry).command a.env (parseCommand pam a.chunk.command s.1)
  (x.1.1, x.1.2, x.2.live)

/-- What a connection comes to that is served `n` times while nobody else is. -/
theorem Desks.run_replicate (pam : Pam) (i : ι) (d : Desks ι) (n : ℕ) :
    (d.run pam (List.replicate n i)).desk i =
        ⟨(d.desk i).pending.drop n,
          (serve (serveLine pam) ((d.desk i).pending.take n) ((d.desk i).authenticated, d.live)).2.1,
          (d.desk i).replies ++
            (serve (serveLine pam) ((d.desk i).pending.take n) ((d.desk i).authenticated, d.live)).1⟩ ∧
      (d.run pam (List.replicate n i)).live =
        (serve (serveLine pam) ((d.desk i).pending.take n) ((d.desk i).authenticated, d.live)).2.2 := by
  induction n generalizing d with
  | zero =>
      refine ⟨?_, rfl⟩
      rw [List.take_zero, serve_nil, List.append_nil]
      rfl
  | succ n ih =>
      have hrun : d.run pam (List.replicate (n + 1) i) = (d.step pam i).run pam (List.replicate n i) := rfl
      obtain ⟨hdesk, hlive⟩ := ih (d.step pam i)
      rw [hrun, hdesk, hlive]
      cases hpending : (d.desk i).pending with
      | nil =>
          rw [step_of_nil hpending, hpending]
          simp only [List.take_nil, List.drop_nil, and_self]
      | cons input pending =>
          rw [step_of_cons hpending]
          dsimp only
          rw [Function.update_self, List.take_succ_cons, List.drop_succ_cons, serve_cons, List.append_assoc]
          exact ⟨rfl, rfl⟩

omit [DecidableEq ι] in
/-- Before anything is served. -/
theorem Desks.alike_start {inputs : ι → List Input} (h : ∀ j, j ≠ i → Apart pam (inputs j) (inputs i))
    (m : KvMap) : (start inputs m).Alike pam i (inputs i) (start inputs m) where
  desk := rfl
  lookup := fun _ _ _ _ => rfl
  own := fun _ ha => ha
  apart := h

theorem Conn.Follows.replies_first {c : Conn} {f : Desk} (h : c.Follows f) : c.replies <+: f.replies := by
  cases h with
  | between h => exact List.prefix_refl _
  | before input h => exact List.prefix_refl _
  | after answer authenticated h => exact List.prefix_append ..

theorem Conn.Follows.eq_of_idle {c : Conn} {f : Desk} (h : c.Follows f) (hrunning : c.running = none) :
    f = ⟨c.pending, c.authenticated, c.replies⟩ := by
  cases h with
  | between h => rfl
  | before input h => exact absurd hrunning h
  | after answer authenticated h => exact absurd hrunning h

section Isolated

variable {w : World H} {m : KvMap} {inputs : ι → List Input}

/-- **The answers of a connection with keys of its own** are those of a map that it has for itself: the
first of them at every time, and all of them in the end. -/
theorem replies_isolated (h : Holds w.store m)
    (hapart : ∀ j, j ≠ i → Apart pam (inputs j) (inputs i)) (es : List ι) :
    let s := (Server.start inputs w).run pam es
    let own := serve (serveLine pam) (inputs i) (false, m)
    (s.conn i).replies <+: own.1 ∧
      (6 * (inputs i).length ≤ es.count i →
        (s.conn i).replies = own.1 ∧
          ∀ a ∈ inputs i, ∀ key ∈ a.used pam, s.world.store.get key = own.2.2.lookup key) := by
  intro s own
  obtain ⟨marks, hlen, hall⟩ := exists_desks h pam inputs es
  obtain ⟨hholds, hfollows⟩ := hall es.length
  rw [← hlen, List.take_length, hlen, List.take_length] at hholds hfollows
  have halike := (Desks.alike_start hapart m).run_replicate (Machine.marked es marks)
  have hown := (Desks.start inputs m).run_replicate pam i ((Machine.marked es marks).count i)
  obtain ⟨hdesk, hlive⟩ := hown
  have hserved := halike.desk.trans hdesk
  -- the lines that have been served are the first of all
  have hsplit := congrArg (fun as => (serve (serveLine pam) as (false, m)).1)
    (List.take_append_drop ((Machine.marked es marks).count i) (inputs i))
  rw [serve_append_fst] at hsplit
  refine ⟨?_, fun hes => ?_⟩
  · have hfirst := (hfollows i).replies_first
    rw [hserved] at hfirst
    exact hfirst.trans ⟨_, hsplit⟩
  · have hstart : ((Server.start inputs w).conn i).Left (6 * (inputs i).length) := le_refl _
    have hleft := left_run pam (Server.start inputs w) es hstart
    rw [Nat.sub_eq_zero_of_le hes] at hleft
    obtain ⟨hrunning, hpending⟩ := hleft.done
    have heq := ((hfollows i).eq_of_idle hrunning).symm.trans hserved
    have hall : (inputs i).take ((Machine.marked es marks).count i) = inputs i := by
      rw [List.take_eq_self_iff]
      exact List.drop_eq_nil_iff.1 ((congrArg Desk.pending heq).symm.trans hpending)
    refine ⟨?_, fun a ha key hkey => ?_⟩
    · refine (congrArg Desk.replies heq).trans ?_
      exact congrArg (fun as => (serve (serveLine pam) as (false, m)).1) hall
    · have hlookup := (hholds.get_eq key).trans (halike.lookup a ha key hkey)
      rw [hlive] at hlookup
      exact hlookup.trans (congrArg (fun as => (serve (serveLine pam) as (false, m)).2.2.lookup key) hall)

/-- A key under which nobody writes stays as it is. -/
theorem get_of_unwritten (h : Holds w.store m) {key : HashKey}
    (hkey : ∀ j, ∀ a ∈ inputs j, key ∉ a.written pam) (es : List ι) :
    ((Server.start inputs w).run pam es).world.store.get key = m.lookup key := by
  obtain ⟨marks, hlen, hall⟩ := exists_desks h pam inputs es
  have hholds := (hall es.length).1
  rw [← hlen, List.take_length, hlen, List.take_length] at hholds
  refine (hholds.get_eq key).trans ?_
  refine (Machine.run_invariant (Desks.step pam) (fun d : Desks ι =>
    (∀ j, ∀ a ∈ (d.desk j).pending, key ∉ a.written pam) ∧ d.live.lookup key = m.lookup key)
    ⟨hkey, rfl⟩ ?_).2
  rintro j - d ⟨hpending, hlookup⟩
  refine ⟨fun k a ha => hpending k a (Desks.pending_step_subset k ha), ?_⟩
  cases hd : (d.desk j).pending with
  | nil =>
      rw [Desks.step_of_nil hd]
      exact hlookup
  | cons input pending =>
      have hinput : key ∉ input.written pam := hpending j input (hd ▸ List.mem_cons_self ..)
      rw [Desks.step_of_cons hd]
      exact (lookup_command _ hinput).trans hlookup

/-- **A client with keys of its own is served as if it were alone.**  If no other connection writes under
the keys of a connection, then at every time it has got the first of the answers that it would get if
only its thread ran.  Once it has taken six steps for each of its lines it has got them all, and its keys
are as they would be. -/
theorem clients_isolated (h : Holds w.store m)
    (hapart : ∀ j, j ≠ i → Apart pam (inputs j) (inputs i)) (es : List ι) :
    let s := (Server.start inputs w).run pam es
    let alone := (Server.start inputs w).run pam (List.replicate (6 * (inputs i).length) i)
    (s.conn i).replies <+: (alone.conn i).replies ∧
      (6 * (inputs i).length ≤ es.count i →
        (s.conn i).replies = (alone.conn i).replies ∧
          ∀ a ∈ inputs i, ∀ key ∈ a.used pam, s.world.store.get key = alone.world.store.get key) := by
  intro s alone
  obtain ⟨hfirst, hdone⟩ := replies_isolated h hapart es
  obtain ⟨-, halone⟩ := replies_isolated h hapart (List.replicate (6 * (inputs i).length) i)
  obtain ⟨hreplies, hget⟩ := halone List.count_replicate_self.ge
  refine ⟨hreplies.symm ▸ hfirst, fun hes => ?_⟩
  obtain ⟨hreplies', hget'⟩ := hdone hes
  exact ⟨hreplies'.trans hreplies.symm, fun a ha key hkey =>
    (hget' a ha key hkey).trans (hget a ha key hkey).symm⟩

end Isolated

end Alike

/-- Two clients with a key each. -/
def ownKeys (second : Bool) : List Input :=
  let line (text : String) (h : ascii text ≠ [] ∧ (ascii text).length ≤ 1023) : Input :=
    ⟨⟨ascii text, h⟩, .ok⟩
  if second then [line "AUTH c d" (by decide), line "KV_INSERT 4 y" (by decide)]
  else [line "AUTH c d" (by decide), line "KV_INSERT 3 x" (by decide), line "KV_GET 3" (by decide)]

theorem ownKeys_isolated :
    let s := (Server.start ownKeys ⟨Store.init HashFn.module, none⟩).run (fun _ _ => true) (inTurns 18)
    let alone := (Server.start ownKeys ⟨Store.init HashFn.module, none⟩).run (fun _ _ => true)
      (List.replicate (6 * (ownKeys false).length) false)
    (s.conn false).replies <+: (alone.conn false).replies ∧
      (6 * (ownKeys false).length ≤ (inTurns 18).count false →
        (s.conn false).replies = (alone.conn false).replies ∧
          ∀ a ∈ ownKeys false, ∀ key ∈ a.used fun _ _ => true,
            s.world.store.get key = alone.world.store.get key) := by
  have hwritten : (ownKeys true).map (Input.written fun _ _ => true) = [none, some 4] := rfl
  have hused : (ownKeys false).map (Input.used fun _ _ => true) = [none, some 3, some 3] := rfl
  have hapart : ∀ j, j ≠ false → Apart (fun _ _ => true) (ownKeys j) (ownKeys false) := by
    intro j hj
    cases j with
    | false => exact absurd rfl hj
    | true =>
        refine apart_of_keys hwritten hused fun key hmem => ?_
        have hkey : key = 4 := by simpa using hmem
        rw [hkey]
        decide
  exact clients_isolated (holds_init HashFn.module) hapart (inTurns 18)

end Daemon
