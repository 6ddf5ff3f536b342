import Lockin.GlsLocks

/-! # The condition variables that spin

    The code of `tas_in.h` and its siblings without `USE_FUTEX_COND`: `cond_wait` takes a
    ticket under the mutex and spins until `head` has come to it, a signal adds one to `head`,
    and a broadcast sets `head` to the last ticket.  The mutex is any of the models of
    `GlsLocks`, and all waits use the same one.  Signals and broadcasts may come from threads
    that do not hold it.

    There are two loops.  `tas_in.h` and `ttas_in.h` wait while `head` is below the ticket; no
    wake-up is lost there as long as no broadcast lowers `head` (`cond_wakes`), and none does
    when signals and broadcasts hold the mutex (`cond_disciplined`).  The other headers wait
    until `head` equals the ticket; a waiter that `head` has passed waits for ever
    (`cond_missed`), which is what a broadcast does to all waiters but the last. -/

namespace SpinCond

open Interleaving GlsLocks

variable {Tid : Type}

/-- The loop of `cond_wait`. -/
inductive Loop where
  /-- `while (cond_tas > c->head)`. -/
  | atLeast
  /-- `int distance = cond_ticket - c->head`, and a break when it is 0. -/
  | exact
  deriving DecidableEq

/-- The loop goes on; `cond_timedwait` always has the first one. -/
def Loop.waits (loop : Loop) (timed : Bool) (ticket head : Nat) : Prop :=
  if timed ∨ loop = .atLeast then head < ticket else ticket ≠ head

instance (loop : Loop) (timed : Bool) (ticket head : Nat) :
    Decidable (loop.waits timed ticket head) :=
  inferInstanceAs (Decidable (ite _ _ _))

/-- Where a thread is.  A signal or broadcast remembers whether its thread has the mutex, and
    what `c->ticket` was when it was called. -/
inductive Stage where
  | run (holds : Bool)
  /-- In a function of the mutex, called by the program. -/
  | inside (f : Fn)
  /-- `++c->ticket`. -/
  | load (timed : Bool)
  | store (timed : Bool) (n : Nat)
  /-- `c->l != l`. -/
  | checkL (timed : Bool)
  /-- `if (c->l)`. -/
  | isSet (timed : Bool)
  | casL (timed : Bool)
  | recheckL (timed : Bool)
  /-- `return EINVAL`. -/
  | einval
  | unlock (timed : Bool)
  | unlocking (timed : Bool)
  | spin (timed : Bool)
  | pause (timed : Bool)
  /-- Before `lock_lock` of a wait that has timed out, or has not. -/
  | lock (late : Bool)
  | locking (late : Bool)
  | sigTicket (holds : Bool) (start : Nat)
  | sigHead (holds : Bool) (start ticket : Nat)
  | sigAdd (holds : Bool) (start : Nat)
  | bcTicket (holds : Bool) (start : Nat)
  | bcHead (holds : Bool) (start ticket : Nat)
  /-- `ch = c->head`. -/
  | bcCh (holds : Bool) (start : Nat)
  /-- `ct = c->ticket`. -/
  | bcCt (holds : Bool) (start ch : Nat)
  | bcCas (holds : Bool) (start ch ct : Nat)
  deriving DecidableEq

/-- The mutex and the condition variable, with the signals and the broadcasts that have
    returned: what `c->ticket` was when they were called. -/
structure Shared (Sh : Type) where
  mutex : Sh
  ticket : Nat
  head : Nat
  /-- `c->l` is the mutex, and not `NULL`. -/
  l : Bool
  signals : List Nat
  broadcasts : List Nat

/-- A thread, with the ticket of its wait and what `c->head` was when it took it. -/
structure Local (Lc : Type) where
  stage : Stage
  ticket : Nat
  base : Nat
  loc : Lc

inductive Act (A : Type) where
  | call (f : Fn)
  | condWait (timed : Bool)
  | condSignal
  | condBroadcast
  | go
  /-- `tas_getticks() > to`. -/
  | expire
  | inner (a : A)

section

variable [DecidableEq Tid] (M : LockModel Tid) (loop : Loop)

/-- After a step of the mutex that leads to `l'`. -/
def settle (stage : Stage) (l' : M.Lc) : Stage :=
  match stage with
  | .inside f => if M.place l' = .inside f then .inside f else .run (M.place l' = .critical)
  | .unlocking timed => if M.place l' = .inside .unlock then .unlocking timed else .spin timed
  | .locking late => if M.place l' = .inside .lock then .locking late else .run true
  | stage => stage

/-- A function of the mutex begins. -/
def enter (t : Tid) (sh : Shared M.Sh) (l : Local M.Lc) (f : Fn) (stage : Stage) :
    Option (Shared M.Sh × Local M.Lc) :=
  (M.prog t sh.mutex l.loc (M.start f)).map fun r =>
    ({ sh with mutex := r.1 }, { l with stage := stage, loc := r.2 })

/-- `cond_wait`, `cond_timedwait`, `cond_signal` and `cond_broadcast`. -/
def go (t : Tid) (sh : Shared M.Sh) (l : Local M.Lc) : Stage → Option (Shared M.Sh × Local M.Lc)
  | .load timed => some (sh, { l with stage := .store timed sh.ticket })
  | .store timed n =>
      some ({ sh with ticket := (n + 1) % 2 ^ 32 },
        { l with stage := .checkL timed, ticket := (n + 1) % 2 ^ 32, base := sh.head })
  | .checkL timed => some (sh, { l with stage := if sh.l then .unlock timed else .isSet timed })
  | .isSet timed => some (sh, { l with stage := if sh.l then .einval else .casL timed })
  | .casL timed => some ({ sh with l := true }, { l with stage := .recheckL timed })
  | .recheckL timed => some (sh, { l with stage := if sh.l then .unlock timed else .einval })
  | .einval => some (sh, { l with stage := .run true })
  | .unlock timed => enter M t sh l .unlock (.unlocking timed)
  | .spin timed =>
      some (sh, { l with
        stage := if loop.waits timed l.ticket sh.head then .pause timed else .lock false })
  | .pause timed => some (sh, { l with stage := .spin timed })
  | .lock late => enter M t sh l .lock (.locking late)
  | .sigTicket holds start => some (sh, { l with stage := .sigHead holds start sh.ticket })
  | .sigHead holds start ticket =>
      if sh.head < ticket then some (sh, { l with stage := .sigAdd holds start })
      else some ({ sh with signals := start :: sh.signals }, { l with stage := .run holds })
  | .sigAdd holds start =>
      some ({ sh with head := (sh.head + 1) % 2 ^ 32, signals := start :: sh.signals },
        { l with stage := .run holds })
  | .bcTicket holds start => some (sh, { l with stage := .bcHead holds start sh.ticket })
  | .bcHead holds start ticket =>
      if ticket = sh.head then
        some ({ sh with broadcasts := start :: sh.broadcasts }, { l with stage := .run holds })
      else some (sh, { l with stage := .bcCh holds start })
  | .bcCh holds start => some (sh, { l with stage := .bcCt holds start sh.head })
  | .bcCt holds start ch => some (sh, { l with stage := .bcCas holds start ch sh.ticket })
  | .bcCas holds start ch ct =>
      if sh.head = ch then
        some ({ sh with head := ct, broadcasts := start :: sh.broadcasts },
          { l with stage := .run holds })
      else some (sh, { l with stage := .bcCh holds start })
  | .run _ | .inside _ | .unlocking _ | .locking _ => none

/-- One step of a thread. -/
def prog : Prog Tid (Shared M.Sh) (Local M.Lc) (Act M.Act) := fun t sh l a =>
  match a with
  | .call f =>
      match l.stage with
      | .run _ => enter M t sh l f (.inside f)
      | _ => none
  | .condWait timed =>
      if l.stage = .run true then some (sh, { l with stage := .load timed }) else none
  | .condSignal =>
      match l.stage with
      | .run holds => some (sh, { l with stage := .sigTicket holds sh.ticket })
      | _ => none
  | .condBroadcast =>
      match l.stage with
      | .run holds => some (sh, { l with stage := .bcTicket holds sh.ticket })
      | _ => none
  | .go => go M loop t sh l l.stage
  | .expire => if l.stage = .pause true then some (sh, { l with stage := .lock true }) else none
  | .inner a =>
      if M.starts a then none
      else (M.prog t sh.mutex l.loc a).map fun r =>
        ({ sh with mutex := r.1 }, { l with stage := settle M l.stage r.2, loc := r.2 })

/-- After `cond_init`, with a mutex that nobody has used. -/
structure Init (c : Conf Tid (Shared M.Sh) (Local M.Lc)) : Prop where
  created : M.created c.sh.mutex
  ticket : c.sh.ticket = 0
  head : c.sh.head = 0
  l : c.sh.l = false
  signals : c.sh.signals = []
  broadcasts : c.sh.broadcasts = []
  stage : ∀ t, (c.loc t).stage = .run false
  unused : ∀ t, M.unused (c.loc t).loc

/-- The mutex with its threads. -/
abbrev mutexView (c : Conf Tid (Shared M.Sh) (Local M.Lc)) : Conf Tid M.Sh M.Lc :=
  c.view Shared.mutex fun _ => Local.loc

/-- The counters have room for the step. -/
def Room (sh : Shared M.Sh) : Stage → Prop
  | .store _ n => n + 1 < 2 ^ 32
  | .sigAdd _ _ => sh.head + 1 < 2 ^ 32
  | _ => True

/-- The broadcast does not lower `head`. -/
def Raises (sh : Shared M.Sh) : Stage → Prop
  | .bcCas _ _ ch ct => sh.head = ch → ch ≤ ct
  | _ => True

/-- The counters do not wrap around, no broadcast lowers `head`, and the steps of the mutex are
    such that it is a lock. -/
def Ok (c : Conf Tid (Shared M.Sh) (Local M.Lc)) (t : Tid) : Act M.Act → Prop
  | .go => Room M c.sh (c.loc t).stage ∧ Raises M c.sh (c.loc t).stage
  | .inner a => M.ok (mutexView M c) t a
  | _ => True

end

/-! ## What a thread relies on -/

/-- Where the thread is with the mutex. -/
def Stage.place : Stage → Place
  | .run holds => if holds then .critical else .idle
  | .inside f => .inside f
  | .load _ | .store _ _ | .checkL _ | .isSet _ | .casL _ | .recheckL _ | .einval | .unlock _ =>
      .critical
  | .unlocking _ => .inside .unlock
  | .spin _ | .pause _ | .lock _ => .idle
  | .locking _ => .inside .lock
  | .sigTicket holds _ | .sigHead holds _ _ | .sigAdd holds _ =>
      if holds then .critical else .idle
  | .bcTicket holds _ | .bcHead holds _ _ | .bcCh holds _ | .bcCt holds _ _ | .bcCas holds _ _ _ =>
      if holds then .critical else .idle

/-- In a wait, with a ticket. -/
def Stage.registered : Stage → Bool
  | .checkL _ | .isSet _ | .casL _ | .recheckL _ | .unlock _ | .unlocking _ => true
  | .spin _ | .pause _ | .lock _ | .locking _ => true
  | _ => false

/-- The loop has ended because of `head`. -/
def Stage.woken : Stage → Bool
  | .lock late | .locking late => !late
  | _ => false

/-- What the signal or broadcast has read is not older than its call. -/
def Stage.Reads (ticket : Nat) : Stage → Prop
  | .sigTicket _ start | .sigAdd _ start => start ≤ ticket
  | .bcTicket _ start | .bcCh _ start | .bcCt _ start _ => start ≤ ticket
  | .sigHead _ start ct | .bcHead _ start ct | .bcCas _ start _ ct => start ≤ ct ∧ ct ≤ ticket
  | _ => True

/-- What the thread that has the mutex knows. -/
def Stage.Knows {Sh : Type} (sh : Shared Sh) : Stage → Prop
  | .store _ n => n = sh.ticket
  | .isSet _ | .casL _ => sh.l = false
  | .recheckL _ => sh.l = true
  | .einval => False
  | _ => True

/-- **What a wait is owed**: one step of `head` for every signal that was called after the
    ticket was taken and has returned, up to the ticket, and all of them for a broadcast. -/
def Owed {Sh : Type} (sh : Shared Sh) (ticket base : Nat) : Prop :=
  min ticket (base + sh.signals.countP (ticket ≤ ·)) ≤ sh.head ∧
    ∀ start ∈ sh.broadcasts, ticket ≤ start → ticket ≤ sh.head

/-- What a step does to the condition variable. -/
structure Later {Sh : Type} (sh sh' : Shared Sh) : Prop where
  ticket : sh.ticket ≤ sh'.ticket
  head : sh.head ≤ sh'.head
  signals : sh'.signals = sh.signals ∨ ∃ start ≤ sh.ticket, sh'.signals = start :: sh.signals ∧
    (sh.head < sh'.head ∨ start ≤ sh'.head)
  broadcasts : sh'.broadcasts = sh.broadcasts ∨ ∃ start ≤ sh.ticket,
    sh'.broadcasts = start :: sh.broadcasts ∧ start ≤ sh'.head

section

variable {Sh : Type} {sh sh' : Shared Sh} {ticket base : Nat}

/-- A step that leaves the counters alone. -/
theorem Later.same (hticket : sh'.ticket = sh.ticket) (hhead : sh'.head = sh.head)
    (hsignals : sh'.signals = sh.signals) (hbroadcasts : sh'.broadcasts = sh.broadcasts) :
    Later sh sh' :=
  ⟨hticket.ge, hhead.ge, Or.inl hsignals, Or.inl hbroadcasts⟩

/-- A wake-up that is owed stays owed. -/
theorem Owed.later (h : Owed sh ticket base) (hlater : Later sh sh') : Owed sh' ticket base := by
  obtain ⟨hsig, hbc⟩ := h
  have hhead := hlater.head
  refine ⟨?_, fun start hstart hle => ?_⟩
  · obtain heq | ⟨start, -, heq, hcase⟩ := hlater.signals
    · rw [heq]
      omega
    · rw [heq, List.countP_cons]
      by_cases hle : ticket ≤ start
      · rw [if_pos (by simpa using hle)]
        omega
      · rw [if_neg (by simpa using hle)]
        omega
  · obtain heq | ⟨start', -, heq, hcase⟩ := hlater.broadcasts
    · rw [heq] at hstart
      exact (hbc start hstart hle).trans hhead
    · rw [heq] at hstart
      obtain rfl | hold := List.mem_cons.mp hstart
      · exact hle.trans hcase
      · exact (hbc start hold hle).trans hhead

theorem Stage.Reads.mono {stage : Stage} {n n' : Nat} (h : stage.Reads n) (hle : n ≤ n') :
    stage.Reads n' := by
  cases stage <;> first | exact h | exact Nat.le_trans h hle | exact ⟨h.1, h.2.trans hle⟩

theorem Stage.Knows.same {stage : Stage} (h : stage.Knows sh) (hticket : sh'.ticket = sh.ticket)
    (hl : sh'.l = sh.l) : stage.Knows sh' := by
  cases stage <;> first | exact h | exact h.trans hticket.symm | exact hl.trans h

/-- A thread without the mutex knows nothing. -/
theorem Stage.Knows.of_place {stage : Stage} (h : stage.place ≠ .critical) : stage.Knows sh := by
  cases stage <;> first | exact True.intro | exact absurd rfl h

end

section

variable [DecidableEq Tid] {M : LockModel Tid} {loop : Loop} {sh sh' : Shared M.Sh}
  {l : Local M.Lc}

/-- What holds of a thread where it stands. -/
structure Here (M : LockModel Tid) (sh : Shared M.Sh) (l : Local M.Lc) : Prop where
  place : M.place l.loc = l.stage.place
  knows : l.stage.Knows sh
  ticket : l.stage.registered = true → l.ticket ≤ sh.ticket
  owed : l.stage.registered = true → Owed sh l.ticket l.base
  woken : l.stage.woken = true → l.ticket ≤ sh.head
  reads : l.stage.Reads sh.ticket

/-- A step of another thread. -/
theorem Here.later (h : Here M sh l) (hlater : Later sh sh')
    (hsame : sh'.ticket = sh.ticket ∧ sh'.l = sh.l ∨ M.place l.loc ≠ .critical) :
    Here M sh' l := by
  refine ⟨h.place, ?_, fun hreg => (h.ticket hreg).trans hlater.ticket,
    fun hreg => (h.owed hreg).later hlater, fun hw => (h.woken hw).trans hlater.head,
    h.reads.mono hlater.ticket⟩
  obtain ⟨hticket, hl⟩ | hplace := hsame
  · exact h.knows.same hticket hl
  · exact .of_place (h.place ▸ hplace)

/-- The thread only goes on to another stage. -/
theorem Here.move (h : Here M sh l) {s : Stage} (hplace : s.place = l.stage.place)
    (hknows : s.Knows sh) (hreg : s.registered = true → l.stage.registered = true)
    (hwoken : s.woken = true → l.ticket ≤ sh.head) (hreads : s.Reads sh.ticket) :
    Here M sh { l with stage := s } :=
  ⟨h.place.trans hplace.symm, hknows, fun hs => h.ticket (hreg hs), fun hs => h.owed (hreg hs),
    hwoken, hreads⟩

/-- A signal or a broadcast returns. -/
theorem Here.return (h : Here M sh l) (holds : Bool)
    (hplace : l.stage.place = if holds then .critical else .idle) :
    Here M sh' { l with stage := .run holds } :=
  ⟨h.place.trans hplace, trivial, by simp [Stage.registered], by simp [Stage.registered],
    by simp [Stage.woken], trivial⟩

/-- A step of the mutex keeps the thread where its stage says. -/
theorem settle_spec {l' : M.Lc} {taken : Bool} {stage : Stage}
    (hplace : M.place l.loc = stage.place) (hflow : Flow taken (M.place l.loc) (M.place l')) :
    M.place l' = (settle M stage l').place ∧
      ((settle M stage l').registered = true → stage.registered = true) ∧
      ((settle M stage l').woken = true → stage.woken = true) ∧
      (∀ sh : Shared M.Sh, stage.Knows sh → (settle M stage l').Knows sh) ∧
      (∀ n, stage.Reads n → (settle M stage l').Reads n) := by
  rw [hplace] at hflow
  cases stage with
  | inside f =>
      obtain hsame | hto := hflow
      · have heq : settle M (.inside f) l' = .inside f := if_pos hsame
        rw [heq]
        exact ⟨hsame, id, id, fun _ => id, fun _ => id⟩
      · have hne : M.place l' ≠ .inside f := by
          rw [hto]
          cases f <;> cases taken <;> simp
        have heq : settle M (.inside f) l' = .run (M.place l' = .critical) := if_neg hne
        rw [heq, hto]
        refine ⟨?_, by simp [Stage.registered], by simp [Stage.woken], fun _ _ => trivial,
          fun _ _ => trivial⟩
        cases f <;> cases taken <;> simp [Stage.place]
  | unlocking timed =>
      obtain hsame | hto := hflow
      · have heq : settle M (.unlocking timed) l' = .unlocking timed := if_pos hsame
        rw [heq]
        exact ⟨hsame, id, id, fun _ => id, fun _ => id⟩
      · have heq : settle M (.unlocking timed) l' = .spin timed := if_neg (by rw [hto]; simp)
        rw [heq]
        exact ⟨hto, fun _ => rfl, by simp [Stage.woken], fun _ _ => trivial, fun _ _ => trivial⟩
  | locking late =>
      obtain hsame | hto := hflow
      · have heq : settle M (.locking late) l' = .locking late := if_pos hsame
        rw [heq]
        exact ⟨hsame, id, id, fun _ => id, fun _ => id⟩
      · have heq : settle M (.locking late) l' = .run true := if_neg (by rw [hto]; simp)
        rw [heq]
        exact ⟨hto, by simp [Stage.registered], by simp [Stage.woken], fun _ _ => trivial,
          fun _ _ => trivial⟩
  | run holds | sigTicket holds | sigHead holds | sigAdd holds | bcTicket holds | bcHead holds
  | bcCh holds | bcCt holds | bcCas holds =>
      refine ⟨?_, id, id, fun _ => id, fun _ => id⟩
      cases holds <;> exact hflow
  | _ => exact ⟨hflow, id, id, fun _ => id, fun _ => id⟩

end

/-! ## Every run -/

section

variable [DecidableEq Tid] {M : LockModel Tid} {loop : Loop}
  {c : Conf Tid (Shared M.Sh) (Local M.Lc)} {t : Tid} {r : Shared M.Sh × Local M.Lc}

/-- No two waits have the same ticket, and no signal or broadcast was called at a later one than
    there is. -/
structure Inv (M : LockModel Tid) (c : Conf Tid (Shared M.Sh) (Local M.Lc)) : Prop where
  mutex : Reach M.prog M.ok M.Init (mutexView M c)
  here : ∀ t, Here M c.sh (c.loc t)
  distinct : ∀ t u, (c.loc t).stage.registered = true → (c.loc u).stage.registered = true →
    (c.loc t).ticket = (c.loc u).ticket → t = u
  signals : ∀ start ∈ c.sh.signals, start ≤ c.sh.ticket
  broadcasts : ∀ start ∈ c.sh.broadcasts, start ≤ c.sh.ticket

/-- Before the first call. -/
theorem Init.inv (h : Init M c) : Inv M c := by
  refine ⟨.start ⟨h.created, h.unused⟩, fun t => ?_, fun t u ht => ?_, by simp [h.signals],
    by simp [h.broadcasts]⟩
  · refine ⟨?_, ?_, ?_, ?_, ?_, ?_⟩
    · rw [h.stage t]
      exact M.unused_idle _ (h.unused t)
    · rw [h.stage t]
      trivial
    · simp [h.stage t, Stage.registered]
    · simp [h.stage t, Stage.registered]
    · simp [h.stage t, Stage.woken]
    · rw [h.stage t]
      trivial
  · rw [h.stage t] at ht
    cases ht

/-- What a step of thread `t` to `r` does. -/
structure Effect (M : LockModel Tid) (c : Conf Tid (Shared M.Sh) (Local M.Lc)) (t : Tid)
    (r : Shared M.Sh × Local M.Lc) : Prop where
  later : Later c.sh r.1
  /-- Only a thread that has the mutex takes a ticket or sets `c->l`. -/
  same : r.1.ticket = c.sh.ticket ∧ r.1.l = c.sh.l ∨ M.place (c.loc t).loc = .critical
  here : Here M r.1 r.2
  fresh : r.2.stage.registered = true →
    (c.loc t).stage.registered = true ∧ r.2.ticket = (c.loc t).ticket ∨ c.sh.ticket < r.2.ticket
  mutex : Follows M.prog M.ok (mutexView M c) t (r.1.mutex, r.2.loc)

/-- **Step lemma.** -/
theorem Inv.effect (h : Inv M c) (heff : Effect M c t r) : Inv M (c.put t r) := by
  have hfresh : ∀ u, u ≠ t → r.2.stage.registered = true → (c.loc u).stage.registered = true →
      r.2.ticket ≠ (c.loc u).ticket := by
    intro u hut hr hu heq
    obtain ⟨hreg, hold⟩ | hnew := heff.fresh hr
    · exact hut (h.distinct t u hreg hu (hold.symm.trans heq)).symm
    · have := (h.here u).ticket hu
      omega
  have hticket := heff.later.ticket
  refine ⟨h.mutex.view_put heff.mutex, fun u => ?_, fun u v hu hv heq => ?_,
    fun start hstart => ?_, fun start hstart => ?_⟩
  · rw [put_loc]
    split
    · exact heff.here
    · next hut =>
      refine (h.here u).later heff.later ?_
      obtain hsame | hcritical := heff.same
      · exact Or.inl hsame
      · exact Or.inr fun hu => hut (M.unique h.mutex hu hcritical)
  · rw [put_loc] at hu heq
    rw [put_loc] at hv heq
    split at hu
    · next hut =>
      rw [if_pos hut] at heq
      split at hv
      · next hvt => exact hut.trans hvt.symm
      · next hvt =>
        rw [if_neg hvt] at heq
        exact absurd heq (hfresh v hvt hu hv)
    · next hut =>
      rw [if_neg hut] at heq
      split at hv
      · next hvt =>
        rw [if_pos hvt] at heq
        exact absurd heq.symm (hfresh u hut hv hu)
      · next hvt =>
        rw [if_neg hvt] at heq
        exact h.distinct u v hu hv heq
  · rw [put_sh] at hstart ⊢
    obtain heq | ⟨start', hle, heq, -⟩ := heff.later.signals
    · exact (h.signals start (heq ▸ hstart)).trans hticket
    · rw [heq] at hstart
      obtain rfl | hold := List.mem_cons.mp hstart
      · exact hle.trans hticket
      · exact (h.signals start hold).trans hticket
  · rw [put_sh] at hstart ⊢
    obtain heq | ⟨start', hle, heq, -⟩ := heff.later.broadcasts
    · exact (h.broadcasts start (heq ▸ hstart)).trans hticket
    · rw [heq] at hstart
      obtain rfl | hold := List.mem_cons.mp hstart
      · exact hle.trans hticket
      · exact (h.broadcasts start hold).trans hticket

/-- The thread only goes on to another stage. -/
theorem Inv.move (h : Inv M c) {s : Stage} (hplace : s.place = (c.loc t).stage.place)
    (hknows : s.Knows c.sh) (hreg : s.registered = true → (c.loc t).stage.registered = true)
    (hwoken : s.woken = true → (c.loc t).ticket ≤ c.sh.head) (hreads : s.Reads c.sh.ticket) :
    Effect M c t (c.sh, { c.loc t with stage := s }) where
  later := .same rfl rfl rfl rfl
  same := Or.inl ⟨rfl, rfl⟩
  here := (h.here t).move hplace hknows hreg hwoken hreads
  fresh hs := Or.inl ⟨hreg hs, rfl⟩
  mutex := Or.inl rfl

/-- A signal or a broadcast returns. -/
theorem Inv.return (h : Inv M c) {sh : Shared M.Sh} {holds : Bool}
    (hplace : (c.loc t).stage.place = if holds then .critical else .idle)
    (hlater : Later c.sh sh) (hticket : sh.ticket = c.sh.ticket) (hl : sh.l = c.sh.l)
    (hmutex : sh.mutex = c.sh.mutex) : Effect M c t (sh, { c.loc t with stage := .run holds }) where
  later := hlater
  same := Or.inl ⟨hticket, hl⟩
  here := (h.here t).return holds hplace
  fresh hs := by cases hs
  mutex := Or.inl (by rw [hmutex]; rfl)

/-- A function of the mutex begins. -/
theorem Inv.enter (h : Inv M c) {f : Fn} {s : Stage} (hplace : s.place = .inside f)
    (hknows : s.Knows c.sh) (hreg : s.registered = true → (c.loc t).stage.registered = true)
    (hwoken : s.woken = true → (c.loc t).stage.woken = true) (hreads : s.Reads c.sh.ticket)
    (hs : enter M t c.sh (c.loc t) f s = some r) : Effect M c t r := by
  obtain ⟨r', hstep, rfl⟩ := Option.map_eq_some_iff.mp hs
  obtain ⟨hfrom, hin⟩ := M.start_step _ _ _ _ _ hstep
  have hhere := h.here t
  exact {
    later := .same rfl rfl rfl rfl
    same := Or.inl ⟨rfl, rfl⟩
    here := ⟨hin.trans hplace.symm, hknows.same rfl rfl, fun hr => hhere.ticket (hreg hr),
      fun hr => (hhere.owed (hreg hr)).later (.same rfl rfl rfl rfl),
      fun hw => hhere.woken (hwoken hw), hreads⟩
    fresh := fun hr => Or.inl ⟨hreg hr, rfl⟩
    mutex := Or.inr ⟨_, M.ok_start _ _ _ hfrom, hstep⟩ }

/-- A step of the condition variable. -/
theorem Inv.go (h : Inv M c) (hroom : Room M c.sh (c.loc t).stage)
    (hraises : Raises M c.sh (c.loc t).stage)
    (hs : go M loop t c.sh (c.loc t) (c.loc t).stage = some r) : Effect M c t r := by
  have hhere := h.here t
  have hplace := hhere.place
  have hknows := hhere.knows
  have hreads := hhere.reads
  cases hstage : (c.loc t).stage with
  | run _ | inside _ | unlocking _ | locking _ =>
      rw [hstage] at hs
      cases hs
  | load timed =>
      rw [hstage] at hs
      obtain rfl := Option.some.inj hs
      exact h.move (by rw [hstage]; rfl) rfl (by simp [Stage.registered]) (by simp [Stage.woken])
        trivial
  | store timed n =>
      rw [hstage] at hs hknows hroom hplace
      obtain rfl : n = c.sh.ticket := hknows
      obtain rfl := Option.some.inj hs
      have hnext : (c.sh.ticket + 1) % 2 ^ 32 = c.sh.ticket + 1 := Nat.mod_eq_of_lt hroom
      have hlater : Later c.sh { c.sh with ticket := c.sh.ticket + 1 } :=
        ⟨Nat.le_succ _, le_refl _, Or.inl rfl, Or.inl rfl⟩
      rw [hnext]
      refine ⟨hlater, Or.inr hplace, ?_, fun _ => Or.inr (Nat.lt_succ_self _), Or.inl rfl⟩
      refine ⟨hplace, trivial, fun _ => le_refl _, fun _ => ⟨?_, ?_⟩, by simp [Stage.woken],
        trivial⟩
      · -- no signal was called after this
        have hnone : c.sh.signals.countP (c.sh.ticket + 1 ≤ ·) = 0 := by
          refine List.countP_eq_zero.mpr fun start hstart => ?_
          have := h.signals start hstart
          simp only [decide_eq_true_eq]
          omega
        dsimp only
        rw [hnone]
        exact Nat.min_le_right _ _
      · intro start hstart hle
        have := h.broadcasts start hstart
        dsimp only at hle
        omega
  | checkL timed =>
      rw [hstage] at hs
      obtain rfl := Option.some.inj hs
      cases hl : c.sh.l with
      | true =>
          exact h.move (s := .unlock timed) (by rw [hstage]; rfl) trivial
            (fun _ => by rw [hstage]; rfl) (by simp [Stage.woken]) trivial
      | false =>
          exact h.move (s := .isSet timed) (by rw [hstage]; rfl) hl (fun _ => by rw [hstage]; rfl)
            (by simp [Stage.woken]) trivial
  | isSet timed =>
      -- one mutex protects the condition variable, so that `l` is still what was read
      rw [hstage] at hs hknows
      obtain rfl := Option.some.inj hs
      have hl : c.sh.l = false := hknows
      rw [hl]
      exact h.move (s := .casL timed) (by rw [hstage]; rfl) hl (fun _ => by rw [hstage]; rfl)
        (by simp [Stage.woken]) trivial
  | casL timed =>
      rw [hstage] at hs hplace
      obtain rfl := Option.some.inj hs
      have hlater : Later c.sh { c.sh with l := true } := .same rfl rfl rfl rfl
      have hreg : (c.loc t).stage.registered = true := by rw [hstage]; rfl
      exact {
        later := hlater
        same := Or.inr hplace
        here := ⟨hplace, rfl, fun _ => hhere.ticket hreg, fun _ => (hhere.owed hreg).later hlater,
          by simp [Stage.woken], trivial⟩
        fresh := fun _ => Or.inl ⟨hreg, rfl⟩
        mutex := Or.inl rfl }
  | recheckL timed =>
      rw [hstage] at hs hknows
      obtain rfl := Option.some.inj hs
      have hl : c.sh.l = true := hknows
      rw [hl]
      exact h.move (s := .unlock timed) (by rw [hstage]; rfl) trivial (fun _ => by rw [hstage]; rfl)
        (by simp [Stage.woken]) trivial
  | einval =>
      rw [hstage] at hknows
      exact hknows.elim
  | unlock timed =>
      rw [hstage] at hs
      exact h.enter (s := .unlocking timed) rfl trivial (fun _ => by rw [hstage]; rfl)
        (by simp [Stage.woken]) trivial hs
  | spin timed =>
      rw [hstage] at hs
      obtain rfl := Option.some.inj hs
      by_cases hwaits : loop.waits timed (c.loc t).ticket c.sh.head
      · rw [if_pos hwaits]
        exact h.move (s := .pause timed) (by rw [hstage]; rfl) trivial
          (fun _ => by rw [hstage]; rfl) (by simp [Stage.woken]) trivial
      · -- `head` has passed the ticket, which is what lets it go on
        rw [if_neg hwaits]
        refine h.move (s := .lock false) (by rw [hstage]; rfl) trivial
          (fun _ => by rw [hstage]; rfl) (fun _ => ?_) trivial
        unfold Loop.waits at hwaits
        split at hwaits <;> omega
  | pause timed =>
      rw [hstage] at hs
      obtain rfl := Option.some.inj hs
      exact h.move (s := .spin timed) (by rw [hstage]; rfl) trivial (fun _ => by rw [hstage]; rfl)
        (by simp [Stage.woken]) trivial
  | lock late =>
      rw [hstage] at hs
      exact h.enter (s := .locking late) rfl trivial (fun _ => by rw [hstage]; rfl)
        (fun hw => by rw [hstage]; exact hw) trivial hs
  | sigTicket holds start =>
      rw [hstage] at hs hreads
      obtain rfl := Option.some.inj hs
      exact h.move (by rw [hstage]; rfl) trivial (by simp [Stage.registered])
        (by simp [Stage.woken]) ⟨hreads, le_refl _⟩
  | sigHead holds start ticket =>
      rw [hstage] at hs hreads
      obtain ⟨hstart, hticket⟩ := hreads
      dsimp only [SpinCond.go] at hs
      split at hs
      · obtain rfl := Option.some.inj hs
        exact h.move (by rw [hstage]; rfl) trivial (by simp [Stage.registered])
          (by simp [Stage.woken]) (hstart.trans hticket)
      · -- nobody waits: all the tickets of before the signal are served
        next hle =>
        obtain rfl := Option.some.inj hs
        refine h.return (by rw [hstage]; rfl) ⟨le_refl _, le_refl _, Or.inr ?_, Or.inl rfl⟩
          rfl rfl rfl
        exact ⟨start, hstart.trans hticket, rfl, Or.inr (by dsimp only; omega)⟩
  | sigAdd holds start =>
      rw [hstage] at hs hreads hroom
      obtain rfl := Option.some.inj hs
      have hnext : (c.sh.head + 1) % 2 ^ 32 = c.sh.head + 1 := Nat.mod_eq_of_lt hroom
      rw [hnext]
      refine h.return (by rw [hstage]; rfl) ⟨le_refl _, Nat.le_succ _, Or.inr ?_, Or.inl rfl⟩
        rfl rfl rfl
      exact ⟨start, hreads, rfl, Or.inl (Nat.lt_succ_self _)⟩
  | bcTicket holds start =>
      rw [hstage] at hs hreads
      obtain rfl := Option.some.inj hs
      exact h.move (by rw [hstage]; rfl) trivial (by simp [Stage.registered])
        (by simp [Stage.woken]) ⟨hreads, le_refl _⟩
  | bcHead holds start ticket =>
      rw [hstage] at hs hreads
      obtain ⟨hstart, hticket⟩ := hreads
      dsimp only [SpinCond.go] at hs
      split at hs
      · next heq =>
        obtain rfl := Option.some.inj hs
        refine h.return (by rw [hstage]; rfl) ⟨le_refl _, le_refl _, Or.inl rfl, Or.inr ?_⟩
          rfl rfl rfl
        exact ⟨start, hstart.trans hticket, rfl, by dsimp only; omega⟩
      · obtain rfl := Option.some.inj hs
        exact h.move (by rw [hstage]; rfl) trivial (by simp [Stage.registered])
          (by simp [Stage.woken]) (hstart.trans hticket)
  | bcCh holds start =>
      rw [hstage] at hs hreads
      obtain rfl := Option.some.inj hs
      exact h.move (by rw [hstage]; rfl) trivial (by simp [Stage.registered])
        (by simp [Stage.woken]) hreads
  | bcCt holds start ch =>
      rw [hstage] at hs hreads
      obtain rfl := Option.some.inj hs
      exact h.move (by rw [hstage]; rfl) trivial (by simp [Stage.registered])
        (by simp [Stage.woken]) ⟨hreads, le_refl _⟩
  | bcCas holds start ch ct =>
      rw [hstage] at hs hreads hraises
      obtain ⟨hstart, hticket⟩ := hreads
      dsimp only [SpinCond.go] at hs
      split at hs
      · -- the CAS serves everybody who had a ticket when it was read
        next heq =>
        obtain rfl := Option.some.inj hs
        have hup : c.sh.head ≤ ct := heq.trans_le (hraises heq)
        refine h.return (by rw [hstage]; rfl) ⟨le_refl _, hup, Or.inl rfl, Or.inr ?_⟩ rfl rfl rfl
        exact ⟨start, hstart.trans hticket, rfl, hstart⟩
      · obtain rfl := Option.some.inj hs
        exact h.move (by rw [hstage]; rfl) trivial (by simp [Stage.registered])
          (by simp [Stage.woken]) (hstart.trans hticket)

/-- **Step lemma.** -/
theorem Inv.step (h : Inv M c) {a : Act M.Act} (hok : Ok M c t a)
    (hs : prog M loop t c.sh (c.loc t) a = some r) : Effect M c t r := by
  cases a with
  | go => exact h.go hok.1 hok.2 hs
  | call f =>
      dsimp only [prog] at hs
      split at hs
      · exact h.enter (s := .inside f) rfl trivial (by simp [Stage.registered])
          (by simp [Stage.woken]) trivial hs
      · cases hs
  | condWait timed =>
      obtain ⟨hstage, hs⟩ := Option.ite_none_right_eq_some.mp hs
      obtain rfl := Option.some.inj hs
      exact h.move (by rw [hstage]; rfl) trivial (by simp [Stage.registered])
        (by simp [Stage.woken]) trivial
  | condSignal =>
      dsimp only [prog] at hs
      split at hs
      · next holds hstage =>
        obtain rfl := Option.some.inj hs
        exact h.move (by rw [hstage]; rfl) trivial (by simp [Stage.registered])
          (by simp [Stage.woken]) (Nat.le_refl c.sh.ticket)
      · cases hs
  | condBroadcast =>
      dsimp only [prog] at hs
      split at hs
      · next holds hstage =>
        obtain rfl := Option.some.inj hs
        exact h.move (by rw [hstage]; rfl) trivial (by simp [Stage.registered])
          (by simp [Stage.woken]) (Nat.le_refl c.sh.ticket)
      · cases hs
  | expire =>
      obtain ⟨hstage, hs⟩ := Option.ite_none_right_eq_some.mp hs
      obtain rfl := Option.some.inj hs
      exact h.move (by rw [hstage]; rfl) trivial (fun _ => by rw [hstage]; rfl)
        (by simp [Stage.woken]) trivial
  | inner a =>
      obtain ⟨ha, hs⟩ := Option.ite_none_left_eq_some.mp hs
      obtain ⟨r', hstep, rfl⟩ := Option.map_eq_some_iff.mp hs
      have hhere := h.here t
      obtain ⟨hplace, hreg, hwoken, hknows, hreads⟩ := settle_spec hhere.place
        (M.step _ _ _ _ _ (Bool.not_eq_true _ ▸ ha) hstep)
      exact {
        later := .same rfl rfl rfl rfl
        same := Or.inl ⟨rfl, rfl⟩
        here := ⟨hplace, (hknows _ hhere.knows).same rfl rfl, fun hr => hhere.ticket (hreg hr),
          fun hr => (hhere.owed (hreg hr)).later (.same rfl rfl rfl rfl),
          fun hw => hhere.woken (hwoken hw), hreads _ hhere.reads⟩
        fresh := fun hr => Or.inl ⟨hreg hr, rfl⟩
        mutex := Or.inr ⟨a, hok, hstep⟩ }

/-- **Run lemma.** -/
theorem inv_of_reach (h : Reach (prog M loop) (Ok M) (Init M) c) : Inv M c :=
  h.invariant (fun _ h0 => h0.inv) fun _ _ _ _ hc hok hs =>
    hc.effect (hc.step hok hs)

/-- **What a wait can rely on.** -/
structure Wakes (M : LockModel Tid) (loop : Loop) (c : Conf Tid (Shared M.Sh) (Local M.Lc)) :
    Prop where
  /-- It returns with the mutex, and not with `EINVAL`. -/
  holds : ∀ t, (c.loc t).stage = .run true → M.place (c.loc t).loc = .critical
  einval : ∀ t, (c.loc t).stage ≠ .einval
  distinct : ∀ t u, (c.loc t).stage.registered = true → (c.loc u).stage.registered = true →
    (c.loc t).ticket = (c.loc u).ticket → t = u
  owed : ∀ t, (c.loc t).stage.registered = true → Owed c.sh (c.loc t).ticket (c.loc t).base
  /-- It leaves the loop when `head` has come to its ticket, and after enough signals or one
      broadcast. -/
  woken : ∀ t, (c.loc t).stage.woken = true → (c.loc t).ticket ≤ c.sh.head
  leaves : ∀ t timed, (c.loc t).stage = .spin timed → (timed = true ∨ loop = .atLeast) →
    ((c.loc t).ticket ≤ (c.loc t).base + c.sh.signals.countP ((c.loc t).ticket ≤ ·) ∨
      ∃ start ∈ c.sh.broadcasts, (c.loc t).ticket ≤ start) →
    prog M loop t c.sh (c.loc t) .go = some (c.sh, { c.loc t with stage := .lock false })

/-- **No wake-up is lost** as long as no broadcast lowers `head`. -/
theorem cond_wakes (h : Reach (prog M loop) (Ok M) (Init M) c) : Wakes M loop c := by
  have hinv := inv_of_reach h
  refine ⟨fun t hrun => ?_, fun t hstage => ?_, hinv.distinct, fun t => (hinv.here t).owed,
    fun t => (hinv.here t).woken, fun t timed hspin hloop hdue => ?_⟩
  · rw [(hinv.here t).place, hrun]
    rfl
  · have hknows := (hinv.here t).knows
    rw [hstage] at hknows
    exact hknows
  · obtain ⟨hsignals, hbroadcasts⟩ := (hinv.here t).owed (by rw [hspin]; rfl)
    have hle : (c.loc t).ticket ≤ c.sh.head := by
      obtain henough | ⟨start, hstart, hle⟩ := hdue
      · rwa [Nat.min_eq_left henough] at hsignals
      · exact hbroadcasts start hstart hle
    have hends : ¬ loop.waits timed (c.loc t).ticket c.sh.head := by
      unfold Loop.waits
      rw [if_pos hloop]
      omega
    show go M loop t c.sh (c.loc t) (c.loc t).stage = _
    rw [hspin]
    dsimp only [go]
    rw [if_neg hends]

/-! ## The loop that waits for equality -/

/-- In a `cond_wait` that has not left its loop. -/
def Stage.waits : Stage → Bool
  | .unlock timed | .unlocking timed | .spin timed | .pause timed => !timed
  | _ => false

/-- A step of a waiter that `head` has passed. -/
theorem waits_step {a : Act M.Act} (hwaits : (c.loc t).stage.waits = true)
    (hpassed : (c.loc t).ticket < c.sh.head)
    (hs : prog M .exact t c.sh (c.loc t) a = some r) :
    r.2.stage.waits = true ∧ r.2.ticket = (c.loc t).ticket := by
  cases a with
  | call f | condSignal | condBroadcast =>
      dsimp only [prog] at hs
      split at hs
      · next hstage =>
        rw [hstage] at hwaits
        cases hwaits
      · cases hs
  | condWait timed =>
      obtain ⟨hstage, -⟩ := Option.ite_none_right_eq_some.mp hs
      rw [hstage] at hwaits
      cases hwaits
  | expire =>
      obtain ⟨hstage, -⟩ := Option.ite_none_right_eq_some.mp hs
      rw [hstage] at hwaits
      cases hwaits
  | inner a =>
      obtain ⟨-, hs⟩ := Option.ite_none_left_eq_some.mp hs
      obtain ⟨r', -, rfl⟩ := Option.map_eq_some_iff.mp hs
      refine ⟨?_, rfl⟩
      cases hstage : (c.loc t).stage with
      | unlock timed | spin timed | pause timed =>
          rw [hstage] at hwaits
          exact hwaits
      | unlocking timed =>
          rw [hstage] at hwaits
          dsimp only [settle]
          split <;> exact hwaits
      | _ =>
          rw [hstage] at hwaits
          cases hwaits
  | go =>
      dsimp only [prog] at hs
      cases hstage : (c.loc t).stage with
      | unlock timed =>
          rw [hstage] at hs hwaits
          obtain ⟨r', -, rfl⟩ := Option.map_eq_some_iff.mp hs
          exact ⟨hwaits, rfl⟩
      | spin timed =>
          rw [hstage] at hs hwaits
          obtain rfl : timed = false := by simpa [Stage.waits] using hwaits
          obtain rfl := Option.some.inj hs
          have hdiffer : Loop.exact.waits false (c.loc t).ticket c.sh.head := by
            unfold Loop.waits
            rw [if_neg (by simp)]
            exact hpassed.ne
          rw [if_pos hdiffer]
          exact ⟨rfl, rfl⟩
      | pause timed =>
          rw [hstage] at hs hwaits
          obtain rfl := Option.some.inj hs
          exact ⟨hwaits, rfl⟩
      | unlocking timed =>
          rw [hstage] at hs
          cases hs
      | _ =>
          rw [hstage] at hwaits
          cases hwaits

/-- **A waiter that `head` has passed waits for ever**, whatever the other threads do. -/
theorem cond_missed {d : Conf Tid (Shared M.Sh) (Local M.Lc)}
    (h : Reach (prog M .exact) (Ok M) (Init M) c) (hwaits : (c.loc t).stage.waits = true)
    (hpassed : (c.loc t).ticket < c.sh.head) (hd : Reach (prog M .exact) (Ok M) (· = c) d) :
    (d.loc t).stage.waits = true ∧ (d.loc t).ticket < d.sh.head := by
  suffices hmain : Inv M d ∧ (d.loc t).stage.waits = true ∧ (d.loc t).ticket < d.sh.head from
    hmain.2
  refine hd.invariant (I := fun d => Inv M d ∧ (d.loc t).stage.waits = true ∧
    (d.loc t).ticket < d.sh.head) (fun d heq => ?_) fun d u a r hI hok hs => ?_
  · rw [heq]
    exact ⟨inv_of_reach h, hwaits, hpassed⟩
  · obtain ⟨hinv, hstage, hlt⟩ := hI
    have heff := hinv.step hok hs
    have hup : d.sh.head ≤ r.1.head := heff.later.head
    refine ⟨hinv.effect heff, ?_⟩
    rw [put_loc, put_sh]
    split
    · next htu =>
      rw [htu] at hstage hlt
      obtain ⟨hstill, hticket⟩ := waits_step hstage hlt hs
      exact ⟨hstill, by omega⟩
    · exact ⟨hstage, by omega⟩

end

/-! ## Signals under the mutex -/

section

variable [DecidableEq Tid] {M : LockModel Tid} {loop : Loop}
  {c : Conf Tid (Shared M.Sh) (Local M.Lc)} {t : Tid} {r : Shared M.Sh × Local M.Lc}

/-- Signals and broadcasts are called by a thread that has the mutex. -/
def Disciplined (M : LockModel Tid) (c : Conf Tid (Shared M.Sh) (Local M.Lc)) (t : Tid) :
    Act M.Act → Prop
  | .condSignal | .condBroadcast => (c.loc t).stage = .run true
  | .go => Room M c.sh (c.loc t).stage
  | .inner a => M.ok (mutexView M c) t a
  | _ => True

/-- What a signal or broadcast with the mutex has read is still so. -/
def Stage.Sure {Sh : Type} (sh : Shared Sh) : Stage → Prop
  | .sigTicket holds _ | .bcTicket holds _ | .bcCh holds _ => holds = true
  | .sigHead holds _ ct | .bcHead holds _ ct => holds = true ∧ ct = sh.ticket
  | .sigAdd holds _ => holds = true ∧ sh.head < sh.ticket
  | .bcCt holds _ ch => holds = true ∧ ch = sh.head
  | .bcCas holds _ ch ct => holds = true ∧ ch = sh.head ∧ ct = sh.ticket
  | _ => True

/-- A thread without the mutex is in no signal and in no broadcast. -/
theorem Stage.Sure.of_place {Sh : Type} {sh sh' : Shared Sh} {stage : Stage} (h : stage.Sure sh)
    (hplace : stage.place ≠ .critical) : stage.Sure sh' := by
  cases stage with
  | sigTicket holds | bcTicket holds | bcCh holds =>
      obtain rfl : holds = true := h
      exact absurd rfl hplace
  | sigHead holds | bcHead holds | sigAdd holds | bcCt holds | bcCas holds =>
      obtain rfl : holds = true := h.1
      exact absurd rfl hplace
  | _ => trivial

theorem Stage.Sure.same {Sh : Type} {sh sh' : Shared Sh} {stage : Stage} (h : stage.Sure sh)
    (hticket : sh'.ticket = sh.ticket) (hhead : sh'.head = sh.head) : stage.Sure sh' := by
  unfold Stage.Sure at h ⊢
  rw [hticket, hhead]
  exact h

/-- `head` is behind `ticket`, a wait begins with `head` below its ticket, and a signal is good
    for one step of `head`. -/
structure Ordered (c : Conf Tid (Shared M.Sh) (Local M.Lc)) : Prop where
  le : c.sh.head ≤ c.sh.ticket
  base : ∀ t, (c.loc t).stage.registered = true → (c.loc t).base < (c.loc t).ticket
  spent : c.sh.broadcasts = [] → c.sh.head ≤ c.sh.signals.length
  sure : ∀ t, (c.loc t).stage.Sure c.sh

/-- Before the first call. -/
theorem Init.ordered (h : Init M c) : Ordered c := by
  refine ⟨by rw [h.head]; exact Nat.zero_le _, fun t ht => ?_,
    fun _ => by rw [h.head]; exact Nat.zero_le _, fun t => ?_⟩
  · rw [h.stage t] at ht
    cases ht
  · rw [h.stage t]
    trivial

/-- A disciplined step raises `head`. -/
theorem Ordered.ok (h : Ordered c) {a : Act M.Act} (hok : Disciplined M c t a) : Ok M c t a := by
  cases a with
  | go =>
      refine ⟨hok, ?_⟩
      have hsure := h.sure t
      cases hstage : (c.loc t).stage with
      | bcCas holds start ch ct =>
          rw [hstage] at hsure
          obtain ⟨-, rfl, rfl⟩ := hsure
          exact fun _ => h.le
      | _ => trivial
  | inner a => exact hok
  | call _ | condWait _ | condSignal | condBroadcast | expire => trivial

/-- A step of thread `t`; the counters are only changed by a thread with the mutex. -/
theorem Ordered.put (h : Ordered c) (hinv : Inv M c) (hle : r.1.head ≤ r.1.ticket)
    (hbase : r.2.stage.registered = true → r.2.base < r.2.ticket)
    (hspent : r.1.broadcasts = [] → r.1.head ≤ r.1.signals.length) (hsure : r.2.stage.Sure r.1)
    (hsame : r.1.ticket = c.sh.ticket ∧ r.1.head = c.sh.head ∨
      (c.loc t).stage.place = .critical) : Ordered (c.put t r) := by
  refine ⟨hle, fun u hu => ?_, hspent, fun u => ?_⟩
  · rw [put_loc] at hu ⊢
    split at hu
    · next hut =>
      rw [if_pos hut]
      exact hbase hu
    · next hut =>
      rw [if_neg hut]
      exact h.base u hu
  · rw [put_loc, put_sh]
    split
    · exact hsure
    · next hut =>
      have hold := h.sure u
      obtain ⟨hticket, hhead⟩ | hcritical := hsame
      · exact hold.same hticket hhead
      · refine hold.of_place fun hu => hut ?_
        exact M.unique hinv.mutex ((hinv.here u).place.trans hu)
          ((hinv.here t).place.trans hcritical)

/-- The thread only goes on to another stage. -/
theorem Ordered.move (h : Ordered c) (hinv : Inv M c) {s : Stage} {m : M.Sh} {x : M.Lc}
    (hreg : s.registered = true → (c.loc t).stage.registered = true) (hsure : s.Sure c.sh) :
    Ordered (c.put t ({ c.sh with mutex := m }, { c.loc t with stage := s, loc := x })) :=
  h.put hinv h.le (fun hs => h.base t (hreg hs)) h.spent (hsure.same rfl rfl)
    (Or.inl ⟨rfl, rfl⟩)

/-- A step of the condition variable. -/
theorem Ordered.go (h : Ordered c) (hinv : Inv M c) (hroom : Room M c.sh (c.loc t).stage)
    (hs : go M loop t c.sh (c.loc t) (c.loc t).stage = some r) : Ordered (c.put t r) := by
  have hsure := h.sure t
  have hknows := (hinv.here t).knows
  cases hstage : (c.loc t).stage with
  | run _ | inside _ | unlocking _ | locking _ =>
      rw [hstage] at hs
      cases hs
  | load timed =>
      rw [hstage] at hs
      obtain rfl := Option.some.inj hs
      exact h.move hinv (by simp [Stage.registered]) trivial
  | store timed n =>
      rw [hstage] at hs hroom hknows
      obtain rfl : n = c.sh.ticket := hknows
      obtain rfl := Option.some.inj hs
      have hnext : (c.sh.ticket + 1) % 2 ^ 32 = c.sh.ticket + 1 := Nat.mod_eq_of_lt hroom
      have hle := h.le
      rw [hnext]
      exact h.put hinv (by dsimp only; omega) (fun _ => by dsimp only; omega) h.spent trivial
        (Or.inr (by rw [hstage]; rfl))
  | checkL timed =>
      rw [hstage] at hs
      obtain rfl := Option.some.inj hs
      refine h.move hinv (fun _ => by rw [hstage]; rfl) ?_
      split <;> trivial
  | isSet timed =>
      rw [hstage] at hs
      obtain rfl := Option.some.inj hs
      refine h.move hinv (fun _ => by rw [hstage]; rfl) ?_
      split <;> trivial
  | casL timed =>
      rw [hstage] at hs
      obtain rfl := Option.some.inj hs
      exact h.put hinv h.le (fun _ => h.base t (by rw [hstage]; rfl)) h.spent trivial
        (Or.inl ⟨rfl, rfl⟩)
  | recheckL timed =>
      rw [hstage] at hs
      obtain rfl := Option.some.inj hs
      refine h.move hinv (fun _ => by rw [hstage]; rfl) ?_
      split <;> trivial
  | einval =>
      rw [hstage] at hknows
      exact hknows.elim
  | unlock timed =>
      rw [hstage] at hs
      obtain ⟨r', -, rfl⟩ := Option.map_eq_some_iff.mp hs
      exact h.move hinv (fun _ => by rw [hstage]; rfl) trivial
  | spin timed =>
      rw [hstage] at hs
      obtain rfl := Option.some.inj hs
      refine h.move hinv (fun _ => by rw [hstage]; rfl) ?_
      split <;> trivial
  | pause timed =>
      rw [hstage] at hs
      obtain rfl := Option.some.inj hs
      exact h.move hinv (fun _ => by rw [hstage]; rfl) trivial
  | lock late =>
      rw [hstage] at hs
      obtain ⟨r', -, rfl⟩ := Option.map_eq_some_iff.mp hs
      exact h.move hinv (fun _ => by rw [hstage]; rfl) trivial
  | sigTicket holds start =>
      rw [hstage] at hs hsure
      obtain rfl := Option.some.inj hs
      exact h.move hinv (by simp [Stage.registered]) ⟨hsure, rfl⟩
  | sigHead holds start ct =>
      rw [hstage] at hs hsure
      obtain ⟨hholds, rfl⟩ := hsure
      dsimp only [SpinCond.go] at hs
      split at hs
      · next hlt =>
        obtain rfl := Option.some.inj hs
        exact h.move hinv (by simp [Stage.registered]) ⟨hholds, hlt⟩
      · -- without a waiter the signal is spent
        obtain rfl := Option.some.inj hs
        exact h.put hinv h.le (by simp [Stage.registered])
          (fun hnone => (h.spent hnone).trans (Nat.le_succ _)) trivial (Or.inl ⟨rfl, rfl⟩)
  | sigAdd holds start =>
      rw [hstage] at hs hsure hroom
      obtain ⟨rfl, hlt⟩ := hsure
      obtain rfl := Option.some.inj hs
      have hnext : (c.sh.head + 1) % 2 ^ 32 = c.sh.head + 1 := Nat.mod_eq_of_lt hroom
      rw [hnext]
      exact h.put hinv hlt (by simp [Stage.registered])
        (fun hnone => Nat.succ_le_succ (h.spent hnone)) trivial (Or.inr (by rw [hstage]; rfl))
  | bcTicket holds start =>
      rw [hstage] at hs hsure
      obtain rfl := Option.some.inj hs
      exact h.move hinv (by simp [Stage.registered]) ⟨hsure, rfl⟩
  | bcHead holds start ct =>
      rw [hstage] at hs hsure
      obtain ⟨hholds, rfl⟩ := hsure
      dsimp only [SpinCond.go] at hs
      split at hs
      · obtain rfl := Option.some.inj hs
        exact h.put hinv h.le (by simp [Stage.registered]) (by simp) trivial (Or.inl ⟨rfl, rfl⟩)
      · obtain rfl := Option.some.inj hs
        exact h.move hinv (by simp [Stage.registered]) hholds
  | bcCh holds start =>
      rw [hstage] at hs hsure
      obtain rfl := Option.some.inj hs
      exact h.move hinv (by simp [Stage.registered]) ⟨hsure, rfl⟩
  | bcCt holds start ch =>
      rw [hstage] at hs hsure
      obtain ⟨hholds, rfl⟩ := hsure
      obtain rfl := Option.some.inj hs
      exact h.move hinv (by simp [Stage.registered]) ⟨hholds, rfl, rfl⟩
  | bcCas holds start ch ct =>
      rw [hstage] at hs hsure
      -- the caller has the mutex, so that nobody has changed what it read
      obtain ⟨rfl, rfl, rfl⟩ := hsure
      dsimp only [SpinCond.go] at hs
      rw [if_pos rfl] at hs
      obtain rfl := Option.some.inj hs
      exact h.put hinv (le_refl _) (by simp [Stage.registered]) (by simp) trivial
        (Or.inr (by rw [hstage]; rfl))

/-- **Step lemma.** -/
theorem Ordered.step (h : Ordered c) (hinv : Inv M c) {a : Act M.Act} (hok : Disciplined M c t a)
    (hs : prog M loop t c.sh (c.loc t) a = some r) : Ordered (c.put t r) := by
  cases a with
  | go => exact h.go hinv hok hs
  | call f =>
      dsimp only [prog] at hs
      split at hs
      · obtain ⟨r', -, rfl⟩ := Option.map_eq_some_iff.mp hs
        exact h.move hinv (by simp [Stage.registered]) trivial
      · cases hs
  | condWait timed =>
      obtain ⟨-, hs⟩ := Option.ite_none_right_eq_some.mp hs
      obtain rfl := Option.some.inj hs
      exact h.move hinv (by simp [Stage.registered]) trivial
  | condSignal | condBroadcast =>
      dsimp only [prog] at hs
      split at hs
      · next holds hstage =>
        obtain rfl := Option.some.inj hs
        refine h.move hinv (by simp [Stage.registered]) ?_
        exact Stage.run.inj (hstage.symm.trans hok)
      · cases hs
  | expire =>
      obtain ⟨hstage, hs⟩ := Option.ite_none_right_eq_some.mp hs
      obtain rfl := Option.some.inj hs
      exact h.move hinv (fun _ => by rw [hstage]; rfl) trivial
  | inner a =>
      obtain ⟨ha, hs⟩ := Option.ite_none_left_eq_some.mp hs
      obtain ⟨r', hstep, rfl⟩ := Option.map_eq_some_iff.mp hs
      obtain ⟨-, hreg, -⟩ := settle_spec (hinv.here t).place
        (M.step _ _ _ _ _ (Bool.not_eq_true _ ▸ ha) hstep)
      refine h.move hinv hreg ?_
      have hsure := h.sure t
      cases hstage : (c.loc t).stage with
      | inside _ | unlocking _ | locking _ =>
          dsimp only [settle]
          split <;> trivial
      | _ =>
          rw [hstage] at hsure
          exact hsure

/-- **Wake-ups under the mutex.**  When signals and broadcasts are called by a thread that has
    the mutex, no broadcast lowers `head`, so no wake-up is lost; `head` does not pass `ticket`,
    no wait begins with its ticket served, and without broadcasts there are no more wake-ups
    than signals. -/
theorem cond_disciplined (h : Reach (prog M loop) (Disciplined M) (Init M) c) :
    Reach (prog M loop) (Ok M) (Init M) c ∧ c.sh.head ≤ c.sh.ticket ∧
      (∀ t, (c.loc t).stage.registered = true → (c.loc t).base < (c.loc t).ticket) ∧
      (c.sh.broadcasts = [] → c.sh.head ≤ c.sh.signals.length) := by
  suffices hmain : Reach (prog M loop) (Ok M) (Init M) c ∧ Ordered c from
    ⟨hmain.1, hmain.2.le, hmain.2.base, hmain.2.spent⟩
  induction h with
  | start h0 => exact ⟨.start h0, h0.ordered⟩
  | step _ hok hs ih =>
      obtain ⟨hreach, hord⟩ := ih
      exact ⟨.step hreach (hord.ok hok) hs, hord.step (inv_of_reach hreach) hok hs⟩

end

/-! ## Runs -/

instance (M : LockModel (Fin 3)) (sh : Shared M.Sh) : (stage : Stage) → Decidable (Room M sh stage)
  | .store _ n => inferInstanceAs (Decidable (n + 1 < 2 ^ 32))
  | .sigAdd _ _ => inferInstanceAs (Decidable (sh.head + 1 < 2 ^ 32))
  | .run _ | .inside _ | .load _ | .checkL _ | .isSet _ | .casL _ | .recheckL _ => isTrue trivial
  | .einval | .unlock _ | .unlocking _ | .spin _ | .pause _ | .lock _ | .locking _ => isTrue trivial
  | .sigTicket _ _ | .sigHead _ _ _ | .bcTicket _ _ | .bcHead _ _ _ => isTrue trivial
  | .bcCh _ _ | .bcCt _ _ _ | .bcCas _ _ _ _ => isTrue trivial

instance (M : LockModel (Fin 3)) (sh : Shared M.Sh) :
    (stage : Stage) → Decidable (Raises M sh stage)
  | .bcCas _ _ ch ct => inferInstanceAs (Decidable (sh.head = ch → ch ≤ ct))
  | .run _ | .inside _ | .load _ | .store _ _ | .checkL _ | .isSet _ | .casL _ => isTrue trivial
  | .recheckL _ | .einval | .unlock _ | .unlocking _ | .spin _ | .pause _ => isTrue trivial
  | .lock _ | .locking _ | .sigTicket _ _ | .sigHead _ _ _ | .sigAdd _ _ => isTrue trivial
  | .bcTicket _ _ | .bcHead _ _ _ | .bcCh _ _ | .bcCt _ _ _ => isTrue trivial

/-- The mutex of the runs. -/
abbrev ttas : LockModel (Fin 3) := tas .ttas

instance (c : Conf (Fin 3) (Shared ttas.Sh) (Local ttas.Lc)) (t : Fin 3) :
    (a : Act ttas.Act) → Decidable (Ok ttas c t a)
  | .go => inferInstanceAs (Decidable (_ ∧ _))
  | .call _ | .condWait _ | .condSignal | .condBroadcast | .expire | .inner _ => isTrue trivial

instance (c : Conf (Fin 3) (Shared ttas.Sh) (Local ttas.Lc)) (t : Fin 3) :
    (a : Act ttas.Act) → Decidable (Disciplined ttas c t a)
  | .go => inferInstanceAs (Decidable (Room ttas c.sh (c.loc t).stage))
  | .condSignal | .condBroadcast => inferInstanceAs (Decidable ((c.loc t).stage = .run true))
  | .call _ | .condWait _ | .expire | .inner _ => isTrue trivial

/-- Three threads, and no call yet. -/
def start : Conf (Fin 3) (Shared ttas.Sh) (Local ttas.Lc) :=
  ⟨⟨TasGlk.FREE, 0, 0, false, [], []⟩, fun _ => ⟨.run false, 0, 0, .idle⟩⟩

theorem start_init : Init ttas start :=
  ⟨rfl, rfl, rfl, rfl, rfl, rfl, fun _ => rfl, fun _ => rfl⟩

/-- A step of the mutex. -/
abbrev inner : Act ttas.Act := .inner TasGlk.Act.go

/-- A thread locks the mutex and waits, with `n` steps before its loop. -/
def wait (t : Fin 3) (n : Nat) : List (Fin 3 × Act ttas.Act) :=
  [(t, .call .lock), (t, inner), (t, .condWait false)] ++ List.replicate n (t, .go) ++ [(t, inner)]

/-- A thread makes a call of `n` steps under the mutex. -/
def wake (t : Fin 3) (a : Act ttas.Act) (n : Nat) : List (Fin 3 × Act ttas.Act) :=
  [(t, .call .lock), (t, inner), (t, a)] ++ List.replicate n (t, .go)
    ++ [(t, .call .unlock), (t, inner)]

/-- Two waits and two signals. -/
def signalled : List (Fin 3 × Act ttas.Act) :=
  wait 0 7 ++ wait 1 4 ++ wake 2 .condSignal 3 ++ wake 2 .condSignal 3

theorem cond_wakes_signalled : ∃ c : Conf (Fin 3) (Shared ttas.Sh) (Local ttas.Lc),
    exec (prog ttas .atLeast) (Ok ttas) start signalled = some c ∧
      (c.loc 0).stage = .spin false ∧ (c.loc 1).stage = .spin false ∧ c.sh.head = 2 ∧
      Wakes ttas .atLeast c := by
  obtain ⟨c, hx, h0, h1, hhead⟩ : ∃ c : Conf (Fin 3) (Shared ttas.Sh) (Local ttas.Lc),
      exec (prog ttas .atLeast) (Ok ttas) start signalled = some c ∧
        (c.loc 0).stage = .spin false ∧ (c.loc 1).stage = .spin false ∧ c.sh.head = 2 :=
    ⟨_, rfl, rfl, rfl, rfl⟩
  exact ⟨c, hx, h0, h1, hhead, cond_wakes (reach_of_exec start_init hx)⟩

theorem cond_disciplined_signalled : ∃ c : Conf (Fin 3) (Shared ttas.Sh) (Local ttas.Lc),
    exec (prog ttas .atLeast) (Disciplined ttas) start signalled = some c ∧
      Reach (prog ttas .atLeast) (Ok ttas) (Init ttas) c ∧ c.sh.head ≤ c.sh.ticket := by
  obtain ⟨c, hx⟩ : ∃ c : Conf (Fin 3) (Shared ttas.Sh) (Local ttas.Lc),
      exec (prog ttas .atLeast) (Disciplined ttas) start signalled = some c := ⟨_, rfl⟩
  have hrun : Reach (prog ttas .atLeast) (Disciplined ttas) (Init ttas) c :=
    reach_of_exec start_init hx
  obtain ⟨hreach, hle, -⟩ := cond_disciplined hrun
  exact ⟨c, hx, hreach, hle⟩

/-- Two waits, and a broadcast that lets only the second one go. -/
theorem cond_missed_broadcast : ∃ c : Conf (Fin 3) (Shared ttas.Sh) (Local ttas.Lc),
    exec (prog ttas .exact) (Ok ttas) start
        (wait 0 7 ++ wait 1 4 ++ wake 2 .condBroadcast 5 ++ [(0, .go), (1, .go)]) = some c ∧
      c.sh.broadcasts = [2] ∧ (c.loc 1).stage = .lock false ∧
      ∀ d, Reach (prog ttas .exact) (Ok ttas) (· = c) d →
        (d.loc 0).stage.waits = true ∧ (d.loc 0).ticket < d.sh.head := by
  obtain ⟨c, hx, hbroadcasts, h1, h0, hpassed⟩ :
      ∃ c : Conf (Fin 3) (Shared ttas.Sh) (Local ttas.Lc),
      exec (prog ttas .exact) (Ok ttas) start
          (wait 0 7 ++ wait 1 4 ++ wake 2 .condBroadcast 5 ++ [(0, .go), (1, .go)]) = some c ∧
        c.sh.broadcasts = [2] ∧ (c.loc 1).stage = .lock false ∧
        (c.loc 0).stage.waits = true ∧ (c.loc 0).ticket < c.sh.head :=
    ⟨_, rfl, rfl, rfl, rfl, by decide⟩
  have hreach : Reach (prog ttas .exact) (Ok ttas) (Init ttas) c := reach_of_exec start_init hx
  exact ⟨c, hx, hbroadcasts, h1, fun d hd => cond_missed hreach h0 hpassed hd⟩

/-- Threads 1 and 2 signal at the same time and bring `head` past `ticket`; thread 1 then
    broadcasts, and before its CAS thread 0 waits again and thread 2 signals. -/
def lowered : List (Fin 3 × Act ttas.Act) :=
  wait 0 7 ++ [(1, .condSignal), (1, .go), (1, .go), (2, .condSignal), (2, .go), (2, .go),
    (1, .go), (2, .go), (0, .go), (0, .go), (0, inner), (1, .condBroadcast)] ++
    List.replicate 4 (1, .go) ++ (0, .condWait false) :: List.replicate 4 (0, .go) ++
    [(0, inner), (2, .condSignal), (2, .go), (2, .go), (1, .go), (0, .go)]

/-- A broadcast that lowers `head` loses the signal. -/
theorem cond_lowered : ∃ c : Conf (Fin 3) (Shared ttas.Sh) (Local ttas.Lc),
    exec (prog ttas .atLeast) always start lowered = some c ∧ (c.loc 0).stage = .pause false ∧
      (c.loc 0).ticket = 2 ∧ c.sh.head = 1 ∧ c.sh.signals = [2, 1, 1] :=
  ⟨_, rfl, rfl, rfl, rfl, rfl⟩

end SpinCond
