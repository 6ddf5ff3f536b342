import Lockin.Interleaving
import Lockin.FutexMutex

/-! # The futex mutex and its condition variable

    `mutexee_in.h`: one `mutexee_lock_t` and one `upmutex_cond1_t` that is always used
    with it, by any number of threads, one load, store, exchange, CAS or futex call per
    step.  `glk_mutex_lock` and `glk_mutex_unlock` of `glk.c` are the same protocol with
    one re-check less, so the number of re-checks is a parameter (`Config`).

    The lock word is accessed in two widths.  `locked` and `contended` are its two low
    bytes; the byte exchange sets `locked` only, the word exchange sets both, and the
    fast path of unlock compares the WHOLE word.

    The kernel keeps two wait queues, one for the lock word and one for `c->seq`.  A
    thread is asleep while its name is in a queue: a wake takes the name out, and the
    thread finds out at its next step.  Which sleeper is woken is a choice of the
    schedule, and so are spurious returns, timeouts, and how long a thread spins. -/

namespace Mutexee

open Interleaving FutexMutex

/-- What differs between the variants: `MUTEXEE_FAIR`, and how often unlock reads
    `locked` again before it decides to wake somebody. -/
structure Config where
  fair : Bool
  rechecks : Nat

/-- `mutexee_in.h`. -/
def mutexee (fair : Bool) : Config := ⟨fair, 2⟩

/-- `glk_mutex_lock_t` in `glk.c`. -/
def glkMutex : Config := ⟨false, 1⟩

/-- The mutex `m`, the condition variable `c`, and the kernel's two wait queues. -/
structure Shared (Tid : Type) where
  word : Word
  /-- The threads asleep on the lock word. -/
  asleep : List Tid
  /-- `c->m`: set to `m`, or still `NULL`. -/
  condM : Bool
  /-- How often `c->seq` was incremented; the variable is this number modulo `2 ^ 32`. -/
  seq : Nat
  /-- The threads asleep on `c->seq`. -/
  asleepSeq : List Tid
  /-- History: the value of `seq` just after the increment of the latest broadcast whose
      futex call has completed. -/
  flushed : Nat

/-- How a thread sleeps on the lock word: without a timeout, or (`MUTEXEE_FAIR`) with
    one as long as the variable `once` is set. -/
inductive Sleep where
  | plain
  | fair (once : Bool)
  deriving DecidableEq

/-- Where `mutexee_unlock` returns to: the user, or a wait on `c` that has read `seq`.
    `rel` is history: the value of `seq` when `m` was released. -/
inductive Ret where
  | user
  | wait (timed : Bool) (seq rel : Nat)
  deriving DecidableEq

/-- Where a thread is.  A flag `h` of a signal or broadcast says whether the caller
    holds `m`, and the flag of `xchg32` whether the thread is back from a `FUTEX_WAIT`. -/
inductive Pc where
  | idle
  | try8
  | xchg8
  | spin
  | clock
  | xchg32 (s : Sleep) (back : Bool)
  | futexWait (s : Sleep)
  | blocked (s : Sleep)
  | critical
  | readWord (k : Ret)
  | cas (k : Ret)
  | clear (k : Ret)
  | recheck (n : Nat) (k : Ret)
  | clearContended (k : Ret)
  | wake (k : Ret)
  | readSeq (timed : Bool)
  | readM (timed : Bool) (seq : Nat)
  | checkM (timed : Bool) (seq : Nat)
  | casM (timed : Bool) (seq : Nat)
  | readM' (timed : Bool) (seq : Nat)
  | checkTime (seq rel : Nat)
  | seqWait (timed : Bool) (seq rel : Nat)
  | seqBlocked (timed : Bool) (seq rel : Nat)
  | sigAdd (h : Bool)
  | sigWake (h : Bool)
  | bcastReadM (h : Bool)
  | bcastAdd (h : Bool)
  | bcastRequeue (h : Bool) (seq : Nat)
  deriving DecidableEq

/-- The calls a thread may make, and the choices of the schedule. -/
inductive Act (Tid : Type) where
  | lock
  | trylock
  | unlock
  | condWait (timed : Bool)
  | signal
  | broadcast
  | go
  /-- The clock says that the thread has spun long enough. -/
  | stopSpinning
  /-- The futex call wakes this thread, or nobody when nobody sleeps. -/
  | wake (u : Option Tid)
  | spurious
  | timeout

variable {Tid : Type}

section

variable [DecidableEq Tid]

/-- `FUTEX_WAKE(1)` on a queue: take out the chosen sleeper. -/
def futexWake (q : List Tid) : Option Tid → Option (List Tid)
  | none => if q = [] then some [] else none
  | some u => if u ∈ q then some (q.filter (· ≠ u)) else none

/-- `mutexee_lock`, `glk_mutex_lock`, and the last loop of the two waits. -/
def mutexeeLock (cfg : Config) (t : Tid) (sh : Shared Tid) : Pc → Act Tid → Option (Shared Tid × Pc)
  | .xchg8, .go =>
      some ({ sh with word.locked := 1 }, if sh.word.locked = 0 then .critical else .spin)
  | .spin, .go =>
      some ({ sh with word.locked := 1 }, if sh.word.locked = 0 then .critical else .clock)
  | .clock, .go => some (sh, .spin)
  | .clock, .stopSpinning => some (sh, .xchg32 (if cfg.fair then .fair true else .plain) false)
  | .xchg32 s back, .go =>
      some ({ sh with word := ⟨1, 1⟩ },
        if sh.word.u &&& 1 ≠ 0 then
          if s = .fair false then .xchg32 s back else .futexWait s
        else .critical)
  | .futexWait s, .go =>
      if sh.word.u = 257 then some ({ sh with asleep := t :: sh.asleep }, .blocked s)
      else some (sh, .xchg32 s true)
  | .blocked s, .go => if t ∈ sh.asleep then none else some (sh, .xchg32 s true)
  | .blocked s, .spurious =>
      if t ∈ sh.asleep then some ({ sh with asleep := sh.asleep.filter (· ≠ t) }, .xchg32 s true)
      else none
  | .blocked s, .timeout =>
      if t ∈ sh.asleep ∧ s = .fair true then
        some ({ sh with asleep := sh.asleep.filter (· ≠ t) }, .xchg32 (.fair false) true)
      else none
  | _, _ => none

/-- `mutexee_lock_trylock`, `glk_mutex_lock_trylock`. -/
def mutexeeLockTrylock (sh : Shared Tid) : Pc → Act Tid → Option (Shared Tid × Pc)
  | .try8, .go =>
      some ({ sh with word.locked := 1 }, if sh.word.locked = 0 then .critical else .idle)
  | _, _ => none

/-- Record when `m` was released. -/
def Ret.released (now : Nat) : Ret → Ret
  | .user => .user
  | .wait timed seq _ => .wait timed seq now

/-- What follows the return of `mutexee_unlock`. -/
def Ret.next : Ret → Pc
  | .user => .idle
  | .wait false seq rel => .seqWait false seq rel
  | .wait true seq rel => .checkTime seq rel

/-- Read `locked` again `n` more times. -/
def recheckFrom (n : Nat) (k : Ret) : Pc :=
  match n with
  | 0 => .clearContended k
  | n + 1 => .recheck n k

/-- `mutexee_unlock`, `glk_mutex_unlock`. -/
def mutexeeUnlock (cfg : Config) (sh : Shared Tid) : Pc → Act Tid → Option (Shared Tid × Pc)
  | .readWord k, .go => some (sh, if sh.word.u = 1 then .cas k else .clear k)
  | .cas k, .go =>
      if sh.word.u = 1 then some ({ sh with word := ⟨0, 0⟩ }, (k.released sh.seq).next)
      else some (sh, .clear k)
  | .clear k, .go =>
      some ({ sh with word.locked := 0 }, recheckFrom cfg.rechecks (k.released sh.seq))
  | .recheck n k, .go => some (sh, if sh.word.locked ≠ 0 then k.next else recheckFrom n k)
  | .clearContended k, .go => some ({ sh with word.contended := 0 }, .wake k)
  | .wake k, .wake u => (futexWake sh.asleep u).map fun q => ({ sh with asleep := q }, k.next)
  | _, _ => none

/-- `upmutex_cond1_wait` and `mutexee_cond_timedwait` around their calls of
    `mutexee_unlock` and the last loop; both return `EINVAL` with `m` held. -/
def condWait (t : Tid) (sh : Shared Tid) : Pc → Act Tid → Option (Shared Tid × Pc)
  | .readSeq timed, .go => some (sh, .readM timed sh.seq)
  | .readM timed seq, .go =>
      some (sh, if sh.condM then .readWord (.wait timed seq 0) else .checkM timed seq)
  | .checkM timed seq, .go => some (sh, if sh.condM then .critical else .casM timed seq)
  | .casM timed seq, .go => some ({ sh with condM := true }, .readM' timed seq)
  | .readM' timed seq, .go =>
      some (sh, if sh.condM then .readWord (.wait timed seq 0) else .critical)
  | .checkTime seq rel, .go => some (sh, .seqWait true seq rel)
  -- `rt.tv_sec < 0`: already timed out
  | .checkTime _ _, .timeout => some (sh, .xchg32 .plain false)
  | .seqWait timed seq rel, .go =>
      if sh.seq % 2 ^ 32 = seq % 2 ^ 32 then
        some ({ sh with asleepSeq := t :: sh.asleepSeq }, .seqBlocked timed seq rel)
      else some (sh, .xchg32 .plain true)
  | .seqBlocked _ _ _, .go =>
      if t ∈ sh.asleep ∨ t ∈ sh.asleepSeq then none else some (sh, .xchg32 .plain true)
  | .seqBlocked _ _ _, .spurious =>
      if t ∈ sh.asleep ∨ t ∈ sh.asleepSeq then
        some ({ sh with
          asleep := sh.asleep.filter (· ≠ t)
          asleepSeq := sh.asleepSeq.filter (· ≠ t) }, .xchg32 .plain true)
      else none
  | .seqBlocked true _ _, .timeout =>
      if t ∈ sh.asleep ∨ t ∈ sh.asleepSeq then
        some ({ sh with
          asleep := sh.asleep.filter (· ≠ t)
          asleepSeq := sh.asleepSeq.filter (· ≠ t) }, .xchg32 .plain true)
      else none
  | _, _ => none

/-- Where a signal or broadcast returns to. -/
def back (h : Bool) : Pc := if h then .critical else .idle

/-- `upmutex_cond1_signal`. -/
def upmutexCond1Signal (sh : Shared Tid) : Pc → Act Tid → Option (Shared Tid × Pc)
  | .sigAdd h, .go => some ({ sh with seq := sh.seq + 1 }, .sigWake h)
  | .sigWake h, .wake u =>
      (futexWake sh.asleepSeq u).map fun q => ({ sh with asleepSeq := q }, back h)
  | _, _ => none

/-- `upmutex_cond1_broadcast`: the futex call wakes one sleeper of `c->seq` and moves the
    others to the lock word of `m`. -/
def upmutexCond1Broadcast (sh : Shared Tid) : Pc → Act Tid → Option (Shared Tid × Pc)
  | .bcastReadM h, .go => some (sh, if sh.condM then .bcastAdd h else back h)
  | .bcastAdd h, .go => some ({ sh with seq := sh.seq + 1 }, .bcastRequeue h (sh.seq + 1))
  | .bcastRequeue h seq, .wake u =>
      (futexWake sh.asleepSeq u).map fun q =>
        ({ sh with
            asleepSeq := []
            asleep := q ++ sh.asleep
            flushed := max sh.flushed seq }, back h)
  | _, _ => none

/-- Start a call. -/
def call : Pc → Act Tid → Option Pc
  | .idle, .lock => some .xchg8
  | .idle, .trylock => some .try8
  | .idle, .signal => some (.sigAdd false)
  | .idle, .broadcast => some (.bcastReadM false)
  | .critical, .unlock => some (.readWord .user)
  | .critical, .condWait timed => some (.readSeq timed)
  | .critical, .signal => some (.sigAdd true)
  | .critical, .broadcast => some (.bcastReadM true)
  | _, _ => none

/-- One step of a thread. -/
def prog (cfg : Config) : Prog Tid (Shared Tid) Pc (Act Tid) := fun t sh pc a =>
  match pc with
  | .idle | .critical => (call pc a).map fun pc' => (sh, pc')
  | .try8 => mutexeeLockTrylock sh pc a
  | .xchg8 | .spin | .clock | .xchg32 _ _ | .futexWait _ | .blocked _ =>
      mutexeeLock cfg t sh pc a
  | .readWord _ | .cas _ | .clear _ | .recheck _ _ | .clearContended _ | .wake _ =>
      mutexeeUnlock cfg sh pc a
  | .readSeq _ | .readM _ _ | .checkM _ _ | .casM _ _ | .readM' _ _ | .checkTime _ _
  | .seqWait _ _ _ | .seqBlocked _ _ _ => condWait t sh pc a
  | .sigAdd _ | .sigWake _ => upmutexCond1Signal sh pc a
  | .bcastReadM _ | .bcastAdd _ | .bcastRequeue _ _ => upmutexCond1Broadcast sh pc a

end

/-- `MUTEXEE_INITIALIZER`, `UPMUTEX_COND1_INITIALIZER`, and nobody in a call. -/
structure Init (c : Conf Tid (Shared Tid) Pc) : Prop where
  word : c.sh.word = ⟨0, 0⟩
  asleep : c.sh.asleep = []
  condM : c.sh.condM = false
  seq : c.sh.seq = 0
  asleepSeq : c.sh.asleepSeq = []
  flushed : c.sh.flushed = 0
  idle : ∀ t, c.loc t = .idle

/-! ## What a step can do -/

/-- What a thread is about to do with the mutex. -/
@[simp] def Pc.role : Pc → Role
  | .idle => .out
  | .try8 => .out
  | .xchg8 => .out
  | .spin => .out
  | .clock => .out
  | .xchg32 _ back => if back then .redo else .out
  | .futexWait _ => .out
  | .blocked _ => .blocked
  | .critical => .holder
  | .readWord _ => .holder
  | .cas _ => .holder
  | .clear _ => .holder
  | .recheck _ _ => .recheck
  | .clearContended _ => .recheck
  | .wake _ => .waker
  | .readSeq _ => .holder
  | .readM _ _ => .holder
  | .checkM _ _ => .holder
  | .casM _ _ => .holder
  | .readM' _ _ => .holder
  | .checkTime _ _ => .out
  | .seqWait _ _ _ => .out
  | .seqBlocked _ _ _ => .parked
  | .sigAdd h => if h then .holder else .out
  | .sigWake h => if h then .holder else .out
  | .bcastReadM h => if h then .holder else .out
  | .bcastAdd h => if h then .holder else .out
  | .bcastRequeue h _ => if h then .holder else .out

/-- The state as the protocol sees it. -/
def view (c : Conf Tid (Shared Tid) Pc) : View Tid where
  word := c.sh.word
  asleep t := t ∈ c.sh.asleep
  parked t := t ∈ c.sh.asleepSeq
  role t := (c.loc t).role

@[simp] theorem Ret.next_role (k : Ret) : k.next.role = .out := by
  rcases k with _ | ⟨_ | _, _, _⟩ <;> rfl

@[simp] theorem back_role (h : Bool) : (back h).role = if h then .holder else .out := by
  cases h <;> rfl

@[simp] theorem recheckFrom_role (n : Nat) (k : Ret) : (recheckFrom n k).role = .recheck := by
  cases n <;> rfl

/-- A signal or broadcast is called with the lock held or without. -/
theorem role_caller (h : Bool) :
    (if h then Role.holder else .out) = .out ∨ (if h then Role.holder else .out) = .holder := by
  cases h <;> simp

variable [DecidableEq Tid]

/-- `FUTEX_WAKE` wakes one thread at most. -/
theorem wokeOne_of_futexWake {q q' : List Tid} {u : Option Tid} (h : futexWake q u = some q') :
    WokeOne (· ∈ q) (· ∈ q') := by
  cases u with
  | none =>
      simp only [futexWake, Option.ite_none_right_eq_some, Option.some.injEq] at h
      obtain ⟨rfl, rfl⟩ := h
      exact Or.inl (by simp)
  | some v =>
      simp only [futexWake, Option.ite_none_right_eq_some, Option.some.injEq] at h
      obtain ⟨hv, rfl⟩ := h
      exact Or.inr ⟨v, hv, by simp⟩

/-- The view after a step of `t`. -/
theorem view_put_role (c : Conf Tid (Shared Tid) Pc) (t : Tid) (r : Shared Tid × Pc) (u : Tid) :
    (view (c.put t r)).role u = if u = t then r.2.role else (view c).role u := by
  simp only [view, put_loc]
  split <;> rfl

/-- A step that touches neither the lock word nor the queues. -/
theorem quiet_effect {c : Conf Tid (Shared Tid) Pc} {t : Tid} {sh' : Shared Tid} {pc' : Pc}
    (hw : sh'.word = c.sh.word) (ha : sh'.asleep = c.sh.asleep)
    (hp : sh'.asleepSeq = c.sh.asleepSeq)
    (hr : (c.loc t).role = .out ∧ (pc'.role = .out ∨ pc'.role = .redo) ∨
      ((c.loc t).role = .holder ∨ (c.loc t).role = .recheck) ∧ pc'.role = (c.loc t).role) :
    Effect t (view c) (view (c.put t (sh', pc'))) (c.loc t).role pc'.role :=
  .quiet hw (by simp [view, ha]) (by simp [view, hp]) hr

/-- **Inversion.** Every step has one of the effects of the protocol. -/
theorem effect_of_prog {cfg : Config} {c : Conf Tid (Shared Tid) Pc} {t : Tid} {a : Act Tid}
    {r : Shared Tid × Pc} (hw : c.sh.word.Flags) (hs : prog cfg t c.sh (c.loc t) a = some r) :
    Effect t (view c) (view (c.put t r)) (c.loc t).role r.2.role := by
  have hquiet := fun sh' pc' => @quiet_effect _ _ c t sh' pc'
  generalize hl : c.loc t = pc at hs hquiet
  cases pc with
  | idle =>
      cases a <;> simp only [prog, call, Option.map_some, Option.map_none, Option.some.injEq,
        reduceCtorEq] at hs <;> subst hs <;>
        exact hquiet _ _ rfl rfl rfl (by simp)
  | critical =>
      cases a <;> simp only [prog, call, Option.map_some, Option.map_none, Option.some.injEq,
        reduceCtorEq] at hs <;> subst hs <;> exact hquiet _ _ rfl rfl rfl (by simp)
  | try8 =>
      cases a <;> simp only [prog, mutexeeLockTrylock, Option.some.injEq, reduceCtorEq] at hs
      subst hs
      by_cases h0 : c.sh.word.locked = 0
      · exact .acquire h0 rfl (Or.inl ⟨rfl, rfl⟩) rfl rfl (by simp [h0])
      · exact hquiet _ _ (hw.setLocked h0) rfl rfl (by simp [h0])
  | xchg8 =>
      cases a <;> simp only [prog, mutexeeLock, Option.some.injEq, reduceCtorEq] at hs
      subst hs
      by_cases h0 : c.sh.word.locked = 0
      · exact .acquire h0 rfl (Or.inl ⟨rfl, rfl⟩) rfl rfl (by simp [h0])
      · exact hquiet _ _ (hw.setLocked h0) rfl rfl (by simp [h0])
  | spin =>
      cases a <;> simp only [prog, mutexeeLock, Option.some.injEq, reduceCtorEq] at hs
      subst hs
      by_cases h0 : c.sh.word.locked = 0
      · exact .acquire h0 rfl (Or.inl ⟨rfl, rfl⟩) rfl rfl (by simp [h0])
      · exact hquiet _ _ (hw.setLocked h0) rfl rfl (by simp [h0])
  | clock =>
      cases a <;> simp only [prog, mutexeeLock, Option.some.injEq, reduceCtorEq] at hs <;>
        subst hs <;> exact hquiet _ _ rfl rfl rfl (by simp)
  | xchg32 s back =>
      cases a <;> simp only [prog, mutexeeLock, Option.some.injEq, reduceCtorEq] at hs
      subst hs
      have hrole : (Pc.xchg32 s back).role = .redo ∨ (Pc.xchg32 s back).role = .out := by
        cases back <;> simp
      by_cases h1 : c.sh.word.u &&& 1 ≠ 0
      · -- the lock is taken, and whoever has it now knows that somebody waits
        refine .mark (hw.u_and_one.mp h1) rfl rfl rfl hrole ?_
        dsimp only
        rw [if_pos h1]
        cases back <;> split <;> simp
      · have h0 : c.sh.word.locked = 0 :=
          hw.1.resolve_right fun h => h1 (hw.u_and_one.mpr h)
        exact .acquire h0 rfl (Or.inr ⟨hrole, rfl⟩) rfl rfl (by rw [if_neg h1]; rfl)
  | futexWait s =>
      cases a <;> simp only [prog, mutexeeLock, reduceCtorEq] at hs
      split at hs <;> rename_i hu <;> obtain rfl := Option.some.inj hs
      · -- the kernel finds the word locked and contended
        exact .sleep (hw.u_eq_257.mp hu) rfl (fun u => List.mem_cons) rfl rfl rfl
      · exact hquiet _ _ rfl rfl rfl (by simp)
  | blocked s =>
      cases a <;> simp only [prog, mutexeeLock, reduceCtorEq, Option.ite_none_left_eq_some,
        Option.ite_none_right_eq_some, Option.some.injEq] at hs <;> obtain ⟨ht, rfl⟩ := hs
      · refine .leave rfl (fun u => ?_) (fun _ _ => Iff.rfl) id (Or.inl rfl) rfl
        exact ⟨fun h => ⟨h, by rintro rfl; exact ht h⟩, And.left⟩
      · exact .leave rfl (by simp [view]) (fun _ _ => Iff.rfl) id (Or.inl rfl) rfl
      · exact .leave rfl (by simp [view]) (fun _ _ => Iff.rfl) id (Or.inl rfl) rfl
  | readWord k =>
      cases a <;> simp only [prog, mutexeeUnlock, Option.some.injEq, reduceCtorEq] at hs
      subst hs
      refine hquiet _ _ rfl rfl rfl (Or.inr ⟨Or.inl rfl, ?_⟩)
      split <;> rfl
  | cas k =>
      cases a <;> simp only [prog, mutexeeUnlock, reduceCtorEq] at hs
      split at hs <;> rename_i hu <;> obtain rfl := Option.some.inj hs
      · exact .releaseFast (hw.u_eq_one.mp hu) rfl rfl rfl rfl (Ret.next_role _)
      · exact hquiet _ _ rfl rfl rfl (by simp)
  | clear k =>
      cases a <;> simp only [prog, mutexeeUnlock, Option.some.injEq, reduceCtorEq] at hs
      subst hs
      exact .release rfl rfl rfl rfl (recheckFrom_role _ _)
  | recheck n k =>
      cases a <;> simp only [prog, mutexeeUnlock, Option.some.injEq, reduceCtorEq] at hs
      subst hs
      by_cases h0 : c.sh.word.locked = 0
      · refine hquiet _ _ rfl rfl rfl (Or.inr ⟨Or.inr rfl, ?_⟩)
        rw [if_neg (not_not_intro h0)]
        exact recheckFrom_role n k
      · -- the next holder wakes the sleepers
        exact .giveUp (hw.locked_eq h0) rfl rfl rfl rfl (by rw [if_pos h0]; exact k.next_role)
  | clearContended k =>
      cases a <;> simp only [prog, mutexeeUnlock, Option.some.injEq, reduceCtorEq] at hs
      subst hs
      exact .unmark rfl rfl rfl rfl rfl
  | wake k =>
      cases a <;> simp only [prog, mutexeeUnlock, reduceCtorEq, Option.map_eq_some_iff] at hs
      obtain ⟨q, hq, rfl⟩ := hs
      exact .wake rfl (wokeOne_of_futexWake hq) rfl rfl k.next_role
  | readSeq timed | casM timed seq =>
      cases a <;> simp only [prog, condWait, Option.some.injEq, reduceCtorEq] at hs
      subst hs
      exact hquiet _ _ rfl rfl rfl (by simp)
  | readM timed seq | checkM timed seq | readM' timed seq =>
      cases a <;> simp only [prog, condWait, Option.some.injEq, reduceCtorEq] at hs
      subst hs
      refine hquiet _ _ rfl rfl rfl (Or.inr ⟨Or.inl rfl, ?_⟩)
      split <;> rfl
  | checkTime seq rel =>
      cases a <;> simp only [prog, condWait, Option.some.injEq, reduceCtorEq] at hs <;>
        subst hs <;> exact hquiet _ _ rfl rfl rfl (by simp)
  | seqWait timed seq rel =>
      cases a <;> simp only [prog, condWait, reduceCtorEq] at hs
      split at hs <;> obtain rfl := Option.some.inj hs
      · exact .park rfl rfl (fun u => List.mem_cons) rfl rfl
      · exact hquiet _ _ rfl rfl rfl (by simp)
  | seqBlocked timed seq rel =>
      cases a
      case go =>
          simp only [prog, condWait, Option.ite_none_left_eq_some, Option.some.injEq,
            not_or] at hs
          obtain ⟨⟨h1, h2⟩, rfl⟩ := hs
          refine .leave rfl (fun u => ?_) (fun _ _ => Iff.rfl) id (Or.inr ⟨rfl, h2⟩) rfl
          exact ⟨fun h => ⟨h, by rintro rfl; exact h1 h⟩, And.left⟩
      case spurious =>
          simp only [prog, condWait, Option.ite_none_right_eq_some, Option.some.injEq] at hs
          obtain ⟨-, rfl⟩ := hs
          exact .leave rfl (by simp [view]) (by simp +contextual [view]) (by simp [view])
            (Or.inr ⟨rfl, by simp [view]⟩) rfl
      case timeout =>
          cases timed
          · simp only [prog, condWait, reduceCtorEq] at hs
          · simp only [prog, condWait, Option.ite_none_right_eq_some, Option.some.injEq] at hs
            obtain ⟨-, rfl⟩ := hs
            exact .leave rfl (by simp [view]) (by simp +contextual [view]) (by simp [view])
              (Or.inr ⟨rfl, by simp [view]⟩) rfl
      all_goals simp only [prog, condWait, reduceCtorEq] at hs
  | sigAdd h | bcastAdd h =>
      cases a <;> simp only [prog, upmutexCond1Signal, upmutexCond1Broadcast, Option.some.injEq,
        reduceCtorEq] at hs
      subst hs
      exact hquiet _ _ rfl rfl rfl (by cases h <;> simp)
  | sigWake h =>
      cases a <;> simp only [prog, upmutexCond1Signal, reduceCtorEq, Option.map_eq_some_iff] at hs
      obtain ⟨q, hq, rfl⟩ := hs
      exact .signal rfl rfl (wokeOne_of_futexWake hq) (role_caller h) (back_role h)
  | bcastReadM h =>
      cases a <;> simp only [prog, upmutexCond1Broadcast, Option.some.injEq, reduceCtorEq] at hs
      subst hs
      refine hquiet _ _ rfl rfl rfl ?_
      split <;> cases h <;> simp [back]
  | bcastRequeue h seq =>
      cases a <;> simp only [prog, upmutexCond1Broadcast, reduceCtorEq,
        Option.map_eq_some_iff] at hs
      obtain ⟨q, hq, rfl⟩ := hs
      exact .requeue _ rfl (wokeOne_of_futexWake hq) (fun u => List.mem_append) (by simp [view])
        (role_caller h) (back_role h)

/-! ## Mutual exclusion and wake-ups -/

omit [DecidableEq Tid] in
/-- Before the first call. -/
theorem Init.inv {c : Conf Tid (Shared Tid) Pc} (h : Init c) : Inv (view c) := by
  constructor <;> simp [view, Word.Flags, h.word, h.asleep, h.asleepSeq, h.idle]

/-- The invariant of the protocol holds in every state reached. -/
theorem inv_of_reach {cfg : Config} {ok : Conf Tid (Shared Tid) Pc → Tid → Act Tid → Prop}
    {c : Conf Tid (Shared Tid) Pc} (hc : Reach (prog cfg) ok Init c) : Inv (view c) :=
  hc.invariant (fun _ h0 => h0.inv) fun c t _ r h _ hs =>
    h.effect (effect_of_prog h.flags hs) (view_put_role c t r)

/-- A locked mutex is held by somebody. -/
theorem owned_of_reach {cfg : Config} {ok : Conf Tid (Shared Tid) Pc → Tid → Act Tid → Prop}
    {c : Conf Tid (Shared Tid) Pc} (hc : Reach (prog cfg) ok Init c) : Owned (view c) := by
  refine (hc.invariant (I := fun c => Inv (view c) ∧ Owned (view c)) (fun _ h0 => ⟨h0.inv, ?_⟩)
    fun c t _ r h _ hs => ?_).2
  · intro hne
    exact absurd (congrArg Word.locked h0.word) hne
  · have heff := effect_of_prog h.1.flags hs
    exact ⟨h.1.effect heff (view_put_role c t r), h.2.effect heff (view_put_role c t r)⟩

/-- The thread has acquired `m` and not released it. -/
def Holds (c : Conf Tid (Shared Tid) Pc) (t : Tid) : Prop := (c.loc t).role = .holder

/-- The thread is about to redo the word exchange: it is back from a `FUTEX_WAIT`, or it was
    woken from one. -/
def Redoes (c : Conf Tid (Shared Tid) Pc) (t : Tid) : Prop :=
  t ∉ c.sh.asleep ∧ t ∉ c.sh.asleepSeq ∧
    match c.loc t with
    | .xchg32 _ back => back = true
    | .blocked _ | .seqBlocked _ _ _ => True
    | _ => False

/-- The thread has released `m` and has still to re-check `locked`, to clear `contended`
    or to execute its `FUTEX_WAKE`. -/
def HasToWake (c : Conf Tid (Shared Tid) Pc) (t : Tid) : Prop :=
  match c.loc t with
  | .recheck _ _ | .clearContended _ | .wake _ => True
  | _ => False

omit [DecidableEq Tid] in
/-- A thread that retries has been woken, or has returned from `FUTEX_WAIT`. -/
theorem redoes_of_retries {c : Conf Tid (Shared Tid) Pc} {t : Tid} (h : Retries (view c) t) :
    Redoes c t := by
  obtain ⟨hr, ha, hp⟩ := h
  refine ⟨ha, hp, ?_⟩
  simp only [view] at hr
  generalize c.loc t = pc at hr ⊢
  cases pc with
  | xchg32 s back =>
      cases back
      · simp at hr
      · rfl
  | _ =>
      simp only [Pc.role, reduceCtorEq, or_self, or_false, or_true] at hr ⊢ <;>
        split at hr <;> simp at hr

omit [DecidableEq Tid] in
/-- A thread that is to wake another one is in its unlock. -/
theorem hasToWake_of_role {c : Conf Tid (Shared Tid) Pc} {t : Tid}
    (h : (c.loc t).role = .waker ∨ (c.loc t).role = .recheck) : HasToWake c t := by
  unfold HasToWake
  generalize c.loc t = pc at h ⊢
  cases pc <;> simp only [Pc.role, reduceCtorEq, or_self, or_false, or_true] at h ⊢ <;>
    split at h <;> simp at h

omit [DecidableEq Tid] in
/-- No wake-up is lost. -/
theorem wakeable {c : Conf Tid (Shared Tid) Pc} (h : Inv (view c)) {t : Tid}
    (ht : t ∈ c.sh.asleep) : c.sh.word = ⟨1, 1⟩ ∨ ∃ u, Redoes c u ∨ HasToWake c u := by
  rcases h.wakeable (t := t) ht with ⟨hl, hm⟩ | ⟨u, hu | hu⟩
  · exact Or.inl (congrArg₂ Word.mk hl hm)
  · exact Or.inr ⟨u, Or.inl (redoes_of_retries hu)⟩
  · exact Or.inr ⟨u, Or.inr (hasToWake_of_role hu)⟩

omit [DecidableEq Tid] in
/-- Nobody who has to wake a sleeper is asleep. -/
theorem HasToWake.awake {c : Conf Tid (Shared Tid) Pc} (h : Inv (view c)) {t : Tid}
    (ht : HasToWake c t) : t ∉ c.sh.asleep := by
  intro hs
  have hr : (c.loc t).role = .blocked ∨ (c.loc t).role = .parked := h.sleeper t hs
  unfold HasToWake at ht
  generalize c.loc t = pc at hr ht
  cases pc <;> simp at hr ht

/-- **Mutual exclusion and no lost wake-up**, for every variant and whether or not the
    threads also use the condition variable.  At most one thread holds `m`.  Whenever a
    thread is asleep on the lock word, the word is locked and contended, or an awake
    thread is about to redo the word exchange, or an unlocker has yet to re-check or to
    wake.  In particular `m` is never free with a sleeper and nobody awake to see to it. -/
theorem mutexee_safe {cfg : Config} {c : Conf Tid (Shared Tid) Pc}
    (hc : Reach (prog cfg) always Init c) :
    (∀ t u, Holds c t → Holds c u → t = u) ∧
    (∀ t, t ∈ c.sh.asleep → c.sh.word = ⟨1, 1⟩ ∨ ∃ u, Redoes c u ∨ HasToWake c u) ∧
    ∀ t, t ∈ c.sh.asleep → c.sh.word.locked = 0 →
      ∃ u, u ∉ c.sh.asleep ∧ (Redoes c u ∨ HasToWake c u) := by
  have h := inv_of_reach hc
  refine ⟨h.unique, fun t ht => wakeable h ht, fun t ht h0 => ?_⟩
  rcases wakeable h ht with hw | ⟨u, hu⟩
  · simp [hw] at h0
  · exact ⟨u, hu.elim And.left fun hu' => hu'.awake h, hu⟩

/-- Everything free. -/
def start : Conf (Fin 2) (Shared (Fin 2)) Pc :=
  ⟨⟨⟨0, 0⟩, [], false, 0, [], 0⟩, fun _ => .idle⟩

theorem start_init : Init start := by constructor <;> simp [start]

/-- Thread 0 holds, thread 1 falls asleep, and thread 0 unlocks as far as its first
    re-check. -/
def sleepThenUnlock : List (Fin 2 × Act (Fin 2)) :=
  [(0, .lock), (0, .go), (1, .lock), (1, .go), (1, .go), (1, .stopSpinning), (1, .go), (1, .go),
    (0, .unlock), (0, .go), (0, .go)]

theorem mutexee_safe_sleeper : ∃ c : Conf (Fin 2) (Shared (Fin 2)) Pc,
    exec (prog (mutexee true)) always start sleepThenUnlock = some c ∧
    1 ∈ c.sh.asleep ∧ c.sh.word.locked = 0 ∧
    (∀ t u, Holds c t → Holds c u → t = u) ∧
    (∀ t, t ∈ c.sh.asleep → c.sh.word = ⟨1, 1⟩ ∨ ∃ u, Redoes c u ∨ HasToWake c u) ∧
    ∀ t, t ∈ c.sh.asleep → c.sh.word.locked = 0 →
      ∃ u, u ∉ c.sh.asleep ∧ (Redoes c u ∨ HasToWake c u) := by
  obtain ⟨c, hc, h1, h0⟩ : ∃ c : Conf (Fin 2) (Shared (Fin 2)) Pc,
      exec (prog (mutexee true)) always start sleepThenUnlock = some c ∧
      1 ∈ c.sh.asleep ∧ c.sh.word.locked = 0 := ⟨_, rfl, by decide, rfl⟩
  exact ⟨c, hc, h1, h0, mutexee_safe (reach_of_exec start_init hc)⟩

end Mutexee
