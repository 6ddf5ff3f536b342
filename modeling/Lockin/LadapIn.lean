import Lockin.Mutexee

/-! # The adaptive futex locks, versions 0 to 4

    `ladap_in.h` and `ladap1_in.h` to `ladap4_in.h`: futex locks on the word of `FutexMutex`
    that learn how long to spin.  What they learn, and so when a loop ends and whether an
    unlock does more than it has to, is left to the schedule.

    They differ from one another in two places.  A thread that has come back from the kernel
    and finds the lock taken spins again, but in `ladap1_in.h` it exchanges the word and goes
    back to sleep.  An unlock that sees the lock taken by somebody is done; but the one of
    `ladap_in.h` may break out of its loop and clear `contended` although the lock is held, and
    those of `ladap2_in.h` to `ladap4_in.h` may make another `FUTEX_WAKE`.  None of this costs
    mutual exclusion or a wake-up (`ladapLock_safe`). -/

namespace LadapIn

open Interleaving FutexMutex
open Mutexee (futexWake)

/-- What an unlock may do that has seen the lock taken again. -/
inductive Seen where
  | returns
  /-- `ladap_unlock_train` returns 1. -/
  | breaks
  /-- `FUTEX_WAKE` of one thread. -/
  | wakesOne
  /-- `FUTEX_WAKE` of `INT_MAX` threads. -/
  | wakesAll
  deriving DecidableEq

structure Config where
  respins : Bool
  seen : Seen

/-- `ladap_in.h`. -/
def ladap : Config := ⟨true, .breaks⟩

/-- `ladap1_in.h`. -/
def ladap1 : Config := ⟨false, .returns⟩

/-- `ladap2_in.h`. -/
def ladap2 : Config := ⟨true, .wakesAll⟩

/-- `ladap3_in.h`, and `ladap4_in.h`, which counts the wake-ups otherwise. -/
def ladap3 : Config := ⟨true, .wakesOne⟩

/-- The lock word, and the threads asleep on it. -/
structure Shared (Tid : Type) where
  word : Word
  asleep : List Tid

/-- Where a thread is. -/
inductive Pc where
  | outside
  | critical
  -- `ladap_lock`
  | spinLocked
  | spinXchg
  | futexWait
  | blocked
  /-- `xchg_32(&m->l.u, 257) & 1`. -/
  | xchg32
  -- `ladap_lock_trylock`
  | tryXchg
  -- `ladap_unlock`
  | readWord
  | cas
  | clear
  | recheck
  /-- The lock has been taken by somebody. -/
  | seen
  | clearContended
  | wake
  deriving DecidableEq

/-- The calls, and the choices of the schedule. -/
inductive Act (Tid : Type) where
  | lock
  | trylock
  | unlock
  | go
  /-- The loop ends. -/
  | stop
  | spurious
  /-- The futex call wakes this thread, or nobody when nobody sleeps. -/
  | wake (u : Option Tid)
  | wakeAll

variable {Tid : Type}

section

variable [DecidableEq Tid] (cfg : Config)

/-- `ladap_lock`. -/
def ladapLock (t : Tid) (sh : Shared Tid) : Pc → Act Tid → Option (Shared Tid × Pc)
  | .spinLocked, .go => some (sh, if sh.word.locked = 0 then .spinXchg else .spinLocked)
  | .spinLocked, .stop => some (sh, if cfg.respins then .futexWait else .xchg32)
  | .spinXchg, .go =>
      some ({ sh with word.locked := 1 },
        if sh.word.locked = 0 then .critical else .spinLocked)
  | .futexWait, .go =>
      if sh.word.u = 257 then some ({ sh with asleep := t :: sh.asleep }, .blocked)
      else some (sh, .xchg32)
  | .blocked, .go => if t ∈ sh.asleep then none else some (sh, .xchg32)
  | .blocked, .spurious =>
      if t ∈ sh.asleep then some ({ sh with asleep := sh.asleep.filter (· ≠ t) }, .xchg32)
      else none
  | .xchg32, .go =>
      some ({ sh with word := ⟨1, 1⟩ },
        if sh.word.u &&& 1 ≠ 0 then (if cfg.respins then .spinLocked else .futexWait)
        else .critical)
  | _, _ => none

/-- `ladap_lock_trylock`. -/
def ladapLockTrylock (sh : Shared Tid) : Pc → Act Tid → Option (Shared Tid × Pc)
  | .tryXchg, .go =>
      some ({ sh with word.locked := 1 }, if sh.word.locked = 0 then .critical else .outside)
  | _, _ => none

/-- `ladap_unlock`. -/
def ladapUnlock (sh : Shared Tid) : Pc → Act Tid → Option (Shared Tid × Pc)
  | .readWord, .go => some (sh, if sh.word.u = 1 then .cas else .clear)
  | .cas, .go =>
      if sh.word.u = 1 then some ({ sh with word := ⟨0, 0⟩ }, .outside) else some (sh, .clear)
  | .clear, .go => some ({ sh with word.locked := 0 }, .recheck)
  | .recheck, .go => some (sh, if sh.word.locked ≠ 0 then .seen else .recheck)
  | .recheck, .stop => some (sh, .clearContended)
  | .seen, .go => some (sh, .outside)
  | .seen, .stop => if cfg.seen = .breaks then some (sh, .clearContended) else none
  | .seen, .wake u =>
      if cfg.seen = .wakesOne then
        (futexWake sh.asleep u).map fun q => ({ sh with asleep := q }, .outside)
      else none
  | .seen, .wakeAll =>
      if cfg.seen = .wakesAll then some ({ sh with asleep := [] }, .outside) else none
  | .clearContended, .go => some ({ sh with word.contended := 0 }, .wake)
  | .wake, .wake u =>
      -- the last part of `ladap2_in.h` is the same for all unlocks that have released the lock
      (futexWake sh.asleep u).map fun q =>
        ({ sh with asleep := q }, if cfg.seen = .wakesAll then .seen else .outside)
  | _, _ => none

/-- One step of a thread; a thread that holds the lock does not lock it again, and only that
    one unlocks it. -/
def prog : Prog Tid (Shared Tid) Pc (Act Tid) := fun t sh pc a =>
  match pc with
  | .outside =>
      match a with
      | .lock => some (sh, .spinLocked)
      | .trylock => some (sh, .tryXchg)
      | _ => none
  | .critical =>
      match a with
      | .unlock => some (sh, .readWord)
      | _ => none
  | .spinLocked | .spinXchg | .futexWait | .blocked | .xchg32 => ladapLock cfg t sh pc a
  | .tryXchg => ladapLockTrylock sh pc a
  | .readWord | .cas | .clear | .recheck | .seen | .clearContended | .wake =>
      ladapUnlock cfg sh pc a

end

/-- A zero-initialised lock, and nobody in a call. -/
structure Init (c : Conf Tid (Shared Tid) Pc) : Prop where
  word : c.sh.word = ⟨0, 0⟩
  asleep : c.sh.asleep = []
  outside : ∀ t, c.loc t = .outside

/-! ## What a step can do -/

/-- What a thread is about to do with the lock. -/
@[simp] def Pc.role : Pc → Role
  | .outside | .spinLocked | .spinXchg | .futexWait | .tryXchg | .seen => .out
  | .critical | .readWord | .cas | .clear => .holder
  | .blocked => .blocked
  | .xchg32 => .redo
  | .recheck | .clearContended => .recheck
  | .wake => .waker

/-- The state as the protocol sees it. -/
def view (c : Conf Tid (Shared Tid) Pc) : View Tid where
  word := c.sh.word
  asleep t := t ∈ c.sh.asleep
  parked _ := False
  role t := (c.loc t).role

@[simp] theorem role_respins (cfg : Config) :
    Pc.role (if cfg.respins then .spinLocked else .futexWait) = .out := by
  split <;> rfl

@[simp] theorem role_again (cfg : Config) :
    Pc.role (if cfg.seen = .wakesAll then .seen else .outside) = .out := by
  split <;> rfl

variable [DecidableEq Tid]

/-- The view after a step of `t`. -/
theorem view_put_role (c : Conf Tid (Shared Tid) Pc) (t : Tid) (r : Shared Tid × Pc) (u : Tid) :
    (view (c.put t r)).role u = if u = t then r.2.role else (view c).role u := by
  simp only [view, put_loc]
  split <;> rfl

section

variable {cfg : Config} {c : Conf Tid (Shared Tid) Pc} {t : Tid} {r : Shared Tid × Pc}

/-- What a step is to the protocol. -/
abbrev Follows (c : Conf Tid (Shared Tid) Pc) (t : Tid) (r : Shared Tid × Pc) : Prop :=
  Moves t (view c) (view (c.put t r)) (c.loc t).role r.2.role

/-- A step that touches neither the lock word nor the queue. -/
theorem quiet_follows {sh' : Shared Tid} {pc' : Pc} (hw : sh'.word = c.sh.word)
    (ha : sh'.asleep = c.sh.asleep)
    (hr : (c.loc t).role = .out ∧ (pc'.role = .out ∨ pc'.role = .redo) ∨
      ((c.loc t).role = .holder ∨ (c.loc t).role = .recheck) ∧ pc'.role = (c.loc t).role) :
    Follows c t (sh', pc') :=
  Or.inl (.quiet hw (by simp [view, ha]) rfl hr)

/-- An exchange of the byte `locked`. -/
theorem xchg_follows (hw : c.sh.word.Flags) {pc : Pc} (hout : (c.loc t).role = .out)
    (hpc : pc.role = .out) :
    Follows c t ({ c.sh with word.locked := 1 },
      if c.sh.word.locked = 0 then .critical else pc) := by
  by_cases h0 : c.sh.word.locked = 0
  · exact Or.inl (.acquire h0 rfl (Or.inl ⟨hout, rfl⟩) rfl rfl (by simp [h0]))
  · exact quiet_follows (hw.setLocked h0) rfl (Or.inl ⟨hout, Or.inl (by rw [if_neg h0]; exact hpc)⟩)

/-- **Inversion.** Every step is one of the protocol, or helps. -/
theorem follows_of_prog {a : Act Tid} (hw : c.sh.word.Flags)
    (hs : prog cfg t c.sh (c.loc t) a = some r) : Follows c t r := by
  cases hl : c.loc t with
  | outside =>
      rw [hl] at hs
      cases a <;> cases hs <;> exact quiet_follows rfl rfl (by simp [hl])
  | critical =>
      rw [hl] at hs
      cases a <;> cases hs
      exact quiet_follows rfl rfl (by simp [hl])
  | spinLocked =>
      rw [hl] at hs
      cases a <;> cases hs
      · refine quiet_follows rfl rfl (Or.inl ⟨by rw [hl]; rfl, Or.inl ?_⟩)
        split <;> rfl
      · refine quiet_follows rfl rfl (Or.inl ⟨by rw [hl]; rfl, ?_⟩)
        split
        · exact Or.inl rfl
        · exact Or.inr rfl
  | spinXchg | tryXchg =>
      rw [hl] at hs
      cases a <;> cases hs
      exact xchg_follows hw (by rw [hl]; rfl) rfl
  | futexWait =>
      rw [hl] at hs
      cases a with
      | go =>
          dsimp only [prog, ladapLock] at hs
          split at hs <;> obtain rfl := Option.some.inj hs
          · next hu =>
            exact Or.inl (.sleep (hw.u_eq_257.mp hu) rfl (fun u => List.mem_cons) rfl
              (by rw [hl]; rfl) rfl)
          · exact quiet_follows rfl rfl (by simp [hl])
      | _ => cases hs
  | blocked =>
      rw [hl] at hs
      have hrole : (c.loc t).role = .blocked := by rw [hl]; rfl
      cases a with
      | go =>
          dsimp only [prog, ladapLock] at hs
          split at hs
          · cases hs
          · next ht =>
            obtain rfl := Option.some.inj hs
            refine Or.inl (.leave rfl (fun u => ?_) (fun _ _ => Iff.rfl) id (Or.inl hrole) rfl)
            exact ⟨fun h => ⟨h, by rintro rfl; exact ht h⟩, And.left⟩
      | spurious =>
          dsimp only [prog, ladapLock] at hs
          split at hs
          · obtain rfl := Option.some.inj hs
            exact Or.inl (.leave rfl (by simp [view]) (fun _ _ => Iff.rfl) id (Or.inl hrole) rfl)
          · cases hs
      | _ => cases hs
  | xchg32 =>
      rw [hl] at hs
      have hrole : (c.loc t).role = .redo := by rw [hl]; rfl
      cases a <;> cases hs
      by_cases h1 : c.sh.word.u &&& 1 ≠ 0
      · refine Or.inl (.mark (hw.u_and_one.mp h1) rfl rfl rfl (Or.inl hrole) (Or.inl ?_))
        rw [if_pos h1]
        exact role_respins cfg
      · have h0 : c.sh.word.locked = 0 := hw.1.resolve_right fun h => h1 (hw.u_and_one.mpr h)
        exact Or.inl (.acquire h0 rfl (Or.inr ⟨Or.inl hrole, rfl⟩) rfl rfl
          (by rw [if_neg h1]; rfl))
  | readWord =>
      rw [hl] at hs
      cases a <;> cases hs
      refine quiet_follows rfl rfl (Or.inr ⟨Or.inl (by rw [hl]; rfl), ?_⟩)
      rw [hl]
      split <;> rfl
  | cas =>
      rw [hl] at hs
      cases a with
      | go =>
          dsimp only [prog, ladapUnlock] at hs
          split at hs <;> obtain rfl := Option.some.inj hs
          · next hu =>
            exact Or.inl (.releaseFast (hw.u_eq_one.mp hu) rfl rfl rfl (by rw [hl]; rfl) rfl)
          · exact quiet_follows rfl rfl (by simp [hl])
      | _ => cases hs
  | clear =>
      rw [hl] at hs
      cases a <;> cases hs
      exact Or.inl (.release rfl rfl rfl (by rw [hl]; rfl) rfl)
  | recheck =>
      rw [hl] at hs
      have hrole : (c.loc t).role = .recheck := by rw [hl]; rfl
      cases a with
      | go =>
          obtain rfl := Option.some.inj hs
          by_cases h0 : c.sh.word.locked ≠ 0
          · rw [if_pos h0]
            exact Or.inl (.giveUp (hw.locked_eq h0) rfl rfl rfl hrole rfl)
          · rw [if_neg h0]
            exact quiet_follows rfl rfl (by simp [hl])
      | stop =>
          obtain rfl := Option.some.inj hs
          exact quiet_follows rfl rfl (by simp [hl])
      | _ => cases hs
  | seen =>
      -- the lock was taken by somebody who will see to the sleepers; the thread need not help
      rw [hl] at hs
      have hrole : (c.loc t).role = .out := by rw [hl]; rfl
      cases a with
      | go =>
          obtain rfl := Option.some.inj hs
          exact quiet_follows rfl rfl (by simp [hl])
      | stop =>
          obtain ⟨-, hs⟩ := Option.ite_none_right_eq_some.mp hs
          obtain rfl := Option.some.inj hs
          exact Or.inr (.volunteer rfl rfl rfl hrole rfl)
      | wake u =>
          obtain ⟨-, hs⟩ := Option.ite_none_right_eq_some.mp hs
          obtain ⟨q, hq, rfl⟩ := Option.map_eq_some_iff.mp hs
          exact Or.inr (.rouse rfl (Mutexee.wokeOne_of_futexWake hq).subset rfl hrole rfl)
      | wakeAll =>
          obtain ⟨-, hs⟩ := Option.ite_none_right_eq_some.mp hs
          obtain rfl := Option.some.inj hs
          exact Or.inr (.rouse rfl (by simp [view]) rfl hrole rfl)
      | _ => cases hs
  | clearContended =>
      rw [hl] at hs
      cases a <;> cases hs
      exact Or.inl (.unmark rfl rfl rfl (by rw [hl]; rfl) rfl)
  | wake =>
      rw [hl] at hs
      cases a with
      | wake u =>
          obtain ⟨q, hq, rfl⟩ := Option.map_eq_some_iff.mp hs
          exact Or.inl (.wake rfl (Mutexee.wokeOne_of_futexWake hq) rfl (by rw [hl]; rfl)
            (role_again cfg))
      | _ => cases hs

/-! ## Every run -/

omit [DecidableEq Tid] in
/-- Before the first call. -/
theorem Init.inv (h : Init c) : Inv (view c) ∧ Owned (view c) := by
  refine ⟨?_, fun hne => absurd (congrArg Word.locked h.word) hne⟩
  constructor <;> simp [view, Word.Flags, h.word, h.asleep, h.outside]

/-- **Run lemma.** -/
theorem inv_of_reach {ok : Conf Tid (Shared Tid) Pc → Tid → Act Tid → Prop}
    (h : Reach (prog cfg) ok Init c) : Inv (view c) ∧ Owned (view c) :=
  h.invariant (I := fun c => Inv (view c) ∧ Owned (view c)) (fun _ h0 => h0.inv)
    fun c t _ r hc _ hs => (follows_of_prog hc.1.flags hs).inv hc (view_put_role c t r)

end

/-- The thread has acquired the lock and not released it. -/
def Holds (c : Conf Tid (Shared Tid) Pc) (t : Tid) : Prop := (c.loc t).role = .holder

/-- The thread is awake and about to exchange the word. -/
def Redoes (c : Conf Tid (Shared Tid) Pc) (t : Tid) : Prop :=
  t ∉ c.sh.asleep ∧ (c.loc t = .xchg32 ∨ c.loc t = .blocked)

/-- The thread has still to re-check `locked`, to clear `contended`, or to wake. -/
def HasToWake (c : Conf Tid (Shared Tid) Pc) (t : Tid) : Prop :=
  c.loc t = .recheck ∨ c.loc t = .clearContended ∨ c.loc t = .wake

omit [DecidableEq Tid] in
/-- A thread that retries is awake and about to exchange the word. -/
theorem redoes_of_retries {c : Conf Tid (Shared Tid) Pc} {t : Tid} (h : Retries (view c) t) :
    Redoes c t := by
  obtain ⟨hrole, hasleep, -⟩ := h
  refine ⟨hasleep, ?_⟩
  change (c.loc t).role = .redo ∨ (c.loc t).role = .blocked ∨ (c.loc t).role = .parked at hrole
  cases hl : c.loc t <;> rw [hl] at hrole <;> simp at hrole <;> simp

omit [DecidableEq Tid] in
/-- A thread that is to wake another one is in its unlock. -/
theorem hasToWake_of_role {c : Conf Tid (Shared Tid) Pc} {t : Tid}
    (h : (c.loc t).role = .waker ∨ (c.loc t).role = .recheck) : HasToWake c t := by
  unfold HasToWake
  cases hl : c.loc t <;> rw [hl] at h <;> simp at h <;> simp

/-- **Mutual exclusion and no lost wake-up**, for every version and whatever it learns.  At
    most one thread holds the lock, and a locked word is held by somebody.  While a thread is
    asleep the word is locked and contended, or a thread that is awake is about to exchange the
    word, to re-check it or to wake; when the lock is free, one of the latter. -/
theorem ladapLock_safe {cfg : Config} {c : Conf Tid (Shared Tid) Pc}
    (h : Reach (prog cfg) always Init c) :
    (∀ t u, Holds c t → Holds c u → t = u) ∧
    (c.sh.word.locked ≠ 0 → ∃ t, Holds c t) ∧
    (∀ t ∈ c.sh.asleep, c.sh.word = ⟨1, 1⟩ ∨ ∃ u, Redoes c u ∨ HasToWake c u) ∧
    ∀ t ∈ c.sh.asleep, c.sh.word.locked = 0 →
      ∃ u, u ∉ c.sh.asleep ∧ (Redoes c u ∨ HasToWake c u) := by
  obtain ⟨hinv, howned⟩ := inv_of_reach h
  have hwake : ∀ t ∈ c.sh.asleep,
      c.sh.word = ⟨1, 1⟩ ∨ ∃ u, Redoes c u ∨ HasToWake c u := by
    intro t ht
    obtain ⟨hl, hm⟩ | ⟨u, hu | hu⟩ := hinv.wakeable (t := t) ht
    · exact Or.inl (congrArg₂ Word.mk hl hm)
    · exact Or.inr ⟨u, Or.inl (redoes_of_retries hu)⟩
    · exact Or.inr ⟨u, Or.inr (hasToWake_of_role hu)⟩
  refine ⟨hinv.unique, howned, hwake, fun t ht h0 => ?_⟩
  obtain hw | ⟨u, hu⟩ := hwake t ht
  · rw [hw] at h0
    cases h0
  · refine ⟨u, fun hasleep => ?_, hu⟩
    obtain ⟨hawake, -⟩ | hwaker := hu
    · exact hawake hasleep
    · -- a sleeper is in its futex call
      have hsleeper := hinv.sleeper u hasleep
      change (c.loc u).role = .blocked ∨ (c.loc u).role = .parked at hsleeper
      obtain hl | hl | hl := hwaker <;> rw [hl] at hsleeper <;> simp at hsleeper

/-- Everything free. -/
def start : Conf (Fin 2) (Shared (Fin 2)) Pc := ⟨⟨⟨0, 0⟩, []⟩, fun _ => .outside⟩

theorem start_init : Init start := ⟨rfl, rfl, fun _ => rfl⟩

/-- Thread 1 marks the word and falls asleep while thread 0 holds the lock; then thread 0
    unlocks, and nobody takes the lock while it looks. -/
def overtaken : List (Fin 2 × Act (Fin 2)) :=
  [(0, .lock), (0, .go), (0, .go), (1, .lock), (1, .go), (1, .stop), (1, .go), (1, .go),
    (1, .stop), (1, .go), (0, .unlock), (0, .go), (0, .go), (0, .stop)]

/-- The lock is free, a thread is asleep, and the unlocker is about to clear `contended`. -/
theorem ladapLock_safe_overtaken : ∃ c : Conf (Fin 2) (Shared (Fin 2)) Pc,
    exec (prog ladap) always start overtaken = some c ∧ 1 ∈ c.sh.asleep ∧
      c.sh.word.locked = 0 ∧ HasToWake c 0 ∧
      ∃ u, u ∉ c.sh.asleep ∧ (Redoes c u ∨ HasToWake c u) := by
  obtain ⟨c, hx, hasleep, hfree, hwaker⟩ : ∃ c : Conf (Fin 2) (Shared (Fin 2)) Pc,
      exec (prog ladap) always start overtaken = some c ∧ 1 ∈ c.sh.asleep ∧
        c.sh.word.locked = 0 ∧ c.loc 0 = .clearContended := ⟨_, rfl, by decide, rfl, rfl⟩
  have hreach : Reach (prog ladap) always Init c := reach_of_exec start_init hx
  exact ⟨c, hx, hasleep, hfree, Or.inr (Or.inl hwaker),
    (ladapLock_safe hreach).2.2.2 1 hasleep hfree⟩

end LadapIn
