import Mathlib.Tactic

/-! # Mutexes on a futex word

    The protocol behind a two-byte futex mutex, independently of the code: a lock word
    with the flags `locked` and `contended`, the threads ASLEEP on the word, the threads
    PARKED on the word of a condition variable, and what each thread is about to do
    (`Role`).

    `Effect` says what one step may do to these.  The invariant `Inv` is kept by every
    effect (`Inv.effect`), and it says that a wake-up is never lost: whenever somebody
    is asleep on the lock word, the lock is held and marked as contended, or an awake
    thread is on its way to mark it again, or somebody who released the lock has yet to
    decide about a wake (`Inv.wakeable`). -/

namespace FutexMutex

/-- The two flag bytes of the lock word; the other bytes are 0. -/
structure Word where
  locked : UInt8
  contended : UInt8
  deriving DecidableEq

namespace Word

/-- The whole word. -/
def u (w : Word) : Nat := w.locked.toNat + 256 * w.contended.toNat

/-- The bytes are flags. -/
def Flags (w : Word) : Prop :=
  (w.locked = 0 ∨ w.locked = 1) ∧ (w.contended = 0 ∨ w.contended = 1)

namespace Flags

variable {w : Word}

theorem locked_eq (h : w.Flags) (hne : w.locked ≠ 0) : w.locked = 1 := h.1.resolve_left hne

theorem u_eq_one (h : w.Flags) : w.u = 1 ↔ w = ⟨1, 0⟩ := by
  obtain ⟨l, c⟩ := w
  obtain ⟨rfl | rfl, rfl | rfl⟩ := h <;> simp [u]

theorem u_eq_257 (h : w.Flags) : w.u = 257 ↔ w = ⟨1, 1⟩ := by
  obtain ⟨l, c⟩ := w
  obtain ⟨rfl | rfl, rfl | rfl⟩ := h <;> simp [u]

/-- The low bit of the word is the byte `locked`. -/
theorem u_and_one (h : w.Flags) : w.u &&& 1 ≠ 0 ↔ w.locked = 1 := by
  obtain ⟨l, c⟩ := w
  obtain ⟨rfl | rfl, rfl | rfl⟩ := h <;> simp [u]

/-- Setting a byte that is set changes nothing. -/
theorem setLocked (h : w.Flags) (hne : w.locked ≠ 0) : { w with locked := 1 } = w := by
  rw [← h.locked_eq hne]

end Flags

end Word

/-- What a thread is about to do with the mutex. -/
inductive Role where
  | out
  | holder
  /-- Back from a futex call, and about to exchange the whole word with `locked` and
      `contended`. -/
  | redo
  /-- In a call that makes it sleep on the lock word. -/
  | blocked
  /-- In a call that makes it sleep on the condition variable. -/
  | parked
  /-- It has released the lock and may still decide to wake somebody. -/
  | recheck
  /-- About to wake a sleeper of the lock word. -/
  | waker
  deriving DecidableEq

/-- The state of the mutex that matters to the protocol. -/
structure View (Tid : Type) where
  word : Word
  asleep : Tid → Prop
  parked : Tid → Prop
  role : Tid → Role

variable {Tid : Type}

/-- `s'` is `s` without one of its members, if it has any. -/
def WokeOne (s s' : Tid → Prop) : Prop :=
  ((∀ u, ¬ s u) ∧ ∀ u, ¬ s' u) ∨ ∃ v, s v ∧ ∀ u, s' u ↔ s u ∧ u ≠ v

theorem WokeOne.subset {s s' : Tid → Prop} (h : WokeOne s s') (u : Tid) (hu : s' u) : s u := by
  rcases h with ⟨-, h'⟩ | ⟨v, -, h'⟩
  · exact absurd hu (h' u)
  · exact ((h' u).mp hu).1

/-- What a step of thread `t` may do, whose role is `r` before and `r'` after. -/
inductive Effect (t : Tid) (v v' : View Tid) (r r' : Role) : Prop where
  | quiet : v'.word = v.word → v'.asleep = v.asleep → v'.parked = v.parked →
      (r = .out ∧ (r' = .out ∨ r' = .redo) ∨
        (r = .holder ∨ r = .recheck) ∧ r' = r) →
      Effect t v v' r r'
  | acquire : v.word.locked = 0 → v'.word.locked = 1 →
      (r = .out ∧ v'.word.contended = v.word.contended ∨
        (r = .redo ∨ r = .out) ∧ v'.word.contended = 1) →
      v'.asleep = v.asleep → v'.parked = v.parked → r' = .holder → Effect t v v' r r'
  /-- The exchange of the whole word finds the lock taken. -/
  | mark : v.word.locked = 1 → v'.word = ⟨1, 1⟩ → v'.asleep = v.asleep →
      v'.parked = v.parked → (r = .redo ∨ r = .out) → (r' = .out ∨ r' = .redo) →
      Effect t v v' r r'
  | sleep : v.word = ⟨1, 1⟩ → v'.word = v.word → (∀ u, v'.asleep u ↔ u = t ∨ v.asleep u) →
      v'.parked = v.parked → r = .out → r' = .blocked → Effect t v v' r r'
  | park : v'.word = v.word → v'.asleep = v.asleep →
      (∀ u, v'.parked u ↔ u = t ∨ v.parked u) → r = .out → r' = .parked →
      Effect t v v' r r'
  /-- A return from the kernel: `t` was woken, or it leaves by itself. -/
  | leave : v'.word = v.word → (∀ u, v'.asleep u ↔ v.asleep u ∧ u ≠ t) →
      (∀ u, u ≠ t → (v'.parked u ↔ v.parked u)) → (v'.parked t → v.parked t) →
      (r = .blocked ∨ r = .parked ∧ ¬ v'.parked t) → r' = .redo →
      Effect t v v' r r'
  /-- The compare-and-swap of the whole word, which finds no contention. -/
  | releaseFast : v.word = ⟨1, 0⟩ → v'.word = ⟨0, 0⟩ → v'.asleep = v.asleep →
      v'.parked = v.parked → r = .holder → r' = .out → Effect t v v' r r'
  | release : v'.word = { v.word with locked := 0 } → v'.asleep = v.asleep →
      v'.parked = v.parked → r = .holder → r' = .recheck → Effect t v v' r r'
  /-- The lock was taken again; whoever has it will wake the sleepers. -/
  | giveUp : v.word.locked = 1 → v'.word = v.word → v'.asleep = v.asleep →
      v'.parked = v.parked → r = .recheck → r' = .out → Effect t v v' r r'
  | unmark : v'.word = { v.word with contended := 0 } → v'.asleep = v.asleep →
      v'.parked = v.parked → r = .recheck → r' = .waker → Effect t v v' r r'
  | wake : v'.word = v.word → WokeOne v.asleep v'.asleep → v'.parked = v.parked →
      r = .waker → r' = .out → Effect t v v' r r'
  | signal : v'.word = v.word → v'.asleep = v.asleep → WokeOne v.parked v'.parked →
      (r = .out ∨ r = .holder) → r' = r → Effect t v v' r r'
  /-- One parked thread is woken, the others are moved to the lock word. -/
  | requeue (s : Tid → Prop) : v'.word = v.word → WokeOne v.parked s →
      (∀ u, v'.asleep u ↔ s u ∨ v.asleep u) → (∀ u, ¬ v'.parked u) →
      (r = .out ∨ r = .holder) → r' = r → Effect t v v' r r'

/-- An awake thread on its way to exchange the whole word. -/
abbrev Retries (v : View Tid) (t : Tid) : Prop :=
  (v.role t = .redo ∨ v.role t = .blocked ∨ v.role t = .parked) ∧ ¬ v.asleep t ∧ ¬ v.parked t

/-- The invariant of the mutex. -/
structure Inv (v : View Tid) : Prop where
  flags : v.word.Flags
  locked : ∀ t, v.role t = .holder → v.word.locked = 1
  unique : ∀ t u, v.role t = .holder → v.role u = .holder → t = u
  sleeper : ∀ t, v.asleep t → v.role t = .blocked ∨ v.role t = .parked
  parker : ∀ t, v.parked t → ¬ v.asleep t ∧ v.role t = .parked
  marked : ∀ t, v.asleep t → v.word.contended = 1 ∨ ∃ u, Retries v u ∨ v.role u = .waker
  free : ∀ t, v.asleep t → v.word.locked = 0 →
    ∃ u, Retries v u ∨ v.role u = .waker ∨ v.role u = .recheck

/-- **Step lemma.** Every effect keeps the invariant. -/
theorem Inv.effect [DecidableEq Tid] {t : Tid} {v v' : View Tid} {r' : Role} (h : Inv v)
    (he : Effect t v v' (v.role t) r')
    (hrole : ∀ u, v'.role u = if u = t then r' else v.role u) : Inv v' := by
  obtain ⟨hflags, hlocked, hunique, hsleeper, hparker, hmarked, hfree⟩ := h
  cases he with
  | quiet hw ha hp hr =>
      -- whoever was going to retry, wake or re-check still is
      replace ha := congrFun ha
      replace hp := congrFun hp
      constructor <;> grind [Word.Flags, WokeOne]
  | acquire h0 h1 hc ha hp hr =>
      -- the lock is held now, and the word exchange has marked it
      replace ha := congrFun ha
      replace hp := congrFun hp
      constructor <;> grind [Word.Flags, WokeOne]
  | mark h1 hw ha hp hr hr' =>
      -- marked and held
      replace ha := congrFun ha
      replace hp := congrFun hp
      constructor <;> grind [Word.Flags, WokeOne]
  | sleep hw hw' ha hp hr hr' =>
      -- the word was 257 when the thread went to sleep
      replace hp := congrFun hp
      constructor <;> grind [Word.Flags, WokeOne]
  | park hw ha hp hr hr' =>
      replace ha := congrFun ha
      constructor <;> grind [Word.Flags, WokeOne]
  | leave hw ha hp hpt hr hr' =>
      -- `t` itself retries now
      constructor <;> grind [Word.Flags, WokeOne]
  | releaseFast hw hw' ha hp hr hr' =>
      -- nothing was marked, so a sleeper has somebody who retries or wakes already
      replace ha := congrFun ha
      replace hp := congrFun hp
      constructor <;> grind [Word.Flags, WokeOne]
  | release hw ha hp hr hr' =>
      -- `t` has yet to re-check
      replace ha := congrFun ha
      replace hp := congrFun hp
      constructor <;> grind [Word.Flags, WokeOne]
  | giveUp h1 hw ha hp hr hr' =>
      -- held by somebody else
      replace ha := congrFun ha
      replace hp := congrFun hp
      constructor <;> grind [Word.Flags, WokeOne]
  | unmark hw ha hp hr hr' =>
      -- `t` is about to wake
      replace ha := congrFun ha
      replace hp := congrFun hp
      constructor <;> grind [Word.Flags, WokeOne]
  | wake hw ha hp hr hr' =>
      -- the sleeper that was woken retries
      replace hp := congrFun hp
      constructor <;> grind [Word.Flags, WokeOne]
  | signal hw ha hp hr hr' =>
      replace ha := congrFun ha
      constructor <;> grind [Word.Flags, WokeOne]
  | requeue s hw hs ha hp hr hr' =>
      -- the thread that was woken retries and will mark the word
      constructor <;> grind [Word.Flags, WokeOne]

/-- **No lost wake-up.** -/
theorem Inv.wakeable {v : View Tid} (h : Inv v) {t : Tid} (ht : v.asleep t) :
    v.word.locked = 1 ∧ v.word.contended = 1 ∨
      ∃ u, Retries v u ∨ v.role u = .waker ∨ v.role u = .recheck := by
  by_cases h0 : v.word.locked = 0
  · exact Or.inr (h.free t ht h0)
  · rcases h.marked t ht with hm | ⟨u, hu⟩
    · exact Or.inl ⟨h.flags.locked_eq h0, hm⟩
    · exact Or.inr ⟨u, hu.imp_right Or.inl⟩

/-- A locked word is somebody's. -/
def Owned (v : View Tid) : Prop := v.word.locked ≠ 0 → ∃ t, v.role t = .holder

/-- **Step lemma.** -/
theorem Owned.effect [DecidableEq Tid] {t : Tid} {v v' : View Tid} {r' : Role} (h : Owned v)
    (he : Effect t v v' (v.role t) r')
    (hrole : ∀ u, v'.role u = if u = t then r' else v.role u) : Owned v' := by
  -- a holder that goes on holding is still there
  have hkeep : (v'.word.locked ≠ 0 → v.word.locked ≠ 0) →
      (v.role t = .holder → r' = .holder) → Owned v' := by
    intro hlocked hr hne
    obtain ⟨u, hu⟩ := h (hlocked hne)
    refine ⟨u, ?_⟩
    rw [hrole]
    split
    · rename_i hut
      rw [hut] at hu
      exact hr hu
    · exact hu
  cases he with
  | quiet hw _ _ hr =>
      refine hkeep (fun hne => hw ▸ hne) fun hh => ?_
      rcases hr with ⟨hr, -⟩ | ⟨-, hr'⟩
      · exact nomatch hh.symm.trans hr
      · exact hr'.trans hh
  | acquire _ _ _ _ _ hr' =>
      intro _
      exact ⟨t, by rw [hrole, if_pos rfl, hr']⟩
  | mark h1 _ _ _ hr _ =>
      refine hkeep (fun _ => ?_) fun hh => ?_
      · rw [h1]
        decide
      · rcases hr with hr | hr <;> exact nomatch hh.symm.trans hr
  | sleep _ hw _ _ hr _ | park hw _ _ hr _ | wake hw _ _ hr _ =>
      exact hkeep (fun hne => hw ▸ hne) fun hh => nomatch hh.symm.trans hr
  | leave hw _ _ _ hr _ =>
      refine hkeep (fun hne => hw ▸ hne) fun hh => ?_
      rcases hr with hr | ⟨hr, -⟩ <;> exact nomatch hh.symm.trans hr
  | releaseFast _ hw _ _ _ _ =>
      intro hne
      rw [hw] at hne
      exact absurd rfl hne
  | release hw _ _ _ _ =>
      intro hne
      rw [hw] at hne
      exact absurd rfl hne
  | giveUp _ hw _ _ hr _ =>
      exact hkeep (fun hne => hw ▸ hne) fun hh => nomatch hh.symm.trans hr
  | unmark hw _ _ hr _ =>
      refine hkeep (fun hne => ?_) fun hh => nomatch hh.symm.trans hr
      rw [hw] at hne
      exact hne
  | signal hw _ _ _ hr' | requeue _ hw _ _ _ _ hr' =>
      exact hkeep (fun hne => hw ▸ hne) fun hh => hr'.trans hh

/-- What else a thread may do that does not hold the lock. -/
inductive Helps (t : Tid) (v v' : View Tid) (r r' : Role) : Prop where
  /-- It goes on as if it had to wake somebody. -/
  | volunteer : v'.word = v.word → v'.asleep = v.asleep → v'.parked = v.parked →
      r = .out → r' = .recheck → Helps t v v' r r'
  /-- It has not come to its exchange of the word yet. -/
  | linger : v'.word = v.word → v'.asleep = v.asleep → v'.parked = v.parked →
      r = .redo → r' = .redo → Helps t v v' r r'
  /-- It wakes some of the sleepers, and leaves the word as it is. -/
  | rouse : v'.word = v.word → (∀ u, v'.asleep u → v.asleep u) → v'.parked = v.parked →
      r = .out → r' = .out → Helps t v v' r r'

/-- **Step lemma.** Help keeps the invariant. -/
theorem Inv.helps [DecidableEq Tid] {t : Tid} {v v' : View Tid} {r' : Role} (h : Inv v)
    (he : Helps t v v' (v.role t) r')
    (hrole : ∀ u, v'.role u = if u = t then r' else v.role u) : Inv v' := by
  obtain ⟨hflags, hlocked, hunique, hsleeper, hparker, hmarked, hfree⟩ := h
  cases he with
  | volunteer hw ha hp hr hr' | linger hw ha hp hr hr' =>
      replace ha := congrFun ha
      replace hp := congrFun hp
      constructor <;> grind [Word.Flags]
  | rouse hw ha hp hr hr' =>
      -- whoever was woken retries
      replace hp := congrFun hp
      constructor <;> grind [Word.Flags]

/-- **Step lemma.** -/
theorem Owned.helps [DecidableEq Tid] {t : Tid} {v v' : View Tid} {r' : Role} (h : Owned v)
    (he : Helps t v v' (v.role t) r')
    (hrole : ∀ u, v'.role u = if u = t then r' else v.role u) : Owned v' := by
  have hkeep : v'.word = v.word → v.role t ≠ .holder → Owned v' := by
    intro hword hr hne
    obtain ⟨u, hu⟩ := h (hword ▸ hne)
    have hut : u ≠ t := by
      rintro rfl
      exact hr hu
    exact ⟨u, by rw [hrole, if_neg hut, hu]⟩
  cases he with
  | volunteer hw _ _ hr _ | rouse hw _ _ hr _ | linger hw _ _ hr _ =>
      exact hkeep hw (by rw [hr]; simp)

/-- A step of the protocol, or help. -/
def Moves (t : Tid) (v v' : View Tid) (r r' : Role) : Prop :=
  Effect t v v' r r' ∨ Helps t v v' r r'

/-- **Step lemma.** -/
theorem Moves.inv [DecidableEq Tid] {t : Tid} {v v' : View Tid} {r' : Role}
    (hm : Moves t v v' (v.role t) r') (h : Inv v ∧ Owned v)
    (hrole : ∀ u, v'.role u = if u = t then r' else v.role u) : Inv v' ∧ Owned v' := by
  obtain heff | hhelps := hm
  · exact ⟨h.1.effect heff hrole, h.2.effect heff hrole⟩
  · exact ⟨h.1.helps hhelps hrole, h.2.helps hhelps hrole⟩

end FutexMutex
