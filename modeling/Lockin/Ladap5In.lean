import Lockin.Counting
import Lockin.Mutexee

/-! # The adaptive futex lock, version 5

    `ladap5_in.h`: a futex lock that counts in `contention` the threads that compete for it,
    and sends a thread to sleep at once when it finds more than `LADAP_CONTENTION_MAX`.

    The counter is meant to be the number of the threads that have announced themselves
    and are not on the sleeping path (`Pc.counted`).  Two ways through `ladap_lock` miss
    it.  A thread that has spun out falls into the sleeping section without taking itself
    off, and is counted again after its sleep.  A thread that was sent there directly has
    taken itself off; when its first exchange finds the lock free, it leaves by `locked`,
    which takes it off once more.  `kept` excludes these steps, and increments that wrap;
    `balanced_put` says that they are the only ones that go wrong. -/

namespace Ladap5In

open Interleaving FutexMutex
open Mutexee (futexWake)

/-- `LADAP_SPIN_TRIES_LOCK_MAX`. -/
def spinTriesLockMax : Nat := 16386

/-- `LADAP_SPIN_TRIES_UNLOCK_MAX`. -/
def spinTriesUnlockMax : Nat := 128

/-- `LADAP_FAIR_FUTEX_EVERY`. -/
def fairFutexEvery : Nat := 8192

/-- A `ladap_lock_t`, and the threads asleep on its word. -/
structure Shared (Tid : Type) where
  word : Word
  contention : BitVec 32
  nSpinAcq : BitVec 32
  nFutex : BitVec 16
  asleep : List Tid

/-- Where a thread is. -/
inductive Pc where
  | outside
  -- `ladap_lock`
  | announce
  | withdraw
  | tryLocked
  | tryXchg
  | loadSpinAcq
  | storeSpinAcq (n : BitVec 32)
  | spinLocked (i : Nat)
  | spinXchg (i : Nat)
  /-- The label `sleep`. -/
  | sleepXchg
  | loadFutex
  | storeFutex (n : BitVec 16)
  | futexWait
  | blocked
  | reannounce
  | reloadFutex
  | restoreFutex (n : BitVec 16)
  | wakeXchg
  /-- The label `locked`. -/
  | leave
  -- `ladap_unlock`
  | readWord
  | cas
  | clear
  | recheck (i : Nat)
  | readSpinAcq (i : Nat)
  | readFutex (i : Nat)
  | resetSpinAcq
  | clearContended
  | wake
  deriving DecidableEq

/-- The calls, and the choices of the schedule. -/
inductive Act (Tid : Type) where
  | lock
  | unlock
  | go
  | spurious
  /-- The futex call wakes this thread, or nobody when nobody sleeps. -/
  | wake (u : Option Tid)

variable {Tid : Type}

section

variable [DecidableEq Tid]

/-- The head of the spin loop. -/
def spinFrom (i : Nat) : Pc := if i ≤ spinTriesLockMax then .spinLocked i else .sleepXchg

/-- `ladap_lock`. -/
def ladapLock (contentionMax : Nat) (t : Tid) (sh : Shared Tid) :
    Pc → Act Tid → Option (Shared Tid × Pc)
  | .announce, .go =>
      some ({ sh with contention := sh.contention + 1 },
        if contentionMax < sh.contention.toNat then .withdraw else .tryLocked)
  | .withdraw, .go => some ({ sh with contention := sh.contention - 1 }, .sleepXchg)
  | .tryLocked, .go => some (sh, if sh.word.locked = 0 then .tryXchg else spinFrom 1)
  | .tryXchg, .go =>
      some ({ sh with word.locked := 1 },
        if sh.word.locked = 0 then .loadSpinAcq else spinFrom 1)
  | .loadSpinAcq, .go => some (sh, .storeSpinAcq sh.nSpinAcq)
  | .storeSpinAcq n, .go => some ({ sh with nSpinAcq := n + 1 }, .leave)
  | .spinLocked i, .go => some (sh, if sh.word.locked = 0 then .spinXchg i else spinFrom (i + 1))
  | .spinXchg i, .go =>
      some ({ sh with word.locked := 1 },
        if sh.word.locked = 0 then .loadSpinAcq else spinFrom (i + 1))
  | .sleepXchg, .go =>
      some ({ sh with word := ⟨1, 1⟩ }, if sh.word.u &&& 1 ≠ 0 then .loadFutex else .leave)
  | .loadFutex, .go => some (sh, .storeFutex sh.nFutex)
  | .storeFutex n, .go => some ({ sh with nFutex := n + 1 }, .futexWait)
  | .futexWait, .go =>
      if sh.word.u = 257 then some ({ sh with asleep := t :: sh.asleep }, .blocked)
      else some (sh, .reannounce)
  | .blocked, .go => if t ∈ sh.asleep then none else some (sh, .reannounce)
  | .blocked, .spurious =>
      if t ∈ sh.asleep then some ({ sh with asleep := sh.asleep.filter (· ≠ t) }, .reannounce)
      else none
  | .reannounce, .go => some ({ sh with contention := sh.contention + 1 }, .reloadFutex)
  | .reloadFutex, .go => some (sh, .restoreFutex sh.nFutex)
  | .restoreFutex n, .go => some ({ sh with nFutex := n - 1 }, .wakeXchg)
  | .wakeXchg, .go =>
      some ({ sh with word := ⟨1, 1⟩ }, if sh.word.u &&& 1 ≠ 0 then spinFrom 1 else .leave)
  | .leave, .go => some ({ sh with contention := sh.contention - 1 }, .outside)
  | _, _ => none

/-- The head of the loop of `ladap_unlock`. -/
def recheckFrom (i : Nat) : Pc := if i < spinTriesUnlockMax then .recheck i else .clearContended

/-- `ladap_unlock`. -/
def ladapUnlock (sh : Shared Tid) : Pc → Act Tid → Option (Shared Tid × Pc)
  | .readWord, .go => some (sh, if sh.word.u = 1 then .cas else .clear)
  | .cas, .go =>
      if sh.word.u = 1 then some ({ sh with word := ⟨0, 0⟩ }, .outside) else some (sh, .clear)
  | .clear, .go => some ({ sh with word.locked := 0 }, recheckFrom 0)
  | .recheck i, .go =>
      some (sh, if sh.word.locked ≠ 0 then .readSpinAcq i else recheckFrom (i + 1))
  | .readSpinAcq i, .go =>
      some (sh, if fairFutexEvery < sh.nSpinAcq.toNat then .readFutex i else .outside)
  | .readFutex _, .go => some (sh, if sh.nFutex ≠ 0 then .resetSpinAcq else .outside)
  | .resetSpinAcq, .go => some ({ sh with nSpinAcq := 0 }, .clearContended)
  | .clearContended, .go => some ({ sh with word.contended := 0 }, .wake)
  | .wake, .wake u => (futexWake sh.asleep u).map fun q => ({ sh with asleep := q }, .outside)
  | _, _ => none

/-- One step of a thread.  Whether a caller holds the lock does not matter to the counter,
    so both functions may be called at any time. -/
def prog (contentionMax : Nat) : Prog Tid (Shared Tid) Pc (Act Tid) := fun t sh pc a =>
  match pc, a with
  | .outside, .lock => some (sh, .announce)
  | .outside, .unlock => some (sh, .readWord)
  | _, _ => (ladapLock contentionMax t sh pc a).orElse fun _ => ladapUnlock sh pc a

end

/-- A zero-initialised lock, and nobody in a call. -/
structure Init (c : Conf Tid (Shared Tid) Pc) : Prop where
  word : c.sh.word = ⟨0, 0⟩
  contention : c.sh.contention = 0
  nSpinAcq : c.sh.nSpinAcq = 0
  nFutex : c.sh.nFutex = 0
  asleep : c.sh.asleep = []
  outside : ∀ t, c.loc t = .outside

/-! ## What the counter is to count -/

/-- In `ladap_lock`. -/
def Pc.inLock : Pc → Bool
  | .outside => false
  | .readWord => false
  | .cas => false
  | .clear => false
  | .recheck _ => false
  | .readSpinAcq _ => false
  | .readFutex _ => false
  | .resetSpinAcq => false
  | .clearContended => false
  | .wake => false
  | _ => true

/-- From the label `sleep` to the increment after the futex call. -/
def Pc.onSleepingPath : Pc → Bool
  | .sleepXchg => true
  | .loadFutex => true
  | .storeFutex _ => true
  | .futexWait => true
  | .blocked => true
  | .reannounce => true
  | _ => false

/-- In `ladap_lock`, announced, and not on the sleeping path. -/
def Pc.counted (pc : Pc) : Bool :=
  pc.inLock && !pc.onSleepingPath && decide (pc ≠ .announce)

/-- About to decrement `contention`. -/
def Pc.decrements : Pc → Bool
  | .withdraw => true
  | .leave => true
  | _ => false

/-- What the counter should be: the number of the counted threads, never decremented at 0,
    and 0 when nobody is in `ladap_lock`. -/
structure Balanced [Fintype Tid] (c : Conf Tid (Shared Tid) Pc) : Prop where
  count : c.sh.contention.toNat = c.count (fun pc => pc.counted = true)
  noUnderflow : ∀ t, (c.loc t).decrements = true → c.sh.contention ≠ 0
  empty : (∀ t, (c.loc t).inLock = false) → c.sh.contention = 0

/-- The thread does not fall out of the spin loop into the sleeping section, its first
    exchange of the sleeping section finds the lock taken, and no increment wraps. -/
def Keeps (sh : Shared Tid) : Pc → Prop
  | .announce => sh.contention ≠ BitVec.allOnes 32
  | .reannounce => sh.contention ≠ BitVec.allOnes 32
  | .spinLocked i => sh.word.locked = 0 ∨ i < spinTriesLockMax
  | .spinXchg i => sh.word.locked = 0 ∨ i < spinTriesLockMax
  | .sleepXchg => sh.word.u &&& 1 ≠ 0
  | _ => True

instance (sh : Shared Tid) (pc : Pc) : Decidable (Keeps sh pc) := by
  unfold Keeps
  split <;> infer_instance

/-- The step of the run keeps the counter. -/
def kept (c : Conf Tid (Shared Tid) Pc) (t : Tid) (_ : Act Tid) : Prop := Keeps c.sh (c.loc t)

instance (c : Conf Tid (Shared Tid) Pc) (t : Tid) (a : Act Tid) : Decidable (kept c t a) :=
  inferInstanceAs (Decidable (Keeps _ _))

/-! ## What a step does to the counter -/

/-- The counter changes as the counted threads do. -/
inductive Effect (n n' : BitVec 32) (counted counted' : Bool) : Prop where
  | same : n' = n → counted' = counted → Effect n n' counted counted'
  | up : n' = n + 1 → n ≠ BitVec.allOnes 32 → counted = false → counted' = true →
      Effect n n' counted counted'
  | down : n' = n - 1 → counted = true → counted' = false → Effect n n' counted counted'

/-- One of the steps that miss the counter. -/
inductive Miss (n n' : BitVec 32) (counted counted' : Bool) : Prop where
  | wrap : n = BitVec.allOnes 32 → n' = 0 → counted' = true → Miss n n' counted counted'
  /-- Out of the spin loop, or past the first exchange of the sleeping section. -/
  | silent : n' = n → counted' ≠ counted → Miss n n' counted counted'

theorem spinFrom_counted (i : Nat) : (spinFrom i).counted = decide (i ≤ spinTriesLockMax) := by
  unfold spinFrom
  split <;> rename_i hi
  · rw [decide_eq_true hi]
    rfl
  · rw [decide_eq_false hi]
    rfl

theorem recheckFrom_counted (i : Nat) : (recheckFrom i).counted = false := by
  unfold recheckFrom
  split <;> rfl

variable {sh : Shared Tid} {pc : Pc}

/-- What a step of a thread does to the counter. -/
def Steps (sh : Shared Tid) (pc : Pc) (r : Shared Tid × Pc) : Prop :=
  Keeps sh pc ∧ Effect sh.contention r.1.contention pc.counted r.2.counted ∨
    ¬ Keeps sh pc ∧ Miss sh.contention r.1.contention pc.counted r.2.counted

/-- A step that leaves the counter alone. -/
theorem Steps.still {pc' : Pc} {sh' : Shared Tid} (hsh : sh'.contention = sh.contention)
    (h : Keeps sh pc ↔ pc'.counted = pc.counted) : Steps sh pc (sh', pc') := by
  by_cases hpc : pc'.counted = pc.counted
  · exact Or.inl ⟨h.mpr hpc, .same hsh hpc⟩
  · exact Or.inr ⟨mt h.mp hpc, .silent hsh hpc⟩

/-- An increment by a thread that goes to a counted place. -/
theorem Steps.inc {pc' : Pc} (h : Keeps sh pc ↔ sh.contention ≠ BitVec.allOnes 32)
    (hpc : pc.counted = false) (hpc' : pc'.counted = true) :
    Steps sh pc ({ sh with contention := sh.contention + 1 }, pc') := by
  by_cases hwrap : sh.contention = BitVec.allOnes 32
  · exact Or.inr ⟨fun hk => h.mp hk hwrap, .wrap hwrap (by rw [hwrap]; rfl) hpc'⟩
  · exact Or.inl ⟨h.mpr hwrap, .up rfl hwrap hpc hpc'⟩

/-- Where a failed try goes. -/
theorem try_counted {locked : UInt8} {pc₁ : Pc} {i : Nat} (h₁ : pc₁.counted = true) :
    (if locked = 0 then pc₁ else spinFrom i).counted = true ↔
      locked = 0 ∨ i ≤ spinTriesLockMax := by
  split <;> rename_i hlocked
  · exact iff_of_true h₁ (Or.inl hlocked)
  · rw [spinFrom_counted, decide_eq_true_iff, or_iff_right hlocked]

/-- A thread that tries for the first time after an announcement. -/
theorem first_counted {locked : UInt8} {pc₁ : Pc} (h₁ : pc₁.counted = true) :
    (if locked = 0 then pc₁ else spinFrom 1).counted = true :=
  (try_counted h₁).mpr (Or.inr (by decide))

variable [DecidableEq Tid] {contentionMax : Nat} {t : Tid} {a : Act Tid} {r : Shared Tid × Pc}

/-- The steps of `ladap_lock` leave nothing to choose but a spurious return. -/
theorem ladapLock_act (hs : ladapLock contentionMax t sh pc a = some r) :
    a = .go ∨ pc = .blocked ∧ a = .spurious := by
  cases a with
  | go => exact Or.inl rfl
  | spurious =>
      cases pc with
      | blocked => exact Or.inr ⟨rfl, rfl⟩
      | _ => cases hs
  | _ => cases pc <;> cases hs

/-- **Every step of `ladap_lock`.** -/
theorem ladapLock_steps (hs : ladapLock contentionMax t sh pc a = some r) : Steps sh pc r := by
  obtain rfl | ⟨rfl, rfl⟩ := ladapLock_act hs
  · cases pc with
    | announce =>
        obtain rfl := Option.some.inj hs
        exact .inc Iff.rfl rfl (by split <;> rfl)
    | reannounce =>
        obtain rfl := Option.some.inj hs
        exact .inc Iff.rfl rfl rfl
    | withdraw | leave =>
        obtain rfl := Option.some.inj hs
        exact Or.inl ⟨trivial, .down rfl rfl rfl⟩
    | tryLocked | tryXchg =>
        obtain rfl := Option.some.inj hs
        exact .still rfl (iff_of_true trivial (first_counted rfl))
    | spinLocked i | spinXchg i =>
        obtain rfl := Option.some.inj hs
        exact .still rfl (try_counted rfl).symm
    | loadSpinAcq | storeSpinAcq _ | loadFutex | storeFutex _ | reloadFutex | restoreFutex _ =>
        obtain rfl := Option.some.inj hs
        exact .still rfl (iff_of_true trivial rfl)
    | sleepXchg =>
        obtain rfl := Option.some.inj hs
        refine .still rfl ?_
        show sh.word.u &&& 1 ≠ 0 ↔ _
        split <;> rename_i htaken
        · exact iff_of_true htaken rfl
        · exact iff_of_false htaken nofun
    | futexWait =>
        simp only [ladapLock] at hs
        split at hs
        · obtain rfl := Option.some.inj hs
          exact .still rfl (iff_of_true trivial rfl)
        · obtain rfl := Option.some.inj hs
          exact .still rfl (iff_of_true trivial rfl)
    | blocked =>
        obtain ⟨-, hr⟩ := Option.ite_none_left_eq_some.mp hs
        obtain rfl := Option.some.inj hr
        exact .still rfl (iff_of_true trivial rfl)
    | wakeXchg =>
        obtain rfl := Option.some.inj hs
        refine .still rfl (iff_of_true trivial ?_)
        split
        · exact spinFrom_counted 1
        · rfl
    | _ => cases hs
  · obtain ⟨-, hr⟩ := Option.ite_none_right_eq_some.mp hs
    obtain rfl := Option.some.inj hr
    exact .still rfl (iff_of_true trivial rfl)

/-- The steps of `ladap_unlock` leave nothing to choose but who is woken. -/
theorem ladapUnlock_act (hs : ladapUnlock sh pc a = some r) :
    a = .go ∨ pc = .wake ∧ ∃ u, a = .wake u := by
  cases a with
  | go => exact Or.inl rfl
  | wake u =>
      cases pc with
      | wake => exact Or.inr ⟨rfl, u, rfl⟩
      | _ => cases hs
  | _ => cases pc <;> cases hs

/-- `ladap_unlock` does not touch the counter, and its caller is not counted. -/
theorem ladapUnlock_steps (hs : ladapUnlock sh pc a = some r) : Steps sh pc r := by
  have hstill : ∀ {pc' : Pc} {sh' : Shared Tid}, pc.counted = false → Keeps sh pc →
      sh'.contention = sh.contention → pc'.counted = false → Steps sh pc (sh', pc') := by
    intro pc' sh' hpc hkeeps hsh hpc'
    exact .still hsh (iff_of_true hkeeps (hpc'.trans hpc.symm))
  obtain rfl | ⟨rfl, u, rfl⟩ := ladapUnlock_act hs
  · cases pc with
    | readWord | readSpinAcq _ | readFutex _ =>
        obtain rfl := Option.some.inj hs
        exact hstill rfl trivial rfl (by split <;> rfl)
    | cas =>
        simp only [ladapUnlock] at hs
        split at hs
        · obtain rfl := Option.some.inj hs
          exact hstill rfl trivial rfl rfl
        · obtain rfl := Option.some.inj hs
          exact hstill rfl trivial rfl rfl
    | clear =>
        obtain rfl := Option.some.inj hs
        exact hstill rfl trivial rfl (recheckFrom_counted 0)
    | recheck i =>
        obtain rfl := Option.some.inj hs
        refine hstill rfl trivial rfl ?_
        split
        · rfl
        · exact recheckFrom_counted (i + 1)
    | resetSpinAcq | clearContended =>
        obtain rfl := Option.some.inj hs
        exact hstill rfl trivial rfl rfl
    | _ => cases hs
  · obtain ⟨q, -, rfl⟩ := Option.map_eq_some_iff.mp hs
    exact hstill rfl trivial rfl rfl

/-- Every step of a thread. -/
theorem prog_steps (hs : prog contentionMax t sh pc a = some r) : Steps sh pc r := by
  have hbody (hbody : (ladapLock contentionMax t sh pc a).orElse
      (fun _ => ladapUnlock sh pc a) = some r) : Steps sh pc r := by
    cases hlock : ladapLock contentionMax t sh pc a with
    | some r' =>
        rw [hlock] at hbody
        obtain rfl := Option.some.inj hbody
        exact ladapLock_steps hlock
    | none =>
        rw [hlock] at hbody
        exact ladapUnlock_steps hbody
  unfold prog at hs
  split at hs
  · obtain rfl := Option.some.inj hs
    exact .still rfl (iff_of_true trivial rfl)
  · obtain rfl := Option.some.inj hs
    exact .still rfl (iff_of_true trivial rfl)
  · exact hbody hs

/-! ## Every run -/

section

variable [Fintype Tid] {c : Conf Tid (Shared Tid) Pc}

omit [DecidableEq Tid] in
/-- The other two properties follow from the count. -/
theorem Balanced.of_count (h : c.sh.contention.toNat = c.count (fun pc => pc.counted = true)) :
    Balanced c where
  count := h
  noUnderflow := by
    intro t hdec hzero
    have hcounted : (c.loc t).counted = true := by
      generalize c.loc t = pc at hdec
      cases pc <;> first | rfl | cases hdec
    have hpos := count_pos (P := fun pc => Pc.counted pc = true) hcounted
    rw [hzero] at h
    exact hpos.ne h
  empty := by
    intro hempty
    have hnobody : c.count (fun pc => pc.counted = true) = 0 := by
      refine count_eq_zero fun t => ?_
      have := hempty t
      simp [Pc.counted, this]
    exact BitVec.eq_of_toNat_eq (h.trans hnobody)

/-- **A step keeps the balance exactly when it is one of the kept ones.** -/
theorem balanced_put (h : Balanced c) (hs : prog contentionMax t c.sh (c.loc t) a = some r) :
    Balanced (c.put t r) ↔ kept c t a := by
  have hcount := h.count
  have hput := count_put (P := fun pc => Pc.counted pc = true) c t r
  have hlt := c.sh.contention.isLt
  rcases prog_steps hs with ⟨hkeeps, heffect⟩ | ⟨hkeeps, hmiss⟩
  · refine iff_of_true (.of_count ?_) hkeeps
    rw [put_sh]
    cases heffect with
    | same hn hpc =>
        rw [hpc] at hput
        rw [hn]
        omega
    | up hn hwrap hpc hpc' =>
        rw [hpc, hpc', if_neg Bool.false_ne_true, if_pos rfl] at hput
        have hmax : c.sh.contention.toNat ≠ 2 ^ 32 - 1 :=
          fun heq => hwrap (BitVec.eq_of_toNat_eq heq)
        rw [hn, BitVec.toNat_add, Nat.mod_eq_of_lt]
        · exact (congrArg (· + 1) hcount).trans hput.symm
        · show c.sh.contention.toNat + 1 < 2 ^ 32
          omega
    | down hn hpc hpc' =>
        rw [hpc, hpc', if_neg Bool.false_ne_true, if_pos rfl] at hput
        have hle : (1 : BitVec 32) ≤ c.sh.contention := by
          show 1 ≤ c.sh.contention.toNat
          omega
        rw [hn, BitVec.toNat_sub_of_le hle]
        show c.sh.contention.toNat - 1 = _
        omega
  · refine iff_of_false (fun hbal => ?_) hkeeps
    have hcount' := hbal.count
    rw [put_sh] at hcount'
    cases hmiss with
    | wrap _ hn hpc' =>
        have hpos := count_pos (P := fun pc => Pc.counted pc = true) (c := c.put t r) (t := t)
          (by rwa [put_loc_self])
        rw [hn] at hcount'
        exact hpos.ne hcount'
    | silent hn hpc =>
        rw [hn, hcount] at hcount'
        rw [← hcount', Nat.add_left_cancel_iff] at hput
        refine hpc ?_
        cases hb : (c.loc t).counted <;> cases hb' : r.2.counted
        · rfl
        · rw [hb, hb'] at hput
          cases hput
        · rw [hb, hb'] at hput
          cases hput
        · rfl

omit [DecidableEq Tid] in
/-- Before the first call. -/
theorem Init.balanced (h : Init c) : Balanced c := by
  refine .of_count ?_
  rw [h.contention]
  refine (count_eq_zero fun t => ?_).symm
  rw [h.outside t]
  exact Bool.false_ne_true

/-- **The contention counter**, for any number of threads and any `LADAP_CONTENTION_MAX`:
    in a run of kept steps it is the number of the counted threads, is never decremented
    at 0, and is 0 when nobody is in `ladap_lock`; and the first step of another kind ends
    this. -/
theorem ladapLock_balanced (hc : Reach (prog contentionMax) kept Init c) :
    Balanced c ∧ ∀ t a r, prog contentionMax t c.sh (c.loc t) a = some r →
      (Balanced (c.put t r) ↔ kept c t a) := by
  have hbal : Balanced c :=
    hc.invariant (fun _ h0 => h0.balanced) fun _ _ _ _ h hok hs => (balanced_put h hs).mpr hok
  exact ⟨hbal, fun _ _ _ hs => balanced_put hbal hs⟩

end

/-- Six threads at a free lock. -/
def start : Conf (Fin 6) (Shared (Fin 6)) Pc := ⟨⟨⟨0, 0⟩, 0, 0, 0, []⟩, fun _ => .outside⟩

theorem start_init : Init start := by constructor <;> simp [start]

/-- Five threads announce themselves, and thread 0 takes the lock.  Thread 5 is sent to sleep.
    The unlock of thread 0 sees nobody take the lock, and wakes thread 5, which takes it. -/
def throughSleep : List (Fin 6 × Act (Fin 6)) :=
  ([0, 1, 2, 3, 4].flatMap fun t => [(t, .lock), (t, .go)])
    ++ List.replicate 2 (0, .go)
    ++ (5, .lock) :: List.replicate 6 (5, .go)
    ++ List.replicate 3 (0, .go)
    ++ (0, .unlock) :: List.replicate (2 + spinTriesUnlockMax + 1) (0, .go)
    ++ (0, .wake (some 5)) :: List.replicate 5 (5, .go)

theorem ladapLock_balanced_throughSleep : ∃ c : Conf (Fin 6) (Shared (Fin 6)) Pc,
    exec (prog 4) kept start throughSleep = some c ∧ c.loc 5 = .leave ∧ c.sh.word.u = 257 ∧
      c.sh.contention = 5 ∧ Balanced c := by
  have hexec : (exec (prog 4) kept start throughSleep).map
      (fun c => (c.loc 5, c.sh.word.u, c.sh.contention)) = some (.leave, 257, 5) := by
    decide +kernel
  obtain ⟨c, hc, heq⟩ := Option.map_eq_some_iff.mp hexec
  obtain ⟨hloc, heq⟩ := Prod.mk.inj heq
  obtain ⟨hword, hcont⟩ := Prod.mk.inj heq
  exact ⟨c, hc, hloc, hword, hcont, (ladapLock_balanced (reach_of_exec start_init hc)).1⟩

/-- Thread `t` unlocks, and finds that thread `u` has the lock; `u` leaves `ladap_lock`. -/
def handOver (t u : Fin 6) : List (Fin 6 × Act (Fin 6)) :=
  [(t, .unlock), (t, .go), (t, .go), (u, .go), (u, .go), (t, .go), (t, .go), (u, .go), (u, .go),
    (u, .go)]

/-- Five threads announce themselves.  The sixth is sent to sleep, finds the lock free, and
    takes itself off twice.  Then the five get the lock, one after the other. -/
def sentToSleep : List (Fin 6 × Act (Fin 6)) :=
  ([0, 1, 2, 3, 4].flatMap fun t => [(t, .lock), (t, .go)])
    ++ (5, .lock) :: List.replicate 4 (5, .go)
    ++ handOver 5 0 ++ handOver 0 1 ++ handOver 1 2 ++ handOver 2 3 ++ handOver 3 4

/-- **The counter misses**, with the `LADAP_CONTENTION_MAX` of the source: in the end nobody
    is in `ladap_lock`, and `contention` has been decremented at 0. -/
theorem ladapLock_unbalanced : ∃ c : Conf (Fin 6) (Shared (Fin 6)) Pc,
    Reach (prog 4) always Init c ∧ (∀ t, c.loc t = .outside) ∧
      c.sh.contention = BitVec.allOnes 32 ∧ ¬ Balanced c := by
  obtain ⟨c, hc, hout, hwrap⟩ : ∃ c : Conf (Fin 6) (Shared (Fin 6)) Pc,
      exec (prog 4) always start sentToSleep = some c ∧ (∀ t, c.loc t = .outside) ∧
        c.sh.contention = BitVec.allOnes 32 := ⟨_, rfl, by decide, rfl⟩
  refine ⟨c, reach_of_exec start_init hc, hout, hwrap, fun hbal => ?_⟩
  have hzero := hbal.empty fun t => by rw [hout t]; rfl
  rw [hwrap] at hzero
  exact absurd hzero (by decide)

end Ladap5In
