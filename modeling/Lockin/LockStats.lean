import Lockin.LockProf

/-! # The statistics of the lock profiler

    `lock_prof_in.h` with its statistics one load and one store per step, as no reader of
    them has the lock: a lock call prints them, divided by `head` and by `n_lat`, as soon as
    it has its ticket.

    `head` is 0 while ticket 0 is served, after the counters have wrapped round.  `n_lat` is
    counted by lock calls only, and only when they get the lock with a ticket that is a
    multiple of 1024: it may still be 0 when the first of the tickets that print is taken.
    The unlocks that have incremented `head` and the lock calls that have counted themselves
    in `n_lat` are kept as history, with what the last of each has found. -/

namespace LockStats

open Interleaving

open LockProf (latncEvery afterPrint)

variable {Tid : Type}

/-- The increments of the two divisors so far. -/
structure Past where
  /-- What the last unlock that has incremented `head` found in it. -/
  lastUnlock : Option (BitVec 32)
  /-- The number of unlocks that have incremented `head`. -/
  unlocks : Nat
  /-- What the last lock call that has incremented `n_lat` found in it. -/
  lastCount : Option (BitVec 64)
  /-- The number of lock calls that have incremented `n_lat`. -/
  counts : Nat

/-- A `lock_prof_lock_t`, and its history. -/
structure Shared extends prof : LockProf.Shared where
  past : Past

/-- Where a thread is: at a step of `LockProf`, or between the loads and stores that are one
    step there. -/
inductive Pc where
  | base (pc : LockProf.Pc)
  /-- `n_acq` has been read. -/
  | divide (ticket : BitVec 32) (nAcq : BitVec 32)
  /-- The integer division by 0 has ended the program. -/
  | fault
  | endLat (spins : BitVec 64)
  | loadTLat (spins l : BitVec 64)
  | storeTLat (spins tLat : BitVec 64)
  | loadNLat (spins : BitVec 64)
  | storeNLat (spins nLat : BitVec 64)
  | loadNSpins (spins : BitVec 64)
  | storeNSpins (nSpins : BitVec 64)
  deriving DecidableEq

/-- What happens in the step of `LockProf`, and to the history. -/
def Shared.update (sh : Shared) (pc : LockProf.Pc) (sh' : LockProf.Shared) : Shared :=
  match pc with
  | .guard (.base (.storeHead head)) =>
      ⟨sh', { sh.past with lastUnlock := some head, unlocks := sh.past.unlocks + 1 }⟩
  | _ => ⟨sh', sh.past⟩

/-- The branch of `lock_prof_lock_lock` that prints.  The arguments of `printf` are computed
    in one step: `n_acq` is a local variable, and `n_lat` is read once. -/
def printStats (sh : Shared) : Pc → Option (Shared × Pc)
  | .base (.print ticket) => some (sh, .divide ticket sh.head)
  | .divide ticket nAcq =>
      some (sh, if nAcq = 0 ∨ sh.nLat = 0 then .fault else .base (afterPrint ticket))
  | _ => none

/-- `__lock_prof_lock_lock`, once the ticket is served. -/
def lockGranted (ticks : BitVec 64) (sh : Shared) : Pc → Option (Shared × Pc)
  | .endLat spins => some (sh, .loadTLat spins (ticks - sh.sLat))
  | .loadTLat spins l => some (sh, .storeTLat spins (sh.tLat + l))
  | .storeTLat spins tLat => some ({ sh with tLat := tLat }, .loadNLat spins)
  | .loadNLat spins => some (sh, .storeNLat spins sh.nLat)
  | .storeNLat spins nLat =>
      some (⟨{ sh.prof with nLat := nLat + 1 },
        { sh.past with lastCount := some nLat, counts := sh.past.counts + 1 }⟩, .loadNSpins spins)
  | .loadNSpins spins => some (sh, .storeNSpins (sh.nSpins + spins))
  | .storeNSpins nSpins => some ({ sh with nSpins := nSpins }, .base (.guard (.base .critical)))
  | _ => none

/-- Any other step is one of `LockProf`. -/
def same (t : Tid) (a : LockProf.Act) (sh : Shared) (pc : LockProf.Pc) : Option (Shared × Pc) :=
  (LockProf.prog t sh.prof pc a).map fun r => (sh.update pc r.1, .base r.2)

/-- One step of a thread. -/
def prog : Prog Tid Shared Pc LockProf.Act := fun t sh pc a =>
  match pc, a with
  | .base (.print ticket), .go _ => printStats sh (.base (.print ticket))
  | .divide ticket nAcq, .go _ => printStats sh (.divide ticket nAcq)
  | .base (.readHead ticket spins once), .go ticks =>
      if ticket - sh.head = 0 then
        some (sh, if ticket &&& latncEvery = 0 then .endLat spins else .loadNSpins spins)
      else same t (.go ticks) sh (.readHead ticket spins once)
  | .base pc, a => same t a sh pc
  | pc, .go ticks => lockGranted ticks sh pc
  | _, _ => none

/-- `lock_prof_lock_init` sets the counters; the statistics are what they were. -/
structure Init (c : Conf Tid Shared Pc) : Prop where
  head : c.sh.head = 1
  tail : c.sh.tail = 0
  issued : c.sh.issued = 0
  past : c.sh.past = ⟨none, 0, none, 0⟩
  idle : ∀ t, c.loc t = .base (.guard (.base .idle))

/-- The last unlock that has incremented `head` found the last ticket before the wrap in it:
    it is ticket 0 that is served. -/
def Shared.servesZero (sh : Shared) : Prop := sh.past.lastUnlock = some 4294967295

/-- A lock call with a ticket that is a multiple of 1024 has got the lock and is counted, and
    the last such count has not wrapped round.  `nLat` is the initial value of `n_lat`. -/
def Shared.counted (nLat : BitVec 64) (sh : Shared) : Prop :=
  match sh.past.lastCount with
  | none => nLat ≠ 0
  | some n => n ≠ 18446744073709551615

/-- What the last increments have left. -/
structure Divisors (nLat : BitVec 64) (sh : Shared) : Prop where
  head : sh.head = match sh.past.lastUnlock with
    | none => 1
    | some head => head + 1
  nLat : sh.nLat = match sh.past.lastCount with
    | none => nLat
    | some n => n + 1

namespace Divisors

variable {nLat : BitVec 64} {sh : Shared}

/-- `head` is 0 if and only if the last unlock has released the last ticket before the wrap. -/
theorem head_eq_zero (h : Divisors nLat sh) : sh.head = 0 ↔ sh.servesZero := by
  rw [h.head]
  unfold Shared.servesZero
  cases sh.past.lastUnlock with
  | none => decide
  | some head =>
      rw [Option.some.injEq]
      dsimp only
      constructor <;> intro heq <;> bv_omega

/-- `n_lat` is not 0 if and only if a lock call has been counted. -/
theorem nLat_ne_zero (h : Divisors nLat sh) : sh.nLat ≠ 0 ↔ sh.counted nLat := by
  rw [h.nLat]
  unfold Shared.counted
  cases sh.past.lastCount with
  | none => exact Iff.rfl
  | some n =>
      dsimp only
      constructor <;> intro hne heq <;> apply hne <;> bv_omega

end Divisors

/-- The divisors of the thread's next step are not 0. -/
def Divides (c : Conf Tid Shared Pc) (t : Tid) : Prop :=
  match c.loc t with
  | .base (.print _) => c.sh.head ≠ 0
  | .divide _ nAcq => nAcq ≠ 0 ∧ c.sh.nLat ≠ 0
  | .fault => False
  | _ => True

/-- The thread does not print while ticket 0 is served, nor before a lock call is counted. -/
def sound (nLat : BitVec 64) (c : Conf Tid Shared Pc) (t : Tid) (_ : LockProf.Act) : Prop :=
  match c.loc t with
  | .base (.print _) => ¬ c.sh.servesZero
  | .divide _ _ => c.sh.counted nLat
  | _ => True

/-- The lock's part: the statistics are a part of waiting, or of the critical section. -/
def Pc.ticketGuard : Pc → TicketGuard.Pc
  | .base pc => pc.ticketGuard
  | .divide ticket _ => .base (.readHead ticket)
  | .fault => .base .idle
  | _ => .base .critical

/-- The lock without its statistics. -/
def guardView (c : Conf Tid Shared Pc) : Conf Tid TicketIn.Shared TicketGuard.Pc :=
  c.view (fun sh => sh.prof.toShared) fun _ pc => pc.ticketGuard

/-- The trylocks keep to their condition, and no unlock finds the counters on both sides of
    the wrap. -/
def unwrapped (c : Conf Tid Shared Pc) (t : Tid) (_ : LockProf.Act) : Prop :=
  TicketGuard.unwrapped (guardView c) t .go

/-- As `sound`, by the number of unlocks and the number of lock calls that were counted: the
    thread does not print after 2 ^ 32 - 1 unlocks (or 2 ^ 32 more, and so on), nor before a
    lock call is counted. -/
def counting (nLat : BitVec 64) (c : Conf Tid Shared Pc) (t : Tid) (_ : LockProf.Act) : Prop :=
  match c.loc t with
  | .base (.print _) => (c.sh.past.unlocks + 1) % 2 ^ 32 ≠ 0
  | .divide _ _ => (nLat.toNat + c.sh.past.counts) % 2 ^ 64 ≠ 0
  | _ => True

/-- A thread that prints has not read 0. -/
def Pc.Fine : Pc → Prop
  | .divide _ nAcq => nAcq ≠ 0
  | .fault => False
  | _ => True

structure Fine (nLat : BitVec 64) (c : Conf Tid Shared Pc) : Prop where
  divisors : Divisors nLat c.sh
  pc : ∀ t, (c.loc t).Fine

/-- Before the first call. -/
theorem Init.fine {c : Conf Tid Shared Pc} (h : Init c) : Fine c.sh.nLat c where
  divisors := ⟨by rw [h.past]; exact h.head, by rw [h.past]⟩
  pc := by
    intro t
    rw [h.idle t]
    trivial

/-- A step of the guarded ticket lock changes `head` at the end of an unlock only. -/
theorem guard_head {t : Tid} {a : TicketIn.Act} {sh : TicketIn.Shared} {pc : TicketGuard.Pc}
    {r : TicketIn.Shared × TicketGuard.Pc} (hs : TicketGuard.prog t sh pc a = some r) :
    r.1.head = sh.head ∧ (∀ head, pc ≠ .base (.storeHead head)) ∨
      ∃ head, pc = .base (.storeHead head) ∧ r.1.head = head + 1 := by
  rcases TicketGuard.prog_cases (c := ⟨sh, fun _ => pc⟩) hs with
    ⟨pc', r', hpc, hs', rfl⟩ | ⟨hpc, rfl⟩ | ⟨hpc, rfl⟩ | ⟨tail, hpc, rfl⟩ <;>
    obtain rfl : pc = _ := hpc
  · by_cases hstore : ∃ head, pc' = .storeHead head
    · obtain ⟨head, rfl⟩ := hstore
      right
      refine ⟨head, rfl, ?_⟩
      cases a <;> cases hs'
      rfl
    · left
      refine ⟨(TicketGuard.ticketIn_head hs').resolve_right hstore, fun head heq => hstore ?_⟩
      exact ⟨head, TicketGuard.Pc.base.inj heq⟩
  · exact Or.inl ⟨rfl, nofun⟩
  · exact Or.inl ⟨rfl, nofun⟩
  · exact Or.inl ⟨rfl, nofun⟩

@[simp] theorem update_prof (sh : Shared) (pc : LockProf.Pc) (sh' : LockProf.Shared) :
    (sh.update pc sh').prof = sh' := by
  unfold Shared.update
  split <;> rfl

/-- Only the end of an unlock is counted. -/
theorem update_past {sh : Shared} {pc : LockProf.Pc} (sh' : LockProf.Shared)
    (hpc : ∀ head, pc ≠ .guard (.base (.storeHead head))) : (sh.update pc sh').past = sh.past := by
  unfold Shared.update
  split
  · next head => exact absurd rfl (hpc head)
  · rfl

/-- **What a step that is one of `LockProf` does to the divisors**: the end of an unlock
    increments `head` and is counted, any other one leaves both alone. -/
theorem same_cases {t : Tid} {a : LockProf.Act} {sh : Shared} {pc : LockProf.Pc} {r : Shared × Pc}
    (hread : ∀ ticket spins once, pc = .readHead ticket spins once → ticket - sh.head ≠ 0)
    (hs : same t a sh pc = some r) : (∃ pc', r.2 = .base pc') ∧ r.1.nLat = sh.nLat ∧
      (r.1.head = sh.head ∧ r.1.past = sh.past ∨
        ∃ head, pc = .guard (.base (.storeHead head)) ∧ r.1.head = head + 1 ∧
          r.1.past = { sh.past with lastUnlock := some head, unlocks := sh.past.unlocks + 1 }) := by
  obtain ⟨r', hr', rfl⟩ := Option.map_eq_some_iff.mp hs
  refine ⟨⟨_, rfl⟩, ?_⟩
  show (sh.update pc r'.1).prof.nLat = _ ∧ ((sh.update pc r'.1).prof.head = _ ∧ _ ∨ _)
  rcases LockProf.prog_cases (c := ⟨sh.prof, fun _ => pc⟩) hr' with
    ⟨pc', a', q, hpc, hq, rfl⟩ | ⟨hpc, rfl⟩ | ⟨hnot, ticks, hlock⟩
  · obtain rfl : pc = _ := hpc
    rw [update_prof]
    refine ⟨rfl, ?_⟩
    rcases guard_head hq with ⟨hhead, hne⟩ | ⟨head, rfl, hhead⟩
    · refine Or.inl ⟨hhead, update_past _ fun head heq => ?_⟩
      exact hne head (LockProf.Pc.guard.inj heq)
    · exact Or.inr ⟨head, rfl, hhead, rfl⟩
  · obtain rfl : pc = _ := hpc
    exact ⟨rfl, Or.inl ⟨rfl, rfl⟩⟩
  · -- the lock call changes neither
    change LockProf.lockProfLockLock ticks sh.prof pc = some r' at hlock
    have hpast : (sh.update pc r'.1).past = sh.past :=
      update_past _ fun head heq => hnot _ heq
    rw [update_prof, hpast]
    suffices hkeep : r'.1.nLat = sh.nLat ∧ r'.1.head = sh.head from
      ⟨hkeep.1, Or.inl ⟨hkeep.2, rfl⟩⟩
    cases pc with
    | guard pc' => exact absurd rfl (hnot pc')
    | print ticket =>
        obtain ⟨-, hr⟩ := Option.ite_none_left_eq_some.mp hlock
        obtain rfl := Option.some.inj hr
        exact ⟨rfl, rfl⟩
    | readHead ticket spins once =>
        rw [LockProf.lockProfLockLock, if_neg (hread ticket spins once rfl)] at hlock
        obtain rfl := Option.some.inj hlock
        exact ⟨rfl, rfl⟩
    | _ =>
        obtain rfl := Option.some.inj hlock
        exact ⟨rfl, rfl⟩

/-- A step that is one of `LockProf` keeps the divisors. -/
theorem Divisors.same {nLat : BitVec 64} {t : Tid} {a : LockProf.Act} {sh : Shared}
    {pc : LockProf.Pc} {r : Shared × Pc} (h : Divisors nLat sh)
    (hread : ∀ ticket spins once, pc = .readHead ticket spins once → ticket - sh.head ≠ 0)
    (hs : LockStats.same t a sh pc = some r) : Divisors nLat r.1 ∧ r.2.Fine := by
  obtain ⟨⟨pc', hpc'⟩, hlat, ⟨hhead, hpast⟩ | ⟨head, -, hhead, hpast⟩⟩ := same_cases hread hs
  · refine ⟨⟨?_, ?_⟩, hpc' ▸ trivial⟩
    · rw [hpast, hhead]
      exact h.head
    · rw [hpast, hlat]
      exact h.nLat
  · refine ⟨⟨?_, ?_⟩, hpc' ▸ trivial⟩
    · rw [hpast, hhead]
    · rw [hpast, hlat]
      exact h.nLat

variable [DecidableEq Tid]

namespace Fine

variable {nLat : BitVec 64} {c : Conf Tid Shared Pc} {t : Tid}

omit [DecidableEq Tid] in
/-- **The condition is exact**: the divisors are not 0 if and only if the step is `sound`. -/
theorem divides_iff (h : Fine nLat c) (a : LockProf.Act) : Divides c t ↔ sound nLat c t a := by
  have hpc := h.pc t
  unfold Divides sound
  generalize c.loc t = pc at hpc
  cases pc with
  | base pc =>
      cases pc with
      | print ticket => exact not_congr h.divisors.head_eq_zero
      | _ => exact Iff.rfl
  | divide ticket nAcq => exact (and_iff_right hpc).trans h.divisors.nLat_ne_zero
  | fault => exact hpc.elim
  | _ => exact Iff.rfl

/-- What the steps have in common. -/
theorem put (h : Fine nLat c) {r : Shared × Pc} (hr : Divisors nLat r.1 ∧ r.2.Fine) :
    Fine nLat (c.put t r) where
  divisors := hr.1
  pc := by
    intro u
    rw [put_loc]
    split
    · exact hr.2
    · exact h.pc u

/-- **Step lemma.** -/
theorem step (h : Fine nLat c) {a : LockProf.Act} {r : Shared × Pc} (hok : sound nLat c t a)
    (hs : prog t c.sh (c.loc t) a = some r) : Fine nLat (c.put t r) := by
  have hdiv := (h.divides_iff a).mpr hok
  have hkeep := h.divisors
  unfold Divides at hdiv
  refine h.put ?_
  unfold prog at hs
  split at hs <;> rename_i hpc
  · -- `n_acq` is read
    rw [hpc] at hdiv
    obtain rfl := Option.some.inj hs
    exact ⟨hkeep, hdiv⟩
  · -- the divisions
    rw [hpc] at hdiv
    obtain rfl := Option.some.inj hs
    dsimp only
    rw [if_neg (by rintro (hzero | hzero); exacts [hdiv.1 hzero, hdiv.2 hzero])]
    exact ⟨hkeep, trivial⟩
  · split at hs <;> rename_i hd
    · obtain rfl := Option.some.inj hs
      refine ⟨hkeep, ?_⟩
      dsimp only
      split <;> trivial
    · refine hkeep.same (fun ticket spins once heq => ?_) hs
      cases heq
      exact hd
  · rename_i act _ _ pc _ _
    refine hkeep.same (fun ticket spins once heq => ?_) hs
    subst heq
    cases act with
    | go ticks => exact (hpc ticket spins once ticks rfl rfl).elim
    | _ => cases hs
  · -- `__lock_prof_lock_lock`
    rename_i ticks _ _ _ _
    generalize c.loc t = pc at hs
    cases pc with
    | base _ | divide _ _ | fault => cases hs
    | storeNLat spins nLat =>
        obtain rfl := Option.some.inj hs
        exact ⟨⟨hkeep.head, rfl⟩, trivial⟩
    | storeTLat spins tLat | storeNSpins nSpins =>
        obtain rfl := Option.some.inj hs
        exact ⟨⟨hkeep.head, hkeep.nLat⟩, trivial⟩
    | _ =>
        obtain rfl := Option.some.inj hs
        exact ⟨hkeep, trivial⟩
  · cases hs

/-- **Run lemma.** -/
theorem reach {c₀ : Conf Tid Shared Pc} (h0 : Init c₀)
    (hc : Reach prog (sound c₀.sh.nLat) (· = c₀) c) : Fine c₀.sh.nLat c :=
  hc.invariant (fun _ heq => heq ▸ h0.fine) fun _ _ _ _ h hok hs => h.step hok hs

end Fine

/-! ### The divisors are numbers of events -/

omit [DecidableEq Tid] in
/-- Seen from the guarded ticket lock the statistics are not there. -/
theorem follows {c : Conf Tid Shared Pc} {t : Tid} {a : LockProf.Act} {r : Shared × Pc}
    (hfine : r.2.Fine) (hok : unwrapped c t a) (hs : prog t c.sh (c.loc t) a = some r) :
    Follows TicketGuard.prog TicketGuard.unwrapped (guardView c) t
      (r.1.prof.toShared, r.2.ticketGuard) := by
  have hstay : r.1.prof.toShared = c.sh.prof.toShared →
      r.2.ticketGuard = (c.loc t).ticketGuard →
      Follows TicketGuard.prog TicketGuard.unwrapped (guardView c) t
        (r.1.prof.toShared, r.2.ticketGuard) :=
    fun hsh hpc => Or.inl (Prod.ext hsh hpc)
  -- a step of `LockProf` is what it was there; its guarded lock does not see the statistics
  have hsame : ∀ a pc, c.loc t = .base pc → same t a c.sh pc = some r →
      Follows TicketGuard.prog TicketGuard.unwrapped (guardView c) t
        (r.1.prof.toShared, r.2.ticketGuard) := by
    intro a pc hpc hmap
    obtain ⟨r', hr', rfl⟩ := Option.map_eq_some_iff.mp hmap
    rw [update_prof]
    have hview : (guardView c).loc t = pc.ticketGuard := congrArg Pc.ticketGuard hpc
    have hguard : TicketGuard.unwrapped
        (LockProf.guardView (⟨c.sh.prof, fun _ => pc⟩ : Conf Tid _ _)) t .go := by
      obtain ⟨hfew, hpass⟩ := hok
      refine ⟨?_, ?_⟩
      · show pc.ticketGuard.ticketIn.few _ = true
        rw [← hview]
        exact hfew
      · show pc.ticketGuard.passes _ = true
        rw [← hview]
        exact hpass
    refine (LockProf.follows (c := ⟨c.sh.prof, fun _ => pc⟩) hr' hguard).imp ?_ ?_
    · intro heq
      refine heq.trans (Prod.ext rfl ?_)
      exact hview.symm
    · rintro ⟨a', -, hs'⟩
      refine ⟨a', hok, ?_⟩
      rw [hview]
      exact hs'
  unfold prog at hs
  split at hs <;> rename_i hpc
  · -- `n_acq` is read
    obtain rfl := Option.some.inj hs
    exact hstay rfl (by rw [hpc]; rfl)
  · -- the divisions
    obtain rfl := Option.some.inj hs
    refine hstay rfl ?_
    rw [hpc]
    dsimp only at hfine
    split at hfine
    · exact hfine.elim
    · next hne =>
      dsimp only
      rw [if_neg hne]
      unfold LockProf.afterPrint
      split <;> rfl
  · split at hs <;> rename_i hd
    · -- the ticket is served
      obtain rfl := Option.some.inj hs
      refine Or.inr ⟨.go, hok, ?_⟩
      show TicketGuard.prog t c.sh.prof.toShared (c.loc t).ticketGuard .go = _
      rw [hpc]
      show some (c.sh.prof.toShared, _) = _
      rw [if_pos hd]
      dsimp only
      split <;> rfl
    · exact hsame _ _ hpc hs
  · exact hsame _ _ ‹_› hs
  · -- `__lock_prof_lock_lock`
    rename_i ticks _ _ _ _
    cases hl : c.loc t with
    | base _ | divide _ _ | fault => rw [hl] at hs; cases hs
    | _ =>
        rw [hl] at hs
        obtain rfl := Option.some.inj hs
        exact hstay rfl (by rw [hl]; rfl)
  · cases hs

/-- What a run makes of the divisors: `head` is the number of unlocks, `n_lat` the number of
    lock calls that were counted. -/
structure Counted (nLat : BitVec 64) (c : Conf Tid Shared Pc) : Prop where
  fine : Fine nLat c
  view : Reach TicketGuard.prog TicketGuard.unwrapped TicketGuard.Init (guardView c)
  head : c.sh.head = BitVec.ofNat 32 (c.sh.past.unlocks + 1)
  nLat : c.sh.nLat = nLat + BitVec.ofNat 64 c.sh.past.counts
  /-- What is about to be incremented is what is there. -/
  store : ∀ t spins n, c.loc t = .storeNLat spins n → n = c.sh.nLat

namespace Counted

variable {nLat : BitVec 64} {c : Conf Tid Shared Pc} {t : Tid}

/-- Before the first call. -/
theorem init (h : Init c) : Counted c.sh.nLat c where
  fine := h.fine
  view := by
    refine .start ⟨?_, h.issued, fun t => ?_⟩
    · show c.sh.head = c.sh.tail + 1
      rw [h.head, h.tail]
      rfl
    · show (c.loc t).ticketGuard = _
      rw [h.idle t]
      rfl
  head := by
    rw [h.past]
    exact h.head
  nLat := by
    rw [h.past]
    exact (BitVec.add_zero _).symm
  store := by
    intro t spins n ht
    rw [h.idle t] at ht
    cases ht

/-- **The condition by numbers of events is exact.** -/
theorem divides_iff (h : Counted nLat c) (a : LockProf.Act) :
    Divides c t ↔ counting nLat c t a := by
  have hpc := h.fine.pc t
  unfold Divides counting
  generalize c.loc t = pc at hpc
  cases pc with
  | base pc =>
      cases pc with
      | print ticket =>
          show c.sh.head ≠ 0 ↔ _
          rw [h.head, ne_eq, ← BitVec.toNat_inj, BitVec.toNat_ofNat]
          rfl
      | _ => exact Iff.rfl
  | divide ticket nAcq =>
      refine (and_iff_right hpc).trans ?_
      show c.sh.nLat ≠ 0 ↔ _
      rw [h.nLat, ne_eq, ← BitVec.toNat_inj, BitVec.toNat_add, BitVec.toNat_ofNat]
      simp
  | fault => exact hpc.elim
  | _ => exact Iff.rfl

variable [Fintype Tid]

/-- A thread that counts itself has the lock. -/
theorem store_unique (h : Counted nLat c) (hcard : Fintype.card Tid < 2 ^ 32) {u : Tid}
    {spins spins' n n' : BitVec 64} (ht : c.loc t = .storeNLat spins n)
    (hu : c.loc u = .storeNLat spins' n') : t = u := by
  have hholds : ∀ v spins n, c.loc v = .storeNLat spins n →
      TicketGuard.Holds (guardView c) v := by
    intro v spins n hv
    show (c.loc v).ticketGuard.ticketIn.phase = _
    rw [hv]
    rfl
  obtain ⟨hview, -⟩ := TicketGuard.passing_of_reach hcard h.view
  exact TicketGuard.holds_unique hcard hview (hholds t _ _ ht) (hholds u _ _ hu)

omit [Fintype Tid] in
/-- A step that does not count itself in `n_lat`. -/
theorem put (h : Counted nLat c) {r : Shared × Pc} (hfine : Fine nLat (c.put t r))
    (hview : Reach TicketGuard.prog TicketGuard.unwrapped TicketGuard.Init (guardView (c.put t r)))
    (hhead : r.1.head = BitVec.ofNat 32 (r.1.past.unlocks + 1))
    (hlat : r.1.nLat = c.sh.nLat) (hcounts : r.1.past.counts = c.sh.past.counts)
    (hstore : ∀ spins n, r.2 = .storeNLat spins n → n = c.sh.nLat) : Counted nLat (c.put t r) where
  fine := hfine
  view := hview
  head := hhead
  nLat := by
    show r.1.nLat = nLat + BitVec.ofNat 64 r.1.past.counts
    rw [hlat, hcounts]
    exact h.nLat
  store := by
    intro u spins n hu
    show n = r.1.nLat
    rw [hlat]
    by_cases hut : u = t
    · subst hut
      rw [put_loc_self] at hu
      exact hstore spins n hu
    · rw [put_loc_ne c r hut] at hu
      exact h.store u spins n hu

/-- **Step lemma.** -/
theorem step (h : Counted nLat c) (hcard : Fintype.card Tid < 2 ^ 32) {a : LockProf.Act}
    {r : Shared × Pc} (hok : unwrapped c t a ∧ counting nLat c t a)
    (hs : prog t c.sh (c.loc t) a = some r) : Counted nLat (c.put t r) := by
  have hsound := (h.fine.divides_iff a).mp ((h.divides_iff a).mpr hok.2)
  have hfine := h.fine.step hsound hs
  have hr : r.2.Fine := by
    have hpc := hfine.pc t
    rwa [put_loc_self] at hpc
  have hview := h.view.view_put (follows hr hok.1 hs)
  -- of the steps of `LockProf` only the end of an unlock counts
  have hsame : ∀ a pc, c.loc t = .base pc →
      (∀ ticket spins once, pc = .readHead ticket spins once → ticket - c.sh.head ≠ 0) →
      same t a c.sh pc = some r → Counted nLat (c.put t r) := by
    intro a pc hpc hread hmap
    obtain ⟨⟨pc', hpc'⟩, hlat, hcase⟩ := same_cases hread hmap
    have hnot : ∀ spins n, r.2 = .storeNLat spins n → n = c.sh.nLat := by
      intro spins n heq
      rw [hpc'] at heq
      cases heq
    rcases hcase with ⟨hhead, hpast⟩ | ⟨head, rfl, hhead, hpast⟩
    · refine h.put hfine hview ?_ hlat (by rw [hpast]) hnot
      rw [hhead, hpast]
      exact h.head
    · -- `head` is still what the unlock has loaded, as only the holder stores it
      refine h.put hfine hview ?_ hlat (by rw [hpast]) hnot
      obtain ⟨hlock, -⟩ := TicketGuard.passing_of_reach hcard h.view
      have hload : head = c.sh.head :=
        TicketGuard.storeHead_eq hcard hlock (congrArg Pc.ticketGuard hpc)
      rw [hhead, hpast, hload, h.head]
      exact (BitVec.ofNat_add ..).symm
  unfold prog at hs
  split at hs <;> rename_i hpc
  · obtain rfl := Option.some.inj hs
    exact h.put hfine hview h.head rfl rfl (fun _ _ heq => by cases heq)
  · obtain rfl := Option.some.inj hs
    refine h.put hfine hview h.head rfl rfl fun _ _ heq => ?_
    dsimp only at heq
    split at heq <;> cases heq
  · split at hs <;> rename_i hd
    · obtain rfl := Option.some.inj hs
      refine h.put hfine hview h.head rfl rfl fun _ _ heq => ?_
      dsimp only at heq
      split at heq <;> cases heq
    · refine hsame _ _ hpc (fun ticket spins once heq => ?_) hs
      cases heq
      exact hd
  · rename_i act _ _ pc hl _
    refine hsame _ _ hl (fun ticket spins once heq => ?_) hs
    subst heq
    cases act with
    | go ticks => exact (hpc ticket spins once ticks rfl rfl).elim
    | _ => cases hs
  · -- `__lock_prof_lock_lock`
    rename_i ticks _ _ _ _
    cases hl : c.loc t with
    | base _ | divide _ _ | fault => rw [hl] at hs; cases hs
    | storeNLat spins n =>
        have hn := h.store t spins n hl
        rw [hl] at hs
        obtain rfl := Option.some.inj hs
        refine ⟨hfine, hview, h.head, ?_, ?_⟩
        · show n + 1 = nLat + BitVec.ofNat 64 (c.sh.past.counts + 1)
          rw [hn, h.nLat, BitVec.ofNat_add, BitVec.add_assoc]
          rfl
        · -- nobody else has the lock, so nobody else is about to count itself
          intro u spins' n' hu
          by_cases hut : u = t
          · subst hut
            rw [put_loc_self] at hu
            cases hu
          · rw [put_loc_ne c _ hut] at hu
            exact absurd (h.store_unique hcard hu hl) hut
    | loadNLat spins =>
        rw [hl] at hs
        obtain rfl := Option.some.inj hs
        refine h.put hfine hview h.head rfl rfl fun _ _ heq => ?_
        cases heq
        rfl
    | _ =>
        rw [hl] at hs
        obtain rfl := Option.some.inj hs
        exact h.put hfine hview h.head rfl rfl (fun _ _ heq => by cases heq)
  · cases hs

/-- **Run lemma.** -/
theorem reach (hcard : Fintype.card Tid < 2 ^ 32) {c₀ : Conf Tid Shared Pc} (h0 : Init c₀)
    (hc : Reach prog (fun c t a => unwrapped c t a ∧ counting c₀.sh.nLat c t a) (· = c₀) c) :
    Counted c₀.sh.nLat c :=
  hc.invariant (by rintro _ rfl; exact .init h0) fun _ _ _ _ h hok hs => h.step hcard hok hs

end Counted

/-- **The divisors of the statistics**, for any number of threads and calls: in a run that has
    been `sound` so far, the divisors of a thread's next step are nonzero if and only if that
    step is `sound`; and no thread has divided by 0.  As long as the lock works, the same
    holds by the numbers of unlocks and of counted lock calls. -/
theorem lockProfLockLock_divides {c₀ c : Conf Tid Shared Pc} (h0 : Init c₀) :
    (Reach prog (sound c₀.sh.nLat) (· = c₀) c → ∀ t a,
      (Divides c t ↔ sound c₀.sh.nLat c t a) ∧ c.loc t ≠ .fault) ∧
    ∀ [Fintype Tid], Fintype.card Tid < 2 ^ 31 →
      Reach prog (fun c t a => unwrapped c t a ∧ counting c₀.sh.nLat c t a) (· = c₀) c → ∀ t a,
      (Divides c t ↔ counting c₀.sh.nLat c t a) ∧ c.loc t ≠ .fault := by
  have hfault : ∀ {t}, (c.loc t).Fine → c.loc t ≠ .fault := by
    intro t hpc heq
    rw [heq] at hpc
    exact hpc
  constructor
  · intro hc t a
    have h := Fine.reach h0 hc
    exact ⟨h.divides_iff a, hfault (h.pc t)⟩
  · intro _ hcard hc t a
    have h := Counted.reach (by omega) h0 hc
    exact ⟨h.divides_iff a, hfault (h.fine.pc t)⟩

/-! ### A thread that is alone -/

/-- One thread. -/
def alone (sh : Shared) (pc : Pc) : Conf Unit Shared Pc := ⟨sh, fun _ => pc⟩

section

variable {ok : Conf Unit Shared Pc → Unit → LockProf.Act → Prop}
  {init : Conf Unit Shared Pc → Prop} {sh sh' : Shared} {pc pc' : Pc}

/-- One more step of the thread. -/
theorem reach_alone (h : Reach prog ok init (alone sh pc)) (a : LockProf.Act)
    (hok : ok (alone sh pc) () a) (hs : prog () sh pc a = some (sh', pc')) :
    Reach prog ok init (alone sh' pc') := by
  have hput : (alone sh pc).put () (sh', pc') = alone sh' pc' :=
    congrArg (Conf.mk sh') (Function.update_eq_const_of_subsingleton () pc' fun _ => pc)
  exact hput ▸ h.step hok hs

/-- The lock is free, and `n` tickets have been taken. -/
def taken (prof : LockProf.Shared) (n : Nat) (past : Past) : Shared := ⟨prof.taken n, past⟩

/-- The thread has the lock, with the last ticket. -/
def held (prof : LockProf.Shared) (n : Nat) (past : Past) : Shared :=
  ⟨{ prof with head := BitVec.ofNat 32 n, tail := BitVec.ofNat 32 n, issued := n }, past⟩

/-- Every condition on the steps. -/
def strict (nLat : BitVec 64) (c : Conf Unit Shared Pc) (t : Unit) (a : LockProf.Act) : Prop :=
  sound nLat c t a ∧ unwrapped c t a ∧ counting nLat c t a

/-- None of the conditions looks at the step. -/
def Pc.plain : Pc → Bool
  | .base (.print _) => false
  | .base (.guard .loadTail) => false
  | .base (.guard (.base (.tryCas _ _))) => false
  | .divide _ _ => false
  | _ => true

theorem strict_of_plain {nLat : BitVec 64} {a : LockProf.Act} (hpc : pc.plain = true) :
    strict nLat (alone sh pc) () a := by
  cases pc with
  | base pc =>
      cases pc with
      | guard pc =>
          rcases pc with pc | _ | _
          · cases pc <;> first | exact ⟨trivial, ⟨rfl, rfl⟩, trivial⟩ | cases hpc
          · cases hpc
          · exact ⟨trivial, ⟨rfl, rfl⟩, trivial⟩
      | print ticket => cases hpc
      | _ => exact ⟨trivial, ⟨rfl, rfl⟩, trivial⟩
  | divide ticket nAcq => cases hpc
  | _ => exact ⟨trivial, ⟨rfl, rfl⟩, trivial⟩

/-- One more step, of the plain ones. -/
theorem reach_plain {nLat : BitVec 64} (h : Reach prog (strict nLat) init (alone sh pc))
    (a : LockProf.Act) (hpc : pc.plain = true) (hs : prog () sh pc a = some (sh', pc')) :
    Reach prog (strict nLat) init (alone sh' pc') :=
  reach_alone h a (strict_of_plain hpc) hs

/-- `lock_prof_lock_unlock`. -/
theorem reach_unlock {nLat : BitVec 64} {prof : LockProf.Shared} {n : Nat} {past : Past}
    (h : Reach prog (strict nLat) init
      (alone (held prof n past) (.base (.guard (.base .critical))))) :
    ∃ past', Reach prog (strict nLat) init
      (alone (taken prof n past') (.base (.guard (.base .idle)))) := by
  have htail := reach_plain h .unlock rfl rfl
  have hle : (held prof n past).head ≤ (held prof n past).tail := BitVec.le_refl _
  have hhead := reach_alone htail (.go 0) ⟨trivial, ⟨rfl, decide_eq_true hle⟩, trivial⟩ rfl
  have hpass : prog () (held prof n past) (.base (.guard (.guardHead (BitVec.ofNat 32 n))))
      (.go 0) = some (held prof n past, .base (.guard (.base .loadHead))) := by
    change (held prof n past).head ≤ BitVec.ofNat 32 n at hle
    show some (held prof n past, Pc.base (.guard (.base (if _ ≤ _ then _ else _)))) = _
    rw [if_pos hle]
  have hload := reach_plain hhead (.go 0) rfl hpass
  have hstore := reach_plain hload (.go 0) rfl rfl
  exact ⟨_, reach_plain hstore (.go 0) rfl rfl⟩

/-- A trylock and an unlock. -/
theorem reach_tryRound {nLat : BitVec 64} {prof : LockProf.Shared} {n : Nat} {past : Past}
    (h : Reach prog (strict nLat) init
      (alone (taken prof n past) (.base (.guard (.base .idle))))) :
    ∃ past', Reach prog (strict nLat) init
      (alone (taken prof (n + 1) past') (.base (.guard (.base .idle)))) := by
  have htail := reach_plain h .trylock rfl rfl
  have hhead := reach_plain htail (.go 0) rfl rfl
  have hfree : prog () (taken prof n past)
      (.base (.guard (.base (.tryHead (BitVec.ofNat 32 n) n)))) (.go 0)
        = some (taken prof n past, .base (.guard (.base (.tryCas (BitVec.ofNat 32 n) n)))) := by
    have hone : (taken prof n past).head - BitVec.ofNat 32 n = 1 :=
      (congrArg (· - _) (BitVec.add_comm ..)).trans (BitVec.add_sub_cancel ..)
    show some (taken prof n past, Pc.base (.guard (.base (if _ = _ then _ else _)))) = _
    rw [if_pos hone]
  have hcas := reach_plain hhead (.go 0) rfl hfree
  have htake : prog () (taken prof n past)
      (.base (.guard (.base (.tryCas (BitVec.ofNat 32 n) n)))) (.go 0)
        = some (held prof (n + 1) past, .base (.guard (.base .critical))) := by
    simp [prog, same, LockProf.prog, LockProf.same, TicketGuard.prog, TicketIn.prog,
      TicketIn.ticketLockTrylock, held, taken, LockProf.Shared.taken, Shared.update,
      BitVec.ofNat_add]
  have hfew : TicketIn.Pc.few n (.tryCas (BitVec.ofNat 32 n) n) = true := by
    simp [TicketIn.Pc.few]
  exact reach_unlock (reach_alone hcas (.go 0) ⟨trivial, ⟨hfew, rfl⟩, trivial⟩ htake)

/-- Any number of rounds. -/
theorem reach_rounds {nLat : BitVec 64} {prof : LockProf.Shared} {m n : Nat} (hmn : m ≤ n)
    {past : Past}
    (h : Reach prog (strict nLat) init
      (alone (taken prof m past) (.base (.guard (.base .idle))))) :
    ∃ past', Reach prog (strict nLat) init
      (alone (taken prof n past') (.base (.guard (.base .idle)))) := by
  induction n, hmn using Nat.le_induction with
  | base => exact ⟨past, h⟩
  | succ n _ ih =>
      obtain ⟨past', hpast'⟩ := ih
      exact reach_tryRound hpast'

end

/-- `LOCK_PROF_LOCK_INITIALIZER`. -/
def initializer : LockProf.Shared := ⟨⟨1, 0, 0⟩, 0, 0, 0, 0, 0⟩

def start : Conf Unit Shared Pc :=
  alone (taken initializer 0 ⟨none, 0, none, 0⟩) (.base (.guard (.base .idle)))

theorem start_init : Init start := ⟨rfl, rfl, rfl, rfl, fun _ => rfl⟩

theorem reach_start : Reach prog (strict 0) (· = start)
    (alone (taken initializer 0 ⟨none, 0, none, 0⟩) (.base (.guard (.base .idle)))) := .start rfl

/-- A lock call takes a ticket of a free lock. -/
theorem reach_ticket {nLat : BitVec 64} {prof : LockProf.Shared} {n : Nat} {pc : LockProf.Pc}
    {past : Past}
    (h : Reach prog (strict nLat) (· = start)
      (alone (taken prof n past) (.base (.guard (.base .idle)))))
    (hticket : LockProf.afterTail (BitVec.ofNat 32 (n + 1)) = pc) :
    Reach prog (strict nLat) (· = start) (alone (held prof (n + 1) past) (.base pc)) := by
  have hstep : prog () (taken prof n past) (.base .addTail) (.go 0)
      = some (held prof (n + 1) past, .base pc) := by
    rw [← hticket, held, BitVec.ofNat_add]
    rfl
  have hcall := reach_plain h .lock rfl rfl
  exact reach_plain hcall (.go 0) rfl hstep

/-- The statistics after a lock call that has got ticket 1024, without any spins. -/
def sampled : LockProf.Shared :=
  { initializer with tLat := 0 + (0 - 0), nLat := 0 + 1, nSpins := 0 + 0 }

/-- A ticket that is served, and samples the latency. -/
theorem prog_served {sh : Shared} {ticket : BitVec 32} {spins : BitVec 64} {once : Bool}
    (hserved : ticket = sh.head) (hlat : ticket &&& latncEvery = 0) :
    prog () sh (.base (.readHead ticket spins once)) (.go 0) = some (sh, .endLat spins) := by
  have hzero : ticket - sh.head = 0 := hserved ▸ BitVec.sub_self _
  simp only [prog]
  rw [if_pos hzero, if_pos hlat]

/-- A lock call with ticket 1024 has been counted. -/
theorem reach_sampled : ∃ past, Reach prog (strict 0) (· = start)
    (alone (taken sampled 1024 past) (.base (.guard (.base .idle)))) := by
  obtain ⟨past, hpast⟩ := reach_rounds (Nat.zero_le 1023) reach_start
  have hticket := reach_ticket hpast (rfl : _ = LockProf.Pc.startLat 1024)
  have hwait : Reach prog (strict 0) (· = start)
      (alone (held initializer 1024 past) (.base (.readHead 1024 0 true))) :=
    reach_plain hticket (.go 0) rfl rfl
  have hserved := reach_plain hwait (.go 0) rfl (prog_served rfl rfl)
  have hload := reach_plain hserved (.go 0) rfl rfl
  have hadd := reach_plain hload (.go 0) rfl rfl
  have hstore := reach_plain hadd (.go 0) rfl rfl
  have hcount := reach_plain hstore (.go 0) rfl rfl
  have hcounted := reach_plain hcount (.go 0) rfl rfl
  have hspins := reach_plain hcounted (.go 0) rfl rfl
  have hheld : Reach prog (strict 0) (· = start)
      (alone (held sampled 1024 ⟨past.lastUnlock, past.unlocks, some 0, past.counts + 1⟩)
        (.base (.guard (.base .critical)))) :=
    reach_plain hspins (.go 0) rfl rfl
  exact reach_unlock hheld

/-- A lock call that has got ticket 16384 prints. -/
theorem reach_divide {prof : LockProf.Shared} {past : Past}
    (h : Reach prog (strict 0) (· = start)
      (alone (taken prof 16383 past) (.base (.guard (.base .idle))))) :
    Reach prog (strict 0) (· = start) (alone (held prof 16384 past) (.divide 16384 16384)) := by
  have hticket := reach_ticket h (rfl : _ = LockProf.Pc.print 16384)
  have hdiv : Divides (alone (held prof 16384 past) (.base (.print 16384))) () := by
    show BitVec.ofNat 32 16384 ≠ 0
    decide
  have hcounted := Counted.reach (by decide) start_init (hticket.mono fun _ _ _ hok => hok.2)
  refine reach_alone hticket (.go 0) ⟨?_, ⟨rfl, rfl⟩, ?_⟩ rfl
  · exact (hcounted.fine.divides_iff (.go 0)).mp hdiv
  · exact (hcounted.divides_iff (.go 0)).mp hdiv

/-- After a lock call with ticket 1024, one that prints: the theorem gives that an event of
    each kind has been counted. -/
theorem lockProfLockLock_divides_sampled : ∃ c : Conf Unit Shared Pc,
    Reach prog (sound 0) (· = start) c ∧
    Reach prog (fun c t a => unwrapped c t a ∧ counting 0 c t a) (· = start) c ∧
    c.loc () = .divide 16384 16384 ∧ c.sh.nLat = 1 ∧ Divides c () ∧ c.sh.counted 0 ∧
    (0 + c.sh.past.counts) % 2 ^ 64 ≠ 0 := by
  obtain ⟨past, hpast⟩ := reach_sampled
  obtain ⟨past', hpast'⟩ := reach_rounds (n := 16383) (by decide) hpast
  have hc := reach_divide hpast'
  have hsound := hc.mono fun _ _ _ hok => hok.1
  have hcounting := hc.mono fun _ _ _ hok => hok.2
  have hdiv : Divides (alone (held sampled 16384 past') (.divide 16384 16384)) () :=
    ⟨by decide, by show (1 : BitVec 64) ≠ 0; decide⟩
  obtain ⟨hbyValue, hbyCount⟩ := lockProfLockLock_divides start_init
  refine ⟨_, hsound, hcounting, rfl, rfl, hdiv, ?_, ?_⟩
  · exact (hbyValue hsound () (.go 0)).1.mp hdiv
  · exact (hbyCount (by decide) hcounting () (.go 0)).1.mp hdiv

/-- **The statistics divide by 0** when the tickets that are multiples of 1024 have been taken
    by trylocks. -/
theorem lockProfLockLock_zero : ¬ ∀ c₀ c : Conf Unit Shared Pc, Init c₀ →
    Reach prog always (· = c₀) c → ∀ t, Divides c t := by
  intro h
  obtain ⟨past, hpast⟩ := reach_rounds (Nat.zero_le 16383) reach_start
  have hc := reach_divide hpast
  exact (h start _ start_init (hc.mono fun _ _ _ _ => trivial) ()).2 rfl

end LockStats
