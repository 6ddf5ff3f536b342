import Lockin.TicketIn

/-! # Ticket locks whose unlock is guarded

    `ticket_in.h` built with `MEMCACHED`, and `lock_prof_in.h`: before `lock->head++` the
    unlock asks whether `lock->tail >= lock->head`, so that unlocking a free lock does
    nothing.  Both counters are 32 bits wide and wrap round, and the comparison is one of
    unsigned numbers.

    As long as no unlock finds `tail` wrapped round and `head` not, the guard lets every
    holder pass and the lock is the ticket lock of `ticket_in.h`. -/

namespace TicketGuard

open Interleaving FifoLock TicketIn

variable {Tid : Type}

/-- Where a thread is: as in `ticket_in.h`, or in the guard of its unlock, which reads
    `tail` and then `head`. -/
inductive Pc where
  | base (pc : TicketIn.Pc)
  | loadTail
  | guardHead (tail : BitVec 32)
  deriving DecidableEq

/-- The guard of `ticket_lock_unlock`. -/
def ticketLockUnlock (sh : Shared) : Pc → Option (Shared × Pc)
  | .loadTail => some (sh, .guardHead sh.tail)
  | .guardHead tail => some (sh, .base (if sh.head ≤ tail then .loadHead else .idle))
  | _ => none

/-- One step of a thread. -/
def prog : Prog Tid Shared Pc TicketIn.Act
  | _, sh, .base .critical, .unlock => some (sh, .loadTail)
  | t, sh, .base pc, a => (TicketIn.prog t sh pc a).map fun r => (r.1, .base r.2)
  | _, sh, pc, .go => ticketLockUnlock sh pc
  | _, _, _, _ => none

/-- The lock is free, whatever the value of its counters, and nobody is in a call. -/
structure Init (c : Conf Tid Shared Pc) : Prop where
  free : c.sh.head = c.sh.tail + 1
  issued : c.sh.issued = 0
  idle : ∀ t, c.loc t = .base .idle

/-- In `ticket_in.h` the guard is a part of the critical section. -/
@[simp] def Pc.ticketIn : Pc → TicketIn.Pc
  | .base pc => pc
  | .loadTail => .critical
  | .guardHead _ => .critical

/-- The trylocks keep to their condition. -/
def few (c : Conf Tid Shared Pc) (t : Tid) (_ : TicketIn.Act) : Prop :=
  (c.loc t).ticketIn.few c.sh.issued

/-- An unlock reads a `tail` that is not below `head`. -/
def Pc.passes (sh : Shared) : Pc → Bool
  | .loadTail => sh.head ≤ sh.tail
  | _ => true

/-- The trylocks keep to their condition, and no unlock finds the counters on both sides
    of the wrap. -/
def unwrapped (c : Conf Tid Shared Pc) (t : Tid) (a : TicketIn.Act) : Prop :=
  few c t a ∧ (c.loc t).passes c.sh

instance (c : Conf Tid Shared Pc) (t : Tid) (a : TicketIn.Act) : Decidable (few c t a) :=
  inferInstanceAs (Decidable (_ = true))

instance (c : Conf Tid Shared Pc) (t : Tid) (a : TicketIn.Act) : Decidable (unwrapped c t a) :=
  inferInstanceAs (Decidable (_ ∧ _ = true))

/-- The lock without its guard. -/
def ticketInView (c : Conf Tid Shared Pc) : Conf Tid Shared TicketIn.Pc :=
  c.view id fun _ pc => pc.ticketIn

/-- The thread holds the lock, or is on its way out. -/
def Holds (c : Conf Tid Shared Pc) (t : Tid) : Prop := (c.loc t).ticketIn.phase = .holding

/-- The thread is in `ticket_lock_unlock`. -/
def Unlocks (c : Conf Tid Shared Pc) (t : Tid) : Prop :=
  c.loc t ≠ .base .critical ∧ Holds c t

/-- The thread spins in `ticket_lock_lock` with this ticket. -/
def Waits (c : Conf Tid Shared Pc) (t : Tid) (ticket : BitVec 32) : Prop :=
  c.loc t = .base (.readHead ticket)

/-- The number of threads in line: the one that holds the lock, and those that wait for it
    with a ticket. -/
def inLine [Fintype Tid] (c : Conf Tid Shared Pc) : Nat :=
  (Finset.univ.filter fun t => (c.loc t).ticketIn.phase ≠ .out).card

/-- What the guard has seen lets the holder pass. -/
def Passing (c : Conf Tid Shared Pc) : Prop :=
  ∀ t tail, c.loc t = .guardHead tail → c.sh.head ≤ tail

section

variable {c : Conf Tid Shared Pc} {t : Tid} {a : TicketIn.Act} {r : Shared × Pc}

/-- **What a step can do**: it is a step of `ticket_in.h`, or one of the guard. -/
theorem prog_cases (hs : prog t c.sh (c.loc t) a = some r) :
    (∃ pc r', c.loc t = .base pc ∧ TicketIn.prog t c.sh pc a = some r' ∧
      r = (r'.1, .base r'.2)) ∨
    (c.loc t = .base .critical ∧ r = (c.sh, .loadTail)) ∨
    (c.loc t = .loadTail ∧ r = (c.sh, .guardHead c.sh.tail)) ∨
    ∃ tail, c.loc t = .guardHead tail ∧
      r = (c.sh, .base (if c.sh.head ≤ tail then .loadHead else .idle)) := by
  have hbase : ∀ pc, c.loc t = .base pc →
      ((TicketIn.prog t c.sh pc a).map fun r => (r.1, Pc.base r.2)) = some r →
      ∃ pc r', c.loc t = .base pc ∧ TicketIn.prog t c.sh pc a = some r' ∧
        r = (r'.1, .base r'.2) := by
    intro pc hl hmap
    obtain ⟨r', hr', heq⟩ := Option.map_eq_some_iff.mp hmap
    exact ⟨pc, r', hl, hr', heq.symm⟩
  cases hl : c.loc t with
  | base pc =>
      rw [hl] at hs
      by_cases hu : pc = .critical ∧ a = .unlock
      · obtain ⟨rfl, rfl⟩ := hu
        exact Or.inr (Or.inl ⟨rfl, (Option.some.inj hs).symm⟩)
      · refine Or.inl (hl ▸ hbase pc hl ?_)
        rw [← hs]
        cases pc <;> cases a <;> first | rfl | exact absurd ⟨rfl, rfl⟩ hu
  | loadTail =>
      rw [hl] at hs
      cases a <;> simp only [prog, ticketLockUnlock, reduceCtorEq, Option.some.injEq] at hs
      exact Or.inr (Or.inr (Or.inl ⟨rfl, hs.symm⟩))
  | guardHead tail =>
      rw [hl] at hs
      cases a <;> simp only [prog, ticketLockUnlock, reduceCtorEq, Option.some.injEq] at hs
      exact Or.inr (Or.inr (Or.inr ⟨tail, rfl, hs.symm⟩))

end

/-! ## The guard lets the holder pass -/

section

variable [DecidableEq Tid] {c : Conf Tid Shared Pc} {t : Tid} {a : TicketIn.Act} {r : Shared × Pc}

omit [DecidableEq Tid] in
/-- Seen from `ticket_in.h` the guard is not there. -/
theorem follows (hpass : Passing c) (hfew : few c t a) (hs : prog t c.sh (c.loc t) a = some r) :
    Follows TicketIn.prog TicketIn.few (ticketInView c) t (r.1, r.2.ticketIn) := by
  rcases prog_cases hs with ⟨pc, r', hl, hr', rfl⟩ | ⟨hl, rfl⟩ | ⟨hl, rfl⟩ | ⟨tail, hl, rfl⟩
  · refine Or.inr ⟨a, ?_, ?_⟩
    · exact hfew
    · show TicketIn.prog t c.sh (c.loc t).ticketIn a = _
      rw [hl]
      exact hr'
  · exact Or.inl (Prod.ext rfl (by show _ = (c.loc t).ticketIn; rw [hl]; rfl))
  · exact Or.inl (Prod.ext rfl (by show _ = (c.loc t).ticketIn; rw [hl]; rfl))
  · refine Or.inr ⟨.unlock, by show (c.loc t).ticketIn.few _ = true; rw [hl]; rfl, ?_⟩
    show TicketIn.prog t c.sh (c.loc t).ticketIn _ = _
    rw [hl, if_pos (hpass t tail hl)]
    rfl

omit [DecidableEq Tid] in
/-- A step of `ticket_in.h` changes `head` only at the end of an unlock. -/
theorem ticketIn_head {sh : Shared} {pc : TicketIn.Pc} {r : Shared × TicketIn.Pc}
    (hs : TicketIn.prog t sh pc a = some r) :
    r.1.head = sh.head ∨ ∃ head, pc = .storeHead head := by
  cases pc with
  | storeHead head => exact Or.inr ⟨head, rfl⟩
  | _ =>
      left
      cases a <;> simp only [TicketIn.prog, ticketLockLock, ticketLockTrylock,
        TicketIn.ticketLockUnlock, reduceCtorEq, Option.some.injEq] at hs <;>
        (try split at hs) <;> (try simp only [Option.some.injEq] at hs) <;> subst hs <;> rfl

omit [DecidableEq Tid] in
/-- Only a holder changes `head`. -/
theorem head_step (hs : prog t c.sh (c.loc t) a = some r) : r.1.head = c.sh.head ∨ Holds c t := by
  rcases prog_cases hs with ⟨pc, r', hl, hr', rfl⟩ | ⟨-, rfl⟩ | ⟨-, rfl⟩ | ⟨tail, -, rfl⟩
  · refine (ticketIn_head hr').imp_right ?_
    rintro ⟨head, rfl⟩
    rw [Holds, hl]
    rfl
  · exact Or.inl rfl
  · exact Or.inl rfl
  · exact Or.inl rfl

variable [Fintype Tid]

/-- At most one thread holds the lock. -/
theorem holds_unique (hcard : Fintype.card Tid < 2 ^ 32)
    (hview : Reach TicketIn.prog TicketIn.few TicketIn.Init (ticketInView c)) {u : Tid}
    (ht : Holds c t) (hu : Holds c u) : t = u := by
  obtain ⟨f, -, hf⟩ := (TicketIn.sim hcard).reach hview
  exact hf.holding_unique ht hu

/-- **Step lemma.** What a guard has seen stays true until its thread moves on. -/
theorem Passing.step (hpass : Passing c) (hcard : Fintype.card Tid < 2 ^ 32)
    (hview : Reach TicketIn.prog TicketIn.few TicketIn.Init (ticketInView c))
    (hok : unwrapped c t a) (hs : prog t c.sh (c.loc t) a = some r) : Passing (c.put t r) := by
  intro u tail hu
  show r.1.head ≤ tail
  by_cases hut : u = t
  · subst hut
    rw [put_loc_self] at hu
    rcases prog_cases hs with ⟨pc, r', -, -, rfl⟩ | ⟨-, rfl⟩ | ⟨hl, rfl⟩ | ⟨_, -, rfl⟩
    · cases hu
    · cases hu
    · obtain rfl := Pc.guardHead.inj hu
      have hle := hok.2
      rw [hl] at hle
      exact of_decide_eq_true hle
    · cases hu
  · rw [put_loc_ne c _ hut] at hu
    rcases head_step hs with hhead | ht
    · rw [hhead]
      exact hpass u tail hu
    · -- the thread in the guard is the only holder
      exact absurd (holds_unique hcard hview (by rw [Holds, hu]; rfl) ht) hut

/-- **Run lemma.** In a run that keeps to the condition, every guard lets its holder pass
    and the lock is that of `ticket_in.h`. -/
theorem passing_of_reach (hcard : Fintype.card Tid < 2 ^ 32) (h : Reach prog unwrapped Init c) :
    Reach TicketIn.prog TicketIn.few TicketIn.Init (ticketInView c) ∧ Passing c := by
  refine h.invariant (I := fun c =>
    Reach TicketIn.prog TicketIn.few TicketIn.Init (ticketInView c) ∧ Passing c) ?_ ?_
  · intro c h0
    refine ⟨.start ⟨h0.free, h0.issued, fun t => ?_⟩, ?_⟩
    · show (c.loc t).ticketIn = .idle
      rw [h0.idle t]
      rfl
    · intro t tail ht
      rw [h0.idle t] at ht
      cases ht
  · rintro c t a r ⟨hview, hpass⟩ hok hs
    exact ⟨hview.view_put (follows hpass hok.1 hs), hpass.step hcard hview hok hs⟩

omit [Fintype Tid] [DecidableEq Tid] in
/-- The shared state in an unlock: unchanged until `head` is incremented, which is the
    last step. -/
theorem unlock_step (hhead : ∀ head, c.loc t = .base (.storeHead head) → head = c.sh.head)
    (hpass : Passing c) (ht : Unlocks c t) (hs : prog t c.sh (c.loc t) a = some r) :
    r = ({ c.sh with head := c.sh.head + 1 }, .base .idle) ∨ r.1 = c.sh ∧ r.2 ≠ .base .idle := by
  obtain ⟨hnot, hph⟩ := ht
  rcases prog_cases hs with ⟨pc, r', hl, hr', rfl⟩ | ⟨hl, -⟩ | ⟨-, rfl⟩ | ⟨tail, hl, rfl⟩
  · rw [Holds, hl] at hph
    cases pc <;> simp only [Pc.ticketIn, TicketIn.Pc.phase, reduceCtorEq] at hph
    · exact absurd hl hnot
    · cases a <;> simp only [TicketIn.prog, TicketIn.ticketLockUnlock, reduceCtorEq,
        Option.some.injEq] at hr'
      subst hr'
      exact Or.inr ⟨rfl, by simp⟩
    · cases a <;> simp only [TicketIn.prog, TicketIn.ticketLockUnlock, reduceCtorEq,
        Option.some.injEq] at hr'
      subst hr'
      left
      rw [hhead _ hl]
  · exact absurd hl hnot
  · exact Or.inr ⟨rfl, by simp⟩
  · rw [if_pos (hpass t tail hl)]
    exact Or.inr ⟨rfl, by simp⟩

/-- When the next ticket is served, a thread that waits with it, if any waits. -/
theorem next_served (hcard : Fintype.card Tid < 2 ^ 32)
    (hview : Reach TicketIn.prog TicketIn.few TicketIn.Init (ticketInView c)) (ht : Holds c t)
    {u : Tid} {ticket : BitVec 32} (hu : Waits c u ticket) :
    ∃ v, Waits c v (c.sh.head + 1) := by
  obtain ⟨f, ⟨-, hline⟩, hf⟩ := (TicketIn.sim hcard).reach hview
  have hwait : ((ticketInView c).loc u).phase = .waiting := by
    show (c.loc u).ticketIn.phase = _
    rw [hu]
    rfl
  obtain ⟨-, hacq⟩ := hf.holding_at (t := t) ht
  obtain ⟨k, hk, hle⟩ := hf.waiting_at hwait
  have hlt := hk.lt_length
  -- the place after the holder's is taken
  obtain ⟨v, hv⟩ := f.exists_at (k := f.rel + 1) (by omega) (by omega)
  have hph : (c.loc v).ticketIn.phase = .waiting := by
    have hin := (hf.place v).mpr ⟨_, hv⟩
    have hnot := fun hh => (hf.granted v _ hv).mp hh
    change (c.loc v).ticketIn.phase ≠ .out at hin
    change (c.loc v).ticketIn.phase = .holding → _ at hnot
    cases hp : (c.loc v).ticketIn.phase with
    | out => exact absurd hp hin
    | waiting => rfl
    | holding => exact absurd (hnot hp) (by omega)
  obtain ⟨x, hx⟩ : ∃ x, Waits c v x := by
    unfold Waits
    cases hl : c.loc v with
    | base pc =>
        rw [hl] at hph
        cases pc <;> simp only [Pc.ticketIn, TicketIn.Pc.phase, reduceCtorEq] at hph
        exact ⟨_, rfl⟩
    | _ =>
        rw [hl] at hph
        simp at hph
  refine ⟨v, ?_⟩
  have hticket : x + BitVec.ofNat 32 (f.log.length - (f.rel + 1)) = c.sh.tail + 1 :=
    hline.ticket v x _ (by show (c.loc v).ticketIn.ticketPc = _; rw [hx]; rfl) hv
  have hserved : c.sh.head + BitVec.ofNat 32 (f.log.length - f.rel) = c.sh.tail + 1 := hline.served
  have hnext : x = c.sh.head + 1 := by
    rw [show f.log.length - f.rel = 1 + (f.log.length - (f.rel + 1)) by omega, BitVec.ofNat_add,
      ← BitVec.add_assoc, ← hticket] at hserved
    exact ((BitVec.add_left_inj _).mp hserved).symm
  rw [← hnext]
  exact hx

/-- What an unlock is about to increment is what is there. -/
theorem storeHead_eq (hcard : Fintype.card Tid < 2 ^ 32)
    (hview : Reach TicketIn.prog TicketIn.few TicketIn.Init (ticketInView c)) {head : BitVec 32}
    (hl : c.loc t = .base (.storeHead head)) : head = c.sh.head := by
  obtain ⟨f, ⟨-, hline⟩, -⟩ := (TicketIn.sim hcard).reach hview
  refine hline.leaving t head ?_
  show (c.loc t).ticketIn.ticketPc = _
  rw [hl]
  rfl

/-- The guard lets the holder pass if and only if the tickets in line do not reach over the
    wrap. -/
theorem passes_iff (hcard : Fintype.card Tid < 2 ^ 32) (h : Reach prog unwrapped Init c)
    (hl : c.loc t = .loadTail) :
    (c.loc t).passes c.sh ↔ c.sh.head.toNat + inLine c ≤ 2 ^ 32 := by
  unfold inLine
  obtain ⟨hview, -⟩ := passing_of_reach hcard h
  obtain ⟨f, ⟨-, hline⟩, hf⟩ := (TicketIn.sim hcard).reach hview
  have hphase : ∀ u, ((ticketView (ticketInView c)).loc u).phase = (c.loc u).ticketIn.phase :=
    fun u => TicketIn.ticketPc_phase (c.loc u).ticketIn
  have hcount := hline.count (by rw [funext hphase]; exact hf)
  simp only [hphase] at hcount
  change (c.sh.tail - c.sh.head + 1).toNat = _ at hcount
  have hin : 0 < (Finset.univ.filter fun u => (c.loc u).ticketIn.phase ≠ .out).card :=
    Finset.card_pos.mpr ⟨t, by rw [Finset.mem_filter_univ, hl]; simp⟩
  rw [← hcount] at hin ⊢
  rw [hl]
  show decide (c.sh.head ≤ c.sh.tail) = true ↔ _
  rw [decide_eq_true_iff]
  generalize c.sh.head = head at *
  generalize c.sh.tail = tail at *
  clear hcount
  bv_omega

/-- What the condition asks of an unlock that is about to read `tail`. -/
theorem unwrapped_iff (hcard : Fintype.card Tid < 2 ^ 32) (h : Reach prog unwrapped Init c)
    (hl : c.loc t = .loadTail) :
    unwrapped c t a ↔ c.sh.head.toNat + inLine c ≤ 2 ^ 32 := by
  refine Iff.trans ?_ (passes_iff hcard h hl)
  refine and_iff_right ?_
  show (c.loc t).ticketIn.few c.sh.issued = true
  rw [hl]
  rfl

/-- **An unlock by the holder increments `head`** by one, and does nothing else: in a run
    that keeps to the condition, its steps leave the counters alone up to the last one,
    after which the next ticket is served. -/
theorem ticketLock_unlock (hcard : Fintype.card Tid < 2 ^ 32) (h : Reach prog unwrapped Init c)
    (ht : Unlocks c t) (hs : prog t c.sh (c.loc t) a = some r) :
    (r.2 = .base .idle ∧ r.1 = { c.sh with head := c.sh.head + 1 } ∨
      r.2 ≠ .base .idle ∧ r.1 = c.sh) ∧
    ((∃ u ticket, Waits c u ticket) → ∃ u, Waits c u (c.sh.head + 1)) := by
  obtain ⟨hview, hpass⟩ := passing_of_reach hcard h
  constructor
  · rcases unlock_step (fun _ => storeHead_eq hcard hview) hpass ht hs with rfl | ⟨hsh, hne⟩
    · exact Or.inl ⟨rfl, rfl⟩
    · exact Or.inr ⟨hne, hsh⟩
  · rintro ⟨u, ticket, hu⟩
    exact next_served hcard hview ht.2 hu

end

end TicketGuard

/-! ## `lock_prof_in.h` -/

namespace LockProf

open Interleaving

variable {Tid : Type}

/-- A `lock_prof_lock_t`: the counters, and the statistics. -/
structure Shared extends TicketIn.Shared where
  nSpins : BitVec 64
  nQueue : BitVec 64
  nLat : BitVec 64
  sLat : BitVec 64
  tLat : BitVec 64

/-- Where a thread is: in `lock_prof_lock_lock`, or where `ticket_lock_t` has the same
    code. -/
inductive Pc where
  | guard (pc : TicketGuard.Pc)
  | addTail
  | print (ticket : BitVec 32)
  | startLat (ticket : BitVec 32)
  | readHead (ticket : BitVec 32) (spins : BitVec 64) (once : Bool)
  | addQueue (ticket : BitVec 32) (spins : BitVec 64) (distance : BitVec 32)
  deriving DecidableEq

/-- The calls a thread may make; everything else is determined but for `ticks`, which is
    what `lock_prof_getticks` would return. -/
inductive Act where
  | lock
  | trylock
  | unlock
  | go (ticks : BitVec 64)

/-- `LOCK_PROF_PRINT_EVERY`. -/
def printEvery : BitVec 32 := (1 <<< 14) - 1

/-- `LOCK_PROF_LATNC_EVERY`. -/
def latncEvery : BitVec 32 := 1023

/-- What follows the printing. -/
def afterPrint (ticket : BitVec 32) : Pc :=
  if ticket &&& latncEvery = 0 then .startLat ticket else .readHead ticket 0 true

/-- What follows the increment of `tail`. -/
def afterTail (ticket : BitVec 32) : Pc :=
  if ticket &&& printEvery = 0 then .print ticket else afterPrint ticket

/-- The statistics at the end of `__lock_prof_lock_lock`.  Only the thread that has the
    lock writes these fields, so they are written in one step. -/
def Shared.acquired (sh : Shared) (ticket : BitVec 32) (spins ticks : BitVec 64) : Shared :=
  if ticket &&& latncEvery = 0 then
    { sh with
      tLat := sh.tLat + (ticks - sh.sLat), nLat := sh.nLat + 1, nSpins := sh.nSpins + spins }
  else { sh with nSpins := sh.nSpins + spins }

/-- `lock_prof_lock_lock`.  What is printed is `n_spins` and `n_queue` divided by `head`,
    and `t_lat` divided by `n_lat`; the division of integers by 0 ends the program. -/
def lockProfLockLock (ticks : BitVec 64) (sh : Shared) : Pc → Option (Shared × Pc)
  | .addTail =>
      some ({ sh with tail := sh.tail + 1, issued := sh.issued + 1 }, afterTail (sh.tail + 1))
  | .print ticket =>
      if sh.head = 0 ∨ sh.nLat = 0 then none else some (sh, afterPrint ticket)
  | .startLat ticket => some ({ sh with sLat := ticks }, .readHead ticket 0 true)
  | .readHead ticket spins once =>
      if ticket - sh.head = 0 then some (sh.acquired ticket spins ticks, .guard (.base .critical))
      else some (sh, if once then .addQueue ticket (spins + 1) (ticket - sh.head)
        else .readHead ticket (spins + 1) false)
  | .addQueue ticket spins distance =>
      some ({ sh with nQueue := sh.nQueue + distance.signExtend 64 }, .readHead ticket spins false)
  | .guard _ => none

/-- `lock_prof_lock_trylock` and `lock_prof_lock_unlock` are those of `ticket_lock_t`. -/
def same (t : Tid) (a : TicketIn.Act) (sh : Shared) (pc : TicketGuard.Pc) :
    Option (Shared × Pc) :=
  (TicketGuard.prog t sh.toShared pc a).map fun r => ({ sh with toShared := r.1 }, .guard r.2)

/-- One step of a thread. -/
def prog : Prog Tid Shared Pc Act := fun t sh pc a =>
  match a, pc with
  | .lock, .guard (.base .idle) => some (sh, .addTail)
  | .trylock, .guard pc => same t .trylock sh pc
  | .unlock, .guard pc => same t .unlock sh pc
  | .go _, .guard pc => same t .go sh pc
  | .go ticks, pc => lockProfLockLock ticks sh pc
  | _, _ => none

/-- As `lock_prof_lock_init` leaves the lock, or free with other values of the counters;
    nobody is in a call. -/
structure Init (c : Conf Tid Shared Pc) : Prop where
  free : c.sh.head = c.sh.tail + 1
  issued : c.sh.issued = 0
  idle : ∀ t, c.loc t = .guard (.base .idle)

/-- The statistics are a part of waiting. -/
@[simp] def Pc.ticketGuard : Pc → TicketGuard.Pc
  | .guard pc => pc
  | .addTail => .base .addTail
  | .print ticket => .base (.readHead ticket)
  | .startLat ticket => .base (.readHead ticket)
  | .readHead ticket _ _ => .base (.readHead ticket)
  | .addQueue ticket _ _ => .base (.readHead ticket)

/-- The lock without its statistics. -/
def guardView (c : Conf Tid Shared Pc) : Conf Tid TicketIn.Shared TicketGuard.Pc :=
  c.view Shared.toShared fun _ pc => pc.ticketGuard

/-- The trylocks keep to their condition. -/
def few (c : Conf Tid Shared Pc) (t : Tid) (_ : Act) : Prop :=
  TicketGuard.few (guardView c) t .go

/-- The trylocks keep to their condition, and no unlock finds the counters on both sides
    of the wrap. -/
def unwrapped (c : Conf Tid Shared Pc) (t : Tid) (_ : Act) : Prop :=
  TicketGuard.unwrapped (guardView c) t .go

instance (c : Conf Tid Shared Pc) (t : Tid) (a : Act) : Decidable (few c t a) :=
  inferInstanceAs (Decidable (TicketGuard.few _ _ _))

instance (c : Conf Tid Shared Pc) (t : Tid) (a : Act) : Decidable (unwrapped c t a) :=
  inferInstanceAs (Decidable (TicketGuard.unwrapped _ _ _))

/-- The thread is in `lock_prof_lock_unlock`. -/
def Unlocks (c : Conf Tid Shared Pc) (t : Tid) : Prop := TicketGuard.Unlocks (guardView c) t

/-- The number of threads in line. -/
def inLine [Fintype Tid] (c : Conf Tid Shared Pc) : Nat := TicketGuard.inLine (guardView c)

/-- The thread is in `lock_prof_lock_lock` with this ticket. -/
def Waits (c : Conf Tid Shared Pc) (t : Tid) (ticket : BitVec 32) : Prop :=
  TicketGuard.Waits (guardView c) t ticket

/-- Who has a ticket waits with it, whatever statistics come first. -/
theorem ticketGuard_afterTail (ticket : BitVec 32) :
    (afterTail ticket).ticketGuard = .base (.readHead ticket) := by
  unfold afterTail afterPrint
  split_ifs <;> rfl

theorem toShared_acquired (sh : Shared) (ticket : BitVec 32) (spins ticks : BitVec 64) :
    (sh.acquired ticket spins ticks).toShared = sh.toShared := by
  unfold Shared.acquired
  split <;> rfl

section

variable {c : Conf Tid Shared Pc} {t : Tid} {a : Act} {r : Shared × Pc}

/-- **What a step can do**: it is one of `ticket_lock_t`, or a step of `lock_prof_lock_lock`. -/
theorem prog_cases (hs : prog t c.sh (c.loc t) a = some r) :
    (∃ pc a' r', c.loc t = .guard pc ∧ TicketGuard.prog t c.sh.toShared pc a' = some r' ∧
      r = ({ c.sh with toShared := r'.1 }, .guard r'.2)) ∨
    (c.loc t = .guard (.base .idle) ∧ r = (c.sh, .addTail)) ∨
    (∀ pc, c.loc t ≠ .guard pc) ∧ ∃ ticks, lockProfLockLock ticks c.sh (c.loc t) = some r := by
  have hsame : ∀ pc a', c.loc t = .guard pc → same t a' c.sh pc = some r →
      ∃ pc a' r', c.loc t = .guard pc ∧ TicketGuard.prog t c.sh.toShared pc a' = some r' ∧
        r = ({ c.sh with toShared := r'.1 }, .guard r'.2) := by
    intro pc a' hl hmap
    obtain ⟨r', hr', heq⟩ := Option.map_eq_some_iff.mp hmap
    exact ⟨pc, a', r', hl, hr', heq.symm⟩
  cases hl : c.loc t with
  | guard pc =>
      rw [hl] at hs
      rw [← hl]
      cases a with
      | lock =>
          by_cases hidle : pc = .base .idle
          · subst hidle
            exact Or.inr (Or.inl ⟨hl, (Option.some.inj hs).symm⟩)
          · rcases pc with pc | _ | _
            · cases pc <;> first | exact absurd rfl hidle | cases hs
            · cases hs
            · cases hs
      | trylock => exact Or.inl (hsame pc .trylock hl hs)
      | unlock => exact Or.inl (hsame pc .unlock hl hs)
      | go ticks => exact Or.inl (hsame pc .go hl hs)
  | _ =>
      rw [hl] at hs
      cases a <;> simp only [prog, reduceCtorEq] at hs
      exact Or.inr (Or.inr ⟨by simp, _, hs⟩)

/-- Seen from `ticket_lock_t` the statistics are not there. -/
theorem follows (hs : prog t c.sh (c.loc t) a = some r) (hok : unwrapped c t a) :
    Follows TicketGuard.prog TicketGuard.unwrapped (guardView c) t
      (r.1.toShared, r.2.ticketGuard) := by
  have hstep : ∀ a', TicketGuard.prog t c.sh.toShared (c.loc t).ticketGuard a'
      = some (r.1.toShared, r.2.ticketGuard) →
      Follows TicketGuard.prog TicketGuard.unwrapped (guardView c) t
        (r.1.toShared, r.2.ticketGuard) :=
    fun a' hs' => Or.inr ⟨a', hok, hs'⟩
  have hstay : r.1.toShared = c.sh.toShared → r.2.ticketGuard = (c.loc t).ticketGuard →
      Follows TicketGuard.prog TicketGuard.unwrapped (guardView c) t
        (r.1.toShared, r.2.ticketGuard) :=
    fun hsh hpc => Or.inl (Prod.ext hsh hpc)
  rcases prog_cases hs with ⟨pc, a', r', hl, hr', rfl⟩ | ⟨hl, rfl⟩ | ⟨-, ticks, hlock⟩
  · exact hstep a' (by rw [hl]; exact hr')
  · exact hstep .lock (by rw [hl]; rfl)
  · cases hl : c.loc t with
    | guard pc => rw [hl] at hlock; cases hlock
    | addTail =>
        rw [hl] at hlock
        obtain rfl := Option.some.inj hlock
        refine hstep .go ?_
        rw [hl, ticketGuard_afterTail]
        rfl
    | print ticket =>
        rw [hl] at hlock
        simp only [lockProfLockLock, Option.ite_none_left_eq_some, Option.some.injEq] at hlock
        obtain ⟨-, rfl⟩ := hlock
        refine hstay rfl ?_
        rw [hl]
        unfold afterPrint
        split <;> rfl
    | startLat ticket =>
        rw [hl] at hlock
        obtain rfl := Option.some.inj hlock
        exact hstay rfl (by rw [hl]; rfl)
    | readHead ticket spins once =>
        rw [hl] at hlock
        simp only [lockProfLockLock] at hlock
        split at hlock <;> obtain rfl := Option.some.inj hlock
        · next hd =>
          refine hstep .go ?_
          rw [hl, toShared_acquired]
          show some (c.sh.toShared, _) = _
          rw [hd]
          rfl
        · refine hstay rfl ?_
          rw [hl]
          split <;> rfl
    | addQueue ticket spins distance =>
        rw [hl] at hlock
        obtain rfl := Option.some.inj hlock
        exact hstay rfl (by rw [hl]; rfl)

end

variable [DecidableEq Tid]

/-- **The lock refines the guarded ticket lock.** -/
theorem guardView_reach {c : Conf Tid Shared Pc} (h : Reach prog unwrapped Init c) :
    Reach TicketGuard.prog TicketGuard.unwrapped TicketGuard.Init (guardView c) := by
  refine h.invariant (I := fun c =>
    Reach TicketGuard.prog TicketGuard.unwrapped TicketGuard.Init (guardView c)) ?_ ?_
  · intro c h0
    refine .start ⟨h0.free, h0.issued, fun t => ?_⟩
    show (c.loc t).ticketGuard = _
    rw [h0.idle t]
    rfl
  · intro c t a r hview hok hs
    exact hview.view_put (follows hs hok)

variable [Fintype Tid]

/-- **The guard never blocks the holder** of a `lock_prof_lock_t`, nor of a `ticket_lock_t`
    built with `MEMCACHED`, in a run in which no unlock finds the counters on both sides of
    the wrap: the steps of an unlock leave the lock alone up to the last one, which
    increments `head`, and then the next ticket is served.  By threads, an unlock that is
    about to read `tail` meets the condition if and only if the ticket that is served and the
    number of threads in line add up to 2 ^ 32 at most. -/
theorem unlock_increments_head (hcard : Fintype.card Tid < 2 ^ 31) :
    ((∀ (c : Conf Tid Shared Pc) t a r, Reach prog unwrapped Init c → Unlocks c t →
      prog t c.sh (c.loc t) a = some r →
      (r.2 = .guard (.base .idle) ∧ r.1 = { c.sh with head := c.sh.head + 1 } ∨
        r.2 ≠ .guard (.base .idle) ∧ r.1 = c.sh) ∧
      ((∃ u ticket, Waits c u ticket) → ∃ u, Waits c u (c.sh.head + 1))) ∧
    ∀ (c : Conf Tid Shared Pc) t a, Reach prog unwrapped Init c → c.loc t = .guard .loadTail →
      (unwrapped c t a ↔ c.sh.head.toNat + inLine c ≤ 2 ^ 32)) ∧
    (∀ (c : Conf Tid TicketIn.Shared TicketGuard.Pc) t a r,
      Reach TicketGuard.prog TicketGuard.unwrapped TicketGuard.Init c →
      TicketGuard.Unlocks c t → TicketGuard.prog t c.sh (c.loc t) a = some r →
      (r.2 = .base .idle ∧ r.1 = { c.sh with head := c.sh.head + 1 } ∨
        r.2 ≠ .base .idle ∧ r.1 = c.sh) ∧
      ((∃ u ticket, TicketGuard.Waits c u ticket) →
        ∃ u, TicketGuard.Waits c u (c.sh.head + 1))) ∧
    ∀ (c : Conf Tid TicketIn.Shared TicketGuard.Pc) t a,
      Reach TicketGuard.prog TicketGuard.unwrapped TicketGuard.Init c → c.loc t = .loadTail →
      (TicketGuard.unwrapped c t a ↔ c.sh.head.toNat + TicketGuard.inLine c ≤ 2 ^ 32) := by
  have hcard' : Fintype.card Tid < 2 ^ 32 := by omega
  refine ⟨⟨?_, fun c t a h hl => ?_⟩,
    fun c t a r h ht hs => TicketGuard.ticketLock_unlock hcard' h ht hs,
    fun c t a h hl => TicketGuard.unwrapped_iff hcard' h hl⟩
  swap
  · refine TicketGuard.unwrapped_iff hcard' (guardView_reach h) ?_
    show (c.loc t).ticketGuard = .loadTail
    rw [hl]
    rfl
  intro c t a r h ht hs
  have hview := guardView_reach h
  rcases prog_cases hs with ⟨pc, a', r', hl, hr', rfl⟩ | ⟨hl, -⟩ | ⟨hnot, -⟩
  · have hs' : TicketGuard.prog t (guardView c).sh ((guardView c).loc t) a' = some r' := by
      show TicketGuard.prog t c.sh.toShared (c.loc t).ticketGuard a' = some r'
      rw [hl]
      exact hr'
    obtain ⟨hstep, hserved⟩ := TicketGuard.ticketLock_unlock hcard' hview ht hs'
    refine ⟨?_, hserved⟩
    rcases hstep with ⟨hpc, hsh⟩ | ⟨hne, hsh⟩
    · left
      rw [hpc, hsh]
      exact ⟨rfl, rfl⟩
    · right
      rw [hsh]
      exact ⟨fun heq => hne (Pc.guard.inj heq), rfl⟩
  · have hph := ht.2
    change ((c.loc t).ticketGuard.ticketIn.phase = .holding) at hph
    rw [hl] at hph
    simp at hph
  · have hph := ht.2
    change ((c.loc t).ticketGuard.ticketIn.phase = .holding) at hph
    cases hl : c.loc t with
    | guard pc => exact absurd hl (hnot pc)
    | _ =>
        rw [hl] at hph
        simp at hph

omit [DecidableEq Tid] [Fintype Tid]

/-- Nobody is in a call. -/
def rest (sh : Shared) : Conf (Fin 2) Shared Pc := ⟨sh, fun _ => .guard (.base .idle)⟩

/-- `lock_prof_lock_init`. -/
def start : Conf (Fin 2) Shared Pc := rest ⟨⟨1, 0, 0⟩, 0, 0, 0, 0, 0⟩

/-- Thread 0 unlocks, while thread 1 waits with ticket 2. -/
def handOver : List (Fin 2 × Act) :=
  [(0, .lock), (0, .go 0), (0, .go 0), (1, .lock), (1, .go 0), (0, .unlock), (0, .go 0), (0, .go 0),
    (0, .go 0)]

theorem unlock_increments_head_handOver : ∃ (c : Conf (Fin 2) Shared Pc) (r : Shared × Pc),
    exec prog unwrapped start handOver = some c ∧
    prog (0 : Fin 2) c.sh (c.loc 0) (.go 0) = some r ∧ r.1 = { c.sh with head := 2 } ∧
    ∃ u, Waits c u 2 := by
  obtain ⟨c, r, hc, hs, hpc, hhead, hunlock, hwait⟩ :
      ∃ (c : Conf (Fin 2) Shared Pc) (r : Shared × Pc),
      exec prog unwrapped start handOver = some c ∧
      prog (0 : Fin 2) c.sh (c.loc 0) (.go 0) = some r ∧ r.2 = .guard (.base .idle) ∧
      c.sh.head = 1 ∧ Unlocks c 0 ∧ Waits c 1 2 :=
    ⟨_, _, rfl, rfl, rfl, rfl, ⟨by decide, rfl⟩, rfl⟩
  have hreach : Reach prog unwrapped Init c := reach_of_exec ⟨rfl, rfl, fun _ => rfl⟩ hc
  obtain ⟨hstep, hserved⟩ := (unlock_increments_head (by decide)).1.1 c 0 _ r hreach hunlock hs
  rw [hhead] at hstep hserved
  refine ⟨c, r, hc, hs, ?_, hserved ⟨1, 2, hwait⟩⟩
  rcases hstep with ⟨-, hsh⟩ | ⟨hne, -⟩
  · exact hsh
  · exact absurd hpc hne

/-! ### An unlock that is blocked -/

/-- Thread 0 is at `pc`, the other one in no call. -/
def alone (sh : Shared) (pc : Pc) : Conf (Fin 2) Shared Pc := (rest sh).put 0 (sh, pc)

theorem rest_eq_alone (sh : Shared) : rest sh = alone sh (.guard (.base .idle)) :=
  (put_self (rest sh) 0).symm

/-- One more step of thread 0. -/
theorem exec_alone {sh sh' : Shared} {pc pc' : Pc} {a : Act} {as : List (Fin 2 × Act)}
    (hfew : (pc.ticketGuard.ticketIn.few sh.issued) = true)
    (hs : prog (0 : Fin 2) sh pc a = some (sh', pc')) :
    exec prog few (alone sh pc) ((0, a) :: as) = exec prog few (alone sh' pc') as := by
  have hloc : (alone sh pc).loc 0 = pc := put_loc_self ..
  have hput : (alone sh pc).put 0 (sh', pc') = alone sh' pc' :=
    congrArg (Conf.mk sh') (Function.update_idem ..)
  have hok : few (alone sh pc) 0 a := by
    show (((alone sh pc).loc 0).ticketGuard.ticketIn.few sh.issued) = true
    rw [hloc]
    exact hfew
  rw [exec, if_pos hok, hloc]
  show (prog 0 sh pc a).bind _ = _
  rw [hs, Option.bind_some, hput]

/-- An unlock whose guard lets thread 0 pass. -/
def unlockSteps : List (Fin 2 × Act) :=
  [(0, .unlock), (0, .go 0), (0, .go 0), (0, .go 0), (0, .go 0)]

/-- An unlock of thread 0. -/
theorem exec_unlockSteps (sh : Shared) (heq : sh.head = sh.tail) :
    exec prog few (alone sh (.guard (.base .critical))) unlockSteps
      = some (rest { sh with head := sh.tail + 1 }) := by
  have hguard : prog (0 : Fin 2) sh (.guard (.guardHead sh.tail)) (.go 0)
      = some (sh, .guard (.base .loadHead)) := by
    show some (sh, Pc.guard (.base (if sh.head ≤ sh.tail then _ else _))) = _
    rw [if_pos (heq ▸ BitVec.le_refl _)]
  have hstore : prog (0 : Fin 2) sh (.guard (.base (.storeHead sh.head))) (.go 0)
      = some ({ sh with head := sh.tail + 1 }, .guard (.base .idle)) := by
    rw [heq]
    rfl
  rw [unlockSteps, exec_alone rfl rfl, exec_alone rfl rfl, exec_alone rfl hguard,
    exec_alone rfl rfl, exec_alone rfl hstore, exec, rest_eq_alone]

/-- A ticket is taken of a free lock. -/
def Shared.next (sh : Shared) : Shared := { sh with tail := sh.tail + 1, issued := sh.issued + 1 }

/-- A trylock and an unlock. -/
def tryRound : List (Fin 2 × Act) :=
  (0, .trylock) :: (0, .go 0) :: (0, .go 0) :: (0, .go 0) :: unlockSteps

/-- A trylock and an unlock of thread 0. -/
theorem exec_tryRound (sh : Shared) (hfree : sh.head = sh.tail + 1) :
    exec prog few (rest sh) tryRound
      = some (rest { sh.next with head := sh.next.tail + 1 }) := by
  have hd : sh.head - sh.tail = 1 := by
    rw [hfree, BitVec.add_comm, BitVec.add_sub_cancel]
  have htry : prog (0 : Fin 2) sh (.guard (.base (.tryHead sh.tail sh.issued))) (.go 0)
      = some (sh, .guard (.base (.tryCas sh.tail sh.issued))) := by
    show some (sh, Pc.guard (.base (if sh.head - sh.tail = 1 then _ else _))) = _
    rw [if_pos hd]
  have hcas : prog (0 : Fin 2) sh (.guard (.base (.tryCas sh.tail sh.issued))) (.go 0)
      = some (sh.next, .guard (.base .critical)) := by
    show same 0 .go sh _ = _
    simp [same, TicketGuard.prog, TicketIn.prog, TicketIn.ticketLockTrylock, Shared.next]
  rw [rest_eq_alone, tryRound, exec_alone rfl rfl, exec_alone rfl rfl, exec_alone rfl htry,
    exec_alone (by simp [TicketIn.Pc.few]) hcas, exec_unlockSteps sh.next hfree]

/-- A lock that samples its latency, and an unlock. -/
def lockRound : List (Fin 2 × Act) :=
  (0, .lock) :: (0, .go 0) :: (0, .go 0) :: (0, .go 0) :: unlockSteps

/-- A lock and an unlock of thread 0. -/
theorem exec_lockRound (sh : Shared) (hfree : sh.head = sh.tail + 1)
    (hprint : (sh.tail + 1) &&& printEvery ≠ 0) (hlatnc : (sh.tail + 1) &&& latncEvery = 0) :
    exec prog few (rest sh) lockRound = some (rest { sh.next with
      head := sh.next.tail + 1, sLat := 0, nLat := sh.nLat + 1 }) := by
  have htail : prog (0 : Fin 2) sh .addTail (.go 0)
      = some (sh.next, .startLat (sh.tail + 1)) := by
    show some (sh.next, afterTail (sh.tail + 1)) = _
    rw [afterTail, if_neg hprint, afterPrint, if_pos hlatnc]
  have hhead : prog (0 : Fin 2) { sh.next with sLat := 0 } (.readHead (sh.tail + 1) 0 true) (.go 0)
      = some ({ sh.next with sLat := 0, nLat := sh.nLat + 1 }, .guard (.base .critical)) := by
    show (if sh.tail + 1 - sh.head = 0 then _ else _) = _
    rw [hfree, BitVec.sub_self, if_pos rfl, Shared.acquired, if_pos hlatnc]
    simp [Shared.next]
  have hunlock := exec_unlockSteps { sh.next with sLat := 0, nLat := sh.nLat + 1 } hfree
  rw [rest_eq_alone, lockRound, exec_alone rfl rfl, exec_alone rfl htail, exec_alone rfl rfl,
    exec_alone rfl hhead, hunlock]

/-- A free lock of which `n` tickets were taken. -/
def Shared.taken (sh : Shared) (n : Nat) : Shared :=
  { sh with head := BitVec.ofNat 32 n + 1, tail := BitVec.ofNat 32 n, issued := n }

theorem taken_succ (sh : Shared) (n : Nat) :
    { (sh.taken n).next with head := (sh.taken n).next.tail + 1 } = sh.taken (n + 1) := by
  rw [Shared.taken, Shared.taken, BitVec.ofNat_add]
  rfl

/-- Any number of rounds. -/
theorem reach_rounds {init : Conf (Fin 2) Shared Pc → Prop} {sh : Shared} {m n : Nat}
    (hmn : m ≤ n) (h : Reach prog few init (rest (sh.taken m))) :
    Reach prog few init (rest (sh.taken n)) := by
  induction n, hmn using Nat.le_induction with
  | base => exact h
  | succ n _ ih =>
      have hround := exec_tryRound (sh.taken n) rfl
      rw [taken_succ] at hround
      exact ih.exec hround

/-- Thread 0 holds the lock with the last ticket before the wrap, thread 1 takes the next
    one and prints, and thread 0 enters the guard of its unlock. -/
def acrossWrap : List (Fin 2 × Act) :=
  [(0, .trylock), (0, .go 0), (0, .go 0), (0, .go 0), (1, .lock), (1, .go 0), (1, .go 0),
    (1, .go 0), (1, .go 0), (0, .unlock), (0, .go 0)]

/-- **An unlock that is blocked**: the holder of the last ticket before the wrap reads the
    `tail` of the thread that waits with ticket 0, and leaves without serving it. -/
theorem unlock_blocked : ∃ (c : Conf (Fin 2) Shared Pc) (r : Shared × Pc),
    Reach prog few (fun c => c = start) c ∧ Unlocks c 0 ∧ Waits c 1 0 ∧
    c.sh.head = 4294967295 ∧ prog (0 : Fin 2) c.sh (c.loc 0) (.go 0) = some r ∧
    r.2 = .guard (.base .idle) ∧ r.1 = c.sh := by
  have hfirst : Reach prog few (fun c => c = start) (rest (start.sh.taken 0)) := .start rfl
  have hlock := (reach_rounds (Nat.zero_le 1023) hfirst).exec
    (exec_lockRound _ rfl (by decide) (by decide))
  rw [show ({ (start.sh.taken 1023).next with
      head := (start.sh.taken 1023).next.tail + 1, sLat := 0, nLat := _ } : Shared)
    = ({ start.sh with nLat := 1 } : Shared).taken 1024 by rfl] at hlock
  have hwrap := reach_rounds (n := 4294967294) (by omega) hlock
  have hexec : (exec prog few (rest (({ start.sh with nLat := 1 } : Shared).taken 4294967294))
      acrossWrap).map (fun c => (c.loc 0, c.loc 1, c.sh.head))
        = some (.guard (.guardHead 0), .addQueue 0 1 1, 4294967295) := by
    decide +kernel
  obtain ⟨c, hc, heq⟩ := Option.map_eq_some_iff.mp hexec
  obtain ⟨h0, heq⟩ := Prod.mk.inj heq
  obtain ⟨h1, hhead⟩ := Prod.mk.inj heq
  change c.loc 0 = _ at h0
  change c.loc 1 = _ at h1
  change c.sh.head = _ at hhead
  have hview : ∀ t, (guardView c).loc t = (c.loc t).ticketGuard := fun _ => rfl
  refine ⟨c, (c.sh, .guard (.base .idle)), hwrap.exec hc, ⟨?_, ?_⟩, ?_, hhead, ?_, rfl, rfl⟩
  · rw [hview, h0]
    decide
  · rw [TicketGuard.Holds, hview, h0]
    rfl
  · rw [Waits, TicketGuard.Waits, hview, h1]
    rfl
  · rw [h0]
    show some (c.sh, Pc.guard (.base (if c.sh.head ≤ 0 then _ else _))) = _
    rw [hhead, if_neg (by decide)]

end LockProf
