import Mathlib.Data.BitVec
import Lockin.TicketQueue

/-! # The ticket lock

    `ticket_in.h`: one `ticket_lock_t` and any number of threads, one load, store or
    read-modify-write per step.  The ticket lock of `glk.c` is the same code.

    `ticket_lock_trylock` reads `tail`, then `head`, and then exchanges `tail`: its
    exchange may succeed although both counters have moved since, when `tail` has come
    round to the value read.  The number of tickets taken so far is kept as history, so
    that `few` can say that this did not happen. -/

namespace TicketIn

open Interleaving FifoLock

/-- A `ticket_lock_t`. -/
structure Shared where
  head : BitVec 32
  tail : BitVec 32
  /-- History: how many tickets have been taken. -/
  issued : Nat

/-- Where a thread is.  `last` is a value of `tail` that was read, and `seen`, which is
    history, the number of tickets taken until then. -/
inductive Pc where
  | idle
  | addTail
  | readHead (myTicket : BitVec 32)
  | tryTail
  | tryHead (last : BitVec 32) (seen : Nat)
  | tryCas (last : BitVec 32) (seen : Nat)
  | critical
  | loadHead
  | storeHead (head : BitVec 32)
  deriving DecidableEq

/-- The calls a thread may make; everything else is determined. -/
inductive Act where
  | lock
  | trylock
  | unlock
  | go

variable {Tid : Type}

/-- `ticket_lock_trylock`. -/
def ticketLockTrylock (sh : Shared) : Pc → Option (Shared × Pc)
  | .tryTail => some (sh, .tryHead sh.tail sh.issued)
  | .tryHead last seen => some (sh, if sh.head - last = 1 then .tryCas last seen else .idle)
  | .tryCas last _ =>
      if sh.tail = last then
        some ({ sh with tail := last + 1, issued := sh.issued + 1 }, .critical)
      else some (sh, .idle)
  | _ => none

/-- `ticket_lock_lock`. -/
def ticketLockLock (sh : Shared) : Pc → Option (Shared × Pc)
  | .addTail =>
      some ({ sh with tail := sh.tail + 1, issued := sh.issued + 1 }, .readHead (sh.tail + 1))
  | .readHead myTicket =>
      some (sh, if myTicket - sh.head = 0 then .critical else .readHead myTicket)
  | _ => none

/-- `ticket_lock_unlock`: `lock->head++` is a load and a store. -/
def ticketLockUnlock (sh : Shared) : Pc → Option (Shared × Pc)
  | .loadHead => some (sh, .storeHead sh.head)
  | .storeHead head => some ({ sh with head := head + 1 }, .idle)
  | _ => none

/-- One step of a thread. -/
def prog : Prog Tid Shared Pc Act
  | _, sh, .idle, .lock => some (sh, .addTail)
  | _, sh, .idle, .trylock => some (sh, .tryTail)
  | _, sh, .critical, .unlock => some (sh, .loadHead)
  | _, sh, pc, .go =>
      match pc with
      | .idle | .critical => none
      | .addTail | .readHead _ => ticketLockLock sh pc
      | .tryTail | .tryHead _ _ | .tryCas _ _ => ticketLockTrylock sh pc
      | .loadHead | .storeHead _ => ticketLockUnlock sh pc
  | _, _, _, _ => none

/-- The lock is free, whatever the value of its counters, and nobody is in a call.
    `ticket_lock_init` sets `head` to 1 and `tail` to 0. -/
structure Init (c : Conf Tid Shared Pc) : Prop where
  free : c.sh.head = c.sh.tail + 1
  issued : c.sh.issued = 0
  idle : ∀ t, c.loc t = .idle

/-- Fewer than `2 ^ 32` tickets have been taken since the thread read `tail`. -/
def Pc.few (issued : Nat) : Pc → Bool
  | .tryCas _ seen => issued < seen + 2 ^ 32
  | _ => true

/-- When the exchange of a trylock is executed, fewer than `2 ^ 32` tickets have been
    taken since its read of `tail`. -/
def few (c : Conf Tid Shared Pc) (t : Tid) (_ : Act) : Prop := (c.loc t).few c.sh.issued

instance (c : Conf Tid Shared Pc) (t : Tid) (a : Act) : Decidable (few c t a) :=
  inferInstanceAs (Decidable (_ = true))

/-! ## The ticket protocol -/

/-- What a thread does with the two counters. -/
@[simp] def Pc.ticketPc : Pc → TicketQueue.Pc 32
  | .idle => .idle
  | .addTail => .idle
  | .readHead myTicket => .wait myTicket
  | .tryTail => .idle
  | .tryHead _ _ => .idle
  | .tryCas _ _ => .idle
  | .critical => .held
  | .loadHead => .held
  | .storeHead head => .leave head

/-- A thread is in line from its increment of `tail` to its store to `head`. -/
@[simp] def Pc.phase : Pc → Phase
  | .idle => .out
  | .addTail => .out
  | .readHead _ => .waiting
  | .tryTail => .out
  | .tryHead _ _ => .out
  | .tryCas _ _ => .out
  | .critical => .holding
  | .loadHead => .holding
  | .storeHead _ => .holding

theorem ticketPc_phase (pc : Pc) : pc.ticketPc.phase = pc.phase := by cases pc <;> rfl

/-- The value of `tail` that a trylock relies on, and its age. -/
@[simp] def Pc.stamp : Pc → Option (BitVec 32 × Nat)
  | .tryHead last seen => some (last, seen)
  | .tryCas last seen => some (last, seen)
  | _ => none

/-- The two counters. -/
def Shared.counters (sh : Shared) : TicketQueue.Shared 32 := ⟨sh.head, sh.tail⟩

/-- The lock as the ticket protocol. -/
def ticketView (c : Conf Tid Shared Pc) : Conf Tid (TicketQueue.Shared 32) (TicketQueue.Pc 32) :=
  c.view Shared.counters fun _ pc => pc.ticketPc

/-- What a trylock knows: how many tickets were taken since it read `tail`, and that the
    lock was free when none was. -/
structure Stamps (c : Conf Tid Shared Pc) : Prop where
  age : ∀ t last seen, (c.loc t).stamp = some (last, seen) →
    seen ≤ c.sh.issued ∧ c.sh.tail = last + BitVec.ofNat 32 (c.sh.issued - seen)
  free : ∀ t last seen, c.loc t = .tryCas last seen → seen = c.sh.issued →
    c.sh.head = c.sh.tail + 1

namespace Stamps

variable {c : Conf Tid Shared Pc} {t : Tid}

/-- An exchange that succeeds finds a free lock. -/
theorem cas_free (h : Stamps c) {last : BitVec 32} {seen : Nat}
    (hl : c.loc t = .tryCas last seen) (hfew : c.sh.issued < seen + 2 ^ 32)
    (htail : c.sh.tail = last) : c.sh.head = c.sh.tail + 1 := by
  obtain ⟨hle, hage⟩ := h.age t last seen (by rw [hl]; rfl)
  refine h.free t last seen hl ?_
  have hzero : BitVec.ofNat 32 (c.sh.issued - seen) = BitVec.ofNat 32 0 := by
    refine (BitVec.add_right_inj last).mp ?_
    rw [← hage, htail]
    exact (BitVec.add_zero _).symm
  have := TicketQueue.ofNat_inj_of_lt (by omega) (Nat.two_pow_pos 32) hzero
  omega

variable [DecidableEq Tid]

/-- A step that leaves the counters alone. -/
theorem quiet (h : Stamps c) {pc : Pc}
    (hage : ∀ last seen, pc.stamp = some (last, seen) →
      seen ≤ c.sh.issued ∧ c.sh.tail = last + BitVec.ofNat 32 (c.sh.issued - seen))
    (hfree : ∀ last seen, pc = .tryCas last seen → seen = c.sh.issued →
      c.sh.head = c.sh.tail + 1) : Stamps (c.put t (c.sh, pc)) where
  age := by
    intro u last seen hu
    rw [put_loc] at hu
    split at hu
    · exact hage last seen hu
    · exact h.age u last seen hu
  free := by
    intro u last seen hu
    rw [put_loc] at hu
    split at hu
    · exact hfree last seen hu
    · exact h.free u last seen hu

/-- A ticket is taken: every trylock under way has become older. -/
theorem take (h : Stamps c) {pc : Pc} (hpc : pc.stamp = none) :
    Stamps (c.put t ({ c.sh with tail := c.sh.tail + 1, issued := c.sh.issued + 1 }, pc)) where
  age := by
    intro u last seen hu
    rw [put_loc] at hu
    split at hu
    · exact nomatch hpc.symm.trans hu
    · obtain ⟨hle, hage⟩ := h.age u last seen hu
      refine ⟨Nat.le_succ_of_le hle, ?_⟩
      show c.sh.tail + 1 = last + BitVec.ofNat 32 (c.sh.issued + 1 - seen)
      rw [show c.sh.issued + 1 - seen = c.sh.issued - seen + 1 by omega, BitVec.ofNat_add,
        ← BitVec.add_assoc, ← hage]
      rfl
  free := by
    intro u last seen hu hseen
    rw [put_loc] at hu
    split at hu
    · subst hu
      simp at hpc
    · have hle := (h.age u last seen (by rw [hu]; rfl)).1
      have : seen = c.sh.issued + 1 := hseen
      omega

/-- `head` is incremented: the lock was not free. -/
theorem serveNext (h : Stamps c) (hheld : c.sh.head ≠ c.sh.tail + 1) (head : BitVec 32) :
    Stamps (c.put t ({ c.sh with head := head }, .idle)) where
  age := by
    intro u last seen hu
    rw [put_loc] at hu
    split at hu
    · simp at hu
    · exact h.age u last seen hu
  free := by
    intro u last seen hu hseen
    rw [put_loc] at hu
    split at hu
    · simp at hu
    · exact absurd (h.free u last seen hu hseen) hheld

/-- Every step keeps the stamps right. -/
theorem step (h : Stamps c) {f : Fifo Tid} (hline : TicketQueue.Line (ticketView c) f)
    (hf : f.Ok fun u => (c.loc u).ticketPc.phase) {a : Act} {r : Shared × Pc}
    (hs : prog t c.sh (c.loc t) a = some r) : Stamps (c.put t r) := by
  cases hl : c.loc t with
  | idle | critical =>
      cases a <;> simp only [prog, hl, reduceCtorEq, Option.some.injEq] at hs <;> subst hs <;>
        exact h.quiet (by simp) (by simp)
  | addTail =>
      cases a <;> simp only [prog, hl, ticketLockLock, reduceCtorEq, Option.some.injEq] at hs
      subst hs
      exact h.take rfl
  | readHead x =>
      cases a <;> simp only [prog, hl, ticketLockLock, reduceCtorEq, Option.some.injEq] at hs
      subst hs
      split <;> exact h.quiet (by simp) (by simp)
  | tryTail =>
      cases a <;> simp only [prog, hl, ticketLockTrylock, reduceCtorEq, Option.some.injEq] at hs
      subst hs
      refine h.quiet ?_ (by simp)
      intro last seen hstamp
      obtain ⟨rfl, rfl⟩ := Prod.mk.inj (Option.some.inj hstamp)
      exact ⟨le_rfl, by simp⟩
  | tryHead last seen =>
      cases a <;> simp only [prog, hl, ticketLockTrylock, reduceCtorEq, Option.some.injEq] at hs
      subst hs
      have hage := h.age t last seen (by rw [hl]; rfl)
      split <;> rename_i hd
      · refine h.quiet ?_ ?_
        · intro last' seen' hstamp
          obtain ⟨rfl, rfl⟩ := Prod.mk.inj (Option.some.inj hstamp)
          exact hage
        · intro last' seen' hcas hseen
          obtain ⟨rfl, rfl⟩ := Pc.tryCas.inj hcas
          -- no ticket was taken since: `tail` still has the value read
          have htail : c.sh.tail = last := by
            rw [hage.2, hseen, Nat.sub_self]
            exact BitVec.add_zero _
          rw [htail, BitVec.sub_eq_iff_eq_add.mp hd, BitVec.add_comm]
      · exact h.quiet (by simp) (by simp)
  | tryCas last seen =>
      cases a <;> simp only [prog, hl, ticketLockTrylock, reduceCtorEq] at hs
      split at hs <;> rename_i htail <;> obtain rfl := Option.some.inj hs
      · subst htail
        exact h.take rfl
      · exact h.quiet (by simp) (by simp)
  | loadHead =>
      cases a <;> simp only [prog, hl, ticketLockUnlock, reduceCtorEq, Option.some.injEq] at hs
      subst hs
      exact h.quiet (by simp) (by simp)
  | storeHead x =>
      cases a <;> simp only [prog, hl, ticketLockUnlock, reduceCtorEq, Option.some.injEq] at hs
      subst hs
      refine h.serveNext ?_ _
      intro hfree
      have hempty := hline.free_of_head hf hfree
      have hturn := (hf.holding_at (t := t) (by rw [hl]; rfl)).1
      have := hturn.lt_length
      omega

end Stamps

/-- Every step is one of the ticket protocol, or leaves the counters alone, as long as there is
    room for a ticket that is taken and an exchange that succeeds finds a free lock. -/
theorem ticket_step {c : Conf Tid Shared Pc} {t : Tid} {a : Act} {r : Shared × Pc}
    (hroom : c.loc t = .addTail → c.sh.tail + 2 ≠ c.sh.head)
    (hcas : ∀ last seen, c.loc t = .tryCas last seen → c.sh.tail = last →
      c.sh.head = c.sh.tail + 1)
    (hs : prog t c.sh (c.loc t) a = some r) :
    Follows TicketQueue.prog TicketQueue.roomy (ticketView c) t
      (r.1.counters, r.2.ticketPc) := by
  have hstay : ∀ pc : Pc, pc.ticketPc = (c.loc t).ticketPc → Follows TicketQueue.prog
      TicketQueue.roomy (ticketView c) t (c.sh.counters, pc.ticketPc) :=
    fun pc hpc => Or.inl (Prod.ext rfl hpc)
  have hgo : ∀ a' r', TicketQueue.roomy (ticketView c) t a' →
      TicketQueue.prog t c.sh.counters (c.loc t).ticketPc a' = some r' →
      Follows TicketQueue.prog TicketQueue.roomy (ticketView c) t r' :=
    fun a' r' hok hs' => Or.inr ⟨a', hok, hs'⟩
  cases hl : c.loc t with
  | idle | critical =>
      cases a <;> simp only [prog, hl, reduceCtorEq, Option.some.injEq] at hs <;> subst hs <;>
        exact hstay _ (by rw [hl]; rfl)
  | addTail =>
      cases a <;> simp only [prog, hl, ticketLockLock, reduceCtorEq, Option.some.injEq] at hs
      subst hs
      exact hgo .lock _ (hroom hl) (by rw [hl]; rfl)
  | readHead x =>
      cases a <;> simp only [prog, hl, ticketLockLock, reduceCtorEq, Option.some.injEq] at hs
      subst hs
      by_cases hd : x - c.sh.head = 0
      · have hx : x = c.sh.head := (BitVec.sub_eq_iff_eq_add.mp hd).trans (BitVec.zero_add _)
        rw [if_pos hd]
        refine hgo .go _ trivial ?_
        rw [hl]
        simp [TicketQueue.prog, Shared.counters, hx]
      · rw [if_neg hd]
        exact hstay _ (by rw [hl])
  | tryTail =>
      cases a <;> simp only [prog, hl, ticketLockTrylock, reduceCtorEq, Option.some.injEq] at hs
      subst hs
      exact hstay _ (by rw [hl]; rfl)
  | tryHead last seen =>
      cases a <;> simp only [prog, hl, ticketLockTrylock, reduceCtorEq, Option.some.injEq] at hs
      subst hs
      split <;> exact hstay _ (by rw [hl]; rfl)
  | tryCas last seen =>
      cases a <;> simp only [prog, hl, ticketLockTrylock, reduceCtorEq] at hs
      split at hs <;> rename_i htail <;> obtain rfl := Option.some.inj hs
      · have hfree := hcas last seen hl htail
        subst htail
        refine hgo .take _ trivial ?_
        rw [hl]
        show (if c.sh.head = c.sh.tail + 1 then _ else none) = _
        rw [if_pos hfree]
        rfl
      · exact hstay _ (by rw [hl]; rfl)
  | loadHead =>
      cases a <;> simp only [prog, hl, ticketLockUnlock, reduceCtorEq, Option.some.injEq] at hs
      subst hs
      exact hgo .go _ trivial (by rw [hl]; rfl)
  | storeHead x =>
      cases a <;> simp only [prog, hl, ticketLockUnlock, reduceCtorEq, Option.some.injEq] at hs
      subst hs
      exact hgo .go _ trivial (by rw [hl]; rfl)

section

variable [Fintype Tid] [DecidableEq Tid]

/-- **The ticket lock is a first-come first-served lock.** -/
theorem sim (hcard : Fintype.card Tid < 2 ^ 32) :
    FifoSim prog few Init Pc.phase
      fun (c : Conf Tid Shared Pc) f => Stamps c ∧ TicketQueue.Line (ticketView c) f :=
  (TicketQueue.sim (by decide)).pullback ticketView Stamps (fun c t _ => ticketPc_phase (c.loc t))
    (fun c h0 => ⟨⟨fun t last seen h => by simp [h0.idle t] at h,
      fun t last seen h => by simp [h0.idle t] at h⟩,
      ⟨h0.free, fun t => by show (c.loc t).ticketPc = .idle; rw [h0.idle t]; rfl⟩⟩)
    (fun _ _ _ _ _ h hline hf _ hs => h.step hline hf hs)
    (fun c _ t _ r h hline hf hfew hs => by
      have hview : ticketView (c.put t r) = (ticketView c).put t (r.1.counters, r.2.ticketPc) :=
        view_put c t r
      have hroom : c.loc t = .addTail → c.sh.tail + 2 ≠ c.sh.head := fun hl =>
        hline.room hf hcard (by show (c.loc t).ticketPc.phase = .out; rw [hl]; rfl)
      have hcas : ∀ last seen, c.loc t = .tryCas last seen → c.sh.tail = last →
          c.sh.head = c.sh.tail + 1 := fun last seen hl =>
        h.cas_free hl (by simpa [few, Pc.few, hl] using hfew)
      rcases ticket_step hroom hcas hs with heq | ⟨a', hok, hs'⟩
      · left
        rw [hview, heq]
        exact put_self _ t
      · exact Or.inr ⟨a', _, hok, hs', hview⟩)

/-! ## Safety -/

/-- The thread has acquired the lock and not released it. -/
def Holds (c : Conf Tid Shared Pc) (t : Tid) : Prop := (c.loc t).phase = .holding

/-- The thread is in `ticket_lock_trylock`. -/
def Tries (c : Conf Tid Shared Pc) (t : Tid) : Prop :=
  c.loc t = .tryTail ∨ ∃ last seen, c.loc t = .tryHead last seen ∨ c.loc t = .tryCas last seen

/-- Nobody holds the lock or waits for it. -/
def Free (c : Conf Tid Shared Pc) : Prop := ∀ t, (c.loc t).phase = .out

omit [Fintype Tid] [DecidableEq Tid] in
/-- A step of `ticket_lock_trylock` that returns 0 takes the next ticket of a free lock,
    and no other step changes the lock. -/
theorem trylock_step {c : Conf Tid Shared Pc} {f : Fifo Tid} {t : Tid} {a : Act}
    {r : Shared × Pc} (h : Stamps c) (hline : TicketQueue.Line (ticketView c) f)
    (hf : f.Ok fun u => (c.loc u).ticketPc.phase) (htry : Tries c t) (hfew : few c t a)
    (hs : prog t c.sh (c.loc t) a = some r) :
    r.2 = .critical ∧ Free c ∧ r.1.tail = c.sh.tail + 1 ∧ r.1.head = c.sh.head ∨
      r.2 ≠ .critical ∧ r.1 = c.sh := by
  rcases htry with hl | ⟨last, seen, hl | hl⟩
  · cases a <;> simp only [prog, hl, ticketLockTrylock, reduceCtorEq, Option.some.injEq] at hs
    subst hs
    exact Or.inr ⟨by simp, rfl⟩
  · cases a <;> simp only [prog, hl, ticketLockTrylock, reduceCtorEq, Option.some.injEq] at hs
    subst hs
    refine Or.inr ⟨?_, rfl⟩
    split <;> simp
  · cases a <;> simp only [prog, hl, ticketLockTrylock, reduceCtorEq] at hs
    split at hs <;> rename_i htail <;> obtain rfl := Option.some.inj hs
    · have hfree := h.cas_free hl (by simpa [few, Pc.few, hl] using hfew) htail
      refine Or.inl ⟨rfl, fun u => ?_, by rw [htail], rfl⟩
      rw [← ticketPc_phase]
      exact (hline.free_iff hf).mp hfree u
    · exact Or.inr ⟨by simp, rfl⟩

/-- **Safety of the ticket lock**, with both counters wrapping round, for fewer than
    `2 ^ 32` threads.  In every run in which fewer than `2 ^ 32` tickets are taken between
    the read of `tail` and the exchange of a trylock: at most one thread holds the lock;
    the threads acquire in the order of their tickets; a trylock returns 0 exactly when it
    took the next ticket of a free lock; and `tail - head + 1` is the number of threads
    that hold the lock or wait for it. -/
theorem ticketLock_safe (hcard : Fintype.card Tid < 2 ^ 32) {c₀ c : Conf Tid Shared Pc}
    {tr : List (Move Tid Pc)} (h0 : Init c₀) (hrun : Run prog few c₀ tr c) :
    (∀ t u, Holds c t → Holds c u → t = u) ∧
    acquires Pc.phase tr <+: enters Pc.phase tr ∧
    (∀ t a r, Tries c t → few c t a → prog t c.sh (c.loc t) a = some r →
      (r.2 = .critical ↔ Free c ∧ r.1.tail = c.sh.tail + 1) ∧
      (r.2 ≠ .critical → r.1 = c.sh)) ∧
    (c.sh.tail - c.sh.head + 1).toNat
      = (Finset.univ.filter fun t => (c.loc t).phase ≠ .out).card := by
  obtain ⟨f, ⟨hstamps, hline⟩, hf⟩ := (sim hcard).reach (hrun.reach h0)
  have hf' : f.Ok fun u => (c.loc u).ticketPc.phase := by
    simpa only [ticketPc_phase] using hf
  refine ⟨fun t u => hf.holding_unique, (sim hcard).acquires_in_order h0 hrun, ?_, ?_⟩
  · intro t a r htry hfew hs
    rcases trylock_step hstamps hline hf' htry hfew hs with ⟨h1, h2, h3, -⟩ | ⟨h1, h2⟩
    · exact ⟨iff_of_true h1 ⟨h2, h3⟩, fun h => absurd h1 h⟩
    · refine ⟨iff_of_false h1 ?_, fun _ => h2⟩
      rintro ⟨-, htail⟩
      rw [h2] at htail
      have : BitVec.ofNat 32 0 = BitVec.ofNat 32 1 :=
        (BitVec.add_right_inj c.sh.tail).mp ((BitVec.add_zero _).trans htail)
      exact absurd this (by decide)
  · have hcount := hline.count hf'
    have hphase : ∀ t, ((ticketView c).loc t).phase = (c.loc t).phase :=
      fun t => ticketPc_phase (c.loc t)
    simp only [hphase] at hcount
    exact hcount

end

/-- A free lock, just before its counters wrap round. -/
def start : Conf (Fin 3) Shared Pc := ⟨⟨0, 2 ^ 32 - 1, 0⟩, fun _ => .idle⟩

theorem start_init : Init start := by
  constructor
  · rfl
  · rfl
  · exact fun _ => rfl

/-- Thread 0 takes ticket 0 with a trylock, thread 1 waits with ticket 1, thread 2 tries in
    vain, and thread 0 unlocks. -/
def wrapAround : List (Fin 3 × Act) :=
  [(0, .trylock), (0, .go), (0, .go), (0, .go), (1, .lock), (1, .go), (1, .go), (2, .trylock),
    (2, .go), (2, .go), (0, .unlock), (0, .go), (0, .go), (1, .go), (2, .trylock)]

theorem ticketLock_safe_wrapAround :
    ∃ (tr : List (Move (Fin 3) Pc)) (c : Conf (Fin 3) Shared Pc),
      exec prog few start wrapAround = some c ∧ c.loc 1 = .critical ∧ c.sh.head = 1 ∧
      (∀ t u, Holds c t → Holds c u → t = u) ∧
      acquires Pc.phase tr <+: enters Pc.phase tr ∧
      (∀ t a r, Tries c t → few c t a → prog t c.sh (c.loc t) a = some r →
        (r.2 = .critical ↔ Free c ∧ r.1.tail = c.sh.tail + 1) ∧
        (r.2 ≠ .critical → r.1 = c.sh)) ∧
      (c.sh.tail - c.sh.head + 1).toNat
        = (Finset.univ.filter fun t => (c.loc t).phase ≠ .out).card := by
  obtain ⟨c, hc, h1, hhead⟩ : ∃ c : Conf (Fin 3) Shared Pc,
      exec prog few start wrapAround = some c ∧ c.loc 1 = .critical ∧ c.sh.head = 1 :=
    ⟨_, rfl, rfl, rfl⟩
  obtain ⟨tr, hrun⟩ := run_of_exec hc
  exact ⟨tr, c, hc, h1, hhead, ticketLock_safe (by decide) start_init hrun⟩

end TicketIn
