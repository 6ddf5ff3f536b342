import Lockin.TicketIn

/-! # The ticket lock that sleeps

    `ticket_fu_in.h`: the ticket lock, whose waiters sleep on `head` as long as they are
    not next in line.  A waiter passes to `FUTEX_WAIT` the value of `head` it has read
    before, and sleeps when `head` still has that value; `ticket_fu_lock_unlock` changes
    `head` first and wakes all sleepers after.

    To the ticket protocol the sleeping is invisible (`ticketIn`): every step is one of
    `ticket_in.h` or leaves the counters alone. -/

namespace TicketFu

open Interleaving FifoLock

/-- A `ticket_fu_lock_t`, and the kernel's queue of threads asleep on `head`. -/
structure Shared (Tid : Type) where
  head : BitVec 32
  tail : BitVec 32
  asleep : List Tid
  /-- History: how many tickets have been taken. -/
  issued : Nat

/-- Where a thread is.  In `futexWait` and `blocked`, `head` is the value it passes to the
    kernel; in `wakeAll`, which is history, the value that it has incremented. -/
inductive Pc where
  | idle
  | addTail
  | readHead (myTicket : BitVec 32)
  | futexWait (myTicket head : BitVec 32)
  | blocked (myTicket head : BitVec 32)
  | rereadHead (myTicket : BitVec 32)
  | spin (myTicket : BitVec 32)
  | tryTail
  | tryHead (last : BitVec 32) (seen : Nat)
  | tryCas (last : BitVec 32) (seen : Nat)
  | critical
  | loadHead
  | storeHead (head : BitVec 32)
  | wakeAll (head : BitVec 32)
  deriving DecidableEq

/-- The calls a thread may make, and a return from the kernel without a cause. -/
inductive Act where
  | lock
  | trylock
  | unlock
  | go
  | spurious

/-- `INT_MAX`. -/
def intMax : Nat := 2147483647

variable {Tid : Type}

/-- `ticket_fu_lock_trylock`. -/
def ticketFuLockTrylock (sh : Shared Tid) : Pc → Act → Option (Shared Tid × Pc)
  | .tryTail, .go => some (sh, .tryHead sh.tail sh.issued)
  | .tryHead last seen, .go =>
      some (sh, if sh.head - last = 1 then .tryCas last seen else .idle)
  | .tryCas last _, .go =>
      if sh.tail = last then
        some ({ sh with tail := last + 1, issued := sh.issued + 1 }, .critical)
      else some (sh, .idle)
  | _, _ => none

/-- The test before a sleep, with `distance` a signed `int`. -/
def waitOrSpin (myTicket head : BitVec 32) : Pc :=
  if (myTicket - head).toInt > 1 then .futexWait myTicket head else .spin myTicket

/-- `ticket_fu_lock_lock`. -/
def ticketFuLockLock [DecidableEq Tid] (t : Tid) (sh : Shared Tid) :
    Pc → Act → Option (Shared Tid × Pc)
  | .addTail, .go =>
      some ({ sh with tail := sh.tail + 1, issued := sh.issued + 1 }, .readHead (sh.tail + 1))
  | .readHead myTicket, .go =>
      some (sh, if myTicket - sh.head = 0 then .critical else waitOrSpin myTicket sh.head)
  | .futexWait myTicket head, .go =>
      if sh.head = head then
        some ({ sh with asleep := sh.asleep ++ [t] }, .blocked myTicket head)
      else some (sh, .rereadHead myTicket)
  | .blocked myTicket _, .go => if t ∈ sh.asleep then none else some (sh, .rereadHead myTicket)
  | .blocked myTicket _, .spurious =>
      if t ∈ sh.asleep then
        some ({ sh with asleep := sh.asleep.filter (· ≠ t) }, .rereadHead myTicket)
      else none
  | .rereadHead myTicket, .go => some (sh, waitOrSpin myTicket sh.head)
  | .spin myTicket, .go =>
      some (sh, if myTicket - sh.head = 0 then .critical else .spin myTicket)
  | _, _ => none

/-- `ticket_fu_lock_unlock`: `lock->head++` is a load and a store, and `FUTEX_WAKE` wakes
    the first `INT_MAX` sleepers. -/
def ticketFuLockUnlock (sh : Shared Tid) : Pc → Act → Option (Shared Tid × Pc)
  | .loadHead, .go => some (sh, .storeHead sh.head)
  | .storeHead head, .go => some ({ sh with head := head + 1 }, .wakeAll head)
  | .wakeAll _, .go => some ({ sh with asleep := sh.asleep.drop intMax }, .idle)
  | _, _ => none

/-- Start a call. -/
def call : Pc → Act → Option Pc
  | .idle, .lock => some .addTail
  | .idle, .trylock => some .tryTail
  | .critical, .unlock => some .loadHead
  | _, _ => none

/-- One step of a thread. -/
def prog [DecidableEq Tid] : Prog Tid (Shared Tid) Pc Act := fun t sh pc a =>
  match pc with
  | .idle | .critical => (call pc a).map fun pc' => (sh, pc')
  | .addTail | .readHead _ | .futexWait _ _ | .blocked _ _ | .rereadHead _ | .spin _ =>
      ticketFuLockLock t sh pc a
  | .tryTail | .tryHead _ _ | .tryCas _ _ => ticketFuLockTrylock sh pc a
  | .loadHead | .storeHead _ | .wakeAll _ => ticketFuLockUnlock sh pc a

/-- The lock is free, whatever the value of its counters, and nobody is in a call.
    `ticket_fu_lock_init` sets `head` to 1 and `tail` to 0. -/
structure Init (c : Conf Tid (Shared Tid) Pc) : Prop where
  free : c.sh.head = c.sh.tail + 1
  issued : c.sh.issued = 0
  asleep : c.sh.asleep = []
  idle : ∀ t, c.loc t = .idle

/-! ## The ticket lock underneath -/

/-- Where the thread is in `ticket_in.h`. -/
@[simp] def Pc.ticketIn : Pc → TicketIn.Pc
  | .idle => .idle
  | .addTail => .addTail
  | .readHead myTicket => .readHead myTicket
  | .futexWait myTicket _ => .readHead myTicket
  | .blocked myTicket _ => .readHead myTicket
  | .rereadHead myTicket => .readHead myTicket
  | .spin myTicket => .readHead myTicket
  | .tryTail => .tryTail
  | .tryHead last seen => .tryHead last seen
  | .tryCas last seen => .tryCas last seen
  | .critical => .critical
  | .loadHead => .loadHead
  | .storeHead head => .storeHead head
  | .wakeAll _ => .idle

/-- The lock without the sleepers. -/
def Shared.ticketIn (sh : Shared Tid) : TicketIn.Shared := ⟨sh.head, sh.tail, sh.issued⟩

/-- The lock as the one of `ticket_in.h`. -/
def ticketIn (c : Conf Tid (Shared Tid) Pc) : Conf Tid TicketIn.Shared TicketIn.Pc :=
  c.view Shared.ticketIn fun _ pc => pc.ticketIn

/-- A thread is in line from its increment of `tail` to its store to `head`. -/
def Pc.phase (pc : Pc) : Phase := pc.ticketIn.phase

/-- When the exchange of a trylock is executed, fewer than `2 ^ 32` tickets have been
    taken since its read of `tail`. -/
def few (c : Conf Tid (Shared Tid) Pc) (t : Tid) (_ : Act) : Prop :=
  (c.loc t).ticketIn.few c.sh.issued

instance (c : Conf Tid (Shared Tid) Pc) (t : Tid) (a : Act) : Decidable (few c t a) :=
  inferInstanceAs (Decidable (_ = true))

@[simp] theorem waitOrSpin_ticketIn (x h : BitVec 32) :
    (waitOrSpin x h).ticketIn = .readHead x := by
  unfold waitOrSpin
  split <;> rfl

variable [DecidableEq Tid]

/-- Every step is one of `ticket_in.h`, or leaves the counters alone. -/
theorem ticketIn_step {c : Conf Tid (Shared Tid) Pc} {t : Tid} {a : Act}
    {r : Shared Tid × Pc} (hfew : few c t a) (hs : prog t c.sh (c.loc t) a = some r) :
    Follows TicketIn.prog TicketIn.few (ticketIn c) t (r.1.ticketIn, r.2.ticketIn) := by
  -- the steps around the futex are none of the ticket lock's
  have hstay : r.1.ticketIn = c.sh.ticketIn → r.2.ticketIn = (c.loc t).ticketIn → Follows
      TicketIn.prog TicketIn.few (ticketIn c) t (r.1.ticketIn, r.2.ticketIn) :=
    fun hsh hpc => Or.inl (Prod.ext hsh hpc)
  have hgo : ∀ a', TicketIn.prog t c.sh.ticketIn (c.loc t).ticketIn a'
      = some (r.1.ticketIn, r.2.ticketIn) → Follows TicketIn.prog TicketIn.few (ticketIn c) t
        (r.1.ticketIn, r.2.ticketIn) := fun a' hs' => Or.inr ⟨a', hfew, hs'⟩
  cases hl : c.loc t with
  | idle =>
      cases a <;> simp only [prog, hl, call, Option.map_some, Option.map_none, reduceCtorEq,
        Option.some.injEq] at hs <;> subst hs
      · exact hgo .lock (by rw [hl]; rfl)
      · exact hgo .trylock (by rw [hl]; rfl)
  | critical =>
      cases a <;> simp only [prog, hl, call, Option.map_some, Option.map_none, reduceCtorEq,
        Option.some.injEq] at hs
      subst hs
      exact hgo .unlock (by rw [hl]; rfl)
  | addTail =>
      cases a <;> simp only [prog, hl, ticketFuLockLock, reduceCtorEq, Option.some.injEq] at hs
      subst hs
      exact hgo .go (by rw [hl]; rfl)
  | readHead x =>
      cases a <;> simp only [prog, hl, ticketFuLockLock, reduceCtorEq, Option.some.injEq] at hs
      subst hs
      refine hgo .go ?_
      rw [hl]
      by_cases hd : x - c.sh.head = 0
      · rw [if_pos hd]
        simp only [Pc.ticketIn, TicketIn.prog, TicketIn.ticketLockLock]
        rw [if_pos (show x - c.sh.ticketIn.head = 0 from hd)]
      · rw [if_neg hd, waitOrSpin_ticketIn]
        simp only [Pc.ticketIn, TicketIn.prog, TicketIn.ticketLockLock]
        rw [if_neg (show ¬ x - c.sh.ticketIn.head = 0 from hd)]
  | futexWait x h =>
      cases a <;> simp only [prog, hl, ticketFuLockLock, reduceCtorEq] at hs
      split at hs <;> obtain rfl := Option.some.inj hs <;> exact hstay rfl (by rw [hl]; rfl)
  | blocked x h =>
      cases a <;> simp only [prog, hl, ticketFuLockLock, reduceCtorEq] at hs
      · obtain ⟨-, hs⟩ := Option.ite_none_left_eq_some.mp hs
        obtain rfl := Option.some.inj hs
        exact hstay rfl (by rw [hl]; rfl)
      · obtain ⟨-, hs⟩ := Option.ite_none_right_eq_some.mp hs
        obtain rfl := Option.some.inj hs
        exact hstay rfl (by rw [hl]; rfl)
  | rereadHead x =>
      cases a <;> simp only [prog, hl, ticketFuLockLock, reduceCtorEq, Option.some.injEq] at hs
      subst hs
      exact hstay rfl (by rw [hl]; exact waitOrSpin_ticketIn _ _)
  | spin x =>
      cases a <;> simp only [prog, hl, ticketFuLockLock, reduceCtorEq, Option.some.injEq] at hs
      subst hs
      refine hgo .go ?_
      rw [hl]
      by_cases hd : x - c.sh.head = 0
      · rw [if_pos hd]
        simp only [Pc.ticketIn, TicketIn.prog, TicketIn.ticketLockLock]
        rw [if_pos (show x - c.sh.ticketIn.head = 0 from hd)]
      · rw [if_neg hd]
        simp only [Pc.ticketIn, TicketIn.prog, TicketIn.ticketLockLock]
        rw [if_neg (show ¬ x - c.sh.ticketIn.head = 0 from hd)]
  | tryTail =>
      cases a <;> simp only [prog, hl, ticketFuLockTrylock, reduceCtorEq, Option.some.injEq] at hs
      subst hs
      exact hgo .go (by rw [hl]; rfl)
  | tryHead last seen =>
      cases a <;> simp only [prog, hl, ticketFuLockTrylock, reduceCtorEq, Option.some.injEq] at hs
      subst hs
      refine hgo .go ?_
      rw [hl]
      by_cases hd : c.sh.head - last = 1
      · rw [if_pos hd]
        simp only [Pc.ticketIn, TicketIn.prog, TicketIn.ticketLockTrylock]
        rw [if_pos (show c.sh.ticketIn.head - last = 1 from hd)]
      · rw [if_neg hd]
        simp only [Pc.ticketIn, TicketIn.prog, TicketIn.ticketLockTrylock]
        rw [if_neg (show ¬ c.sh.ticketIn.head - last = 1 from hd)]
  | tryCas last seen =>
      cases a <;> simp only [prog, hl, ticketFuLockTrylock, reduceCtorEq] at hs
      split at hs <;> rename_i htail <;> obtain rfl := Option.some.inj hs
      · refine hgo .go ?_
        rw [hl]
        simp only [Pc.ticketIn, TicketIn.prog, TicketIn.ticketLockTrylock]
        rw [if_pos (show c.sh.ticketIn.tail = last from htail)]
        rfl
      · refine hgo .go ?_
        rw [hl]
        simp only [Pc.ticketIn, TicketIn.prog, TicketIn.ticketLockTrylock]
        rw [if_neg (show ¬ c.sh.ticketIn.tail = last from htail)]
  | loadHead =>
      cases a <;> simp only [prog, hl, ticketFuLockUnlock, reduceCtorEq, Option.some.injEq] at hs
      subst hs
      exact hgo .go (by rw [hl]; rfl)
  | storeHead x =>
      cases a <;> simp only [prog, hl, ticketFuLockUnlock, reduceCtorEq, Option.some.injEq] at hs
      subst hs
      exact hgo .go (by rw [hl]; rfl)
  | wakeAll x =>
      cases a <;> simp only [prog, hl, ticketFuLockUnlock, reduceCtorEq, Option.some.injEq] at hs
      subst hs
      exact hstay rfl (by rw [hl]; rfl)

/-! ## Sleepers -/

/-- The threads asleep on `head`: they sleep on a value that is not their ticket, and when
    `head` has changed since, whoever changed it has yet to wake everybody. -/
structure Sleepers (c : Conf Tid (Shared Tid) Pc) : Prop where
  nodup : c.sh.asleep.Nodup
  blocked : ∀ t, t ∈ c.sh.asleep → ∃ x h, c.loc t = .blocked x h ∧
    (c.sh.head = h ∨ ∃ u, c.loc u = .wakeAll h)
  far : ∀ t x h, c.loc t = .futexWait x h ∨ c.loc t = .blocked x h → x ≠ h

theorem waitOrSpin_far {x head : BitVec 32} {y h : BitVec 32}
    (heq : waitOrSpin x head = .futexWait y h) : y ≠ h := by
  unfold waitOrSpin at heq
  split at heq
  · rename_i hfar
    obtain ⟨rfl, rfl⟩ := Pc.futexWait.inj heq
    rintro rfl
    rw [BitVec.sub_self] at hfar
    exact absurd hfar (by decide)
  · simp at heq

theorem waitOrSpin_ne_blocked {x head y h : BitVec 32} : waitOrSpin x head ≠ .blocked y h := by
  unfold waitOrSpin
  split <;> simp

namespace Sleepers

variable {c : Conf Tid (Shared Tid) Pc} {t : Tid}

omit [DecidableEq Tid] in
/-- Only a thread in the futex call is asleep. -/
theorem awake (h : Sleepers c) (hl : ∀ x hd, c.loc t ≠ .blocked x hd) : t ∉ c.sh.asleep := by
  intro hs
  obtain ⟨x, hd, hb, -⟩ := h.blocked t hs
  exact hl x hd hb

/-- A thread that is awake moves, and neither changes `head` nor owes a wake. -/
theorem quiet (h : Sleepers c) {sh' : Shared Tid} {pc : Pc} (hawake : t ∉ c.sh.asleep)
    (howe : ∀ hd, c.loc t ≠ .wakeAll hd) (hasleep : sh'.asleep = c.sh.asleep)
    (hhead : sh'.head = c.sh.head)
    (hfar : ∀ x hd, pc = .futexWait x hd ∨ pc = .blocked x hd → x ≠ hd) :
    Sleepers (c.put t (sh', pc)) where
  nodup := by
    show sh'.asleep.Nodup
    rw [hasleep]
    exact h.nodup
  blocked := by
    intro u hu
    have hu' : u ∈ c.sh.asleep := by
      have : u ∈ sh'.asleep := hu
      rwa [hasleep] at this
    have hut : u ≠ t := by rintro rfl; exact hawake hu'
    obtain ⟨x, hd, hb, hor⟩ := h.blocked u hu'
    refine ⟨x, hd, by rw [put_loc_ne c _ hut, hb], hor.imp (fun heq => hhead.trans heq) ?_⟩
    rintro ⟨v, hv⟩
    have hvt : v ≠ t := by rintro rfl; exact howe hd hv
    exact ⟨v, by rw [put_loc_ne c _ hvt, hv]⟩
  far := by
    intro u x hd hu
    rw [put_loc] at hu
    split at hu
    · exact hfar x hd hu
    · exact h.far u x hd hu

/-- A waiter falls asleep: `head` still has the value it passed. -/
theorem sleep (h : Sleepers c) {x hd : BitVec 32} (hl : c.loc t = .futexWait x hd)
    (hhead : c.sh.head = hd) :
    Sleepers (c.put t ({ c.sh with asleep := c.sh.asleep ++ [t] }, .blocked x hd)) where
  nodup := by
    have hawake := h.awake (t := t) (by simp [hl])
    refine h.nodup.append (List.nodup_singleton t) ?_
    intro u hu hut
    obtain rfl := List.mem_singleton.mp hut
    exact hawake hu
  blocked := by
    intro u hu
    rcases List.mem_append.mp hu with hu' | hu'
    · have hut : u ≠ t := by rintro rfl; exact h.awake (by simp [hl]) hu'
      obtain ⟨y, hd', hb, hor⟩ := h.blocked u hu'
      refine ⟨y, hd', by rw [put_loc_ne c _ hut, hb], hor.imp id ?_⟩
      rintro ⟨v, hv⟩
      have hvt : v ≠ t := by rintro rfl; simp [hl] at hv
      exact ⟨v, by rw [put_loc_ne c _ hvt, hv]⟩
    · obtain rfl := List.mem_singleton.mp hu'
      exact ⟨x, hd, put_loc_self .., Or.inl hhead⟩
  far := by
    intro u y hd' hu
    rw [put_loc] at hu
    split at hu
    · obtain ⟨rfl, rfl⟩ : x = y ∧ hd = hd' := by simpa using hu
      exact h.far t _ _ (Or.inl hl)
    · exact h.far u y hd' hu

/-- A waiter leaves the kernel by itself. -/
theorem leave (h : Sleepers c) {x y hd : BitVec 32} (hl : c.loc t = .blocked x hd) :
    Sleepers (c.put t ({ c.sh with asleep := c.sh.asleep.filter (· ≠ t) }, .rereadHead y)) where
  nodup := h.nodup.filter _
  blocked := by
    intro u hu
    obtain ⟨hu', hne⟩ := List.mem_filter.mp hu
    have hut : u ≠ t := by simpa using hne
    obtain ⟨z, hd', hb, hor⟩ := h.blocked u hu'
    refine ⟨z, hd', by rw [put_loc_ne c _ hut, hb], hor.imp id ?_⟩
    rintro ⟨v, hv⟩
    have hvt : v ≠ t := by rintro rfl; simp [hl] at hv
    exact ⟨v, by rw [put_loc_ne c _ hvt, hv]⟩
  far := by
    intro u z hd' hu
    rw [put_loc] at hu
    split at hu
    · simp at hu
    · exact h.far u z hd' hu

/-- The holder changes `head`, and owes a wake to whoever sleeps on the old value. -/
theorem serveNext (h : Sleepers c) (hl : c.loc t = .storeHead c.sh.head) :
    Sleepers (c.put t ({ c.sh with head := c.sh.head + 1 }, .wakeAll c.sh.head)) where
  nodup := h.nodup
  blocked := by
    intro u hu
    have hut : u ≠ t := by rintro rfl; exact h.awake (by simp [hl]) hu
    obtain ⟨x, hd, hb, hor⟩ := h.blocked u hu
    refine ⟨x, hd, by rw [put_loc_ne c _ hut, hb], Or.inr ?_⟩
    rcases hor with rfl | ⟨v, hv⟩
    · exact ⟨t, put_loc_self ..⟩
    · have hvt : v ≠ t := by rintro rfl; simp [hl] at hv
      exact ⟨v, by rw [put_loc_ne c _ hvt, hv]⟩
  far := by
    intro u x hd hu
    rw [put_loc] at hu
    split at hu
    · simp at hu
    · exact h.far u x hd hu

/-- Everybody is woken. -/
theorem wake [Fintype Tid] (h : Sleepers c) (hcard : Fintype.card Tid < 2 ^ 31) :
    Sleepers (c.put t ({ c.sh with asleep := c.sh.asleep.drop intMax }, .idle)) := by
  have hnil : c.sh.asleep.drop intMax = [] := by
    have hlen := h.nodup.length_le_card
    refine List.drop_eq_nil_of_le (hlen.trans ?_)
    unfold intMax
    omega
  rw [hnil]
  refine ⟨List.nodup_nil, fun u hu => (nomatch hu), ?_⟩
  intro u x hd hu
  rw [put_loc] at hu
  split at hu
  · simp at hu
  · exact h.far u x hd hu

/-- Every step keeps the sleepers safe. -/
theorem step [Fintype Tid] (hcard : Fintype.card Tid < 2 ^ 31) (h : Sleepers c) {f : Fifo Tid}
    (hline : TicketQueue.Line (TicketIn.ticketView (ticketIn c)) f) {a : Act}
    {r : Shared Tid × Pc} (hs : prog t c.sh (c.loc t) a = some r) : Sleepers (c.put t r) := by
  cases hl : c.loc t with
  | idle | critical =>
      cases a <;> simp only [prog, hl, call, Option.map_some, Option.map_none, reduceCtorEq,
        Option.some.injEq] at hs <;> subst hs <;>
        exact h.quiet (h.awake (by simp [hl])) (by simp [hl]) rfl rfl (by simp)
  | addTail =>
      cases a <;> simp only [prog, hl, ticketFuLockLock, reduceCtorEq, Option.some.injEq] at hs
      subst hs
      exact h.quiet (h.awake (by simp [hl])) (by simp [hl]) rfl rfl (by simp)
  | readHead x =>
      cases a <;> simp only [prog, hl, ticketFuLockLock, reduceCtorEq, Option.some.injEq] at hs
      subst hs
      refine h.quiet (h.awake (by simp [hl])) (by simp [hl]) rfl rfl ?_
      split
      · simp
      · rintro y hd (heq | heq)
        · exact waitOrSpin_far heq
        · exact absurd heq waitOrSpin_ne_blocked
  | futexWait x hd =>
      cases a <;> simp only [prog, hl, ticketFuLockLock, reduceCtorEq] at hs
      split at hs <;> rename_i hhead <;> obtain rfl := Option.some.inj hs
      · exact h.sleep hl hhead
      · exact h.quiet (h.awake (by simp [hl])) (by simp [hl]) rfl rfl (by simp)
  | blocked x hd =>
      cases a <;> simp only [prog, hl, ticketFuLockLock, reduceCtorEq] at hs
      · obtain ⟨hawake, hs⟩ := Option.ite_none_left_eq_some.mp hs
        obtain rfl := Option.some.inj hs
        exact h.quiet hawake (by simp [hl]) rfl rfl (by simp)
      · obtain ⟨-, hs⟩ := Option.ite_none_right_eq_some.mp hs
        obtain rfl := Option.some.inj hs
        exact h.leave hl
  | rereadHead x =>
      cases a <;> simp only [prog, hl, ticketFuLockLock, reduceCtorEq, Option.some.injEq] at hs
      subst hs
      refine h.quiet (h.awake (by simp [hl])) (by simp [hl]) rfl rfl ?_
      rintro y hd (heq | heq)
      · exact waitOrSpin_far heq
      · exact absurd heq waitOrSpin_ne_blocked
  | spin x =>
      cases a <;> simp only [prog, hl, ticketFuLockLock, reduceCtorEq, Option.some.injEq] at hs
      subst hs
      refine h.quiet (h.awake (by simp [hl])) (by simp [hl]) rfl rfl ?_
      split <;> simp
  | tryTail =>
      cases a <;> simp only [prog, hl, ticketFuLockTrylock, reduceCtorEq, Option.some.injEq] at hs
      subst hs
      exact h.quiet (h.awake (by simp [hl])) (by simp [hl]) rfl rfl (by simp)
  | tryHead last seen =>
      cases a <;> simp only [prog, hl, ticketFuLockTrylock, reduceCtorEq, Option.some.injEq] at hs
      subst hs
      refine h.quiet (h.awake (by simp [hl])) (by simp [hl]) rfl rfl ?_
      split <;> simp
  | tryCas last seen =>
      cases a <;> simp only [prog, hl, ticketFuLockTrylock, reduceCtorEq] at hs
      split at hs <;> obtain rfl := Option.some.inj hs <;>
        exact h.quiet (h.awake (by simp [hl])) (by simp [hl]) rfl rfl (by simp)
  | loadHead =>
      cases a <;> simp only [prog, hl, ticketFuLockUnlock, reduceCtorEq, Option.some.injEq] at hs
      subst hs
      exact h.quiet (h.awake (by simp [hl])) (by simp [hl]) rfl rfl (by simp)
  | storeHead x =>
      cases a <;> simp only [prog, hl, ticketFuLockUnlock, reduceCtorEq, Option.some.injEq] at hs
      subst hs
      -- nobody has changed `head` since the load
      obtain rfl : x = c.sh.head := hline.leaving t x (by
        show (c.loc t).ticketIn.ticketPc = .leave x
        rw [hl]
        rfl)
      exact h.serveNext hl
  | wakeAll x =>
      cases a <;> simp only [prog, hl, ticketFuLockUnlock, reduceCtorEq, Option.some.injEq] at hs
      subst hs
      exact h.wake hcard

end Sleepers

section

variable [Fintype Tid]

/-- **The sleeping ticket lock is a first-come first-served lock**, and its sleepers are
    safe. -/
theorem sim (hcard : Fintype.card Tid < 2 ^ 31) : FifoSim prog few Init Pc.phase
    fun (c : Conf Tid (Shared Tid) Pc) f => Sleepers c ∧
      TicketIn.Stamps (ticketIn c) ∧ TicketQueue.Line (TicketIn.ticketView (ticketIn c)) f :=
  (TicketIn.sim (by omega)).pullback ticketIn Sleepers (fun _ _ _ => rfl)
    (fun c h0 => ⟨⟨by rw [h0.asleep]; exact List.nodup_nil,
      fun t ht => by rw [h0.asleep] at ht; simp at ht,
      fun t x h hl => by simp [h0.idle t] at hl⟩,
      ⟨h0.free, h0.issued, fun t => by show (c.loc t).ticketIn = .idle; rw [h0.idle t]; rfl⟩⟩)
    (fun _ _ _ _ _ h hR _ _ hs => h.step hcard hR.2 hs)
    (fun c _ t _ r _ _ _ hfew hs => by
      have hview : ticketIn (c.put t r) = (ticketIn c).put t (r.1.ticketIn, r.2.ticketIn) :=
        view_put c t r
      rcases ticketIn_step hfew hs with heq | ⟨a', hok, hs'⟩
      · left
        rw [hview, heq]
        exact put_self _ t
      · exact Or.inr ⟨a', _, hok, hs', hview⟩)

/-- The thread has acquired the lock and not released it. -/
def Holds (c : Conf Tid (Shared Tid) Pc) (t : Tid) : Prop := (c.loc t).phase = .holding

/-- **Safety without lost wake-ups**, with both counters wrapping round, for fewer than
    `2 ^ 31` threads and runs in which fewer than `2 ^ 32` tickets are taken between the
    read of `tail` and the exchange of a trylock.  At most one thread holds the lock; the
    threads acquire in the order of their tickets; a thread asleep sleeps on the value that
    `head` has, or the unlocker that incremented this value has yet to wake everybody; and
    when no unlocker has, the thread whose ticket is served is not asleep. -/
theorem ticketFuLock_safe (hcard : Fintype.card Tid < 2 ^ 31) {c₀ c : Conf Tid (Shared Tid) Pc}
    {tr : List (Move Tid Pc)} (h0 : Init c₀) (hrun : Run prog few c₀ tr c) :
    (∀ t u, Holds c t → Holds c u → t = u) ∧
    acquires Pc.phase tr <+: enters Pc.phase tr ∧
    (∀ t, t ∈ c.sh.asleep → ∃ x h, c.loc t = .blocked x h ∧
      (c.sh.head = h ∨ ∃ u, c.loc u = .wakeAll h)) ∧
    ((∀ u h, c.loc u ≠ .wakeAll h) →
      ∀ t x h, c.loc t = .blocked x h → x = c.sh.head → t ∉ c.sh.asleep) := by
  obtain ⟨f, ⟨hsleep, -, -⟩, hf⟩ := (sim hcard).reach (hrun.reach h0)
  refine ⟨fun t u => hf.holding_unique, (sim hcard).acquires_in_order h0 hrun,
    hsleep.blocked, ?_⟩
  intro hdone t x h hl hserved hs
  obtain ⟨x', h', hl', hor⟩ := hsleep.blocked t hs
  obtain ⟨rfl, rfl⟩ := Pc.blocked.inj (hl.symm.trans hl')
  rcases hor with heq | ⟨u, hu⟩
  · exact hsleep.far t x h (Or.inr hl) (hserved.trans heq)
  · exact hdone u h hu

end

/-- A free lock, just before its counters wrap round. -/
def start : Conf (Fin 3) (Shared (Fin 3)) Pc := ⟨⟨0, 2 ^ 32 - 1, [], 0⟩, fun _ => .idle⟩

theorem start_init : Init start := by
  constructor
  · rfl
  · rfl
  · rfl
  · exact fun _ => rfl

/-- Thread 0 holds, thread 1 is next and spins, thread 2 sleeps, and thread 0 unlocks as
    far as its store to `head`. -/
def storeBeforeWake : List (Fin 3 × Act) :=
  [(0, .lock), (0, .go), (0, .go), (1, .lock), (1, .go), (1, .go), (2, .lock), (2, .go), (2, .go),
    (2, .go), (0, .unlock), (0, .go), (0, .go)]

theorem ticketFuLock_safe_storeBeforeWake :
    ∃ (tr : List (Move (Fin 3) Pc)) (c : Conf (Fin 3) (Shared (Fin 3)) Pc),
      exec prog few start storeBeforeWake = some c ∧ c.sh.asleep = [2] ∧ c.sh.head = 1 ∧
      (∀ t u, Holds c t → Holds c u → t = u) ∧
      acquires Pc.phase tr <+: enters Pc.phase tr ∧
      (∀ t, t ∈ c.sh.asleep → ∃ x h, c.loc t = .blocked x h ∧
        (c.sh.head = h ∨ ∃ u, c.loc u = .wakeAll h)) ∧
      ((∀ u h, c.loc u ≠ .wakeAll h) →
        ∀ t x h, c.loc t = .blocked x h → x = c.sh.head → t ∉ c.sh.asleep) := by
  obtain ⟨c, hc, hasleep, hhead⟩ : ∃ c : Conf (Fin 3) (Shared (Fin 3)) Pc,
      exec prog few start storeBeforeWake = some c ∧ c.sh.asleep = [2] ∧ c.sh.head = 1 :=
    ⟨_, rfl, rfl, rfl⟩
  obtain ⟨tr, hrun⟩ := run_of_exec hc
  exact ⟨tr, c, hc, hasleep, hhead, ticketFuLock_safe (by decide) start_init hrun⟩

end TicketFu
