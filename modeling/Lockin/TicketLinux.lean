import Mathlib.Data.BitVec
import Lockin.TicketQueue

/-! # The ticket lock of the Linux kernel

    `ticket_linux_in.h`: both counters are halves of one 32-bit word, `head` in the low
    half and `tail`, the next ticket to be taken, in the high half.  The lock is free
    when the halves are equal.

    Tickets are taken by atomic operations on the whole word, which must not disturb
    `head`; `ticket_linux_lock_unlock` loads and stores the low half only, which must not
    disturb `tail`, and loses no increment because only the holder executes it. -/

namespace TicketLinux

open Interleaving FifoLock

/-- The low half of the word. -/
def head (word : BitVec 32) : BitVec 16 := word.extractLsb' 0 16

/-- The high half of the word. -/
def tail (word : BitVec 32) : BitVec 16 := word.extractLsb' 16 16

/-- `TICKET_LOCK_INC << TICKET_SHIFT`. -/
def tailInc : BitVec 32 := 0x10000#32

/-- The 16-bit store to `head`. -/
def storeLow (word : BitVec 32) (h : BitVec 16) : BitVec 32 := tail word ++ h

@[simp] theorem head_add_tailInc (word : BitVec 32) : head (word + tailInc) = head word := by
  apply BitVec.eq_of_toNat_eq
  simp only [head, tailInc, BitVec.extractLsb'_toNat, BitVec.toNat_add, BitVec.toNat_ofNat,
    Nat.shiftRight_eq_div_pow]
  omega

@[simp] theorem tail_add_tailInc (word : BitVec 32) : tail (word + tailInc) = tail word + 1 := by
  show tail (word + tailInc) = tail word + 1#16
  apply BitVec.eq_of_toNat_eq
  simp only [tail, tailInc, BitVec.extractLsb'_toNat, BitVec.toNat_add, BitVec.toNat_ofNat,
    Nat.shiftRight_eq_div_pow]
  omega

@[simp] theorem head_storeLow (word : BitVec 32) (h : BitVec 16) : head (storeLow word h) = h :=
  BitVec.extractLsb'_append_eq_right

@[simp] theorem tail_storeLow (word : BitVec 32) (h : BitVec 16) :
    tail (storeLow word h) = tail word := BitVec.extractLsb'_append_eq_left

/-- Where a thread is. -/
inductive Pc where
  | idle
  | xadd
  | spin (ticket : BitVec 16)
  | tryRead
  | tryCas (old : BitVec 32)
  | critical
  | loadHead
  | storeHead (head : BitVec 16)
  deriving DecidableEq

/-- The calls a thread may make; everything else is determined. -/
inductive Act where
  | lock
  | trylock
  | unlock
  | go

variable {Tid : Type}

/-- `ticket_linux_lock_trylock`.  The thread has the lock when the exchange succeeds,
    whatever value the function returns then. -/
def ticketLinuxLockTrylock (word : BitVec 32) : Pc → Option (BitVec 32 × Pc)
  | .tryRead => some (word, if head word ≠ tail word then .idle else .tryCas word)
  | .tryCas old => if word = old then some (old + tailInc, .critical) else some (word, .idle)
  | _ => none

/-- `ticket_linux_lock_lock`. -/
def ticketLinuxLockLock (word : BitVec 32) : Pc → Option (BitVec 32 × Pc)
  | .xadd =>
      some (word + tailInc, if head word = tail word then .critical else .spin (tail word))
  | .spin ticket => some (word, if head word = ticket then .critical else .spin ticket)
  | _ => none

/-- `ticket_linux_lock_unlock`, with `TICKET_SLOWPATH_FLAG` 0. -/
def ticketLinuxLockUnlock (word : BitVec 32) : Pc → Option (BitVec 32 × Pc)
  | .loadHead => some (word, .storeHead (head word))
  | .storeHead h => some (storeLow word (h + 1), .idle)
  | _ => none

/-- One step of a thread. -/
def prog : Prog Tid (BitVec 32) Pc Act
  | _, word, .idle, .lock => some (word, .xadd)
  | _, word, .idle, .trylock => some (word, .tryRead)
  | _, word, .critical, .unlock => some (word, .loadHead)
  | _, word, pc, .go =>
      match pc with
      | .idle | .critical => none
      | .xadd | .spin _ => ticketLinuxLockLock word pc
      | .tryRead | .tryCas _ => ticketLinuxLockTrylock word pc
      | .loadHead | .storeHead _ => ticketLinuxLockUnlock word pc
  | _, _, _, _ => none

/-- The lock is free, whatever the value of its counters, and nobody is in a call.
    `ticket_linux_lock_init` sets the word to 0. -/
structure Init (c : Conf Tid (BitVec 32) Pc) : Prop where
  free : head c.sh = tail c.sh
  idle : ∀ t, c.loc t = .idle

/-! ## The ticket protocol -/

/-- What a thread does with the two counters. -/
@[simp] def Pc.ticketPc : Pc → TicketQueue.Pc 16
  | .idle => .idle
  | .xadd => .idle
  | .spin ticket => .wait ticket
  | .tryRead => .idle
  | .tryCas _ => .idle
  | .critical => .held
  | .loadHead => .held
  | .storeHead h => .leave h

/-- A thread is in line from its increment of `tail` to its store to `head`. -/
@[simp] def Pc.phase : Pc → Phase
  | .idle => .out
  | .xadd => .out
  | .spin _ => .waiting
  | .tryRead => .out
  | .tryCas _ => .out
  | .critical => .holding
  | .loadHead => .holding
  | .storeHead _ => .holding

theorem ticketPc_phase (pc : Pc) : pc.ticketPc.phase = pc.phase := by cases pc <;> rfl

/-- The ticket that is served, and the last one that was taken. -/
def counters (word : BitVec 32) : TicketQueue.Shared 16 := ⟨head word, tail word - 1⟩

/-- The lock as the ticket protocol. -/
def ticketView (c : Conf Tid (BitVec 32) Pc) :
    Conf Tid (TicketQueue.Shared 16) (TicketQueue.Pc 16) :=
  c.view counters fun _ pc => pc.ticketPc

/-- A word with equal halves is a free ticket lock. -/
theorem counters_free (word : BitVec 32) :
    (counters word).head = (counters word).tail + 1 ↔ head word = tail word := by
  simp [counters]

/-- An operation that takes a ticket. -/
theorem counters_add (word : BitVec 32) :
    counters (word + tailInc) = ⟨head word, (counters word).tail + 1⟩ := by
  simp [counters]

/-- How a step may change the word: one half is incremented, and the other half stays as
    it is. -/
def OneHalf (word word' : BitVec 32) : Prop :=
  word' = word ∨ (head word' = head word ∧ tail word' = tail word + 1) ∨
    (head word' = head word + 1 ∧ tail word' = tail word)

/-- A trylock goes on to its exchange only with the word of a free lock. -/
def SawFree (c : Conf Tid (BitVec 32) Pc) : Prop :=
  ∀ t old, c.loc t = .tryCas old → head old = tail old

/-- **Step lemma.** A trylock has seen the lock free. -/
theorem SawFree.step [DecidableEq Tid] {c : Conf Tid (BitVec 32) Pc} (h : SawFree c) {t : Tid}
    {a : Act} {r : BitVec 32 × Pc} (hs : prog t c.sh (c.loc t) a = some r) :
    SawFree (c.put t r) := by
  intro u old hu
  rw [put_loc] at hu
  split at hu
  · cases hl : c.loc t <;> cases a <;>
      simp only [prog, hl, ticketLinuxLockLock, ticketLinuxLockTrylock, ticketLinuxLockUnlock,
        reduceCtorEq, Option.some.injEq] at hs
    case tryCas.go =>
      split at hs <;> obtain rfl := Option.some.inj hs <;> simp at hu
    all_goals subst hs
    case tryRead.go =>
      by_cases hfree : head c.sh = tail c.sh
      · rw [if_neg (not_not_intro hfree)] at hu
        rwa [← Pc.tryCas.inj hu]
      · rw [if_pos hfree] at hu
        simp at hu
    all_goals first | (split at hu <;> simp at hu) | simp at hu
  · exact h u old hu

section

variable [Fintype Tid] {c : Conf Tid (BitVec 32) Pc} {f : Fifo Tid} {t : Tid} {a : Act}
  {r : BitVec 32 × Pc}

/-- Every step is one of the ticket protocol, or leaves the word alone. -/
theorem ticket_step (hcard : Fintype.card Tid < 2 ^ 16)
    (hsaw : SawFree c) (hline : TicketQueue.Line (ticketView c) f)
    (hf : f.Ok fun u => (c.loc u).ticketPc.phase) (hs : prog t c.sh (c.loc t) a = some r) :
    Follows TicketQueue.prog TicketQueue.roomy (ticketView c) t (counters r.1, r.2.ticketPc) := by
  have hstay : ∀ pc : Pc, pc.ticketPc = (c.loc t).ticketPc → Follows TicketQueue.prog
      TicketQueue.roomy (ticketView c) t (counters c.sh, pc.ticketPc) :=
    fun pc hpc => Or.inl (Prod.ext rfl hpc)
  have hgo : ∀ a' r', TicketQueue.roomy (ticketView c) t a' →
      TicketQueue.prog t (counters c.sh) (c.loc t).ticketPc a' = some r' →
      Follows TicketQueue.prog TicketQueue.roomy (ticketView c) t r' :=
    fun a' r' hok hs' => Or.inr ⟨a', hok, hs'⟩
  have htake : (c.loc t).ticketPc = .idle → head c.sh = tail c.sh → Follows TicketQueue.prog
      TicketQueue.roomy (ticketView c) t (counters (c.sh + tailInc), .held) := by
    intro hidle hfree
    refine hgo .take _ trivial ?_
    rw [hidle, counters_add]
    show (if (counters c.sh).head = (counters c.sh).tail + 1 then _ else none) = _
    rw [if_pos ((counters_free c.sh).mpr hfree)]
    rfl
  cases hl : c.loc t with
  | idle | critical =>
      cases a <;> simp only [prog, hl, reduceCtorEq, Option.some.injEq] at hs <;> subst hs <;>
        exact hstay _ (by rw [hl]; rfl)
  | xadd =>
      cases a <;> simp only [prog, hl, ticketLinuxLockLock, reduceCtorEq, Option.some.injEq] at hs
      subst hs
      by_cases hfree : head c.sh = tail c.sh
      · rw [if_pos hfree]
        exact htake (by rw [hl]; rfl) hfree
      · rw [if_neg hfree]
        have hroom : TicketQueue.roomy (ticketView c) t .lock :=
          hline.room hf hcard (by show (c.loc t).ticketPc.phase = .out; rw [hl]; rfl)
        refine hgo .lock _ hroom ?_
        rw [hl, counters_add]
        simp [TicketQueue.prog, counters]
  | spin ticket =>
      cases a <;> simp only [prog, hl, ticketLinuxLockLock, reduceCtorEq, Option.some.injEq] at hs
      subst hs
      by_cases hserved : head c.sh = ticket
      · rw [if_pos hserved]
        refine hgo .go _ trivial ?_
        rw [hl]
        simp [TicketQueue.prog, counters, hserved]
      · rw [if_neg hserved]
        exact hstay _ (by rw [hl])
  | tryRead =>
      cases a <;>
        simp only [prog, hl, ticketLinuxLockTrylock, reduceCtorEq, Option.some.injEq] at hs
      subst hs
      split <;> exact hstay _ (by rw [hl]; rfl)
  | tryCas old =>
      cases a <;> simp only [prog, hl, ticketLinuxLockTrylock, reduceCtorEq] at hs
      split at hs <;> rename_i hword <;> obtain rfl := Option.some.inj hs
      · subst hword
        exact htake (by rw [hl]; rfl) (hsaw t _ hl)
      · exact hstay _ (by rw [hl]; rfl)
  | loadHead =>
      cases a <;>
        simp only [prog, hl, ticketLinuxLockUnlock, reduceCtorEq, Option.some.injEq] at hs
      subst hs
      exact hgo .go _ trivial (by rw [hl]; rfl)
  | storeHead h =>
      cases a <;>
        simp only [prog, hl, ticketLinuxLockUnlock, reduceCtorEq, Option.some.injEq] at hs
      subst hs
      refine hgo .go _ trivial ?_
      rw [hl]
      simp [TicketQueue.prog, counters]

variable [DecidableEq Tid]

/-- **The packed lock is a first-come first-served lock.** -/
theorem sim (hcard : Fintype.card Tid < 2 ^ 16) : FifoSim prog always Init Pc.phase
    fun (c : Conf Tid (BitVec 32) Pc) f => SawFree c ∧ TicketQueue.Line (ticketView c) f :=
  (TicketQueue.sim (by decide)).pullback ticketView SawFree (fun c t _ => ticketPc_phase (c.loc t))
    (fun c h0 => ⟨fun t old h => by simp [h0.idle t] at h,
      ⟨(counters_free c.sh).mpr h0.free,
        fun t => by show (c.loc t).ticketPc = .idle; rw [h0.idle t]; rfl⟩⟩)
    (fun _ _ _ _ _ h _ _ _ hs => h.step hs)
    (fun c _ t _ r h hline hf _ hs => by
      have hview : ticketView (c.put t r) = (ticketView c).put t (counters r.1, r.2.ticketPc) :=
        view_put c t r
      rcases ticket_step hcard h hline hf hs with heq | ⟨a', hok, hs'⟩
      · left
        rw [hview, heq]
        exact put_self _ t
      · exact Or.inr ⟨a', _, hok, hs', hview⟩)

/-! ## Safety -/

/-- The thread has acquired the lock and not released it. -/
def Holds (c : Conf Tid (BitVec 32) Pc) (t : Tid) : Prop := (c.loc t).phase = .holding

omit [Fintype Tid] [DecidableEq Tid] in
/-- Every step changes one half of the word at most. -/
theorem oneHalf_step (hline : TicketQueue.Line (ticketView c) f)
    (hs : prog t c.sh (c.loc t) a = some r) : OneHalf c.sh r.1 := by
  have hadd : OneHalf c.sh (c.sh + tailInc) := Or.inr (Or.inl ⟨by simp, by simp⟩)
  cases hl : c.loc t <;> cases a <;>
    simp only [prog, hl, ticketLinuxLockLock, ticketLinuxLockTrylock, ticketLinuxLockUnlock,
      reduceCtorEq, Option.some.injEq] at hs
  case tryCas.go old =>
    split at hs <;> rename_i hword <;> obtain rfl := Option.some.inj hs
    · subst hword
      exact hadd
    · exact Or.inl rfl
  case xadd.go =>
    subst hs
    exact hadd
  case storeHead.go h =>
    subst hs
    -- the value stored is the current one plus 1
    obtain rfl : h = head c.sh :=
      hline.leaving t h (by show (c.loc t).ticketPc = .leave h; rw [hl]; rfl)
    exact Or.inr (Or.inr ⟨by simp, by simp⟩)
  all_goals
    subst hs
    exact Or.inl rfl

/-- **Safety of the packed ticket lock** for fewer than `2 ^ 16` threads, in runs of any
    length.  At most one thread holds the lock; the threads acquire in the order of their
    tickets; every step increments one half of the word at most and leaves the other half
    as it is, also where a half wraps round; and the halves are equal exactly when nobody
    holds the lock or waits for it. -/
theorem ticketLinuxLock_safe (hcard : Fintype.card Tid < 2 ^ 16) {c₀ c : Conf Tid (BitVec 32) Pc}
    {tr : List (Move Tid Pc)} (h0 : Init c₀) (hrun : Run prog always c₀ tr c) :
    (∀ t u, Holds c t → Holds c u → t = u) ∧
    acquires Pc.phase tr <+: enters Pc.phase tr ∧
    (∀ t a r, prog t c.sh (c.loc t) a = some r → OneHalf c.sh r.1) ∧
    (head c.sh = tail c.sh ↔ ∀ t, (c.loc t).phase = .out) := by
  obtain ⟨f, ⟨-, hline⟩, hf⟩ := (sim hcard).reach (hrun.reach h0)
  have hf' : f.Ok fun u => (c.loc u).ticketPc.phase := by
    simpa only [ticketPc_phase] using hf
  refine ⟨fun t u => hf.holding_unique, (sim hcard).acquires_in_order h0 hrun,
    fun t a r => oneHalf_step hline, ?_⟩
  have hphase : ∀ t, ((ticketView c).loc t).phase = (c.loc t).phase :=
    fun t => ticketPc_phase (c.loc t)
  have hfree := hline.free_iff hf'
  simp only [hphase] at hfree
  exact (counters_free c.sh).symm.trans hfree

end

/-- A free lock, just before both halves wrap round. -/
def start : Conf (Fin 3) (BitVec 32) Pc := ⟨0xFFFFFFFF, fun _ => .idle⟩

theorem start_init : Init start := by
  constructor
  · rfl
  · exact fun _ => rfl

/-- Thread 0 takes the last ticket, thread 1 waits with ticket 0, thread 0 unlocks, and
    thread 2 finds the lock taken. -/
def wrapAround : List (Fin 3 × Act) :=
  [(0, .trylock), (0, .go), (0, .go), (1, .lock), (1, .go), (0, .unlock), (0, .go), (0, .go),
    (1, .go), (2, .trylock), (2, .go)]

theorem ticketLinuxLock_safe_wrapAround :
    ∃ (tr : List (Move (Fin 3) Pc)) (c : Conf (Fin 3) (BitVec 32) Pc),
      exec prog always start wrapAround = some c ∧ c.loc 1 = .critical ∧ head c.sh = 0 ∧
      (∀ t u, Holds c t → Holds c u → t = u) ∧
      acquires Pc.phase tr <+: enters Pc.phase tr ∧
      (∀ t a r, prog t c.sh (c.loc t) a = some r → OneHalf c.sh r.1) ∧
      (head c.sh = tail c.sh ↔ ∀ t, (c.loc t).phase = .out) := by
  obtain ⟨c, hc, h1, hhead⟩ : ∃ c : Conf (Fin 3) (BitVec 32) Pc,
      exec prog always start wrapAround = some c ∧ c.loc 1 = .critical ∧ head c.sh = 0 :=
    ⟨_, rfl, rfl, rfl⟩
  obtain ⟨tr, hrun⟩ := run_of_exec hc
  exact ⟨tr, c, hc, h1, hhead, ticketLinuxLock_safe (by decide) start_init hrun⟩

/-! ## What `trylock` returns -/

/-- What `ticket_linux_lock_trylock` returns, if it returns with its next step. -/
def trylockRet (word : BitVec 32) : Pc → Option Nat
  | .tryRead => if head word ≠ tail word then some 0 else none
  | .tryCas old => some (if word = old then 1 else 0)
  | _ => none

/-- The convention of `pthread_mutex_trylock`, for the step from `word` to `r` in which the call
    returns `ret`: 0 means that it has taken the next ticket, and anything else that it has left
    the word alone. -/
structure Convention (word : BitVec 32) (r : BitVec 32 × Pc) (ret : Nat) : Prop where
  zero : ret = 0 ↔ r = (word + tailInc, .critical)
  unchanged : ret ≠ 0 → r.1 = word

/-- **`trylock` never obeys the convention**: in any state and any order of steps, it returns 1
    when it has taken the lock and 0 when it has not. -/
theorem trylock_unconventional {c : Conf Tid (BitVec 32) Pc} {t : Tid} {r : BitVec 32 × Pc}
    {ret : Nat} (hs : prog t c.sh (c.loc t) .go = some r)
    (hret : trylockRet c.sh (c.loc t) = some ret) : ¬ Convention c.sh r ret := by
  intro hconv
  cases hpc : c.loc t with
  | tryRead =>
      rw [hpc] at hs hret
      obtain ⟨hne, rfl⟩ : head c.sh ≠ tail c.sh ∧ 0 = ret := by
        dsimp only [trylockRet] at hret
        split at hret
        · next hne => exact ⟨hne, Option.some.inj hret⟩
        · exact nomatch hret
      obtain rfl := Option.some.inj hs
      have hpost := congrArg Prod.snd (hconv.zero.mp rfl)
      simp only [if_pos hne] at hpost
      exact nomatch hpost
  | tryCas old =>
      rw [hpc] at hs hret
      dsimp only [prog, ticketLinuxLockTrylock] at hs
      by_cases heq : c.sh = old
      · -- the exchange has succeeded, and the call returns 1
        subst heq
        rw [if_pos rfl] at hs
        obtain rfl := Option.some.inj hs
        obtain rfl : 1 = ret := by
          dsimp only [trylockRet] at hret
          rw [if_pos rfl] at hret
          exact Option.some.inj hret
        exact absurd (hconv.zero.mpr rfl) Nat.one_ne_zero
      · rw [if_neg heq] at hs
        obtain rfl := Option.some.inj hs
        obtain rfl : 0 = ret := by
          dsimp only [trylockRet] at hret
          rw [if_neg heq] at hret
          exact Option.some.inj hret
        exact nomatch congrArg Prod.snd (hconv.zero.mp rfl)
  | _ =>
      rw [hpc] at hret
      exact nomatch hret

/-- The lock is free, and a thread has read it. -/
def hasRead : List (Fin 3 × Act) := [(0, .trylock), (0, .go)]

theorem trylock_unconventional_free : ∃ c : Conf (Fin 3) (BitVec 32) Pc,
    exec prog always start hasRead = some c ∧
      trylockRet c.sh (c.loc 0) = some 1 ∧ ¬ Convention c.sh (0x0000FFFF, .critical) 1 := by
  obtain ⟨c, hc, hs, hret⟩ : ∃ c : Conf (Fin 3) (BitVec 32) Pc,
      exec prog always start hasRead = some c ∧
      prog (0 : Fin 3) c.sh (c.loc 0) .go = some (0x0000FFFF, .critical) ∧
      trylockRet c.sh (c.loc 0) = some 1 := ⟨_, rfl, rfl, rfl⟩
  exact ⟨c, hc, hret, trylock_unconventional hs hret⟩

/-- On a free lock `trylock` takes the next ticket, and returns 1. -/
theorem trylock_returns_one : ∃ c : Conf (Fin 3) (BitVec 32) Pc, Reach prog always Init c ∧
    prog (0 : Fin 3) c.sh (c.loc 0) .go = some (c.sh + tailInc, .critical) ∧
      trylockRet c.sh (c.loc 0) = some 1 ∧
      ¬ Convention c.sh (c.sh + tailInc, .critical) 1 := by
  obtain ⟨c, hc, hs, hret⟩ : ∃ c : Conf (Fin 3) (BitVec 32) Pc,
      exec prog always start hasRead = some c ∧
      prog (0 : Fin 3) c.sh (c.loc 0) .go = some (c.sh + tailInc, .critical) ∧
      trylockRet c.sh (c.loc 0) = some 1 := ⟨_, rfl, rfl, rfl⟩
  exact ⟨c, reach_of_exec start_init hc, hs, hret,
    fun hconv => Nat.one_ne_zero (hconv.zero.mpr rfl)⟩

end TicketLinux
