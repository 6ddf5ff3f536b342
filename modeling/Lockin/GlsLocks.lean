import Lockin.GlsApi
import Lockin.GlkTry
import Lockin.McsGlkIn
import Lockin.TasGlk
import Lockin.TicketIn

/-! # The seven locks of GLS

    One lock object, as the functions of `gls.c` see it, for every flavour.  A `LockModel` is
    the program of one object together with what is known about its calls: where a thread is
    (`Place`), what the steps of a call may do to that (`Flow`), and that no two threads are
    past an acquisition in a run whose steps are `ok`.

    The objects are those of `TasGlk`, `TicketIn`, `McsGlkIn`, `Mutexee` and `Glk`, with the
    node tables that MCS locks share (`GlkTry`). -/

namespace GlsLocks

open Interleaving GlsApi

/-- The three functions of a lock. -/
inductive Fn where
  | lock
  | trylock
  | unlock
  deriving DecidableEq

/-- Where a thread is: in no call, without the lock or with it, or in a call. -/
inductive Place where
  | idle
  | critical
  | inside (f : Fn)
  deriving DecidableEq

/-- Where a call starts. -/
def Fn.from : Fn → Place
  | .lock => .idle
  | .trylock => .idle
  | .unlock => .critical

/-- Where a call leads to: `taken` says that a trylock finds the lock taken. -/
@[simp] def Fn.to (taken : Bool) : Fn → Place
  | .lock => .critical
  | .trylock => if taken then .idle else .critical
  | .unlock => .idle

/-- What a step that starts no call may do. -/
def Flow (taken : Bool) : Place → Place → Prop
  | .idle, p => p = .idle
  | .critical, p => p = .critical
  | .inside f, p => p = .inside f ∨ p = f.to taken

/-- A step that ends nothing. -/
theorem Flow.stay (taken : Bool) (p : Place) : Flow taken p p := by
  cases p with
  | idle | critical => rfl
  | inside f => cases f <;> exact Or.inl rfl

/-- A lock object. -/
structure LockModel (Tid : Type) [DecidableEq Tid] where
  Sh : Type
  Lc : Type
  Act : Type
  prog : Prog Tid Sh Lc Act
  /-- The steps that a run may take for the lock to be a lock. -/
  ok : Conf Tid Sh Lc → Tid → Act → Prop
  /-- What the init function leaves. -/
  created : Sh → Prop
  /-- A thread that has not used the lock. -/
  unused : Lc → Prop
  /-- The start of a call. -/
  start : Fn → Act
  /-- The start of any call. -/
  starts : Act → Bool
  place : Lc → Place
  /-- The next step of a trylock finds the lock taken. -/
  taken : Sh → Lc → Bool
  /-- What a trylock returns when it does not get the lock. -/
  busy : Int
  /-- The next step takes a node, and all the nodes of the thread are in use. -/
  full : Lc → Bool
  unused_idle : ∀ l, unused l → place l = .idle
  ok_start : ∀ c t f, place (c.loc t) = f.from → ok c t (start f)
  start_step : ∀ f t sh l r, prog t sh l (start f) = some r →
    place l = f.from ∧ place r.2 = .inside f
  step : ∀ t sh l a r, starts a = false → prog t sh l a = some r →
    Flow (taken sh l) (place l) (place r.2)
  exclusive : ∀ c, Reach prog ok (fun c => created c.sh ∧ ∀ t, unused (c.loc t)) c →
    ∀ t u, place (c.loc t) = .critical → place (c.loc u) = .critical → t = u

variable {Tid : Type}

/-- A new object, which no thread has used. -/
structure LockModel.Init [DecidableEq Tid] (M : LockModel Tid) (c : Conf Tid M.Sh M.Lc) :
    Prop where
  created : M.created c.sh
  unused : ∀ t, M.unused (c.loc t)

/-- **Mutual exclusion.** -/
theorem LockModel.unique [DecidableEq Tid] (M : LockModel Tid) {c : Conf Tid M.Sh M.Lc}
    (hc : Reach M.prog M.ok M.Init c) {t u : Tid} (ht : M.place (c.loc t) = .critical)
    (hu : M.place (c.loc u) = .critical) : t = u :=
  M.exclusive c (hc.mono_init fun _ h => ⟨h.created, h.unused⟩) t u ht hu

/-! ## Test-and-set -/

section Tas

open TasGlk

/-- The start of a call. -/
def tasStart : Fn → TasGlk.Act
  | .lock => .lock
  | .trylock => .trylock
  | .unlock => .unlock

def tasStarts : TasGlk.Act → Bool
  | .go => false
  | _ => true

def tasPlace : TasGlk.Pc → Place
  | .idle => .idle
  | .critical => .critical
  | .swap => .inside .lock
  | .spin => .inside .lock
  | .tryRead => .inside .trylock
  | .trySwap => .inside .trylock
  | .unlock => .inside .unlock

/-- `tryRead` finds the word locked, `trySwap` finds it not free. -/
def tasTaken (word : Nat) : TasGlk.Pc → Bool
  | .tryRead => word = LOCKED
  | .trySwap => word ≠ FREE
  | _ => false

/-- The first step of a function of the spin locks. -/
theorem tas_start_step (kind : Kind) (f : Fn) (t : Tid) (word : Nat) (pc : TasGlk.Pc)
    (r : Nat × TasGlk.Pc) (hs : TasGlk.prog kind t word pc (tasStart f) = some r) :
    tasPlace pc = f.from ∧ tasPlace r.2 = .inside f := by
  cases f with
  | lock | trylock | unlock =>
      obtain ⟨pc', hcall, rfl⟩ := Option.map_eq_some_iff.mp hs
      cases pc <;> cases hcall
      first
        | exact ⟨rfl, rfl⟩
        | cases kind <;> exact ⟨rfl, rfl⟩

/-- Every other step of the spin locks. -/
theorem tas_step (kind : Kind) (t : Tid) (word : Nat) (pc : TasGlk.Pc) (a : TasGlk.Act)
    (r : Nat × TasGlk.Pc) (ha : tasStarts a = false)
    (hs : TasGlk.prog kind t word pc a = some r) :
    Flow (tasTaken word pc) (tasPlace pc) (tasPlace r.2) := by
  cases a with
  | lock | trylock | unlock => exact nomatch ha
  | go =>
      cases pc with
      | idle | critical => exact nomatch hs
      | swap =>
          obtain rfl := Option.some.inj hs
          by_cases hfree : word = FREE
          · exact Or.inr (by simp [hfree, tasPlace])
          · exact Or.inl (by cases kind <;> simp [hfree, tasPlace])
      | spin =>
          obtain rfl := Option.some.inj hs
          refine Or.inl ?_
          dsimp only
          split <;> rfl
      | tryRead =>
          obtain rfl := Option.some.inj hs
          by_cases hlocked : word = LOCKED
          · exact Or.inr (by simp [tasTaken, tasPlace, hlocked])
          · exact Or.inl (by simp [tasPlace, hlocked])
      | trySwap =>
          obtain rfl := Option.some.inj hs
          refine Or.inr ?_
          by_cases hfree : word = FREE <;> simp [tasTaken, tasPlace, hfree]
      | unlock =>
          obtain rfl := Option.some.inj hs
          exact Or.inr rfl

variable [DecidableEq Tid]

/-- `tas_lock_t`, `ttas_lock_t`, and the word of an address. -/
def tas (kind : Kind) : LockModel Tid where
  Sh := Nat
  Lc := TasGlk.Pc
  Act := TasGlk.Act
  prog := TasGlk.prog kind
  ok := always
  created word := word = FREE
  unused pc := pc = .idle
  start := tasStart
  starts := tasStarts
  place := tasPlace
  taken := tasTaken
  busy := 1
  full _ := false
  unused_idle := by
    rintro _ rfl
    rfl
  ok_start _ _ _ _ := trivial
  start_step := tas_start_step kind
  step := tas_step kind
  exclusive := by
    intro c hc t u ht hu
    have hheld : Held c := held_of_reach (fun c h => (Init.mk h.1 h.2).held) hc
    have hholds : ∀ v, tasPlace (c.loc v) = .critical → (c.loc v).holds := by
      intro v hv
      cases hl : c.loc v <;> rw [hl] at hv <;> first | rfl | exact nomatch hv
    exact hheld.unique t u (hholds t ht) (hholds u hu)

end Tas

/-! ## Ticket -/

section Ticket

open TicketIn

/-- The start of a call. -/
def ticketStart : Fn → TicketIn.Act
  | .lock => .lock
  | .trylock => .trylock
  | .unlock => .unlock

def ticketStarts : TicketIn.Act → Bool
  | .go => false
  | _ => true

def ticketPlace : TicketIn.Pc → Place
  | .idle => .idle
  | .critical => .critical
  | .addTail => .inside .lock
  | .readHead _ => .inside .lock
  | .tryTail => .inside .trylock
  | .tryHead _ _ => .inside .trylock
  | .tryCas _ _ => .inside .trylock
  | .loadHead => .inside .unlock
  | .storeHead _ => .inside .unlock

/-- The ticket served is not the next one, or the next one is taken already. -/
def ticketTaken (sh : TicketIn.Shared) : TicketIn.Pc → Bool
  | .tryHead last _ => sh.head - last ≠ 1
  | .tryCas last _ => sh.tail ≠ last
  | _ => false

/-- There is room for the ticket that is taken, and an exchange of a trylock that succeeds
    finds a free lock. -/
def ticketSteady (c : Conf Tid TicketIn.Shared TicketIn.Pc) (t : Tid) (_ : TicketIn.Act) :
    Prop :=
  match c.loc t with
  | .addTail => c.sh.tail + 2 ≠ c.sh.head
  | .tryCas last _ => c.sh.tail = last → c.sh.head = c.sh.tail + 1
  | _ => True

/-- The first step of a function of the ticket lock. -/
theorem ticket_start_step (f : Fn) (t : Tid) (sh : TicketIn.Shared) (pc : TicketIn.Pc)
    (r : TicketIn.Shared × TicketIn.Pc) (hs : TicketIn.prog t sh pc (ticketStart f) = some r) :
    ticketPlace pc = f.from ∧ ticketPlace r.2 = .inside f := by
  cases f <;> cases pc <;> cases hs <;> exact ⟨rfl, rfl⟩

/-- Every other step of the ticket lock. -/
theorem ticket_step (t : Tid) (sh : TicketIn.Shared) (pc : TicketIn.Pc) (a : TicketIn.Act)
    (r : TicketIn.Shared × TicketIn.Pc) (ha : ticketStarts a = false)
    (hs : TicketIn.prog t sh pc a = some r) :
    Flow (ticketTaken sh pc) (ticketPlace pc) (ticketPlace r.2) := by
  cases a with
  | lock | trylock | unlock => exact nomatch ha
  | go =>
      cases pc with
      | idle | critical => exact nomatch hs
      | addTail | tryTail | loadHead =>
          obtain rfl := Option.some.inj hs
          exact Flow.stay _ _
      | readHead x =>
          obtain rfl := Option.some.inj hs
          dsimp only
          split
          · exact Or.inr rfl
          · exact Or.inl rfl
      | tryHead last seen =>
          obtain rfl := Option.some.inj hs
          dsimp only
          split <;> rename_i hfree
          · exact Or.inl rfl
          · refine Or.inr ?_
            rw [show ticketTaken sh (.tryHead last seen) = true from decide_eq_true hfree]
            rfl
      | tryCas last seen =>
          refine Or.inr ?_
          simp only [TicketIn.prog, ticketLockTrylock] at hs
          split at hs <;> rename_i htail <;> obtain rfl := Option.some.inj hs <;>
            simp [ticketTaken, ticketPlace, htail]
      | storeHead x =>
          obtain rfl := Option.some.inj hs
          exact Or.inr rfl

variable [DecidableEq Tid]

/-- In steady runs the counters are those of the ticket protocol. -/
theorem ticket_reach {init : Conf Tid TicketIn.Shared TicketIn.Pc → Prop}
    (hinit : ∀ c, init c → TicketQueue.Init (ticketView c))
    {c : Conf Tid TicketIn.Shared TicketIn.Pc} (hc : Reach TicketIn.prog ticketSteady init c) :
    Reach TicketQueue.prog TicketQueue.roomy TicketQueue.Init (ticketView c) := by
  refine hc.invariant
    (I := fun c => Reach TicketQueue.prog TicketQueue.roomy TicketQueue.Init (ticketView c))
    (fun c h => .start (hinit c h)) fun c t a r h hok hs => ?_
  refine h.view_put (TicketIn.ticket_step (fun hl => ?_) (fun last seen hl => ?_) hs)
  · simpa only [ticketSteady, hl] using hok
  · simpa only [ticketSteady, hl] using hok

/-- `ticket_lock_t`: the code of `ticket_glk_impl.h` is that of `ticket_in.h`. -/
def ticket : LockModel Tid where
  Sh := TicketIn.Shared
  Lc := TicketIn.Pc
  Act := TicketIn.Act
  prog := TicketIn.prog
  ok := ticketSteady
  created sh := sh = ⟨1, 0, 0⟩
  unused pc := pc = .idle
  start := ticketStart
  starts := ticketStarts
  place := ticketPlace
  taken := ticketTaken
  busy := 1
  full _ := false
  unused_idle := by
    rintro _ rfl
    rfl
  ok_start c t f hplace := by
    unfold ticketSteady
    cases hl : c.loc t <;> rw [hl] at hplace <;> first | trivial | (cases f <;> cases hplace)
  start_step := ticket_start_step
  step := ticket_step
  exclusive := by
    intro c hc t u ht hu
    have hreach := ticket_reach (fun c h => ⟨by
      show c.sh.head = c.sh.tail + 1
      rw [h.1]
      rfl, fun t => by
      show (c.loc t).ticketPc = .idle
      rw [h.2 t]
      rfl⟩) hc
    have hholds : ∀ v, ticketPlace (c.loc v) = .critical →
        ((ticketView c).loc v).phase = .holding := by
      intro v hv
      show (c.loc v).ticketPc.phase = .holding
      cases hl : c.loc v <;> rw [hl] at hv <;> first | rfl | exact nomatch hv
    exact (TicketQueue.sim (by decide)).holding_unique hreach (hholds t ht) (hholds u hu)

end Ticket

/-! ## MCS -/

section Mcs

open McsGlkIn

/-- The start of a call. -/
def mcsStart : Fn → McsGlkIn.Act
  | .lock => .lock
  | .trylock => .trylock
  | .unlock => .unlock

def mcsStarts : McsGlkIn.Act → Bool
  | .lock => true
  | .trylock => true
  | .unlock => true
  | _ => false

/-- In the queue, a thread acquires until it has the lock. -/
def queuePlace : McsQueue.Pc (Glk.Node Tid) → Place
  | .idle => .idle
  | .held _ => .critical
  | .clearNext try_ _ => .inside (if try_ then .trylock else .lock)
  | .swap _ => .inside .lock
  | .setWaiting _ _ => .inside .lock
  | .link _ _ => .inside .lock
  | .spin _ => .inside .lock
  | .cas _ => .inside .trylock
  | .casTail _ => .inside .unlock
  | .waitNext _ => .inside .unlock
  | .clear _ => .inside .unlock

def mcsPlace (l : McsGlkIn.Local Tid) : Place :=
  match l.pc with
  | .idle => .idle
  | .critical => .critical
  | .tryTail => .inside .trylock
  | .getLocal try_ => .inside (if try_ then .trylock else .lock)
  -- no thread gets there
  | .queue .idle => .inside .unlock
  | .queue (.held _) => .inside .unlock
  | .queue pc => queuePlace pc
  | .unlock => .inside .unlock

/-- The queue word is not `NULL`. -/
def mcsTaken (sh : McsQueue.Shared (Glk.Node Tid)) (l : McsGlkIn.Local Tid) : Bool :=
  match l.pc with
  | .tryTail => sh.tail.isSome
  | .queue (.cas _) => sh.tail.isSome
  | _ => false

/-- No entry is free when `mcs_get_local_lock` looks for one. -/
def mcsFull (l : McsGlkIn.Local Tid) : Bool :=
  match l.pc with
  | .getLocal _ => (mcsGetLocalLock l.head).isNone
  | _ => false

/-- The queue and its caller agree on where the thread is. -/
theorem ofQueue_place (head : Glk.Heads) (pc : McsQueue.Pc (Glk.Node Tid)) :
    mcsPlace ⟨head, ofQueue pc⟩ = queuePlace pc := by
  cases pc <;> rfl

variable [DecidableEq Tid]

/-- A step in the queue, other than the exchange of a trylock. -/
theorem inQueue_step {t : Tid} {sh : McsQueue.Shared (Glk.Node Tid)} {head : Glk.Heads}
    {pc : McsQueue.Pc (Glk.Node Tid)} {r : McsQueue.Shared (Glk.Node Tid) × McsGlkIn.Local Tid}
    (hcas : ∀ n, pc ≠ .cas n) (hs : McsGlkIn.prog t sh ⟨head, .queue pc⟩ .go = some r)
    (taken : Bool) : Flow taken (queuePlace pc) (mcsPlace r.2) := by
  have hin : inQueue t sh head pc = some r := by
    cases pc with
    | idle | held => exact nomatch hs
    | cas n => exact absurd rfl (hcas n)
    | _ => exact hs
  obtain ⟨⟨sh', pc'⟩, hq, rfl⟩ := Option.map_eq_some_iff.mp hin
  rw [ofQueue_place]
  cases pc with
  | idle | held => exact nomatch hs
  | cas n => exact absurd rfl (hcas n)
  | clearNext try_ n =>
      cases hq
      cases try_ <;> exact Flow.stay _ _
  | swap n =>
      cases hq
      cases sh.tail with
      | none => exact Or.inr rfl
      | some p => exact Or.inl rfl
  | setWaiting n p | link n p =>
      cases hq
      exact Or.inl rfl
  | spin n =>
      cases hq
      cases sh.waiting n with
      | true => exact Or.inl rfl
      | false => exact Or.inr rfl
  | casTail n =>
      dsimp only [McsQueue.prog] at hq
      split at hq <;> cases hq
      · exact Or.inr rfl
      · exact Or.inl rfl
  | waitNext n =>
      cases hq
      cases sh.next n <;> exact Or.inl rfl
  | clear n =>
      cases hq
      exact Or.inr rfl

/-- The first step of a function of the MCS lock. -/
theorem mcs_start_step (f : Fn) (t : Tid) (sh : McsQueue.Shared (Glk.Node Tid))
    (l : McsGlkIn.Local Tid) (r : McsQueue.Shared (Glk.Node Tid) × McsGlkIn.Local Tid)
    (hs : McsGlkIn.prog t sh l (mcsStart f) = some r) :
    mcsPlace l = f.from ∧ mcsPlace r.2 = .inside f := by
  obtain ⟨head, pc⟩ := l
  cases f with
  | lock | trylock | unlock =>
      obtain ⟨pc', hcall, rfl⟩ := Option.map_eq_some_iff.mp hs
      cases pc <;> cases hcall
      exact ⟨rfl, rfl⟩

/-- Every other step of the MCS lock. -/
theorem mcs_step (t : Tid) (sh : McsQueue.Shared (Glk.Node Tid)) (l : McsGlkIn.Local Tid)
    (a : McsGlkIn.Act) (r : McsQueue.Shared (Glk.Node Tid) × McsGlkIn.Local Tid)
    (ha : mcsStarts a = false) (hs : McsGlkIn.prog t sh l a = some r) :
    Flow (mcsTaken sh l) (mcsPlace l) (mcsPlace r.2) := by
  obtain ⟨head, pc⟩ := l
  cases a with
  | lock | trylock | unlock => exact nomatch ha
  | other i used =>
      obtain ⟨-, hr⟩ := Option.ite_none_right_eq_some.mp hs
      obtain rfl := Option.some.inj hr
      exact Flow.stay _ _
  | go =>
      cases pc with
      | idle | critical => exact nomatch hs
      | tryTail =>
          obtain rfl := Option.some.inj hs
          cases htail : sh.tail with
          | none => exact Or.inl rfl
          | some n =>
              refine Or.inr ?_
              rw [show mcsTaken sh ⟨head, .tryTail⟩ = true from congrArg Option.isSome htail]
              rfl
      | getLocal try_ =>
          obtain ⟨⟨i, head'⟩, -, rfl⟩ := Option.map_eq_some_iff.mp hs
          exact Flow.stay _ _
      | unlock =>
          obtain ⟨⟨i, head'⟩, -, hq⟩ := Option.bind_eq_some_iff.mp hs
          obtain ⟨⟨sh', pc'⟩, hheld, rfl⟩ := Option.map_eq_some_iff.mp hq
          cases hheld
          cases sh.next (t, i) <;> exact Or.inl rfl
      | queue p =>
          cases p with
          | idle | held => exact nomatch hs
          | cas n =>
              refine Or.inr ?_
              dsimp only [McsGlkIn.prog, mcsLockTrylock] at hs
              split at hs <;> rename_i htail
              · obtain rfl := Option.some.inj hs
                rw [show mcsTaken sh ⟨head, .queue (.cas n)⟩ = false from
                  congrArg Option.isSome htail]
                rfl
              · obtain ⟨⟨k, head'⟩, -, rfl⟩ := Option.map_eq_some_iff.mp hs
                rw [show mcsTaken sh ⟨head, .queue (.cas n)⟩ = true from
                  Option.isSome_iff_ne_none.mpr htail]
                rfl
          | _ => exact inQueue_step (by nofun) hs _

/-- `mcs_lock_t`. -/
def mcs : LockModel Tid where
  Sh := McsQueue.Shared (Glk.Node Tid)
  Lc := McsGlkIn.Local Tid
  Act := McsGlkIn.Act
  prog := McsGlkIn.prog
  ok := always
  created sh := sh.tail = none
  unused l := l.pc = .idle ∧ ∀ i, l.head i ≠ .this
  start := mcsStart
  starts := mcsStarts
  place := mcsPlace
  taken := mcsTaken
  busy := 1
  full := mcsFull
  unused_idle := by
    rintro ⟨head, _⟩ ⟨rfl, -⟩
    rfl
  ok_start _ _ _ _ := trivial
  start_step := mcs_start_step
  step := mcs_step
  exclusive := by
    intro c hc t u ht hu
    have hinv : Inv c := by
      refine hc.invariant (fun c h => ?_) fun _ _ _ _ h _ hs => h.step hs
      exact (Init.mk h.1 (fun t => (h.2 t).1) fun t => (h.2 t).2).inv
    have hholds : ∀ v, mcsPlace (c.loc v) = .critical →
        ((mcsView c).loc v).phase = .holding := by
      intro v hv
      have hslot := hinv.slotted v
      show (mcsPc v (c.loc v)).phase = .holding
      generalize c.loc v = l at hv hslot
      obtain ⟨head, pc⟩ := l
      cases pc with
      | queue p => cases p <;> cases hv
      | critical =>
          obtain ⟨i, hi⟩ := hslot
          show (Glk.ownNode v head).phase = .holding
          rw [Glk.ownNode_eq hi]
          rfl
      | _ => exact nomatch hv
    exact McsQueue.sim.holding_unique hinv.mcs (hholds t ht) (hholds u hu)

end Mcs

/-! ## Mutex -/

section Mutex

open Mutexee

/-- The start of a call. -/
def mutexStart : Fn → Mutexee.Act Tid
  | .lock => .lock
  | .trylock => .trylock
  | .unlock => .unlock

def mutexStarts : Mutexee.Act Tid → Bool
  | .lock => true
  | .trylock => true
  | .unlock => true
  | .condWait _ => true
  | .signal => true
  | .broadcast => true
  | _ => false

/-- The call that an unlock is part of.  A wait ends with the mutex held. -/
def retFn : Ret → Fn
  | .user => .unlock
  | .wait _ _ _ => .lock

/-- A call that ends with the mutex held, or without. -/
def endFn (h : Bool) : Fn := if h then .lock else .unlock

/-- GLS does not call the functions of the condition variable; they are placed by how they
    end. -/
def mutexPlace : Mutexee.Pc → Place
  | .idle => .idle
  | .critical => .critical
  | .try8 => .inside .trylock
  | .xchg8 => .inside .lock
  | .spin => .inside .lock
  | .clock => .inside .lock
  | .xchg32 _ _ => .inside .lock
  | .futexWait _ => .inside .lock
  | .blocked _ => .inside .lock
  | .readWord k => .inside (retFn k)
  | .cas k => .inside (retFn k)
  | .clear k => .inside (retFn k)
  | .recheck _ k => .inside (retFn k)
  | .clearContended k => .inside (retFn k)
  | .wake k => .inside (retFn k)
  | .sigAdd h => .inside (endFn h)
  | .sigWake h => .inside (endFn h)
  | .bcastReadM h => .inside (endFn h)
  | .bcastAdd h => .inside (endFn h)
  | .bcastRequeue h _ => .inside (endFn h)
  | _ => .inside .lock

/-- The exchange finds the byte `locked` set. -/
def mutexTaken (sh : Mutexee.Shared Tid) : Mutexee.Pc → Bool
  | .try8 => sh.word.locked ≠ 0
  | _ => false

/-- `mutexee_unlock` returns to the function that has called it. -/
theorem retFn_released (now : Nat) (k : Ret) : retFn (k.released now) = retFn k := by
  cases k <;> rfl

theorem recheckFrom_place (n : Nat) (k : Ret) :
    mutexPlace (recheckFrom n k) = .inside (retFn k) := by
  cases n <;> rfl

/-- The end of an unlock. -/
theorem next_flow (taken : Bool) (k : Ret) :
    Flow taken (.inside (retFn k)) (mutexPlace k.next) := by
  cases k with
  | user => exact Or.inr rfl
  | wait timed seq rel => cases timed <;> exact Or.inl rfl

/-- The end of a signal or broadcast. -/
theorem back_flow (taken h : Bool) : Flow taken (.inside (endFn h)) (mutexPlace (back h)) := by
  cases h <;> exact Or.inr rfl

variable [DecidableEq Tid]

/-- The first step of a function of the mutex. -/
theorem mutex_start_step (cfg : Mutexee.Config) (f : Fn) (t : Tid) (sh : Mutexee.Shared Tid)
    (pc : Mutexee.Pc) (r : Mutexee.Shared Tid × Mutexee.Pc)
    (hs : Mutexee.prog cfg t sh pc (mutexStart f) = some r) :
    mutexPlace pc = f.from ∧ mutexPlace r.2 = .inside f := by
  cases f with
  | lock | trylock | unlock =>
      cases pc <;> cases hs
      exact ⟨rfl, rfl⟩

/-- The lock function ends with the mutex. -/
theorem mutexeeLock_flow {cfg : Mutexee.Config} {t : Tid} {sh : Mutexee.Shared Tid}
    {pc : Mutexee.Pc} {a : Mutexee.Act Tid} {r : Mutexee.Shared Tid × Mutexee.Pc}
    (hs : mutexeeLock cfg t sh pc a = some r) (taken : Bool) :
    Flow taken (.inside .lock) (mutexPlace r.2) := by
  cases pc with
  | xchg8 | spin =>
      cases a <;> simp only [mutexeeLock, reduceCtorEq, Option.some.injEq] at hs
      subst hs
      dsimp only
      split
      · exact Or.inr rfl
      · exact Or.inl rfl
  | clock =>
      cases a <;> simp only [mutexeeLock, reduceCtorEq, Option.some.injEq] at hs <;> subst hs <;>
        exact Or.inl rfl
  | xchg32 s back =>
      cases a <;> simp only [mutexeeLock, reduceCtorEq, Option.some.injEq] at hs
      subst hs
      dsimp only
      split
      · split <;> exact Or.inl rfl
      · exact Or.inr rfl
  | futexWait s =>
      cases a <;> simp only [mutexeeLock, reduceCtorEq] at hs
      split at hs <;> obtain rfl := Option.some.inj hs <;> exact Or.inl rfl
  | blocked s =>
      cases a <;> simp only [mutexeeLock, reduceCtorEq, Option.ite_none_left_eq_some,
        Option.ite_none_right_eq_some, Option.some.injEq] at hs <;> obtain ⟨-, rfl⟩ := hs <;>
        exact Or.inl rfl
  | _ => cases hs

/-- The unlock function ends without the mutex, or goes on in a wait. -/
theorem mutexeeUnlock_flow {cfg : Mutexee.Config} {sh : Mutexee.Shared Tid} {pc : Mutexee.Pc}
    {a : Mutexee.Act Tid} {r : Mutexee.Shared Tid × Mutexee.Pc}
    (hs : mutexeeUnlock cfg sh pc a = some r) (taken : Bool) :
    Flow taken (mutexPlace pc) (mutexPlace r.2) := by
  cases pc with
  | readWord k =>
      cases a <;> simp only [mutexeeUnlock, reduceCtorEq, Option.some.injEq] at hs
      subst hs
      dsimp only
      split <;> exact Flow.stay _ (.inside (retFn k))
  | cas k =>
      cases a <;> simp only [mutexeeUnlock, reduceCtorEq] at hs
      split at hs <;> obtain rfl := Option.some.inj hs
      · have hnext := next_flow taken (k.released sh.seq)
        rwa [retFn_released] at hnext
      · exact Flow.stay _ (.inside (retFn k))
  | clear k =>
      cases a <;> simp only [mutexeeUnlock, reduceCtorEq, Option.some.injEq] at hs
      subst hs
      dsimp only
      rw [recheckFrom_place, retFn_released]
      exact Flow.stay _ (.inside (retFn k))
  | recheck n k =>
      cases a <;> simp only [mutexeeUnlock, reduceCtorEq, Option.some.injEq] at hs
      subst hs
      dsimp only
      split
      · exact next_flow taken k
      · rw [recheckFrom_place]
        exact Flow.stay _ (.inside (retFn k))
  | clearContended k =>
      cases a <;> simp only [mutexeeUnlock, reduceCtorEq, Option.some.injEq] at hs
      subst hs
      exact Flow.stay _ (.inside (retFn k))
  | wake k =>
      cases a <;> simp only [mutexeeUnlock, reduceCtorEq, Option.map_eq_some_iff] at hs
      obtain ⟨q, -, rfl⟩ := hs
      exact next_flow taken k
  | _ => cases hs

/-- A wait ends with the mutex. -/
theorem condWait_flow {t : Tid} {sh : Mutexee.Shared Tid} {pc : Mutexee.Pc}
    {a : Mutexee.Act Tid} {r : Mutexee.Shared Tid × Mutexee.Pc}
    (hs : condWait t sh pc a = some r) (taken : Bool) :
    Flow taken (.inside .lock) (mutexPlace r.2) := by
  cases pc with
  | readSeq timed | casM timed seq =>
      cases a <;> simp only [condWait, reduceCtorEq, Option.some.injEq] at hs
      subst hs
      exact Or.inl rfl
  | readM timed seq =>
      cases a <;> simp only [condWait, reduceCtorEq, Option.some.injEq] at hs
      subst hs
      dsimp only
      split <;> exact Or.inl rfl
  | checkM timed seq | readM' timed seq =>
      cases a <;> simp only [condWait, reduceCtorEq, Option.some.injEq] at hs
      subst hs
      dsimp only
      split <;> first | exact Or.inr rfl | exact Or.inl rfl
  | checkTime seq rel =>
      cases a <;> simp only [condWait, reduceCtorEq, Option.some.injEq] at hs <;> subst hs <;>
        exact Or.inl rfl
  | seqWait timed seq rel =>
      cases a <;> simp only [condWait, reduceCtorEq] at hs
      split at hs <;> obtain rfl := Option.some.inj hs <;> exact Or.inl rfl
  | seqBlocked timed seq rel =>
      cases timed <;> cases a <;> simp only [condWait, reduceCtorEq,
        Option.ite_none_left_eq_some, Option.ite_none_right_eq_some, Option.some.injEq] at hs <;>
        obtain ⟨-, rfl⟩ := hs <;> exact Or.inl rfl
  | _ => cases hs

/-- A signal or broadcast is not one of the functions of the lock. -/
theorem signal_flow {sh : Mutexee.Shared Tid} {pc : Mutexee.Pc} {a : Mutexee.Act Tid}
    {r : Mutexee.Shared Tid × Mutexee.Pc}
    (hs : upmutexCond1Signal sh pc a = some r ∨ upmutexCond1Broadcast sh pc a = some r)
    (taken : Bool) : Flow taken (mutexPlace pc) (mutexPlace r.2) := by
  cases pc with
  | sigAdd h | bcastAdd h =>
      cases a <;> simp only [upmutexCond1Signal, upmutexCond1Broadcast, reduceCtorEq,
        Option.some.injEq, or_false, false_or] at hs
      subst hs
      exact Flow.stay _ (.inside (endFn h))
  | bcastReadM h =>
      cases a <;> simp only [upmutexCond1Signal, upmutexCond1Broadcast, reduceCtorEq,
        Option.some.injEq, or_false, false_or] at hs
      subst hs
      dsimp only
      split
      · exact Flow.stay _ (.inside (endFn h))
      · exact back_flow taken h
  | sigWake h | bcastRequeue h _ =>
      cases a <;> simp only [upmutexCond1Signal, upmutexCond1Broadcast, reduceCtorEq,
        Option.map_eq_some_iff, or_false, false_or] at hs
      obtain ⟨q, -, rfl⟩ := hs
      exact back_flow taken h
  | _ => rcases hs with hs | hs <;> cases hs

/-- Every other step of the mutex. -/
theorem mutex_step (cfg : Mutexee.Config) (t : Tid) (sh : Mutexee.Shared Tid)
    (pc : Mutexee.Pc) (a : Mutexee.Act Tid) (r : Mutexee.Shared Tid × Mutexee.Pc)
    (ha : mutexStarts a = false) (hs : Mutexee.prog cfg t sh pc a = some r) :
    Flow (mutexTaken sh pc) (mutexPlace pc) (mutexPlace r.2) := by
  cases pc with
  | idle | critical => cases a <;> first | (cases ha; done) | cases hs
  | try8 =>
      cases a <;> simp only [Mutexee.prog, mutexeeLockTrylock, reduceCtorEq,
        Option.some.injEq] at hs
      subst hs
      refine Or.inr ?_
      by_cases h0 : sh.word.locked = 0 <;> simp [mutexTaken, mutexPlace, h0]
  | xchg8 | spin | clock | xchg32 | futexWait | blocked => exact mutexeeLock_flow hs _
  | readWord | cas | clear | recheck | clearContended | wake => exact mutexeeUnlock_flow hs _
  | readSeq | readM | checkM | casM | readM' | checkTime | seqWait | seqBlocked =>
      exact condWait_flow hs _
  | sigAdd | sigWake => exact signal_flow (Or.inl hs) _
  | bcastReadM | bcastAdd | bcastRequeue => exact signal_flow (Or.inr hs) _

/-- What a failed trylock of the mutex returns. -/
def EBUSY : Int := 16

/-- In its critical section a thread has the mutex. -/
theorem holder_of_critical {pc : Mutexee.Pc} (h : mutexPlace pc = .critical) :
    pc.role = .holder := by
  cases pc <;> first | rfl | cases h

omit [DecidableEq Tid] in
theorem mutex_init {c : Conf Tid (Mutexee.Shared Tid) Mutexee.Pc}
    (hsh : c.sh = ⟨⟨0, 0⟩, [], false, 0, [], 0⟩) (hidle : ∀ t, c.loc t = .idle) :
    Mutexee.Init c := by
  constructor <;> first | exact hidle | rw [hsh]

theorem mutex_unused_idle (pc : Mutexee.Pc) (h : pc = .idle) : mutexPlace pc = .idle := by
  rw [h]
  rfl

/-- `mutex_lock_t`: `mutex_glk_impl.h` is the futex mutex of `glk.c`. -/
def mutex : LockModel Tid where
  Sh := Mutexee.Shared Tid
  Lc := Mutexee.Pc
  Act := Mutexee.Act Tid
  prog := Mutexee.prog Mutexee.glkMutex
  ok := always
  created sh := sh = ⟨⟨0, 0⟩, [], false, 0, [], 0⟩
  unused pc := pc = .idle
  start := mutexStart
  starts := mutexStarts
  place := mutexPlace
  taken := mutexTaken
  busy := EBUSY
  full _ := false
  unused_idle := mutex_unused_idle
  ok_start _ _ _ _ := trivial
  start_step := mutex_start_step Mutexee.glkMutex
  step := mutex_step Mutexee.glkMutex
  exclusive := by
    intro c hc t u ht hu
    have hinv := Mutexee.inv_of_reach (hc.mono_init fun _ h => mutex_init h.1 h.2)
    exact hinv.unique t u (holder_of_critical ht) (holder_of_critical hu)

end Mutex

/-! ## The adaptive lock -/

section Adaptive

open Glk

/-- The start of a call. -/
def glkStart : Fn → GlkTry.Act Tid
  | .lock => .glk .lock
  | .trylock => .glk .trylock
  | .unlock => .glk .unlock

def glkStarts : GlkTry.Act Tid → Bool
  | .glk .lock => true
  | .glk .trylock => true
  | .glk .unlock => true
  | .glk (.mutex a) => mutexStarts a
  | _ => false

/-- The two loops. -/
def roundFn (try_ : Bool) : Fn := if try_ then .trylock else .lock

/-- The call that the release of one of the three locks is part of. -/
def releaseFn : Ret → Fn
  | .user => .unlock
  | .retry try_ => roundFn try_

/-- A call of `glk_mutex_lock_trylock` is over when the mutex is not taken. -/
def tryMutexPlace : Place → Place
  | .inside .unlock => .inside .unlock
  | _ => .inside .trylock

theorem tryMutexPlace_ne (p : Place) : tryMutexPlace p ≠ .critical := by
  rcases p with _ | _ | _ | _ | _ <;> exact nofun

def glkPcPlace : Glk.Pc Tid → Place
  | .idle => .idle
  | .critical _ => .critical
  | .readType try_ => .inside (roundFn try_)
  | .check try_ _ => .inside (roundFn try_)
  | .unlockType _ => .inside .unlock
  | .ticketTail => .inside .trylock
  | .ticketHead _ => .inside .trylock
  | .ticketCas _ => .inside .trylock
  | .ticketUnlock k => .inside (releaseFn k)
  | .ticketIncrement k _ => .inside (releaseFn k)
  | .mcsTail => .inside .trylock
  | .mcsTryGetLocal => .inside .trylock
  | .mcsTryClearNext _ => .inside .trylock
  | .mcsCas _ => .inside .trylock
  | .mcsUnlock k => .inside (releaseFn k)
  | .mcsCasTail k _ => .inside (releaseFn k)
  | .mcsWaitSucc k _ => .inside (releaseFn k)
  | .mcsClear k _ => .inside (releaseFn k)
  | .mutex (.unlock k) _ => .inside (releaseFn k)
  | .mutex .trylock pc => tryMutexPlace (mutexPlace pc)
  | _ => .inside .lock

/-- The trylock of the lock that `lock_type` named finds it taken. -/
def glkTaken (sh : Glk.Shared Tid) (l : Glk.Local Tid) : Bool :=
  match l.pc with
  | .ticketHead last => sh.ticket.head - last ≠ 1
  | .ticketCas last => sh.ticket.tail ≠ last
  | .mcsTail => sh.mcs.tail.isSome
  | .mcsCas _ => sh.mcs.tail.isSome
  | .mutex .trylock pc => mutexTaken sh.mutex pc
  | _ => false

/-- `glk_lock` or `glk_trylock` goes to the lock of the type that it has read. -/
theorem lockLock_place (try_ : Bool) (ty : LockType) :
    glkPcPlace (lockLock try_ ty : Glk.Pc Tid) = .inside (roundFn try_) := by
  cases ty <;> cases try_ <;> rfl

/-- `glk_unlock` goes to the lock of the type that it has read. -/
theorem unlockLock_place (k : Ret) (ty : LockType) :
    glkPcPlace (unlockLock k ty : Glk.Pc Tid) = .inside (releaseFn k) := by
  cases ty <;> rfl

/-- The end of a release. -/
theorem retNext_flow (taken : Bool) (k : Ret) :
    Flow taken (.inside (releaseFn k)) (glkPcPlace (k.next : Glk.Pc Tid)) := by
  cases k with
  | user => exact Or.inr rfl
  | retry try_ => exact Flow.stay _ (.inside (roundFn try_))

theorem glkTicketAdap_place (cfg : Config) (ticket : BitVec 32) :
    glkPcPlace (glkTicketAdap cfg ticket : Glk.Pc Tid) = .inside .lock := by
  unfold glkTicketAdap
  split <;> rfl

/-- The adaptive trylock goes on after the mutex is taken. -/
theorem tryMutex_flow {taken : Bool} {p p' : Place} (hidle : p ≠ .idle) (hcrit : p ≠ .critical)
    (h : Flow taken p p') :
    Flow taken (tryMutexPlace p) (if p' = .idle then .idle else tryMutexPlace p') := by
  cases p with
  | idle => exact absurd rfl hidle
  | critical => exact absurd rfl hcrit
  | inside f =>
      cases f with
      | lock =>
          rcases h with rfl | rfl <;> exact Or.inl rfl
      | trylock =>
          rcases h with rfl | rfl
          · exact Or.inl rfl
          · cases taken with
            | true => exact Or.inr rfl
            | false => exact Or.inl rfl
      | unlock =>
          rcases h with rfl | rfl
          · exact Or.inl rfl
          · exact Or.inr rfl

theorem glkMcsAdap_place (cfg : Config) (na : BitVec 32) :
    glkPcPlace (glkMcsAdap cfg na : Glk.Pc Tid) = .inside .lock := by
  unfold glkMcsAdap
  split <;> rfl

theorem walkFrom_place (na : BitVec 32) (curr : Option (Glk.Node Tid)) (res : BitVec 32) :
    glkPcPlace (walkFrom na curr res) = .inside .lock := by
  cases curr <;> rfl

section Steps

variable {cfg : Config} {t : Tid} {sh sh' : Glk.Shared Tid} {pc pc' : Glk.Pc Tid}
  {head : Heads} {l : Glk.Local Tid}

/-- The lock functions and the adaptation go on towards the critical section. -/
def Locking (pc : Glk.Pc Tid) : Prop := glkPcPlace pc = .inside .lock

/-- The steps of `glk_lock` outside the three locks. -/
theorem glkLock_flow (hs : glkLock sh pc = some (sh', pc')) (taken : Bool)
    (htaken : ∀ try_ held, pc = .check try_ held → taken = false) :
    Flow taken (glkPcPlace pc) (glkPcPlace pc') := by
  cases pc with
  | readType try_ =>
      obtain ⟨rfl, rfl⟩ := Prod.mk.inj (Option.some.inj hs)
      rw [lockLock_place]
      exact Flow.stay _ (.inside (roundFn try_))
  | check try_ held =>
      obtain ⟨rfl, rfl⟩ := Prod.mk.inj (Option.some.inj hs)
      rw [htaken try_ held rfl]
      split
      · cases try_ <;> exact Or.inr rfl
      · rw [unlockLock_place]
        exact Flow.stay _ (.inside (roundFn try_))
  | unlockType held =>
      obtain ⟨rfl, rfl⟩ := Prod.mk.inj (Option.some.inj hs)
      rw [unlockLock_place]
      exact Flow.stay _ (.inside .unlock)
  | _ => exact nomatch hs

/-- `glk_ticket_lock_lock` stays in the lock call. -/
theorem glkTicketLockLock_locking (hs : glkTicketLockLock cfg sh pc = some (sh', pc')) :
    Locking pc' := by
  cases pc with
  | ticketAdd | ticketCount =>
      obtain ⟨rfl, rfl⟩ := Prod.mk.inj (Option.some.inj hs)
      rfl
  | ticketDistance ticket =>
      obtain ⟨rfl, rfl⟩ := Prod.mk.inj (Option.some.inj hs)
      split
      · exact glkTicketAdap_place cfg ticket
      · split <;> rfl
  | ticketSpin ticket =>
      obtain ⟨rfl, rfl⟩ := Prod.mk.inj (Option.some.inj hs)
      split
      · exact glkTicketAdap_place cfg ticket
      · rfl
  | _ => exact nomatch hs

/-- `glk_ticket_lock_trylock` fails only at a lock that is taken. -/
theorem glkTicketLockTrylock_flow (hs : glkTicketLockTrylock sh pc = some (sh', pc')) :
    Flow (glkTaken sh ⟨head, pc⟩) (glkPcPlace pc) (glkPcPlace pc') := by
  cases pc with
  | ticketTail =>
      obtain ⟨rfl, rfl⟩ := Prod.mk.inj (Option.some.inj hs)
      exact Or.inl rfl
  | ticketHead last =>
      obtain ⟨rfl, rfl⟩ := Prod.mk.inj (Option.some.inj hs)
      split <;> rename_i hfree
      · exact Or.inl rfl
      · refine Or.inr ?_
        rw [show glkTaken sh ⟨head, .ticketHead last⟩ = true from decide_eq_true hfree]
        rfl
  | ticketCas last =>
      dsimp only [glkTicketLockTrylock] at hs
      split at hs <;> rename_i htail <;> obtain ⟨rfl, rfl⟩ := Prod.mk.inj (Option.some.inj hs)
      · exact Or.inl rfl
      · refine Or.inr ?_
        rw [show glkTaken sh ⟨head, .ticketCas last⟩ = true from decide_eq_true htail]
        rfl
  | _ => exact nomatch hs

/-- `glk_ticket_lock_unlock` stays in its caller, or returns to it. -/
theorem glkTicketLockUnlock_flow (hs : glkTicketLockUnlock sh pc = some (sh', pc'))
    (taken : Bool) : Flow taken (glkPcPlace pc) (glkPcPlace pc') := by
  cases pc with
  | ticketUnlock k =>
      obtain ⟨rfl, rfl⟩ := Prod.mk.inj (Option.some.inj hs)
      exact Flow.stay _ (.inside (releaseFn k))
  | ticketIncrement k x =>
      obtain ⟨rfl, rfl⟩ := Prod.mk.inj (Option.some.inj hs)
      exact retNext_flow taken k
  | _ => exact nomatch hs

/-- The adaptation of the ticket lock is a part of the lock call. -/
theorem ticketAdap_locking (hs : ticketAdap cfg sh pc = some (sh', pc')) : Locking pc' := by
  cases pc with
  | ticketMp | ticketTotal =>
      obtain ⟨rfl, rfl⟩ := Prod.mk.inj (Option.some.inj hs)
      split <;> rfl
  | _ => exact nomatch hs

/-- The adaptation of the mutex is a part of the lock call. -/
theorem mutexAdap_locking (hs : mutexAdap sh pc = some (sh', pc')) : Locking pc' := by
  cases pc with
  | mutexMp | mutexType =>
      obtain ⟨rfl, rfl⟩ := Prod.mk.inj (Option.some.inj hs)
      split <;> rfl
  | _ => exact nomatch hs

/-- The stores of an adaptation are a part of the lock call. -/
theorem adapStores_locking (hs : adapStores sh pc = some (sh', pc')) : Locking pc' := by
  cases pc with
  | storeTotal | storeType =>
      obtain ⟨rfl, rfl⟩ := Prod.mk.inj (Option.some.inj hs)
      rfl
  | storeAcquired held acquired type =>
      obtain ⟨rfl, rfl⟩ := Prod.mk.inj (Option.some.inj hs)
      cases type <;> rfl
  | _ => exact nomatch hs

variable [DecidableEq Tid]

/-- The adaptation of the MCS lock is a part of the lock call. -/
theorem mcsAdap_locking (hs : mcsAdap cfg t sh head pc = some (sh', pc')) : Locking pc' := by
  cases pc with
  | mcsFirst na =>
      obtain ⟨i, -, heq⟩ := Option.map_eq_some_iff.mp hs
      obtain ⟨rfl, rfl⟩ := Prod.mk.inj heq
      exact walkFrom_place _ _ _
  | mcsWalk na curr res =>
      obtain ⟨rfl, rfl⟩ := Prod.mk.inj (Option.some.inj hs)
      exact walkFrom_place _ _ _
  | mcsAddTotal na res =>
      obtain ⟨rfl, rfl⟩ := Prod.mk.inj (Option.some.inj hs)
      split <;> rfl
  | mcsMp total =>
      obtain ⟨rfl, rfl⟩ := Prod.mk.inj (Option.some.inj hs)
      split
      · rfl
      · split <;> rfl
  | _ => exact nomatch hs

/-- `glk_mcs_lock_lock` stays in the lock call. -/
theorem glkMcsLockLock_locking (hs : glkMcsLockLock cfg t sh head pc = some (sh', l)) :
    Locking l.pc := by
  cases pc with
  | mcsGetLocal =>
      obtain ⟨⟨i, head'⟩, -, heq⟩ := Option.map_eq_some_iff.mp hs
      obtain ⟨rfl, rfl⟩ := Prod.mk.inj heq
      rfl
  | mcsClearNext | mcsSwap | mcsSetWaiting | mcsLink =>
      obtain ⟨rfl, rfl⟩ := Prod.mk.inj (Option.some.inj hs)
      rfl
  | mcsCount i pred =>
      obtain ⟨rfl, rfl⟩ := Prod.mk.inj (Option.some.inj hs)
      cases pred with
      | none => exact glkMcsAdap_place _ _
      | some p => rfl
  | mcsSpin i na =>
      obtain ⟨rfl, rfl⟩ := Prod.mk.inj (Option.some.inj hs)
      dsimp only
      split
      · rfl
      · exact glkMcsAdap_place _ _
  | _ => exact nomatch hs

/-- `glk_mcs_lock_trylock` fails only at a lock that is taken. -/
theorem glkMcsLockTrylock_flow (hs : glkMcsLockTrylock t sh head pc = some (sh', l)) :
    Flow (glkTaken sh ⟨head, pc⟩) (glkPcPlace pc) (glkPcPlace l.pc) := by
  cases pc with
  | mcsTail =>
      obtain ⟨rfl, rfl⟩ := Prod.mk.inj (Option.some.inj hs)
      cases htail : sh.mcs.tail with
      | none => exact Or.inl rfl
      | some n =>
          refine Or.inr ?_
          rw [show glkTaken sh ⟨head, .mcsTail⟩ = true from congrArg Option.isSome htail]
          rfl
  | mcsTryGetLocal =>
      obtain ⟨⟨i, head'⟩, -, heq⟩ := Option.map_eq_some_iff.mp hs
      obtain ⟨rfl, rfl⟩ := Prod.mk.inj heq
      exact Or.inl rfl
  | mcsTryClearNext i =>
      obtain ⟨rfl, rfl⟩ := Prod.mk.inj (Option.some.inj hs)
      exact Or.inl rfl
  | mcsCas i =>
      dsimp only [glkMcsLockTrylock] at hs
      split at hs <;> rename_i htail
      · obtain ⟨rfl, rfl⟩ := Prod.mk.inj (Option.some.inj hs)
        exact Or.inl rfl
      · obtain ⟨⟨k, head'⟩, -, heq⟩ := Option.map_eq_some_iff.mp hs
        obtain ⟨rfl, rfl⟩ := Prod.mk.inj heq
        refine Or.inr ?_
        rw [show glkTaken sh ⟨head, .mcsCas i⟩ = true from Option.isSome_iff_ne_none.mpr htail]
        rfl
  | _ => exact nomatch hs

/-- `glk_mcs_lock_unlock` stays in its caller, or returns to it. -/
theorem glkMcsLockUnlock_flow (hs : glkMcsLockUnlock t sh head pc = some (sh', l))
    (taken : Bool) : Flow taken (glkPcPlace pc) (glkPcPlace l.pc) := by
  cases pc with
  | mcsUnlock k =>
      obtain ⟨⟨i, head'⟩, -, heq⟩ := Option.map_eq_some_iff.mp hs
      obtain ⟨rfl, rfl⟩ := Prod.mk.inj heq
      dsimp only
      split <;> exact Flow.stay _ (.inside (releaseFn k))
  | mcsCasTail k i =>
      dsimp only [glkMcsLockUnlock] at hs
      split at hs <;> obtain ⟨rfl, rfl⟩ := Prod.mk.inj (Option.some.inj hs)
      · exact retNext_flow taken k
      · exact Flow.stay _ (.inside (releaseFn k))
  | mcsWaitSucc k i =>
      obtain ⟨rfl, rfl⟩ := Prod.mk.inj (Option.some.inj hs)
      dsimp only
      split <;> exact Flow.stay _ (.inside (releaseFn k))
  | mcsClear k s =>
      obtain ⟨rfl, rfl⟩ := Prod.mk.inj (Option.some.inj hs)
      exact retNext_flow taken k
  | _ => exact nomatch hs

/-- The steps of the mutex in a GLK lock. -/
theorem glkMutex_flow {a : Mutexee.Act Tid} (ha : mutexStarts a = false)
    (hs : glkMutex t sh a pc = some (sh', pc')) :
    Flow (glkTaken sh ⟨head, pc⟩) (glkPcPlace pc) (glkPcPlace pc') := by
  cases pc with
  | mutex call mpc =>
      obtain ⟨⟨m, mpc'⟩, hm, heq⟩ := Option.map_eq_some_iff.mp hs
      obtain ⟨rfl, rfl⟩ := Prod.mk.inj heq
      cases call with
      | lock => cases mpc' <;> exact Or.inl rfl
      | unlock k =>
          cases mpc' with
          | idle => exact retNext_flow _ k
          | _ => exact Flow.stay _ (.inside (releaseFn k))
      | trylock =>
          have hflow := mutex_step Mutexee.glkMutex t sh.mutex mpc a _ ha hm
          show Flow (mutexTaken sh.mutex mpc) (tryMutexPlace (mutexPlace mpc))
            (glkPcPlace (MutexCall.next .trylock mpc'))
          have hnext : glkPcPlace (MutexCall.next .trylock mpc' : Glk.Pc Tid) =
              if mutexPlace mpc' = .idle then .idle else tryMutexPlace (mutexPlace mpc') := by
            cases mpc' <;> rfl
          have hidle : mutexPlace mpc ≠ .idle ∧ mutexPlace mpc ≠ .critical := by
            cases mpc with
            | idle | critical => cases a <;> first | (cases ha; done) | cases hm
            | _ => exact ⟨nofun, nofun⟩
          rw [hnext]
          exact tryMutex_flow hidle.1 hidle.2 hflow
  | _ => exact nomatch hs

end Steps

variable [DecidableEq Tid]

/-- The first step of a function of GLK. -/
theorem glk_start_step (cfg : Config) (f : Fn) (t : Tid) (sh : Glk.Shared Tid)
    (l : Glk.Local Tid) (r : Glk.Shared Tid × Glk.Local Tid)
    (hs : GlkTry.prog cfg t sh l (glkStart f) = some r) :
    glkPcPlace l.pc = f.from ∧ glkPcPlace r.2.pc = .inside f := by
  obtain ⟨head, pc⟩ := l
  cases f with
  | lock | trylock | unlock =>
      obtain ⟨pc', hcall, rfl⟩ := Option.map_eq_some_iff.mp hs
      cases pc <;> cases hcall
      exact ⟨rfl, rfl⟩

omit [DecidableEq Tid] in
/-- A step that keeps the table. -/
theorem of_keep {head : Heads} {o : Option (Glk.Shared Tid × Glk.Pc Tid)}
    {r : Glk.Shared Tid × Glk.Local Tid}
    (hs : o.map (fun r => (r.1, ({ head := head, pc := r.2 } : Glk.Local Tid))) = some r) :
    o = some (r.1, r.2.pc) := by
  obtain ⟨⟨sh, pc⟩, rfl, rfl⟩ := Option.map_eq_some_iff.mp hs
  rfl

/-- Every other step of GLK. -/
theorem glk_step (cfg : Config) (t : Tid) (sh : Glk.Shared Tid) (l : Glk.Local Tid)
    (a : GlkTry.Act Tid) (r : Glk.Shared Tid × Glk.Local Tid) (ha : glkStarts a = false)
    (hs : GlkTry.prog cfg t sh l a = some r) :
    Flow (glkTaken sh l) (glkPcPlace l.pc) (glkPcPlace r.2.pc) := by
  obtain ⟨head, pc⟩ := l
  cases a with
  | other i used =>
      obtain ⟨-, hr⟩ := Option.ite_none_right_eq_some.mp hs
      obtain rfl := Option.some.inj hr
      exact Flow.stay _ _
  | glk a =>
      cases a with
      | lock | trylock | unlock => exact nomatch ha
      | background on =>
          obtain rfl := Option.some.inj hs
          exact Flow.stay _ _
      | mutex a => exact glkMutex_flow ha (of_keep hs)
      | go =>
          dsimp only [GlkTry.prog, Glk.prog, Glk.go] at hs
          cases pc with
          | idle | critical | mutex => exact nomatch hs
          | readType | check | unlockType =>
              exact glkLock_flow (of_keep hs) _ fun _ _ h => by cases h <;> rfl
          | ticketAdd | ticketDistance | ticketCount | ticketSpin =>
              exact Or.inl (glkTicketLockLock_locking (of_keep hs))
          | ticketTail | ticketHead | ticketCas =>
              exact glkTicketLockTrylock_flow (of_keep hs)
          | ticketUnlock | ticketIncrement => exact glkTicketLockUnlock_flow (of_keep hs) _
          | mcsGetLocal | mcsClearNext | mcsSwap | mcsCount | mcsSetWaiting | mcsLink | mcsSpin =>
              exact Or.inl (glkMcsLockLock_locking hs)
          | mcsTail | mcsTryGetLocal | mcsTryClearNext | mcsCas =>
              exact glkMcsLockTrylock_flow hs
          | mcsUnlock | mcsCasTail | mcsWaitSucc | mcsClear => exact glkMcsLockUnlock_flow hs _
          | ticketMp | ticketTotal => exact Or.inl (ticketAdap_locking (of_keep hs))
          | mcsFirst | mcsWalk | mcsAddTotal | mcsMp =>
              exact Or.inl (mcsAdap_locking (of_keep hs))
          | mutexMp | mutexType => exact Or.inl (mutexAdap_locking (of_keep hs))
          | storeTotal | storeAcquired | storeType =>
              exact Or.inl (adapStores_locking (of_keep hs))

/-- What `glk_init` leaves; `lock_type` may be any of the types, and the nodes are as earlier
    uses left them. -/
structure GlkCreated (sh : Glk.Shared Tid) : Prop where
  ticket : sh.ticket = ⟨1, 0⟩
  next : sh.mcs.tail = none
  mutex : sh.mutex = ⟨⟨0, 0⟩, [], false, 0, [], 0⟩
  numAcquired : sh.numAcquired = 0
  queueTotal : sh.queueTotal = 0

omit [DecidableEq Tid] in
/-- The critical section is the place of that name. -/
theorem critical_of_place {pc : Glk.Pc Tid} (h : glkPcPlace pc = .critical) :
    ∃ k, pc = .critical k := by
  cases pc with
  | critical k => exact ⟨k, rfl⟩
  | mutex call pc =>
      cases call with
      | lock | unlock => exact nomatch h
      | trylock => exact absurd h (tryMutexPlace_ne _)
  | _ => exact nomatch h

omit [DecidableEq Tid] in
theorem glk_init {c : Conf Tid (Glk.Shared Tid) (Glk.Local Tid)} (hsh : GlkCreated c.sh)
    (hunused : ∀ t, (c.loc t).pc = .idle ∧ ∀ i, (c.loc t).head i ≠ .this) : Glk.Init c := by
  refine ⟨?_, ?_, hsh.next, hsh.mutex, hsh.numAcquired, hsh.queueTotal,
    fun t => (hunused t).1, fun t => (hunused t).2⟩
  · rw [hsh.ticket]
  · rw [hsh.ticket]

/-- `glk_t`, in runs that are `steady`. -/
def glk (cfg : Config) : LockModel Tid where
  Sh := Glk.Shared Tid
  Lc := Glk.Local Tid
  Act := GlkTry.Act Tid
  prog := GlkTry.prog cfg
  ok := GlkTry.steady
  created := GlkCreated
  unused l := l.pc = .idle ∧ ∀ i, l.head i ≠ .this
  start := glkStart
  starts := glkStarts
  place l := glkPcPlace l.pc
  taken := glkTaken
  busy := 1
  full := GlkTry.full
  unused_idle := by
    rintro ⟨head, _⟩ ⟨rfl, -⟩
    rfl
  ok_start c t f _ := by
    cases f <;> trivial
  start_step := glk_start_step cfg
  step := glk_step cfg
  exclusive := by
    intro c hc t u ht hu
    have hinv := GlkTry.inv_of_reach (hc.mono_init fun _ h => glk_init h.1 h.2)
    obtain ⟨k, ht⟩ := critical_of_place ht
    obtain ⟨k', hu⟩ := critical_of_place hu
    have hk : c.sh.lockType = k := hinv.sure t k (by rw [ht]; rfl)
    have hk' : c.sh.lockType = k' := hinv.sure u k' (by rw [hu]; rfl)
    obtain rfl : k = k' := hk.symm.trans hk'
    exact hinv.owner_unique (hinv.owns_of_holds (by rw [ht]; rfl))
      (hinv.owns_of_holds (by rw [hu]; rfl))

end Adaptive

/-- The object and the functions of a flavour.  The word of `tasIn` is taken where it stands;
    what moves it is in `ClhtLpTas`. -/
def lock [DecidableEq Tid] (cfg : Glk.Config) : Flavour → LockModel Tid
  | .glk => glk cfg
  | .ttas => tas .ttas
  | .mcs => mcs
  | .mutex => mutex
  | .ticket => ticket
  | .tas => tas .tas
  | .tasIn => tas .tasIn

/-! ## A thread alone -/

section Alone

variable [DecidableEq Tid] (M : LockModel Tid)

/-- A step of thread `t` in a call. -/
def LockModel.Goes (t : Tid) (x y : M.Sh × M.Lc) : Prop :=
  (∃ f, M.place x.2 = .inside f) ∧ ∃ a, M.prog t x.1 x.2 a = some y

/-- What thread `t` gets to by itself before its call returns, and where it returns to. -/
def LockModel.Alone (t : Tid) : M.Sh × M.Lc → M.Sh × M.Lc → Prop := Relation.ReflTransGen (M.Goes t)

variable {M}

/-- One more step in front. -/
theorem LockModel.Alone.head {t : Tid} {x y z : M.Sh × M.Lc} {f : Fn} {a : M.Act}
    (hplace : M.place x.2 = .inside f) (hs : M.prog t x.1 x.2 a = some y) (h : M.Alone t y z) :
    M.Alone t x z :=
  Relation.ReflTransGen.head ⟨⟨f, hplace⟩, a, hs⟩ h

end Alone

end GlsLocks
