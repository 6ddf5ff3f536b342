import Lockin.Glk

/-! # Mutual exclusion of the adaptive lock

    Seen by itself, each of the three locks of a `glk_t` runs its own protocol: the
    ticket protocol (`ticketView`), the MCS queue (`mcsView`) and the futex mutex
    (`mutexView`).  Every step of the adaptive lock is a step of at most one of them
    (`Stepped`), so at most one thread owns each.

    What makes the three ONE lock is `lock_type`.  A thread is in its critical section
    only after it has read that `lock_type` names the lock it owns.  `glk_mutex_adap`
    writes `lock_type` only after the same check.  `glk_ticket_adap` and `glk_mcs_adap`
    do not check, and a thread that waited for the ticket or the MCS lock while
    `lock_type` was changed away from it changes it once more, with another thread in
    its critical section (`glk_not_exclusive`).  As long as this does not happen
    (`steady`), the adaptive lock is safe (`glk_safe`). -/

namespace Glk

open Interleaving

variable {Tid : Type}

/-! ## The three views -/

/-- The lock that a thread owns, outside the code that waits for one of the three, and
    up to the first step of its release. -/
def Pc.holds : Pc Tid → Option LockType
  | .check _ h => some h
  | .critical h => some h
  | .unlockType h => some h
  | .storeTotal h _ _ _ => some h
  | .storeAcquired h _ _ => some h
  | .storeType h _ => some h
  | .ticketMp => some .ticket
  | .ticketTotal => some .ticket
  | .ticketUnlock _ => some .ticket
  | .mcsFirst _ => some .mcs
  | .mcsWalk _ _ _ => some .mcs
  | .mcsAddTotal _ _ => some .mcs
  | .mcsMp _ => some .mcs
  | .mcsUnlock _ => some .mcs
  | .mutexMp => some .mutex
  | .mutexType => some .mutex
  | _ => none

/-- What a thread does with the ticket lock. -/
def Pc.ticketPc : Pc Tid → TicketQueue.Pc 32
  | .ticketDistance ticket => .wait ticket
  | .ticketCount ticket _ => .wait ticket
  | .ticketSpin ticket => .wait ticket
  | .ticketIncrement _ head => .leave head
  | pc => if pc.holds = some .ticket then .held else .idle

/-- The node a thread has in use, where the code has it in a variable. -/
def Pc.node : Pc Tid → Option (Fin nestedLocksMax)
  | .mcsClearNext i => some i
  | .mcsSwap i => some i
  | .mcsCount i _ => some i
  | .mcsSetWaiting i _ _ => some i
  | .mcsLink i _ _ => some i
  | .mcsSpin i _ => some i
  | .mcsTryClearNext i => some i
  | .mcsCas i => some i
  | _ => none

/-- The owner of the MCS lock finds its node in its table. -/
def ownNode (t : Tid) (head : Heads) : McsQueue.Pc (Node Tid) :=
  match firstHead head .this with
  | some i => .held (t, i)
  | none => .idle

/-- What a thread does with the MCS lock. -/
def Pc.mcsPc (t : Tid) (head : Heads) : Pc Tid → McsQueue.Pc (Node Tid)
  | .mcsClearNext i => .clearNext false (t, i)
  | .mcsSwap i => .swap (t, i)
  | .mcsCount i none => .held (t, i)
  | .mcsCount i (some p) => .setWaiting (t, i) p
  | .mcsSetWaiting i p _ => .setWaiting (t, i) p
  | .mcsLink i p _ => .link (t, i) p
  | .mcsSpin i _ => .spin (t, i)
  | .mcsTryClearNext i => .clearNext true (t, i)
  | .mcsCas i => .cas (t, i)
  | .mcsCasTail _ i => .casTail (t, i)
  | .mcsWaitSucc _ i => .waitNext (t, i)
  | .mcsClear _ s => .clear s
  | pc => if pc.holds = some .mcs then ownNode t head else .idle

/-- What a thread does with the futex mutex. -/
def Pc.mutexPc : Pc Tid → Mutexee.Pc
  | .mutex _ pc => pc
  | pc => if pc.holds = some .mutex then .critical else .idle

/-- The ticket lock by itself. -/
def ticketView (c : Conf Tid (Shared Tid) (Local Tid)) :
    Conf Tid (TicketQueue.Shared 32) (TicketQueue.Pc 32) :=
  c.view Shared.ticket fun _ l => l.pc.ticketPc

/-- The MCS lock by itself. -/
def mcsView (c : Conf Tid (Shared Tid) (Local Tid)) :
    Conf Tid (McsQueue.Shared (Node Tid)) (McsQueue.Pc (Node Tid)) :=
  c.view Shared.mcs fun t l => l.pc.mcsPc t l.head

/-- The futex mutex by itself. -/
def mutexView (c : Conf Tid (Shared Tid) (Local Tid)) :
    Conf Tid (Mutexee.Shared Tid) Mutexee.Pc :=
  c.view Shared.mutex fun _ l => l.pc.mutexPc

/-! ## The table of nodes -/

/-- The search finds an entry with the value. -/
theorem firstHead_eq {head : Heads} {e : Head} {i : Fin nestedLocksMax}
    (h : firstHead head e = some i) : head i = e := by
  have := List.find?_some h
  simpa using this

/-- The search finds the entry with the value, if it is the only one. -/
theorem firstHead_unique {head : Heads} {e : Head} {i : Fin nestedLocksMax}
    (h : ∀ j, head j = e ↔ j = i) : firstHead head e = some i := by
  cases hf : firstHead head e with
  | none =>
      have := List.find?_eq_none.mp hf i (List.mem_finRange i)
      exact absurd ((h i).mpr rfl) (by simpa using this)
  | some j => rw [(h j).mp (firstHead_eq hf)]

/-- The table has an entry for the lock exactly while the thread has a node in use. -/
def Local.Slotted (l : Local Tid) : Prop :=
  match l.pc.node with
  | some i => ∀ j, l.head j = .this ↔ j = i
  | none =>
      if l.pc.holds = some .mcs then ∃ i, ∀ j, l.head j = .this ↔ j = i
      else ∀ j, l.head j ≠ .this

/-- A thread that takes a node has one node for the lock. -/
theorem slotted_getLocal {head head' : Heads} {i : Fin nestedLocksMax}
    (h : ∀ j, head j ≠ .this) (hg : glkMcsGetLocalLock head = some (i, head')) :
    ∀ j, head' j = .this ↔ j = i := by
  obtain ⟨k, -, hk⟩ := Option.map_eq_some_iff.mp hg
  obtain ⟨rfl, rfl⟩ := Prod.mk.inj hk
  intro j
  rw [Function.update_apply]
  by_cases hj : j = k
  · simp [hj]
  · simp [hj, h j]

/-- A thread that gives its node back has none. -/
theorem slotted_ungetLocal {head head' : Heads} {i k : Fin nestedLocksMax}
    (h : ∀ j, head j = .this ↔ j = i) (hg : glkMcsGetLocalUnlock head = some (k, head')) :
    k = i ∧ ∀ j, head' j ≠ .this := by
  obtain ⟨k', hf, hk⟩ := Option.map_eq_some_iff.mp hg
  obtain ⟨rfl, rfl⟩ := Prod.mk.inj hk
  obtain rfl : k' = i := (h k').mp (firstHead_eq hf)
  refine ⟨rfl, fun j => ?_⟩
  rw [Function.update_apply]
  by_cases hj : j = k'
  · simp [hj]
  · rw [if_neg hj]
    exact fun hthis => hj ((h j).mp hthis)

/-! ## What a step can do -/

/-- The thread relies on `lock_type` still naming the lock that it owns. -/
def Pc.sure : Pc Tid → Option LockType
  | .critical h => some h
  | .unlockType h => some h
  | .storeTotal .mutex _ _ _ => some .mutex
  | .storeAcquired .mutex _ _ => some .mutex
  | .storeType .mutex _ => some .mutex
  | _ => none

/-- A store to `lock_type` by `glk_ticket_adap` or `glk_mcs_adap` finds there the lock
    that the thread owns, and the ticket counters have not lapped a thread: a ticket is
    taken only when another one is left, and an exchange by `glk_trylock` succeeds only
    on a free ticket lock. -/
def Pc.steady (sh : Shared Tid) : Pc Tid → Bool
  | .storeType held _ => held ≠ .mutex → sh.lockType = held
  | .ticketAdd => sh.ticket.tail + 2 ≠ sh.ticket.head
  | .ticketCas last => sh.ticket.tail = last → sh.ticket.head = last + 1
  | _ => true

/-- Nothing goes wrong in the step. -/
def steady (c : Conf Tid (Shared Tid) (Local Tid)) (t : Tid) : Act Tid → Prop
  | .go => (c.loc t).pc.steady c.sh
  | _ => True

instance (c : Conf Tid (Shared Tid) (Local Tid)) (t : Tid) :
    (a : Act Tid) → Decidable (steady c t a)
  | .go => inferInstanceAs (Decidable (_ = true))
  | .lock | .trylock | .unlock | .mutex _ | .background _ => isTrue trivial

variable [DecidableEq Tid]

/-- What the step of `t` to `r` does: at most one of the three locks moves. -/
structure Stepped (c : Conf Tid (Shared Tid) (Local Tid)) (t : Tid)
    (r : Shared Tid × Local Tid) : Prop where
  ticket : Follows TicketQueue.prog TicketQueue.roomy (ticketView c) t
    (r.1.ticket, r.2.pc.ticketPc)
  mcs : Follows McsQueue.prog McsQueue.fresh (mcsView c) t (r.1.mcs, r.2.pc.mcsPc t r.2.head)
  mutex : Follows (Mutexee.prog Mutexee.glkMutex) always (mutexView c) t
    (r.1.mutex, r.2.pc.mutexPc)
  slotted : r.2.Slotted
  sure : ∀ k, r.2.pc.sure = some k → r.1.lockType = k
  lockType : r.1.lockType ≠ c.sh.lockType →
    (c.loc t).pc.holds = some c.sh.lockType

omit [DecidableEq Tid] in
/-- The table entry of a thread whose use of a node does not change. -/
theorem Local.Slotted.congr {head : Heads} {pc pc' : Pc Tid}
    (h : Local.Slotted ⟨head, pc⟩) (hnode : pc'.node = pc.node)
    (hmcs : pc'.holds = some .mcs ↔ pc.holds = some .mcs) : Local.Slotted ⟨head, pc'⟩ := by
  simpa only [Local.Slotted, hnode, hmcs] using h

namespace Stepped

variable {c : Conf Tid (Shared Tid) (Local Tid)} {t : Tid} {sh' : Shared Tid}
  {pc pc' : Pc Tid} {head head' : Heads}

omit [DecidableEq Tid] in
/-- A step that the ticket lock does not see. -/
theorem ticket_stay (hl : c.loc t = ⟨head, pc⟩) (hsh : sh'.ticket = c.sh.ticket)
    (hpc : pc'.ticketPc = pc.ticketPc) :
    Follows TicketQueue.prog TicketQueue.roomy (ticketView c) t (sh'.ticket, pc'.ticketPc) := by
  refine Or.inl (Prod.ext hsh (hpc.trans ?_))
  show pc.ticketPc = (c.loc t).pc.ticketPc
  rw [hl]

/-- A step that the MCS lock does not see. -/
theorem mcs_stay (hl : c.loc t = ⟨head, pc⟩) (hsh : sh'.mcs = c.sh.mcs)
    (hpc : pc'.mcsPc t head' = pc.mcsPc t head) :
    Follows McsQueue.prog McsQueue.fresh (mcsView c) t (sh'.mcs, pc'.mcsPc t head') := by
  refine Or.inl (Prod.ext hsh (hpc.trans ?_))
  show pc.mcsPc t head = (c.loc t).pc.mcsPc t (c.loc t).head
  rw [hl]

/-- A step that the mutex does not see. -/
theorem mutex_stay (hl : c.loc t = ⟨head, pc⟩) (hsh : sh'.mutex = c.sh.mutex)
    (hpc : pc'.mutexPc = pc.mutexPc) :
    Follows (Mutexee.prog Mutexee.glkMutex) always (mutexView c) t (sh'.mutex, pc'.mutexPc) := by
  refine Or.inl (Prod.ext hsh (hpc.trans ?_))
  show pc.mutexPc = (c.loc t).pc.mutexPc
  rw [hl]

/-- A step in the code of the adaptive lock or in the bookkeeping. -/
theorem quiet (hl : c.loc t = ⟨head, pc⟩) (hslot : Local.Slotted ⟨head, pc⟩)
    (hticket : sh'.ticket = c.sh.ticket) (hmcs : sh'.mcs = c.sh.mcs)
    (hmutex : sh'.mutex = c.sh.mutex) (hpc : pc'.ticketPc = pc.ticketPc)
    (hpc' : pc'.mcsPc t head = pc.mcsPc t head) (hpc'' : pc'.mutexPc = pc.mutexPc)
    (hnode : pc'.node = pc.node)
    (hholds : pc'.holds = some .mcs ↔ pc.holds = some .mcs)
    (hsure : ∀ k, pc'.sure = some k → sh'.lockType = k)
    (htype : sh'.lockType ≠ c.sh.lockType → pc.holds = some c.sh.lockType) :
    Stepped c t (sh', ⟨head, pc'⟩) where
  ticket := ticket_stay hl hticket hpc
  mcs := mcs_stay hl hmcs hpc'
  mutex := mutex_stay hl hmutex hpc''
  slotted := hslot.congr hnode hholds
  sure := hsure
  lockType := by
    rw [hl]
    exact htype

/-- A step of the ticket lock. -/
theorem ofTicket (hl : c.loc t = ⟨head, pc⟩) (hslot : Local.Slotted ⟨head, pc⟩)
    (a : TicketQueue.Act) {tk : TicketQueue.Shared 32}
    (hok : TicketQueue.roomy (ticketView c) t a)
    (hs : TicketQueue.prog t c.sh.ticket pc.ticketPc a = some (tk, pc'.ticketPc))
    (hpc' : pc'.mcsPc t head = pc.mcsPc t head) (hpc'' : pc'.mutexPc = pc.mutexPc)
    (hnode : pc'.node = pc.node)
    (hholds : pc'.holds = some .mcs ↔ pc.holds = some .mcs) (hsure : pc'.sure = none) :
    Stepped c t ({ c.sh with ticket := tk }, ⟨head, pc'⟩) where
  ticket := by
    refine Or.inr ⟨a, hok, ?_⟩
    show TicketQueue.prog t c.sh.ticket (c.loc t).pc.ticketPc a = some (tk, pc'.ticketPc)
    rw [hl]
    exact hs
  mcs := mcs_stay hl rfl hpc'
  mutex := mutex_stay hl rfl hpc''
  slotted := hslot.congr hnode hholds
  sure := by
    intro k hk
    rw [hsure] at hk
    exact nomatch hk
  lockType := absurd rfl

/-- A step of the MCS lock. -/
theorem ofMcs (hl : c.loc t = ⟨head, pc⟩) (a : McsQueue.Act (Node Tid))
    (hok : McsQueue.fresh (mcsView c) t a) {ms : McsQueue.Shared (Node Tid)}
    (hs : McsQueue.prog t c.sh.mcs (pc.mcsPc t head) a = some (ms, pc'.mcsPc t head'))
    (hpc : pc'.ticketPc = pc.ticketPc) (hpc'' : pc'.mutexPc = pc.mutexPc)
    (hslot : Local.Slotted ⟨head', pc'⟩) (hsure : pc'.sure = none) :
    Stepped c t ({ c.sh with mcs := ms }, ⟨head', pc'⟩) where
  ticket := ticket_stay hl rfl hpc
  mcs := by
    refine Or.inr ⟨a, hok, ?_⟩
    show McsQueue.prog t c.sh.mcs ((c.loc t).pc.mcsPc t (c.loc t).head) a
      = some (ms, pc'.mcsPc t head')
    rw [hl]
    exact hs
  mutex := mutex_stay hl rfl hpc''
  slotted := hslot
  sure := by
    intro k hk
    rw [hsure] at hk
    exact nomatch hk
  lockType := absurd rfl

/-- A step of the futex mutex. -/
theorem ofMutex (hl : c.loc t = ⟨head, pc⟩) (hslot : Local.Slotted ⟨head, pc⟩)
    (a : Mutexee.Act Tid) {m : Mutexee.Shared Tid}
    (hs : Mutexee.prog Mutexee.glkMutex t c.sh.mutex pc.mutexPc a = some (m, pc'.mutexPc))
    (hpc : pc'.ticketPc = pc.ticketPc) (hpc' : pc'.mcsPc t head = pc.mcsPc t head)
    (hnode : pc'.node = pc.node)
    (hholds : pc'.holds = some .mcs ↔ pc.holds = some .mcs) (hsure : pc'.sure = none) :
    Stepped c t ({ c.sh with mutex := m }, ⟨head, pc'⟩) where
  ticket := ticket_stay hl rfl hpc
  mcs := mcs_stay hl rfl hpc'
  mutex := by
    refine Or.inr ⟨a, trivial, ?_⟩
    show Mutexee.prog Mutexee.glkMutex t c.sh.mutex (c.loc t).pc.mutexPc a
      = some (m, pc'.mutexPc)
    rw [hl]
    exact hs
  slotted := hslot.congr hnode hholds
  sure := by
    intro k hk
    rw [hsure] at hk
    exact nomatch hk
  lockType := absurd rfl

end Stepped

omit [DecidableEq Tid] in
/-- The views of a thread after a step in the code of the futex mutex. -/
theorem MutexCall.next_views (t : Tid) (head : Heads) (call : MutexCall) (pc : Mutexee.Pc) :
    (call.next pc : Pc Tid).mutexPc = pc ∧ (call.next pc : Pc Tid).ticketPc = .idle ∧
      (call.next pc : Pc Tid).mcsPc t head = .idle ∧ (call.next pc : Pc Tid).node = none ∧
      (call.next pc : Pc Tid).holds ≠ some .mcs ∧ (call.next pc : Pc Tid).sure = none := by
  rcases call with _ | _ | (_ | _) <;> cases pc <;>
    exact ⟨rfl, rfl, rfl, rfl, by simp [MutexCall.next, Ret.next, Pc.holds], rfl⟩

section Inversion

variable {cfg : Config} {c : Conf Tid (Shared Tid) (Local Tid)} {t : Tid} {sh' : Shared Tid}
  {pc pc' : Pc Tid} {head head' : Heads}

/-- The steps of `glk_lock` outside the three locks. -/
theorem glkLock_stepped (hl : c.loc t = ⟨head, pc⟩) (hslot : Local.Slotted ⟨head, pc⟩)
    (hsure : ∀ k, pc.sure = some k → c.sh.lockType = k)
    (hs : glkLock c.sh pc = some (sh', pc')) : Stepped c t (sh', ⟨head, pc'⟩) := by
  cases pc with
  | readType try_ =>
      obtain ⟨rfl, rfl⟩ := Prod.mk.inj (Option.some.inj hs)
      cases htype : c.sh.lockType with
      | ticket | mcs =>
          cases try_ <;>
            exact .quiet hl hslot rfl rfl rfl rfl rfl rfl rfl Iff.rfl
              (by simp [lockLock, Pc.sure]) (absurd rfl)
      | mutex =>
          cases try_ with
          | false => exact .ofMutex hl hslot .lock rfl rfl rfl rfl Iff.rfl rfl
          | true => exact .ofMutex hl hslot .trylock rfl rfl rfl rfl Iff.rfl rfl
  | check try_ held =>
      obtain ⟨rfl, rfl⟩ := Prod.mk.inj (Option.some.inj hs)
      by_cases htype : c.sh.lockType = held
      · rw [if_pos htype]
        refine .quiet hl hslot rfl rfl rfl rfl rfl rfl rfl Iff.rfl ?_ (absurd rfl)
        intro k hk
        rw [htype]
        exact Option.some.inj hk
      · rw [if_neg htype]
        cases held with
        | ticket | mcs =>
            exact .quiet hl hslot rfl rfl rfl rfl rfl rfl rfl Iff.rfl
              (by simp [unlockLock, Pc.sure]) (absurd rfl)
        | mutex =>
            exact .ofMutex hl hslot .unlock rfl rfl rfl rfl (by simp [unlockLock, Pc.holds]) rfl
  | unlockType held =>
      -- the type that is read is the one the thread acquired under
      obtain ⟨rfl, rfl⟩ := Prod.mk.inj (Option.some.inj hs)
      rw [hsure held rfl]
      cases held with
      | ticket | mcs =>
          exact .quiet hl hslot rfl rfl rfl rfl rfl rfl rfl Iff.rfl
            (by simp [unlockLock, Pc.sure]) (absurd rfl)
      | mutex =>
          exact .ofMutex hl hslot .unlock rfl rfl rfl rfl (by simp [unlockLock, Pc.holds]) rfl
  | _ => exact nomatch hs

omit [DecidableEq Tid] in
variable (cfg) in
/-- Where `glk_ticket_adap` starts, the thread owns the ticket lock. -/
theorem glkTicketAdap_views (t : Tid) (head : Heads) (ticket : BitVec 32) :
    (glkTicketAdap cfg ticket : Pc Tid).ticketPc = .held ∧
      (glkTicketAdap cfg ticket : Pc Tid).mcsPc t head = .idle ∧
      (glkTicketAdap cfg ticket : Pc Tid).mutexPc = .idle ∧
      (glkTicketAdap cfg ticket : Pc Tid).node = none ∧
      (glkTicketAdap cfg ticket : Pc Tid).holds ≠ some .mcs ∧
      (glkTicketAdap cfg ticket : Pc Tid).sure = none := by
  unfold glkTicketAdap
  split <;> exact ⟨rfl, rfl, rfl, rfl, by simp [Pc.holds], rfl⟩

/-- The spin of `glk_ticket_lock_lock` ends, or goes on at `pc'`. -/
theorem ticketWait_stepped {ticket : BitVec 32} (hl : c.loc t = ⟨head, pc⟩)
    (hslot : Local.Slotted ⟨head, pc⟩) (hnode : pc.node = none) (hmcs : pc.mcsPc t head = .idle)
    (hmutex : pc.mutexPc = .idle) (hholds : pc.holds = none) (hpc : pc.ticketPc = .wait ticket)
    (hpc' : pc' = .ticketSpin ticket ∨ ∃ d, pc' = .ticketCount ticket d) :
    Stepped c t (c.sh, ⟨head, if ticket - c.sh.ticket.head = 0 then glkTicketAdap cfg ticket
      else pc'⟩) := by
  by_cases hd : ticket - c.sh.ticket.head = 0
  · rw [if_pos hd]
    have heq : ticket = c.sh.ticket.head :=
      (BitVec.sub_eq_iff_eq_add.mp hd).trans (BitVec.zero_add _)
    obtain ⟨h1, h2, h3, h4, h5, h6⟩ := glkTicketAdap_views cfg t head ticket
    refine .ofTicket hl hslot .go trivial ?_ (h2.trans hmcs.symm) (h3.trans hmutex.symm)
      (h4.trans hnode.symm) (iff_of_false h5 (by simp [hholds])) h6
    rw [hpc, h1]
    simp [TicketQueue.prog, heq]
  · rw [if_neg hd]
    obtain rfl | ⟨d, rfl⟩ := hpc' <;>
      exact .quiet hl hslot rfl rfl rfl hpc.symm hmcs.symm hmutex.symm hnode.symm
        (iff_of_false (by simp [Pc.holds]) (by simp [hholds])) (by simp [Pc.sure]) (absurd rfl)

/-- The steps of `glk_ticket_lock_lock` are those of the ticket lock. -/
theorem glkTicketLockLock_stepped (hl : c.loc t = ⟨head, pc⟩) (hslot : Local.Slotted ⟨head, pc⟩)
    (hok : pc = .ticketAdd → c.sh.ticket.tail + 2 ≠ c.sh.ticket.head)
    (hs : glkTicketLockLock cfg c.sh pc = some (sh', pc')) : Stepped c t (sh', ⟨head, pc'⟩) := by
  cases pc with
  | ticketAdd =>
      obtain ⟨rfl, rfl⟩ := Prod.mk.inj (Option.some.inj hs)
      exact .ofTicket hl hslot .lock (hok rfl) rfl rfl rfl rfl Iff.rfl rfl
  | ticketDistance ticket =>
      obtain ⟨rfl, rfl⟩ := Prod.mk.inj (Option.some.inj hs)
      refine ticketWait_stepped hl hslot rfl rfl rfl rfl rfl ?_
      split
      · exact Or.inr ⟨_, rfl⟩
      · exact Or.inl rfl
  | ticketCount ticket distance =>
      obtain ⟨rfl, rfl⟩ := Prod.mk.inj (Option.some.inj hs)
      exact .quiet hl hslot rfl rfl rfl rfl rfl rfl rfl Iff.rfl (by simp [Pc.sure]) (absurd rfl)
  | ticketSpin ticket =>
      obtain ⟨rfl, rfl⟩ := Prod.mk.inj (Option.some.inj hs)
      exact ticketWait_stepped hl hslot rfl rfl rfl rfl rfl (Or.inl rfl)
  | _ => exact nomatch hs

/-- The steps of `glk_ticket_lock_trylock` are those of the ticket lock. -/
theorem glkTicketLockTrylock_stepped (hl : c.loc t = ⟨head, pc⟩)
    (hslot : Local.Slotted ⟨head, pc⟩)
    (hok : ∀ last, pc = .ticketCas last → c.sh.ticket.tail = last →
      c.sh.ticket.head = last + 1)
    (hs : glkTicketLockTrylock c.sh pc = some (sh', pc')) : Stepped c t (sh', ⟨head, pc'⟩) := by
  cases pc with
  | ticketTail =>
      obtain ⟨rfl, rfl⟩ := Prod.mk.inj (Option.some.inj hs)
      exact .quiet hl hslot rfl rfl rfl rfl rfl rfl rfl Iff.rfl (by simp [Pc.sure]) (absurd rfl)
  | ticketHead last =>
      obtain ⟨rfl, rfl⟩ := Prod.mk.inj (Option.some.inj hs)
      split <;>
        exact .quiet hl hslot rfl rfl rfl rfl rfl rfl rfl Iff.rfl (by simp [Pc.sure]) (absurd rfl)
  | ticketCas last =>
      simp only [glkTicketLockTrylock] at hs
      split at hs <;> rename_i htail <;>
        obtain ⟨rfl, rfl⟩ := Prod.mk.inj (Option.some.inj hs)
      · -- the exchange succeeds on a free lock
        subst htail
        refine .ofTicket hl hslot .take trivial ?_ rfl rfl rfl (by simp [Pc.holds]) rfl
        simp only [Pc.ticketPc, Pc.holds, reduceCtorEq, if_false, TicketQueue.prog,
          if_pos (hok _ rfl rfl), if_true]
      · exact .quiet hl hslot rfl rfl rfl rfl rfl rfl rfl Iff.rfl (by simp [Pc.sure])
          (absurd rfl)
  | _ => cases hs

/-- The steps of `glk_ticket_lock_unlock` are those of the ticket lock. -/
theorem glkTicketLockUnlock_stepped (hl : c.loc t = ⟨head, pc⟩)
    (hslot : Local.Slotted ⟨head, pc⟩) (hs : glkTicketLockUnlock c.sh pc = some (sh', pc')) :
    Stepped c t (sh', ⟨head, pc'⟩) := by
  cases pc with
  | ticketUnlock k =>
      obtain ⟨rfl, rfl⟩ := Prod.mk.inj (Option.some.inj hs)
      exact .ofTicket hl hslot .go trivial rfl rfl rfl rfl (by simp [Pc.holds]) rfl
  | ticketIncrement k x =>
      obtain ⟨rfl, rfl⟩ := Prod.mk.inj (Option.some.inj hs)
      cases k with
      | user | retry => exact .ofTicket hl hslot .go trivial rfl rfl rfl rfl Iff.rfl rfl
  | _ => exact nomatch hs

omit [DecidableEq Tid] in
/-- A thread uses only nodes of its own. -/
theorem mcsPc_node {n : Node Tid} (h : (pc.mcsPc t head).node = some n) : n.1 = t := by
  have hown : (ownNode t head).node = some n → n.1 = t := by
    unfold ownNode
    split
    · intro hn
      rw [← Option.some.inj hn]
    · exact nofun
  cases pc with
  | mcsCount i pred =>
      cases pred <;> simp [Pc.mcsPc] at h <;> rw [← h]
  | mcsClearNext | mcsSwap | mcsSetWaiting | mcsLink | mcsSpin | mcsTryClearNext | mcsCas
  | mcsCasTail | mcsWaitSucc => rw [← Option.some.inj h]
  | mcsFirst | mcsWalk | mcsAddTotal | mcsMp | mcsUnlock => exact hown h
  | check _ held | critical held | unlockType held | storeTotal held | storeAcquired held
  | storeType held =>
      cases held with
      | mcs => exact hown h
      | ticket | mutex => simp [Pc.mcsPc, Pc.holds] at h
  | _ => simp [Pc.mcsPc, Pc.holds] at h

omit [DecidableEq Tid] in
/-- A node of one's own is fresh. -/
theorem fresh_own (i : Fin nestedLocksMax) :
    ∀ u, u ≠ t → ((mcsView c).loc u).node ≠ some (t, i) :=
  fun _ hut hn => hut (mcsPc_node hn).symm

omit [DecidableEq Tid] in
/-- The node of the thread that holds the MCS lock. -/
theorem ownNode_eq {i : Fin nestedLocksMax} (h : ∀ j, head j = .this ↔ j = i) :
    ownNode t head = .held (t, i) := by
  unfold ownNode
  rw [firstHead_unique h]

omit [DecidableEq Tid] in
variable (cfg) in
/-- Where `glk_mcs_adap` starts, the thread owns the MCS lock. -/
theorem glkMcsAdap_views (t : Tid) (head : Heads) (na : BitVec 32) :
    (glkMcsAdap cfg na : Pc Tid).ticketPc = .idle ∧
      (glkMcsAdap cfg na : Pc Tid).mcsPc t head = ownNode t head ∧
      (glkMcsAdap cfg na : Pc Tid).mutexPc = .idle ∧
      (glkMcsAdap cfg na : Pc Tid).node = none ∧
      (glkMcsAdap cfg na : Pc Tid).holds = some .mcs ∧
      (glkMcsAdap cfg na : Pc Tid).sure = none := by
  unfold glkMcsAdap
  split <;> exact ⟨rfl, rfl, rfl, rfl, rfl, rfl⟩

omit [DecidableEq Tid] in
theorem slotted_mcsAdap {i : Fin nestedLocksMax} (h : ∀ j, head j = .this ↔ j = i)
    (na : BitVec 32) : Local.Slotted ⟨head, (glkMcsAdap cfg na : Pc Tid)⟩ := by
  unfold glkMcsAdap
  split <;> exact ⟨i, h⟩

/-- The steps of `glk_mcs_lock_lock` are those of the MCS lock. -/
theorem glkMcsLockLock_stepped {l : Local Tid} (hl : c.loc t = ⟨head, pc⟩)
    (hslot : Local.Slotted ⟨head, pc⟩)
    (hs : glkMcsLockLock cfg t c.sh head pc = some (sh', l)) : Stepped c t (sh', l) := by
  cases pc with
  | mcsGetLocal =>
      obtain ⟨⟨i, head'⟩, hget, heq⟩ := Option.map_eq_some_iff.mp hs
      obtain ⟨rfl, rfl⟩ := Prod.mk.inj heq
      exact .ofMcs hl (.lock (t, i)) (fresh_own i) rfl rfl rfl (slotted_getLocal hslot hget) rfl
  | mcsClearNext i =>
      obtain ⟨rfl, rfl⟩ := Prod.mk.inj (Option.some.inj hs)
      exact .ofMcs hl .go trivial rfl rfl rfl hslot rfl
  | mcsSwap i =>
      obtain ⟨rfl, rfl⟩ := Prod.mk.inj (Option.some.inj hs)
      refine .ofMcs hl .go trivial ?_ rfl rfl hslot rfl
      cases htail : c.sh.mcs.tail <;> simp only [Pc.mcsPc, McsQueue.prog, htail]
  | mcsCount i pred =>
      obtain ⟨rfl, rfl⟩ := Prod.mk.inj (Option.some.inj hs)
      cases pred with
      | none =>
          obtain ⟨h1, h2, h3, -, -, h6⟩ := glkMcsAdap_views cfg t head
            (c.sh.numAcquired + 1)
          exact ⟨Stepped.ticket_stay hl rfl h1,
            Stepped.mcs_stay hl rfl (h2.trans (ownNode_eq hslot)),
            Stepped.mutex_stay hl rfl h3, slotted_mcsAdap hslot _,
            fun k hk => absurd (h6.symm.trans hk) (Option.some_ne_none k).symm, absurd rfl⟩
      | some p =>
          exact .quiet hl hslot rfl rfl rfl rfl rfl rfl rfl Iff.rfl (by simp [Pc.sure])
            (absurd rfl)
  | mcsSetWaiting i pred na =>
      obtain ⟨rfl, rfl⟩ := Prod.mk.inj (Option.some.inj hs)
      exact .ofMcs hl .go trivial rfl rfl rfl hslot rfl
  | mcsLink i pred na =>
      obtain ⟨rfl, rfl⟩ := Prod.mk.inj (Option.some.inj hs)
      exact .ofMcs hl .go trivial rfl rfl rfl hslot rfl
  | mcsSpin i na =>
      obtain ⟨rfl, rfl⟩ := Prod.mk.inj (Option.some.inj hs)
      by_cases hw : c.sh.mcs.waiting (t, i)
      · rw [if_pos hw]
        exact .quiet hl hslot rfl rfl rfl rfl rfl rfl rfl Iff.rfl (by simp [Pc.sure])
          (absurd rfl)
      · rw [if_neg hw]
        obtain ⟨h1, h2, h3, -, -, h6⟩ := glkMcsAdap_views cfg t head na
        refine .ofMcs hl .go trivial ?_ h1 h3 (slotted_mcsAdap hslot _) h6
        rw [h2, ownNode_eq hslot]
        simp only [Pc.mcsPc, McsQueue.prog, if_neg hw]
  | _ => cases hs

/-- The steps of `glk_mcs_lock_trylock` are those of the MCS lock. -/
theorem glkMcsLockTrylock_stepped {l : Local Tid} (hl : c.loc t = ⟨head, pc⟩)
    (hslot : Local.Slotted ⟨head, pc⟩)
    (hs : glkMcsLockTrylock t c.sh head pc = some (sh', l)) : Stepped c t (sh', l) := by
  cases pc with
  | mcsTail =>
      obtain ⟨rfl, rfl⟩ := Prod.mk.inj (Option.some.inj hs)
      split <;>
        exact .quiet hl hslot rfl rfl rfl rfl rfl rfl rfl Iff.rfl (by simp [Pc.sure]) (absurd rfl)
  | mcsTryGetLocal =>
      obtain ⟨⟨i, head'⟩, hget, heq⟩ := Option.map_eq_some_iff.mp hs
      obtain ⟨rfl, rfl⟩ := Prod.mk.inj heq
      exact .ofMcs hl (.tryLock (t, i)) (fresh_own i) rfl rfl rfl (slotted_getLocal hslot hget) rfl
  | mcsTryClearNext i =>
      obtain ⟨rfl, rfl⟩ := Prod.mk.inj (Option.some.inj hs)
      exact .ofMcs hl .go trivial rfl rfl rfl hslot rfl
  | mcsCas i =>
      simp only [glkMcsLockTrylock] at hs
      split at hs <;> rename_i htail
      · obtain ⟨rfl, rfl⟩ := Prod.mk.inj (Option.some.inj hs)
        refine .ofMcs hl .go trivial ?_ rfl rfl ⟨i, hslot⟩ rfl
        rw [show Pc.mcsPc t head (.check true .mcs) = ownNode t head from rfl, ownNode_eq hslot]
        simp only [Pc.mcsPc, McsQueue.prog, if_pos htail]
      · obtain ⟨⟨k, head'⟩, hget, heq⟩ := Option.map_eq_some_iff.mp hs
        obtain ⟨rfl, rfl⟩ := Prod.mk.inj heq
        obtain ⟨-, hfree⟩ := slotted_ungetLocal hslot hget
        refine .ofMcs hl .go trivial ?_ rfl rfl hfree rfl
        simp only [Pc.mcsPc, McsQueue.prog, if_neg htail]
        rfl
  | _ => cases hs

/-- The steps of `glk_mcs_lock_unlock` are those of the MCS lock. -/
theorem glkMcsLockUnlock_stepped {l : Local Tid} (hl : c.loc t = ⟨head, pc⟩)
    (hslot : Local.Slotted ⟨head, pc⟩)
    (hs : glkMcsLockUnlock t c.sh head pc = some (sh', l)) : Stepped c t (sh', l) := by
  cases pc with
  | mcsUnlock k =>
      obtain ⟨⟨i, head'⟩, hget, heq⟩ := Option.map_eq_some_iff.mp hs
      obtain ⟨rfl, rfl⟩ := Prod.mk.inj heq
      obtain ⟨j, hj⟩ : ∃ i, ∀ j, head j = .this ↔ j = i := hslot
      obtain ⟨rfl, hfree⟩ := slotted_ungetLocal hj hget
      have hown : Pc.mcsPc t head (.mcsUnlock k) = .held (t, i) := ownNode_eq hj
      cases hnext : c.sh.mcs.next (t, i) with
      | none =>
          refine .ofMcs hl .go trivial ?_ rfl rfl hfree rfl
          simp only [hown, McsQueue.prog, hnext]
          rfl
      | some s =>
          refine .ofMcs hl .go trivial ?_ rfl rfl hfree rfl
          simp only [hown, McsQueue.prog, hnext]
          rfl
  | mcsCasTail k i =>
      simp only [glkMcsLockUnlock] at hs
      split at hs <;> rename_i htail <;> obtain ⟨rfl, rfl⟩ := Prod.mk.inj (Option.some.inj hs)
      · have hgo : McsQueue.prog t c.sh.mcs (Pc.mcsPc t head (.mcsCasTail k i)) .go
            = some ({ c.sh.mcs with tail := none }, .idle) := by
          simp only [Pc.mcsPc, McsQueue.prog, if_pos htail]
        cases k <;> exact .ofMcs hl .go trivial hgo rfl rfl hslot rfl
      · refine .ofMcs hl .go trivial ?_ rfl rfl hslot rfl
        simp only [Pc.mcsPc, McsQueue.prog, if_neg htail]
  | mcsWaitSucc k i =>
      obtain ⟨rfl, rfl⟩ := Prod.mk.inj (Option.some.inj hs)
      cases hnext : c.sh.mcs.next (t, i) <;>
        refine .ofMcs hl .go trivial ?_ rfl rfl hslot rfl <;>
        simp only [Pc.mcsPc, McsQueue.prog, hnext]
  | mcsClear k s =>
      obtain ⟨rfl, rfl⟩ := Prod.mk.inj (Option.some.inj hs)
      cases k <;> exact .ofMcs hl .go trivial rfl rfl rfl hslot rfl
  | _ => cases hs

/-- None of the three locks sees the adaptation of the ticket lock. -/
theorem ticketAdap_stepped (hl : c.loc t = ⟨head, pc⟩) (hslot : Local.Slotted ⟨head, pc⟩)
    (hs : ticketAdap cfg c.sh pc = some (sh', pc')) : Stepped c t (sh', ⟨head, pc'⟩) := by
  cases pc with
  | ticketMp | ticketTotal =>
      obtain ⟨rfl, rfl⟩ := Prod.mk.inj (Option.some.inj hs)
      split <;>
        exact .quiet hl hslot rfl rfl rfl rfl rfl rfl rfl Iff.rfl (by simp [Pc.sure]) (absurd rfl)
  | _ => exact nomatch hs

/-- None of the three locks sees the adaptation of the MCS lock. -/
theorem mcsAdap_stepped (hl : c.loc t = ⟨head, pc⟩) (hslot : Local.Slotted ⟨head, pc⟩)
    (hs : mcsAdap cfg t c.sh head pc = some (sh', pc')) : Stepped c t (sh', ⟨head, pc'⟩) := by
  cases pc with
  | mcsFirst na =>
      obtain ⟨i, -, heq⟩ := Option.map_eq_some_iff.mp hs
      obtain ⟨rfl, rfl⟩ := Prod.mk.inj heq
      cases c.sh.mcs.next (t, i) <;>
        exact .quiet hl hslot rfl rfl rfl rfl rfl rfl rfl Iff.rfl (by simp [walkFrom, Pc.sure])
          (absurd rfl)
  | mcsWalk na curr res =>
      obtain ⟨rfl, rfl⟩ := Prod.mk.inj (Option.some.inj hs)
      cases c.sh.mcs.next curr <;>
        exact .quiet hl hslot rfl rfl rfl rfl rfl rfl rfl Iff.rfl (by simp [walkFrom, Pc.sure])
          (absurd rfl)
  | mcsAddTotal na res =>
      obtain ⟨rfl, rfl⟩ := Prod.mk.inj (Option.some.inj hs)
      split <;>
        exact .quiet hl hslot rfl rfl rfl rfl rfl rfl rfl Iff.rfl (by simp [Pc.sure]) (absurd rfl)
  | mcsMp total =>
      obtain ⟨rfl, rfl⟩ := Prod.mk.inj (Option.some.inj hs)
      split
      · exact .quiet hl hslot rfl rfl rfl rfl rfl rfl rfl Iff.rfl (by simp [Pc.sure]) (absurd rfl)
      · split <;>
          exact .quiet hl hslot rfl rfl rfl rfl rfl rfl rfl Iff.rfl (by simp [Pc.sure])
            (absurd rfl)
  | _ => exact nomatch hs

/-- None of the three locks sees the adaptation of the mutex. -/
theorem mutexAdap_stepped (hl : c.loc t = ⟨head, pc⟩) (hslot : Local.Slotted ⟨head, pc⟩)
    (hs : mutexAdap c.sh pc = some (sh', pc')) : Stepped c t (sh', ⟨head, pc'⟩) := by
  cases pc with
  | mutexMp =>
      obtain ⟨rfl, rfl⟩ := Prod.mk.inj (Option.some.inj hs)
      split <;>
        exact .quiet hl hslot rfl rfl rfl rfl rfl rfl rfl Iff.rfl (by simp [Pc.sure]) (absurd rfl)
  | mutexType =>
      obtain ⟨rfl, rfl⟩ := Prod.mk.inj (Option.some.inj hs)
      split <;> rename_i htype
      · exact .quiet hl hslot rfl rfl rfl rfl rfl rfl rfl Iff.rfl
          (fun k hk => htype.trans (Option.some.inj hk)) (absurd rfl)
      · exact .quiet hl hslot rfl rfl rfl rfl rfl rfl rfl Iff.rfl (by simp [Pc.sure]) (absurd rfl)
  | _ => exact nomatch hs

/-- The stores of an adaptation; only the last one changes `lock_type`. -/
theorem adapStores_stepped (hl : c.loc t = ⟨head, pc⟩) (hslot : Local.Slotted ⟨head, pc⟩)
    (hok : ∀ held ty, pc = .storeType held ty → held ≠ .mutex → c.sh.lockType = held)
    (hsure : ∀ k, pc.sure = some k → c.sh.lockType = k)
    (hs : adapStores c.sh pc = some (sh', pc')) : Stepped c t (sh', ⟨head, pc'⟩) := by
  cases pc with
  | storeTotal held total acquired type =>
      obtain ⟨rfl, rfl⟩ := Prod.mk.inj (Option.some.inj hs)
      cases held <;>
        exact .quiet hl hslot rfl rfl rfl rfl rfl rfl rfl Iff.rfl hsure (absurd rfl)
  | storeAcquired held acquired type =>
      obtain ⟨rfl, rfl⟩ := Prod.mk.inj (Option.some.inj hs)
      cases type with
      | none =>
          exact .quiet hl hslot rfl rfl rfl rfl rfl rfl rfl Iff.rfl (by simp [Pc.sure])
            (absurd rfl)
      | some ty =>
          cases held <;>
            exact .quiet hl hslot rfl rfl rfl rfl rfl rfl rfl Iff.rfl hsure (absurd rfl)
  | storeType held ty =>
      obtain ⟨rfl, rfl⟩ := Prod.mk.inj (Option.some.inj hs)
      have htype : c.sh.lockType = held := by
        by_cases hm : held = .mutex
        · subst hm
          exact hsure _ rfl
        · exact hok held ty rfl hm
      exact .quiet hl hslot rfl rfl rfl rfl rfl rfl rfl Iff.rfl (by simp [Pc.sure])
        (fun _ => congrArg some htype.symm)
  | _ => exact nomatch hs

/-- **Inversion.** -/
theorem stepped_of_prog {a : Act Tid} {r : Shared Tid × Local Tid} (hok : steady c t a)
    (hslot : (c.loc t).Slotted) (hsure : ∀ k, (c.loc t).pc.sure = some k → c.sh.lockType = k)
    (hs : prog cfg t c.sh (c.loc t) a = some r) : Stepped c t r := by
  generalize hl : c.loc t = l at hslot hsure hs
  obtain ⟨head, pc⟩ := l
  cases a with
  | background on =>
      obtain rfl : ({ c.sh with multiprogramming := on }, ⟨head, pc⟩) = r := by
        simpa [prog] using hs
      exact .quiet hl hslot rfl rfl rfl rfl rfl rfl rfl Iff.rfl hsure (absurd rfl)
  | lock | trylock =>
      cases pc <;> simp only [prog, call, Option.map_some, Option.map_none, Option.some.injEq,
        reduceCtorEq] at hs
      subst hs
      exact .quiet hl hslot rfl rfl rfl rfl rfl rfl rfl Iff.rfl (by simp [Pc.sure]) (absurd rfl)
  | unlock =>
      cases pc <;> simp only [prog, call, Option.map_some, Option.map_none, Option.some.injEq,
        reduceCtorEq] at hs
      subst hs
      exact .quiet hl hslot rfl rfl rfl rfl rfl rfl rfl Iff.rfl hsure (absurd rfl)
  | mutex a =>
      cases pc <;> simp only [prog, glkMutex, Option.map_map, Option.map_none,
        reduceCtorEq, Option.map_eq_some_iff] at hs
      rename_i call pc
      obtain ⟨⟨m, pc'⟩, hm, rfl⟩ := hs
      obtain ⟨hmutex, hticket, hmcs, hnode, hholds, hsure'⟩ :=
        MutexCall.next_views t head call pc'
      refine .ofMutex hl hslot a ?_ hticket hmcs hnode (iff_of_false hholds ?_) hsure'
      · rw [hmutex]
        exact hm
      · simp [Pc.holds]
  | go =>
      simp only [steady, hl] at hok
      obtain ⟨sh', head', pc'⟩ := r
      dsimp only [prog, go] at hs
      -- the functions that leave the table alone
      have hmap : ∀ o : Option (Shared Tid × Pc Tid),
          o.map (fun r => (r.1, ({ head := head, pc := r.2 } : Local Tid)))
            = some (sh', ⟨head', pc'⟩) → o = some (sh', pc') ∧ head' = head := by
        intro o ho
        obtain ⟨⟨sh, pc⟩, rfl, heq⟩ := Option.map_eq_some_iff.mp ho
        cases heq
        exact ⟨rfl, rfl⟩
      cases pc with
      | idle | critical | mutex => exact nomatch hs
      | readType | check | unlockType =>
          obtain ⟨h, rfl⟩ := hmap (glkLock c.sh _) hs
          exact glkLock_stepped hl hslot hsure h
      | ticketAdd =>
          obtain ⟨h, rfl⟩ := hmap (glkTicketLockLock cfg c.sh _) hs
          exact glkTicketLockLock_stepped hl hslot (fun _ => of_decide_eq_true hok) h
      | ticketDistance | ticketCount | ticketSpin =>
          obtain ⟨h, rfl⟩ := hmap (glkTicketLockLock cfg c.sh _) hs
          exact glkTicketLockLock_stepped hl hslot nofun h
      | ticketTail | ticketHead =>
          obtain ⟨h, rfl⟩ := hmap (glkTicketLockTrylock c.sh _) hs
          exact glkTicketLockTrylock_stepped hl hslot nofun h
      | ticketCas last =>
          obtain ⟨h, rfl⟩ := hmap (glkTicketLockTrylock c.sh _) hs
          refine glkTicketLockTrylock_stepped hl hslot (fun l hlast => ?_) h
          obtain rfl : last = l := Pc.ticketCas.inj hlast
          exact of_decide_eq_true hok
      | ticketUnlock | ticketIncrement =>
          obtain ⟨h, rfl⟩ := hmap (glkTicketLockUnlock c.sh _) hs
          exact glkTicketLockUnlock_stepped hl hslot h
      | mcsGetLocal | mcsClearNext | mcsSwap | mcsCount | mcsSetWaiting | mcsLink | mcsSpin =>
          exact glkMcsLockLock_stepped hl hslot hs
      | mcsTail | mcsTryGetLocal | mcsTryClearNext | mcsCas =>
          exact glkMcsLockTrylock_stepped hl hslot hs
      | mcsUnlock | mcsCasTail | mcsWaitSucc | mcsClear =>
          exact glkMcsLockUnlock_stepped hl hslot hs
      | ticketMp | ticketTotal =>
          obtain ⟨h, rfl⟩ := hmap (ticketAdap cfg c.sh _) hs
          exact ticketAdap_stepped hl hslot h
      | mcsFirst | mcsWalk | mcsAddTotal | mcsMp =>
          obtain ⟨h, rfl⟩ := hmap (mcsAdap cfg t c.sh head _) hs
          exact mcsAdap_stepped hl hslot h
      | mutexMp | mutexType =>
          obtain ⟨h, rfl⟩ := hmap (mutexAdap c.sh _) hs
          exact mutexAdap_stepped hl hslot h
      | storeTotal | storeAcquired =>
          obtain ⟨h, rfl⟩ := hmap (adapStores c.sh _) hs
          exact adapStores_stepped hl hslot nofun hsure h
      | storeType held ty =>
          obtain ⟨h, rfl⟩ := hmap (adapStores c.sh _) hs
          refine adapStores_stepped hl hslot (fun held' ty' heq => ?_) hsure h
          obtain ⟨rfl, -⟩ := Pc.storeType.inj heq
          exact of_decide_eq_true hok

end Inversion

/-! ## Mutual exclusion -/

/-- The thread owns one of the three locks: it has acquired it and not released it. -/
def Owns (c : Conf Tid (Shared Tid) (Local Tid)) : LockType → Tid → Prop
  | .ticket, t => ((ticketView c).loc t).phase = .holding
  | .mcs, t => ((mcsView c).loc t).phase = .holding
  | .mutex, t => Mutexee.Holds (mutexView c) t

/-- The thread acquired the lock under the type `h`, and its `glk_unlock` has not read
    `lock_type` yet. -/
def Inside (c : Conf Tid (Shared Tid) (Local Tid)) (h : LockType) (t : Tid) : Prop :=
  (c.loc t).pc = .critical h ∨ (c.loc t).pc = .unlockType h

/-- The invariant: every lock is in a state that its own protocol reaches, and whoever
    relies on `lock_type` is right. -/
structure Inv (c : Conf Tid (Shared Tid) (Local Tid)) : Prop where
  ticket : Reach TicketQueue.prog TicketQueue.roomy TicketQueue.Init (ticketView c)
  mcs : Reach McsQueue.prog McsQueue.fresh McsQueue.Init (mcsView c)
  mutex : Reach (Mutexee.prog Mutexee.glkMutex) always Mutexee.Init (mutexView c)
  slotted : ∀ t, (c.loc t).Slotted
  sure : ∀ t k, (c.loc t).pc.sure = some k → c.sh.lockType = k

omit [DecidableEq Tid] in
/-- A thread that has checked the type holds the lock of that type. -/
theorem Pc.holds_of_sure {pc : Pc Tid} {k : LockType} (h : pc.sure = some k) :
    pc.holds = some k := by
  cases pc with
  | storeTotal held | storeAcquired held | storeType held =>
      cases held with
      | mutex => exact h
      | ticket | mcs => simp [Pc.sure] at h
  | critical | unlockType => exact h
  | _ => simp [Pc.sure] at h

omit [DecidableEq Tid] in
theorem Pc.ticketPc_of_holds {pc : Pc Tid} (h : pc.holds = some .ticket) :
    pc.ticketPc = .held := by
  cases pc <;> simp_all [Pc.holds, Pc.ticketPc]

omit [DecidableEq Tid] in
theorem Pc.mcsPc_of_holds {pc : Pc Tid} (t : Tid) (head : Heads) (h : pc.holds = some .mcs) :
    pc.mcsPc t head = ownNode t head := by
  cases pc <;> simp_all [Pc.holds, Pc.mcsPc]

omit [DecidableEq Tid] in
theorem Pc.mutexPc_of_holds {pc : Pc Tid} (h : pc.holds = some .mutex) :
    pc.mutexPc = .critical := by
  cases pc <;> simp_all [Pc.holds, Pc.mutexPc]

omit [DecidableEq Tid] in
theorem Pc.node_of_holds {pc : Pc Tid} {k : LockType} (h : pc.holds = some k) :
    pc.node = none := by
  cases pc <;> simp_all [Pc.holds, Pc.node]

namespace Inv

variable {c : Conf Tid (Shared Tid) (Local Tid)}

/-- Each of the three locks has at most one owner. -/
theorem owner_unique (h : Inv c) {k : LockType} {t u : Tid} (ht : Owns c k t)
    (hu : Owns c k u) : t = u := by
  cases k with
  | ticket => exact (TicketQueue.sim (by decide)).holding_unique h.ticket ht hu
  | mcs => exact McsQueue.sim.holding_unique h.mcs ht hu
  | mutex => exact (Mutexee.inv_of_reach h.mutex).unique t u ht hu

/-- Who holds a lock of the GLK owns it in its own view. -/
theorem owns_of_holds (h : Inv c) {k : LockType} {t : Tid} (ht : (c.loc t).pc.holds = some k) :
    Owns c k t := by
  cases k with
  | ticket =>
      show (c.loc t).pc.ticketPc.phase = .holding
      rw [Pc.ticketPc_of_holds ht]
      rfl
  | mcs =>
      have hslot := h.slotted t
      simp only [Local.Slotted, Pc.node_of_holds ht, ht, if_true] at hslot
      obtain ⟨i, hi⟩ := hslot
      show ((c.loc t).pc.mcsPc t (c.loc t).head).phase = .holding
      rw [Pc.mcsPc_of_holds t _ ht, ownNode_eq hi]
      rfl
  | mutex =>
      show (c.loc t).pc.mutexPc.role = .holder
      rw [Pc.mutexPc_of_holds ht]
      rfl

/-- **Step lemma.** -/
theorem step {cfg : Config} (h : Inv c) {t : Tid} {a : Act Tid} {r : Shared Tid × Local Tid}
    (hok : steady c t a) (hs : prog cfg t c.sh (c.loc t) a = some r) : Inv (c.put t r) := by
  have hstep := stepped_of_prog hok (h.slotted t) (h.sure t) hs
  refine ⟨h.ticket.view_put hstep.ticket, h.mcs.view_put hstep.mcs,
    h.mutex.view_put hstep.mutex, ?_, ?_⟩
  · intro u
    rw [put_loc]
    split
    · exact hstep.slotted
    · exact h.slotted u
  · intro u k hk
    by_cases hut : u = t
    · rw [hut, put_loc_self] at hk
      exact hstep.sure k hk
    · rw [put_loc_ne c _ hut] at hk
      have hold := h.sure u k hk
      rw [put_sh]
      by_contra hne
      -- the thread that changes `lock_type` owns the lock it named, and so does `u`
      have hchange : r.1.lockType ≠ c.sh.lockType := fun heq => hne (heq.trans hold)
      have ht := h.owns_of_holds (hstep.lockType hchange)
      have hu := h.owns_of_holds (Pc.holds_of_sure hk)
      rw [← hold] at hu
      exact hut (h.owner_unique hu ht)

end Inv

theorem Init.inv {c : Conf Tid (Shared Tid) (Local Tid)} (h : Init c) : Inv c where
  ticket := by
    refine .start ⟨?_, fun t => ?_⟩
    · show c.sh.ticket.head = c.sh.ticket.tail + 1
      rw [h.head, h.tail]
      rfl
    · show (c.loc t).pc.ticketPc = .idle
      rw [h.idle t]
      rfl
  mcs := by
    refine .start ⟨h.next, fun t => ?_⟩
    show (c.loc t).pc.mcsPc t (c.loc t).head = .idle
    rw [h.idle t]
    rfl
  mutex := by
    have hm : (mutexView c).sh = ⟨⟨0, 0⟩, [], false, 0, [], 0⟩ := h.mutex
    refine .start ?_
    constructor
    case idle =>
      intro t
      show (c.loc t).pc.mutexPc = .idle
      rw [h.idle t]
      rfl
    all_goals rw [hm]
  slotted := by
    intro t
    simp only [Local.Slotted, h.idle t]
    exact h.heads t
  sure := by
    intro t k hk
    simp [h.idle t, Pc.sure] at hk

/-- **Mutual exclusion of the adaptive lock**, for every adaptation period and every
    behaviour of the background thread, in runs all of whose steps are `steady`.  At most
    one thread is inside; while it is, `lock_type` names the type that it acquired under,
    whose lock it really owns; and each of the three locks has at most one owner. -/
theorem glk_safe {cfg : Config} {c : Conf Tid (Shared Tid) (Local Tid)}
    (hc : Reach (prog cfg) steady Init c) :
    (∀ t u h k, Inside c h t → Inside c k u → t = u) ∧
    (∀ t h, Inside c h t → c.sh.lockType = h ∧ Owns c h t) ∧
    ∀ k t u, Owns c k t → Owns c k u → t = u := by
  have h : Inv c := hc.invariant (fun _ h0 => h0.inv) fun _ _ _ _ h hok hs => h.step hok hs
  have hinside : ∀ t k, Inside c k t → c.sh.lockType = k ∧ Owns c k t := by
    intro t k ht
    have hsure : (c.loc t).pc.sure = some k := by
      rcases ht with ht | ht <;> rw [ht] <;> rfl
    exact ⟨h.sure t k hsure, h.owns_of_holds (Pc.holds_of_sure hsure)⟩
  refine ⟨?_, hinside, fun k t u => h.owner_unique⟩
  intro t u k k' ht hu
  obtain ⟨htype, hown⟩ := hinside t k ht
  obtain ⟨htype', hown'⟩ := hinside u k' hu
  obtain rfl : k = k' := htype.symm.trans htype'
  exact h.owner_unique hown hown'

/-- Four threads and a lock that starts as a ticket lock. -/
def start : Conf (Fin 4) (Shared (Fin 4)) (Local (Fin 4)) :=
  ⟨⟨.ticket, ⟨1, 0⟩, ⟨none, fun _ => none, fun _ => false⟩, ⟨⟨0, 0⟩, [], false, 0, [], 0⟩, 0, 0,
    false⟩, fun _ => ⟨fun _ => .null, .idle⟩⟩

theorem start_init : Init start := by
  constructor <;> simp [start]

/-- `n` steps of thread `t`. -/
def steps (t : Fin 4) (n : Nat) : List (Fin 4 × Act (Fin 4)) := List.replicate n (t, .go)

/-- Thread 0 holds ticket 1, and threads 1, 2 and 3 wait behind it.  When thread 1 is
    served, multiprogramming makes it change the lock to a mutex, which it acquires. -/
def toMutex : List (Fin 4 × Act (Fin 4)) :=
  [(0, .lock)] ++ steps 0 4 ++ [(1, .lock)] ++ steps 1 4 ++ [(2, .lock)] ++ steps 2 3
    ++ [(3, .lock)] ++ steps 3 4 ++ [(0, .unlock)] ++ steps 0 3 ++ [(0, .background true)]
    ++ steps 1 7 ++ [(1, .mutex .go)] ++ steps 1 2

theorem glk_safe_toMutex : ∃ c : Conf (Fin 4) (Shared (Fin 4)) (Local (Fin 4)),
    exec (prog ⟨1, 1⟩) steady start toMutex = some c ∧ Inside c .mutex 1 ∧
    (∀ t u h k, Inside c h t → Inside c k u → t = u) ∧
    (∀ t h, Inside c h t → c.sh.lockType = h ∧ Owns c h t) ∧
    ∀ k t u, Owns c k t → Owns c k u → t = u := by
  obtain ⟨c, hc, hpc⟩ : ∃ c : Conf (Fin 4) (Shared (Fin 4)) (Local (Fin 4)),
      exec (prog ⟨1, 1⟩) steady start toMutex = some c ∧ Inside c .mutex 1 :=
    ⟨_, rfl, Or.inl rfl⟩
  exact ⟨c, hc, hpc, glk_safe (reach_of_exec start_init hc)⟩

/-- With thread 1 in its critical section under the mutex, multiprogramming ends; thread 2
    passes its stale ticket on to thread 3, which decides that the lock is contended and
    makes it an MCS lock. -/
def thenMcs : List (Fin 4 × Act (Fin 4)) :=
  toMutex ++ [(0, .background false)] ++ steps 2 4 ++ steps 3 15

/-- **The adaptive lock does not exclude**: thread 3 acquires the MCS lock while thread 1,
    which acquired the mutex, is in its critical section, and `lock_type` no longer names
    the lock that thread 1 has to release. -/
theorem glk_not_exclusive : ¬ ∀ (cfg : Config) (c : Conf (Fin 4) (Shared (Fin 4)) (Local (Fin 4))),
    Reach (prog cfg) always Init c →
    (∀ t u h k, Inside c h t → Inside c k u → t = u) ∧
    ∀ t h, Inside c h t → c.sh.lockType = h := by
  intro hclaim
  obtain ⟨c, hc, h1, h3⟩ : ∃ c : Conf (Fin 4) (Shared (Fin 4)) (Local (Fin 4)),
      exec (prog ⟨1, 1⟩) always start thenMcs = some c ∧ Inside c .mutex 1 ∧ Inside c .mcs 3 :=
    ⟨_, rfl, Or.inl rfl, Or.inl rfl⟩
  have := (hclaim ⟨1, 1⟩ c (reach_of_exec start_init hc)).1 1 3 _ _ h1 h3
  exact absurd this (by decide)

end Glk
