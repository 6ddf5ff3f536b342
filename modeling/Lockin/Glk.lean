import Lockin.TicketQueue
import Lockin.McsQueue
import Lockin.Mutexee

/-! # The adaptive lock

    `glk.c`: one `glk_t`, used by any number of threads through `glk_lock`,
    `glk_trylock` and `glk_unlock`, one load, store or read-modify-write per step.

    A `glk_t` is three locks and a word, `lock_type`, that says which of them is in
    use.  A thread acquires the lock that `lock_type` names, perhaps adapts `lock_type`
    to the contention it sees, and reads `lock_type` once more: when it still names the
    lock acquired, the thread is in its critical section, otherwise it releases that
    lock and starts again.

    The background thread writes `multiprogramming` at any time (`Act.background`). -/

namespace Glk

open Interleaving

/-- `GLK_SAMPLE_LOCK_EVERY` and `GLK_ADAPT_LOCK_EVERY`. -/
structure Config where
  sampleLockEvery : BitVec 32
  adaptLockEvery : BitVec 32

/-- `GLK_MUST_UPDATE_QUEUE_LENGTH`. -/
def Config.mustUpdateQueueLength (cfg : Config) (na : BitVec 32) : Bool :=
  na &&& cfg.sampleLockEvery = 0

/-- `GLK_MUST_TRY_ADAPT`. -/
def Config.mustTryAdapt (cfg : Config) (na : BitVec 32) : Bool :=
  na &&& cfg.adaptLockEvery = 0

/-- `GLK_SAMPLE_NUM`. -/
def Config.sampleNum (cfg : Config) : Nat :=
  (cfg.adaptLockEvery.toNat + 1) / (cfg.sampleLockEvery.toNat + 1)

/-- `GLK_NUM_ACQ_INIT`. -/
def Config.numAcqInit (cfg : Config) : BitVec 32 :=
  BitVec.ofNat 32 ((cfg.adaptLockEvery.toNat + 1) >>> 3)

/-- `queue_total / GLK_SAMPLE_NUM` is at least `GLK_CONTENTION_RATIO_HIGH`; a division by
    zero gives infinity, and NaN for `0 / 0`. -/
def Config.ratioHigh (cfg : Config) (total : BitVec 32) : Bool :=
  if cfg.sampleNum = 0 then total ≠ 0 else 3 * cfg.sampleNum ≤ total.toNat

/-- `queue_total`, as an `int`, divided by `GLK_SAMPLE_NUM` is below
    `GLK_CONTENTION_RATIO_LOW`. -/
def Config.ratioLow (cfg : Config) (total : BitVec 32) : Bool :=
  if cfg.sampleNum = 0 then total.toInt < 0 else total.toInt < 2 * cfg.sampleNum

/-- The values of `lock_type`. -/
inductive LockType where
  | ticket
  | mcs
  | mutex
  deriving DecidableEq

/-- An entry of the table `head` of `__glk_mcs_local`: `NULL`, the lock, or another one. -/
inductive Head where
  | null
  | this
  | other
  deriving DecidableEq

/-- `GLK_MCS_NESTED_LOCKS_MAX`. -/
abbrev nestedLocksMax : Nat := 16

/-- The table `head` of a thread. -/
abbrev Heads := Fin nestedLocksMax → Head

/-- The nodes: every thread has an array `lock` of its own. -/
abbrev Node (Tid : Type) := Tid × Fin nestedLocksMax

/-- A `glk_t` with the nodes of all threads, and `multiprogramming`. -/
structure Shared (Tid : Type) where
  lockType : LockType
  ticket : TicketQueue.Shared 32
  mcs : McsQueue.Shared (Node Tid)
  mutex : Mutexee.Shared Tid
  numAcquired : BitVec 32
  queueTotal : BitVec 32
  multiprogramming : Bool

/-- Where the release of one of the three locks returns to: the user, or the next round
    of `glk_lock` or (`try_`) of `glk_trylock`. -/
inductive Ret where
  | user
  | retry (try_ : Bool)
  deriving DecidableEq

/-- Which function of the futex mutex is running. -/
inductive MutexCall where
  | lock
  | trylock
  | unlock (k : Ret)
  deriving DecidableEq

/-- Where a thread is.  `held` is the lock that it has acquired, which is history in
    `critical` and `unlockType`. -/
inductive Pc (Tid : Type) where
  | idle
  | readType (try_ : Bool)
  | check (try_ : Bool) (held : LockType)
  | critical (held : LockType)
  | unlockType (held : LockType)
  | ticketAdd
  | ticketDistance (ticket : BitVec 32)
  | ticketCount (ticket distance : BitVec 32)
  | ticketSpin (ticket : BitVec 32)
  | ticketTail
  | ticketHead (last : BitVec 32)
  | ticketCas (last : BitVec 32)
  | ticketUnlock (k : Ret)
  | ticketIncrement (k : Ret) (head : BitVec 32)
  | mcsGetLocal
  | mcsClearNext (i : Fin nestedLocksMax)
  | mcsSwap (i : Fin nestedLocksMax)
  | mcsCount (i : Fin nestedLocksMax) (pred : Option (Node Tid))
  | mcsSetWaiting (i : Fin nestedLocksMax) (pred : Node Tid) (na : BitVec 32)
  | mcsLink (i : Fin nestedLocksMax) (pred : Node Tid) (na : BitVec 32)
  | mcsSpin (i : Fin nestedLocksMax) (na : BitVec 32)
  | mcsTail
  | mcsTryGetLocal
  | mcsTryClearNext (i : Fin nestedLocksMax)
  | mcsCas (i : Fin nestedLocksMax)
  | mcsUnlock (k : Ret)
  | mcsCasTail (k : Ret) (i : Fin nestedLocksMax)
  | mcsWaitSucc (k : Ret) (i : Fin nestedLocksMax)
  | mcsClear (k : Ret) (succ : Node Tid)
  | mutex (call : MutexCall) (pc : Mutexee.Pc)
  | ticketMp
  | ticketTotal
  | mcsFirst (na : BitVec 32)
  | mcsWalk (na : BitVec 32) (curr : Node Tid) (res : BitVec 32)
  | mcsAddTotal (na res : BitVec 32)
  | mcsMp (total : BitVec 32)
  | mutexMp
  | mutexType
  | storeTotal (held : LockType) (total acquired : BitVec 32) (type : Option LockType)
  | storeAcquired (held : LockType) (acquired : BitVec 32) (type : Option LockType)
  | storeType (held : LockType) (type : LockType)
  deriving DecidableEq

/-- The memory of a thread. -/
structure Local (Tid : Type) where
  head : Heads
  pc : Pc Tid

/-- The calls a thread may make, the choices in the futex mutex, and the writes of the
    background thread. -/
inductive Act (Tid : Type) where
  | lock
  | trylock
  | unlock
  | go
  | mutex (a : Mutexee.Act Tid)
  | background (multiprogramming : Bool)

variable {Tid : Type}

/-- The first entry with the value `e`. -/
def firstHead (head : Heads) (e : Head) : Option (Fin nestedLocksMax) :=
  (List.finRange nestedLocksMax).find? fun i => head i = e

/-- `glk_mcs_get_local_lock`.  With all entries in use the code goes on with the entry behind
    the table, which is not one of the entries here (`GlkTry.Step.overflow`). -/
def glkMcsGetLocalLock (head : Heads) : Option (Fin nestedLocksMax × Heads) :=
  (firstHead head .null).map fun i => (i, Function.update head i .this)

/-- `glk_mcs_get_local_unlock`. -/
def glkMcsGetLocalUnlock (head : Heads) : Option (Fin nestedLocksMax × Heads) :=
  (firstHead head .this).map fun i => (i, Function.update head i .null)

/-- `glk_mcs_get_local_nochange`. -/
def glkMcsGetLocalNochange (head : Heads) : Option (Fin nestedLocksMax) :=
  firstHead head .this

/-- What follows the release of one of the three locks. -/
def Ret.next : Ret → Pc Tid
  | .user => .idle
  | .retry try_ => .readType try_

/-- `unlock_lock`. -/
def unlockLock (k : Ret) : LockType → Pc Tid
  | .ticket => .ticketUnlock k
  | .mcs => .mcsUnlock k
  | .mutex => .mutex (.unlock k) (.readWord .user)

/-! ## The adaptation -/

/-- `glk_ticket_adap` up to its first load. -/
def glkTicketAdap (cfg : Config) (ticket : BitVec 32) : Pc Tid :=
  if cfg.mustTryAdapt ticket then .ticketMp else .check false .ticket

/-- `glk_mcs_adap` up to its first load. -/
def glkMcsAdap (cfg : Config) (na : BitVec 32) : Pc Tid :=
  if cfg.mustUpdateQueueLength na then .mcsFirst na else .check false .mcs

/-- The loop of `gls_adaptinve_mcs_lock_queue_length`. -/
def walkFrom (na : BitVec 32) (curr : Option (Node Tid)) (res : BitVec 32) : Pc Tid :=
  match curr with
  | none => .mcsAddTotal na res
  | some n => .mcsWalk na n res

/-- `glk_ticket_adap`, with `GLK_MP_LOW_CONTENTION_TICKET == 0`. -/
def ticketAdap (cfg : Config) (sh : Shared Tid) : Pc Tid → Option (Shared Tid × Pc Tid)
  | .ticketMp =>
      some (sh, if sh.multiprogramming then .storeType .ticket .mutex else .ticketTotal)
  | .ticketTotal =>
      some (sh,
        if cfg.ratioHigh sh.queueTotal then
          .storeTotal .ticket (sh.queueTotal >>> 3) cfg.numAcqInit (some .mcs)
        else .storeTotal .ticket 0 cfg.numAcqInit none)
  | _ => none

/-- `glk_mcs_adap`. -/
def mcsAdap [DecidableEq Tid] (cfg : Config) (t : Tid) (sh : Shared Tid) (head : Heads) :
    Pc Tid → Option (Shared Tid × Pc Tid)
  | .mcsFirst na =>
      (glkMcsGetLocalNochange head).map fun i => (sh, walkFrom na (sh.mcs.next (t, i)) 1)
  | .mcsWalk na curr res => some (sh, walkFrom na (sh.mcs.next curr) (res + 1))
  | .mcsAddTotal na res =>
      some ({ sh with queueTotal := sh.queueTotal + res },
        if cfg.mustTryAdapt na then .mcsMp (sh.queueTotal + res) else .check false .mcs)
  | .mcsMp total =>
      some (sh,
        if sh.multiprogramming then .storeType .mcs .mutex
        else if cfg.ratioLow total then .storeTotal .mcs 0 cfg.numAcqInit (some .ticket)
        else .storeTotal .mcs (total.sshiftRight 3) cfg.numAcqInit none)
  | _ => none

/-- `glk_mutex_adap`. -/
def mutexAdap (sh : Shared Tid) : Pc Tid → Option (Shared Tid × Pc Tid)
  | .mutexMp => some (sh, if sh.multiprogramming then .check false .mutex else .mutexType)
  | .mutexType =>
      some (sh,
        if sh.lockType = .mutex then .storeTotal .mutex 0 0 (some .ticket)
        else .check false .mutex)
  | _ => none

/-- The stores to `queue_total`, `num_acquired` and `lock_type` at the end of each. -/
def adapStores (sh : Shared Tid) : Pc Tid → Option (Shared Tid × Pc Tid)
  | .storeTotal held total acquired type =>
      some ({ sh with queueTotal := total }, .storeAcquired held acquired type)
  | .storeAcquired held acquired type =>
      some ({ sh with numAcquired := acquired },
        match type with
        | none => .check false held
        | some ty => .storeType held ty)
  | .storeType held ty => some ({ sh with lockType := ty }, .check false held)
  | _ => none

/-! ## The three locks -/

/-- `glk_ticket_lock_lock`. -/
def glkTicketLockLock (cfg : Config) (sh : Shared Tid) : Pc Tid → Option (Shared Tid × Pc Tid)
  | .ticketAdd =>
      some ({ sh with ticket.tail := sh.ticket.tail + 1 }, .ticketDistance (sh.ticket.tail + 1))
  | .ticketDistance ticket =>
      some (sh,
        if ticket - sh.ticket.head = 0 then glkTicketAdap cfg ticket
        else if cfg.mustUpdateQueueLength ticket then
          .ticketCount ticket (ticket - sh.ticket.head)
        else .ticketSpin ticket)
  | .ticketCount ticket distance =>
      some ({ sh with queueTotal := sh.queueTotal + distance }, .ticketSpin ticket)
  | .ticketSpin ticket =>
      some (sh,
        if ticket - sh.ticket.head = 0 then glkTicketAdap cfg ticket else .ticketSpin ticket)
  | _ => none

/-- `glk_ticket_lock_trylock`. -/
def glkTicketLockTrylock (sh : Shared Tid) : Pc Tid → Option (Shared Tid × Pc Tid)
  | .ticketTail => some (sh, .ticketHead sh.ticket.tail)
  | .ticketHead last =>
      some (sh, if sh.ticket.head - last = 1 then .ticketCas last else .idle)
  | .ticketCas last =>
      if sh.ticket.tail = last then
        some ({ sh with ticket.tail := last + 1 }, .check true .ticket)
      else some (sh, .idle)
  | _ => none

/-- `glk_ticket_lock_unlock`: `lock->head++` is a load and a store. -/
def glkTicketLockUnlock (sh : Shared Tid) : Pc Tid → Option (Shared Tid × Pc Tid)
  | .ticketUnlock k => some (sh, .ticketIncrement k sh.ticket.head)
  | .ticketIncrement k head => some ({ sh with ticket.head := head + 1 }, k.next)
  | _ => none

section

variable [DecidableEq Tid]

/-- `glk_mcs_lock_lock`. -/
def glkMcsLockLock (cfg : Config) (t : Tid) (sh : Shared Tid) (head : Heads) :
    Pc Tid → Option (Shared Tid × Local Tid)
  | .mcsGetLocal => (glkMcsGetLocalLock head).map fun (i, head') => (sh, ⟨head', .mcsClearNext i⟩)
  | .mcsClearNext i =>
      some ({ sh with mcs.next := Function.update sh.mcs.next (t, i) none }, ⟨head, .mcsSwap i⟩)
  | .mcsSwap i =>
      some ({ sh with mcs.tail := some (t, i) }, ⟨head, .mcsCount i sh.mcs.tail⟩)
  | .mcsCount i pred =>
      some ({ sh with numAcquired := sh.numAcquired + 1 },
        ⟨head,
          match pred with
          | none => glkMcsAdap cfg (sh.numAcquired + 1)
          | some p => .mcsSetWaiting i p (sh.numAcquired + 1)⟩)
  | .mcsSetWaiting i pred na =>
      some ({ sh with mcs.waiting := Function.update sh.mcs.waiting (t, i) true },
        ⟨head, .mcsLink i pred na⟩)
  | .mcsLink i pred na =>
      some ({ sh with mcs.next := Function.update sh.mcs.next pred (some (t, i)) },
        ⟨head, .mcsSpin i na⟩)
  | .mcsSpin i na =>
      some (sh, ⟨head, if sh.mcs.waiting (t, i) then .mcsSpin i na else glkMcsAdap cfg na⟩)
  | _ => none

/-- `glk_mcs_lock_trylock`. -/
def glkMcsLockTrylock (t : Tid) (sh : Shared Tid) (head : Heads) :
    Pc Tid → Option (Shared Tid × Local Tid)
  | .mcsTail => some (sh, ⟨head, if sh.mcs.tail = none then .mcsTryGetLocal else .idle⟩)
  | .mcsTryGetLocal =>
      (glkMcsGetLocalLock head).map fun (i, head') => (sh, ⟨head', .mcsTryClearNext i⟩)
  | .mcsTryClearNext i =>
      some ({ sh with mcs.next := Function.update sh.mcs.next (t, i) none }, ⟨head, .mcsCas i⟩)
  | .mcsCas i =>
      if sh.mcs.tail = none then
        some ({ sh with mcs.tail := some (t, i) }, ⟨head, .check true .mcs⟩)
      else (glkMcsGetLocalUnlock head).map fun (_, head') => (sh, ⟨head', .idle⟩)
  | _ => none

/-- `glk_mcs_lock_unlock`. -/
def glkMcsLockUnlock (t : Tid) (sh : Shared Tid) (head : Heads) :
    Pc Tid → Option (Shared Tid × Local Tid)
  | .mcsUnlock k =>
      (glkMcsGetLocalUnlock head).map fun (i, head') =>
        (sh, ⟨head',
          match sh.mcs.next (t, i) with
          | none => .mcsCasTail k i
          | some s => .mcsClear k s⟩)
  | .mcsCasTail k i =>
      if sh.mcs.tail = some (t, i) then some ({ sh with mcs.tail := none }, ⟨head, k.next⟩)
      else some (sh, ⟨head, .mcsWaitSucc k i⟩)
  | .mcsWaitSucc k i =>
      some (sh, ⟨head,
        match sh.mcs.next (t, i) with
        | none => .mcsWaitSucc k i
        | some s => .mcsClear k s⟩)
  | .mcsClear k s =>
      some ({ sh with mcs.waiting := Function.update sh.mcs.waiting s false }, ⟨head, k.next⟩)
  | _ => none

/-- Where a thread is after a step in the code of the futex mutex. -/
def MutexCall.next : MutexCall → Mutexee.Pc → Pc Tid
  | .lock, .critical => .mutexMp
  | .trylock, .critical => .check true .mutex
  | .trylock, .idle => .idle
  | .unlock k, .idle => k.next
  | call, pc => .mutex call pc

/-- `glk_mutex_lock`, `glk_mutex_lock_trylock` and `glk_mutex_unlock`. -/
def glkMutex (t : Tid) (sh : Shared Tid) (a : Mutexee.Act Tid) :
    Pc Tid → Option (Shared Tid × Pc Tid)
  | .mutex call pc =>
      (Mutexee.prog Mutexee.glkMutex t sh.mutex pc a).map fun (m, pc') =>
        ({ sh with mutex := m }, call.next pc')
  | _ => none

/-! ## The adaptive lock -/

/-- The call of a lock function under the type that was read. -/
def lockLock (try_ : Bool) : LockType → Pc Tid
  | .ticket => if try_ then .ticketTail else .ticketAdd
  | .mcs => if try_ then .mcsTail else .mcsGetLocal
  | .mutex => if try_ then .mutex .trylock .try8 else .mutex .lock .xchg8

/-- `glk_lock`, `glk_trylock` and `glk_unlock` outside the code of the three locks. -/
def glkLock (sh : Shared Tid) : Pc Tid → Option (Shared Tid × Pc Tid)
  | .readType try_ => some (sh, lockLock try_ sh.lockType)
  | .check try_ held =>
      some (sh, if sh.lockType = held then .critical held else unlockLock (.retry try_) held)
  | .unlockType _ => some (sh, unlockLock .user sh.lockType)
  | _ => none

/-- Start a call. -/
def call : Pc Tid → Act Tid → Option (Pc Tid)
  | .idle, .lock => some (.readType false)
  | .idle, .trylock => some (.readType true)
  | .critical held, .unlock => some (.unlockType held)
  | _, _ => none

/-- A step whose place in the code determines it. -/
def go (cfg : Config) (t : Tid) (sh : Shared Tid) (l : Local Tid) :
    Option (Shared Tid × Local Tid) :=
  let keep := fun (r : Shared Tid × Pc Tid) => (r.1, { l with pc := r.2 })
  match l.pc with
  | .idle | .critical _ | .mutex _ _ => none
  | .readType _ | .check _ _ | .unlockType _ => (glkLock sh l.pc).map keep
  | .ticketAdd | .ticketDistance _ | .ticketCount _ _ | .ticketSpin _ =>
      (glkTicketLockLock cfg sh l.pc).map keep
  | .ticketTail | .ticketHead _ | .ticketCas _ => (glkTicketLockTrylock sh l.pc).map keep
  | .ticketUnlock _ | .ticketIncrement _ _ => (glkTicketLockUnlock sh l.pc).map keep
  | .mcsGetLocal | .mcsClearNext _ | .mcsSwap _ | .mcsCount _ _ | .mcsSetWaiting _ _ _
  | .mcsLink _ _ _ | .mcsSpin _ _ => glkMcsLockLock cfg t sh l.head l.pc
  | .mcsTail | .mcsTryGetLocal | .mcsTryClearNext _ | .mcsCas _ =>
      glkMcsLockTrylock t sh l.head l.pc
  | .mcsUnlock _ | .mcsCasTail _ _ | .mcsWaitSucc _ _ | .mcsClear _ _ =>
      glkMcsLockUnlock t sh l.head l.pc
  | .ticketMp | .ticketTotal => (ticketAdap cfg sh l.pc).map keep
  | .mcsFirst _ | .mcsWalk _ _ _ | .mcsAddTotal _ _ | .mcsMp _ =>
      (mcsAdap cfg t sh l.head l.pc).map keep
  | .mutexMp | .mutexType => (mutexAdap sh l.pc).map keep
  | .storeTotal _ _ _ _ | .storeAcquired _ _ _ | .storeType _ _ => (adapStores sh l.pc).map keep

/-- One step of a thread. -/
def prog (cfg : Config) : Prog Tid (Shared Tid) (Local Tid) (Act Tid) := fun t sh l a =>
  match a with
  | .go => go cfg t sh l
  | .mutex a => (glkMutex t sh a l.pc).map fun r => (r.1, { l with pc := r.2 })
  | .background on => some ({ sh with multiprogramming := on }, l)
  | a => (call l.pc a).map fun pc => (sh, { l with pc := pc })

end

/-- `glk_init`, and nobody in a call.  `lock_type` may be initialised to any type, and a
    thread may hold other locks. -/
structure Init (c : Conf Tid (Shared Tid) (Local Tid)) : Prop where
  head : c.sh.ticket.head = 1
  tail : c.sh.ticket.tail = 0
  next : c.sh.mcs.tail = none
  mutex : c.sh.mutex = ⟨⟨0, 0⟩, [], false, 0, [], 0⟩
  numAcquired : c.sh.numAcquired = 0
  queueTotal : c.sh.queueTotal = 0
  idle : ∀ t, (c.loc t).pc = .idle
  heads : ∀ t i, (c.loc t).head i ≠ .this

end Glk
