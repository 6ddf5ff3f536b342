import Lockin.McsQueue

/-! # The MCS lock of `mcs_in.c`

    One `mcs_lock_t` used by any number of threads through `mcs_lock_lock`,
    `mcs_lock_trylock` and `mcs_lock_unlock`, one load, store, swap or CAS per
    step.

    The queue node of a thread is found through two tables: the thread-local id
    `__mcs_id`, handed out once from the counter `__mcs_ids`, and the lock's array
    `local`, whose entry is allocated at first use.  The node is then reused for
    every later acquisition of the same lock.  `NodesOwn` is the invariant that
    makes this safe: different threads have DIFFERENT nodes.  With it, `queueView`
    maps every step to one of the protocol of `McsQueue` or to none
    (`NodesOwn.queue_step`), and safety and hand-off are read off the protocol
    (`mcsLock_safe`). -/

namespace McsIn

open Interleaving FifoLock

variable {Tid : Type}

/-- `MCS_MAX_THR`: the length of the array `local`. -/
def mcsMaxThr : Nat := 81

/-- The address of a queue node. -/
abbrev Addr := Nat

/-- One `mcs_lock_t`, the counter `__mcs_ids`, and the queue nodes.  Node memory
    comes from `malloc`, so the fields of a node that nobody wrote are arbitrary. -/
structure Shared where
  next : Option Addr
  local_ : Nat → Option Addr
  mcsIds : Nat
  nodeNext : Addr → Option Addr
  nodeWaiting : Addr → UInt64
  /-- The address that the next `malloc` returns. -/
  brk : Addr

/-- Which function a call of `mcs_get_local` returns to. -/
inductive Caller where
  | lock
  | trylock
  deriving DecidableEq

/-- Where a thread is.  `node` is the variable `local` of the source. -/
inductive Pc where
  | idle
  | tryLoad
  | getId (k : Caller)
  | getLocal (k : Caller)
  | malloc (k : Caller)
  | retLocal (k : Caller)
  | clearNext (k : Caller) (node : Addr)
  | swap (node : Addr)
  | cas (node : Addr)
  | setWaiting (node pred : Addr)
  | link (node pred : Addr)
  | spin (node : Addr)
  | critical
  | unlockLocal
  | readSucc (node : Addr)
  | casTail (node : Addr)
  | waitSucc (node : Addr)
  | clearWaiting (succ : Addr)
  deriving DecidableEq

/-- A thread: `__mcs_id` (`none` for the initial `-1`) and where it is. -/
structure Local where
  mcsId : Option Nat
  pc : Pc

/-- The calls a thread may make; everything else is determined. -/
inductive Act where
  | lock
  | trylock
  | unlock
  | go

/-- `mcs_get_local`. -/
def mcsGetLocal (sh : Shared) (id : Option Nat) : Pc → Option (Shared × Local)
  | .getId k =>
      match id with
      | some i => some (sh, ⟨some i, .getLocal k⟩)
      | none =>
          -- `assert(__mcs_id < MCS_MAX_THR)` ends the program otherwise
          if sh.mcsIds < mcsMaxThr then
            some ({ sh with mcsIds := sh.mcsIds + 1 }, ⟨some sh.mcsIds, .getLocal k⟩)
          else none
  | .getLocal k =>
      id.map fun i =>
        (sh, ⟨some i, if (sh.local_ i).isNone then .malloc k else .retLocal k⟩)
  | .malloc k =>
      id.map fun i =>
        ({ sh with
            local_ := Function.update sh.local_ i (some sh.brk)
            brk := sh.brk + 1 }, ⟨some i, .retLocal k⟩)
  | .retLocal k =>
      id.bind fun i => (sh.local_ i).map fun node => (sh, ⟨some i, .clearNext k node⟩)
  | _ => none

/-- `mcs_lock_trylock`, after `lock->next` was read and found `NULL`; the first two
    lines of `mcs_lock_lock` are the same. -/
def mcsLockTrylock (sh : Shared) (id : Option Nat) : Pc → Option (Shared × Local)
  | .tryLoad =>
      some (sh, ⟨id, if sh.next ≠ none then .idle else .getId .trylock⟩)
  | .clearNext .trylock node =>
      some ({ sh with nodeNext := Function.update sh.nodeNext node none }, ⟨id, .cas node⟩)
  | .cas node =>
      if sh.next = none then some ({ sh with next := some node }, ⟨id, .critical⟩)
      else some (sh, ⟨id, .idle⟩)
  | _ => none

/-- `mcs_lock_lock`. -/
def mcsLockLock (sh : Shared) (id : Option Nat) : Pc → Option (Shared × Local)
  | .clearNext .lock node =>
      some ({ sh with nodeNext := Function.update sh.nodeNext node none }, ⟨id, .swap node⟩)
  | .swap node =>
      some ({ sh with next := some node }, ⟨id, match sh.next with
        | none => .critical
        | some pred => .setWaiting node pred⟩)
  | .setWaiting node pred =>
      some ({ sh with nodeWaiting := Function.update sh.nodeWaiting node 1 },
        ⟨id, .link node pred⟩)
  | .link node pred =>
      some ({ sh with nodeNext := Function.update sh.nodeNext pred (some node) },
        ⟨id, .spin node⟩)
  | .spin node => some (sh, ⟨id, if sh.nodeWaiting node ≠ 0 then .spin node else .critical⟩)
  | _ => none

/-- `mcs_lock_unlock`. -/
def mcsLockUnlock (sh : Shared) (id : Option Nat) : Pc → Option (Shared × Local)
  | .unlockLocal =>
      id.bind fun i => (sh.local_ i).map fun node => (sh, ⟨some i, .readSucc node⟩)
  | .readSucc node =>
      some (sh, ⟨id, match sh.nodeNext node with
        | none => .casTail node
        | some succ => .clearWaiting succ⟩)
  | .casTail node =>
      if sh.next = some node then some ({ sh with next := none }, ⟨id, .idle⟩)
      else some (sh, ⟨id, .waitSucc node⟩)
  | .waitSucc node =>
      some (sh, ⟨id, match sh.nodeNext node with
        | none => .waitSucc node
        | some succ => .clearWaiting succ⟩)
  | .clearWaiting succ =>
      some ({ sh with nodeWaiting := Function.update sh.nodeWaiting succ 0 }, ⟨id, .idle⟩)
  | _ => none

/-- One step of a thread. -/
def prog : Prog Tid Shared Local Act
  | _, sh, ⟨id, pc⟩, .lock => if pc = .idle then some (sh, ⟨id, .getId .lock⟩) else none
  | _, sh, ⟨id, pc⟩, .trylock => if pc = .idle then some (sh, ⟨id, .tryLoad⟩) else none
  | _, sh, ⟨id, pc⟩, .unlock => if pc = .critical then some (sh, ⟨id, .unlockLocal⟩) else none
  | _, sh, ⟨id, pc⟩, .go =>
      (mcsGetLocal sh id pc).or <| (mcsLockTrylock sh id pc).or <|
        (mcsLockLock sh id pc).or (mcsLockUnlock sh id pc)

/-- `mcs_lock_init`, run by a thread with id `id`: clear the lock and allocate the
    thread's own node. -/
def mcsLockInit (sh : Shared) (id : Option Nat) : Option (Shared × Option Nat) :=
  let i := id.getD sh.mcsIds
  if i < mcsMaxThr then
    some ({ sh with
        next := none
        local_ := Function.update (fun _ => none) i (some sh.brk)
        mcsIds := if id.isNone then sh.mcsIds + 1 else sh.mcsIds
        brk := sh.brk + 1 }, some i)
  else none

/-- A thread is in line from its swap or successful CAS on `lock->next` until its
    unlock has found the successor, or has found that there is none. -/
@[simp] def Pc.phase : Pc → Phase
  | .setWaiting _ _ | .link _ _ | .spin _ => .waiting
  | .critical | .unlockLocal | .readSucc _ | .casTail _ | .waitSucc _ => .holding
  | _ => .out

/-- The phase of a thread. -/
@[simp] def Local.phase (l : Local) : Phase := l.pc.phase

/-- The node that a thread keeps in its variable `local`. -/
@[simp, grind =] def Pc.node : Pc → Option Addr
  | .clearNext _ n => some n
  | .swap n => some n
  | .cas n => some n
  | .setWaiting n _ => some n
  | .link n _ => some n
  | .spin n => some n
  | .readSucc n => some n
  | .casTail n => some n
  | .waitSucc n => some n
  | .idle | .tryLoad | .getId _ | .getLocal _ | .malloc _ | .retLocal _ | .critical
  | .unlockLocal | .clearWaiting _ => none

/-- `lock->local[__mcs_id]`. -/
def own (sh : Shared) (l : Local) : Option Addr := l.mcsId.bind sh.local_

/-- Every thread has its own id and its own node. -/
structure NodesOwn (c : Conf Tid Shared Local) : Prop where
  ids_lt : ∀ t i, (c.loc t).mcsId = some i → i < c.sh.mcsIds
  ids_inj : ∀ t u i, (c.loc t).mcsId = some i → (c.loc u).mcsId = some i → t = u
  nodes_lt : ∀ i n, c.sh.local_ i = some n → n < c.sh.brk
  nodes_inj : ∀ i j n, c.sh.local_ i = some n → c.sh.local_ j = some n → i = j
  node : ∀ t n, (c.loc t).pc.node = some n → own c.sh (c.loc t) = some n
  holder : ∀ t, (c.loc t).pc = .critical ∨ (c.loc t).pc = .unlockLocal →
    ∃ n, own c.sh (c.loc t) = some n

/-- The lock has been initialised and no thread is in a call.  Ids and nodes may
    have been handed out before. -/
structure Init (c : Conf Tid Shared Local) : Prop where
  next : c.sh.next = none
  idle : ∀ t, (c.loc t).pc = .idle
  ids_lt : ∀ t i, (c.loc t).mcsId = some i → i < c.sh.mcsIds
  ids_inj : ∀ t u i, (c.loc t).mcsId = some i → (c.loc u).mcsId = some i → t = u
  nodes_lt : ∀ i n, c.sh.local_ i = some n → n < c.sh.brk
  nodes_inj : ∀ i j n, c.sh.local_ i = some n → c.sh.local_ j = some n → i = j

/-- Where a thread with node `o` is in the queue protocol. -/
@[simp, grind =] def Pc.queued (o : Option Addr) : Pc → McsQueue.Pc Addr
  | .idle | .tryLoad | .getId _ | .getLocal _ | .malloc _ | .retLocal _ => .idle
  | .clearNext k n => .clearNext (k = .trylock) n
  | .swap n => .swap n
  | .cas n => .cas n
  | .setWaiting n p => .setWaiting n p
  | .link n p => .link n p
  | .spin n => .spin n
  | .critical | .unlockLocal => o.elim .idle .held
  | .readSucc n => .held n
  | .casTail n => .casTail n
  | .waitSucc n => .waitNext n
  | .clearWaiting s => .clear s

/-- The memory as the queue protocol sees it. -/
def Shared.queued (sh : Shared) : McsQueue.Shared Addr :=
  ⟨sh.next, sh.nodeNext, fun n => sh.nodeWaiting n ≠ 0⟩

/-- The lock as the queue protocol sees it. -/
def queueView (c : Conf Tid Shared Local) :
    Conf Tid (McsQueue.Shared Addr) (McsQueue.Pc Addr) where
  sh := c.sh.queued
  loc t := (c.loc t).pc.queued (own c.sh (c.loc t))

theorem queued_update (w : Addr → UInt64) (m : Addr) (x : UInt64) :
    (fun n => decide (Function.update w m x n ≠ 0))
      = Function.update (fun n => decide (w n ≠ 0)) m (decide (x ≠ 0)) := by
  funext n
  simp only [Function.update_apply]
  split <;> rfl

/-- Different threads have different nodes. -/
theorem NodesOwn.own_inj {c : Conf Tid Shared Local} (h : NodesOwn c) {t u : Tid} {n : Addr}
    (ht : own c.sh (c.loc t) = some n) (hu : own c.sh (c.loc u) = some n) : t = u := by
  obtain ⟨i, hi, hin⟩ := Option.bind_eq_some_iff.mp ht
  obtain ⟨j, hj, hjn⟩ := Option.bind_eq_some_iff.mp hu
  obtain rfl := h.nodes_inj i j n hin hjn
  exact h.ids_inj t u i hi hj

theorem Pc.node_of_queued {o : Option Addr} {pc : Pc} {n : Addr}
    (hn : (pc.queued o).node = some n) : pc.node = some n ∨ o = some n := by
  cases pc <;> cases o <;> simp_all only [Pc.queued, Pc.node, McsQueue.Pc.node,
    Option.elim_none, Option.elim_some, reduceCtorEq, or_true, true_or]

theorem Pc.queued_phase {o : Option Addr} {pc : Pc}
    (ho : pc = .critical ∨ pc = .unlockLocal → ∃ n, o = some n) :
    (pc.queued o).phase = pc.phase := by
  cases pc
  case critical | unlockLocal =>
      obtain ⟨n, rfl⟩ := ho (by simp)
      rfl
  all_goals rfl

/-- The node a thread is using is its own. -/
theorem NodesOwn.own_of_queued {c : Conf Tid Shared Local} (h : NodesOwn c) {t : Tid}
    {n : Addr} (hn : ((queueView c).loc t).node = some n) : own c.sh (c.loc t) = some n :=
  (Pc.node_of_queued hn).elim (h.node t n) id

/-- A thread is in the same phase in both. -/
theorem NodesOwn.queued_phase {c : Conf Tid Shared Local} (h : NodesOwn c) (t : Tid) :
    ((queueView c).loc t).phase = (c.loc t).phase :=
  Pc.queued_phase (h.holder t)

/-- Before the first call. -/
theorem Init.nodesOwn {c : Conf Tid Shared Local} (h : Init c) : NodesOwn c :=
  ⟨h.ids_lt, h.ids_inj, h.nodes_lt, h.nodes_inj, by simp [h.idle], by simp [h.idle]⟩

/-- The queue before the first call. -/
theorem Init.queueView {c : Conf Tid Shared Local} (h : Init c) :
    McsQueue.Init (queueView c) :=
  ⟨h.next, fun t => by simp [McsIn.queueView, h.idle t]⟩

variable [DecidableEq Tid]

/-- `mcs_lock_init` run by thread `t`, while no thread is in a call, initialises the
    lock. -/
theorem mcsLockInit_init {c : Conf Tid Shared Local} {t : Tid} {sh' : Shared}
    {id' : Option Nat} (hidle : ∀ u, (c.loc u).pc = .idle)
    (hlt : ∀ u i, (c.loc u).mcsId = some i → i < c.sh.mcsIds)
    (hinj : ∀ u v i, (c.loc u).mcsId = some i → (c.loc v).mcsId = some i → u = v)
    (h : mcsLockInit c.sh (c.loc t).mcsId = some (sh', id')) :
    Init (c.put t (sh', ⟨id', .idle⟩)) := by
  simp only [mcsLockInit, Option.ite_none_right_eq_some, Option.some.injEq, Prod.mk.injEq] at h
  obtain ⟨-, rfl, rfl⟩ := h
  have honly : ∀ j n, Function.update (fun _ => (none : Option Addr))
      ((c.loc t).mcsId.getD c.sh.mcsIds) (some c.sh.brk) j = some n →
      j = (c.loc t).mcsId.getD c.sh.mcsIds ∧ n = c.sh.brk := by
    intro j n hj
    rw [Function.update_apply] at hj
    split at hj
    · exact ⟨‹_›, (Option.some.inj hj).symm⟩
    · exact absurd hj (by simp)
  constructor
  · rfl
  · grind
  · cases hid : (c.loc t).mcsId <;> grind
  · cases hid : (c.loc t).mcsId <;> grind
  · intro j n hj
    exact (honly j n hj).2 ▸ Nat.lt_succ_self _
  · intro j k n hj hk
    exact (honly j n hj).1.trans (honly k n hk).1.symm

/-- A step of a thread other than its first `mcs_get_local` leaves both tables as
    they are. -/
theorem NodesOwn.keep {c : Conf Tid Shared Local} (h : NodesOwn c) {t : Tid}
    {sh' : Shared} {l : Local} (hlocal : sh'.local_ = c.sh.local_)
    (hids : sh'.mcsIds = c.sh.mcsIds) (hbrk : sh'.brk = c.sh.brk)
    (hid : l.mcsId = (c.loc t).mcsId)
    (hnode : ∀ n, l.pc.node = some n → own c.sh (c.loc t) = some n)
    (hhold : l.pc = .critical ∨ l.pc = .unlockLocal → ∃ n, own c.sh (c.loc t) = some n) :
    NodesOwn (c.put t (sh', l)) := by
  have hown : own sh' l = own c.sh (c.loc t) := by simp [own, hlocal, hid]
  have hown' : ∀ u, own sh' (c.loc u) = own c.sh (c.loc u) := by simp [own, hlocal]
  constructor
  · have := h.ids_lt
    grind
  · have := h.ids_inj
    grind
  · simpa only [put_sh, hlocal, hbrk] using h.nodes_lt
  · simpa only [put_sh, hlocal] using h.nodes_inj
  · have := h.node
    grind
  · have := h.holder
    grind

/-- A thread that had no id takes the next one. -/
theorem NodesOwn.firstId {c : Conf Tid Shared Local} (h : NodesOwn c) {t : Tid}
    {pc : Pc} (hnode : pc.node = none) (hpc : pc ≠ .critical ∧ pc ≠ .unlockLocal) :
    NodesOwn (c.put t ({ c.sh with mcsIds := c.sh.mcsIds + 1 },
      ⟨some c.sh.mcsIds, pc⟩)) := by
  have hown : ∀ l, own { c.sh with mcsIds := c.sh.mcsIds + 1 } l = own c.sh l :=
    fun _ => rfl
  constructor
  · have := h.ids_lt
    grind
  · have := h.ids_lt
    have := h.ids_inj
    grind
  · exact h.nodes_lt
  · exact h.nodes_inj
  · have := h.node
    grind
  · have := h.holder
    grind

omit [DecidableEq Tid] in
/-- What `malloc` returns becomes the node of one thread only. -/
theorem NodesOwn.own_alloc {c : Conf Tid Shared Local} (h : NodesOwn c) {t : Tid} {i : Nat}
    (hi : (c.loc t).mcsId = some i) (u : Tid) (hu : u ≠ t) :
    own { c.sh with
      local_ := Function.update c.sh.local_ i (some c.sh.brk)
      brk := c.sh.brk + 1 } (c.loc u) = own c.sh (c.loc u) := by
  cases hj : (c.loc u).mcsId with
  | none => simp [own, hj]
  | some j =>
      have hji : j ≠ i := by rintro rfl; exact hu (h.ids_inj u t j hj hi)
      simp [own, hj, hji]

/-- The node that `malloc` returns is nobody's yet. -/
theorem NodesOwn.alloc {c : Conf Tid Shared Local} (h : NodesOwn c) {t : Tid} {i : Nat}
    {pc : Pc} (hi : (c.loc t).mcsId = some i) (hnode : pc.node = none)
    (hpc : pc ≠ .critical ∧ pc ≠ .unlockLocal) :
    NodesOwn (c.put t ({ c.sh with
      local_ := Function.update c.sh.local_ i (some c.sh.brk)
      brk := c.sh.brk + 1 }, ⟨some i, pc⟩)) := by
  have hown := h.own_alloc hi
  have hlt := h.nodes_lt
  have hinj := h.nodes_inj
  constructor
  · have := h.ids_lt
    grind
  · have := h.ids_inj
    grind
  · intro j n hj
    rw [put_sh] at hj ⊢
    by_cases hji : j = i
    · subst hji
      obtain rfl : c.sh.brk = n := by simpa using hj
      exact Nat.lt_succ_self _
    · exact Nat.lt_succ_of_lt (hlt j n (by simpa [hji] using hj))
  · intro j k n hj hk
    rw [put_sh] at hj hk
    simp only [Function.update_apply] at hj hk
    grind
  · have := h.node
    grind
  · have := h.holder
    grind

/-- Every step keeps everybody's node its own. -/
theorem NodesOwn.step {c : Conf Tid Shared Local} (h : NodesOwn c) {t : Tid} {a : Act}
    {r : Shared × Local} (hs : prog t c.sh (c.loc t) a = some r) :
    NodesOwn (c.put t r) := by
  have hnode := h.node t
  have hhold := h.holder t
  have hkeep := @NodesOwn.keep _ _ c h t
  obtain ⟨id, pc, hl⟩ : ∃ id pc, c.loc t = ⟨id, pc⟩ := ⟨_, _, rfl⟩
  have hid : (c.loc t).mcsId = id := by rw [hl]
  rw [hl] at hs hnode hhold hkeep
  cases a with
  | lock =>
      obtain ⟨rfl, rfl⟩ : pc = .idle ∧ (c.sh, ⟨id, .getId .lock⟩) = r := by
        simpa [prog] using hs
      exact hkeep rfl rfl rfl rfl (by simp) (by simp)
  | trylock =>
      obtain ⟨rfl, rfl⟩ : pc = .idle ∧ (c.sh, ⟨id, .tryLoad⟩) = r := by
        simpa [prog] using hs
      exact hkeep rfl rfl rfl rfl (by simp) (by simp)
  | unlock =>
      obtain ⟨rfl, rfl⟩ : pc = .critical ∧ (c.sh, ⟨id, .unlockLocal⟩) = r := by
        simpa [prog] using hs
      exact hkeep rfl rfl rfl rfl (by simp) fun _ => hhold (Or.inl rfl)
  | go =>
  cases pc <;>
    simp only [prog, mcsGetLocal, mcsLockTrylock, mcsLockLock, mcsLockUnlock,
      Option.none_or, Option.or_none, Option.or_self, reduceCtorEq, Option.some.injEq] at hs
  case getId k =>
      cases id with
      | some i =>
          obtain rfl := Option.some.inj hs
          exact hkeep rfl rfl rfl rfl (by simp) (by simp)
      | none =>
          -- the first call of the thread
          by_cases hlt : c.sh.mcsIds < mcsMaxThr
          · obtain rfl := Option.some.inj ((if_pos hlt).symm.trans hs)
            exact h.firstId rfl (by simp)
          · simp [hlt] at hs
  case getLocal k =>
      obtain ⟨i, rfl, rfl⟩ := Option.map_eq_some_iff.mp hs
      refine hkeep rfl rfl rfl rfl ?_ ?_ <;> dsimp only <;> split <;> simp
  case malloc k =>
      obtain ⟨i, rfl, rfl⟩ := Option.map_eq_some_iff.mp hs
      exact h.alloc hid rfl (by simp)
  case retLocal k =>
      obtain ⟨i, rfl, hs⟩ := Option.bind_eq_some_iff.mp hs
      obtain ⟨n, hn, rfl⟩ := Option.map_eq_some_iff.mp hs
      exact hkeep rfl rfl rfl rfl (by simp [own, hn]) (by simp)
  case clearNext k n =>
      have hn := hnode n rfl
      cases k with
      | lock =>
          obtain rfl := Option.some.inj hs
          exact hkeep rfl rfl rfl rfl (by simp [hn]) (by simp)
      | trylock =>
          obtain rfl := Option.some.inj hs
          exact hkeep rfl rfl rfl rfl (by simp [hn]) (by simp)
  case cas n =>
      have hn := hnode n rfl
      split at hs <;> obtain rfl := Option.some.inj hs
      · exact hkeep rfl rfl rfl rfl (by simp) fun _ => ⟨n, hn⟩
      · exact hkeep rfl rfl rfl rfl (by simp) (by simp)
  case swap n =>
      have hn := hnode n rfl
      subst hs
      refine hkeep rfl rfl rfl rfl ?_ ?_ <;> dsimp only <;> split <;> simp [hn]
  case spin n =>
      have hn := hnode n rfl
      subst hs
      refine hkeep rfl rfl rfl rfl ?_ ?_ <;> dsimp only <;> split <;> simp [hn]
  case unlockLocal =>
      obtain ⟨i, rfl, hs⟩ := Option.bind_eq_some_iff.mp hs
      obtain ⟨n, hn, rfl⟩ := Option.map_eq_some_iff.mp hs
      exact hkeep rfl rfl rfl rfl (by simp [own, hn]) (by simp)
  case casTail n =>
      have hn := hnode n rfl
      split at hs <;> obtain rfl := Option.some.inj hs <;>
        exact hkeep rfl rfl rfl rfl (by simp [hn]) (by simp)
  case tryLoad =>
      subst hs
      refine hkeep rfl rfl rfl rfl ?_ ?_ <;> dsimp only <;> split <;> simp
  case readSucc n | waitSucc n =>
      have hn := hnode n rfl
      subst hs
      refine hkeep rfl rfl rfl rfl ?_ ?_ <;> dsimp only <;> split <;> simp [hn]
  case setWaiting | link | clearWaiting =>
      subst hs
      exact hkeep rfl rfl rfl rfl hnode (by simp)

/-- A step of `t` is seen as a step of `t`. -/
theorem queueView_put {c : Conf Tid Shared Local} {t : Tid} {sh' : Shared} {l : Local}
    (hlocal : ∀ u, u ≠ t → own sh' (c.loc u) = own c.sh (c.loc u)) :
    queueView (c.put t (sh', l))
      = (queueView c).put t (sh'.queued, l.pc.queued (own sh' l)) := by
  have hloc : ∀ u, (queueView (c.put t (sh', l))).loc u
      = ((queueView c).put t (sh'.queued, l.pc.queued (own sh' l))).loc u := by
    intro u
    by_cases hu : u = t
    · subst hu
      simp [queueView]
    · rw [put_loc_ne _ _ hu]
      simp [queueView, put_loc_ne _ _ hu, hlocal u hu]
  exact congrArg (Conf.mk _) (funext hloc)

/-- A step that the protocol does not see. -/
theorem queueView_stay {c : Conf Tid Shared Local} {t : Tid} {sh' : Shared} {l : Local}
    (hlocal : ∀ u, u ≠ t → own sh' (c.loc u) = own c.sh (c.loc u))
    (hsh : sh'.queued = c.sh.queued)
    (hpc : l.pc.queued (own sh' l) = (c.loc t).pc.queued (own c.sh (c.loc t))) :
    queueView (c.put t (sh', l)) = queueView c := by
  rw [queueView_put hlocal, hsh, hpc]
  exact put_self (queueView c) t

/-- A step that is the protocol's. -/
theorem queueView_go {c : Conf Tid Shared Local} {t : Tid} {sh' : Shared} {l : Local}
    {a : McsQueue.Act Addr} (hlocal : sh'.local_ = c.sh.local_)
    (hfresh : McsQueue.fresh (queueView c) t a)
    (hs : McsQueue.prog t c.sh.queued ((c.loc t).pc.queued (own c.sh (c.loc t))) a
      = some (sh'.queued, l.pc.queued (own sh' l))) :
    ∃ a' r', McsQueue.fresh (queueView c) t a' ∧
      McsQueue.prog t (queueView c).sh ((queueView c).loc t) a' = some r' ∧
      queueView (c.put t (sh', l)) = (queueView c).put t r' :=
  ⟨a, _, hfresh, hs, queueView_put fun u _ => by simp [own, hlocal]⟩

/-- **Every step is one of the queue protocol, or none.** -/
theorem NodesOwn.queue_step {c : Conf Tid Shared Local} (h : NodesOwn c) {t : Tid} {a : Act}
    {r : Shared × Local} (hs : prog t c.sh (c.loc t) a = some r) :
    queueView (c.put t r) = queueView c ∨
      ∃ a' r', McsQueue.fresh (queueView c) t a' ∧
        McsQueue.prog t (queueView c).sh ((queueView c).loc t) a' = some r' ∧
        queueView (c.put t r) = (queueView c).put t r' := by
  have hnode := h.node t
  have hhold := h.holder t
  have hstay := @queueView_stay _ _ c t
  have hgo := @queueView_go _ _ c t
  obtain ⟨id, pc, hl⟩ : ∃ id pc, c.loc t = ⟨id, pc⟩ := ⟨_, _, rfl⟩
  rw [hl] at hs hnode hhold hstay hgo
  cases a with
  | lock =>
      obtain ⟨rfl, rfl⟩ : pc = .idle ∧ (c.sh, ⟨id, .getId .lock⟩) = r := by
        simpa [prog] using hs
      exact Or.inl (hstay (fun _ _ => rfl) rfl rfl)
  | trylock =>
      obtain ⟨rfl, rfl⟩ : pc = .idle ∧ (c.sh, ⟨id, .tryLoad⟩) = r := by
        simpa [prog] using hs
      exact Or.inl (hstay (fun _ _ => rfl) rfl rfl)
  | unlock =>
      obtain ⟨rfl, rfl⟩ : pc = .critical ∧ (c.sh, ⟨id, .unlockLocal⟩) = r := by
        simpa [prog] using hs
      exact Or.inl (hstay (fun _ _ => rfl) rfl rfl)
  | go =>
  cases pc <;>
    simp only [prog, mcsGetLocal, mcsLockTrylock, mcsLockLock, mcsLockUnlock,
      Option.none_or, Option.or_none, Option.or_self, reduceCtorEq, Option.some.injEq] at hs
  case getId k =>
      cases id with
      | some i =>
          obtain rfl := Option.some.inj hs
          exact Or.inl (hstay (fun _ _ => rfl) rfl rfl)
      | none =>
          by_cases hlt : c.sh.mcsIds < mcsMaxThr
          · obtain rfl := Option.some.inj ((if_pos hlt).symm.trans hs)
            exact Or.inl (hstay (fun _ _ => rfl) rfl rfl)
          · simp [hlt] at hs
  case getLocal k =>
      obtain ⟨i, rfl, rfl⟩ := Option.map_eq_some_iff.mp hs
      refine Or.inl (hstay (fun _ _ => rfl) rfl ?_)
      dsimp only
      split <;> rfl
  case malloc k =>
      obtain ⟨i, rfl, rfl⟩ := Option.map_eq_some_iff.mp hs
      exact Or.inl (hstay (h.own_alloc (by rw [hl])) rfl rfl)
  case retLocal k =>
      obtain ⟨i, rfl, hs⟩ := Option.bind_eq_some_iff.mp hs
      obtain ⟨n, hn, rfl⟩ := Option.map_eq_some_iff.mp hs
      -- the node is `t`'s own, so no other thread is using it
      have hfresh : ∀ u, u ≠ t → ((queueView c).loc u).node ≠ some n := by
        intro u hu hun
        exact hu (h.own_inj (h.own_of_queued hun) (by rw [hl]; exact hn))
      cases k with
      | lock => exact Or.inr (hgo (a := .lock n) rfl hfresh rfl)
      | trylock => exact Or.inr (hgo (a := .tryLock n) rfl hfresh rfl)
  case clearNext k n =>
      cases k with
      | lock =>
          obtain rfl := Option.some.inj hs
          exact Or.inr (hgo (a := .go) rfl trivial rfl)
      | trylock =>
          obtain rfl := Option.some.inj hs
          exact Or.inr (hgo (a := .go) rfl trivial rfl)
  case cas n =>
      have hn : id.bind c.sh.local_ = some n := hnode n rfl
      split at hs <;> rename_i hnext <;> obtain rfl := Option.some.inj hs
      · refine Or.inr (hgo (a := .go) rfl trivial ?_)
        simp [McsQueue.prog, Shared.queued, hnext, own, hn]
      · refine Or.inr (hgo (a := .go) rfl trivial ?_)
        simp [McsQueue.prog, Shared.queued, hnext]
  case swap n =>
      have hn : id.bind c.sh.local_ = some n := hnode n rfl
      subst hs
      refine Or.inr (hgo (a := .go) rfl trivial ?_)
      cases hnext : c.sh.next <;> simp [McsQueue.prog, Shared.queued, hnext, own, hn]
  case spin n =>
      have hn : id.bind c.sh.local_ = some n := hnode n rfl
      subst hs
      refine Or.inr (hgo (a := .go) rfl trivial ?_)
      by_cases hw : c.sh.nodeWaiting n = 0 <;>
        simp [McsQueue.prog, Shared.queued, hw, own, hn]
  case unlockLocal =>
      obtain ⟨i, rfl, hs⟩ := Option.bind_eq_some_iff.mp hs
      obtain ⟨n, hn, rfl⟩ := Option.map_eq_some_iff.mp hs
      refine Or.inl (hstay (fun _ _ => rfl) rfl ?_)
      simp [own, hn]
  case casTail n =>
      split at hs <;> rename_i hnext <;> obtain rfl := Option.some.inj hs <;>
        refine Or.inr (hgo (a := .go) rfl trivial ?_) <;>
        simp [McsQueue.prog, Shared.queued, hnext]
  case tryLoad =>
      subst hs
      refine Or.inl (hstay (fun _ _ => rfl) rfl ?_)
      dsimp only
      split <;> rfl
  case readSucc n | waitSucc n =>
      subst hs
      refine Or.inr (hgo (a := .go) rfl trivial ?_)
      cases hnext : c.sh.nodeNext n <;> simp [McsQueue.prog, Shared.queued, hnext]
  case link =>
      subst hs
      exact Or.inr (hgo (a := .go) rfl trivial rfl)
  case setWaiting | clearWaiting =>
      subst hs
      refine Or.inr (hgo (a := .go) rfl trivial ?_)
      simp only [McsQueue.prog, Shared.queued, Pc.queued, queued_update]
      rfl

/-- The program refines the queue protocol, so it is a first-come first-served
    lock. -/
theorem sim : FifoSim prog always Init Local.phase
    fun (c : Conf Tid Shared Local) f => NodesOwn c ∧ McsQueue.Line (queueView c) f :=
  McsQueue.sim.pullback queueView NodesOwn (fun _ t h => h.queued_phase t)
    (fun _ h0 => ⟨h0.nodesOwn, h0.queueView⟩)
    (fun _ _ _ _ _ h _ _ _ hs => h.step hs) (fun _ _ _ _ _ h _ _ _ hs => h.queue_step hs)

/-- A thread holds the lock from the moment the lock is given to it: it is past
    its swap, CAS or spinning, or its flag has been cleared. -/
def Holds (c : Conf Tid Shared Local) (t : Tid) : Prop :=
  (c.loc t).phase = .holding ∨ ∃ n, (c.loc t).pc = .spin n ∧ c.sh.nodeWaiting n = 0

/-- The thread whose turn it is: it holds, or its predecessor is about to clear its
    flag. -/
def Owner (c : Conf Tid Shared Local) (t : Tid) : Prop :=
  Holds c t ∨ ∃ n u, (c.loc t).pc = .spin n ∧ (c.loc u).pc = .clearWaiting n

/-- A thread at `pc` is linked behind the node `p`, or is about to link itself. -/
@[simp] def Pc.Behind (sh : Shared) (p : Addr) : Pc → Prop
  | .setWaiting _ q => q = p ∧ sh.nodeNext p = none
  | .link n q => q = p ∧ sh.nodeNext p = none ∧ sh.nodeWaiting n ≠ 0
  | .spin n => sh.nodeNext p = some n ∧ sh.nodeWaiting n ≠ 0
  | _ => False

/-- `u` is linked behind `t`, or is about to link itself. -/
def LinksBehind (c : Conf Tid Shared Local) (t u : Tid) : Prop :=
  ∃ p, own c.sh (c.loc t) = some p ∧ (c.loc u).pc.Behind c.sh p

/-- The threads in line are `q`: only the first one owns the lock, everyone is
    linked behind the one in front or will be, and the tail `lock->next` is the node
    of the last. -/
structure Queue (c : Conf Tid Shared Local) (q : List Tid) : Prop where
  mem : ∀ t, t ∈ q ↔ (c.loc t).phase ≠ .out
  nodup : q.Nodup
  owner : ∀ t, Owner c t ↔ q.head? = some t
  linked : q.IsChain (LinksBehind c)
  tail : c.sh.next = q.getLast?.bind fun t => own c.sh (c.loc t)

/-! ## Reading the queue off the protocol -/

@[simp] theorem queued_eq_spin {o : Option Addr} {pc : Pc} {n : Addr} :
    pc.queued o = .spin n ↔ pc = .spin n := by
  cases pc <;> cases o <;> simp

@[simp] theorem queued_eq_clear {o : Option Addr} {pc : Pc} {n : Addr} :
    pc.queued o = .clear n ↔ pc = .clearWaiting n := by
  cases pc <;> cases o <;> simp

@[simp] theorem queued_eq_waitNext {o : Option Addr} {pc : Pc} {n : Addr} :
    pc.queued o = .waitNext n ↔ pc = .waitSucc n := by
  cases pc <;> cases o <;> simp

@[simp] theorem queued_behind {o : Option Addr} {pc : Pc} {sh : Shared} {p : Addr} :
    (pc.queued o).Behind sh.queued p ↔ pc.Behind sh p := by
  cases pc <;> cases o <;> simp [Shared.queued]

namespace NodesOwn

variable {c : Conf Tid Shared Local}

omit [DecidableEq Tid] in
/-- The owner of the lock is that of the queue. -/
theorem owner_iff (h : NodesOwn c) {t : Tid} :
    McsQueue.Owner (queueView c) t ↔ Owner c t := by
  simp only [McsQueue.Owner, McsQueue.Released, Owner, Holds, h.queued_phase]
  simp only [queueView, queued_eq_spin, queued_eq_clear, Shared.queued, decide_eq_false_iff_not,
    not_not]
  constructor
  · rintro (hh | ⟨n, hn, h0 | ⟨u, hu⟩⟩)
    · exact Or.inl (Or.inl hh)
    · exact Or.inl (Or.inr ⟨n, hn, h0⟩)
    · exact Or.inr ⟨n, u, hn, hu⟩
  · rintro ((hh | ⟨n, hn, h0⟩) | ⟨n, u, hn, hu⟩)
    · exact Or.inl hh
    · exact Or.inr ⟨n, hn, Or.inl h0⟩
    · exact Or.inr ⟨n, hn, Or.inr ⟨u, hu⟩⟩

omit [DecidableEq Tid] in
/-- A thread in line is using its own node. -/
theorem queued_node (h : NodesOwn c) {t : Tid} (ht : (c.loc t).phase ≠ .out) :
    ((queueView c).loc t).node = own c.sh (c.loc t) := by
  rw [← h.queued_phase] at ht
  obtain ⟨n, hn⟩ := McsQueue.Pc.node_of_phase ht
  rw [hn, h.own_of_queued hn]

omit [DecidableEq Tid] in
/-- A thread that links its node in the queue does so in the lock. -/
theorem linksBehind (h : NodesOwn c) {t u : Tid}
    (hb : McsQueue.LinksBehind (queueView c) t u) : LinksBehind c t u := by
  obtain ⟨p, hp, hu⟩ := hb
  exact ⟨p, h.own_of_queued hp, queued_behind.mp hu⟩

omit [DecidableEq Tid] in
/-- The line of the protocol is the queue of the lock. -/
theorem queue (h : NodesOwn c) {q : List Tid} (hq : McsQueue.Queue (queueView c) q) :
    Queue c q where
  mem := fun t => by rw [hq.mem, h.queued_phase]
  nodup := hq.nodup
  owner := by
    intro t
    constructor
    · intro ho
      have hmem : t ∈ q := by
        rw [hq.mem, h.queued_phase]
        rcases ho with (hh | ⟨n, hn, -⟩) | ⟨n, u, hn, -⟩ <;> simp_all
      exact (hq.owner t hmem).mp (h.owner_iff.mpr ho)
    · intro hhead
      exact h.owner_iff.mp ((hq.owner t (List.mem_of_mem_head? hhead)).mpr hhead)
  linked := hq.linked.imp fun _ _ hb => h.linksBehind hb
  tail := by
    rw [show c.sh.next = (queueView c).sh.tail from rfl, hq.tail]
    cases hlast : q.getLast? with
    | none => rfl
    | some t =>
        have hmem := (hq.mem t).mp (List.mem_of_mem_getLast? hlast)
        rw [h.queued_phase] at hmem
        exact h.queued_node hmem

end NodesOwn

/-- In every state reached the threads in line form one queue, and whoever waits for
    a successor has one. -/
theorem queue_of_reach {c : Conf Tid Shared Local} (hc : Reach prog always Init c) :
    (∃ q, Queue c q) ∧ ∀ t n, (c.loc t).pc = .waitSucc n → ∃ u, LinksBehind c t u := by
  obtain ⟨f, ⟨hown, hline⟩, hf⟩ := sim.reach hc
  have hf' : f.Ok fun u => ((queueView c).loc u).phase := by
    simpa only [hown.queued_phase] using hf
  refine ⟨⟨f.queue, hown.queue (hline.queue hf')⟩, ?_⟩
  intro t n ht
  obtain ⟨u, hu⟩ := hline.exists_succ hf' (t := t) (n := n) (queued_eq_waitNext.mpr ht)
  exact ⟨u, hown.linksBehind hu⟩

/-- **Safety and hand-off of the MCS lock.** In every run at most one thread holds the
    lock; the threads acquire in the order of their swaps and successful CASes on
    `lock->next`; whenever the tail is not `NULL` the threads in line form a queue
    with one owner, everyone else linked behind a predecessor or about to link; and a
    thread in the wait-for-successor loop has somebody behind it. -/
theorem mcsLock_safe {c₀ c : Conf Tid Shared Local} {tr : List (Move Tid Local)}
    (h0 : Init c₀) (hrun : Run prog always c₀ tr c) :
    (∀ t u, Holds c t → Holds c u → t = u) ∧
    acquires Local.phase tr <+: enters Local.phase tr ∧
    (c.sh.next ≠ none → ∃ t q, Queue c (t :: q)) ∧
    ∀ t n, (c.loc t).pc = .waitSucc n → ∃ u, LinksBehind c t u := by
  obtain ⟨⟨q, hq⟩, hsucc⟩ := queue_of_reach (hrun.reach h0)
  refine ⟨?_, sim.acquires_in_order h0 hrun, ?_, hsucc⟩
  · intro t u ht hu
    have h1 := (hq.owner t).mp (Or.inl ht)
    have h2 := (hq.owner u).mp (Or.inl hu)
    exact Option.some.inj (h1.symm.trans h2)
  · intro hne
    cases q with
    | nil => exact absurd hq.tail hne
    | cons t q => exact ⟨t, q, hq⟩

/-- No id and no node has been handed out. -/
def start : Conf (Fin 2) Shared Local :=
  ⟨⟨none, fun _ => none, 0, fun _ => some 7, fun _ => 5, 0⟩, fun _ => ⟨none, .idle⟩⟩

theorem start_init : Init start := by
  constructor <;> simp [start]

/-- Thread 0 acquires, thread 1 swaps in behind it, and thread 0 unlocks as far as
    its wait-for-successor loop. -/
def handOff : List (Fin 2 × Act) :=
  [(0, .lock)] ++ List.replicate 6 (0, .go) ++ [(1, .lock)] ++ List.replicate 6 (1, .go)
    ++ [(0, .unlock)] ++ List.replicate 3 (0, .go)

theorem mcsLock_safe_handOff :
    ∃ (tr : List (Move (Fin 2) Local)) (c : Conf (Fin 2) Shared Local),
      exec prog always start handOff = some c ∧ (c.loc 0).pc = .waitSucc 0 ∧
      (∀ t u, Holds c t → Holds c u → t = u) ∧
      acquires Local.phase tr <+: enters Local.phase tr ∧
      (c.sh.next ≠ none → ∃ t q, Queue c (t :: q)) ∧
      ∀ t n, (c.loc t).pc = .waitSucc n → ∃ u, LinksBehind c t u := by
  obtain ⟨c, hc, hpc⟩ : ∃ c : Conf (Fin 2) Shared Local,
      exec prog always start handOff = some c ∧ (c.loc 0).pc = .waitSucc 0 := ⟨_, rfl, rfl⟩
  obtain ⟨tr, hrun⟩ := run_of_exec hc
  exact ⟨tr, c, hc, hpc, mcsLock_safe start_init hrun⟩

end McsIn
