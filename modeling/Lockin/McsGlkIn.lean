import Lockin.GlkSafe

/-! # The MCS lock of GLS

    `mcs_glk_in.c` and `mcs_glk_impl.h`: one `mcs_lock_t` and any number of threads, one
    load, store, swap or CAS per step.

    Every thread has an array of nodes of its own, and a table that says for which lock it
    uses each of them.  A thread looks its node up when it acquires the lock and again when
    it releases it; in between it may acquire and release other locks, which take and give
    back other entries (`Act.other`).  The queue is the one of `McsQueue`, and a thread is
    seen in it through its table (`mcsPc`).  No two threads ever use one node, because a
    thread uses only nodes of its own (`Slotted`). -/

namespace McsGlkIn

open Interleaving Glk

/-- Where a thread is: `queue` is the code from `local->next = NULL` to the end of
    `mcs_lock_lock` or `mcs_lock_trylock`, and the code after the first read of
    `local->next` in `mcs_lock_unlock`. -/
inductive Pc (Tid : Type) where
  | idle
  | tryTail
  | getLocal (try_ : Bool)
  | queue (pc : McsQueue.Pc (Node Tid))
  | critical
  | unlock
  deriving DecidableEq

/-- `head` of `__mcs_local`, whose length is `MCS_NESTED_LOCKS_MAX`, and the code. -/
structure Local (Tid : Type) where
  head : Heads
  pc : Pc Tid

/-- The calls a thread may make, and the calls on another lock, which take entry `i` of the
    table or give it back. -/
inductive Act where
  | lock
  | trylock
  | unlock
  | go
  | other (i : Fin nestedLocksMax) (used : Bool)

/-- `mcs_get_local_lock`. -/
def mcsGetLocalLock (head : Heads) : Option (Fin nestedLocksMax × Heads) :=
  glkMcsGetLocalLock head

/-- `mcs_get_local_unlock`. -/
def mcsGetLocalUnlock (head : Heads) : Option (Fin nestedLocksMax × Heads) :=
  glkMcsGetLocalUnlock head

/-- `mcs_lock_is_free`. -/
def mcsLockIsFree {N : Type} (sh : McsQueue.Shared N) : Bool := sh.tail.isNone

variable {Tid : Type}

/-- Where a thread is after a step in the queue. -/
def ofQueue : McsQueue.Pc (Node Tid) → Pc Tid
  | .idle => .idle
  | .held _ => .critical
  | pc => .queue pc

section

variable [DecidableEq Tid]

/-- A step in the queue. -/
def inQueue (t : Tid) (sh : McsQueue.Shared (Node Tid)) (head : Heads)
    (pc : McsQueue.Pc (Node Tid)) : Option (McsQueue.Shared (Node Tid) × Local Tid) :=
  (McsQueue.prog t sh pc .go).map fun r => (r.1, ⟨head, ofQueue r.2⟩)

/-- `mcs_lock_lock`, and `mcs_lock_trylock` between its two reads of the queue word. -/
def mcsLockLock (t : Tid) (sh : McsQueue.Shared (Node Tid)) (head : Heads) :
    Pc Tid → Option (McsQueue.Shared (Node Tid) × Local Tid)
  | .getLocal try_ =>
      (mcsGetLocalLock head).map fun (i, head') =>
        (sh, ⟨head', .queue (.clearNext try_ (t, i))⟩)
  | .queue pc => inQueue t sh head pc
  | _ => none

/-- `mcs_lock_trylock` at its two reads of the queue word. -/
def mcsLockTrylock (sh : McsQueue.Shared (Node Tid)) (head : Heads) :
    Pc Tid → Option (McsQueue.Shared (Node Tid) × Local Tid)
  | .tryTail => some (sh, ⟨head, if sh.tail = none then .getLocal true else .idle⟩)
  | .queue (.cas n) =>
      if sh.tail = none then some ({ sh with tail := some n }, ⟨head, .critical⟩)
      else (mcsGetLocalUnlock head).map fun (_, head') => (sh, ⟨head', .idle⟩)
  | _ => none

/-- `mcs_lock_unlock`: it looks its node up and reads `local->next`. -/
def mcsLockUnlock (t : Tid) (sh : McsQueue.Shared (Node Tid)) (head : Heads) :
    Pc Tid → Option (McsQueue.Shared (Node Tid) × Local Tid)
  | .unlock =>
      (mcsGetLocalUnlock head).bind fun (i, head') => inQueue t sh head' (.held (t, i))
  | .queue pc => inQueue t sh head pc
  | _ => none

/-- Start a call. -/
def call : Pc Tid → Act → Option (Pc Tid)
  | .idle, .lock => some (.getLocal false)
  | .idle, .trylock => some .tryTail
  | .critical, .unlock => some .unlock
  | _, _ => none

/-- The thread is in no call on this lock. -/
def outside : Pc Tid → Bool
  | .idle => true
  | .critical => true
  | _ => false

/-- One step of a thread. -/
def prog : Prog Tid (McsQueue.Shared (Node Tid)) (Local Tid) Act := fun t sh l a =>
  match a with
  | .go =>
      match l.pc with
      | .idle | .critical => none
      | .tryTail | .queue (.cas _) => mcsLockTrylock sh l.head l.pc
      | .getLocal _ | .queue (.clearNext _ _) | .queue (.swap _) | .queue (.setWaiting _ _)
      | .queue (.link _ _) | .queue (.spin _) => mcsLockLock t sh l.head l.pc
      | .unlock | .queue (.casTail _) | .queue (.waitNext _) | .queue (.clear _) =>
          mcsLockUnlock t sh l.head l.pc
      | .queue .idle | .queue (.held _) => none
  | .other i used =>
      if outside l.pc ∧ l.head i ≠ .this then
        some (sh, { l with head := Function.update l.head i (if used then .other else .null) })
      else none
  | a => (call l.pc a).map fun pc => (sh, { l with pc := pc })

end

/-- The lock is free and nobody is in a call.  The nodes are as earlier uses left them, and a
    thread may hold other locks. -/
structure Init (c : Conf Tid (McsQueue.Shared (Node Tid)) (Local Tid)) : Prop where
  tail : c.sh.tail = none
  idle : ∀ t, (c.loc t).pc = .idle
  heads : ∀ t i, (c.loc t).head i ≠ .this

/-! ## The queue -/

/-- What a thread does in the queue. -/
def mcsPc (t : Tid) (l : Local Tid) : McsQueue.Pc (Node Tid) :=
  match l.pc with
  | .queue pc => pc
  | .critical | .unlock => ownNode t l.head
  | .idle | .tryTail | .getLocal _ => .idle

/-- The lock as the queue protocol. -/
def mcsView (c : Conf Tid (McsQueue.Shared (Node Tid)) (Local Tid)) :
    Conf Tid (McsQueue.Shared (Node Tid)) (McsQueue.Pc (Node Tid)) :=
  c.view id mcsPc

/-- The places in the queue of a thread whose table names its node. -/
def named : McsQueue.Pc (Node Tid) → Bool
  | .clearNext _ _ | .swap _ | .cas _ | .setWaiting _ _ | .link _ _ | .spin _ => true
  | _ => false

/-- A thread in the queue uses a node of its own, and its table names that node from the
    start of the acquisition to the start of the release. -/
def Slotted (t : Tid) (l : Local Tid) : Prop :=
  match l.pc with
  | .queue pc =>
      (∀ n, pc.node = some n → n.1 = t) ∧
        if named pc then ∃ i, pc.node = some (t, i) ∧ ∀ j, l.head j = .this ↔ j = i
        else ∀ j, l.head j ≠ .this
  | .critical | .unlock => ∃ i, ∀ j, l.head j = .this ↔ j = i
  | .idle | .tryTail | .getLocal _ => ∀ j, l.head j ≠ .this

/-- The invariant. -/
structure Inv [DecidableEq Tid] (c : Conf Tid (McsQueue.Shared (Node Tid)) (Local Tid)) :
    Prop where
  mcs : Reach McsQueue.prog McsQueue.fresh McsQueue.Init (mcsView c)
  slotted : ∀ t, Slotted t (c.loc t)

/-- A thread uses only nodes of its own. -/
theorem Slotted.own {t : Tid} {l : Local Tid} (h : Slotted t l) {n : Node Tid}
    (hn : (mcsPc t l).node = some n) : n.1 = t := by
  have hown : (ownNode t l.head).node = some n → n.1 = t := by
    unfold ownNode
    split
    · intro hn
      rw [← Option.some.inj hn]
    · exact nofun
  obtain ⟨head, pc⟩ := l
  cases pc with
  | queue pc => exact h.1 n hn
  | critical | unlock => exact hown hn
  | idle | tryTail | getLocal => exact nomatch hn

/-- What the step of `t` to `r` does. -/
structure Stepped [DecidableEq Tid] (c : Conf Tid (McsQueue.Shared (Node Tid)) (Local Tid))
    (t : Tid) (r : McsQueue.Shared (Node Tid) × Local Tid) : Prop where
  mcs : Follows McsQueue.prog McsQueue.fresh (mcsView c) t (r.1, mcsPc t r.2)
  slotted : Slotted t r.2

section Inversion

variable [DecidableEq Tid] {c : Conf Tid (McsQueue.Shared (Node Tid)) (Local Tid)} {t : Tid}
  {r : McsQueue.Shared (Node Tid) × Local Tid} {head : Heads} {pc : Pc Tid}

/-- A step that the queue does not see. -/
theorem Stepped.quiet (hl : c.loc t = ⟨head, pc⟩) (hsh : r.1 = c.sh)
    (hpc : mcsPc t r.2 = mcsPc t ⟨head, pc⟩) (hslot : Slotted t r.2) : Stepped c t r := by
  refine ⟨Or.inl (Prod.ext hsh (hpc.trans ?_)), hslot⟩
  show mcsPc t ⟨head, pc⟩ = mcsPc t (c.loc t)
  rw [hl]

/-- A step of the queue. -/
theorem Stepped.queue (hl : c.loc t = ⟨head, pc⟩) (a : McsQueue.Act (Node Tid))
    (hok : McsQueue.fresh (mcsView c) t a)
    (hs : McsQueue.prog t c.sh (mcsPc t ⟨head, pc⟩) a = some (r.1, mcsPc t r.2))
    (hslot : Slotted t r.2) : Stepped c t r := by
  refine ⟨Or.inr ⟨a, hok, ?_⟩, hslot⟩
  show McsQueue.prog t c.sh (mcsPc t (c.loc t)) a = some (r.1, mcsPc t r.2)
  rw [hl]
  exact hs

omit [DecidableEq Tid] in
/-- A node of one's own is fresh. -/
theorem fresh_own (hslots : ∀ u, Slotted u (c.loc u)) (i : Fin nestedLocksMax) :
    ∀ u, u ≠ t → ((mcsView c).loc u).node ≠ some (t, i) :=
  fun u hut hn => hut ((hslots u).own hn).symm

theorem getLocal_stepped (hslots : ∀ u, Slotted u (c.loc u)) {try_ : Bool}
    (hl : c.loc t = ⟨head, .getLocal try_⟩)
    (hs : mcsLockLock t c.sh head (.getLocal try_) = some r) : Stepped c t r := by
  obtain ⟨⟨i, head'⟩, hget, rfl⟩ := Option.map_eq_some_iff.mp hs
  have hslot := hslots t
  rw [hl] at hslot
  have hthis := slotted_getLocal hslot hget
  have hslot' : Slotted t ⟨head', .queue (.clearNext try_ (t, i))⟩ :=
    ⟨fun n hn => by rw [← Option.some.inj hn], i, rfl, hthis⟩
  cases try_ with
  | false => exact .queue hl (.lock (t, i)) (fresh_own hslots i) rfl hslot'
  | true => exact .queue hl (.tryLock (t, i)) (fresh_own hslots i) rfl hslot'

/-- A step of `mcs_lock_lock` in the queue: the thread keeps its node, which its table
    names, until it has the lock. -/
theorem acquiring_stepped {p : McsQueue.Pc (Node Tid)} (hl : c.loc t = ⟨head, .queue p⟩)
    (hslot : Slotted t ⟨head, .queue p⟩) (hnamed : named p) (hcas : ∀ n, p ≠ .cas n)
    (hs : inQueue t c.sh head p = some r) : Stepped c t r := by
  obtain ⟨⟨sh, p'⟩, hp, rfl⟩ := Option.map_eq_some_iff.mp hs
  obtain ⟨-, hslot⟩ := hslot
  rw [if_pos hnamed] at hslot
  obtain ⟨i, hi, hthis⟩ := hslot
  -- in front of the lock, or with it
  have hnext : p' = .held (t, i) ∨ named p' ∧ p'.node = some (t, i) := by
    cases p with
    | clearNext try_ n =>
        cases hp
        cases try_ <;> exact Or.inr ⟨rfl, hi⟩
    | swap n =>
        cases hp
        obtain rfl : n = (t, i) := Option.some.inj hi
        cases c.sh.tail with
        | none => exact Or.inl rfl
        | some q => exact Or.inr ⟨rfl, rfl⟩
    | cas n => exact absurd rfl (hcas n)
    | setWaiting n q | link n q =>
        cases hp
        exact Or.inr ⟨rfl, hi⟩
    | spin n =>
        cases hp
        obtain rfl : n = (t, i) := Option.some.inj hi
        cases c.sh.waiting (t, i) with
        | true => exact Or.inr ⟨rfl, rfl⟩
        | false => exact Or.inl rfl
    | _ => exact nomatch hnamed
  rcases hnext with rfl | ⟨hnamed', hi'⟩
  · refine .queue hl .go trivial ?_ ⟨i, hthis⟩
    rw [show mcsPc t ⟨head, ofQueue (.held (t, i))⟩ = ownNode t head from rfl, ownNode_eq hthis]
    exact hp
  · have hof : ofQueue p' = .queue p' := by
      cases p' <;> first | rfl | exact nomatch hnamed'
    refine .queue hl .go trivial ?_ ?_
    · rw [hof]
      exact hp
    · rw [hof]
      refine ⟨fun n hn => ?_, ?_⟩
      · rw [hi'] at hn
        rw [← Option.some.inj hn]
      · rw [if_pos hnamed']
        exact ⟨i, hi', hthis⟩

/-- A step of `mcs_lock_unlock` in the queue: the table does not name the node any more. -/
theorem releasing_stepped {p : McsQueue.Pc (Node Tid)} {head' : Heads}
    (hl : c.loc t = ⟨head, pc⟩) (hpc : mcsPc t ⟨head, pc⟩ = p)
    (hfree : ∀ j, head' j ≠ .this) (hown : ∀ n, p.node = some n → n.1 = t)
    (hp : named p = false) (hs : inQueue t c.sh head' p = some r) : Stepped c t r := by
  obtain ⟨⟨sh, p'⟩, hstep, rfl⟩ := Option.map_eq_some_iff.mp hs
  have hnext : p' = .idle ∨
      ofQueue p' = .queue p' ∧ named p' = false ∧ ∀ n, p'.node = some n → n.1 = t := by
    cases p with
    | held n =>
        cases hstep
        cases c.sh.next n with
        | none => exact Or.inr ⟨rfl, rfl, hown⟩
        | some s => exact Or.inr ⟨rfl, rfl, nofun⟩
    | casTail n =>
        dsimp only [McsQueue.prog] at hstep
        split at hstep
        · cases hstep
          exact Or.inl rfl
        · cases hstep
          exact Or.inr ⟨rfl, rfl, hown⟩
    | waitNext n =>
        cases hstep
        cases c.sh.next n with
        | none => exact Or.inr ⟨rfl, rfl, hown⟩
        | some s => exact Or.inr ⟨rfl, rfl, nofun⟩
    | clear s =>
        cases hstep
        exact Or.inl rfl
    | idle => exact nomatch hstep
    | _ => exact nomatch hp
  rcases hnext with rfl | ⟨hof, hnamed, hown'⟩
  · refine .queue hl .go trivial ?_ hfree
    rw [hpc]
    exact hstep
  · refine .queue hl .go trivial ?_ ?_
    · rw [hpc, hof]
      exact hstep
    · rw [hof]
      refine ⟨hown', ?_⟩
      rw [hnamed]
      exact hfree

theorem mcsLockTrylock_stepped (hl : c.loc t = ⟨head, pc⟩) (hslot : Slotted t ⟨head, pc⟩)
    (hs : mcsLockTrylock c.sh head pc = some r) : Stepped c t r := by
  cases pc with
  | tryTail =>
      obtain rfl := Option.some.inj hs
      refine .quiet hl rfl ?_ ?_ <;> dsimp only <;> split
      · rfl
      · rfl
      · exact hslot
      · exact hslot
  | queue p =>
      cases p with
      | cas n =>
          obtain ⟨-, i, hi, hthis⟩ := hslot
          obtain rfl : n = (t, i) := Option.some.inj hi
          dsimp only [mcsLockTrylock] at hs
          split at hs <;> rename_i htail
          · obtain rfl := Option.some.inj hs
            refine .queue hl .go trivial ?_ ⟨i, hthis⟩
            rw [show mcsPc t ⟨head, .critical⟩ = ownNode t head from rfl, ownNode_eq hthis]
            exact if_pos htail
          · obtain ⟨⟨k, head'⟩, hget, rfl⟩ := Option.map_eq_some_iff.mp hs
            exact .queue hl .go trivial (if_neg htail) (slotted_ungetLocal hthis hget).2
      | _ => exact nomatch hs
  | _ => exact nomatch hs

/-- The invariant survives a call on another lock. -/
theorem other_stepped {i : Fin nestedLocksMax} {used : Bool} (hl : c.loc t = ⟨head, pc⟩)
    (hslot : Slotted t ⟨head, pc⟩) (hout : outside pc) (hi : head i ≠ .this) :
    Stepped c t
      (c.sh, ⟨Function.update head i (if used then .other else .null), pc⟩) := by
  have hthis : ∀ j, Function.update head i (if used then .other else .null) j = Head.this ↔
      head j = .this := by
    intro j
    rw [Function.update_apply]
    split
    · rename_i hj
      rw [hj]
      refine iff_of_false ?_ hi
      cases used <;> exact nofun
    · rfl
  cases pc with
  | idle => exact .quiet hl rfl rfl fun j hj => hslot j ((hthis j).mp hj)
  | critical =>
      obtain ⟨k, hk⟩ := hslot
      have hk' : ∀ j, _ ↔ j = k := fun j => (hthis j).trans (hk j)
      refine .quiet hl rfl ?_ ⟨k, hk'⟩
      show ownNode t _ = ownNode t head
      rw [ownNode_eq hk, ownNode_eq hk']
  | _ => exact nomatch hout

/-- **Inversion.** -/
theorem stepped_of_prog (hslots : ∀ u, Slotted u (c.loc u)) {a : Act}
    (hs : prog t c.sh (c.loc t) a = some r) : Stepped c t r := by
  have hslot := hslots t
  obtain ⟨head, pc, hl⟩ : ∃ head pc, c.loc t = ⟨head, pc⟩ := ⟨_, _, rfl⟩
  rw [hl] at hs hslot
  cases a with
  | lock | trylock | unlock =>
      obtain ⟨pc', hcall, rfl⟩ := Option.map_eq_some_iff.mp hs
      cases pc <;> simp only [call, Option.some.injEq, reduceCtorEq] at hcall
      subst hcall
      exact .quiet hl rfl rfl hslot
  | other i used =>
      obtain ⟨⟨hout, hi⟩, hr⟩ := Option.ite_none_right_eq_some.mp hs
      obtain rfl := Option.some.inj hr
      exact other_stepped hl hslot hout hi
  | go =>
      cases pc with
      | idle | critical => exact nomatch hs
      | tryTail => exact mcsLockTrylock_stepped hl hslot hs
      | getLocal try_ => exact getLocal_stepped hslots hl hs
      | unlock =>
          obtain ⟨i, hthis⟩ := hslot
          obtain ⟨⟨k, head'⟩, hget, hstep⟩ := Option.bind_eq_some_iff.mp hs
          obtain ⟨rfl, hfree⟩ := slotted_ungetLocal hthis hget
          refine releasing_stepped hl (ownNode_eq hthis) hfree (fun n hn => ?_) rfl hstep
          rw [← Option.some.inj hn]
      | queue p =>
          cases p with
          | idle | held => exact nomatch hs
          | cas n => exact mcsLockTrylock_stepped hl hslot hs
          | clearNext | swap | setWaiting | link | spin =>
              exact acquiring_stepped hl hslot rfl nofun hs
          | casTail | waitNext | clear =>
              exact releasing_stepped hl rfl hslot.2 hslot.1 rfl hs

end Inversion

/-! ## Mutual exclusion -/

section Runs

variable [DecidableEq Tid] {c : Conf Tid (McsQueue.Shared (Node Tid)) (Local Tid)} {t : Tid}

theorem Init.inv (h : Init c) : Inv c where
  mcs := by
    refine .start ⟨h.tail, fun t => ?_⟩
    show mcsPc t (c.loc t) = .idle
    rw [mcsPc, h.idle t]
  slotted := by
    intro t
    rw [Slotted, h.idle t]
    exact h.heads t

/-- **Step lemma.** -/
theorem Inv.step (h : Inv c) {a : Act} {r : McsQueue.Shared (Node Tid) × Local Tid}
    (hs : prog t c.sh (c.loc t) a = some r) : Inv (c.put t r) := by
  have hstep := stepped_of_prog h.slotted hs
  refine ⟨h.mcs.view_put hstep.mcs, fun u => ?_⟩
  by_cases hu : u = t
  · subst hu
    rw [put_loc_self]
    exact hstep.slotted
  · rw [put_loc_ne c r hu]
    exact h.slotted u

theorem inv_of_reach {ok : Conf Tid (McsQueue.Shared (Node Tid)) (Local Tid) → Tid → Act → Prop}
    (hc : Reach prog ok Init c) : Inv c :=
  hc.invariant (fun _ h0 => h0.inv) fun _ _ _ _ h _ hs => h.step hs

/-- Who is in the critical section is first in the queue. -/
theorem Inv.holding (h : Inv c) (ht : (c.loc t).pc = .critical) :
    ((mcsView c).loc t).phase = .holding := by
  have hslot := h.slotted t
  rw [Slotted, ht] at hslot
  obtain ⟨i, hi⟩ := hslot
  show (mcsPc t (c.loc t)).phase = .holding
  rw [mcsPc, ht]
  dsimp only
  rw [ownNode_eq hi]
  rfl

end Runs

end McsGlkIn
