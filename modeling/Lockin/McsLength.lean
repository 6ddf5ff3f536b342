import Mathlib.Logic.Relation
import Lockin.McsGlkIn
import Lockin.McsLinked

/-! # The length of an MCS queue

    `gls_adaptinve_mcs_lock_queue_length` of `glk.c` and `mcs_lock_queue_length` of
    `mcs_glk_in.c`, called by the holder of the lock while other threads queue up, one load
    per step.  The lock is the one of `McsGlkIn`; the one of `glk.c` is the same code, which
    counts its acquisitions on the way.

    Both functions start with `res = 1` and add 1 for every node that they come to.  The first
    starts behind the node of the caller, and returns the number of the linked threads.  The
    second starts with that node, and counts the caller twice. -/

namespace McsLength

open Interleaving Glk

/-- The two functions. -/
inductive Kind where
  | glk
  | mcs
  deriving DecidableEq

/-- Where a thread is in a call.  With `curr == NULL` the function returns `res`. -/
inductive Walk (Tid : Type) where
  | out
  | called (kind : Kind)
  | loop (kind : Kind) (curr : Option (Node Tid)) (res : Nat)
  deriving DecidableEq

/-- A thread at the lock, and in a call. -/
structure Local (Tid : Type) where
  lock : McsGlkIn.Local Tid
  walk : Walk Tid

inductive Act where
  | lock (a : McsGlkIn.Act)
  | queueLength (kind : Kind)
  | go

/-- `mcs_get_local_nochange`. -/
def mcsGetLocalNochange (head : Heads) : Option (Fin nestedLocksMax) :=
  glkMcsGetLocalNochange head

variable {Tid : Type}

/-- `gls_adaptinve_mcs_lock_queue_length` up to its loop. -/
def glsAdaptinveMcsLockQueueLength (t : Tid) (sh : McsQueue.Shared (Node Tid)) (head : Heads) :
    Option (Walk Tid) :=
  (glkMcsGetLocalNochange head).map fun i => .loop .glk (sh.next (t, i)) 1

/-- `mcs_lock_queue_length` up to its loop. -/
def mcsLockQueueLength (t : Tid) (head : Heads) : Option (Walk Tid) :=
  (mcsGetLocalNochange head).map fun i => .loop .mcs (some (t, i)) 1

/-- A step of a call: `while (curr != NULL) { curr = curr->next; res++; }`, and the return. -/
def Walk.go (t : Tid) (sh : McsQueue.Shared (Node Tid)) (head : Heads) :
    Walk Tid → Option (Walk Tid)
  | .out => none
  | .called .glk => glsAdaptinveMcsLockQueueLength t sh head
  | .called .mcs => mcsLockQueueLength t head
  | .loop kind (some n) res => some (.loop kind (sh.next n) (res + 1))
  | .loop _ none _ => some .out

section

variable [DecidableEq Tid]

/-- One step of a thread. -/
def prog : Prog Tid (McsQueue.Shared (Node Tid)) (Local Tid) Act := fun t sh l a =>
  match a with
  | .lock a =>
      if l.walk = .out then (McsGlkIn.prog t sh l.lock a).map fun r => (r.1, ⟨r.2, .out⟩)
      else none
  | .queueLength kind =>
      if l.walk = .out ∧ l.lock.pc = .critical then some (sh, { l with walk := .called kind })
      else none
  | .go => (l.walk.go t sh l.lock.head).map fun w => (sh, { l with walk := w })

end

/-- The lock by itself. -/
def lockView (c : Conf Tid (McsQueue.Shared (Node Tid)) (Local Tid)) :
    Conf Tid (McsQueue.Shared (Node Tid)) (McsGlkIn.Local Tid) :=
  c.view id fun _ l => l.lock

/-- The queue. -/
def queueView (c : Conf Tid (McsQueue.Shared (Node Tid)) (Local Tid)) :
    Conf Tid (McsQueue.Shared (Node Tid)) (McsQueue.Pc (Node Tid)) :=
  McsGlkIn.mcsView (lockView c)

/-- The lock is free and nobody is in a call. -/
structure Init (c : Conf Tid (McsQueue.Shared (Node Tid)) (Local Tid)) : Prop where
  lock : McsGlkIn.Init (lockView c)
  out : ∀ t, (c.loc t).walk = .out

/-! ## What the functions are for -/

/-- The number of the threads that are linked behind `t`, with `t`. -/
noncomputable def length (c : Conf Tid (McsQueue.Shared (Node Tid)) (Local Tid)) (t : Tid) : Nat :=
  (McsQueue.linked (queueView c) t).ncard

/-- A call of the holder `t` that began in `c₀`, with the steps that `t` has made in it and the
    numbers of linked threads that there have been during the call. -/
inductive InCall [DecidableEq Tid] (kind : Kind)
    (c₀ : Conf Tid (McsQueue.Shared (Node Tid)) (Local Tid)) (t : Tid) :
    Nat → List Nat → Conf Tid (McsQueue.Shared (Node Tid)) (Local Tid) → Prop where
  | start {r : McsQueue.Shared (Node Tid) × Local Tid} :
      prog t c₀.sh (c₀.loc t) (.queueLength kind) = some r →
      InCall kind c₀ t 0 [length (c₀.put t r) t] (c₀.put t r)
  | other {k : Nat} {ns : List Nat} {c : Conf Tid (McsQueue.Shared (Node Tid)) (Local Tid)}
      {u : Tid} {a : Act} {r : McsQueue.Shared (Node Tid) × Local Tid} :
      InCall kind c₀ t k ns c → u ≠ t → prog u c.sh (c.loc u) a = some r →
      InCall kind c₀ t k (length (c.put u r) t :: ns) (c.put u r)
  | own {k : Nat} {ns : List Nat} {c : Conf Tid (McsQueue.Shared (Node Tid)) (Local Tid)}
      {r : McsQueue.Shared (Node Tid) × Local Tid} :
      InCall kind c₀ t k ns c → prog t c.sh (c.loc t) .go = some r → r.2.walk ≠ .out →
      InCall kind c₀ t (k + 1) (length (c.put t r) t :: ns) (c.put t r)

/-- What the function adds to the number. -/
def Kind.extra : Kind → Nat
  | .glk => 0
  | .mcs => 1

/-- During a call: the thread is never stuck and has made a bounded number of steps, it is at
    the node of a thread that is still in line, and what it returns is `extra` more than the
    number of linked threads at some moment of the call. -/
structure Right [Fintype Tid] (kind : Kind) (t : Tid) (extra k : Nat) (ns : List Nat)
    (c : Conf Tid (McsQueue.Shared (Node Tid)) (Local Tid)) : Prop where
  goes : ((c.loc t).walk.go t c.sh (c.loc t).lock.head).isSome
  steps : k ≤ Fintype.card Tid + extra
  queued : ∀ m res, (c.loc t).walk = .loop kind (some m) res →
    ∃ u, ((queueView c).loc u).phase ≠ .out ∧ ((queueView c).loc u).node = some m
  returns : ∀ v, (c.loc t).walk = .loop kind none v → ∃ n ∈ ns, v = n + extra

/-- What a call returns while the queue does not change. -/
def Returns (kind : Kind) (c : Conf Tid (McsQueue.Shared (Node Tid)) (Local Tid)) (t : Tid)
    (v : Nat) : Prop :=
  Relation.ReflTransGen (fun w w' : Walk Tid => w.go t c.sh (c.loc t).lock.head = some w')
    (.called kind) (.loop kind none v)

/-! ## The holder in its queue -/

section Holder

variable [DecidableEq Tid] {d : Conf Tid (McsQueue.Shared (Node Tid)) (McsGlkIn.Local Tid)}
  {t u : Tid} {f : FifoLock.Fifo Tid} {i : Fin nestedLocksMax}

/-- The thread `t` holds the lock with its node `i`, and the queue is the line `f`. -/
structure Held (d : Conf Tid (McsQueue.Shared (Node Tid)) (McsGlkIn.Local Tid)) (t : Tid)
    (f : FifoLock.Fifo Tid) (i : Fin nestedLocksMax) : Prop where
  line : McsQueue.Line (McsGlkIn.mcsView d) f
  ok : f.Ok fun u => ((McsGlkIn.mcsView d).loc u).phase
  holding : ((McsGlkIn.mcsView d).loc t).phase = .holding
  node : ((McsGlkIn.mcsView d).loc t).node = some (t, i)
  entry : glkMcsGetLocalNochange (d.loc t).head = some i

/-- A thread in its critical section has a node in the queue. -/
theorem exists_held (h : McsGlkIn.Inv d) (ht : (d.loc t).pc = .critical) : ∃ f i, Held d t f i := by
  obtain ⟨f, hline, hok⟩ := McsQueue.sim.reach h.mcs
  have hslot := h.slotted t
  rw [McsGlkIn.Slotted, ht] at hslot
  obtain ⟨i, hi⟩ := hslot
  refine ⟨f, i, hline, hok, h.holding ht, ?_, firstHead_unique hi⟩
  show (McsGlkIn.mcsPc t (d.loc t)).node = some (t, i)
  rw [McsGlkIn.mcsPc, ht]
  dsimp only
  rw [ownNode_eq hi]
  rfl

omit [DecidableEq Tid] in
/-- It is the first in line. -/
theorem Held.turn (h : Held d t f i) : f.At f.rel t := (h.ok.holding_at h.holding).1

/-- What another thread does leaves the way of the holder as it is. -/
theorem Held.other (h : Held d t f i) (hinv : McsGlkIn.Inv d) {a : McsGlkIn.Act}
    {r : McsQueue.Shared (Node Tid) × McsGlkIn.Local Tid}
    (hs : McsGlkIn.prog u d.sh (d.loc u) a = some r) {j : Nat} {m : Node Tid}
    (hj : d.sh.follow (t, i) j = some m) : r.1.follow (t, i) j = some m := by
  rcases (McsGlkIn.stepped_of_prog hinv.slotted hs).mcs with heq | ⟨b, -, hstep⟩
  · rw [show r.1 = d.sh from congrArg Prod.fst heq]
    exact hj
  · exact h.line.follow_step h.ok hstep h.turn h.node hj

end Holder

/-! ## A call -/

section Calls

variable {t : Tid} {sh : McsQueue.Shared (Node Tid)} {head : Heads} {w w' : Walk Tid}
  {kind : Kind} {n : Node Tid} {L : Nat → Prop}

/-- Where a call of the thread with the node `n` is: at the node after `j` links, which it has
    counted, or at the end, with a number that satisfies `L`. -/
def Walk.Fine (sh : McsQueue.Shared (Node Tid)) (n : Node Tid) (kind : Kind) (L : Nat → Prop) :
    Walk Tid → Prop
  | .out => False
  | .called k => k = kind
  | .loop k (some m) res => k = kind ∧ ∃ j, sh.follow n j = some m ∧ res = j + kind.extra
  | .loop k none res => k = kind ∧ ∃ len, L len ∧ res = len + kind.extra

/-- The steps that the thread has made. -/
def Walk.made : Walk Tid → Nat
  | .out | .called _ => 0
  | .loop _ _ res => res

theorem Walk.Fine.mono {sh' : McsQueue.Shared (Node Tid)} {L' : Nat → Prop}
    (h : w.Fine sh n kind L)
    (hsh : ∀ j m, sh.follow n j = some m → sh'.follow n j = some m) (hL : ∀ len, L len → L' len) :
    w.Fine sh' n kind L' := by
  match w, h with
  | .called k, h => exact h
  | .loop k (some m) res, ⟨hk, j, hj, hres⟩ => exact ⟨hk, j, hsh j m hj, hres⟩
  | .loop k none res, ⟨hk, len, hlen, hres⟩ => exact ⟨hk, len, hL len hlen, hres⟩

/-- The test for the end of the queue. -/
theorem Walk.Fine.next (hend : ∀ j m, sh.follow n j = some m → sh.next m = none → L (j + 1))
    {j : Nat} {m : Node Tid} (hj : sh.follow n j = some m) {res : Nat}
    (hres : res = j + 1 + kind.extra) : (Walk.loop kind (sh.next m) res).Fine sh n kind L := by
  cases hm : sh.next m with
  | none => exact ⟨rfl, j + 1, hend j m hj hm, hres⟩
  | some x => exact ⟨rfl, j + 1, McsQueue.follow_succ.mpr ⟨m, hj, hm⟩, hres⟩

/-- **Step lemma.** -/
theorem Walk.Fine.go {i : Fin nestedLocksMax} (h : w.Fine sh (t, i) kind L)
    (hentry : glkMcsGetLocalNochange head = some i)
    (hend : ∀ j m, sh.follow (t, i) j = some m → sh.next m = none → L (j + 1))
    (hs : w.go t sh head = some w') (hout : w' ≠ .out) :
    w'.Fine sh (t, i) kind L ∧ w'.made = w.made + 1 := by
  match w, h with
  | .called .glk, h =>
      obtain ⟨k, hk, rfl⟩ := Option.map_eq_some_iff.mp hs
      obtain rfl := Option.some.inj (hentry.symm.trans hk)
      obtain rfl : Kind.glk = kind := h
      exact ⟨.next hend (j := 0) rfl rfl, rfl⟩
  | .called .mcs, h =>
      obtain ⟨k, hk, rfl⟩ := Option.map_eq_some_iff.mp hs
      obtain rfl := Option.some.inj (hentry.symm.trans hk)
      obtain rfl : Kind.mcs = kind := h
      exact ⟨⟨rfl, 0, rfl, rfl⟩, rfl⟩
  | .loop k (some m) res, ⟨hk, j, hj, hres⟩ =>
      obtain rfl := Option.some.inj hs
      obtain rfl : k = kind := hk
      exact ⟨.next hend hj (by omega), rfl⟩
  | .loop k none res, h =>
      obtain rfl := Option.some.inj hs
      exact absurd rfl hout

/-- A call is never stuck. -/
theorem Walk.Fine.goes {i : Fin nestedLocksMax} (h : w.Fine sh n kind L)
    (hentry : glkMcsGetLocalNochange head = some i) : (w.go t sh head).isSome := by
  match w, h with
  | .called .glk, _ | .called .mcs, _ =>
      show ((glkMcsGetLocalNochange head).map _).isSome
      rw [Option.isSome_map, hentry]
      rfl
  | .loop k (some m) res, _ | .loop k none res, _ => rfl

end Calls

/-! ## Runs -/

section Runs

variable [DecidableEq Tid] {c c₀ : Conf Tid (McsQueue.Shared (Node Tid)) (Local Tid)} {t u : Tid}
  {kind : Kind}

/-- Who is in a call holds the lock. -/
structure Inv (c : Conf Tid (McsQueue.Shared (Node Tid)) (Local Tid)) : Prop where
  lock : McsGlkIn.Inv (lockView c)
  critical : ∀ t, (c.loc t).walk ≠ .out → (c.loc t).lock.pc = .critical

/-- Before the first call. -/
theorem Init.inv (h : Init c) : Inv c :=
  ⟨h.lock.inv, fun t hout => absurd (h.out t) hout⟩

/-- A step of a call leaves the lock alone. -/
theorem lockView_walk (w : Walk Tid) :
    lockView (c.put t (c.sh, { c.loc t with walk := w })) = lockView c := by
  unfold lockView
  rw [view_put]
  exact put_self ..

/-- What a step is: one of the lock by a thread outside, or one of a call of the holder. -/
theorem prog_cases {a : Act} {r : McsQueue.Shared (Node Tid) × Local Tid}
    (hs : prog t c.sh (c.loc t) a = some r) :
    (∃ b r', (c.loc t).walk = .out ∧ McsGlkIn.prog t c.sh (c.loc t).lock b = some r' ∧
      r = (r'.1, ⟨r'.2, .out⟩)) ∨
    (∃ kind, a = .queueLength kind ∧ (c.loc t).walk = .out ∧ (c.loc t).lock.pc = .critical ∧
      r = (c.sh, { c.loc t with walk := .called kind })) ∨
    (∃ w, a = .go ∧ (c.loc t).walk.go t c.sh (c.loc t).lock.head = some w ∧
      r = (c.sh, { c.loc t with walk := w })) := by
  cases a with
  | lock b =>
      obtain ⟨hout, hs⟩ := Option.ite_none_right_eq_some.mp hs
      obtain ⟨r', hr', rfl⟩ := Option.map_eq_some_iff.mp hs
      exact Or.inl ⟨b, r', hout, hr', rfl⟩
  | queueLength kind =>
      obtain ⟨⟨hout, hcrit⟩, hs⟩ := Option.ite_none_right_eq_some.mp hs
      exact Or.inr (Or.inl ⟨kind, rfl, hout, hcrit, (Option.some.inj hs).symm⟩)
  | go =>
      obtain ⟨w, hw, rfl⟩ := Option.map_eq_some_iff.mp hs
      exact Or.inr (Or.inr ⟨w, rfl, hw, rfl⟩)

/-- **Step lemma.** -/
theorem Inv.step (h : Inv c) {a : Act} {r : McsQueue.Shared (Node Tid) × Local Tid}
    (hs : prog t c.sh (c.loc t) a = some r) : Inv (c.put t r) := by
  have hother : (r.2.walk ≠ .out → r.2.lock.pc = .critical) → ∀ v, ((c.put t r).loc v).walk ≠ .out →
      ((c.put t r).loc v).lock.pc = .critical := by
    intro hself v hv
    by_cases hvt : v = t
    · subst hvt
      rw [put_loc_self] at hv ⊢
      exact hself hv
    · rw [put_loc_ne c r hvt] at hv ⊢
      exact h.critical v hv
  obtain ⟨b, r', -, hr', rfl⟩ | ⟨kind, -, -, hcrit, rfl⟩ | ⟨w, -, hw, rfl⟩ := prog_cases hs
  · refine ⟨?_, hother fun hout => absurd rfl hout⟩
    unfold lockView
    rw [view_put]
    exact h.lock.step hr'
  · refine ⟨?_, hother fun _ => hcrit⟩
    rw [lockView_walk]
    exact h.lock
  · refine ⟨?_, hother fun _ => h.critical t ?_⟩
    · rw [lockView_walk]
      exact h.lock
    · intro hout
      rw [hout] at hw
      exact nomatch hw

/-- **Run lemma.** -/
theorem inv_of_reach (hc : Reach prog always Init c) : Inv c :=
  hc.invariant (I := Inv) (fun _ h0 => h0.inv) fun _ _ _ _ h _ hs => h.step hs

/-- The end of the queue tells its length. -/
theorem Held.length_eq {f : FifoLock.Fifo Tid} {i : Fin nestedLocksMax}
    (h : Held (lockView c) t f i) {j : Nat} {m : Node Tid} (hj : c.sh.follow (t, i) j = some m)
    (hend : c.sh.next m = none) : length c t = j + 1 :=
  h.line.ncard_linked h.ok h.turn h.node hj hend

omit [DecidableEq Tid] in
/-- A count does not exceed the number of threads. -/
theorem length_le [Fintype Tid] : length c t ≤ Fintype.card Tid := by
  rw [← Nat.card_eq_fintype_card]
  exact Set.ncard_le_card _

/-- A step of the walk leaves the queue alone. -/
theorem length_walk (w : Walk Tid) :
    length (c.put u (c.sh, { c.loc u with walk := w })) t = length c t := by
  unfold length queueView
  rw [lockView_walk]

/-- What is known during a call. -/
structure Counting [Fintype Tid] (kind : Kind) (t : Tid) (k : Nat) (ns : List Nat)
    (c : Conf Tid (McsQueue.Shared (Node Tid)) (Local Tid)) : Prop where
  inv : Inv c
  made : k = (c.loc t).walk.made
  fine : ∃ f i, Held (lockView c) t f i ∧ (c.loc t).walk.Fine c.sh (t, i) kind (· ∈ ns)
  bound : ∀ n ∈ ns, n ≤ Fintype.card Tid

namespace Counting

variable [Fintype Tid] {k : Nat} {ns : List Nat}

/-- A call begins. -/
theorem start (hinv : Inv c) {r : McsQueue.Shared (Node Tid) × Local Tid}
    (hs : prog t c.sh (c.loc t) (.queueLength kind) = some r) :
    Counting kind t 0 [length (c.put t r) t] (c.put t r) := by
  have hinv' := hinv.step hs
  have hwalk : r.2.walk = .called kind := by
    obtain ⟨-, hr⟩ := Option.ite_none_right_eq_some.mp hs
    rw [← Option.some.inj hr]
  have hself : ((c.put t r).loc t).walk = .called kind := by
    rw [put_loc_self]
    exact hwalk
  obtain ⟨f, i, hheld⟩ := exists_held hinv'.lock (hinv'.critical t (by rw [hself]; exact nofun))
  refine ⟨hinv', by rw [hself]; rfl, ⟨f, i, hheld, by rw [hself]; exact rfl⟩, ?_⟩
  intro n hn
  rw [List.mem_singleton.mp hn]
  exact length_le

theorem inside (h : Counting kind t k ns c) : (c.loc t).walk ≠ .out := by
  intro hout
  obtain ⟨f, i, -, hfine⟩ := h.fine
  rw [hout] at hfine
  exact hfine

/-- Another thread takes a step. -/
theorem other (h : Counting kind t k ns c) (hut : u ≠ t) {a : Act}
    {r : McsQueue.Shared (Node Tid) × Local Tid} (hs : prog u c.sh (c.loc u) a = some r) :
    Counting kind t k (length (c.put u r) t :: ns) (c.put u r) := by
  have hinv' := h.inv.step hs
  have hloc : (c.put u r).loc t = c.loc t := put_loc_ne c r hut.symm
  obtain ⟨f, i, hheld, hfine⟩ := h.fine
  obtain ⟨f', i', hheld'⟩ := exists_held hinv'.lock (by
    show ((c.put u r).loc t).lock.pc = .critical
    rw [hloc]
    exact h.inv.critical t h.inside)
  have hi : i' = i := by
    have hentry : glkMcsGetLocalNochange ((c.put u r).loc t).lock.head = some i' := hheld'.entry
    rw [hloc] at hentry
    exact Option.some.inj (hentry.symm.trans hheld.entry)
  -- the way of the holder is still there
  have hway : ∀ j m, c.sh.follow (t, i) j = some m → r.1.follow (t, i) j = some m := by
    intro j m hj
    obtain ⟨b, r', -, hr', rfl⟩ | ⟨-, -, -, -, rfl⟩ | ⟨-, -, -, rfl⟩ := prog_cases hs
    · exact hheld.other h.inv.lock hr' hj
    · exact hj
    · exact hj
  refine ⟨hinv', by rw [hloc]; exact h.made, ⟨f', i', hheld', ?_⟩, ?_⟩
  · rw [hi, hloc]
    exact hfine.mono hway fun _ hmem => List.mem_cons_of_mem _ hmem
  · intro n hn
    obtain rfl | hmem := List.mem_cons.mp hn
    · exact length_le
    · exact h.bound n hmem

/-- The thread goes on with its call. -/
theorem own (h : Counting kind t k ns c) {r : McsQueue.Shared (Node Tid) × Local Tid}
    (hs : prog t c.sh (c.loc t) .go = some r) (hout : r.2.walk ≠ .out) :
    Counting kind t (k + 1) (length (c.put t r) t :: ns) (c.put t r) := by
  have hinv' := h.inv.step hs
  obtain ⟨w, hw, rfl⟩ := Option.map_eq_some_iff.mp hs
  obtain ⟨f, i, hheld, hfine⟩ := h.fine
  have hself : ((c.put t (c.sh, { c.loc t with walk := w })).loc t).walk = w := by
    rw [put_loc_self]
  have hmono : (c.loc t).walk.Fine c.sh (t, i) kind (· ∈ length c t :: ns) :=
    hfine.mono (fun _ _ hj => hj) fun _ hmem => List.mem_cons_of_mem (length c t) hmem
  obtain ⟨hfine', hmade⟩ := hmono.go hheld.entry (fun j m hj hend => by
    rw [hheld.length_eq hj hend]
    exact List.mem_cons_self) hw hout
  refine ⟨hinv', ?_, ⟨f, i, (lockView_walk w).symm ▸ hheld, ?_⟩, ?_⟩
  · rw [hself, hmade, h.made]
  · rw [hself, length_walk]
    exact hfine'
  · intro n hn
    obtain rfl | hmem := List.mem_cons.mp hn
    · exact length_le
    · exact h.bound n hmem

theorem right (h : Counting kind t k ns c) : Right kind t kind.extra k ns c := by
  obtain ⟨f, i, hheld, hfine⟩ := h.fine
  refine ⟨hfine.goes hheld.entry, ?_, ?_, ?_⟩
  · rw [h.made]
    cases hw : (c.loc t).walk with
    | out | called k' => exact Nat.zero_le _
    | loop k' curr res =>
        rw [hw] at hfine
        show res ≤ _
        cases curr with
        | some m =>
            obtain ⟨-, j, hj, hres⟩ := hfine
            have := hheld.line.follow_lt_card hheld.ok hheld.turn hheld.node hj
            omega
        | none =>
            obtain ⟨-, len, hlen, hres⟩ := hfine
            have := h.bound len hlen
            omega
  · intro m res hw
    rw [hw] at hfine
    obtain ⟨-, j, hj, -⟩ := hfine
    obtain ⟨u, hu, hnode⟩ := hheld.line.follow_place hheld.turn hheld.node hj
    exact ⟨u, (hheld.ok.place u).mpr ⟨_, hu⟩, hnode⟩
  · intro v hw
    rw [hw] at hfine
    obtain ⟨-, len, hlen, hres⟩ := hfine
    exact ⟨len, hlen, hres⟩

end Counting

/-- **Run lemma.** What a call has counted so far. -/
theorem counting_of_inCall [Fintype Tid] (hc : Reach prog always Init c₀) {k : Nat} {ns : List Nat}
    (h : InCall kind c₀ t k ns c) : Counting kind t k ns c := by
  induction h with
  | start hs => exact .start (inv_of_reach hc) hs
  | other _ hut hs ih => exact ih.other hut hs
  | own _ hs hout ih => exact ih.own hs hout

/-- While the holder stays, no thread leaves the linked part of its queue. -/
theorem length_le_put [Fintype Tid] (h : Inv c) (ht : (c.loc t).lock.pc = .critical)
    (hut : u ≠ t) {a : Act} {r : McsQueue.Shared (Node Tid) × Local Tid}
    (hs : prog u c.sh (c.loc u) a = some r) : length c t ≤ length (c.put u r) t := by
  obtain ⟨f, i, hheld⟩ := exists_held h.lock ht
  obtain ⟨b, r', -, hr', rfl⟩ | ⟨kind, -, -, -, rfl⟩ | ⟨w, -, -, rfl⟩ := prog_cases hs
  · have hput : queueView (c.put u (r'.1, ⟨r'.2, .out⟩))
        = (queueView c).put u (r'.1, McsGlkIn.mcsPc u r'.2) := by
      unfold queueView lockView McsGlkIn.mcsView
      rw [view_put, view_put]
      rfl
    unfold length
    rw [hput]
    rcases (McsGlkIn.stepped_of_prog h.lock.slotted hr').mcs with heq | ⟨b, -, hstep⟩
    · rw [show (r'.1, McsGlkIn.mcsPc u r'.2) = ((queueView c).sh, (queueView c).loc u) from heq,
        put_self]
    · exact Set.ncard_le_ncard (hheld.line.linked_subset hheld.ok hheld.holding hut hstep)
        (Set.toFinite _)
  · exact (length_walk _).ge
  · exact (length_walk w).ge

/-- So a call returns a number between those at its two ends. -/
theorem between_of_inCall [Fintype Tid] (hc : Reach prog always Init c₀) {k : Nat} {ns : List Nat}
    (h : InCall kind c₀ t k ns c) :
    length c₀ t ≤ length c t ∧ ∀ n ∈ ns, length c₀ t ≤ n ∧ n ≤ length c t := by
  induction h with
  | start hs =>
      obtain ⟨-, hr⟩ := Option.ite_none_right_eq_some.mp hs
      obtain rfl := Option.some.inj hr
      rw [length_walk]
      refine ⟨le_rfl, fun n hn => ?_⟩
      rw [List.mem_singleton.mp hn]
      exact ⟨le_rfl, le_rfl⟩
  | @other k ns c u a r hcall hut hs ih =>
      obtain ⟨hstart, hns⟩ := ih
      have hknown := counting_of_inCall hc hcall
      have hgrows : length c t ≤ length (c.put u r) t :=
        length_le_put hknown.inv (hknown.inv.critical t hknown.inside) hut hs
      refine ⟨hstart.trans hgrows, fun n hn => ?_⟩
      obtain rfl | hmem := List.mem_cons.mp hn
      · exact ⟨hstart.trans hgrows, le_rfl⟩
      · exact ⟨(hns n hmem).1, (hns n hmem).2.trans hgrows⟩
  | own _ hs _ ih =>
      obtain ⟨hstart, hns⟩ := ih
      obtain ⟨w, hw, rfl⟩ := Option.map_eq_some_iff.mp hs
      rw [length_walk]
      refine ⟨hstart, fun n hn => ?_⟩
      obtain rfl | hmem := List.mem_cons.mp hn
      · exact ⟨hstart, le_rfl⟩
      · exact hns n hmem

/-! ## On one queue -/

omit [DecidableEq Tid] in
/-- A call comes to the node after `j` links, and looks behind it. -/
theorem Held.walks {f : FifoLock.Fifo Tid} {i : Fin nestedLocksMax}
    (h : Held (lockView c) t f i) {j : Nat} {m : Node Tid} (hj : c.sh.follow (t, i) j = some m) :
    Relation.ReflTransGen (fun w w' : Walk Tid => w.go t c.sh (c.loc t).lock.head = some w')
      (.called kind) (.loop kind (c.sh.next m) (j + 1 + kind.extra)) := by
  induction j generalizing m with
  | zero =>
      obtain rfl := Option.some.inj hj
      have hentry : glkMcsGetLocalNochange (c.loc t).lock.head = some i := h.entry
      cases kind with
      | glk =>
          refine .single ?_
          show (glkMcsGetLocalNochange _).map _ = _
          rw [hentry]
          rfl
      | mcs =>
          refine .tail (.single (b := .loop .mcs (some (t, i)) 1) ?_) rfl
          show (glkMcsGetLocalNochange _).map _ = _
          rw [hentry]
          rfl
  | succ j ih =>
      obtain ⟨x, hx, hnext⟩ := McsQueue.follow_succ.mp hj
      have hwalk := ih hx
      rw [hnext] at hwalk
      refine hwalk.tail ?_
      show some _ = some _
      rw [Nat.add_right_comm (j + 1)]

/-- **What a call returns** while the queue does not change. -/
theorem returns_iff [Fintype Tid] (hinv : Inv c) (hcrit : (c.loc t).lock.pc = .critical) {v : Nat} :
    Returns kind c t v ↔ v = length c t + kind.extra := by
  obtain ⟨f, i, hheld⟩ := exists_held hinv.lock hcrit
  constructor
  · intro hret
    have hfine : ∀ w, Relation.ReflTransGen
        (fun w w' : Walk Tid => w.go t c.sh (c.loc t).lock.head = some w') (.called kind) w →
        w = .out ∨ w.Fine c.sh (t, i) kind (· = length c t) := by
      intro w hw
      induction hw with
      | refl => exact Or.inr rfl
      | tail _ hs ih =>
          rename_i w₁ w₂ _
          obtain rfl | hfine := ih
          · exact nomatch hs
          · by_cases hout : w₂ = .out
            · exact Or.inl hout
            · exact Or.inr (hfine.go hheld.entry
                (fun j m hj hend => (hheld.length_eq hj hend).symm) hs hout).1
    obtain hout | ⟨-, len, rfl, hv⟩ := hfine _ hret
    · exact nomatch hout
    · exact hv
  · rintro rfl
    obtain ⟨j, m, hj, hend⟩ := hheld.line.exists_end hheld.ok hheld.turn hheld.node
    rw [Returns, hheld.length_eq hj hend, ← show c.sh.next m = none from hend]
    exact hheld.walks hj

/-- **The two lengths of a queue**, in every state that is reached, for its holder `t`.  A call
    of either function comes to an end on nodes that are in line, while other threads queue up.
    `gls_adaptinve_mcs_lock_queue_length` returns the number of linked threads at some moment of
    the call.  On one queue, `mcs_lock_queue_length` always returns one more. -/
theorem queueLength_counts [Fintype Tid] (hc : Reach prog always Init c)
    (hcrit : (c.loc t).lock.pc = .critical) :
    (∀ kind k ns d, InCall kind c t k ns d → Right kind t kind.extra k ns d) ∧
    (∀ v, Returns .glk c t v ↔ v = length c t) ∧
    (∀ v, Returns .mcs c t v ↔ v = length c t + 1) ∧
    ¬ ∃ v, Returns .glk c t v ∧ Returns .mcs c t v := by
  have hinv := inv_of_reach hc
  refine ⟨fun _ _ _ _ hcall => (counting_of_inCall hc hcall).right,
    fun _ => returns_iff hinv hcrit, fun _ => returns_iff hinv hcrit, ?_⟩
  rintro ⟨v, hglk, hmcs⟩
  have hv := (returns_iff hinv hcrit).mp hglk
  have hv' := (returns_iff hinv hcrit).mp hmcs
  rw [hv] at hv'
  exact Nat.succ_ne_self _ hv'.symm

end Runs

/-- A free lock and two threads. -/
def start : Conf (Fin 2) (McsQueue.Shared (Node (Fin 2))) (Local (Fin 2)) :=
  ⟨⟨none, fun _ => none, fun _ => false⟩, fun _ => ⟨⟨fun _ => .null, .idle⟩, .out⟩⟩

theorem start_init : Init start := ⟨⟨rfl, fun _ => rfl, fun _ _ => nofun⟩, fun _ => rfl⟩

/-- A thread calls `mcs_lock_lock` and takes `n` steps in it. -/
def locks (t : Fin 2) (n : Nat) : List (Fin 2 × Act) :=
  (t, .lock .lock) :: List.replicate n (t, .lock .go)

/-- A step of a call of thread 0. -/
def step (c : Conf (Fin 2) (McsQueue.Shared (Node (Fin 2))) (Local (Fin 2)))
    (w : Option (Walk (Fin 2))) : Option (Walk (Fin 2)) :=
  w.bind fun w => w.go 0 c.sh (c.loc 0).lock.head

/-- One thread holds the lock, and the other one is linked behind it. -/
theorem queueLength_counts_two : ∃ c, Reach prog always Init c ∧ Returns .glk c (0 : Fin 2) 2 ∧
    Returns .mcs c (0 : Fin 2) 3 := by
  have hrun : (exec prog always start (locks 0 3 ++ locks 1 5)).map
      (fun c => (decide ((c.loc 0).lock.pc = .critical),
        step c (step c (some (.called .glk))))) =
      some (true, some (.loop .glk none 2)) := by
    decide +kernel
  obtain ⟨c, hx, hP⟩ := Option.map_eq_some_iff.mp hrun
  obtain ⟨hcrit, hsteps⟩ := Prod.mk.inj hP
  have hc := reach_of_exec start_init hx
  obtain ⟨w, hw, hw'⟩ := Option.bind_eq_some_iff.mp hsteps
  have hglk : Returns .glk c 0 2 := .tail (.single hw) hw'
  obtain ⟨-, hlen, hmcs, -⟩ := queueLength_counts hc (of_decide_eq_true hcrit)
  refine ⟨c, hc, hglk, (hmcs 3).mpr ?_⟩
  rw [← (hlen 2).mp hglk]

/-- With one thread at the lock the lengths are 1 and 2. -/
theorem queueLength_differs :
    ¬ ∀ (c : Conf (Fin 2) (McsQueue.Shared (Node (Fin 2))) (Local (Fin 2))) (t : Fin 2),
      Reach prog always Init c → (c.loc t).lock.pc = .critical →
      ∃ v, Returns .glk c t v ∧ Returns .mcs c t v := by
  intro hclaim
  have hrun : (exec prog always start (locks 0 3)).map
      (fun c => decide ((c.loc 0).lock.pc = .critical)) = some true := by
    decide +kernel
  obtain ⟨c, hx, hcrit⟩ := Option.map_eq_some_iff.mp hrun
  have hc := reach_of_exec start_init hx
  obtain ⟨v, hglk, hmcs⟩ := hclaim c 0 hc (of_decide_eq_true hcrit)
  have hv := (returns_iff (inv_of_reach hc) (of_decide_eq_true hcrit)).mp hglk
  have hv' := (returns_iff (inv_of_reach hc) (of_decide_eq_true hcrit)).mp hmcs
  rw [hv] at hv'
  exact Nat.succ_ne_self _ hv'.symm

end McsLength
