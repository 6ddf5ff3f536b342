import Lockin.FifoLock

/-! # The CLH lock of `clh_in.c`

    One `clh_lock_t` used by any number of threads through `clh_lock_lock` and
    `clh_lock_unlock`, one load, store or swap per step.

    A thread waits on the node of its PREDECESSOR.  On unlock it gives its own node
    away to its successor and adopts its predecessor's, so nodes migrate between
    threads for ever.  The invariant `Line` keeps the chain of nodes as a ghost
    `M`: place `k` waits on `M k` and has brought `M (k + 1)`.  All nodes of the
    chain and all nodes that threads outside the line have for themselves are
    different, which is the exclusive ownership that recycling rests on
    (`clhLock_safe`). -/

namespace ClhIn

open Interleaving FifoLock

variable {Tid : Type}

/-- `CLH_MAX_THR`: the length of the array `local`. -/
def clhMaxThr : Nat := 48

/-- The address of a queue node. -/
abbrev Addr := Nat

/-- One `clh_lock_t`, the counter `__clh_ids`, and the queue nodes.  Node memory
    comes from `malloc`, so the fields of a node that nobody wrote are arbitrary. -/
structure Shared where
  head : Option Addr
  local_ : Nat → Option Addr
  clhIds : Nat
  nodeLocked : Addr → UInt64
  nodePred : Addr → Option Addr
  /-- The address that the next `malloc` returns. -/
  brk : Addr

/-- Which function a call of `clh_get_local` returns to. -/
inductive Caller where
  | lock
  | unlock
  deriving DecidableEq

/-- Where a thread is.  `node` is the variable `local` of the source, `pred` the
    variable `pred`. -/
inductive Pc where
  | idle
  | getId (k : Caller)
  | getLocal (k : Caller)
  | malloc (k : Caller)
  | retLocal (k : Caller)
  | setLocked (node : Addr)
  | swap (node : Addr)
  | mallocPred (node : Addr)
  | setFirstPred (node pred : Addr)
  | setPred (node pred : Addr)
  | spin (pred : Addr)
  | critical
  | readPred (node : Addr)
  | clearLocked (node : Addr) (pred : Option Addr)
  | setLocal (pred : Option Addr)
  deriving DecidableEq

/-- A thread: `__clh_id` (`none` for the initial `-1`) and where it is. -/
structure Local where
  clhId : Option Nat
  pc : Pc

/-- The calls a thread may make; everything else is determined. -/
inductive Act where
  | lock
  | trylock
  | unlock
  | go

/-- `clh_get_local`. -/
def clhGetLocal (sh : Shared) (id : Option Nat) : Pc → Option (Shared × Local)
  | .getId k =>
      match id with
      | some i => some (sh, ⟨some i, .getLocal k⟩)
      | none =>
          -- `assert(__clh_id < CLH_MAX_THR)` ends the program otherwise
          if sh.clhIds < clhMaxThr then
            some ({ sh with clhIds := sh.clhIds + 1 }, ⟨some sh.clhIds, .getLocal k⟩)
          else none
  | .getLocal k =>
      id.map fun i =>
        (sh, ⟨some i, if (sh.local_ i).isNone then .malloc k else .retLocal k⟩)
  | .malloc k =>
      id.map fun i =>
        ({ sh with
            local_ := Function.update sh.local_ i (some sh.brk)
            brk := sh.brk + 1 }, ⟨some i, .retLocal k⟩)
  | .retLocal k =>
      id.bind fun i => (sh.local_ i).map fun node =>
        (sh, ⟨some i, match k with
          | .lock => .setLocked node
          | .unlock => .readPred node⟩)
  | _ => none

/-- `clh_lock_lock`. -/
def clhLockLock (sh : Shared) (id : Option Nat) : Pc → Option (Shared × Local)
  | .setLocked node =>
      some ({ sh with nodeLocked := Function.update sh.nodeLocked node 1 }, ⟨id, .swap node⟩)
  | .swap node =>
      some ({ sh with head := some node }, ⟨id, match sh.head with
        | none => .mallocPred node
        | some pred => .setPred node pred⟩)
  | .mallocPred node => some ({ sh with brk := sh.brk + 1 }, ⟨id, .setFirstPred node sh.brk⟩)
  | .setFirstPred node pred =>
      some ({ sh with nodePred := Function.update sh.nodePred node (some pred) },
        ⟨id, .critical⟩)
  | .setPred node pred =>
      some ({ sh with nodePred := Function.update sh.nodePred node (some pred) },
        ⟨id, .spin pred⟩)
  | .spin pred => some (sh, ⟨id, if sh.nodeLocked pred = 1 then .spin pred else .critical⟩)
  | _ => none

/-- `clh_lock_unlock`; its last step is `clh_set_local`. -/
def clhLockUnlock (sh : Shared) (id : Option Nat) : Pc → Option (Shared × Local)
  | .readPred node => some (sh, ⟨id, .clearLocked node (sh.nodePred node)⟩)
  | .clearLocked node pred =>
      some ({ sh with nodeLocked := Function.update sh.nodeLocked node 0 },
        ⟨id, .setLocal pred⟩)
  | .setLocal pred =>
      id.map fun i =>
        ({ sh with local_ := Function.update sh.local_ i pred }, ⟨some i, .idle⟩)
  | _ => none

/-- One step of a thread.  `clh_lock_trylock` is not implemented: it returns 1. -/
def prog : Prog Tid Shared Local Act
  | _, sh, ⟨id, pc⟩, .lock => if pc = .idle then some (sh, ⟨id, .getId .lock⟩) else none
  | _, sh, ⟨id, pc⟩, .trylock => if pc = .idle then some (sh, ⟨id, .idle⟩) else none
  | _, sh, ⟨id, pc⟩, .unlock =>
      if pc = .critical then some (sh, ⟨id, .getId .unlock⟩) else none
  | _, sh, ⟨id, pc⟩, .go =>
      (clhGetLocal sh id pc).or <| (clhLockLock sh id pc).or (clhLockUnlock sh id pc)

/-- `clh_lock_init`, run by a thread with id `id`: clear the lock and allocate the
    thread's own node. -/
def clhLockInit (sh : Shared) (id : Option Nat) : Option (Shared × Option Nat) :=
  let i := id.getD sh.clhIds
  if i < clhMaxThr then
    some ({ sh with
        head := none
        local_ := Function.update (fun _ => none) i (some sh.brk)
        clhIds := if id.isNone then sh.clhIds + 1 else sh.clhIds
        brk := sh.brk + 1 }, some i)
  else none

/-- A thread is in line from its swap on `lock->head` until it has cleared `locked`
    of its node. -/
@[simp, grind =] def Pc.phase : Pc → Phase
  | .idle => .out
  | .getId .lock => .out
  | .getLocal .lock => .out
  | .malloc .lock => .out
  | .retLocal .lock => .out
  | .setLocked _ => .out
  | .swap _ => .out
  | .mallocPred _ => .holding
  | .setFirstPred _ _ => .holding
  | .setPred _ _ => .waiting
  | .spin _ => .waiting
  | .critical => .holding
  | .getId .unlock => .holding
  | .getLocal .unlock => .holding
  | .malloc .unlock => .holding
  | .retLocal .unlock => .holding
  | .readPred _ => .holding
  | .clearLocked _ _ => .holding
  | .setLocal _ => .out

/-- The phase of a thread. -/
@[simp, grind =] def Local.phase (l : Local) : Phase := l.pc.phase

/-- The node that a thread keeps in its variable `local`. -/
@[simp, grind =] def Pc.node : Pc → Option Addr
  | .setLocked n => some n
  | .swap n => some n
  | .mallocPred n => some n
  | .setFirstPred n _ => some n
  | .setPred n _ => some n
  | .readPred n => some n
  | .clearLocked n _ => some n
  | .idle => none
  | .getId _ => none
  | .getLocal _ => none
  | .malloc _ => none
  | .retLocal _ => none
  | .spin _ => none
  | .critical => none
  | .setLocal _ => none

/-- The node a thread has: `lock->local[__clh_id]`, or, when it is about to write that
    entry, the node it writes. -/
def nodeOf (sh : Shared) (l : Local) : Option Addr :=
  match l.pc with
  | .setLocal pred => pred
  | _ => l.clhId.bind sh.local_

/-- The node of its predecessor, for a thread in line. -/
def predOf (sh : Shared) (l : Local) : Option Addr :=
  match l.pc with
  | .mallocPred _ => none
  | .setFirstPred _ pred => some pred
  | .setPred _ pred => some pred
  | .spin pred => some pred
  | .clearLocked _ pred => pred
  | _ => (nodeOf sh l).bind sh.nodePred

/-- The lock has been initialised and no thread is in a call. -/
structure Init (c : Conf Tid Shared Local) : Prop where
  head : c.sh.head = none
  idle : ∀ t, (c.loc t).pc = .idle
  ids_lt : ∀ t i, (c.loc t).clhId = some i → i < c.sh.clhIds
  ids_inj : ∀ t u i, (c.loc t).clhId = some i → (c.loc u).clhId = some i → t = u
  entries : ∀ i n, c.sh.local_ i = some n → i < c.sh.clhIds ∧ n < c.sh.brk
  nodes_inj : ∀ i j n, c.sh.local_ i = some n → c.sh.local_ j = some n → i = j

/-- Every thread has its own id, and a thread that has fetched its node works on it. -/
structure Table (c : Conf Tid Shared Local) : Prop where
  ids_lt : ∀ t i, (c.loc t).clhId = some i → i < c.sh.clhIds
  ids_inj : ∀ t u i, (c.loc t).clhId = some i → (c.loc u).clhId = some i → t = u
  entries : ∀ i n, c.sh.local_ i = some n → i < c.sh.clhIds
  node : ∀ t n, (c.loc t).pc.node = some n → nodeOf c.sh (c.loc t) = some n
  unset : ∀ t k, (c.loc t).pc = .malloc k → nodeOf c.sh (c.loc t) = none

/-- How the nodes represent the line `f`: place `k` waits on the node `M k`, its
    thread has brought the node `M (k + 1)`, and `lock->head` is the last one. -/
structure Line (K : Addr → Prop) (c : Conf Tid Shared Local) (f : Fifo Tid)
    (M : Nat → Option Addr) : Prop where
  head : c.sh.head = M f.log.length
  null : ∀ i, f.rel ≤ i → i ≤ f.log.length → M i = none → i = 0
  node : ∀ t k, f.At k t → nodeOf c.sh (c.loc t) = M (k + 1)
  pred : ∀ t k, f.At k t → predOf c.sh (c.loc t) = M k
  armed : ∀ t k n, f.At k t → nodeOf c.sh (c.loc t) = some n → c.sh.nodeLocked n = 1
  links_inj : ∀ i j n, f.rel ≤ i → i ≤ f.log.length → f.rel ≤ j → j ≤ f.log.length →
    M i = some n → M j = some n → i = j
  free : ∀ t i n, (c.loc t).phase = .out → nodeOf c.sh (c.loc t) = some n →
    f.rel ≤ i → i ≤ f.log.length → M i ≠ some n
  free_inj : ∀ t u n, (c.loc t).phase = .out → (c.loc u).phase = .out →
    nodeOf c.sh (c.loc t) = some n → nodeOf c.sh (c.loc u) = some n → t = u
  links_lt : ∀ i n, f.rel ≤ i → i ≤ f.log.length → M i = some n → n < c.sh.brk
  free_lt : ∀ t n, nodeOf c.sh (c.loc t) = some n → n < c.sh.brk
  spin : ∀ t p, (c.loc t).pc = .spin p →
    ∃ n, nodeOf c.sh (c.loc t) = some n ∧ c.sh.nodePred n = some p
  ready : ∀ t n, (c.loc t).pc = .swap n → c.sh.nodeLocked n = 1
  released : ∀ n, 0 < f.rel → M f.rel = some n → c.sh.nodeLocked n ≠ 1
  covered : ∀ n, K n → n < c.sh.brk →
    (∃ t, (c.loc t).phase = .out ∧ nodeOf c.sh (c.loc t) = some n) ∨
      ∃ i, f.rel ≤ i ∧ i ≤ f.log.length ∧ M i = some n

theorem predOf_congr {sh sh' : Shared} {l : Local} (hnode : nodeOf sh' l = nodeOf sh l)
    (hpred : ∀ n, nodeOf sh l = some n → sh'.nodePred n = sh.nodePred n) :
    predOf sh' l = predOf sh l := by
  unfold predOf
  rw [hnode]
  cases hn : nodeOf sh l with
  | none => rfl
  | some n => simp only [Option.bind_some, hpred n hn]

namespace Line

variable {K : Addr → Prop} {c : Conf Tid Shared Local} {f : Fifo Tid} {M : Nat → Option Addr}

/-- Different threads have different nodes. -/
theorem node_inj (h : Line K c f M) (hf : f.Ok fun u => (c.loc u).phase) {t u : Tid} {n : Addr}
    (ht : nodeOf c.sh (c.loc t) = some n) (hu : nodeOf c.sh (c.loc u) = some n) : t = u := by
  by_cases hto : (c.loc t).phase = .out <;> by_cases huo : (c.loc u).phase = .out
  · exact h.free_inj t u n hto huo ht hu
  · obtain ⟨k, hk⟩ := (hf.place u).mp huo
    exact absurd ((h.node u k hk).symm.trans hu)
      (h.free t _ n hto ht (by have := hk.rel_le; omega) hk.lt_length)
  · obtain ⟨k, hk⟩ := (hf.place t).mp hto
    exact absurd ((h.node t k hk).symm.trans ht)
      (h.free u _ n huo hu (by have := hk.rel_le; omega) hk.lt_length)
  · obtain ⟨j, hj⟩ := (hf.place t).mp hto
    obtain ⟨k, hk⟩ := (hf.place u).mp huo
    have := h.links_inj (j + 1) (k + 1) n (by have := hj.rel_le; omega) hj.lt_length
      (by have := hk.rel_le; omega) hk.lt_length ((h.node t j hj).symm.trans ht)
      ((h.node u k hk).symm.trans hu)
    obtain rfl : j = k := by omega
    exact hj.tid_unique hk

end Line

section
variable {c : Conf Tid Shared Local} {t : Tid} {sh' : Shared} {l : Local}

/-- What `t` writes to its own entry does not change what the others have. -/
theorem Table.nodeOf_other (h : Table c)
    (hlocal : ∀ i, (c.loc t).clhId ≠ some i → sh'.local_ i = c.sh.local_ i) {u : Tid}
    (hu : u ≠ t) : nodeOf sh' (c.loc u) = nodeOf c.sh (c.loc u) := by
  have hentry : (c.loc u).clhId.bind sh'.local_ = (c.loc u).clhId.bind c.sh.local_ := by
    cases hi : (c.loc u).clhId with
    | none => rfl
    | some i => exact hlocal i fun ht => hu (h.ids_inj u t i hi ht)
  simp only [nodeOf, hentry]

variable [DecidableEq Tid]

/-- A step of `t` keeps the table when it writes only `t`'s entry. -/
theorem Table.put (h : Table c)
    (hlocal : ∀ i, (c.loc t).clhId ≠ some i → sh'.local_ i = c.sh.local_ i)
    (hid : (l.clhId = (c.loc t).clhId ∧ sh'.clhIds = c.sh.clhIds) ∨
      (l.clhId = some c.sh.clhIds ∧ sh'.clhIds = c.sh.clhIds + 1))
    (hnode : ∀ n, l.pc.node = some n → nodeOf sh' l = some n)
    (hunset : ∀ k, l.pc = .malloc k → nodeOf sh' l = none) : Table (c.put t (sh', l)) := by
  have hother : ∀ u, u ≠ t → nodeOf sh' (c.loc u) = nodeOf c.sh (c.loc u) :=
    fun u hu => h.nodeOf_other hlocal hu
  have hlt := h.ids_lt
  constructor
  · grind
  · have := h.ids_inj
    grind
  · intro i n hi
    rw [put_sh] at hi ⊢
    by_cases ht : (c.loc t).clhId = some i
    · have := hlt t i ht
      grind
    · have := h.entries i n (hlocal i ht ▸ hi)
      grind
  · have := h.node
    grind
  · have := h.unset
    grind

end

namespace Line

variable {K : Addr → Prop} {c : Conf Tid Shared Local} {f : Fifo Tid} {M : Nat → Option Addr}
  {t : Tid}
  {sh' : Shared} {l : Local} [DecidableEq Tid]

/-- A step that does not move `t` in the line. -/
theorem quiet (h : Line K c f M) (htab : Table c) (hf : f.Ok fun u => (c.loc u).phase)
    (hlocal : ∀ i, (c.loc t).clhId ≠ some i → sh'.local_ i = c.sh.local_ i)
    (hphase : l.phase = .out ↔ (c.loc t).phase = .out)
    (hnode : nodeOf sh' l = nodeOf c.sh (c.loc t))
    (hpred : l.phase ≠ .out → predOf sh' l = predOf c.sh (c.loc t))
    (hspin : ∀ p, l.pc = .spin p → ∃ n, nodeOf sh' l = some n ∧ sh'.nodePred n = some p)
    (hready : ∀ n, l.pc = .swap n → sh'.nodeLocked n = 1)
    (hhead : sh'.head = c.sh.head) (hbrk : sh'.brk = c.sh.brk)
    (hpreds : ∀ n, nodeOf c.sh (c.loc t) ≠ some n → sh'.nodePred n = c.sh.nodePred n)
    (hlocked : ∀ n, (l.phase = .out → nodeOf c.sh (c.loc t) ≠ some n) →
      sh'.nodeLocked n = c.sh.nodeLocked n) : Line K (c.put t (sh', l)) f M := by
  have hother : ∀ u, u ≠ t → nodeOf sh' (c.loc u) = nodeOf c.sh (c.loc u) :=
    fun u hu => htab.nodeOf_other hlocal hu
  have hpother : ∀ u n, u ≠ t → nodeOf c.sh (c.loc u) = some n →
      sh'.nodePred n = c.sh.nodePred n := by
    intro u n hu hn
    exact hpreds n fun ht => hu (h.node_inj hf hn ht)
  have hnodes : ∀ u, nodeOf sh' ((c.put t (sh', l)).loc u) = nodeOf c.sh (c.loc u) := by
    grind
  constructor
  · rw [put_sh, hhead, h.head]
  · exact h.null
  · intro u k hk
    rw [put_sh, hnodes, h.node u k hk]
  · intro u k hk
    have hin : (c.loc u).phase ≠ .out := (hf.place u).mpr ⟨k, hk⟩
    by_cases hu : u = t
    · subst hu
      rw [put_sh, put_loc_self, hpred (fun e => hin (hphase.mp e)), h.pred u k hk]
    · rw [put_sh, put_loc_ne _ _ hu,
        predOf_congr (hother u hu) (fun n hn => hpother u n hu hn), h.pred u k hk]
  · intro u k n hk hn
    rw [put_sh, hnodes] at hn
    have hin : (c.loc u).phase ≠ .out := (hf.place u).mpr ⟨k, hk⟩
    rw [put_sh, hlocked n, h.armed u k n hk hn]
    intro hout ht
    obtain rfl := h.node_inj hf hn ht
    exact hin (hphase.mp hout)
  · exact h.links_inj
  · intro u i n hout hn
    rw [put_sh, hnodes] at hn
    refine h.free u i n ?_ hn
    grind
  · have := h.free_inj
    grind
  · intro i n h1 h2 hn
    rw [put_sh, hbrk]
    exact h.links_lt i n h1 h2 hn
  · intro u n hn
    rw [put_sh, hnodes] at hn
    rw [put_sh, hbrk]
    exact h.free_lt u n hn
  · intro u p hp
    by_cases hu : u = t
    · subst hu
      rw [put_loc_self] at hp ⊢
      exact hspin p hp
    · rw [put_loc_ne _ _ hu] at hp ⊢
      obtain ⟨n, hn, hnp⟩ := h.spin u p hp
      exact ⟨n, (hother u hu).trans hn, (hpother u n hu hn).trans hnp⟩
  · intro u n hu
    by_cases hut : u = t
    · subst hut
      rw [put_loc_self] at hu
      exact hready n hu
    · rw [put_loc_ne _ _ hut] at hu
      rw [put_sh, hlocked n, h.ready u n hu]
      intro _ ht
      exact hut (h.node_inj hf (htab.node u n (by rw [hu]; rfl)) ht)
  · intro n h0 hn
    rw [put_sh, hlocked n]
    · exact h.released n h0 hn
    · intro hout ht
      exact h.free t f.rel n (hphase.mp hout) ht le_rfl hf.rel_le_len hn
  · intro n hK hlt
    rw [put_sh, hbrk] at hlt
    rcases h.covered n hK hlt with ⟨u, hu, hn⟩ | hlink
    · refine Or.inl ⟨u, ?_, (hnodes u).trans hn⟩
      grind
    · exact Or.inr hlink

/-- The node that `malloc` returns is nobody's yet. -/
theorem alloc (h : Line K c f M) (hf : f.Ok fun u => (c.loc u).phase)
    (hother : ∀ u, u ≠ t → nodeOf sh' (c.loc u) = nodeOf c.sh (c.loc u))
    (hnone : nodeOf c.sh (c.loc t) = none) (hself : nodeOf sh' l = some c.sh.brk)
    (hbrk : sh'.brk = c.sh.brk + 1)
    (hhead : sh'.head = c.sh.head) (hlocked : sh'.nodeLocked = c.sh.nodeLocked)
    (hpreds : sh'.nodePred = c.sh.nodePred) (hout : (c.loc t).phase = .out)
    (hout' : l.phase = .out) (hpc : ∀ n, l.pc ≠ .swap n) :
    Line K (c.put t (sh', l)) f M := by
  have hnot : ∀ k, ¬ f.At k t := hf.not_at_of_out hout
  have hne : ∀ u k, f.At k u → u ≠ t := by rintro u k hk rfl; exact hnot k hk
  have hltf := h.free_lt
  have hltl := h.links_lt
  have hspin : ∀ p, l.pc ≠ .spin p := by rintro p hp; simp [hp] at hout'
  constructor
  · rw [put_sh, hhead, h.head]
  · exact h.null
  · intro u k hk
    rw [put_sh, put_loc_ne _ _ (hne u k hk), hother u (hne u k hk), h.node u k hk]
  · intro u k hk
    rw [put_sh, put_loc_ne _ _ (hne u k hk),
      predOf_congr (hother u (hne u k hk)) fun n _ => congrFun hpreds n, h.pred u k hk]
  · intro u k n hk hn
    rw [put_sh, put_loc_ne _ _ (hne u k hk), hother u (hne u k hk)] at hn
    rw [put_sh, hlocked, h.armed u k n hk hn]
  · exact h.links_inj
  · have := h.free
    grind
  · have := h.free_inj
    grind
  · intro j n h1 h2 hn
    rw [put_sh, hbrk]
    exact Nat.lt_succ_of_lt (hltl j n h1 h2 hn)
  · grind
  · have := h.spin
    grind
  · have := h.ready
    grind
  · rw [put_sh, hlocked]
    exact h.released
  · intro n hK hlt
    rw [put_sh, hbrk] at hlt
    rcases Nat.lt_succ_iff_lt_or_eq.mp hlt with hlt' | rfl
    · rcases h.covered n hK hlt' with ⟨u, hu, hn⟩ | hlink
      · have hut : u ≠ t := by rintro rfl; simp [hnone] at hn
        exact Or.inl ⟨u, by rwa [put_loc_ne _ _ hut], by
          rw [put_sh, put_loc_ne _ _ hut, hother u hut, hn]⟩
      · exact Or.inr hlink
    · exact Or.inl ⟨t, by rwa [put_loc_self], by rw [put_loc_self]; exact hself⟩

/-- A swap takes the next place and the next link. -/
theorem swap (h : Line K c f M) (htab : Table c) (hf : f.Ok fun u => (c.loc u).phase)
    {n : Addr} (hl : (c.loc t).pc = .swap n) (hnode : nodeOf c.sh l = some n)
    (hpred : predOf c.sh l = c.sh.head) (hin : l.phase ≠ .out) (hspin : ∀ p, l.pc ≠ .spin p) :
    Line K (c.put t ({ c.sh with head := some n }, l)) (f.enter t)
      (Function.update M (f.log.length + 1) (some n)) := by
  have hlen := hf.rel_le_len
  have hout : (c.loc t).phase = .out := by simp [hl]
  have hnot : ∀ k, ¬ f.At k t := hf.not_at_of_out hout
  have hn : nodeOf c.sh (c.loc t) = some n := htab.node t n (by rw [hl]; rfl)
  have hat := fun u k => Fifo.enter_at hlen t u k
  have hM : ∀ i, i ≤ f.log.length → Function.update M (f.log.length + 1) (some n) i = M i :=
    fun i hi => Function.update_of_ne (by omega) ..
  have hlast : Function.update M (f.log.length + 1) (some n) (f.log.length + 1) = some n :=
    Function.update_self ..
  have hsame : ∀ l', nodeOf { c.sh with head := some n } l' = nodeOf c.sh l' := fun _ => rfl
  have hsame' : ∀ l', predOf { c.sh with head := some n } l' = predOf c.sh l' := fun _ => rfl
  have hne : ∀ u k, f.At k u → u ≠ t := by rintro u k hk rfl; exact hnot k hk
  constructor
  · simp
  · have := h.null
    grind
  · have := h.node
    grind
  · have := h.pred
    have := h.head
    grind
  · have := h.armed
    have := h.ready t n hl
    grind
  · have := h.links_inj
    have := h.free t
    grind
  · have := h.free
    have hinj := fun u => h.node_inj hf (t := t) (u := u) (n := n) hn
    grind
  · have := h.free_inj
    grind
  · have := h.links_lt
    have := h.free_lt t n hn
    grind
  · have := h.free_lt
    grind
  · intro u p hp
    by_cases hu : u = t
    · subst hu
      rw [put_loc_self] at hp
      exact absurd hp (hspin p)
    · rw [put_loc_ne _ _ hu] at hp ⊢
      exact h.spin u p hp
  · have := h.ready
    grind
  · have := h.released
    grind
  · intro m hK hlt
    rcases h.covered m hK hlt with ⟨u, hu, hm⟩ | ⟨i, h1, h2, hm⟩
    · by_cases hut : u = t
      · subst hut
        exact Or.inr ⟨f.log.length + 1, by grind, by grind, by grind⟩
      · exact Or.inl ⟨u, by rwa [put_loc_ne _ _ hut], by rwa [put_loc_ne _ _ hut]⟩
    · exact Or.inr ⟨i, h1, by grind, (hM i h2).trans hm⟩

/-- The first thread ever in line gets a node in place of a predecessor's. -/
theorem firstPred (h : Line K c f M) (hf : f.Ok fun u => (c.loc u).phase) {n : Addr}
    (hl : (c.loc t).pc = .mallocPred n) (hpc : l.pc = .setFirstPred n c.sh.brk)
    (hnode : nodeOf c.sh l = nodeOf c.sh (c.loc t)) :
    Line K (c.put t ({ c.sh with brk := c.sh.brk + 1 }, l)) f
      (Function.update M f.rel (some c.sh.brk)) := by
  obtain ⟨hturn, -⟩ := hf.holding_at (t := t) (by simp [hl])
  have hlt := hturn.lt_length
  have hzero : f.rel = 0 := by
    refine h.null f.rel le_rfl hlt.le ?_
    rw [← h.pred t _ hturn]
    simp [predOf, hl]
  have hself : Function.update M f.rel (some c.sh.brk) f.rel = some c.sh.brk :=
    Function.update_self ..
  have hM : ∀ i, i ≠ f.rel → Function.update M f.rel (some c.sh.brk) i = M i :=
    fun i hi => Function.update_of_ne hi ..
  have hsame : ∀ l', nodeOf { c.sh with brk := c.sh.brk + 1 } l' = nodeOf c.sh l' :=
    fun _ => rfl
  have hsame' : ∀ l', predOf { c.sh with brk := c.sh.brk + 1 } l' = predOf c.sh l' :=
    fun _ => rfl
  have hpred : predOf c.sh l = some c.sh.brk := by simp [predOf, hpc]
  have hin : l.phase = .holding := by simp [hpc]
  have hltf := h.free_lt
  have hltl := h.links_lt
  constructor
  · rw [put_sh, hM _ hlt.ne', ← h.head]
  · have := h.null
    grind
  · have := h.node
    grind
  · have := h.pred
    have := hf.unique
    grind
  · have := h.armed
    grind
  · have := h.links_inj
    grind
  · have := h.free
    grind
  · have := h.free_inj
    grind
  · grind
  · grind
  · intro u p hp
    have hu : u ≠ t := by rintro rfl; simp [hpc] at hp
    rw [put_loc_ne _ _ hu] at hp ⊢
    exact h.spin u p hp
  · have := h.ready
    grind
  · intro _ h0
    omega
  · intro m hK hlt'
    rcases Nat.lt_succ_iff_lt_or_eq.mp hlt' with hlt'' | rfl
    · rcases h.covered m hK hlt'' with ⟨u, hu, hm⟩ | ⟨i, h1, h2, hm⟩
      · have hut : u ≠ t := by rintro rfl; simp [hl] at hu
        exact Or.inl ⟨u, by rwa [put_loc_ne _ _ hut], by rwa [put_loc_ne _ _ hut]⟩
      · have hi : i ≠ f.rel := by
          rintro rfl
          have hnone := h.pred t _ hturn
          rw [hm] at hnone
          simp [predOf, hl] at hnone
        exact Or.inr ⟨i, h1, h2, (hM i hi).trans hm⟩
    · exact Or.inr ⟨f.rel, le_rfl, hlt.le, hself⟩

/-- On release the thread's node becomes the one its successor waits on, and its
    predecessor's becomes its own. -/
theorem release (h : Line K c f M) (hf : f.Ok fun u => (c.loc u).phase) {n : Addr}
    {p : Option Addr} (hl : (c.loc t).pc = .clearLocked n p)
    (hn : nodeOf c.sh (c.loc t) = some n) (hpc : l.pc = .setLocal p)
    (htab : Table c) :
    Line K (c.put t ({ c.sh with nodeLocked := Function.update c.sh.nodeLocked n 0 }, l))
      f.release M := by
  obtain ⟨hturn, -⟩ := hf.holding_at (t := t) (by simp [hl])
  have hlt := hturn.lt_length
  have hat : ∀ u k, f.release.At k u ↔ f.At k u ∧ k ≠ f.rel := Fifo.release_at
  have hMp : M f.rel = p := by
    rw [← h.pred t _ hturn]
    simp [predOf, hl]
  have hMn : M (f.rel + 1) = some n := (h.node t _ hturn).symm.trans hn
  have hself : nodeOf c.sh l = p := by simp [nodeOf, hpc]
  have hout : l.phase = .out := by simp [hpc]
  have hsame : ∀ l', nodeOf { c.sh with
      nodeLocked := Function.update c.sh.nodeLocked n 0 } l' = nodeOf c.sh l' := fun _ => rfl
  have hsame' : ∀ l', predOf { c.sh with
      nodeLocked := Function.update c.sh.nodeLocked n 0 } l' = predOf c.sh l' := fun _ => rfl
  have hne : ∀ u k, f.At k u → k ≠ f.rel → u ≠ t := by
    rintro u k hk hkr rfl
    exact hkr (hf.unique u _ _ hk hturn)
  have hinj := fun u => h.node_inj hf (t := t) (u := u) (n := n) hn
  have hlocked : ∀ m, m ≠ n → Function.update c.sh.nodeLocked n 0 m = c.sh.nodeLocked m :=
    fun m hm => Function.update_of_ne hm ..
  constructor
  · exact h.head
  · have := h.null
    grind
  · have := h.node
    grind
  · have := h.pred
    grind
  · intro u k m hk hm
    obtain ⟨hk', hkr⟩ := (hat u k).mp hk
    have hu := hne u k hk' hkr
    rw [put_loc_ne _ _ hu, put_sh, hsame] at hm
    refine (hlocked m ?_).trans (h.armed u k m hk' hm)
    rintro rfl
    exact hu (hinj u hm).symm
  · have := h.links_inj
    grind
  · have := h.free
    have := h.links_inj
    grind
  · have := h.free_inj
    have := h.free
    grind
  · have := h.links_lt
    grind
  · have := h.free_lt
    have := h.links_lt
    grind
  · intro u q hq
    have hu : u ≠ t := by rintro rfl; simp [hpc] at hq
    rw [put_loc_ne _ _ hu] at hq ⊢
    exact h.spin u q hq
  · intro u m hm
    have hu : u ≠ t := by rintro rfl; simp [hpc] at hm
    rw [put_loc_ne _ _ hu] at hm
    refine (hlocked m ?_).trans (h.ready u m hm)
    rintro rfl
    exact hu (hinj u (htab.node u m (by rw [hm]; rfl))).symm
  · intro m _ hm
    obtain rfl : n = m := Option.some.inj (hMn.symm.trans hm)
    have hzero : Function.update c.sh.nodeLocked n 0 n = 0 := Function.update_self ..
    exact hzero.trans_ne (by decide)
  · intro m hK hlt'
    rcases h.covered m hK hlt' with ⟨u, hu, hm⟩ | ⟨i, h1, h2, hm⟩
    · have hut : u ≠ t := by rintro rfl; simp [hl] at hu
      exact Or.inl ⟨u, by rwa [put_loc_ne _ _ hut], by rwa [put_loc_ne _ _ hut]⟩
    · by_cases hi : i = f.rel
      · rw [hi, hMp] at hm
        exact Or.inl ⟨t, by rwa [put_loc_self], by rw [put_loc_self]; exact hself.trans hm⟩
      · exact Or.inr ⟨i, by grind, h2, hm⟩

omit [DecidableEq Tid] in
/-- The nodes do not show whether the first thread in line has noticed its turn. -/
theorem granted (h : Line K c f M) : Line K c f.acquire M :=
  ⟨h.head, h.null, h.node, h.pred, h.armed, h.links_inj, h.free, h.free_inj, h.links_lt,
    h.free_lt, h.spin, h.ready, h.released, h.covered⟩

/-- A step that leaves the memory as it is, and the thread where it is in line. -/
theorem pass (h : Line K c f M) (htab : Table c) (hf : f.Ok fun u => (c.loc u).phase)
    {id : Option Nat} {pc pc' : Pc} (hl : c.loc t = ⟨id, pc⟩)
    (hphase : pc'.phase = pc.phase) (hnode : nodeOf c.sh ⟨id, pc'⟩ = nodeOf c.sh ⟨id, pc⟩)
    (hpred : pc'.phase ≠ .out → predOf c.sh ⟨id, pc'⟩ = predOf c.sh ⟨id, pc⟩)
    (hown : ∀ n, pc'.node = some n → nodeOf c.sh ⟨id, pc'⟩ = some n)
    (hunset : ∀ k, pc' = .malloc k → nodeOf c.sh ⟨id, pc'⟩ = none)
    (hspin : ∀ p, pc' ≠ .spin p) (hswap : ∀ n, pc' ≠ .swap n) :
    Table (c.put t (c.sh, ⟨id, pc'⟩)) ∧ ∃ f' M', Fifo.Move t (c.loc t).phase pc'.phase f f' ∧
      Line K (c.put t (c.sh, ⟨id, pc'⟩)) f' M' := by
  have hid : (c.loc t).clhId = id := by rw [hl]
  refine ⟨htab.put (fun _ _ => rfl) (Or.inl ⟨hid.symm, rfl⟩) hown hunset, f, M, ?_, ?_⟩
  · rw [hphase, Local.phase, hl]
    exact .stay _ _
  · refine h.quiet htab hf (fun _ _ => rfl) ?_ (by rw [hl, hnode]) ?_
      (fun p hp => absurd hp (hspin p)) (fun n hn => absurd hn (hswap n)) rfl rfl
      (fun _ _ => rfl) fun _ _ => rfl
    · rw [hl]
      simp only [Local.phase, hphase]
    · rw [hl]
      exact hpred

omit [DecidableEq Tid] in
/-- Only the first thread in line sees its predecessor's node unlocked. -/
theorem turn (h : Line K c f M) (hf : f.Ok fun u => (c.loc u).phase) {p : Addr}
    (hl : (c.loc t).pc = .spin p) (hw : c.sh.nodeLocked p ≠ 1) : f.At f.rel t := by
  obtain ⟨k, hk, -⟩ := hf.waiting_at (t := t) (by simp [hl])
  have hMk : M k = some p := by
    rw [← h.pred t k hk]
    simp [predOf, hl]
  by_contra hne
  have hkr : k ≠ f.rel := by rintro rfl; exact hne hk
  have hle := hk.rel_le
  have hlt := hk.lt_length
  obtain ⟨u, hu⟩ := f.exists_at (k := k - 1) (by omega) (by omega)
  refine hw (h.armed u (k - 1) p hu ?_)
  rw [h.node u _ hu, ← hMk]
  congr 1
  omega

/-- **Step lemma.** Every step keeps the table and moves the line as its phases
    say. -/
theorem step (h : Line K c f M) (htab : Table c) (hf : f.Ok fun u => (c.loc u).phase)
    {a : Act} {r : Shared × Local} (hs : prog t c.sh (c.loc t) a = some r) :
    Table (c.put t r) ∧ ∃ f' M',
      Fifo.Move t (c.loc t).phase r.2.phase f f' ∧ Line K (c.put t r) f' M' := by
  obtain ⟨id, pc, hl⟩ : ∃ id pc, c.loc t = ⟨id, pc⟩ := ⟨_, _, rfl⟩
  have hnode := htab.node t
  have hid : (c.loc t).clhId = id := by rw [hl]
  rw [hl] at hs hnode
  cases a with
  | lock =>
      obtain ⟨rfl, rfl⟩ : pc = .idle ∧ (c.sh, ⟨id, .getId .lock⟩) = r := by
        simpa [prog] using hs
      exact h.pass htab hf hl rfl rfl (by simp) (by simp) (by simp) (by simp) (by simp)
  | trylock =>
      obtain ⟨rfl, rfl⟩ : pc = .idle ∧ (c.sh, ⟨id, .idle⟩) = r := by
        simpa [prog] using hs
      exact h.pass htab hf hl rfl rfl (by simp) (by simp) (by simp) (by simp) (by simp)
  | unlock =>
      obtain ⟨rfl, rfl⟩ : pc = .critical ∧ (c.sh, ⟨id, .getId .unlock⟩) = r := by
        simpa [prog] using hs
      exact h.pass htab hf hl rfl rfl (fun _ => rfl) (by simp) (by simp) (by simp) (by simp)
  | go =>
  cases pc <;>
    simp only [prog, clhGetLocal, clhLockLock, clhLockUnlock, Option.none_or, Option.or_none,
      Option.or_self, reduceCtorEq, Option.some.injEq] at hs
  case getId k =>
      have hph : ∀ i, (⟨some i, .getLocal k⟩ : Local).phase = (c.loc t).phase := by
        intro i
        rw [hl]
        cases k <;> rfl
      cases id with
      | some i =>
          obtain rfl := Option.some.inj hs
          exact h.pass htab hf hl (by cases k <;> rfl) rfl (fun _ => rfl) (by simp) (by simp)
            (by simp) (by simp)
      | none =>
          by_cases hlt : c.sh.clhIds < clhMaxThr
          · obtain rfl := Option.some.inj ((if_pos hlt).symm.trans hs)
            -- the entry of an id that was not handed out is empty
            have hempty : c.sh.local_ c.sh.clhIds = none := by
              by_contra hne
              obtain ⟨n, hn⟩ := Option.ne_none_iff_exists'.mp hne
              exact absurd (htab.entries _ _ hn) (lt_irrefl _)
            refine ⟨htab.put (fun _ _ => rfl) (Or.inr ⟨rfl, rfl⟩) (by simp) (by simp), f, M, ?_, ?_⟩
            · rw [← hph]
              exact .stay _ _
            · refine h.quiet htab hf (fun _ _ => rfl) (by rw [hph]) ?_ ?_ (by simp) (by simp) rfl
                rfl
                (fun _ _ => rfl) fun _ _ => rfl
              · simp [nodeOf, hl, hempty]
              · intro _
                simp [predOf, nodeOf, hl, hempty]
          · simp [hlt] at hs
  case getLocal k =>
      obtain ⟨i, rfl, rfl⟩ := Option.map_eq_some_iff.mp hs
      cases hn : c.sh.local_ i with
      | none => 
          exact h.pass htab hf hl (by cases k <;> rfl) rfl (fun _ => rfl) (by simp) 
            (fun _ _ => hn) (by simp) (by simp)
      | some n => 
          exact h.pass htab hf hl (by cases k <;> rfl) rfl (fun _ => rfl) (by simp) (by simp)
            (by simp) (by simp)
  case malloc k =>
      obtain ⟨i, rfl, rfl⟩ := Option.map_eq_some_iff.mp hs
      have hun := htab.unset t k (by rw [hl])
      cases k with
      | lock =>
          refine ⟨htab.put (fun j hj => ?_) (Or.inl ⟨hid.symm, rfl⟩) (by simp) (by simp), f, M, ?_,
            ?_⟩
          · exact Function.update_of_ne (fun e => hj (by rw [hid, e])) ..
          · rw [hl]
            exact .stay _ _
          · refine h.alloc hf (fun u hu => ?_) hun ?_ rfl rfl rfl rfl (by simp [hl]) rfl (by simp)
            · refine htab.nodeOf_other (fun j hj => ?_) hu
              exact Function.update_of_ne (fun e => hj (by rw [hid, e])) ..
            · simp [nodeOf]
      | unlock =>
          -- a thread in line has its node
          obtain ⟨hturn, -⟩ := hf.holding_at (t := t) (by simp [hl])
          have := h.null (f.rel + 1) (by omega) hturn.lt_length ((h.node t _ hturn).symm.trans hun)
          omega
  case retLocal k =>
      obtain ⟨i, rfl, hs⟩ := Option.bind_eq_some_iff.mp hs
      obtain ⟨n, hn, rfl⟩ := Option.map_eq_some_iff.mp hs
      cases k with
      | lock =>
          exact h.pass htab hf hl rfl rfl (by simp) (by simp [nodeOf, hn]) (by simp) (by simp)
            (by simp)
      | unlock =>
          exact h.pass htab hf hl rfl rfl (fun _ => rfl) (by simp [nodeOf, hn]) (by simp)
            (by simp) (by simp)
  case setLocked n =>
      subst hs
      have hn := hnode n rfl
      refine ⟨htab.put (fun _ _ => rfl) (Or.inl ⟨hid.symm, rfl⟩) hnode (by simp), f, M, ?_, ?_⟩
      · rw [hl]
        exact .stay _ _
      · refine h.quiet htab hf (fun _ _ => rfl) (by simp [hl]) (by rw [hl]; rfl) (by simp)
          (by simp) ?_ rfl rfl (fun _ _ => rfl) ?_
        · rintro m hm
          obtain rfl : n = m := by simpa using hm
          exact Function.update_self ..
        · intro m hm
          refine Function.update_of_ne ?_ ..
          rintro rfl
          exact hm rfl (hl ▸ hn)
  case swap n =>
      subst hs
      have hn := hnode n rfl
      have hpc : (c.loc t).pc = .swap n := by rw [hl]
      refine ⟨htab.put (fun _ _ => rfl) (Or.inl ⟨hid.symm, rfl⟩) ?_ ?_, ?_⟩
      · intro m hm
        cases hhead : c.sh.head <;> rw [hhead] at hm <;>
          exact hm ▸ hn
      · intro k
        cases hhead : c.sh.head <;> simp
      · cases hhead : c.sh.head with
        | none =>
            have hempty : f.rel = f.log.length := by
              have hlen := hf.rel_le_len
              have := h.null f.log.length hlen le_rfl (h.head.symm.trans hhead)
              omega
            have hswap := h.swap htab hf (l := ⟨id, .mallocPred n⟩) hpc hn
              (by rw [hhead]; rfl) (by simp) (by simp)
            rw [hl]
            exact ⟨_, _, .enterFree f hempty, hswap.granted⟩
        | some p =>
            have hswap := h.swap htab hf (l := ⟨id, .setPred n p⟩) hpc hn
              (by rw [hhead]; rfl) (by simp) (by simp)
            rw [hl]
            exact ⟨_, _, .enter f, hswap⟩
  case mallocPred n =>
      subst hs
      refine ⟨htab.put (fun _ _ => rfl) (Or.inl ⟨hid.symm, rfl⟩) hnode (by simp), f,
        Function.update M f.rel (some c.sh.brk), ?_, ?_⟩
      · rw [hl]
        exact .stay _ _
      · exact h.firstPred hf (by rw [hl]) rfl (by rw [hl]; rfl)
  case setFirstPred n p =>
      subst hs
      have hn := hnode n rfl
      refine ⟨htab.put (fun _ _ => rfl) (Or.inl ⟨hid.symm, rfl⟩) (by simp) (by simp), f, M, ?_, ?_⟩
      · rw [hl]
        exact .stay _ _
      · refine h.quiet htab hf (fun _ _ => rfl) (by simp [hl]) (by rw [hl]; rfl) (fun _ => ?_)
          (by simp) (by simp) rfl rfl ?_ fun _ _ => rfl
        · rw [hl]
          exact (congrArg (Option.bind · _) hn).trans (Function.update_self ..)
        · rw [hl, hn]
          intro m hm
          exact Function.update_of_ne (fun e => hm (by rw [e])) ..
  case setPred n p =>
      subst hs
      have hn := hnode n rfl
      refine ⟨htab.put (fun _ _ => rfl) (Or.inl ⟨hid.symm, rfl⟩) (by simp) (by simp), f, M, ?_, ?_⟩
      · rw [hl]
        exact .stay _ _
      · refine h.quiet htab hf (fun _ _ => rfl) (by simp [hl]) (by rw [hl]; rfl)
          (fun _ => by rw [hl]; rfl) ?_ (by simp) rfl rfl ?_ fun _ _ => rfl
        · rintro q hq
          obtain rfl : p = q := by simpa using hq
          exact ⟨n, hn, Function.update_self ..⟩
        · rw [hl, hn]
          intro m hm
          exact Function.update_of_ne (fun e => hm (by rw [e])) ..
  case spin p =>
      subst hs
      obtain ⟨n, hn, hnp⟩ := h.spin t p (by rw [hl])
      by_cases hw : c.sh.nodeLocked p = 1
      · rw [if_pos hw, ← hl, put_self]
        exact ⟨htab, f, M, .stay _ _, h⟩
      · rw [if_neg hw]
        refine ⟨htab.put (fun _ _ => rfl) (Or.inl ⟨hid.symm, rfl⟩) (by simp) (by simp),
          f.acquire, M, ?_, Line.granted ?_⟩
        · rw [hl]
          exact .acquire f (h.turn hf (by rw [hl]) hw)
        · refine h.quiet htab hf (fun _ _ => rfl) (by simp [hl]) (by rw [hl]; rfl) (fun _ => ?_)
            (by simp) (by simp) rfl rfl (fun _ _ => rfl) fun _ _ => rfl
          rw [hl] at hn ⊢
          exact (congrArg (Option.bind · _) hn).trans hnp
  case readPred n =>
      subst hs
      have hn := hnode n rfl
      exact h.pass htab hf hl rfl rfl (fun _ => (congrArg (Option.bind · _) hn).symm) hnode
        (by simp) (by simp) (by simp)
  case clearLocked n p =>
      subst hs
      have hn := hnode n rfl
      refine ⟨htab.put (fun _ _ => rfl) (Or.inl ⟨hid.symm, rfl⟩) (by simp) (by simp), f.release, M,
        ?_, h.release hf (by rw [hl]) (hl ▸ hn) rfl htab⟩
      rw [hl]
      exact .release f
  case setLocal p =>
      obtain ⟨i, rfl, rfl⟩ := Option.map_eq_some_iff.mp hs
      have hother : ∀ j, (c.loc t).clhId ≠ some j →
          Function.update c.sh.local_ i p j = c.sh.local_ j :=
        fun j hj => Function.update_of_ne (fun e => hj (by rw [hid, e])) ..
      refine ⟨htab.put hother (Or.inl ⟨hid.symm, rfl⟩) (by simp) (by simp), f, M, ?_, ?_⟩
      · rw [hl]
        exact .stay _ _
      · refine h.quiet htab hf hother (by simp [hl]) ?_ (by simp) (by simp) (by simp) rfl rfl
          (fun _ _ => rfl) fun _ _ => rfl
        rw [hl]
        exact Function.update_self ..
end Line

/-- What can refer to a node: a thread outside the line has it for itself, it is
    `lock->head`, or a thread in line waits on it. -/
inductive Link (Tid : Type) where
  | free (t : Tid)
  | head
  | pred (t : Tid)

/-- `k` refers to the node `n`. -/
def Refers (c : Conf Tid Shared Local) (n : Addr) : Link Tid → Prop
  | .free t => (c.loc t).phase = .out ∧ nodeOf c.sh (c.loc t) = some n
  | .head => c.sh.head = some n
  | .pred t => (c.loc t).phase ≠ .out ∧ predOf c.sh (c.loc t) = some n

/-- A thread holds the lock from the moment the lock is given to it: it is past its
    swap or its spinning, or the node it spins on is unlocked. -/
def Holds (c : Conf Tid Shared Local) (t : Tid) : Prop :=
  (c.loc t).phase = .holding ∨ ∃ p, (c.loc t).pc = .spin p ∧ c.sh.nodeLocked p ≠ 1

namespace Line

variable {K : Addr → Prop} {c : Conf Tid Shared Local} {f : Fifo Tid} {M : Nat → Option Addr}

/-- Whoever holds is first in line. -/
theorem holds_at (h : Line K c f M) (hf : f.Ok fun u => (c.loc u).phase) {t : Tid}
    (ht : Holds c t) : f.At f.rel t := by
  rcases ht with hh | ⟨p, hp, hw⟩
  · exact (hf.holding_at hh).1
  · exact h.turn hf hp hw

/-- A node of the chain is referred to by the thread that waits on it, or by `head`. -/
theorem refers_link (h : Line K c f M) (hf : f.Ok fun u => (c.loc u).phase) {i : Nat} {n : Addr}
    (h1 : f.rel ≤ i) (h2 : i ≤ f.log.length) (hn : M i = some n) : ∃ k, Refers c n k := by
  by_cases hlast : i = f.log.length
  · exact ⟨.head, h.head.trans (hlast ▸ hn)⟩
  · obtain ⟨t, ht⟩ := f.exists_at h1 (by omega)
    exact ⟨.pred t, (hf.place t).mpr ⟨i, ht⟩, (h.pred t i ht).trans hn⟩

/-- Which link of the chain refers to a node, if any does. -/
theorem link_of_refers (h : Line K c f M) (hf : f.Ok fun u => (c.loc u).phase) {n : Addr}
    {k : Link Tid} (hk : Refers c n k) :
    (∃ t, k = .free t ∧ (c.loc t).phase = .out ∧ nodeOf c.sh (c.loc t) = some n) ∨
      ∃ i, f.rel ≤ i ∧ i ≤ f.log.length ∧ M i = some n ∧
        ((k = .head ∧ i = f.log.length) ∨ ∃ t, k = .pred t ∧ f.At i t) := by
  cases k with
  | free t => exact Or.inl ⟨t, rfl, hk⟩
  | head =>
      exact Or.inr ⟨_, hf.rel_le_len, le_rfl, h.head.symm.trans hk, Or.inl ⟨rfl, rfl⟩⟩
  | pred t =>
      obtain ⟨i, hi⟩ := (hf.place t).mp hk.1
      exact Or.inr ⟨i, hi.rel_le, hi.lt_length.le, (h.pred t i hi).symm.trans hk.2,
        Or.inr ⟨t, rfl, hi⟩⟩

/-- **Exclusive ownership**: no node is referred to twice. -/
theorem refers_unique (h : Line K c f M) (hf : f.Ok fun u => (c.loc u).phase) {n : Addr}
    {k k' : Link Tid} (hk : Refers c n k) (hk' : Refers c n k') : k = k' := by
  rcases h.link_of_refers hf hk with ⟨t, rfl, ht, htn⟩ | ⟨i, h1, h2, hi, hik⟩ <;>
    rcases h.link_of_refers hf hk' with ⟨u, rfl, hu, hun⟩ | ⟨j, h3, h4, hj, hjk⟩
  · rw [h.free_inj t u n ht hu htn hun]
  · exact absurd hj (h.free t j n ht htn h3 h4)
  · exact absurd hi (h.free u i n hu hun h1 h2)
  · obtain rfl := h.links_inj i j n h1 h2 h3 h4 hi hj
    rcases hik with ⟨rfl, hlast⟩ | ⟨t, rfl, ht⟩ <;>
      rcases hjk with ⟨rfl, hlast'⟩ | ⟨u, rfl, hu⟩
    · rfl
    · exact absurd hu.lt_length (by omega)
    · exact absurd ht.lt_length (by omega)
    · rw [ht.tid_unique hu]

end Line

/-- The nodes a run from `c₀` works with: the ones threads have at the start and the
    ones allocated since. -/
def NodeOfRun (c₀ : Conf Tid Shared Local) (n : Addr) : Prop :=
  c₀.sh.brk ≤ n ∨ ∃ t, nodeOf c₀.sh (c₀.loc t) = some n

theorem Init.line {c : Conf Tid Shared Local} (h : Init c) :
    Table c ∧ Line (NodeOfRun c) c Fifo.empty fun _ => none := by
  have hnode : ∀ t, nodeOf c.sh (c.loc t) = (c.loc t).clhId.bind c.sh.local_ := by
    intro t
    simp [nodeOf, h.idle t]
  have hentry : ∀ t n, nodeOf c.sh (c.loc t) = some n →
      ∃ i, (c.loc t).clhId = some i ∧ c.sh.local_ i = some n := by
    intro t n hn
    rw [hnode] at hn
    exact Option.bind_eq_some_iff.mp hn
  refine ⟨⟨h.ids_lt, h.ids_inj, fun i n hn => (h.entries i n hn).1, by simp [h.idle],
    by simp [h.idle]⟩, ?_⟩
  constructor
  case free_inj =>
      intro t u n _ _ ht hu
      obtain ⟨i, hi, hin⟩ := hentry t n ht
      obtain ⟨j, hj, hjn⟩ := hentry u n hu
      obtain rfl := h.nodes_inj i j n hin hjn
      exact h.ids_inj t u i hi hj
  case free_lt =>
      intro t n ht
      obtain ⟨i, -, hin⟩ := hentry t n ht
      exact (h.entries i n hin).2
  case covered =>
      rintro n (hle | ⟨t, ht⟩) hlt
      · exact absurd hlt hle.not_gt
      · exact Or.inl ⟨t, by simp [h.idle t], ht⟩
  all_goals simp [Fifo.empty, Fifo.At, h.head, h.idle]

variable [DecidableEq Tid]

/-- `clh_lock_init` run by thread `t`, while no thread is in a call, initialises the
    lock. -/
theorem clhLockInit_init {c : Conf Tid Shared Local} {t : Tid} {sh' : Shared}
    {id' : Option Nat} (hidle : ∀ u, (c.loc u).pc = .idle)
    (hlt : ∀ u i, (c.loc u).clhId = some i → i < c.sh.clhIds)
    (hinj : ∀ u v i, (c.loc u).clhId = some i → (c.loc v).clhId = some i → u = v)
    (h : clhLockInit c.sh (c.loc t).clhId = some (sh', id')) :
    Init (c.put t (sh', ⟨id', .idle⟩)) := by
  simp only [clhLockInit, Option.ite_none_right_eq_some, Option.some.injEq,
    Prod.mk.injEq] at h
  obtain ⟨-, rfl, rfl⟩ := h
  have honly : ∀ j n, Function.update (fun _ => (none : Option Addr))
      ((c.loc t).clhId.getD c.sh.clhIds) (some c.sh.brk) j = some n →
      j = (c.loc t).clhId.getD c.sh.clhIds ∧ n = c.sh.brk := by
    intro j n hj
    rw [Function.update_apply] at hj
    split at hj
    · exact ⟨‹_›, (Option.some.inj hj).symm⟩
    · exact absurd hj (by simp)
  constructor
  · rfl
  · grind
  · cases hid : (c.loc t).clhId <;> grind
  · cases hid : (c.loc t).clhId <;> grind
  · intro j n hj
    obtain ⟨rfl, rfl⟩ := honly j n hj
    have := hlt t
    cases hid : (c.loc t).clhId <;> grind
  · intro j k n hj hk
    exact (honly j n hj).1.trans (honly k n hk).1.symm

/-- **The CLH queue is a first-come first-served lock.** -/
theorem sim (c₀ : Conf Tid Shared Local) : FifoSim prog always (fun c => Init c ∧ c = c₀)
    Local.phase fun c f => Table c ∧ ∃ M, Line (NodeOfRun c₀) c f M where
  init_out := fun _ h t => by simp [h.1.idle t]
  init_rel := by
    rintro c ⟨h, rfl⟩
    exact ⟨h.line.1, _, h.line.2⟩
  step := by
    rintro c f t a r ⟨htab, M, h⟩ hf _ hs
    obtain ⟨htab', f', M', hm, h'⟩ := h.step htab hf hs
    exact ⟨f', hm, htab', M', h'⟩

/-- **Safety of the CLH lock with node recycling.** In every run at most one thread
    holds the lock; the threads acquire in the order of their swaps on `lock->head`;
    every node is the free node of one thread, the current head, or the node that one
    thread in line waits on, and never two of these; so a node that a thread is about
    to re-arm is not one that another thread still spins on. -/
theorem clhLock_safe {c₀ c : Conf Tid Shared Local} {tr : List (Move Tid Local)}
    (h0 : Init c₀) (hrun : Run prog always c₀ tr c) :
    (∀ t u, Holds c t → Holds c u → t = u) ∧
    acquires Local.phase tr <+: enters Local.phase tr ∧
    (∀ n, NodeOfRun c₀ n → n < c.sh.brk → ∃ k, Refers c n k) ∧
    (∀ n k k', Refers c n k → Refers c n k' → k = k') ∧
    ∀ t u n p, (c.loc t).pc = .setLocked n → (c.loc u).pc = .spin p → p ≠ n := by
  obtain ⟨f, ⟨htab, M, h⟩, hf⟩ := (sim c₀).reach (hrun.reach ⟨h0, rfl⟩)
  refine ⟨?_, (sim c₀).acquires_in_order ⟨h0, rfl⟩ hrun, ?_, fun n k k' => h.refers_unique hf, ?_⟩
  · intro t u ht hu
    exact (h.holds_at hf ht).tid_unique (h.holds_at hf hu)
  · intro n hK hlt
    rcases h.covered n hK hlt with ⟨t, ht, hn⟩ | ⟨i, h1, h2, hn⟩
    · exact ⟨.free t, ht, hn⟩
    · exact h.refers_link hf h1 h2 hn
  · rintro t u n p ht hu rfl
    have hfree : Refers c p (.free t) :=
      ⟨by simp [ht], htab.node t p (by rw [ht]; rfl)⟩
    have hpred : Refers c p (.pred u) := ⟨by simp [hu], by simp [predOf, hu]⟩
    cases h.refers_unique hf hfree hpred

/-- No id and no node has been handed out. -/
def start : Conf (Fin 2) Shared Local :=
  ⟨⟨none, fun _ => none, 0, fun _ => 5, fun _ => some 7, 0⟩, fun _ => ⟨none, .idle⟩⟩

theorem start_init : Init start := by
  constructor <;> simp [start]

/-- Thread 0 acquires, thread 1 waits behind it, thread 0 unlocks and comes back to
    re-arm the node it adopted. -/
def recycle : List (Fin 2 × Act) :=
  [(0, .lock)] ++ List.replicate 8 (0, .go) ++ [(1, .lock)] ++ List.replicate 7 (1, .go)
    ++ [(0, .unlock)] ++ List.replicate 6 (0, .go) ++ [(0, .lock)] ++ List.replicate 3 (0, .go)

theorem clhLock_safe_recycle :
    ∃ (tr : List (Move (Fin 2) Local)) (c : Conf (Fin 2) Shared Local),
      exec prog always start recycle = some c ∧ (c.loc 0).pc = .setLocked 1 ∧
      (c.loc 1).pc = .spin 0 ∧
      (∀ t u, Holds c t → Holds c u → t = u) ∧
      acquires Local.phase tr <+: enters Local.phase tr ∧
      (∀ n, NodeOfRun start n → n < c.sh.brk → ∃ k, Refers c n k) ∧
      (∀ n k k', Refers c n k → Refers c n k' → k = k') ∧
      ∀ t u n p, (c.loc t).pc = .setLocked n → (c.loc u).pc = .spin p → p ≠ n := by
  obtain ⟨c, hc, h0, h1⟩ : ∃ c : Conf (Fin 2) Shared Local,
      exec prog always start recycle = some c ∧
      (c.loc 0).pc = .setLocked 1 ∧ (c.loc 1).pc = .spin 0 := ⟨_, rfl, rfl, rfl⟩
  obtain ⟨tr, hrun⟩ := run_of_exec hc
  exact ⟨tr, c, hc, h0, h1, clhLock_safe start_init hrun⟩

end ClhIn
