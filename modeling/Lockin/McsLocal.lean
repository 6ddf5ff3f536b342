import Mathlib.Data.Finset.Card
import Lockin.GlkSafe

/-! # The nodes of a thread

    `glk_mcs_get_local_lock`, `glk_mcs_get_local_unlock` and `glk_mcs_get_local_nochange` of
    `glk.c`, and the same functions of `mcs_glk_in.c`: one thread that acquires and releases
    any number of MCS locks, in any order.

    A thread has 16 nodes and a table `head` that says for which lock it uses each of them.
    The loops compare `i` with `<=`, so they also look at the word behind the table.  That is
    the flag `waiting` of the first node, which is 0 whenever the thread is not waiting with
    that node: a thread that has all nodes in use takes the flag for a free entry, stores the
    address of the lock to it, and gets a node behind the array.  With at most 16 locks at a
    time the functions do what they should (`getLocal_exclusive`). -/

namespace McsLocal

open Interleaving Glk

/-- An address; `NULL` is 0. -/
abbrev Addr := BitVec 64

/-- `glk_mcs_lock_local_t`, and `mcs_lock_local_t`, whose `head_padding` has no bytes.  Of the
    nodes, `waiting` is what matters here. -/
structure Local where
  head : Fin nestedLocksMax → Addr
  waiting : Fin nestedLocksMax → BitVec 64

/-- `local->head[i]`; the word behind the table is `local->lock[0].waiting`. -/
def Local.word (l : Local) (i : Nat) : Addr :=
  if h : i < nestedLocksMax then l.head ⟨i, h⟩ else l.waiting 0

/-- `local->head[i] = a`. -/
def Local.setWord (l : Local) (i : Nat) (a : Addr) : Local :=
  if h : i < nestedLocksMax then { l with head := Function.update l.head ⟨i, h⟩ a }
  else { l with waiting := Function.update l.waiting 0 a }

/-- `local->lock[i].waiting = w`.  What lies behind the array of nodes is not in the model. -/
def Local.setWaiting (l : Local) (i : Nat) (w : BitVec 64) : Local :=
  if h : i < nestedLocksMax then { l with waiting := Function.update l.waiting ⟨i, h⟩ w } else l

/-- `local->lock[i].waiting != 0`. -/
def Local.isWaiting (l : Local) (i : Nat) : Bool :=
  if h : i < nestedLocksMax then l.waiting ⟨i, h⟩ ≠ 0 else true

/-- `for (i = 0; i <= GLK_MCS_NESTED_LOCKS_MAX; i++) if (local->head[i] == a)`. -/
def Local.find (l : Local) (a : Addr) : Option Nat :=
  (List.range (nestedLocksMax + 1)).find? fun i => l.word i = a

/-- Find the word `a`, and store `b` there. -/
def Local.replace (l : Local) (a b : Addr) : Option Nat × Local :=
  match l.find a with
  | some i => (some i, l.setWord i b)
  | none => (none, l)

/-- `glk_mcs_get_local_lock`: the index of the node, or `NULL`. -/
def glkMcsGetLocalLock (l : Local) (head : Addr) : Option Nat × Local := l.replace 0 head

/-- `glk_mcs_get_local_unlock`. -/
def glkMcsGetLocalUnlock (l : Local) (head : Addr) : Option Nat × Local := l.replace head 0

/-- `glk_mcs_get_local_nochange`. -/
def glkMcsGetLocalNochange (l : Local) (head : Addr) : Option Nat := l.find head

/-- `mcs_get_local_lock`, up to its `assert(0)`. -/
def mcsGetLocalLock (l : Local) (head : Addr) : Option Nat × Local := l.replace 0 head

/-- `mcs_get_local_unlock`, up to its `assert(0)`. -/
def mcsGetLocalUnlock (l : Local) (head : Addr) : Option Nat × Local := l.replace head 0

/-- `mcs_get_local_nochange`, up to its `assert(0)`. -/
def mcsGetLocalNochange (l : Local) (head : Addr) : Option Nat := l.find head

/-- The two files. -/
inductive Lib where
  | glk
  | mcs
  deriving DecidableEq

def Lib.getLocalLock : Lib → Local → Addr → Option Nat × Local
  | .glk => glkMcsGetLocalLock
  | .mcs => mcsGetLocalLock

def Lib.getLocalUnlock : Lib → Local → Addr → Option Nat × Local
  | .glk => glkMcsGetLocalUnlock
  | .mcs => mcsGetLocalUnlock

def Lib.getLocalNochange : Lib → Local → Addr → Option Nat
  | .glk => glkMcsGetLocalNochange
  | .mcs => mcsGetLocalNochange

/-! ## A thread -/

/-- Where the thread is: it has got a node for a lock, or waits with one.  It has `stopped`
    when it has failed to find a node: it follows `NULL`, or its `assert(0)` fails. -/
inductive Pc where
  | idle
  | got (head : Addr) (i : Nat)
  | spin (i : Nat)
  | stopped
  deriving DecidableEq

/-- A thread, with the locks that it holds or awaits and the nodes that it got for them,
    which are history. -/
structure Thread where
  pc : Pc
  used : List (Addr × Nat)

/-- What may happen.  `enter`: the lock is free.  `wait`: it is not, and the thread queues up;
    its predecessor will clear its flag (`granted`).  `giveUp`: the CAS of a trylock fails. -/
inductive Act where
  | acquire (head : Addr)
  | enter
  | wait
  | granted
  | go
  | giveUp
  | release (head : Addr)
  deriving DecidableEq

/-- The locks that the thread holds or awaits. -/
def Thread.locks (th : Thread) : List Addr := th.used.map Prod.fst

/-- The lock is given back. -/
def Thread.without (th : Thread) (head : Addr) : List (Addr × Nat) :=
  th.used.filter fun e => e.1 ≠ head

/-- The start of `glk_mcs_lock_lock` and `glk_mcs_lock_trylock`, or of the functions of
    `mcs_glk_in.c`. -/
def acquire (lib : Lib) (l : Local) (th : Thread) (head : Addr) : Local × Thread :=
  match lib.getLocalLock l head with
  | (some i, l') => (l', ⟨.got head i, (head, i) :: th.used⟩)
  | (none, l') => (l', { th with pc := .stopped })

/-- The start of `glk_mcs_lock_unlock`, and the end of a `glk_mcs_lock_trylock` that fails. -/
def release (lib : Lib) (l : Local) (th : Thread) (head : Addr) : Local × Thread :=
  match lib.getLocalUnlock l head with
  | (some _, l') => (l', ⟨.idle, th.without head⟩)
  | (none, l') => (l', { th with pc := .stopped })

/-- One step of the thread, or of the predecessor of its node. -/
def prog (lib : Lib) : Prog Unit Local Thread Act := fun _ l th a =>
  match th.pc, a with
  | .idle, .acquire head =>
      if head ≠ 0 ∧ head ∉ th.locks then some (acquire lib l th head) else none
  | .got _ _, .enter => some (l, { th with pc := .idle })
  | .got _ i, .wait => some (l.setWaiting i 1, { th with pc := .spin i })
  | .got head _, .giveUp => some (release lib l th head)
  | .spin i, .granted => some (l.setWaiting i 0, th)
  | .spin i, .go => some (l, { th with pc := if l.isWaiting i then .spin i else .idle })
  | .idle, .release head => if head ∈ th.locks then some (release lib l th head) else none
  | _, _ => none

/-- The memory of a new thread is zero. -/
structure Init (c : Conf Unit Local Thread) : Prop where
  sh : c.sh = ⟨fun _ => 0, fun _ => 0⟩
  loc : c.loc () = ⟨.idle, []⟩

/-- No lock is acquired on top of 16 others. -/
def nested (c : Conf Unit Local Thread) (_ : Unit) : Act → Prop
  | .acquire _ => (c.loc ()).used.length < nestedLocksMax
  | _ => True

instance (c : Conf Unit Local Thread) (t : Unit) (a : Act) : Decidable (nested c t a) := by
  cases a <;> unfold nested <;> infer_instance

/-! ## What the functions are for -/

/-- The thread gets a node of its own that it does not use for another lock, or it gets none
    and nothing has changed. -/
def Acquires (lib : Lib) (l : Local) (th : Thread) (head : Addr) : Prop :=
  match lib.getLocalLock l head with
  | (some i, _) => i < nestedLocksMax ∧ i ∉ th.used.map Prod.snd
  | (none, l') => l' = l

/-- The thread gets the node `i`, and only its entry has changed. -/
def Releases (lib : Lib) (l : Local) (head : Addr) (i : Nat) : Prop :=
  ∃ hi : i < nestedLocksMax,
    lib.getLocalUnlock l head = (some i, { l with head := Function.update l.head ⟨i, hi⟩ 0 })

/-! ## The table -/

section Table

variable {l : Local} {a b : Addr} {i : Nat}

/-- The words of the table are its entries. -/
theorem word_eq (hi : i < nestedLocksMax) : l.word i = l.head ⟨i, hi⟩ := dif_pos hi

/-- The word behind the table is the first of the flags. -/
theorem word_behind : l.word nestedLocksMax = l.waiting 0 := dif_neg (Nat.lt_irrefl _)

/-- A store to one of the entries. -/
theorem setWord_eq (hi : i < nestedLocksMax) :
    l.setWord i a = { l with head := Function.update l.head ⟨i, hi⟩ a } := dif_pos hi

/-- The search finds the first word with the value. -/
theorem find_eq_some :
    l.find a = some i ↔ l.word i = a ∧ i ≤ nestedLocksMax ∧ ∀ j < i, l.word j ≠ a := by
  unfold Local.find
  rw [List.find?_range_eq_some, List.mem_range, Nat.lt_succ_iff, decide_eq_true_iff]
  refine and_congr_right fun _ => and_congr_right fun _ => forall₂_congr fun _ _ => ?_
  rw [Bool.not_eq_true', decide_eq_false_iff_not]

/-- The table has an entry `a`, so the loop ends in it. -/
theorem find_of_mem (h : ∃ i, l.head i = a) :
    ∃ i, ∃ hi : i < nestedLocksMax, l.find a = some i ∧ l.head ⟨i, hi⟩ = a := by
  obtain ⟨j, hj⟩ := h
  have hsome : (l.find a).isSome := by
    refine List.find?_isSome.mpr ⟨j, List.mem_range.mpr (j.isLt.trans (Nat.lt_succ_self _)), ?_⟩
    rw [decide_eq_true_iff, word_eq j.isLt]
    exact hj
  obtain ⟨i, hi⟩ := Option.isSome_iff_exists.mp hsome
  obtain ⟨hword, -, hfirst⟩ := find_eq_some.mp hi
  have hij : i ≤ j := by
    by_contra hlt
    exact hfirst j (not_le.mp hlt) ((word_eq j.isLt).trans hj)
  have hlt : i < nestedLocksMax := hij.trans_lt j.isLt
  exact ⟨i, hlt, hi, (word_eq hlt).symm.trans hword⟩

/-- The table has no entry `a`, but the word behind it is `a`. -/
theorem find_behind (h : ∀ i, l.head i ≠ a) (hw : l.waiting 0 = a) :
    l.find a = some nestedLocksMax :=
  find_eq_some.mpr ⟨word_behind.trans hw, le_rfl, fun _ hj => (word_eq hj).trans_ne (h _)⟩

/-- The word that is found is overwritten. -/
theorem replace_of_find (h : l.find a = some i) : l.replace a b = (some i, l.setWord i b) := by
  unfold Local.replace
  rw [h]

end Table

/-- `mcs_get_local_lock` overwrites the first free entry. -/
theorem getLocalLock_eq (lib : Lib) (l : Local) (head : Addr) :
    lib.getLocalLock l head = l.replace 0 head := by
  cases lib <;> rfl

/-- `mcs_get_local_unlock` overwrites the first entry of the lock. -/
theorem getLocalUnlock_eq (lib : Lib) (l : Local) (head : Addr) :
    lib.getLocalUnlock l head = l.replace head 0 := by
  cases lib <;> rfl

/-! ## The table as one lock sees it

    The models of the locks follow one lock and tell its entry from those of others. -/

section Heads

variable {lib : Lib} {l : Local} {this : Addr}

/-- What `Head` keeps of an address. -/
def headOf (this a : Addr) : Head := if a = this then .this else if a = 0 then .null else .other

/-- What `Heads` keeps of the table. -/
def Local.heads (l : Local) (this : Addr) : Heads := headOf this ∘ l.head

theorem heads_eq_null (h0 : this ≠ 0) (i : Fin nestedLocksMax) :
    l.heads this i = .null ↔ l.head i = 0 := by
  rw [Local.heads, Function.comp_apply, headOf]
  split_ifs with hthis hnull
  · rw [hthis]
    exact iff_of_false nofun h0
  · exact iff_of_true rfl hnull
  · exact iff_of_false nofun hnull

theorem heads_eq_this (i : Fin nestedLocksMax) : l.heads this i = .this ↔ l.head i = this := by
  rw [Local.heads, Function.comp_apply, headOf]
  split_ifs with hthis hnull
  · exact iff_of_true rfl hthis
  · exact iff_of_false nofun hthis
  · exact iff_of_false nofun hthis

/-- The loop ends in the table at the entry at which it ends there. -/
theorem firstHead_heads {e : Head} {a : Addr} (he : ∀ i, l.heads this i = e ↔ l.head i = a)
    {i : Nat} (hi : i < nestedLocksMax) (hfind : l.find a = some i) :
    firstHead (l.heads this) e = some ⟨i, hi⟩ := by
  obtain ⟨hword, -, hfirst⟩ := find_eq_some.mp hfind
  have hrange : (List.range nestedLocksMax).find? (fun j => l.word j = a) = some i :=
    List.find?_range_eq_some.mpr ⟨decide_eq_true hword, List.mem_range.mpr hi, fun j hj => by
      rw [Bool.not_eq_true', decide_eq_false_iff_not]
      exact hfirst j hj⟩
  rw [← List.map_coe_finRange_eq_range, List.find?_map] at hrange
  obtain ⟨k, hk, rfl⟩ := Option.map_eq_some_iff.mp hrange
  have hpred : ((fun j => decide (l.word j = a)) ∘ fun k : Fin nestedLocksMax => k.val)
      = fun k => decide (l.heads this k = e) := by
    funext k
    rw [Function.comp_apply, word_eq k.isLt]
    exact decide_eq_decide.mpr (he k).symm
  rw [hpred] at hk
  exact hk

/-- A store to one of the entries, as the MCS lock sees it. -/
theorem heads_setWord {i : Nat} (hi : i < nestedLocksMax) (b : Addr) :
    (l.setWord i b).heads this = Function.update (l.heads this) ⟨i, hi⟩ (headOf this b) := by
  rw [setWord_eq hi]
  exact Function.comp_update ..

theorem headOf_this : headOf this this = .this := if_pos rfl

theorem headOf_null (h0 : this ≠ 0) : headOf this 0 = .null := by
  rw [headOf, if_neg h0.symm, if_pos rfl]

/-- While an entry is free, **`get_local_lock`** is the function of the other models. -/
theorem getLocalLock_heads (h0 : this ≠ 0) (hfree : ∃ i, l.head i = 0) :
    ∃ i l', lib.getLocalLock l this = (some i.val, l') ∧
      Glk.glkMcsGetLocalLock (l.heads this) = some (i, l'.heads this) := by
  obtain ⟨i, hi, hfind, -⟩ := find_of_mem hfree
  refine ⟨⟨i, hi⟩, l.setWord i this, ?_, ?_⟩
  · rw [getLocalLock_eq, replace_of_find hfind]
  · rw [Glk.glkMcsGetLocalLock, firstHead_heads (heads_eq_null h0) hi hfind, heads_setWord hi,
      headOf_this]
    rfl

/-- While the lock has an entry, **`get_local_unlock`** is. -/
theorem getLocalUnlock_heads (h0 : this ≠ 0) (hthis : ∃ i, l.head i = this) :
    ∃ i l', lib.getLocalUnlock l this = (some i.val, l') ∧
      Glk.glkMcsGetLocalUnlock (l.heads this) = some (i, l'.heads this) := by
  obtain ⟨i, hi, hfind, -⟩ := find_of_mem hthis
  refine ⟨⟨i, hi⟩, l.setWord i 0, ?_, ?_⟩
  · rw [getLocalUnlock_eq, replace_of_find hfind]
  · rw [Glk.glkMcsGetLocalUnlock, firstHead_heads heads_eq_this hi hfind, heads_setWord hi,
      headOf_null h0]
    rfl

end Heads

/-! ## The invariant -/

/-- The table has the locks that the thread holds or awaits, each at its node, and the flags
    are 0 but for the node that the thread waits with. -/
structure Slots (l : Local) (th : Thread) : Prop where
  entry : ∀ head i, (head, i) ∈ th.used ↔
    head ≠ 0 ∧ ∃ hi : i < nestedLocksMax, l.head ⟨i, hi⟩ = head
  distinct : th.locks.Nodup
  quiet : ∀ i, th.pc ≠ .spin i.val → l.waiting i = 0
  got : ∀ head i, th.pc = .got head i → (head, i) ∈ th.used

namespace Slots

variable {lib : Lib} {l : Local} {th : Thread} {head : Addr} {i : Nat}

/-- A lock has one node. -/
theorem node_unique (h : Slots l th) {j : Nat} (hi : (head, i) ∈ th.used)
    (hj : (head, j) ∈ th.used) : i = j :=
  (Prod.mk.inj (List.inj_on_of_nodup_map h.distinct hi hj rfl)).2

/-- A node belongs to one lock. -/
theorem nodes_nodup (h : Slots l th) : (th.used.map Prod.snd).Nodup := by
  refine List.Nodup.map_on ?_ (List.Nodup.of_map _ h.distinct)
  rintro ⟨a, i⟩ ha ⟨b, j⟩ hb hij
  obtain rfl : i = j := hij
  obtain ⟨-, _, hia⟩ := (h.entry a i).mp ha
  obtain ⟨-, _, hib⟩ := (h.entry b i).mp hb
  rw [← hia, ← hib]

/-- The nodes in use are the entries that are not free. -/
theorem mem_nodes (h : Slots l th) :
    i ∈ th.used.map Prod.snd ↔ ∃ hi : i < nestedLocksMax, l.head ⟨i, hi⟩ ≠ 0 := by
  rw [List.mem_map]
  constructor
  · rintro ⟨⟨a, j⟩, ha, rfl⟩
    obtain ⟨hne, hj, rfl⟩ := (h.entry a j).mp ha
    exact ⟨hj, hne⟩
  · rintro ⟨hi, hne⟩
    exact ⟨(l.head ⟨i, hi⟩, i), (h.entry _ _).mpr ⟨hne, hi, rfl⟩, rfl⟩

/-- Fewer than 16 locks leave an entry free. -/
theorem exists_free (h : Slots l th) :
    th.used.length < nestedLocksMax ↔ ∃ i, l.head i = 0 := by
  have hcard : (th.used.map Prod.snd).toFinset.card = th.used.length := by
    rw [List.toFinset_card_of_nodup h.nodes_nodup, List.length_map]
  rw [← hcard]
  constructor
  · intro hlt
    by_contra hfull
    push Not at hfull
    have hsub : Finset.range nestedLocksMax ⊆ (th.used.map Prod.snd).toFinset := by
      intro i hi
      have hi := Finset.mem_range.mp hi
      exact List.mem_toFinset.mpr (h.mem_nodes.mpr ⟨hi, hfull _⟩)
    have := Finset.card_le_card hsub
    rw [Finset.card_range] at this
    omega
  · rintro ⟨i, hi⟩
    have hsub : (th.used.map Prod.snd).toFinset ⊆ (Finset.range nestedLocksMax).erase i.val := by
      intro j hj
      obtain ⟨hlt, hne⟩ := h.mem_nodes.mp (List.mem_toFinset.mp hj)
      refine Finset.mem_erase.mpr ⟨?_, Finset.mem_range.mpr hlt⟩
      rintro rfl
      exact hne hi
    refine (Finset.card_le_card hsub).trans_lt ?_
    rw [Finset.card_erase_of_mem (Finset.mem_range.mpr i.isLt), Finset.card_range]
    exact Nat.sub_lt (Nat.succ_pos _) Nat.one_pos

/-- **`get_local_lock`** does what it should exactly when an entry is free. -/
theorem acquires_iff (h : Slots l th) (hpc : th.pc = .idle) :
    Acquires lib l th head ↔ th.used.length < nestedLocksMax := by
  rw [h.exists_free]
  unfold Acquires
  rw [getLocalLock_eq]
  constructor
  · intro hacq
    by_contra hfull
    push Not at hfull
    have hzero : l.waiting 0 = 0 := by
      refine h.quiet 0 ?_
      rw [hpc]
      exact nofun
    rw [replace_of_find (find_behind hfull hzero)] at hacq
    exact Nat.lt_irrefl _ hacq.1
  · intro hfree
    obtain ⟨i, hi, hfind, hzero⟩ := find_of_mem hfree
    rw [replace_of_find hfind]
    refine ⟨hi, fun hmem => ?_⟩
    obtain ⟨_, hne⟩ := h.mem_nodes.mp hmem
    exact hne hzero

/-- **`get_local_unlock`** gives back the node of the lock. -/
theorem find_used (h : Slots l th) (hused : (head, i) ∈ th.used) : l.find head = some i := by
  obtain ⟨hne, hi, hhead⟩ := (h.entry head i).mp hused
  obtain ⟨j, hj, hfind, hjhead⟩ := find_of_mem ⟨⟨i, hi⟩, hhead⟩
  rw [hfind, h.node_unique hused ((h.entry head j).mpr ⟨hne, hj, hjhead⟩)]

/-- An unlock finds the node of its lock. -/
theorem releases (h : Slots l th) (hused : (head, i) ∈ th.used) : Releases lib l head i := by
  obtain ⟨-, hi, -⟩ := (h.entry head i).mp hused
  refine ⟨hi, ?_⟩
  rw [getLocalUnlock_eq, replace_of_find (h.find_used hused), setWord_eq hi]

/-- A lock is acquired. -/
theorem acquire (h : Slots l th) (hpc : th.pc = .idle) (hne : head ≠ 0) (hnew : head ∉ th.locks)
    (hlen : th.used.length < nestedLocksMax) :
    Slots (McsLocal.acquire lib l th head).1 (McsLocal.acquire lib l th head).2 := by
  obtain ⟨i, hi, hfind, hzero⟩ := find_of_mem (h.exists_free.mp hlen)
  have hacq : McsLocal.acquire lib l th head
      = ({ l with head := Function.update l.head ⟨i, hi⟩ head },
        ⟨.got head i, (head, i) :: th.used⟩) := by
    unfold McsLocal.acquire
    rw [getLocalLock_eq, replace_of_find hfind, setWord_eq hi]
  rw [hacq]
  refine ⟨fun a j => ?_, List.nodup_cons.mpr ⟨hnew, h.distinct⟩, fun j _ => ?_, ?_⟩
  · rw [List.mem_cons, Prod.mk.injEq, h.entry]
    by_cases hj : j = i
    · subst hj
      constructor
      · rintro (⟨rfl, -⟩ | ⟨ha, _, rfl⟩)
        · exact ⟨hne, hi, Function.update_self ..⟩
        · exact absurd hzero ha
      · rintro ⟨-, _, rfl⟩
        exact Or.inl ⟨Function.update_self .., rfl⟩
    · have hother : ∀ hj' : j < nestedLocksMax,
          Function.update l.head ⟨i, hi⟩ head ⟨j, hj'⟩ = l.head ⟨j, hj'⟩ :=
        fun _ => Function.update_of_ne (fun heq => hj (Fin.mk.inj heq)) ..
      simp only [hj, and_false, false_or, hother]
  · refine h.quiet j ?_
    rw [hpc]
    exact nofun
  · intro a j hgot
    obtain ⟨rfl, rfl⟩ := Pc.got.inj hgot
    exact List.mem_cons_self

/-- A lock is released. -/
theorem release (h : Slots l th) (hspin : ∀ j, th.pc ≠ .spin j) (hmem : head ∈ th.locks) :
    Slots (McsLocal.release lib l th head).1 (McsLocal.release lib l th head).2 := by
  obtain ⟨⟨a, i⟩, hused, rfl⟩ := List.mem_map.mp hmem
  obtain ⟨hi, hget⟩ : Releases lib l a i := h.releases hused
  have hrel : McsLocal.release lib l th a
      = ({ l with head := Function.update l.head ⟨i, hi⟩ 0 }, ⟨.idle, th.without a⟩) := by
    unfold McsLocal.release
    rw [hget]
  rw [hrel]
  refine ⟨fun b j => ?_, h.distinct.sublist (List.filter_sublist.map _), fun j _ => ?_, nofun⟩
  · have hwithout : (b, j) ∈ th.without a ↔ (b, j) ∈ th.used ∧ b ≠ a := by
      rw [Thread.without, List.mem_filter, decide_eq_true_iff]
    dsimp only
    rw [hwithout, h.entry]
    by_cases hj : j = i
    · subst hj
      constructor
      · rintro ⟨⟨-, _, hb⟩, hba⟩
        obtain ⟨-, _, ha⟩ := (h.entry a j).mp hused
        exact absurd (hb.symm.trans ha) hba
      · rintro ⟨hb, _, hz⟩
        rw [Function.update_self] at hz
        exact absurd hz.symm hb
    · have hother : ∀ hj' : j < nestedLocksMax,
          Function.update l.head ⟨i, hi⟩ 0 ⟨j, hj'⟩ = l.head ⟨j, hj'⟩ :=
        fun _ => Function.update_of_ne (fun heq => hj (Fin.mk.inj heq)) ..
      simp only [hother]
      refine and_iff_left_of_imp fun hb hba => ?_
      subst hba
      exact hj (h.node_unique ((h.entry b j).mpr hb) hused)
  · exact h.quiet j (hspin j)

end Slots

variable {lib : Lib} {c : Conf Unit Local Thread}

/-- Before the first call. -/
theorem Init.slots (h : Init c) : Slots c.sh (c.loc ()) := by
  rw [h.sh, h.loc]
  refine ⟨fun a i => ?_, List.nodup_nil, fun _ _ => rfl, nofun⟩
  refine iff_of_false List.not_mem_nil ?_
  rintro ⟨hne, _, hz⟩
  exact hne hz.symm

/-- **Step lemma.** -/
theorem Slots.step {l : Local} {th : Thread} {a : Act} {r : Local × Thread} (h : Slots l th)
    (hok : nested ⟨l, fun _ => th⟩ () a) (hs : prog lib () l th a = some r) : Slots r.1 r.2 := by
  obtain ⟨pc, used⟩ := th
  cases pc with
  | idle =>
      cases a with
      | acquire head =>
          obtain ⟨⟨hne, hnew⟩, hr⟩ := Option.ite_none_right_eq_some.mp hs
          obtain rfl := Option.some.inj hr
          exact h.acquire rfl hne hnew hok
      | release head =>
          obtain ⟨hmem, hr⟩ := Option.ite_none_right_eq_some.mp hs
          obtain rfl := Option.some.inj hr
          exact h.release nofun hmem
      | _ => exact nomatch hs
  | got head i =>
      have hused : (head, i) ∈ used := h.got head i rfl
      cases a with
      | enter =>
          obtain rfl := Option.some.inj hs
          exact ⟨h.entry, h.distinct, fun j _ => h.quiet j nofun, nofun⟩
      | wait =>
          obtain rfl := Option.some.inj hs
          obtain ⟨-, hi, -⟩ := (h.entry head i).mp hused
          rw [Local.setWaiting, dif_pos hi]
          refine ⟨h.entry, h.distinct, fun j hj => ?_, nofun⟩
          have hne : j ≠ ⟨i, hi⟩ := by
            rintro rfl
            exact hj rfl
          exact (Function.update_of_ne hne ..).trans (h.quiet j nofun)
      | giveUp =>
          obtain rfl := Option.some.inj hs
          exact h.release nofun (List.mem_map.mpr ⟨_, hused, rfl⟩)
      | _ => exact nomatch hs
  | spin i =>
      cases a with
      | granted =>
          obtain rfl := Option.some.inj hs
          rw [Local.setWaiting]
          split
          · refine ⟨h.entry, h.distinct, fun j hj => ?_, nofun⟩
            dsimp only
            rw [Function.update_apply]
            split
            · rfl
            · exact h.quiet j hj
          · exact h
      | go =>
          obtain rfl := Option.some.inj hs
          refine ⟨h.entry, h.distinct, fun j hj => ?_, ?_⟩
          · by_cases hij : i = j.val
            · subst hij
              by_contra hw
              have hwaits : l.isWaiting j = true := by
                rw [Local.isWaiting, dif_pos j.isLt]
                exact decide_eq_true hw
              exact hj (if_pos hwaits)
            · exact h.quiet j fun heq => hij (Pc.spin.inj heq)
          · dsimp only
            split <;> exact nofun
      | _ => exact nomatch hs
  | stopped => cases a <;> exact nomatch hs

/-- **Run lemma.** -/
theorem slots_of_reach (hc : Reach (prog lib) nested Init c) : Slots c.sh (c.loc ()) := by
  refine hc.invariant (I := fun c => Slots c.sh (c.loc ())) (fun _ h => h.slots) ?_
  intro c t a r h hok hs
  rw [put_sh, put_loc_self]
  exact h.step (a := a) (by cases a <;> exact hok) hs

/-- **The nodes of a thread are exclusive**, in every run in which the thread holds or awaits
    at most 16 locks: a release gets the node of its acquisition and changes no other entry,
    and the next acquisition gets a node of its own, or fails without a change, exactly when
    fewer than 16 are in use. -/
theorem getLocal_exclusive (lib : Lib) {c : Conf Unit Local Thread}
    (hc : Reach (prog lib) nested Init c) :
    (∀ head i, (head, i) ∈ (c.loc ()).used → Releases lib c.sh head i) ∧
    ((c.loc ()).pc = .idle → ∀ head,
      (Acquires lib c.sh (c.loc ()) head ↔ (c.loc ()).used.length < nestedLocksMax)) := by
  have h := slots_of_reach hc
  exact ⟨fun _ _ hused => h.releases hused, fun hpc _ => h.acquires_iff hpc⟩

/-! ## Runs -/

/-- A new thread. -/
def start : Conf Unit Local Thread := ⟨⟨fun _ => 0, fun _ => 0⟩, fun _ => ⟨.idle, []⟩⟩

theorem start_init : Init start := ⟨rfl, rfl⟩

/-- A lock is acquired at once. -/
def take (head : Addr) : List (Unit × Act) := [((), .acquire head), ((), .enter)]

/-- The thread takes a lock, waits for a second one, releases the first and takes a third. -/
def crossed : List (Unit × Act) :=
  take 64 ++ [((), .acquire 128), ((), .wait), ((), .granted), ((), .go), ((), .release 64)] ++
    take 192

/-- The third lock gets the node of the first. -/
theorem getLocal_exclusive_crossed : ∃ c, Reach (prog .glk) nested Init c ∧
    (c.loc ()).used = [(192, 0), (128, 1)] ∧ Releases .glk c.sh 128 1 ∧
    ∀ head, Acquires .glk c.sh (c.loc ()) head := by
  have hrun : (exec (prog .glk) nested start crossed).map
      (fun c => ((c.loc ()).pc, (c.loc ()).used)) = some (.idle, [(192, 0), (128, 1)]) := by
    decide +kernel
  obtain ⟨c, hx, hP⟩ := Option.map_eq_some_iff.mp hrun
  obtain ⟨hpc, hused⟩ := Prod.mk.inj hP
  have hc := reach_of_exec start_init hx
  obtain ⟨hrel, hacq⟩ := getLocal_exclusive .glk hc
  refine ⟨c, hc, hused, hrel 128 1 ?_, fun head => (hacq hpc head).mpr ?_⟩
  · rw [hused]
    decide
  · rw [hused]
    decide

/-- The thread holds 16 locks. -/
def all : List (Unit × Act) :=
  (List.range nestedLocksMax).flatMap fun k => take (BitVec.ofNat 64 (64 * (k + 1)))

/-- The next acquisition gets a node behind the array, in both files. -/
theorem getLocal_not_exclusive : ¬ ∃ lib : Lib, ∀ c, Reach (prog lib) always Init c →
    (c.loc ()).pc = .idle → ∀ head, head ≠ 0 → head ∉ (c.loc ()).locks →
      Acquires lib c.sh (c.loc ()) head := by
  rintro ⟨lib, hclaim⟩
  have hrun : (exec (prog lib) always start all).map (fun c => ((c.loc ()).pc,
      decide (1088 ∉ (c.loc ()).locks), (lib.getLocalLock c.sh 1088).1)) =
      some (.idle, true, some nestedLocksMax) := by
    cases lib <;> decide +kernel
  obtain ⟨c, hx, hP⟩ := Option.map_eq_some_iff.mp hrun
  obtain ⟨hpc, hP⟩ := Prod.mk.inj hP
  obtain ⟨hnew, hget⟩ := Prod.mk.inj hP
  have hacq := hclaim c (reach_of_exec start_init hx) hpc 1088 (by decide) (of_decide_eq_true hnew)
  unfold Acquires at hacq
  split at hacq
  · next i l' heq =>
    rw [heq] at hget
    obtain rfl := Option.some.inj hget
    exact Nat.lt_irrefl _ hacq.1
  · next l' heq =>
    rw [heq] at hget
    exact nomatch hget

end McsLocal
