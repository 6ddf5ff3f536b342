import Lockin.FifoLock

/-! # The MCS queue protocol

    The linked queue lock of Mellor-Crummey and Scott over an arbitrary type of
    queue nodes.  A thread brings a node that no other thread is using, swaps it
    into `tail`, and links itself behind the node it got back; the one in front
    clears the `waiting` flag of its successor.

    The queue is only PARTIALLY LINKED at any time: between the swap and the link
    a node is reachable from nowhere but `tail`.  So the representation of the
    line (`Line`) does not walk the `next` pointers.  It says, for every two
    neighbouring places, how far the later one is with linking itself behind the
    earlier one (`Pc.Behind`). -/

namespace McsQueue

open Interleaving FifoLock

variable {Tid N : Type}

/-- The queue word and the two fields of every node. -/
structure Shared (N : Type) where
  tail : Option N
  next : N → Option N
  waiting : N → Bool

/-- Where a thread is; `n` is the node it brought, `p` the node it got back. -/
inductive Pc (N : Type) where
  | idle
  | clearNext (try_ : Bool) (n : N)
  | swap (n : N)
  | cas (n : N)
  | setWaiting (n p : N)
  | link (n p : N)
  | spin (n : N)
  | held (n : N)
  | casTail (n : N)
  | waitNext (n : N)
  | clear (succ : N)
  deriving DecidableEq

/-- `lock` and `tryLock` start an acquisition with a node; everything else is
    determined. -/
inductive Act (N : Type) where
  | lock (n : N)
  | tryLock (n : N)
  | go

/-- The node a thread is using. -/
@[simp, grind =] def Pc.node : Pc N → Option N
  | .idle => none
  | .clearNext _ n => some n
  | .swap n => some n
  | .cas n => some n
  | .setWaiting n _ => some n
  | .link n _ => some n
  | .spin n => some n
  | .held n => some n
  | .casTail n => some n
  | .waitNext n => some n
  | .clear _ => none

/-- A thread is in line from its swap until it has found its successor, or has
    found that there is none. -/
@[simp, grind =] def Pc.phase : Pc N → Phase
  | .idle => .out
  | .clearNext _ _ => .out
  | .swap _ => .out
  | .cas _ => .out
  | .setWaiting _ _ => .waiting
  | .link _ _ => .waiting
  | .spin _ => .waiting
  | .held _ => .holding
  | .casTail _ => .holding
  | .waitNext _ => .holding
  | .clear _ => .out

variable [DecidableEq N]

/-- One step of the protocol. -/
def prog : Prog Tid (Shared N) (Pc N) (Act N)
  | _, sh, .idle, .lock n => some (sh, .clearNext false n)
  | _, sh, .idle, .tryLock n => some (sh, .clearNext true n)
  | _, sh, .clearNext b n, .go =>
      some ({ sh with next := Function.update sh.next n none },
        if b then .cas n else .swap n)
  | _, sh, .swap n, .go =>
      some ({ sh with tail := some n },
        match sh.tail with
        | none => .held n
        | some p => .setWaiting n p)
  | _, sh, .cas n, .go =>
      if sh.tail = none then some ({ sh with tail := some n }, .held n)
      else some (sh, .idle)
  | _, sh, .setWaiting n p, .go =>
      some ({ sh with waiting := Function.update sh.waiting n true }, .link n p)
  | _, sh, .link n p, .go =>
      some ({ sh with next := Function.update sh.next p (some n) }, .spin n)
  | _, sh, .spin n, .go => some (sh, if sh.waiting n then .spin n else .held n)
  | _, sh, .held n, .go =>
      some (sh, match sh.next n with
        | none => .casTail n
        | some s => .clear s)
  | _, sh, .casTail n, .go =>
      if sh.tail = some n then some ({ sh with tail := none }, .idle)
      else some (sh, .waitNext n)
  | _, sh, .waitNext n, .go =>
      some (sh, match sh.next n with
        | none => .waitNext n
        | some s => .clear s)
  | _, sh, .clear s, .go =>
      some ({ sh with waiting := Function.update sh.waiting s false }, .idle)
  | _, _, _, _ => none

/-- How far a waiting thread is with linking itself behind the node `p`. -/
@[simp, grind =] def Pc.Behind (sh : Shared N) (p : N) : Pc N → Prop
  | .setWaiting _ q => q = p ∧ sh.next p = none
  | .link n q => q = p ∧ sh.next p = none ∧ sh.waiting n = true
  | .spin n => sh.next p = some n ∧ sh.waiting n = true
  | _ => False

/-- The flag of node `n` has been cleared, or the thread in front is about to
    clear it. -/
def Released (c : Conf Tid (Shared N) (Pc N)) (n : N) : Prop :=
  c.sh.waiting n = false ∨ ∃ u, c.loc u = .clear n

/-- The thread whose turn it is: it holds, or it has been handed the lock, or the
    thread in front is about to hand it over. -/
def Owner (c : Conf Tid (Shared N) (Pc N)) (t : Tid) : Prop :=
  (c.loc t).phase = .holding ∨ ∃ n, c.loc t = .spin n ∧ Released c n

/-- `u` is linked behind `t`, or is about to link itself. -/
def LinksBehind (c : Conf Tid (Shared N) (Pc N)) (t u : Tid) : Prop :=
  ∃ n, (c.loc t).node = some n ∧ (c.loc u).Behind c.sh n

/-- The threads in line are `q`: the first one is the owner and nobody else is,
    everyone links itself behind the one in front, and `tail` names the node of
    the last. -/
structure Queue (c : Conf Tid (Shared N) (Pc N)) (q : List Tid) : Prop where
  mem : ∀ t, t ∈ q ↔ (c.loc t).phase ≠ .out
  nodup : q.Nodup
  owner : ∀ t, t ∈ q → (Owner c t ↔ q.head? = some t)
  linked : q.IsChain (LinksBehind c)
  tail : c.sh.tail = q.getLast?.bind fun t => (c.loc t).node

/-- A thread may start only with a node that no other thread is using. -/
def fresh (c : Conf Tid (Shared N) (Pc N)) (t : Tid) : Act N → Prop
  | .lock n => ∀ u, u ≠ t → (c.loc u).node ≠ some n
  | .tryLock n => ∀ u, u ≠ t → (c.loc u).node ≠ some n
  | .go => True

/-- Nobody is using the lock. -/
structure Init (c : Conf Tid (Shared N) (Pc N)) : Prop where
  tail : c.sh.tail = none
  idle : ∀ t, c.loc t = .idle

/-- How the nodes represent the line `f`. -/
structure Line (c : Conf Tid (Shared N) (Pc N)) (f : Fifo Tid) : Prop where
  distinct : ∀ t u n, (c.loc t).node = some n → (c.loc u).node = some n → t = u
  tail_empty : f.rel = f.log.length → c.sh.tail = none
  tail_last : ∀ t k, f.At k t → k + 1 = f.log.length → c.sh.tail = (c.loc t).node
  last_next : ∀ t k n, f.At k t → k + 1 = f.log.length → (c.loc t).node = some n →
    c.sh.next n = none
  behind : ∀ t u k n, f.At k t → f.At (k + 1) u → (c.loc t).node = some n →
    (c.loc u).Behind c.sh n
  head : ∀ t, f.At f.rel t → (c.loc t).phase = .waiting →
    ∃ n, c.loc t = .spin n ∧ Released c n
  clear_head : ∀ u n, c.loc u = .clear n →
    c.sh.waiting n = true ∧ ∃ t, f.At f.rel t ∧ c.loc t = .spin n
  clear_unique : ∀ u v m n, c.loc u = .clear m → c.loc v = .clear n → u = v
  succ_exists : ∀ t n, c.loc t = .waitNext n → f.rel + 1 < f.log.length
  unlinked : ∀ t n, c.loc t = .swap n ∨ c.loc t = .cas n → c.sh.next n = none

/-! ## What a step does not disturb -/

omit [DecidableEq N] in
theorem Pc.Behind.congr {sh sh' : Shared N} {p : N} {l : Pc N} (h : l.Behind sh p)
    (hnext : sh'.next p = sh.next p)
    (hwait : ∀ n, l.node = some n → sh'.waiting n = sh.waiting n) :
    l.Behind sh' p := by
  cases l <;> simp_all

omit [DecidableEq N] in
theorem Pc.Behind.phase {sh : Shared N} {p : N} {l : Pc N} (h : l.Behind sh p) :
    l.phase = .waiting := by
  cases l <;> first | rfl | exact h.elim

omit [DecidableEq N] in
theorem Pc.node_of_phase {l : Pc N} (h : l.phase ≠ .out) : ∃ n, l.node = some n := by
  cases l <;> simp_all

variable [DecidableEq Tid]

omit [DecidableEq N] in
/-- Only the thread that is to clear a flag can take the promise back. -/
theorem Released.put {c : Conf Tid (Shared N) (Pc N)} {n : N} (h : Released c n)
    {t : Tid} {sh' : Shared N} {l : Pc N} (hnc : c.loc t ≠ .clear n)
    (hwait : sh'.waiting n = c.sh.waiting n) : Released (c.put t (sh', l)) n := by
  rcases h with h0 | ⟨u, hu⟩
  · exact Or.inl (hwait.trans h0)
  · refine Or.inr ⟨u, ?_⟩
    have hut : u ≠ t := by rintro rfl; exact hnc hu
    rw [put_loc_ne c _ hut, hu]

/-! ## Every step moves the line -/

namespace Line

variable {c : Conf Tid (Shared N) (Pc N)} {f : Fifo Tid} {t : Tid}

omit [DecidableEq Tid] [DecidableEq N] in
/-- The last thread in line, when there is one, has the node that `tail` names. -/
theorem exists_last (h : Line c f) (hf : f.Ok fun u => (c.loc u).phase)
    (hne : f.rel ≠ f.log.length) :
    ∃ u n, f.At (f.log.length - 1) u ∧ (c.loc u).node = some n ∧
      c.sh.tail = some n ∧ c.sh.next n = none := by
  have hlen := hf.rel_le_len
  obtain ⟨u, hu⟩ := f.exists_at (k := f.log.length - 1) (by omega) (by omega)
  obtain ⟨n, hn⟩ := Pc.node_of_phase ((hf.place u).mpr ⟨_, hu⟩)
  refine ⟨u, n, hu, hn, ?_, h.last_next u _ n hu (by omega) hn⟩
  rw [h.tail_last u _ hu (by omega), hn]

omit [DecidableEq Tid] [DecidableEq N] in
theorem free_of_tail (h : Line c f) (hf : f.Ok fun u => (c.loc u).phase)
    (htail : c.sh.tail = none) : f.rel = f.log.length := by
  by_contra hne
  obtain ⟨u, n, -, -, hn, -⟩ := h.exists_last hf hne
  simp [htail] at hn

omit [DecidableEq Tid] [DecidableEq N] in
/-- Whose node `tail` names is last in line. -/
theorem last_of_tail (h : Line c f) (hf : f.Ok fun u => (c.loc u).phase) {k : Nat} {n : N}
    (ht : f.At k t) (hn : (c.loc t).node = some n) (htail : c.sh.tail = some n) :
    k + 1 = f.log.length := by
  have hlt := ht.lt_length
  have hle := ht.rel_le
  obtain ⟨u, m, hu, hm, hmt, -⟩ := h.exists_last hf (by omega)
  obtain rfl : n = m := Option.some.inj (htail.symm.trans hmt)
  obtain rfl := h.distinct t u n hn hm
  have := hf.unique t _ _ ht hu
  omega

omit [DecidableEq N] in
/-- A thread that is not in line moves without joining it. -/
theorem outside (h : Line c f) (hf : f.Ok fun u => (c.loc u).phase)
    {sh' : Shared N} {l : Pc N} (hout : (c.loc t).phase = .out)
    (hnc : ∀ n, c.loc t ≠ .clear n) (hout' : l.phase = .out) (hnc' : ∀ n, l ≠ .clear n)
    (hfresh : ∀ u n, u ≠ t → l.node = some n → (c.loc u).node ≠ some n)
    (htail : sh'.tail = c.sh.tail) (hwait : sh'.waiting = c.sh.waiting)
    (hnext : ∀ n, l.node ≠ some n → sh'.next n = c.sh.next n)
    (hnull : ∀ n, l = .swap n ∨ l = .cas n → sh'.next n = none) :
    Line (c.put t (sh', l)) f := by
  have hnot : ∀ k, ¬ f.At k t := hf.not_at_of_out hout
  constructor
  · have := h.distinct
    grind
  · have := h.tail_empty
    grind
  · have := h.tail_last
    grind
  · have := h.last_next
    grind
  · intro a b k m ha hb hm
    have hat : a ≠ t := by rintro rfl; exact hnot _ ha
    have hbt : b ≠ t := by rintro rfl; exact hnot _ hb
    rw [put_loc_ne c _ hat] at hm
    rw [put_loc_ne c _ hbt]
    refine (h.behind a b k m ha hb hm).congr (hnext m ?_) fun n _ => congrFun hwait n
    exact fun hml => hfresh a m hat hml hm
  · intro a ha hw
    have hat : a ≠ t := by rintro rfl; exact hnot _ ha
    rw [put_loc_ne c _ hat] at hw ⊢
    obtain ⟨n, hn, hr⟩ := h.head a ha hw
    exact ⟨n, hn, hr.put (hnc n) (congrFun hwait n)⟩
  · have := h.clear_head
    grind
  · have := h.clear_unique
    grind
  · have := h.succ_exists
    grind
  · have := h.unlinked
    grind

omit [DecidableEq N] in
/-- A swap behind somebody takes the next place. -/
theorem enter (h : Line c f) (hf : f.Ok fun u => (c.loc u).phase) {n p : N}
    (hl : c.loc t = .swap n) (htail : c.sh.tail = some p) :
    Line (c.put t ({ c.sh with tail := some n }, .setWaiting n p)) (f.enter t) := by
  have hn : (c.loc t).node = some n := by rw [hl]; rfl
  have hlen := hf.rel_le_len
  have hout : ∀ k, ¬ f.At k t := hf.not_at_of_out (by rw [hl]; rfl)
  have hat := fun u k => Fifo.enter_at hlen t u k
  have hne : f.rel ≠ f.log.length := by
    intro h0
    simp [h.tail_empty h0] at htail
  obtain ⟨u, p', hu, hup, hp, hnext⟩ := h.exists_last hf hne
  obtain rfl : p = p' := Option.some.inj (htail.symm.trans hp)
  have hnn := h.unlinked t n (Or.inl hl)
  constructor
  · have := h.distinct
    grind
  · simp only [Fifo.enter_rel, Fifo.enter_log, List.length_append, List.length_singleton]
    omega
  · intro a k ha hk
    simp only [Fifo.enter_log, List.length_append, List.length_singleton] at hk
    grind
  · intro a k m ha hk hm
    simp only [Fifo.enter_log, List.length_append, List.length_singleton] at hk
    grind
  · intro a b k m ha hb hm
    have ha' : f.At k a := by
      have := hb.lt_length
      simp only [Fifo.enter_log, List.length_append, List.length_singleton] at this
      grind
    have hat' : a ≠ t := by rintro rfl; exact hout _ ha'
    rw [put_loc_ne c _ hat'] at hm
    rcases (hat b (k + 1)).mp hb with hb' | ⟨hk, rfl⟩
    · have hbt : b ≠ t := by rintro rfl; exact hout _ hb'
      rw [put_loc_ne c _ hbt]
      exact (h.behind a b k m ha' hb' hm).congr rfl fun _ _ => rfl
    · have hka : k = f.log.length - 1 := by omega
      subst hka
      obtain rfl := ha'.tid_unique hu
      obtain rfl : p = m := Option.some.inj (hup.symm.trans hm)
      simpa using hnext
  · intro a ha hw
    have ha' : f.At f.rel a := by grind
    have hat' : a ≠ t := by rintro rfl; exact hout _ ha'
    rw [put_loc_ne c _ hat'] at hw ⊢
    obtain ⟨m, hm, hr⟩ := h.head a ha' hw
    exact ⟨m, hm, hr.put (by simp [hl]) rfl⟩
  · have := h.clear_head
    grind
  · have := h.clear_unique
    grind
  · have := h.succ_exists
    grind
  · have := h.unlinked
    grind

omit [DecidableEq N] in
/-- A swap or CAS on the empty queue takes the place and the lock. -/
theorem enterFree (h : Line c f) (hf : f.Ok fun u => (c.loc u).phase) {n : N}
    (hl : c.loc t = .swap n ∨ c.loc t = .cas n) (htail : c.sh.tail = none) :
    Line (c.put t ({ c.sh with tail := some n }, .held n)) (f.enter t).acquire := by
  have hn : (c.loc t).node = some n := by rcases hl with hl | hl <;> rw [hl] <;> rfl
  have hlen := hf.rel_le_len
  have hfree := h.free_of_tail hf htail
  have hat : ∀ u k, (f.enter t).acquire.At k u ↔ k = f.log.length ∧ u = t := by
    intro u k
    rw [Fifo.acquire_at, Fifo.enter_at hlen]
    grind
  have hnn := h.unlinked t n hl
  constructor
  · have := h.distinct
    grind
  · grind
  · grind
  · grind
  · grind
  · grind
  · have := h.clear_head
    grind
  · have := h.clear_unique
    grind
  · have := h.succ_exists
    grind
  · have := h.unlinked
    grind

/-- The flag is raised before anybody can clear it. -/
theorem setWaiting (h : Line c f) {n p : N}
    (hl : c.loc t = .setWaiting n p) :
    Line (c.put t ({ c.sh with waiting := Function.update c.sh.waiting n true },
      .link n p)) f := by
  have hn : (c.loc t).node = some n := by rw [hl]; rfl
  have hph : (c.loc t).phase = .waiting := by rw [hl]; rfl
  have hwait : ∀ m, m ≠ n → Function.update c.sh.waiting n true m = c.sh.waiting m :=
    fun m hm => Function.update_of_ne hm ..
  constructor
  · have := h.distinct
    grind
  · have := h.tail_empty
    grind
  · have := h.tail_last
    grind
  · have := h.last_next
    grind
  · intro a b k m ha hb hm
    have hm' : (c.loc a).node = some m := by grind
    have hbeh := h.behind a b k m ha hb hm'
    by_cases hbt : b = t
    · rw [hbt, hl] at hbeh
      rw [hbt, put_loc_self]
      exact ⟨hbeh.1, hbeh.2, Function.update_self ..⟩
    · rw [put_loc_ne c _ hbt]
      refine hbeh.congr rfl fun m' hm' => hwait m' ?_
      rintro rfl
      exact hbt (h.distinct b t _ hm' hn)
  · intro a ha hw
    by_cases hat : a = t
    · subst hat
      obtain ⟨m, hm, -⟩ := h.head a ha hph
      grind
    · rw [put_loc_ne c _ hat] at hw ⊢
      obtain ⟨m, hm, hr⟩ := h.head a ha hw
      refine ⟨m, hm, hr.put (by simp [hl]) (hwait m ?_)⟩
      rintro rfl
      exact hat (h.distinct a t _ (by rw [hm]; rfl) hn)
  · intro u m hu
    have hut : u ≠ t := by rintro rfl; simp at hu
    rw [put_loc_ne c _ hut] at hu
    obtain ⟨hw, a, ha, hs⟩ := h.clear_head u m hu
    have hat : a ≠ t := by rintro rfl; simp [hl] at hs
    refine ⟨?_, a, ha, by rw [put_loc_ne c _ hat, hs]⟩
    have hmn : m ≠ n := by
      rintro rfl
      exact hat (h.distinct a t _ (by rw [hs]; rfl) hn)
    exact (hwait m hmn).trans hw
  · have := h.clear_unique
    grind
  · have := h.succ_exists
    grind
  · have := h.unlinked
    grind

/-- Linking makes the node reachable from the one in front. -/
theorem link (h : Line c f) (hf : f.Ok fun u => (c.loc u).phase) {n p : N}
    (hl : c.loc t = .link n p) :
    Line (c.put t ({ c.sh with next := Function.update c.sh.next p (some n) },
      .spin n)) f := by
  have hn : (c.loc t).node = some n := by rw [hl]; rfl
  have hph : (c.loc t).phase = .waiting := by rw [hl]; rfl
  obtain ⟨k₀, hk₀, -⟩ := hf.waiting_at hph
  have hne : k₀ ≠ f.rel := by
    rintro rfl
    obtain ⟨m, hm, -⟩ := h.head t hk₀ hph
    simp [hl] at hm
  have hle := hk₀.rel_le
  have hlt := hk₀.lt_length
  obtain ⟨v, hv⟩ := f.exists_at (k := k₀ - 1) (by omega) (by omega)
  obtain ⟨q, hq⟩ := Pc.node_of_phase ((hf.place v).mpr ⟨_, hv⟩)
  have hk₁ : f.At (k₀ - 1 + 1) t := by rwa [show k₀ - 1 + 1 = k₀ by omega]
  have hbeh := h.behind v t _ q hv hk₁ hq
  rw [hl] at hbeh
  obtain ⟨rfl, hnone, hwait⟩ := hbeh
  have hnext : ∀ m, m ≠ p → Function.update c.sh.next p (some n) m = c.sh.next m :=
    fun m hm => Function.update_of_ne hm ..
  constructor
  · have := h.distinct
    grind
  · have := h.tail_empty
    grind
  · have := h.tail_last
    grind
  · intro a k m ha hk hm
    have hm' : (c.loc a).node = some m := by grind
    refine (hnext m ?_).trans ?_
    rotate_left
    · exact h.last_next a k m ha hk hm'
    · rintro rfl
      obtain rfl := h.distinct a v _ hm' hq
      have := hf.unique a _ _ ha hv
      omega
  · intro a b k m ha hb hm
    have hm' : (c.loc a).node = some m := by grind
    have hbeh := h.behind a b k m ha hb hm'
    by_cases hbt : b = t
    · rw [hbt] at hb ⊢
      have := hf.unique t _ _ hb hk₀
      have hkv : k = k₀ - 1 := by omega
      obtain rfl := ha.tid_unique (hkv ▸ hv)
      obtain rfl : m = p := Option.some.inj (hm'.symm.trans hq)
      rw [put_loc_self]
      exact ⟨Function.update_self .., hwait⟩
    · rw [put_loc_ne c _ hbt]
      refine hbeh.congr (hnext m ?_) fun _ _ => rfl
      rintro rfl
      obtain rfl := h.distinct a v _ hm' hq
      have := hf.unique a _ _ ha hv
      subst this
      exact hbt (hb.tid_unique hk₁)
  · intro a ha hw
    have hat : a ≠ t := by
      rintro rfl
      exact hne (hf.unique a _ _ hk₀ ha)
    rw [put_loc_ne c _ hat] at hw ⊢
    obtain ⟨m, hm, hr⟩ := h.head a ha hw
    exact ⟨m, hm, hr.put (by simp [hl]) rfl⟩
  · have := h.clear_head
    grind
  · have := h.clear_unique
    grind
  · have := h.succ_exists
    grind
  · intro a m hm
    have hat : a ≠ t := by rintro rfl; simp at hm
    rw [put_loc_ne c _ hat] at hm
    refine (hnext m ?_).trans (h.unlinked a m hm)
    rintro rfl
    have hout : (c.loc a).phase = .out := by rcases hm with hm | hm <;> rw [hm] <;> rfl
    have ham : (c.loc a).node = some m := by rcases hm with hm | hm <;> rw [hm] <;> rfl
    exact hf.not_at_of_out hout _ (h.distinct a v m ham hq ▸ hv)

omit [DecidableEq N] in
/-- The first waiter finds its flag cleared. -/
theorem acquire (h : Line c f) (hf : f.Ok fun u => (c.loc u).phase) {n : N}
    (hl : c.loc t = .spin n) (hturn : f.At f.rel t) (hw : c.sh.waiting n = false) :
    Line (c.put t (c.sh, .held n)) f.acquire := by
  have hn : (c.loc t).node = some n := by rw [hl]; rfl
  have hnc : ∀ u m, c.loc u ≠ .clear m := by
    intro u m hu
    obtain ⟨hm, a, ha, hs⟩ := h.clear_head u m hu
    obtain rfl := ha.tid_unique hturn
    grind
  constructor
  · have := h.distinct
    grind
  · have := h.tail_empty
    grind
  · have := h.tail_last
    grind
  · have := h.last_next
    grind
  · intro a b k m ha hb hm
    have hm' : (c.loc a).node = some m := by grind
    have hbt : b ≠ t := by
      rintro rfl
      have := hf.unique b _ _ hb hturn
      have := ha.rel_le
      simp only [Fifo.acquire_rel] at this
      omega
    rw [put_loc_ne c _ hbt]
    exact h.behind a b k m ha hb hm'
  · grind
  · grind
  · have := h.clear_unique
    grind
  · have := h.succ_exists
    grind
  · have := h.unlinked
    grind

omit [DecidableEq N] in
/-- The holder moves on inside its unlock and keeps its place. -/
theorem hold (h : Line c f) (hf : f.Ok fun u => (c.loc u).phase) {n : N} {l : Pc N}
    (hl : (c.loc t).phase = .holding) (hn : (c.loc t).node = some n)
    (hl' : l = .casTail n ∨ l = .waitNext n)
    (hsucc : l = .waitNext n → f.rel + 1 < f.log.length) :
    Line (c.put t (c.sh, l)) f := by
  have hln : l.node = some n := by rcases hl' with rfl | rfl <;> rfl
  have hlp : l.phase = .holding := by rcases hl' with rfl | rfl <;> rfl
  obtain ⟨hturn, -⟩ := hf.holding_at hl
  have hnc : ∀ m, c.loc t ≠ .clear m := by intro m hm; simp [hm] at hl
  constructor
  · have := h.distinct
    grind
  · have := h.tail_empty
    grind
  · have := h.tail_last
    grind
  · have := h.last_next
    grind
  · intro a b k m ha hb hm
    have hm' : (c.loc a).node = some m := by grind
    have hbt : b ≠ t := by
      rintro rfl
      have := hf.unique b _ _ hb hturn
      have := ha.rel_le
      omega
    rw [put_loc_ne c _ hbt]
    exact h.behind a b k m ha hb hm'
  · grind
  · have := h.clear_head
    grind
  · have := h.clear_unique
    grind
  · have := h.succ_exists
    grind
  · have := h.unlinked
    grind

omit [DecidableEq N] in
/-- The holder finds its successor, which becomes first in line. -/
theorem handOver (h : Line c f) (hf : f.Ok fun u => (c.loc u).phase) {n s : N}
    (hl : (c.loc t).phase = .holding) (hn : (c.loc t).node = some n)
    (hs : c.sh.next n = some s) : Line (c.put t (c.sh, .clear s)) f.release := by
  obtain ⟨hturn, -⟩ := hf.holding_at hl
  have hlt := hturn.lt_length
  have hmore : f.rel + 1 < f.log.length := by
    by_contra hlast
    have := h.last_next t _ n hturn (by omega) hn
    simp [hs] at this
  obtain ⟨v, hv⟩ := f.exists_at (k := f.rel + 1) (by omega) hmore
  have hspin : c.loc v = .spin s ∧ c.sh.waiting s = true := by
    have hbeh := h.behind t v _ n hturn hv hn
    cases hlv : c.loc v <;> simp_all
  have hvt : v ≠ t := by rintro rfl; simp [hspin.1] at hl
  have hnc : ∀ u m, c.loc u ≠ .clear m := by
    intro u m hu
    obtain ⟨-, a, ha, hsa⟩ := h.clear_head u m hu
    obtain rfl := ha.tid_unique hturn
    simp [hsa] at hl
  have hat : ∀ u k, f.release.At k u ↔ f.At k u ∧ k ≠ f.rel := Fifo.release_at
  constructor
  · have := h.distinct
    grind
  · simp only [Fifo.release_rel, Fifo.release_log]
    omega
  · have := h.tail_last
    have := hf.unique
    grind
  · have := h.last_next
    grind
  · intro a b k m ha hb hm
    have ha' := (hat a k).mp ha
    have hb' := (hat b _).mp hb
    have hat' : a ≠ t := by
      rintro rfl
      exact ha'.2 (hf.unique a _ _ ha'.1 hturn)
    have hbt : b ≠ t := by
      rintro rfl
      exact hb'.2 (hf.unique b _ _ hb'.1 hturn)
    rw [put_loc_ne c _ hat'] at hm
    rw [put_loc_ne c _ hbt]
    exact h.behind a b k m ha'.1 hb'.1 hm
  · intro a ha hw
    obtain rfl := ((hat a _).mp ha).1.tid_unique hv
    refine ⟨s, by rw [put_loc_ne c _ hvt, hspin.1], Or.inr ⟨t, put_loc_self ..⟩⟩
  · intro u m hu
    have hut : u = t := by
      by_contra hne
      rw [put_loc_ne c _ hne] at hu
      exact hnc u m hu
    rw [hut, put_loc_self] at hu
    obtain rfl : s = m := Pc.clear.inj hu
    exact ⟨hspin.2, v, (hat v _).mpr ⟨hv, by simp⟩, by rw [put_loc_ne c _ hvt, hspin.1]⟩
  · grind
  · intro a m ha
    have hat' : a ≠ t := by rintro rfl; simp at ha
    rw [put_loc_ne c _ hat'] at ha
    exact absurd (hf.holding_unique (by simp [ha]) hl) hat'
  · have := h.unlinked
    grind

omit [DecidableEq N] in
/-- The holder finds `tail` still naming its node: nobody is behind. -/
theorem leave (h : Line c f) (hf : f.Ok fun u => (c.loc u).phase) {n : N}
    (hl : c.loc t = .casTail n) (htail : c.sh.tail = some n) :
    Line (c.put t ({ c.sh with tail := none }, .idle)) f.release := by
  have hph : (c.loc t).phase = .holding := by rw [hl]; rfl
  have hn : (c.loc t).node = some n := by rw [hl]; rfl
  obtain ⟨hturn, -⟩ := hf.holding_at hph
  have hlast := h.last_of_tail hf hturn hn htail
  have hnone : ∀ u k, ¬ f.release.At k u := by
    intro u k hk
    have := hk.rel_le
    have := hk.lt_length
    simp only [Fifo.release_rel, Fifo.release_log] at *
    omega
  constructor
  · have := h.distinct
    grind
  · intro _; rfl
  · intro a k ha; exact absurd ha (hnone a k)
  · intro a k m ha; exact absurd ha (hnone a k)
  · intro a b k m ha; exact absurd ha (hnone a k)
  · intro a ha; exact absurd ha (hnone a _)
  · intro u m hu
    have hut : u ≠ t := by rintro rfl; simp at hu
    rw [put_loc_ne c _ hut] at hu
    obtain ⟨-, a, ha, hs⟩ := h.clear_head u m hu
    obtain rfl := ha.tid_unique hturn
    simp [hl] at hs
  · have := h.clear_unique
    grind
  · intro a m ha
    have hat : a ≠ t := by rintro rfl; simp at ha
    rw [put_loc_ne c _ hat] at ha
    exact absurd (hf.holding_unique (by simp [ha]) hph) hat
  · have := h.unlinked
    grind

/-- The flag of the successor is cleared. -/
theorem cleared (h : Line c f) (hf : f.Ok fun u => (c.loc u).phase) {s : N}
    (hl : c.loc t = .clear s) :
    Line (c.put t ({ c.sh with waiting := Function.update c.sh.waiting s false }, .idle)) f := by
  obtain ⟨hw, v, hv, hspin⟩ := h.clear_head t s hl
  have hvn : (c.loc v).node = some s := by rw [hspin]; rfl
  have hnot : ∀ k, ¬ f.At k t := hf.not_at_of_out (by rw [hl]; rfl)
  have hvt : v ≠ t := by rintro rfl; exact hnot _ hv
  have hwait : ∀ m, m ≠ s → Function.update c.sh.waiting s false m = c.sh.waiting m :=
    fun m hm => Function.update_of_ne hm ..
  constructor
  · have := h.distinct
    grind
  · have := h.tail_empty
    grind
  · have := h.tail_last
    grind
  · have := h.last_next
    grind
  · intro a b k m ha hb hm
    have hat : a ≠ t := by rintro rfl; exact hnot _ ha
    have hbt : b ≠ t := by rintro rfl; exact hnot _ hb
    rw [put_loc_ne c _ hat] at hm
    rw [put_loc_ne c _ hbt]
    refine (h.behind a b k m ha hb hm).congr rfl fun m' hm' => hwait m' ?_
    rintro rfl
    -- the cleared flag is the first one's, and `b` is behind somebody
    obtain rfl := h.distinct b v _ hm' hvn
    have := hf.unique b _ _ hb hv
    have := ha.rel_le
    omega
  · intro a ha _
    obtain rfl := ha.tid_unique hv
    exact ⟨s, by rw [put_loc_ne c _ hvt, hspin], Or.inl (Function.update_self ..)⟩
  · intro u m hu
    have hut : u ≠ t := by rintro rfl; simp at hu
    rw [put_loc_ne c _ hut] at hu
    exact absurd (h.clear_unique u t _ _ hu hl) hut
  · have := h.clear_unique
    grind
  · have := h.succ_exists
    grind
  · have := h.unlinked
    grind

/-- **Step lemma.** Every step moves the line as its phases say. -/
theorem step (h : Line c f) (hf : f.Ok fun u => (c.loc u).phase) {a : Act N}
    {r : Shared N × Pc N} (hfr : fresh c t a) (hs : prog t c.sh (c.loc t) a = some r) :
    ∃ f', Fifo.Move t (c.loc t).phase r.2.phase f f' ∧ Line (c.put t r) f' := by
  cases hl : c.loc t with
  | idle =>
      refine ⟨f, ?_⟩
      cases a with
      | go => simp [prog, hl] at hs
      | lock n =>
          obtain rfl : (c.sh, Pc.clearNext false n) = r := by simpa [prog, hl] using hs
          refine ⟨.stay _ _, h.outside hf (by rw [hl]; rfl) (by simp [hl]) rfl (by simp)
            ?_ rfl rfl (fun _ _ => rfl) (by simp)⟩
          intro u m hu hm
          obtain rfl : n = m := Option.some.inj hm
          exact hfr u hu
      | tryLock n =>
          obtain rfl : (c.sh, Pc.clearNext true n) = r := by simpa [prog, hl] using hs
          refine ⟨.stay _ _, h.outside hf (by rw [hl]; rfl) (by simp [hl]) rfl (by simp)
            ?_ rfl rfl (fun _ _ => rfl) (by simp)⟩
          intro u m hu hm
          obtain rfl : n = m := Option.some.inj hm
          exact hfr u hu
  | clearNext b n =>
      cases a <;> simp only [prog, hl, reduceCtorEq, Option.some.injEq] at hs
      subst hs
      have hn : (c.loc t).node = some n := by rw [hl]; rfl
      have hother : ∀ u m, u ≠ t → some n = some m → (c.loc u).node ≠ some m := by
        intro u m hu hm hum
        exact hu (h.distinct u t m hum (hn.trans hm))
      have hnext : ∀ m, some n ≠ some m → Function.update c.sh.next n none m = c.sh.next m :=
        fun m hm => Function.update_of_ne (fun e => hm (by rw [e])) ..
      cases b with
      | true =>
          refine ⟨f, .stay _ _, h.outside hf (by rw [hl]; rfl) (by simp [hl]) rfl (by simp)
            hother rfl rfl hnext ?_⟩
          intro m hm
          obtain rfl : n = m := by simpa using hm
          exact Function.update_self ..
      | false =>
          refine ⟨f, .stay _ _, h.outside hf (by rw [hl]; rfl) (by simp [hl]) rfl (by simp)
            hother rfl rfl hnext ?_⟩
          intro m hm
          obtain rfl : n = m := by simpa using hm
          exact Function.update_self ..
  | swap n =>
      cases a <;> simp only [prog, hl, reduceCtorEq, Option.some.injEq] at hs
      cases htail : c.sh.tail with
      | none =>
          simp only [htail] at hs
          subst hs
          exact ⟨_, .enterFree _ (h.free_of_tail hf htail), h.enterFree hf (Or.inl hl) htail⟩
      | some p =>
          simp only [htail] at hs
          subst hs
          exact ⟨_, .enter _, h.enter hf hl htail⟩
  | cas n =>
      cases a <;> simp only [prog, hl, reduceCtorEq] at hs
      split at hs
      · rename_i htail
        obtain rfl := Option.some.inj hs
        exact ⟨_, .enterFree _ (h.free_of_tail hf htail), h.enterFree hf (Or.inr hl) htail⟩
      · obtain rfl := Option.some.inj hs
        exact ⟨f, .stay _ _, h.outside hf (by rw [hl]; rfl) (by simp [hl]) rfl (by simp)
          (by simp) rfl rfl (fun _ _ => rfl) (by simp)⟩
  | setWaiting n p =>
      cases a <;> simp only [prog, hl, reduceCtorEq, Option.some.injEq] at hs
      subst hs
      exact ⟨f, .stay _ _, h.setWaiting hl⟩
  | link n p =>
      cases a <;> simp only [prog, hl, reduceCtorEq, Option.some.injEq] at hs
      subst hs
      exact ⟨f, .stay _ _, h.link hf hl⟩
  | spin n =>
      cases a <;> simp only [prog, hl, reduceCtorEq, Option.some.injEq] at hs
      subst hs
      cases hw : c.sh.waiting n with
      | true =>
          refine ⟨f, .stay _ _, ?_⟩
          have hself : (c.sh, Pc.spin n) = (c.sh, c.loc t) := by rw [hl]
          rw [if_pos rfl, hself, put_self]
          exact h
      | false =>
          -- nobody stands before it: whoever waits behind another one finds its flag set
          have hturn : f.At f.rel t := by
            obtain ⟨k, hk, -⟩ := hf.waiting_at (t := t) (by rw [hl]; rfl)
            by_contra hne
            have hkr : k ≠ f.rel := by rintro rfl; exact hne hk
            have hle := hk.rel_le
            have hlt := hk.lt_length
            obtain ⟨v, hv⟩ := f.exists_at (k := k - 1) (by omega) (by omega)
            obtain ⟨q, hq⟩ := Pc.node_of_phase ((hf.place v).mpr ⟨_, hv⟩)
            have hbeh := h.behind v t (k - 1) q hv
              (by rwa [show k - 1 + 1 = k by omega]) hq
            rw [hl] at hbeh
            simp [hbeh.2] at hw
          exact ⟨_, .acquire _ hturn, h.acquire hf hl hturn hw⟩
  | held n =>
      cases a <;> simp only [prog, hl, reduceCtorEq, Option.some.injEq] at hs
      subst hs
      have hph : (c.loc t).phase = .holding := by rw [hl]; rfl
      have hn : (c.loc t).node = some n := by rw [hl]; rfl
      cases hnext : c.sh.next n with
      | none => exact ⟨f, .stay _ _, h.hold hf hph hn (Or.inl rfl) (by simp)⟩
      | some s => exact ⟨_, .release _, h.handOver hf hph hn hnext⟩
  | casTail n =>
      cases a <;> simp only [prog, hl, reduceCtorEq] at hs
      have hph : (c.loc t).phase = .holding := by rw [hl]; rfl
      have hn : (c.loc t).node = some n := by rw [hl]; rfl
      split at hs
      · rename_i htail
        obtain rfl := Option.some.inj hs
        exact ⟨_, .release _, h.leave hf hl htail⟩
      · rename_i htail
        obtain rfl := Option.some.inj hs
        refine ⟨f, .stay _ _, h.hold hf hph hn (Or.inr rfl) fun _ => ?_⟩
        -- its node is not the tail any more, so that it is not the last one
        obtain ⟨hturn, -⟩ := hf.holding_at hph
        have hlt := hturn.lt_length
        by_contra hlast
        exact htail ((h.tail_last t _ hturn (by omega)).trans hn)
  | waitNext n =>
      cases a <;> simp only [prog, hl, reduceCtorEq, Option.some.injEq] at hs
      subst hs
      have hph : (c.loc t).phase = .holding := by rw [hl]; rfl
      have hn : (c.loc t).node = some n := by rw [hl]; rfl
      cases hnext : c.sh.next n with
      | none =>
          exact ⟨f, .stay _ _, h.hold hf hph hn (Or.inr rfl) fun _ => h.succ_exists t n hl⟩
      | some s => exact ⟨_, .release _, h.handOver hf hph hn hnext⟩
  | clear s =>
      cases a <;> simp only [prog, hl, reduceCtorEq, Option.some.injEq] at hs
      subst hs
      exact ⟨f, .stay _ _, h.cleared hf hl⟩

end Line
namespace Line

variable {c : Conf Tid (Shared N) (Pc N)} {f : Fifo Tid}

omit [DecidableEq N] [DecidableEq Tid] in
/-- The line, read off as a linked queue. -/
theorem queue (h : Line c f) (hf : f.Ok fun u => (c.loc u).phase) :
    Queue c f.queue := by
  refine ⟨?_, hf.queue_nodup, ?_, ?_, ?_⟩
  · intro t
    rw [f.mem_queue]
    exact (hf.place t).symm
  · intro t ht
    obtain ⟨k, hk⟩ := (f.mem_queue t).mp ht
    rw [List.head?_eq_getElem?, f.queue_getElem?, Nat.add_zero]
    constructor
    · rintro (hh | ⟨n, hn, hr⟩)
      · exact (hf.holding_at hh).1
      · by_contra hne
        have hkr : k ≠ f.rel := by rintro rfl; exact hne hk
        have hle := hk.rel_le
        have hlt := hk.lt_length
        obtain ⟨v, hv⟩ := f.exists_at (k := k - 1) (by omega) (by omega)
        obtain ⟨p, hp⟩ := Pc.node_of_phase ((hf.place v).mpr ⟨_, hv⟩)
        have hbeh := h.behind v t (k - 1) p hv (by rwa [show k - 1 + 1 = k by omega]) hp
        rw [hn] at hbeh
        rcases hr with h0 | ⟨u, hu⟩
        · simp [hbeh.2] at h0
        · obtain ⟨-, a, ha, hsa⟩ := h.clear_head u n hu
          obtain rfl := h.distinct a t n (by rw [hsa]; rfl) (by rw [hn]; rfl)
          exact hne ha
    · intro hturn
      cases hph : (c.loc t).phase with
      | out => exact absurd hturn (hf.not_at_of_out hph _)
      | waiting => exact Or.inr (h.head t hturn hph)
      | holding => exact Or.inl hph
  · rw [List.isChain_iff_getElem]
    intro i hi
    have h1 := (f.queue_getElem? i _).mp (List.getElem?_eq_getElem (by omega))
    have h2 := (f.queue_getElem? (i + 1) _).mp (List.getElem?_eq_getElem hi)
    obtain ⟨n, hn⟩ := Pc.node_of_phase ((hf.place _).mpr ⟨_, h1⟩)
    exact ⟨n, hn, h.behind _ _ _ n h1 h2 hn⟩
  · rw [List.getLast?_eq_getElem?, f.queue_length]
    have hlen := hf.rel_le_len
    by_cases hne : f.rel = f.log.length
    · rw [h.tail_empty hne, List.getElem?_eq_none (by simp; omega)]
      rfl
    · obtain ⟨u, n, hu, hn, htail, -⟩ := h.exists_last hf hne
      have hq : f.queue[f.log.length - f.rel - 1]? = some u := by
        rw [f.queue_getElem?]
        rwa [show f.rel + (f.log.length - f.rel - 1) = f.log.length - 1 by omega]
      rw [hq, htail]
      exact hn.symm

omit [DecidableEq N] [DecidableEq Tid] in
/-- Whoever waits for a successor has one. -/
theorem exists_succ (h : Line c f) (hf : f.Ok fun u => (c.loc u).phase) {t : Tid} {n : N}
    (hl : c.loc t = .waitNext n) : ∃ u, LinksBehind c t u := by
  have hturn := (hf.holding_at (t := t) (by rw [hl]; rfl)).1
  obtain ⟨u, hu⟩ := f.exists_at (k := f.rel + 1) (by omega) (h.succ_exists t n hl)
  have hn : (c.loc t).node = some n := by rw [hl]; rfl
  exact ⟨u, n, hn, h.behind t u _ n hturn hu hn⟩

end Line

/-- **The MCS queue is a first-come first-served lock.** -/
theorem sim : FifoSim prog fresh Init Pc.phase (Line : Conf Tid (Shared N) (Pc N) → _) where
  init_out := fun _ h t => by rw [h.idle t]; rfl
  init_rel := fun c h => by
    constructor <;> simp [h.tail, h.idle, Fifo.At, Fifo.empty]
  step := fun _ _ _ _ _ h hf hfr hs => h.step hf hfr hs

end McsQueue
