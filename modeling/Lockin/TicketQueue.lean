import Lockin.FifoLock

/-! # The ticket protocol

    Two counters of `w` bits that wrap around: `tail` is the last ticket given out,
    `head` the ticket that is served.  A thread takes a ticket by incrementing `tail`
    and waits until `head` shows it; a thread that finds the lock free may take the
    next ticket and the lock at once.  Whoever leaves increments `head`, with a read
    and a write of its own.

    A ticket determines a place in line only as long as fewer than `2 ^ w` places are
    taken (`roomy`); under this condition the protocol is a first-come first-served
    lock (`sim`).  With fewer than `2 ^ w` threads there is always room (`Line.room`). -/

namespace TicketQueue

open Interleaving FifoLock

variable {w : Nat} {Tid : Type}

/-- The ticket that is served and the last one that was taken. -/
structure Shared (w : Nat) where
  head : BitVec w
  tail : BitVec w

/-- Where a thread is: `x` is its ticket, or the value of `head` it is about to
    increment. -/
inductive Pc (w : Nat) where
  | idle
  | wait (x : BitVec w)
  | held
  | leave (x : BitVec w)
  deriving DecidableEq

/-- `lock` takes a ticket, and `take` a ticket of a free lock; everything else is
    determined. -/
inductive Act where
  | lock
  | take
  | go

/-- A thread is in line from the moment it has a ticket until it has incremented
    `head`. -/
@[simp] def Pc.phase : Pc w → Phase
  | .idle => .out
  | .wait _ => .waiting
  | .held => .holding
  | .leave _ => .holding

/-- One step of the protocol. -/
def prog : Prog Tid (Shared w) (Pc w) Act
  | _, sh, .idle, .lock => some ({ sh with tail := sh.tail + 1 }, .wait (sh.tail + 1))
  | _, sh, .idle, .take =>
      if sh.head = sh.tail + 1 then some ({ sh with tail := sh.tail + 1 }, .held) else none
  | _, sh, .wait x, .go => some (sh, if x = sh.head then .held else .wait x)
  | _, sh, .held, .go => some (sh, .leave sh.head)
  | _, sh, .leave x, .go => some ({ sh with head := x + 1 }, .idle)
  | _, _, _, _ => none

/-- A ticket is taken only when at least one more is left, so that `tail` does not lap
    `head`. -/
def roomy (c : Conf Tid (Shared w) (Pc w)) (_ : Tid) : Act → Prop
  | .lock => c.sh.tail + 2 ≠ c.sh.head
  | _ => True

/-- Nobody is using the lock. -/
structure Init (c : Conf Tid (Shared w) (Pc w)) : Prop where
  free : c.sh.head = c.sh.tail + 1
  idle : ∀ t, c.loc t = .idle

/-- How the counters and the tickets represent the line `f`: counting on from a place's
    ticket, one for each place, leads to the ticket after `tail`. -/
structure Line (c : Conf Tid (Shared w) (Pc w)) (f : Fifo Tid) : Prop where
  served : c.sh.head + BitVec.ofNat w (f.log.length - f.rel) = c.sh.tail + 1
  ticket : ∀ t x k, c.loc t = .wait x → f.At k t →
    x + BitVec.ofNat w (f.log.length - k) = c.sh.tail + 1
  leaving : ∀ t x, c.loc t = .leave x → x = c.sh.head
  short : f.log.length - f.rel < 2 ^ w

/-- Distances below `2 ^ w` are determined by their last `w` bits. -/
theorem ofNat_inj_of_lt {m n : Nat} (hm : m < 2 ^ w) (hn : n < 2 ^ w)
    (h : BitVec.ofNat w m = BitVec.ofNat w n) : m = n := by
  have := congrArg BitVec.toNat h
  rwa [BitVec.toNat_ofNat, BitVec.toNat_ofNat, Nat.mod_eq_of_lt hm, Nat.mod_eq_of_lt hn]
    at this

theorem one_add_one : (1 : BitVec w) + 1 = 2 := (BitVec.ofNat_add 1 1).symm

theorem two_ne_one (hw : 0 < w) : (2 : BitVec w) ≠ 1 := by
  intro h
  have hone : (1 : BitVec w) + BitVec.ofNat w 1 = 1 + BitVec.ofNat w 0 := by
    rw [BitVec.add_zero]
    exact one_add_one.trans h
  have := ofNat_inj_of_lt (Nat.one_lt_two_pow hw.ne') (Nat.two_pow_pos w)
    ((BitVec.add_right_inj 1).mp hone)
  omega

namespace Line

variable {c : Conf Tid (Shared w) (Pc w)} {f : Fifo Tid} {t : Tid}

/-- The place whose ticket is served is the first one. -/
theorem first_of_served (h : Line c f) {k : Nat} (hk : f.At k t)
    (hl : c.loc t = .wait c.sh.head) : k = f.rel := by
  have hle := hk.rel_le
  have hlt := hk.lt_length
  have hshort := h.short
  have heq := (h.ticket t _ k hl hk).trans h.served.symm
  have := ofNat_inj_of_lt (by omega) hshort ((BitVec.add_right_inj _).mp heq)
  omega

/-- When somebody waits, the ticket that is served is somebody's. -/
theorem exists_served (h : Line c f) (hf : f.Ok fun u => (c.loc u).phase)
    (ht : (c.loc t).phase = .waiting) :
    ∃ v, (c.loc v).phase = .holding ∨ c.loc v = .wait c.sh.head := by
  obtain ⟨k, hk, -⟩ := hf.waiting_at ht
  obtain ⟨v, hv⟩ := f.exists_at le_rfl (hk.rel_le.trans_lt hk.lt_length)
  refine ⟨v, ?_⟩
  cases hl : c.loc v with
  | idle => exact absurd hv (hf.not_at_of_out (by rw [hl]; rfl) _)
  | wait x =>
      have heq := (h.ticket v x _ hl hv).trans h.served.symm
      rw [(BitVec.add_left_inj _).mp heq]
      exact Or.inr rfl
  | held | leave => exact Or.inl rfl

/-- When `head` is one ahead of `tail` the line is empty. -/
theorem free_of_head (h : Line c f) (hf : f.Ok fun u => (c.loc u).phase)
    (hfree : c.sh.head = c.sh.tail + 1) : f.rel = f.log.length := by
  have hlen := hf.rel_le_len
  have hserved := h.served
  rw [← hfree] at hserved
  have hzero : BitVec.ofNat w (f.log.length - f.rel) = BitVec.ofNat w 0 :=
    (BitVec.add_right_inj _).mp (hserved.trans (BitVec.add_zero _).symm)
  have := ofNat_inj_of_lt h.short (Nat.two_pow_pos w) hzero
  omega

/-- The counters show whether anybody is in line. -/
theorem free_iff (h : Line c f) (hf : f.Ok fun u => (c.loc u).phase) :
    c.sh.head = c.sh.tail + 1 ↔ ∀ u, (c.loc u).phase = .out := by
  constructor
  · intro hfree u
    have hempty := h.free_of_head hf hfree
    by_contra hne
    obtain ⟨k, hk⟩ := (hf.place u).mp hne
    have := hk.rel_le
    have := hk.lt_length
    omega
  · intro hout
    have hlen := hf.rel_le_len
    have hempty : f.log.length - f.rel = 0 := by
      by_contra hne
      obtain ⟨u, hu⟩ := f.exists_at (k := f.rel) le_rfl (by omega)
      exact (hf.place u).mpr ⟨_, hu⟩ (hout u)
    have hserved := h.served
    rw [hempty] at hserved
    exact (BitVec.add_zero _).symm.trans hserved

/-- One more place than `tail` has counted. -/
theorem add_ofNat_succ {x tail : BitVec w} {n : Nat} (h : x + BitVec.ofNat w n = tail + 1) :
    x + BitVec.ofNat w (n + 1) = tail + 1 + 1 := by
  rw [BitVec.ofNat_add, ← BitVec.add_assoc, h]
  rfl

variable [DecidableEq Tid]

/-- A step that leaves the counters and the line alone. -/
theorem quiet (h : Line c f) {l : Pc w}
    (hwait : ∀ x, l = .wait x → c.loc t = .wait x)
    (hleave : ∀ x, l = .leave x → x = c.sh.head) : Line (c.put t (c.sh, l)) f where
  served := h.served
  ticket := by
    intro u x k hu hk
    by_cases hut : u = t
    · subst hut
      rw [put_loc_self] at hu
      exact h.ticket u x k (hwait x hu) hk
    · rw [put_loc_ne c _ hut] at hu
      exact h.ticket u x k hu hk
  leaving := by
    intro u x hu
    by_cases hut : u = t
    · subst hut
      rw [put_loc_self] at hu
      exact hleave x hu
    · rw [put_loc_ne c _ hut] at hu
      exact h.leaving u x hu
  short := h.short

/-- The next ticket is taken. -/
theorem take (h : Line c f) (hf : f.Ok fun u => (c.loc u).phase)
    (hout : (c.loc t).phase = .out) {l : Pc w}
    (hwait : ∀ x, l = .wait x → x = c.sh.tail + 1) (hleave : ∀ x, l ≠ .leave x)
    (hmore : c.sh.tail + 2 ≠ c.sh.head) :
    Line (c.put t ({ c.sh with tail := c.sh.tail + 1 }, l)) (f.enter t) := by
  have hlen := hf.rel_le_len
  have hsucc : ∀ k, k ≤ f.log.length → f.log.length + 1 - k = (f.log.length - k) + 1 :=
    fun k hk => by omega
  have hserved : c.sh.head + BitVec.ofNat w (f.log.length - f.rel + 1) = c.sh.tail + 1 + 1 :=
    add_ofNat_succ h.served
  constructor
  · show c.sh.head + BitVec.ofNat w ((f.log ++ [t]).length - f.rel) = c.sh.tail + 1 + 1
    rw [List.length_append, List.length_singleton, hsucc _ hlen]
    exact hserved
  · intro u x k hu hk
    show x + BitVec.ofNat w ((f.log ++ [t]).length - k) = c.sh.tail + 1 + 1
    rw [List.length_append, List.length_singleton]
    rcases (Fifo.enter_at hlen t u k).mp hk with hk' | ⟨rfl, rfl⟩
    · have hut : u ≠ t := by
        rintro rfl
        exact hf.not_at_of_out hout k hk'
      rw [put_loc_ne c _ hut] at hu
      rw [hsucc k hk'.lt_length.le]
      exact add_ofNat_succ (h.ticket u x k hu hk')
    · rw [put_loc_self] at hu
      rw [hwait x hu, show f.log.length + 1 - f.log.length = 1 by omega]
      rfl
  · intro u x hu
    by_cases hut : u = t
    · subst hut
      rw [put_loc_self] at hu
      exact absurd hu (hleave x)
    · rw [put_loc_ne c _ hut] at hu
      exact h.leaving u x hu
  · show (f.log ++ [t]).length - f.rel < 2 ^ w
    rw [List.length_append, List.length_singleton, hsucc _ hlen]
    refine lt_of_le_of_ne h.short ?_
    intro hfull
    -- with every ticket taken, `tail` would come round to `head`
    have hzero : BitVec.ofNat w (f.log.length - f.rel + 1) = BitVec.ofNat w 0 := by
      rw [hfull]
      refine BitVec.eq_of_toNat_eq ?_
      rw [BitVec.toNat_ofNat, BitVec.toNat_ofNat, Nat.mod_self, Nat.zero_mod]
    rw [hzero, BitVec.add_zero, BitVec.add_assoc, one_add_one] at hserved
    exact hmore hserved.symm

/-- The holder increments `head`. -/
theorem serveNext (h : Line c f) (hf : f.Ok fun u => (c.loc u).phase) {x : BitVec w}
    (hl : c.loc t = .leave x) :
    Line (c.put t ({ c.sh with head := x + 1 }, .idle)) f.release := by
  have hph : (c.loc t).phase = .holding := by rw [hl]; rfl
  obtain ⟨hturn, -⟩ := hf.holding_at hph
  have hlt := hturn.lt_length
  obtain rfl := h.leaving t x hl
  constructor
  · show c.sh.head + 1 + BitVec.ofNat w (f.log.length - (f.rel + 1)) = c.sh.tail + 1
    rw [← h.served, show f.log.length - f.rel = 1 + (f.log.length - (f.rel + 1)) by omega,
      BitVec.ofNat_add, BitVec.add_assoc]
    rfl
  · intro u y k hu hk
    obtain ⟨hk', -⟩ := (Fifo.release_at u k).mp hk
    have hut : u ≠ t := by rintro rfl; simp at hu
    rw [put_loc_ne c _ hut] at hu
    exact h.ticket u y k hu hk'
  · intro u y hu
    have hut : u ≠ t := by rintro rfl; simp at hu
    rw [put_loc_ne c _ hut] at hu
    exact absurd (hf.holding_unique (t := u) (by simp [hu]) hph) hut
  · show f.log.length - (f.rel + 1) < 2 ^ w
    have := h.short
    omega

/-- **Step lemma.** Every step moves the line as its phases say. -/
theorem step (hw : 0 < w) (h : Line c f) (hf : f.Ok fun u => (c.loc u).phase) {a : Act}
    {r : Shared w × Pc w} (hok : roomy c t a) (hs : prog t c.sh (c.loc t) a = some r) :
    ∃ f', Fifo.Move t (c.loc t).phase r.2.phase f f' ∧ Line (c.put t r) f' := by
  cases hl : c.loc t with
  | idle =>
      have hout : (c.loc t).phase = .out := by rw [hl]; rfl
      cases a with
      | go => simp [prog, hl] at hs
      | lock =>
          simp only [prog, hl, Option.some.injEq] at hs
          subst hs
          refine ⟨_, .enter _, h.take hf hout ?_ (by simp) hok⟩
          intro x hx
          exact (Pc.wait.inj hx).symm
      | take =>
          simp only [prog, hl, Option.ite_none_right_eq_some, Option.some.injEq] at hs
          obtain ⟨hfree, rfl⟩ := hs
          refine ⟨_, .enterFree _ (h.free_of_head hf hfree), ?_⟩
          have htake := h.take (t := t) (l := .held) hf hout (by simp) (by simp) ?_
          · exact ⟨htake.served, htake.ticket, htake.leaving, htake.short⟩
          · intro hlap
            rw [hfree] at hlap
            exact two_ne_one hw ((BitVec.add_right_inj _).mp hlap)
  | wait x =>
      cases a <;> simp only [prog, hl, reduceCtorEq, Option.some.injEq] at hs
      subst hs
      by_cases hx : x = c.sh.head
      · subst hx
        obtain ⟨k, hk, -⟩ := hf.waiting_at (t := t) (by rw [hl]; rfl)
        have hturn : f.At f.rel t := h.first_of_served hk hl ▸ hk
        rw [if_pos rfl]
        have hq := h.quiet (t := t) (l := .held) (by simp) (by simp)
        exact ⟨_, .acquire _ hturn, hq.served, hq.ticket, hq.leaving, hq.short⟩
      · rw [if_neg hx]
        exact ⟨f, .stay _ _, h.quiet (fun y hy => hl.trans hy) (by simp)⟩
  | held =>
      cases a <;> simp only [prog, hl, reduceCtorEq, Option.some.injEq] at hs
      subst hs
      refine ⟨f, .stay _ _, h.quiet (by simp) ?_⟩
      intro x hx
      exact (Pc.leave.inj hx).symm
  | leave x =>
      cases a <;> simp only [prog, hl, reduceCtorEq, Option.some.injEq] at hs
      subst hs
      exact ⟨_, .release _, h.serveNext hf hl⟩

end Line

/-- **The ticket protocol is a first-come first-served lock** as long as there is room. -/
theorem sim [DecidableEq Tid] (hw : 0 < w) :
    FifoSim prog roomy Init Pc.phase (Line : Conf Tid (Shared w) (Pc w) → _) where
  init_out := fun _ h t => by rw [h.idle t]; rfl
  init_rel := fun c h => by
    constructor
    · show c.sh.head + BitVec.ofNat w 0 = c.sh.tail + 1
      rw [h.free]
      exact BitVec.add_zero _
    · intro t x k hx
      simp [h.idle t] at hx
    · intro t x hx
      simp [h.idle t] at hx
    · exact Nat.two_pow_pos w
  step := fun _ _ _ _ _ h hf hok hs => h.step hw hf hok hs

/-! ## Counting the line -/

section Count

variable [Fintype Tid] {c : Conf Tid (Shared w) (Pc w)} {f : Fifo Tid} {t : Tid}

/-- `tail - head + 1` counts the threads in line. -/
theorem Line.count (h : Line c f) (hf : f.Ok fun u => (c.loc u).phase) :
    (c.sh.tail - c.sh.head + 1).toNat
      = (Finset.univ.filter fun u => (c.loc u).phase ≠ .out).card := by
  rw [hf.card_inLine]
  have hserved := h.served
  have heq : c.sh.tail - c.sh.head + 1 = BitVec.ofNat w f.queue.length := by
    rw [f.queue_length]
    have : c.sh.tail + 1 - c.sh.head = BitVec.ofNat w (f.log.length - f.rel) := by
      rw [← hserved, BitVec.add_comm, BitVec.add_sub_cancel]
    rw [← this]
    rw [BitVec.sub_eq_add_neg, BitVec.sub_eq_add_neg, BitVec.add_assoc, BitVec.add_assoc,
      BitVec.add_comm (-c.sh.head)]
  rw [heq, BitVec.toNat_ofNat, Nat.mod_eq_of_lt]
  rw [f.queue_length]
  exact h.short

/-- With fewer than `2 ^ w` threads there is always another ticket. -/
theorem Line.room (h : Line c f) (hf : f.Ok fun u => (c.loc u).phase)
    (hcard : Fintype.card Tid < 2 ^ w) (hout : (c.loc t).phase = .out) :
    c.sh.tail + 2 ≠ c.sh.head := by
  intro hlap
  have hlt := hf.queue_length_lt hout
  rw [f.queue_length] at hlt
  have hserved := add_ofNat_succ h.served
  rw [BitVec.add_assoc, one_add_one, hlap] at hserved
  have hzero : BitVec.ofNat w (f.log.length - f.rel + 1) = BitVec.ofNat w 0 :=
    (BitVec.add_right_inj _).mp (hserved.trans (BitVec.add_zero _).symm)
  have := ofNat_inj_of_lt (by omega) (Nat.two_pow_pos w) hzero
  omega

end Count

end TicketQueue
