import Lockin.Mutexee

/-! # The condition variables on a sequence counter

    `glk_cond_*` of `glk.c`: one `glk_cond_t` that is used with one `glk_t`.  The functions
    `gls_cond_*` of `gls_in.h` and `ticket_cond_*` of `ticket_in.h` are the same, line by
    line, over their own locks.

    A wait reads `c->head`, makes sure that `c->l` is its lock, releases the lock, and goes
    to sleep on `c->head` if the counter still has the value it read.  A signal increments
    the counter and wakes one sleeper, a broadcast increments it and wakes all of them.  The
    values of the counter are the time stamps of the proof: a wait remembers the value at
    its release of the lock (`rel`), so it released the lock before the increment to `v`
    exactly when `rel < v`.

    The kernel promises that a `FUTEX_WAKE` of 1 wakes a sleeper if there is one, but not
    which one. -/

namespace GlkCond

open Interleaving

/-- A `glk_cond_t` and its lock. -/
structure Shared (Tid : Type) where
  /-- `c->head`, counted without wrapping; the code sees it modulo `2 ^ 32`. -/
  head : Nat
  /-- `c->l` is the lock, and not `NULL`. -/
  l : Bool
  /-- Somebody holds the lock. -/
  locked : Bool
  /-- The threads in `FUTEX_WAIT` on `c->head`, in the order of their arrival. -/
  asleep : List Tid

/-- Where a thread is.  `seq` is the value that a wait has read from `c->head`, `rel` is
    history.  A flag `h` of a signal or broadcast says whether its caller holds the lock. -/
inductive Pc where
  | idle
  | acquire
  | critical
  | readHead (timed : Bool)
  | readL (timed : Bool) (seq : Nat)
  | checkL (timed : Bool) (seq : Nat)
  | casL (timed : Bool) (seq : Nat)
  | readL' (timed : Bool) (seq : Nat)
  | release (timed : Bool) (seq : Nat)
  | checkTime (seq rel : Nat)
  | futexWait (timed : Bool) (seq rel : Nat)
  | blocked (timed : Bool) (seq rel : Nat)
  | relock (rel : Nat)
  | sigAdd (h : Bool)
  | sigWake (h : Bool) (v : Nat)
  | bcastReadL (h : Bool)
  | bcastAdd (h : Bool)
  | bcastRequeue (h : Bool) (v : Nat)
  deriving DecidableEq

/-- The calls a thread may make, and the choices of the schedule and of the kernel. -/
inductive Act (Tid : Type) where
  | lock
  | unlock
  | wait (timed : Bool)
  | signal
  | broadcast
  | go
  /-- The futex call wakes this thread, or nobody when nobody sleeps. -/
  | wake (u : Option Tid)
  | spurious
  | timeout

variable {Tid : Type} [DecidableEq Tid]

/-- `glk_cond_wait` and `glk_cond_timedwait`; both return `EINVAL` with the lock held. -/
def glkCondWait (t : Tid) (sh : Shared Tid) : Pc → Act Tid → Option (Shared Tid × Pc)
  | .readHead timed, .go => some (sh, .readL timed sh.head)
  | .readL timed seq, .go => some (sh, if sh.l then .release timed seq else .checkL timed seq)
  | .checkL timed seq, .go => some (sh, if sh.l then .critical else .casL timed seq)
  | .casL timed seq, .go => some ({ sh with l := true }, .readL' timed seq)
  | .readL' timed seq, .go => some (sh, if sh.l then .release timed seq else .critical)
  | .release timed seq, .go =>
      some ({ sh with locked := false },
        if timed then .checkTime seq sh.head else .futexWait false seq sh.head)
  | .checkTime seq rel, .go => some (sh, .futexWait true seq rel)
  -- `rt.tv_sec < 0`: already timed out
  | .checkTime _ rel, .timeout => some (sh, .relock rel)
  | .futexWait timed seq rel, .go =>
      if sh.head % 2 ^ 32 = seq % 2 ^ 32 then
        some ({ sh with asleep := sh.asleep ++ [t] }, .blocked timed seq rel)
      else some (sh, .relock rel)
  | .blocked _ _ rel, .go => if t ∈ sh.asleep then none else some (sh, .relock rel)
  | .blocked _ _ rel, .spurious =>
      some ({ sh with asleep := sh.asleep.filter (· ≠ t) }, .relock rel)
  | .blocked true _ rel, .timeout =>
      some ({ sh with asleep := sh.asleep.filter (· ≠ t) }, .relock rel)
  | .relock _, .go => if sh.locked then none else some ({ sh with locked := true }, .critical)
  | _, _ => none

/-- Where a signal or broadcast returns to. -/
def back (h : Bool) : Pc := if h then .critical else .idle

/-- `glk_cond_signal`. -/
def glkCondSignal (sh : Shared Tid) : Pc → Act Tid → Option (Shared Tid × Pc)
  | .sigAdd h, .go => some ({ sh with head := sh.head + 1 }, .sigWake h (sh.head + 1))
  | .sigWake h _, .wake u =>
      (Mutexee.futexWake sh.asleep u).map fun q => ({ sh with asleep := q }, back h)
  | _, _ => none

/-- `glk_cond_broadcast`: the futex call wakes all the sleepers. -/
def glkCondBroadcast (sh : Shared Tid) : Pc → Act Tid → Option (Shared Tid × Pc)
  | .bcastReadL h, .go => some (sh, if sh.l then .bcastAdd h else back h)
  | .bcastAdd h, .go => some ({ sh with head := sh.head + 1 }, .bcastRequeue h (sh.head + 1))
  | .bcastRequeue h _, .go => some ({ sh with asleep := [] }, back h)
  | _, _ => none

/-- Start a call, take the lock or release it. -/
def call (sh : Shared Tid) : Pc → Act Tid → Option (Shared Tid × Pc)
  | .idle, .lock => some (sh, .acquire)
  | .idle, .signal => some (sh, .sigAdd false)
  | .idle, .broadcast => some (sh, .bcastReadL false)
  | .acquire, .go => if sh.locked then none else some ({ sh with locked := true }, .critical)
  | .critical, .unlock => some ({ sh with locked := false }, .idle)
  | .critical, .wait timed => some (sh, .readHead timed)
  | .critical, .signal => some (sh, .sigAdd true)
  | .critical, .broadcast => some (sh, .bcastReadL true)
  | _, _ => none

/-- One step of a thread. -/
def prog : Prog Tid (Shared Tid) Pc (Act Tid) := fun t sh pc a =>
  match pc with
  | .idle | .acquire | .critical => call sh pc a
  | .readHead _ | .readL _ _ | .checkL _ _ | .casL _ _ | .readL' _ _ | .release _ _
  | .checkTime _ _ | .futexWait _ _ _ | .blocked _ _ _ | .relock _ => glkCondWait t sh pc a
  | .sigAdd _ | .sigWake _ _ => glkCondSignal sh pc a
  | .bcastReadL _ | .bcastAdd _ | .bcastRequeue _ _ => glkCondBroadcast sh pc a

/-- `GLK_COND_INITIALIZER`, and nobody in a call. -/
structure Init (c : Conf Tid (Shared Tid) Pc) : Prop where
  head : c.sh.head = 0
  l : c.sh.l = false
  locked : c.sh.locked = false
  asleep : c.sh.asleep = []
  idle : ∀ t, c.loc t = .idle

/-- The value a wait has read has not come round again. -/
def Pc.freshAt (now : Nat) : Pc → Bool
  | .futexWait _ seq _ => now < seq + 2 ^ 32
  | _ => true

/-- Fewer than `2 ^ 32` signals and broadcasts come between a wait's read of `c->head` and
    its going to sleep. -/
def fresh (c : Conf Tid (Shared Tid) Pc) (t : Tid) (_ : Act Tid) : Prop :=
  (c.loc t).freshAt c.sh.head = true

instance (c : Conf Tid (Shared Tid) Pc) (t : Tid) (a : Act Tid) : Decidable (fresh c t a) :=
  inferInstanceAs (Decidable (_ = true))

/-! ## What a step can do -/

/-- The value of the counter when the thread released the lock, inside a wait. -/
def Pc.releasedAt : Pc → Option Nat
  | .checkTime _ rel => some rel
  | .futexWait _ _ rel => some rel
  | .blocked _ _ rel => some rel
  | .relock rel => some rel
  | _ => none

/-- The thread has released the lock inside a wait, and not taken it again. -/
def Pc.Waits (pc : Pc) : Prop := pc.releasedAt ≠ none

/-- The thread sleeps, in a wait that released the lock before the increment to `v`. -/
def AsleepSince (v : Nat) (c : Conf Tid (Shared Tid) Pc) (t : Tid) : Prop :=
  t ∈ c.sh.asleep ∧ ∃ rel < v, (c.loc t).releasedAt = some rel

/-- The order of the values that a wait remembers. -/
def Pc.Stamped (now : Nat) : Pc → Prop
  | .readL _ seq => seq ≤ now
  | .checkL _ seq => seq ≤ now
  | .casL _ seq => seq ≤ now
  | .readL' _ seq => seq ≤ now
  | .release _ seq => seq ≤ now
  | .checkTime seq rel => seq ≤ rel ∧ rel ≤ now
  | .futexWait _ seq rel => seq ≤ rel ∧ rel ≤ now
  | .blocked _ seq rel => seq ≤ rel ∧ rel ≤ now
  | .relock rel => rel ≤ now
  | .sigWake _ v => v ≤ now
  | .bcastRequeue _ v => v ≤ now
  | _ => True

/-- The thread is past the check of `c->l`. -/
def Pc.Linked (pc : Pc) : Prop := pc.Waits ∨ ∃ timed seq, pc = .release timed seq

/-- The invariant: who is asleep is in the call of the futex, and the sleepers are in the
    order of their releases. -/
structure Queue (c : Conf Tid (Shared Tid) Pc) : Prop where
  stamped : ∀ t, (c.loc t).Stamped c.sh.head
  linked : ∀ t, (c.loc t).Linked → c.sh.l = true
  parked : ∀ t, t ∈ c.sh.asleep → ∃ timed seq rel, c.loc t = .blocked timed seq rel
  sorted : c.sh.asleep.Pairwise fun t u => ∀ rel rel',
    (c.loc t).releasedAt = some rel → (c.loc u).releasedAt = some rel' → rel ≤ rel'

omit [DecidableEq Tid] in
theorem Pc.Stamped.mono {pc : Pc} {m n : Nat} (h : pc.Stamped m) (hle : m ≤ n) :
    pc.Stamped n := by
  cases pc <;> first | trivial | exact Nat.le_trans h hle | exact ⟨h.1, h.2.trans hle⟩

omit [DecidableEq Tid] in
/-- The lock was released before now. -/
theorem Pc.Stamped.le {pc : Pc} {now rel : Nat} (h : pc.Stamped now)
    (hrel : pc.releasedAt = some rel) : rel ≤ now := by
  cases pc with
  | checkTime seq rel' =>
      obtain rfl := Option.some.inj hrel
      exact h.2
  | futexWait timed seq rel' =>
      obtain rfl := Option.some.inj hrel
      exact h.2
  | blocked timed seq rel' =>
      obtain rfl := Option.some.inj hrel
      exact h.2
  | relock rel' =>
      obtain rfl := Option.some.inj hrel
      exact h
  | _ => cases hrel

theorem back_stamped (h : Bool) (now : Nat) : (back h).Stamped now := by cases h <;> trivial

theorem back_not_linked (h : Bool) : ¬ (back h).Linked := by
  cases h <;> simp [back, Pc.Linked, Pc.Waits, Pc.releasedAt]

/-- A wake takes somebody out of the queue. -/
theorem futexWake_sublist {q q' : List Tid} {u : Option Tid}
    (h : Mutexee.futexWake q u = some q') : q'.Sublist q := by
  cases u with
  | none =>
      simp only [Mutexee.futexWake, Option.ite_none_right_eq_some, Option.some.injEq] at h
      obtain ⟨-, rfl⟩ := h
      exact List.nil_sublist _
  | some u =>
      simp only [Mutexee.futexWake, Option.ite_none_right_eq_some, Option.some.injEq] at h
      obtain ⟨-, rfl⟩ := h
      exact List.filter_sublist

/-- What a step of `t` changes. -/
structure Effect (c : Conf Tid (Shared Tid) Pc) (t : Tid) (r : Shared Tid × Pc) : Prop where
  head : c.sh.head ≤ r.1.head
  l : c.sh.l = true → r.1.l = true
  stamped : r.2.Stamped r.1.head
  linked : r.2.Linked → r.1.l = true
  /-- A new stamp is the present one. -/
  released : ∀ rel, r.2.releasedAt = some rel →
    (c.loc t).releasedAt = some rel ∨ rel = c.sh.head
  /-- Somebody leaves the queue, or `t` joins it at its end. -/
  asleep : r.1.asleep.Sublist c.sh.asleep ∧ (t ∈ r.1.asleep → r.2 = c.loc t) ∨
    r.1.asleep = c.sh.asleep ++ [t] ∧ t ∉ c.sh.asleep ∧
      ∃ timed seq, r.2 = .blocked timed seq c.sh.head

namespace Queue

variable {c : Conf Tid (Shared Tid) Pc} {t : Tid}

omit [DecidableEq Tid] in
/-- Only a thread in the call of the futex is asleep. -/
theorem awake (h : Queue c) (hl : ∀ timed seq rel, c.loc t ≠ .blocked timed seq rel) :
    t ∉ c.sh.asleep := by
  intro ht
  obtain ⟨timed, seq, rel, heq⟩ := h.parked t ht
  exact hl timed seq rel heq

omit [DecidableEq Tid] in
/-- An awake thread steps without going to sleep. -/
theorem stir (h : Queue c) (hl : ∀ timed seq rel, c.loc t ≠ .blocked timed seq rel)
    {sh' : Shared Tid} {pc' : Pc} (hhead : c.sh.head ≤ sh'.head)
    (hcl : c.sh.l = true → sh'.l = true) (hsub : sh'.asleep.Sublist c.sh.asleep)
    (hstamped : pc'.Stamped sh'.head) (hlinked : pc'.Linked → sh'.l = true)
    (hrel : ∀ rel, pc'.releasedAt = some rel →
      (c.loc t).releasedAt = some rel ∨ rel = c.sh.head) : Effect c t (sh', pc') :=
  ⟨hhead, hcl, hstamped, hlinked, hrel,
    Or.inl ⟨hsub, fun ht => absurd (hsub.subset ht) (h.awake hl)⟩⟩

omit [DecidableEq Tid] in
/-- An awake thread steps outside of the wait's stretch without the lock. -/
theorem leave (h : Queue c) (hl : ∀ timed seq rel, c.loc t ≠ .blocked timed seq rel)
    {sh' : Shared Tid} {pc' : Pc} (hhead : c.sh.head ≤ sh'.head)
    (hcl : c.sh.l = true → sh'.l = true) (hsub : sh'.asleep.Sublist c.sh.asleep)
    (hstamped : pc'.Stamped sh'.head) (hlinked : ¬ pc'.Linked) : Effect c t (sh', pc') :=
  h.stir hl hhead hcl hsub hstamped (fun hp => absurd hp hlinked) fun rel hrel =>
    absurd (Or.inl (by rw [Pc.Waits, hrel]; exact Option.some_ne_none rel)) hlinked

/-- **What every step changes.** -/
theorem effect (h : Queue c) {a : Act Tid} {r : Shared Tid × Pc} (hok : fresh c t a)
    (hs : prog t c.sh (c.loc t) a = some r) : Effect c t r := by
  have hst := h.stamped t
  have hln := h.linked t
  obtain ⟨pc, hl⟩ : ∃ pc, c.loc t = pc := ⟨_, rfl⟩
  have hleave : (∀ timed seq rel, pc ≠ .blocked timed seq rel) → ∀ (sh' : Shared Tid) (pc' : Pc),
      c.sh.head ≤ sh'.head → (c.sh.l = true → sh'.l = true) →
      sh'.asleep.Sublist c.sh.asleep → pc'.Stamped sh'.head → ¬ pc'.Linked →
      Effect c t (sh', pc') := fun hb _ _ => h.leave (hl ▸ hb)
  have hrefl : c.sh.asleep.Sublist c.sh.asleep := List.Sublist.refl _
  unfold fresh at hok
  rw [hl] at hs hst hln hok
  cases pc with
  | idle =>
      cases a <;> simp only [prog, call, reduceCtorEq, Option.some.injEq] at hs <;> subst hs <;>
        exact hleave (by simp) _ _ le_rfl id hrefl trivial (by simp [Pc.Linked, Pc.Waits,
          Pc.releasedAt])
  | acquire =>
      cases a <;> simp only [prog, call, reduceCtorEq, Option.ite_none_left_eq_some,
        Option.some.injEq] at hs
      obtain ⟨-, rfl⟩ := hs
      exact hleave (by simp) _ _ le_rfl id hrefl trivial (by simp [Pc.Linked, Pc.Waits,
        Pc.releasedAt])
  | critical =>
      cases a <;> simp only [prog, call, reduceCtorEq, Option.some.injEq] at hs <;> subst hs <;>
        exact hleave (by simp) _ _ le_rfl id hrefl trivial (by simp [Pc.Linked, Pc.Waits,
          Pc.releasedAt])
  | readHead timed =>
      cases a <;> simp only [prog, glkCondWait, reduceCtorEq, Option.some.injEq] at hs
      subst hs
      exact hleave (by simp) _ _ le_rfl id hrefl (le_refl c.sh.head) (by simp [Pc.Linked, Pc.Waits,
        Pc.releasedAt])
  | readL timed seq =>
      cases a <;> simp only [prog, glkCondWait, reduceCtorEq, Option.some.injEq] at hs
      subst hs
      split <;> rename_i hcl
      · exact h.stir (by simp [hl]) le_rfl id hrefl hst (fun _ => hcl) (by simp [Pc.releasedAt])
      · exact hleave (by simp) _ _ le_rfl id hrefl hst (by simp [Pc.Linked, Pc.Waits,
          Pc.releasedAt])
  | checkL timed seq =>
      cases a <;> simp only [prog, glkCondWait, reduceCtorEq, Option.some.injEq] at hs
      subst hs
      split
      · exact hleave (by simp) _ _ le_rfl id hrefl trivial (by simp [Pc.Linked, Pc.Waits,
          Pc.releasedAt])
      · exact hleave (by simp) _ _ le_rfl id hrefl hst (by simp [Pc.Linked, Pc.Waits,
          Pc.releasedAt])
  | casL timed seq =>
      cases a <;> simp only [prog, glkCondWait, reduceCtorEq, Option.some.injEq] at hs
      subst hs
      exact hleave (by simp) _ _ le_rfl (fun _ => rfl) hrefl hst (by simp [Pc.Linked, Pc.Waits,
        Pc.releasedAt])
  | readL' timed seq =>
      cases a <;> simp only [prog, glkCondWait, reduceCtorEq, Option.some.injEq] at hs
      subst hs
      split <;> rename_i hcl
      · exact h.stir (by simp [hl]) le_rfl id hrefl hst (fun _ => hcl) (by simp [Pc.releasedAt])
      · exact hleave (by simp) _ _ le_rfl id hrefl trivial (by simp [Pc.Linked, Pc.Waits,
          Pc.releasedAt])
  | release timed seq =>
      cases a <;> simp only [prog, glkCondWait, reduceCtorEq, Option.some.injEq] at hs
      subst hs
      -- from here on a signal is for this thread as well
      have hcl := hln (Or.inr ⟨_, _, rfl⟩)
      have hst' : seq ≤ c.sh.head := hst
      refine h.stir (by simp [hl]) le_rfl id hrefl ?_ (fun _ => hcl) fun rel hrel => Or.inr ?_
      · split <;> exact ⟨hst', le_refl c.sh.head⟩
      · split at hrel <;> exact (Option.some.inj hrel).symm
  | checkTime seq rel =>
      have hcl := hln (Or.inl (by simp [Pc.Waits, Pc.releasedAt]))
      obtain ⟨h1, h2⟩ : seq ≤ rel ∧ rel ≤ c.sh.head := hst
      cases a <;> simp only [prog, glkCondWait, reduceCtorEq, Option.some.injEq] at hs <;>
        subst hs
      · exact h.stir (by simp [hl]) le_rfl id hrefl ⟨h1, h2⟩ (fun _ => hcl)
          fun rel hrel => Or.inl (by rw [hl]; exact hrel)
      · exact h.stir (by simp [hl]) le_rfl id hrefl h2 (fun _ => hcl)
          fun rel hrel => Or.inl (by rw [hl]; exact hrel)
  | futexWait timed seq rel =>
      have hcl := hln (Or.inl (by simp [Pc.Waits, Pc.releasedAt]))
      obtain ⟨h1, h2⟩ : seq ≤ rel ∧ rel ≤ c.sh.head := hst
      cases a <;> simp only [prog, glkCondWait, reduceCtorEq] at hs
      split at hs <;> rename_i hmod <;> obtain rfl := Option.some.inj hs
      · -- nobody signalled since the read, so nobody did since the release
        have hlt : c.sh.head < seq + 2 ^ 32 := of_decide_eq_true hok
        obtain rfl : rel = c.sh.head := by omega
        exact ⟨le_rfl, id, ⟨h1, le_rfl⟩, fun _ => hcl, fun _ hr => Or.inl (by rw [hl]; exact hr),
          Or.inr ⟨rfl, h.awake (by simp [hl]), timed, seq, rfl⟩⟩
      · exact h.stir (by simp [hl]) le_rfl id hrefl h2 (fun _ => hcl)
          fun rel hrel => Or.inl (by rw [hl]; exact hrel)
  | blocked timed seq rel =>
      have hcl := hln (Or.inl (by simp [Pc.Waits, Pc.releasedAt]))
      obtain ⟨h1, h2⟩ : seq ≤ rel ∧ rel ≤ c.sh.head := hst
      -- however it gets up, it is not among the sleepers any more
      have hwoken : ∀ q : List Tid, q.Sublist c.sh.asleep → t ∉ q →
          Effect c t ({ c.sh with asleep := q }, .relock rel) := fun q hq ht =>
        ⟨le_rfl, id, h2, fun _ => hcl, fun _ hr => Or.inl (by rw [hl]; exact hr),
          Or.inl ⟨hq, fun hmem => absurd hmem ht⟩⟩
      cases a
      case go =>
          simp only [prog, glkCondWait, Option.ite_none_left_eq_some, Option.some.injEq] at hs
          obtain ⟨ht, rfl⟩ := hs
          exact hwoken c.sh.asleep hrefl ht
      case spurious =>
          simp only [prog, glkCondWait, Option.some.injEq] at hs
          subst hs
          exact hwoken _ List.filter_sublist (by simp)
      case timeout =>
          cases timed
          · simp only [prog, glkCondWait, reduceCtorEq] at hs
          · simp only [prog, glkCondWait, Option.some.injEq] at hs
            subst hs
            exact hwoken _ List.filter_sublist (by simp)
      all_goals simp only [prog, glkCondWait, reduceCtorEq] at hs
  | relock rel =>
      cases a <;> simp only [prog, glkCondWait, reduceCtorEq, Option.ite_none_left_eq_some,
        Option.some.injEq] at hs
      obtain ⟨-, rfl⟩ := hs
      exact hleave (by simp) _ _ le_rfl id hrefl trivial (by simp [Pc.Linked, Pc.Waits,
        Pc.releasedAt])
  | sigAdd g =>
      cases a <;> simp only [prog, glkCondSignal, reduceCtorEq, Option.some.injEq] at hs
      subst hs
      exact hleave (by simp) _ _ (Nat.le_succ _) id hrefl (le_refl (c.sh.head + 1))
        (by simp [Pc.Linked, Pc.Waits, Pc.releasedAt])
  | sigWake g v =>
      cases a <;> simp only [prog, glkCondSignal, reduceCtorEq, Option.map_eq_some_iff] at hs
      obtain ⟨q, hq, rfl⟩ := hs
      exact hleave (by simp) _ _ le_rfl id (futexWake_sublist hq) (back_stamped g _)
        (back_not_linked g)
  | bcastReadL g =>
      cases a <;> simp only [prog, glkCondBroadcast, reduceCtorEq, Option.some.injEq] at hs
      subst hs
      split
      · exact hleave (by simp) _ _ le_rfl id hrefl trivial (by simp [Pc.Linked, Pc.Waits,
          Pc.releasedAt])
      · exact hleave (by simp) _ _ le_rfl id hrefl (back_stamped g _) (back_not_linked g)
  | bcastAdd g =>
      cases a <;> simp only [prog, glkCondBroadcast, reduceCtorEq, Option.some.injEq] at hs
      subst hs
      exact hleave (by simp) _ _ (Nat.le_succ _) id hrefl (le_refl (c.sh.head + 1))
        (by simp [Pc.Linked, Pc.Waits, Pc.releasedAt])
  | bcastRequeue g v =>
      cases a <;> simp only [prog, glkCondBroadcast, reduceCtorEq, Option.some.injEq] at hs
      subst hs
      exact hleave (by simp) _ _ le_rfl id (List.nil_sublist _) (back_stamped g _)
        (back_not_linked g)

/-- **Step lemma.** -/
theorem put (h : Queue c) {r : Shared Tid × Pc} (he : Effect c t r) : Queue (c.put t r) where
  stamped := by
    intro u
    rw [put_loc]
    split
    · exact he.stamped
    · exact (h.stamped u).mono he.head
  linked := by
    intro u hu
    rw [put_loc] at hu
    split at hu
    · exact he.linked hu
    · exact he.l (h.linked u hu)
  parked := by
    intro u hu
    rw [put_loc]
    rcases he.asleep with ⟨hsub, hsame⟩ | ⟨happ, -, timed, seq, hblocked⟩
    · split
      · rename_i hut
        subst hut
        rw [hsame hu]
        exact h.parked u (hsub.subset hu)
      · exact h.parked u (hsub.subset hu)
    · split
      · exact ⟨timed, seq, _, hblocked⟩
      · rename_i hut
        rw [put_sh, happ] at hu
        exact h.parked u ((List.mem_append.mp hu).resolve_right (by simpa using hut))
  sorted := by
    have hloc : ∀ u, u ∈ c.sh.asleep → u ∈ r.1.asleep → (c.put t r).loc u = c.loc u := by
      intro u hold hnew
      rw [put_loc]
      split <;> rename_i hut
      · subst hut
        rcases he.asleep with ⟨-, hsame⟩ | ⟨-, hnot, -⟩
        · exact hsame hnew
        · exact absurd hold hnot
      · rfl
    rcases he.asleep with ⟨hsub, -⟩ | ⟨happ, -, timed, seq, hblocked⟩
    · refine (h.sorted.sublist hsub).imp_of_mem fun {u v} hu hv hle => ?_
      rwa [hloc u (hsub.subset hu) hu, hloc v (hsub.subset hv) hv]
    · have hmem : ∀ u ∈ c.sh.asleep, u ∈ r.1.asleep := fun u hu => by
        rw [happ]
        exact List.mem_append_left _ hu
      rw [put_sh, happ]
      refine List.pairwise_append.mpr ⟨?_, List.pairwise_singleton .., fun u hu v hv => ?_⟩
      · refine h.sorted.imp_of_mem fun {u v} hu hv hle => ?_
        rwa [hloc u hu (hmem u hu), hloc v hv (hmem v hv)]
      · -- the newcomer released the lock just now
        obtain rfl := List.mem_singleton.mp hv
        intro rel rel' hrel hrel'
        rw [hloc u hu (hmem u hu)] at hrel
        rw [put_loc_self, hblocked] at hrel'
        obtain rfl := Option.some.inj hrel'
        exact (h.stamped u).le hrel

omit [DecidableEq Tid] in
/-- Before the first call. -/
theorem init (h : Init c) : Queue c where
  stamped t := by
    rw [h.idle t]
    trivial
  linked t hl := by
    rw [h.idle t] at hl
    simp [Pc.Linked, Pc.Waits, Pc.releasedAt] at hl
  parked t ht := by
    rw [h.asleep] at ht
    cases ht
  sorted := by
    rw [h.asleep]
    exact List.Pairwise.nil

/-- **Run lemma.** -/
theorem reach (h : Reach prog fresh Init c) : Queue c :=
  h.invariant (fun _ => init) fun _ _ _ _ hc hok hs => hc.put (hc.effect hok hs)

end Queue

/-! ## Before and after an increment -/

/-- The runs that go on from `c`. -/
def Later (c c' : Conf Tid (Shared Tid) Pc) : Prop := Reach prog fresh (· = c) c'

section

variable {c c' : Conf Tid (Shared Tid) Pc} {v : Nat}

/-- What holds of a queue and is kept by every effect holds later. -/
theorem Later.invariant {Inv : Conf Tid (Shared Tid) Pc → Prop} (h : Later c c') (hq : Queue c)
    (hc : Inv c) (hstep : ∀ c t r, Queue c → Inv c → Effect c t r → Inv (c.put t r)) :
    Queue c' ∧ Inv c' := by
  refine Reach.invariant (I := fun d => Queue d ∧ Inv d) ?_ ?_ h
  · rintro _ rfl
    exact ⟨hq, hc⟩
  · rintro d t a r ⟨hd, hi⟩ hok hs
    have he := hd.effect hok hs
    exact ⟨hd.put he, hstep d t r hd hi he⟩

/-- The counter has reached `v`, and the waits that released the lock before are `P`'s. -/
structure Before (v : Nat) (P : Tid → Prop) (c : Conf Tid (Shared Tid) Pc) : Prop where
  head : v ≤ c.sh.head
  waits : ∀ t rel, (c.loc t).releasedAt = some rel → rel < v → P t

/-- **Step lemma.** Nobody joins the waits before `v`. -/
theorem Before.put {P : Tid → Prop} (h : Before v P c) {t : Tid} {r : Shared Tid × Pc}
    (he : Effect c t r) : Before v P (c.put t r) where
  head := h.head.trans he.head
  waits := by
    intro u rel hrel hlt
    rw [put_loc] at hrel
    split at hrel
    · rename_i hut
      subst hut
      rcases he.released rel hrel with hold | rfl
      · exact h.waits u rel hold hlt
      · exact absurd h.head (Nat.not_le.mpr hlt)
    · exact h.waits u rel hrel hlt

/-- Nobody sleeps who released the lock before the increment to `v`. -/
structure Flushed (v : Nat) (c : Conf Tid (Shared Tid) Pc) : Prop where
  head : v ≤ c.sh.head
  awake : ∀ t, ¬ AsleepSince v c t

/-- **Step lemma.** Nobody falls asleep with a release before `v`. -/
theorem Flushed.put (h : Flushed v c) {t : Tid} {r : Shared Tid × Pc} (he : Effect c t r) :
    Flushed v (c.put t r) where
  head := h.head.trans he.head
  awake := by
    rintro u ⟨hu, rel, hlt, hrel⟩
    rw [put_loc] at hrel
    rcases he.asleep with ⟨hsub, hsame⟩ | ⟨happ, -, timed, seq, hblocked⟩
    · split at hrel <;> rename_i hut
      · subst hut
        rw [hsame hu] at hrel
        exact h.awake u ⟨hsub.subset hu, rel, hlt, hrel⟩
      · exact h.awake u ⟨hsub.subset hu, rel, hlt, hrel⟩
    · split at hrel <;> rename_i hut
      · -- the newcomer released the lock after the increment
        rw [hblocked] at hrel
        obtain rfl := Option.some.inj hrel
        exact absurd h.head (Nat.not_le.mpr hlt)
      · rw [put_sh, happ] at hu
        exact h.awake u ⟨(List.mem_append.mp hu).resolve_right (by simpa using hut), rel, hlt, hrel⟩

/-- The increment of a signal or broadcast comes after the releases so far. -/
theorem before_add (c : Conf Tid (Shared Tid) Pc) {t : Tid} {pc : Pc} (hpc : pc.releasedAt = none) :
    Before (c.sh.head + 1) (fun u => (c.loc u).Waits)
      (c.put t ({ c.sh with head := c.sh.head + 1 }, pc)) where
  head := le_rfl
  waits := by
    intro u rel hrel _
    rw [put_loc] at hrel
    split at hrel
    · rw [hpc] at hrel
      cases hrel
    · rw [Pc.Waits, hrel]
      exact Option.some_ne_none rel

end

/-! ## No lost wake-up -/

/-- One of the threads that waited in `c` does not sleep in that wait in `c'`. -/
def SomeAwake (v : Nat) (c c' : Conf Tid (Shared Tid) Pc) : Prop :=
  ∃ t, (c.loc t).Waits ∧ ¬ AsleepSince v c' t

/-- The move releases the lock inside a wait. -/
def Releases (m : Move Tid Pc) : Prop := ∃ timed seq, m.before = .release timed seq

section

variable {c₀ c c₁ c₂ : Conf Tid (Shared Tid) Pc} {s : Tid} {r r₁ : Shared Tid × Pc} {h : Bool}

/-- After the futex call of a broadcast nobody sleeps who released the lock before the
    increment. -/
theorem flushed_of_broadcast (hc : Queue c) (hl : c.loc s = .bcastAdd h)
    (hadd : prog s c.sh (c.loc s) .go = some r) (hmid : Later (c.put s r) c₁)
    (hl₁ : c₁.loc s = .bcastRequeue h (c.sh.head + 1))
    (hwake : prog s c₁.sh (c₁.loc s) .go = some r₁) (hlate : Later (c₁.put s r₁) c₂) :
    Flushed (c.sh.head + 1) c₂ := by
  have hr : Queue (c.put s r) := hc.put (hc.effect (by rw [fresh, hl]; rfl) hadd)
  rw [hl] at hadd
  obtain rfl := Option.some.inj hadd
  obtain ⟨hq₁, hbefore⟩ := hmid.invariant hr (before_add c rfl) fun _ _ _ _ hb => hb.put
  have hr₁ : Queue (c₁.put s r₁) := hq₁.put (hq₁.effect (by rw [fresh, hl₁]; rfl) hwake)
  rw [hl₁] at hwake
  obtain rfl := Option.some.inj hwake
  refine (hlate.invariant hr₁ ⟨hbefore.head, ?_⟩ fun _ _ _ _ hf => hf.put).2
  rintro t ⟨ht, -⟩
  cases ht

/-- What the futex call of a signal does, by whom it wakes. -/
theorem awake_of_signal (hc : Queue c) (hl : c.loc s = .sigAdd h) (hsome : ∃ t, (c.loc t).Waits)
    (hadd : prog s c.sh (c.loc s) .go = some r) (hmid : Later (c.put s r) c₁)
    (hl₁ : c₁.loc s = .sigWake h (c.sh.head + 1)) {u : Option Tid}
    (hwake : prog s c₁.sh (c₁.loc s) (.wake u) = some r₁) :
    (SomeAwake (c.sh.head + 1) c (c₁.put s r₁) ∨
      ∃ w, u = some w ∧ w ∈ c₁.sh.asleep ∧ ¬ AsleepSince (c.sh.head + 1) c₁ w) ∧
    (u = c₁.sh.asleep.head? → SomeAwake (c.sh.head + 1) c (c₁.put s r₁)) := by
  have hr : Queue (c.put s r) := hc.put (hc.effect (by rw [fresh, hl]; rfl) hadd)
  rw [hl] at hadd
  obtain rfl := Option.some.inj hadd
  obtain ⟨hq₁, hbefore⟩ := hmid.invariant hr (before_add c rfl) fun _ _ _ _ hb => hb.put
  obtain ⟨t₀, ht₀⟩ := hsome
  rw [hl₁] at hwake
  simp only [prog, glkCondSignal, Option.map_eq_some_iff] at hwake
  obtain ⟨q, hq, rfl⟩ := hwake
  cases u with
  | none =>
      simp only [Mutexee.futexWake, Option.ite_none_right_eq_some, Option.some.injEq] at hq
      obtain ⟨-, rfl⟩ := hq
      have hawake : SomeAwake (c.sh.head + 1) c (c₁.put s ({ c₁.sh with asleep := [] }, back h)) :=
        ⟨t₀, ht₀, fun hold => absurd hold.1 List.not_mem_nil⟩
      exact ⟨Or.inl hawake, fun _ => hawake⟩
  | some w =>
      simp only [Mutexee.futexWake, Option.ite_none_right_eq_some, Option.some.injEq] at hq
      obtain ⟨hw, rfl⟩ := hq
      obtain ⟨timed, seq, rel, hlw⟩ := hq₁.parked w hw
      have hrelw : (c₁.loc w).releasedAt = some rel := by rw [hlw]; rfl
      by_cases hlt : rel < c.sh.head + 1
      · -- the thread that wakes is one of those that waited
        have hawake : SomeAwake (c.sh.head + 1) c
            (c₁.put s ({ c₁.sh with asleep := c₁.sh.asleep.filter (· ≠ w) }, back h)) := by
          refine ⟨w, hbefore.waits w rel hrelw hlt, ?_⟩
          rintro ⟨hmem, -⟩
          simp at hmem
        exact ⟨Or.inl hawake, fun _ => hawake⟩
      · refine ⟨Or.inr ⟨w, rfl, hw, ?_⟩, fun hfirst => ?_⟩
        · rintro ⟨-, rel', hlt', hrel'⟩
          rw [hrelw] at hrel'
          obtain rfl := Option.some.inj hrel'
          exact hlt hlt'
        · -- nobody has slept longer
          refine ⟨t₀, ht₀, ?_⟩
          rintro ⟨hmem, rel', hlt', hrel'⟩
          have hmem₁ : t₀ ∈ c₁.sh.asleep := List.mem_of_mem_filter hmem
          obtain ⟨timed', seq', rel₀, hl₀⟩ := hq₁.parked t₀ hmem₁
          have hne : t₀ ≠ s := by
            rintro rfl
            rw [hl₁] at hl₀
            cases hl₀
          rw [put_loc_ne _ _ hne] at hrel'
          obtain ⟨rest, hrest⟩ : ∃ rest, c₁.sh.asleep = w :: rest :=
            List.head?_eq_some_iff.mp hfirst.symm
          have hsorted := hq₁.sorted
          rw [hrest] at hsorted hmem₁
          rcases List.mem_cons.mp hmem₁ with rfl | hin
          · rw [hrelw] at hrel'
            obtain rfl := Option.some.inj hrel'
            exact hlt hlt'
          · have := List.rel_of_pairwise_cons hsorted hin rel rel' hrelw hrel'
            omega

/-- As long as `c->l` is `NULL`, nobody has released the lock inside a wait. -/
theorem linked_of_releases {tr : List (Move Tid Pc)} (h0 : Init c₀)
    (hrun : Run prog fresh c₀ tr c) {m : Move Tid Pc} (hm : m ∈ tr) (hrel : Releases m) :
    c.sh.l = true := by
  induction hrun with
  | nil => cases hm
  | snoc hrun hok hs ih =>
      have hq := Queue.reach (hrun.reach h0)
      have he := hq.effect hok hs
      rcases List.mem_append.mp hm with hold | hnew
      · exact he.l (ih hold)
      · obtain rfl := List.mem_singleton.mp hnew
        exact he.l (hq.linked _ (Or.inr hrel))

/-- **No wake-up is lost.**  After the futex call of a broadcast nobody sleeps who released
    the lock, inside a wait, before the increment.  When somebody waits at the increment of a
    signal, then after its futex call one of these threads does not sleep any more, or the
    call has woken a thread that went to sleep after the increment; the former when it wakes
    the thread that has slept longest.  And a broadcast that finds `c->l` to be `NULL` comes
    before every release inside a wait. -/
theorem glkCond_safe {tr : List (Move Tid Pc)} (h0 : Init c₀) (hrun : Run prog fresh c₀ tr c)
    (s : Tid) (h : Bool) :
    (c.loc s = .bcastAdd h → ∀ r c₁ r₁ c₂, prog s c.sh (c.loc s) .go = some r →
      Later (c.put s r) c₁ → c₁.loc s = .bcastRequeue h (c.sh.head + 1) →
      prog s c₁.sh (c₁.loc s) .go = some r₁ → Later (c₁.put s r₁) c₂ →
      ∀ t, ¬ AsleepSince (c.sh.head + 1) c₂ t) ∧
    (c.loc s = .sigAdd h → (∃ t, (c.loc t).Waits) → ∀ r c₁ u r₁,
      prog s c.sh (c.loc s) .go = some r → Later (c.put s r) c₁ →
      c₁.loc s = .sigWake h (c.sh.head + 1) →
      prog s c₁.sh (c₁.loc s) (.wake u) = some r₁ →
      (SomeAwake (c.sh.head + 1) c (c₁.put s r₁) ∨
        ∃ w, u = some w ∧ w ∈ c₁.sh.asleep ∧ ¬ AsleepSince (c.sh.head + 1) c₁ w) ∧
      (u = c₁.sh.asleep.head? → SomeAwake (c.sh.head + 1) c (c₁.put s r₁))) ∧
    (c.loc s = .bcastReadL h → ∀ r, prog s c.sh (c.loc s) .go = some r → r.2 = back h →
      ∀ m ∈ tr, ¬ Releases m) := by
  have hq := Queue.reach (hrun.reach h0)
  refine ⟨?_, ?_, ?_⟩
  · intro hl r c₁ r₁ c₂ hadd hmid hl₁ hwake hlate
    exact (flushed_of_broadcast hq hl hadd hmid hl₁ hwake hlate).awake
  · intro hl hsome r c₁ u r₁ hadd hmid hl₁ hwake
    exact awake_of_signal hq hl hsome hadd hmid hl₁ hwake
  · intro hl r hs hback m hm hrel
    have hlinked := linked_of_releases h0 hrun hm hrel
    rw [hl] at hs
    simp only [prog, glkCondBroadcast, hlinked, if_true, Option.some.injEq] at hs
    subst hs
    cases h <;> cases hback

end

/-- Nobody is in a call. -/
def start : Conf (Fin 3) (Shared (Fin 3)) Pc := ⟨⟨0, false, false, []⟩, fun _ => .idle⟩

theorem start_init : Init start := by constructor <;> simp [start]

/-- Thread 0 goes to sleep in a wait, and thread 2 calls `glk_cond_signal`. -/
def waitThenSignal : List (Fin 3 × Act (Fin 3)) :=
  [(0, .lock), (0, .go), (0, .wait false)] ++ List.replicate 7 (0, .go) ++ [(2, .signal)]

/-- Thread 1 goes to sleep in a wait. -/
def waitToo : List (Fin 3 × Act (Fin 3)) :=
  [(1, .lock), (1, .go), (1, .wait false)] ++ List.replicate 4 (1, .go)

/-- Thread 1 comes between the increment and the futex call of the signal of thread 2, which
    then wakes thread 0. -/
theorem glkCond_safe_oldest :
    ∃ (tr : List (Move (Fin 3) Pc)) (c c₁ : Conf (Fin 3) (Shared (Fin 3)) Pc)
      (r r₁ : Shared (Fin 3) × Pc),
      Run prog fresh start tr c ∧ prog 2 c.sh (c.loc 2) .go = some r ∧
      exec prog fresh (c.put 2 r) waitToo = some c₁ ∧ c₁.sh.asleep = [0, 1] ∧
      prog 2 c₁.sh (c₁.loc 2) (.wake (some 0)) = some r₁ ∧
      SomeAwake (c.sh.head + 1) c (c₁.put 2 r₁) := by
  obtain ⟨c, r, c₁, r₁, hx, hl, hl0, hhead, hadd, hx₁, hl₁, hq, hwake⟩ :
      ∃ (c : Conf (Fin 3) (Shared (Fin 3)) Pc) (r : Shared (Fin 3) × Pc)
        (c₁ : Conf (Fin 3) (Shared (Fin 3)) Pc) (r₁ : Shared (Fin 3) × Pc),
        exec prog fresh start waitThenSignal = some c ∧ c.loc 2 = .sigAdd false ∧
        c.loc 0 = .blocked false 0 0 ∧ c.sh.head = 0 ∧
        prog 2 c.sh (c.loc 2) .go = some r ∧ exec prog fresh (c.put 2 r) waitToo = some c₁ ∧
        c₁.loc 2 = .sigWake false 1 ∧ c₁.sh.asleep = [0, 1] ∧
        prog 2 c₁.sh (c₁.loc 2) (.wake (some 0)) = some r₁ :=
    ⟨_, _, _, _, rfl, rfl, rfl, rfl, rfl, rfl, rfl, rfl, rfl⟩
  obtain ⟨tr, hrun⟩ := run_of_exec hx
  have hwaits : ∃ t, (c.loc t).Waits := ⟨0, by rw [hl0]; exact Option.some_ne_none _⟩
  obtain ⟨-, hsignal, -⟩ := glkCond_safe start_init hrun 2 false
  exact ⟨tr, c, c₁, r, r₁, hrun, hadd, hx₁, hq, hwake,
    (hsignal hl hwaits r c₁ _ r₁ hadd (reach_of_exec rfl hx₁) (by rw [hl₁, hhead]) hwake).2
      (by rw [hq]; rfl)⟩

/-- **A wake-up is stolen**: in the same run the kernel wakes thread 1, which has released
    the lock after the increment, and the only thread that waited at the increment sleeps on. -/
theorem glkCond_signal_stolen :
    ∃ (c c₁ : Conf (Fin 3) (Shared (Fin 3)) Pc) (r r₁ : Shared (Fin 3) × Pc),
      Reach prog fresh Init c ∧ c.loc 2 = .sigAdd false ∧ (∃ t, (c.loc t).Waits) ∧
      prog 2 c.sh (c.loc 2) .go = some r ∧ Later (c.put 2 r) c₁ ∧
      c₁.loc 2 = .sigWake false (c.sh.head + 1) ∧
      prog 2 c₁.sh (c₁.loc 2) (.wake (some 1)) = some r₁ ∧
      ¬ SomeAwake (c.sh.head + 1) c (c₁.put 2 r₁) := by
  obtain ⟨c, r, c₁, r₁, hx, hl, hloc, hhead, hadd, hx₁, hl₁, hwake, hold, hblocked⟩ :
      ∃ (c : Conf (Fin 3) (Shared (Fin 3)) Pc) (r : Shared (Fin 3) × Pc)
        (c₁ : Conf (Fin 3) (Shared (Fin 3)) Pc) (r₁ : Shared (Fin 3) × Pc),
        exec prog fresh start waitThenSignal = some c ∧ c.loc 2 = .sigAdd false ∧
        (c.loc 0 = .blocked false 0 0 ∧ c.loc 1 = .idle) ∧ c.sh.head = 0 ∧
        prog 2 c.sh (c.loc 2) .go = some r ∧ exec prog fresh (c.put 2 r) waitToo = some c₁ ∧
        c₁.loc 2 = .sigWake false 1 ∧ prog 2 c₁.sh (c₁.loc 2) (.wake (some 1)) = some r₁ ∧
        r₁.1.asleep = [0] ∧ (c₁.put 2 r₁).loc 0 = .blocked false 0 0 :=
    ⟨_, _, _, _, rfl, rfl, ⟨rfl, rfl⟩, rfl, rfl, rfl, rfl, rfl, rfl, rfl⟩
  refine ⟨c, c₁, r, r₁, reach_of_exec start_init hx, hl,
    ⟨0, by rw [hloc.1]; exact Option.some_ne_none _⟩, hadd, reach_of_exec rfl hx₁,
    by rw [hl₁, hhead], hwake, ?_⟩
  rintro ⟨t, ht, hawake⟩
  match t with
  | 0 =>
      refine hawake ⟨?_, 0, Nat.succ_pos _, ?_⟩
      · rw [put_sh, hold]
        exact List.mem_singleton_self _
      · rw [hblocked]
        rfl
  | 1 =>
      rw [hloc.2] at ht
      exact ht rfl
  | 2 =>
      rw [hl] at ht
      exact ht rfl

end GlkCond
