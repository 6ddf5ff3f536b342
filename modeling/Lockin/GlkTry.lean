import Lockin.GlkSafe

/-! # A failed `glk_trylock` leaves nothing behind

    One call of `glk_trylock` in the adaptive lock of `Glk`, with every interleaving of
    the calls of other threads, and with calls on OTHER adaptive locks in between
    (`Act.other`), which take and give back entries of the same table of nodes.  A thread
    that needs a node when all of its entries are in use goes behind the table, and then
    anything may happen (`Step.overflow`).

    The call may take and give back several of the three locks, as the type changes under
    it.  The invariant of a call (`Tabled`) says how the table differs from the one that
    the call found: in one entry while the call has a node in use, and nowhere else.  What
    a release leaves to the waiters is read off the three protocols (`handedOver`).

    All this rests on the invariant of `GlkSafe`, for runs whose steps are `steady` and
    stay within the table (`sound`).  In other runs a stale owner changes the type under a
    thread in its critical section, the `glk_unlock` of that thread serves a ticket that it
    does not own, and the ticket lock that a `glk_trylock` gives back is handed over to nobody
    (`glkTrylock_skips`). -/

namespace GlkTry

open Interleaving Glk

variable {Tid : Type}

/-- A step of this lock, or a call on another lock that takes entry `i` of the table or
    gives it back. -/
inductive Act (Tid : Type) where
  | glk (a : Glk.Act Tid)
  | other (i : Fin nestedLocksMax) (used : Bool)

/-- The thread is in no call on this lock. -/
def outside : Pc Tid → Bool
  | .idle => true
  | .critical _ => true
  | _ => false

/-- One step of a thread. -/
def prog [DecidableEq Tid] (cfg : Config) : Prog Tid (Shared Tid) (Local Tid) (Act Tid) :=
  fun t sh l a =>
    match a with
    | .glk a => Glk.prog cfg t sh l a
    | .other i used =>
        if outside l.pc ∧ l.head i ≠ .this then
          some (sh, { l with head := Function.update l.head i (if used then .other else .null) })
        else none

/-- Nothing goes wrong in the step. -/
def steady (c : Conf Tid (Shared Tid) (Local Tid)) (t : Tid) : Act Tid → Prop
  | .glk a => Glk.steady c t a
  | .other _ _ => True

instance (c : Conf Tid (Shared Tid) (Local Tid)) (t : Tid) :
    (a : Act Tid) → Decidable (steady c t a)
  | .glk a => inferInstanceAs (Decidable (Glk.steady c t a))
  | .other _ _ => isTrue trivial

/-- All entries are in use when `glk_mcs_get_local_lock` looks for a free one. -/
def full (l : Local Tid) : Bool :=
  match l.pc with
  | .mcsGetLocal => (glkMcsGetLocalLock l.head).isNone
  | .mcsTryGetLocal => (glkMcsGetLocalLock l.head).isNone
  | _ => false

/-- A step within the table, or one that uses the entry behind it. -/
inductive Step (Tid : Type) where
  | within (a : Act Tid)
  | overflow (sh : Shared Tid) (l : Local Tid)

/-- One step of a thread. -/
def step [DecidableEq Tid] (cfg : Config) : Prog Tid (Shared Tid) (Local Tid) (Step Tid) :=
  fun t sh l a =>
    match a with
    | .within a => prog cfg t sh l a
    | .overflow sh' l' => if full l then some (sh', l') else none

/-- Nothing goes wrong in the step, and a node is taken only while an entry is free. -/
def sound (c : Conf Tid (Shared Tid) (Local Tid)) (t : Tid) : Step Tid → Prop
  | .within a => steady c t a
  | .overflow _ _ => False

instance (c : Conf Tid (Shared Tid) (Local Tid)) (t : Tid) :
    (a : Step Tid) → Decidable (sound c t a)
  | .within a => inferInstanceAs (Decidable (steady c t a))
  | .overflow _ _ => isFalse id

/-- The thread is in `glk_trylock`. -/
def trying : Pc Tid → Bool
  | .readType try_ => try_
  | .check try_ _ => try_
  | .ticketTail => true
  | .ticketHead _ => true
  | .ticketCas _ => true
  | .ticketUnlock k => k = .retry true
  | .ticketIncrement k _ => k = .retry true
  | .mcsTail => true
  | .mcsTryGetLocal => true
  | .mcsTryClearNext _ => true
  | .mcsCas _ => true
  | .mcsUnlock k => k = .retry true
  | .mcsCasTail k _ => k = .retry true
  | .mcsWaitSucc k _ => k = .retry true
  | .mcsClear k _ => k = .retry true
  | .mutex .trylock _ => true
  | .mutex (.unlock k) _ => k = .retry true
  | _ => false

/-- The states during a call of `glk_trylock` that thread `t` made in state `c₀`. -/
inductive Calling [DecidableEq Tid] (cfg : Config)
    (ok : Conf Tid (Shared Tid) (Local Tid) → Tid → Step Tid → Prop)
    (c₀ : Conf Tid (Shared Tid) (Local Tid)) (t : Tid) :
    Conf Tid (Shared Tid) (Local Tid) → Prop where
  | call {r : Shared Tid × Local Tid} :
      step cfg t c₀.sh (c₀.loc t) (.within (.glk .trylock)) = some r →
      Calling cfg ok c₀ t (c₀.put t r)
  | step {c : Conf Tid (Shared Tid) (Local Tid)} {u : Tid} {a : Step Tid}
      {r : Shared Tid × Local Tid} :
      Calling cfg ok c₀ t c → ok c u a → step cfg u c.sh (c.loc u) a = some r →
      (u = t → trying r.2.pc) → Calling cfg ok c₀ t (c.put u r)

/-- Whoever waits for the lock `k`, somebody other than `t` has been given it, or is about
    to be: the owner of the ticket that is served, the first in the queue, or the thread
    that has to wake a sleeper. -/
def HandedOver (c : Conf Tid (Shared Tid) (Local Tid)) (t : Tid) : LockType → Prop
  | .ticket => ∀ u, ((ticketView c).loc u).phase = .waiting →
      ∃ v, v ≠ t ∧ (((ticketView c).loc v).phase = .holding ∨
        (ticketView c).loc v = .wait (ticketView c).sh.head)
  | .mcs => ∀ u, ((mcsView c).loc u).phase = .waiting →
      ∃ v, v ≠ t ∧ McsQueue.Owner (mcsView c) v
  | .mutex => ∀ u, u ∈ (mutexView c).sh.asleep → (mutexView c).sh.word = ⟨1, 1⟩ ∨
      ∃ v, v ≠ t ∧ (Mutexee.Redoes (mutexView c) v ∨ Mutexee.HasToWake (mutexView c) v)

/-- `glk_trylock` returned a nonzero value: the thread has none of the three locks and waits
    for none, their waiters have been seen to, and the table is `head`. -/
structure Failed (c : Conf Tid (Shared Tid) (Local Tid)) (t : Tid) (head : Heads) : Prop where
  owns : ∀ k, ¬ Owns c k t
  handedOver : ∀ k, HandedOver c t k
  head : (c.loc t).head = head

/-- `glk_trylock` returned 0: the thread, and nobody else, owns the lock that `lock_type`
    names, and none of the others, and at most one entry of the table is new. -/
structure Acquired (c : Conf Tid (Shared Tid) (Local Tid)) (t : Tid) (head : Heads)
    (k : LockType) : Prop where
  lockType : c.sh.lockType = k
  owns : ∀ k', Owns c k' t ↔ k' = k
  alone : ∀ u, Owns c k u → u = t
  head : (c.loc t).head = head ∨
    ∃ i, head i = .null ∧ (c.loc t).head = Function.update head i .this

variable [DecidableEq Tid]

/-! ## The invariant of the lock -/

/-- Only the entries for this lock are looked up. -/
theorem firstHead_congr {head head' : Heads} (h : ∀ j, head' j = .this ↔ head j = .this) :
    firstHead head' .this = firstHead head .this := by
  unfold firstHead
  congr 1
  funext j
  exact decide_eq_decide.mpr (h j)

section Other

variable {c : Conf Tid (Shared Tid) (Local Tid)} {t : Tid} {head : Heads}

omit [DecidableEq Tid] in
theorem ownNode_congr (t : Tid) {head head' : Heads}
    (h : ∀ j, head' j = .this ↔ head j = .this) : ownNode t head' = ownNode t head := by
  rw [ownNode, ownNode, firstHead_congr h]

/-- A call on another lock does not change what this lock sees of the table. -/
theorem inv_other (h : Inv c) (hout : outside (c.loc t).pc)
    (hhead : ∀ j, head j = .this ↔ (c.loc t).head j = .this) :
    Inv (c.put t (c.sh, ⟨head, (c.loc t).pc⟩)) := by
  have hticket : ticketView (c.put t (c.sh, ⟨head, (c.loc t).pc⟩)) = ticketView c :=
    (view_put ..).trans (put_self (ticketView c) t)
  have hmutex : mutexView (c.put t (c.sh, ⟨head, (c.loc t).pc⟩)) = mutexView c :=
    (view_put ..).trans (put_self (mutexView c) t)
  have hpc : (c.loc t).pc.mcsPc t head = (c.loc t).pc.mcsPc t (c.loc t).head := by
    cases hl : (c.loc t).pc <;> simp only [hl, outside, Bool.false_eq_true] at hout
    · rfl
    · simp only [Pc.mcsPc, ownNode_congr t hhead]
  have hmcs : mcsView (c.put t (c.sh, ⟨head, (c.loc t).pc⟩)) = mcsView c := by
    refine (view_put ..).trans ?_
    show (mcsView c).put t (c.sh.mcs, (c.loc t).pc.mcsPc t head) = mcsView c
    rw [hpc]
    exact put_self (mcsView c) t
  refine ⟨hticket ▸ h.ticket, hmcs ▸ h.mcs, hmutex ▸ h.mutex, ?_, ?_⟩
  · intro u
    rw [put_loc]
    split
    · have hold := h.slotted t
      unfold Local.Slotted at hold ⊢
      simp only [hhead, ne_eq]
      exact hold
    · exact h.slotted u
  · intro u k hk
    rw [put_loc] at hk
    split at hk
    · exact h.sure t k hk
    · exact h.sure u k hk

/-- **Step lemma.** -/
theorem inv_step {cfg : Config} (h : Inv c) {a : Act Tid} {r : Shared Tid × Local Tid}
    (hok : steady c t a) (hs : prog cfg t c.sh (c.loc t) a = some r) : Inv (c.put t r) := by
  cases a with
  | glk a => exact h.step hok hs
  | other i used =>
      obtain ⟨⟨hout, hi⟩, hr⟩ := Option.ite_none_right_eq_some.mp hs
      obtain rfl := Option.some.inj hr
      refine inv_other h hout fun j => ?_
      rw [Function.update_apply]
      split
      · rename_i hj
        rw [hj]
        refine iff_of_false ?_ hi
        cases used <;> simp
      · rfl

end Other

/-- **Run lemma.** -/
theorem inv_of_reach {cfg : Config} {c : Conf Tid (Shared Tid) (Local Tid)}
    (h : Reach (prog cfg) steady Init c) : Inv c :=
  h.invariant (fun _ h0 => h0.inv) fun _ _ _ _ h hok hs => inv_step h hok hs

/-- **Step lemma**, with the steps that `sound` rules out. -/
theorem inv_sound {cfg : Config} {c : Conf Tid (Shared Tid) (Local Tid)} {t : Tid} (h : Inv c)
    {a : Step Tid} {r : Shared Tid × Local Tid} (hok : sound c t a)
    (hs : step cfg t c.sh (c.loc t) a = some r) : Inv (c.put t r) := by
  cases a with
  | within a => exact inv_step h hok hs
  | overflow => exact hok.elim

/-! ## The waiters -/

section Waiters

variable {c : Conf Tid (Shared Tid) (Local Tid)} {t : Tid}

/-- A thread that has no part in a lock leaves its waiters to others. -/
theorem handedOver (h : Inv c) (hidle : (c.loc t).pc = .idle) (k : LockType) :
    HandedOver c t k := by
  cases k with
  | ticket =>
      -- whoever waits, the ticket that is served is in somebody's hands
      intro u hu
      obtain ⟨f, hline, hf⟩ := (TicketQueue.sim (by decide)).reach h.ticket
      obtain ⟨v, hv⟩ := hline.exists_served hf hu
      refine ⟨v, ?_, hv⟩
      rintro rfl
      have hl : (ticketView c).loc v = .idle := congrArg Pc.ticketPc hidle
      rw [hl] at hv
      simp at hv
  | mcs =>
      -- a queue with a waiter in it has a first thread
      intro u hu
      obtain ⟨f, hline, hf⟩ := McsQueue.sim.reach h.mcs
      have hq := hline.queue hf
      have hmem : u ∈ f.queue := (hq.mem u).mpr (by rw [hu]; exact nofun)
      obtain ⟨v, hv⟩ : ∃ v, f.queue.head? = some v :=
        ⟨_, List.head?_eq_some_head (List.ne_nil_of_mem hmem)⟩
      have hvmem := List.mem_of_mem_head? hv
      refine ⟨v, ?_, (hq.owner v hvmem).mpr hv⟩
      rintro rfl
      have hl : (mcsView c).loc v = .idle :=
        congrArg (fun pc => Pc.mcsPc v (c.loc v).head pc) hidle
      exact (hq.mem v).mp hvmem (by rw [hl]; rfl)
  | mutex =>
      intro u hu
      refine (Mutexee.wakeable (Mutexee.inv_of_reach h.mutex) hu).imp_right ?_
      rintro ⟨v, hv⟩
      refine ⟨v, ?_, hv⟩
      rintro rfl
      have hl : (mutexView c).loc v = .idle := congrArg Pc.mutexPc hidle
      simp [Mutexee.Redoes, Mutexee.HasToWake, hl] at hv

omit [DecidableEq Tid] in
/-- A thread outside owns none of the locks. -/
theorem owns_idle (hidle : (c.loc t).pc = .idle) (k : LockType) : ¬ Owns c k t := by
  cases k with
  | ticket =>
      show ¬ (c.loc t).pc.ticketPc.phase = .holding
      rw [hidle]
      exact nofun
  | mcs =>
      show ¬ ((c.loc t).pc.mcsPc t (c.loc t).head).phase = .holding
      rw [hidle]
      exact nofun
  | mutex =>
      show ¬ (c.loc t).pc.mutexPc.role = .holder
      rw [hidle]
      exact nofun

/-- A thread in its critical section owns the lock that it acquired and no other. -/
theorem owns_critical (h : Inv c) {k : LockType} (hcrit : (c.loc t).pc = .critical k)
    (k' : LockType) : Owns c k' t ↔ k' = k := by
  constructor
  · intro hown
    by_contra hne
    cases k' with
    | ticket =>
        have hl : (c.loc t).pc.ticketPc.phase = .holding := hown
        rw [hcrit] at hl
        cases k <;> simp [Pc.ticketPc, Pc.holds] at hl hne
    | mcs =>
        have hl : ((c.loc t).pc.mcsPc t (c.loc t).head).phase = .holding := hown
        rw [hcrit] at hl
        cases k <;> simp [Pc.mcsPc, Pc.holds] at hl hne
    | mutex =>
        have hl : (c.loc t).pc.mutexPc.role = .holder := hown
        rw [hcrit] at hl
        cases k <;> simp [Pc.mutexPc, Pc.holds] at hl hne
  · rintro rfl
    exact h.owns_of_holds (by rw [hcrit]; rfl)

end Waiters

/-! ## The table -/

/-- The thread has a node in use. -/
def slot (pc : Pc Tid) : Prop := pc.node.isSome ∨ pc.holds = some .mcs

/-- The table, in a call that found it as `head`. -/
structure Tabled (head : Heads) (l : Local Tid) : Prop where
  clear : ∀ j, head j ≠ .this
  used : slot l.pc → ∃ i, head i = .null ∧ l.head = Function.update head i .this
  unused : ¬ slot l.pc → l.head = head

/-- Where a step of a call leads to, and the table after it. -/
structure Tried (head : Heads) (r : Shared Tid × Local Tid) : Prop where
  pc : trying r.2.pc ∨ r.2.pc = .idle ∨ ∃ k, r.2.pc = .critical k ∧ r.1.lockType = k
  tabled : Tabled head r.2

section Call

variable {cfg : Config} {t : Tid} {sh sh' : Shared Tid} {pc pc' : Pc Tid}
  {head head₀ head' : Heads}

omit [DecidableEq Tid] in
/-- The table stays while the use of a node does. -/
theorem Tabled.keep (h : Tabled head₀ ⟨head, pc⟩) (hslot : slot pc' ↔ slot pc) :
    Tabled head₀ ⟨head, pc'⟩ where
  clear := h.clear
  used := fun hs => h.used (hslot.mp hs)
  unused := fun hs => h.unused fun hs' => hs (hslot.mpr hs')

omit [DecidableEq Tid] in
/-- An entry is taken. -/
theorem Tabled.take (h : Tabled head₀ ⟨head, pc⟩) (hno : ¬ slot pc) {i : Fin nestedLocksMax}
    (hget : glkMcsGetLocalLock head = some (i, head')) (hslot : slot pc') :
    Tabled head₀ ⟨head', pc'⟩ := by
  obtain ⟨k, hk, heq⟩ := Option.map_eq_some_iff.mp hget
  obtain ⟨rfl, rfl⟩ := Prod.mk.inj heq
  have hhead : head = head₀ := h.unused hno
  subst hhead
  exact ⟨h.clear, fun _ => ⟨k, firstHead_eq hk, rfl⟩, fun hn => absurd hslot hn⟩

omit [DecidableEq Tid] in
/-- The entry that was taken is given back. -/
theorem Tabled.giveBack (h : Tabled head₀ ⟨head, pc⟩) (hyes : slot pc) {i : Fin nestedLocksMax}
    (hget : glkMcsGetLocalUnlock head = some (i, head')) (hslot : ¬ slot pc') :
    Tabled head₀ ⟨head', pc'⟩ := by
  obtain ⟨j, hj, hhead⟩ := h.used hyes
  dsimp only at hhead
  subst hhead
  have hthis : ∀ m, Function.update head₀ j Head.this m = .this ↔ m = j := by
    intro m
    rw [Function.update_apply]
    split
    · rename_i hm
      exact iff_of_true rfl hm
    · rename_i hm
      exact iff_of_false (h.clear m) hm
  -- the entry found is the one that the call took
  obtain ⟨k, hk, heq⟩ := Option.map_eq_some_iff.mp hget
  obtain ⟨rfl, rfl⟩ := Prod.mk.inj heq
  obtain rfl : k = j := (hthis k).mp (firstHead_eq hk)
  refine ⟨h.clear, fun hs => absurd hs hslot, fun _ => ?_⟩
  show Function.update (Function.update head₀ k .this) k .null = head₀
  rw [Function.update_idem, ← hj, Function.update_eq_self]

omit [DecidableEq Tid] in
/-- A step in the code of the adaptive lock. -/
theorem glkLock_tried (hl : Tabled head₀ ⟨head, pc⟩) (htry : trying pc)
    (hs : glkLock sh pc = some (sh', pc')) : Tried head₀ (sh', ⟨head, pc'⟩) := by
  cases pc with
  | readType try_ =>
      obtain ⟨rfl, rfl⟩ := Prod.mk.inj (Option.some.inj hs)
      obtain rfl : try_ = true := htry
      cases sh.lockType <;>
        exact ⟨Or.inl rfl, hl.keep (by simp [slot, lockLock, Pc.node, Pc.holds])⟩
  | check try_ held =>
      obtain ⟨rfl, rfl⟩ := Prod.mk.inj (Option.some.inj hs)
      obtain rfl : try_ = true := htry
      by_cases htype : sh.lockType = held
      · -- the type has not changed under the trylock
        rw [if_pos htype]
        exact ⟨Or.inr (Or.inr ⟨held, rfl, htype⟩), hl.keep Iff.rfl⟩
      · rw [if_neg htype]
        cases held <;>
          exact ⟨Or.inl rfl, hl.keep (by simp [slot, unlockLock, Pc.node, Pc.holds])⟩
  | _ => exact absurd hs (by simp [glkLock] at htry ⊢ <;> simp [trying] at htry)

omit [DecidableEq Tid] in
/-- A step of `glk_trylock` in the ticket lock. -/
theorem glkTicketLockTrylock_tried (hl : Tabled head₀ ⟨head, pc⟩)
    (hs : glkTicketLockTrylock sh pc = some (sh', pc')) : Tried head₀ (sh', ⟨head, pc'⟩) := by
  cases pc with
  | ticketTail =>
      obtain ⟨rfl, rfl⟩ := Prod.mk.inj (Option.some.inj hs)
      exact ⟨Or.inl rfl, hl.keep (by simp [slot, Pc.node, Pc.holds])⟩
  | ticketHead last =>
      obtain ⟨rfl, rfl⟩ := Prod.mk.inj (Option.some.inj hs)
      split
      · exact ⟨Or.inl rfl, hl.keep (by simp [slot, Pc.node, Pc.holds])⟩
      · exact ⟨Or.inr (Or.inl rfl), hl.keep (by simp [slot, Pc.node, Pc.holds])⟩
  | ticketCas last =>
      unfold glkTicketLockTrylock at hs
      dsimp only at hs
      split at hs
      · obtain ⟨rfl, rfl⟩ := Prod.mk.inj (Option.some.inj hs)
        exact ⟨Or.inl rfl, hl.keep (by simp [slot, Pc.node, Pc.holds])⟩
      · obtain ⟨rfl, rfl⟩ := Prod.mk.inj (Option.some.inj hs)
        exact ⟨Or.inr (Or.inl rfl), hl.keep (by simp [slot, Pc.node, Pc.holds])⟩
  | _ => cases hs

omit [DecidableEq Tid] in
/-- A trylock that has got a lock of the wrong type gives the ticket lock back. -/
theorem glkTicketLockUnlock_tried (hl : Tabled head₀ ⟨head, pc⟩) (htry : trying pc)
    (hs : glkTicketLockUnlock sh pc = some (sh', pc')) : Tried head₀ (sh', ⟨head, pc'⟩) := by
  cases pc with
  | ticketUnlock k =>
      obtain ⟨rfl, rfl⟩ := Prod.mk.inj (Option.some.inj hs)
      exact ⟨Or.inl htry, hl.keep (by simp [slot, Pc.node, Pc.holds])⟩
  | ticketIncrement k x =>
      obtain ⟨rfl, rfl⟩ := Prod.mk.inj (Option.some.inj hs)
      obtain rfl : k = .retry true := of_decide_eq_true htry
      exact ⟨Or.inl rfl, hl.keep (by simp [slot, Ret.next, Pc.node, Pc.holds])⟩
  | _ => cases hs

/-- The steps of `glk_mcs_lock_trylock` in a trylock. -/
theorem glkMcsLockTrylock_tried (hl : Tabled head₀ ⟨head, pc⟩)
    (hs : glkMcsLockTrylock t sh head pc = some (sh', ⟨head', pc'⟩)) :
    Tried head₀ (sh', ⟨head', pc'⟩) := by
  cases pc with
  | mcsTail =>
      obtain ⟨rfl, heq⟩ := Prod.mk.inj (Option.some.inj hs)
      obtain ⟨rfl, rfl⟩ := Local.mk.inj heq
      split
      · exact ⟨Or.inl rfl, hl.keep (by simp [slot, Pc.node, Pc.holds])⟩
      · exact ⟨Or.inr (Or.inl rfl), hl.keep (by simp [slot, Pc.node, Pc.holds])⟩
  | mcsTryGetLocal =>
      obtain ⟨⟨i, head''⟩, hget, heq⟩ := Option.map_eq_some_iff.mp hs
      obtain ⟨rfl, hloc⟩ := Prod.mk.inj heq
      obtain ⟨rfl, rfl⟩ := Local.mk.inj hloc
      exact ⟨Or.inl rfl, hl.take (by simp [slot, Pc.node, Pc.holds]) hget (Or.inl rfl)⟩
  | mcsTryClearNext i =>
      obtain ⟨rfl, heq⟩ := Prod.mk.inj (Option.some.inj hs)
      obtain ⟨rfl, rfl⟩ := Local.mk.inj heq
      exact ⟨Or.inl rfl, hl.keep (by simp [slot, Pc.node])⟩
  | mcsCas i =>
      unfold glkMcsLockTrylock at hs
      dsimp only at hs
      split at hs
      · obtain ⟨rfl, heq⟩ := Prod.mk.inj (Option.some.inj hs)
        obtain ⟨rfl, rfl⟩ := Local.mk.inj heq
        exact ⟨Or.inl rfl, hl.keep (by simp [slot, Pc.node, Pc.holds])⟩
      · -- the CAS has failed
        obtain ⟨⟨j, head''⟩, hget, heq⟩ := Option.map_eq_some_iff.mp hs
        obtain ⟨rfl, hloc⟩ := Prod.mk.inj heq
        obtain ⟨rfl, rfl⟩ := Local.mk.inj hloc
        exact ⟨Or.inr (Or.inl rfl),
          hl.giveBack (Or.inl rfl) hget (by simp [slot, Pc.node, Pc.holds])⟩
  | _ => cases hs

/-- A trylock gives the MCS lock back. -/
theorem glkMcsLockUnlock_tried (hl : Tabled head₀ ⟨head, pc⟩) (htry : trying pc)
    (hs : glkMcsLockUnlock t sh head pc = some (sh', ⟨head', pc'⟩)) :
    Tried head₀ (sh', ⟨head', pc'⟩) := by
  cases pc with
  | mcsUnlock k =>
      obtain ⟨⟨i, head''⟩, hget, heq⟩ := Option.map_eq_some_iff.mp hs
      obtain ⟨rfl, hloc⟩ := Prod.mk.inj heq
      obtain ⟨rfl, rfl⟩ := Local.mk.inj hloc
      refine ⟨?_, hl.giveBack (Or.inr rfl) hget ?_⟩ <;> split
      · exact Or.inl htry
      · exact Or.inl htry
      · simp [slot, Pc.node, Pc.holds]
      · simp [slot, Pc.node, Pc.holds]
  | mcsCasTail k i =>
      obtain rfl : k = .retry true := of_decide_eq_true htry
      unfold glkMcsLockUnlock at hs
      dsimp only at hs
      split at hs <;>
      · obtain ⟨rfl, heq⟩ := Prod.mk.inj (Option.some.inj hs)
        obtain ⟨rfl, rfl⟩ := Local.mk.inj heq
        exact ⟨Or.inl rfl, hl.keep (by simp [slot, Ret.next, Pc.node, Pc.holds])⟩
  | mcsWaitSucc k i =>
      obtain rfl : k = .retry true := of_decide_eq_true htry
      obtain ⟨rfl, heq⟩ := Prod.mk.inj (Option.some.inj hs)
      obtain ⟨rfl, rfl⟩ := Local.mk.inj heq
      split <;> exact ⟨Or.inl rfl, hl.keep (by simp [slot, Pc.node, Pc.holds])⟩
  | mcsClear k succ =>
      obtain rfl : k = .retry true := of_decide_eq_true htry
      obtain ⟨rfl, heq⟩ := Prod.mk.inj (Option.some.inj hs)
      obtain ⟨rfl, rfl⟩ := Local.mk.inj heq
      exact ⟨Or.inl rfl, hl.keep (by simp [slot, Ret.next, Pc.node, Pc.holds])⟩
  | _ => cases hs

/-- The steps of the mutex in a trylock. -/
theorem glkMutex_tried (hl : Tabled head₀ ⟨head, pc⟩) (htry : trying pc)
    {a : Mutexee.Act Tid} (hs : glkMutex t sh a pc = some (sh', pc')) :
    Tried head₀ (sh', ⟨head, pc'⟩) := by
  cases pc with
  | mutex call pc =>
      obtain ⟨⟨m, pc''⟩, -, heq⟩ := Option.map_eq_some_iff.mp hs
      obtain ⟨rfl, rfl⟩ := Prod.mk.inj heq
      cases call with
      | lock => exact absurd htry (by simp [trying])
      | trylock =>
          cases pc'' with
          | critical =>
              exact ⟨Or.inl rfl, hl.keep (by simp [slot, MutexCall.next, Pc.node, Pc.holds])⟩
          | idle =>
              exact ⟨Or.inr (Or.inl rfl),
                hl.keep (by simp [slot, MutexCall.next, Pc.node, Pc.holds])⟩
          | _ => exact ⟨Or.inl rfl, hl.keep Iff.rfl⟩
      | unlock k =>
          obtain rfl : k = .retry true := of_decide_eq_true htry
          cases pc'' with
          | idle =>
              exact ⟨Or.inl rfl,
                hl.keep (by simp [slot, MutexCall.next, Ret.next, Pc.node, Pc.holds])⟩
          | _ => exact ⟨Or.inl rfl, hl.keep Iff.rfl⟩
  | _ => cases hs

/-- **Step lemma.** A step of `glk_trylock`. -/
theorem tried_of_prog {l : Local Tid} (hl : Tabled head₀ l) (htry : trying l.pc)
    {a : Glk.Act Tid} {r : Shared Tid × Local Tid} (hs : Glk.prog cfg t sh l a = some r) :
    Tried head₀ r := by
  obtain ⟨head, pc⟩ := l
  obtain ⟨sh', head', pc'⟩ := r
  cases a with
  | background on =>
      obtain ⟨rfl, hloc⟩ := Prod.mk.inj (Option.some.inj hs)
      obtain ⟨rfl, rfl⟩ := Local.mk.inj hloc
      exact ⟨Or.inl htry, hl⟩
  | lock | trylock | unlock =>
      cases pc <;> simp only [Glk.prog, call, Option.map_some, Option.map_none,
        reduceCtorEq] at hs; simp [trying] at htry
  | mutex a =>
      obtain ⟨⟨sh'', pc''⟩, hm, heq⟩ := Option.map_eq_some_iff.mp hs
      obtain ⟨rfl, hloc⟩ := Prod.mk.inj heq
      obtain ⟨rfl, rfl⟩ := Local.mk.inj hloc
      exact glkMutex_tried hl htry hm
  | go =>
      dsimp only [Glk.prog, go] at hs
      -- the functions that leave the table alone
      have hmap : ∀ o : Option (Shared Tid × Pc Tid),
          o.map (fun r => (r.1, ({ head := head, pc := r.2 } : Local Tid)))
            = some (sh', ⟨head', pc'⟩) → o = some (sh', pc') ∧ head' = head := by
        intro o ho
        obtain ⟨⟨sh, pc⟩, rfl, heq⟩ := Option.map_eq_some_iff.mp ho
        cases heq
        exact ⟨rfl, rfl⟩
      cases pc with
      | readType | check =>
          obtain ⟨h, rfl⟩ := hmap (glkLock sh _) hs
          exact glkLock_tried hl htry h
      | ticketTail | ticketHead | ticketCas =>
          obtain ⟨h, rfl⟩ := hmap (glkTicketLockTrylock sh _) hs
          exact glkTicketLockTrylock_tried hl h
      | ticketUnlock | ticketIncrement =>
          obtain ⟨h, rfl⟩ := hmap (glkTicketLockUnlock sh _) hs
          exact glkTicketLockUnlock_tried hl htry h
      | mcsTail | mcsTryGetLocal | mcsTryClearNext | mcsCas =>
          exact glkMcsLockTrylock_tried hl hs
      | mcsUnlock | mcsCasTail | mcsWaitSucc | mcsClear =>
          exact glkMcsLockUnlock_tried hl htry hs
      | mutex => cases hs
      | _ => exact absurd htry Bool.false_ne_true

end Call

/-! ## The call -/

section Whole

variable {cfg : Config} {c₀ c : Conf Tid (Shared Tid) (Local Tid)} {t : Tid}

/-- The call starts in a thread that has no node in use. -/
theorem call_tabled (h₀ : Inv c₀) {r : Shared Tid × Local Tid}
    (hs : step cfg t c₀.sh (c₀.loc t) (.within (.glk .trylock)) = some r) :
    trying r.2.pc ∧ Tabled (c₀.loc t).head r.2 := by
  have hslot := h₀.slotted t
  generalize hl : c₀.loc t = l at hs hslot
  obtain ⟨head, pc⟩ := l
  cases pc <;> simp only [step, prog, Glk.prog, Glk.call, Option.map_some, Option.map_none,
    Option.some.injEq, reduceCtorEq] at hs
  subst hs
  exact ⟨rfl, hslot, fun h => absurd h (by simp [slot, Pc.node, Pc.holds]), fun _ => rfl⟩

omit [DecidableEq Tid] in
/-- A thread on another lock is in no call on this one. -/
theorem not_trying_of_outside {pc : Pc Tid} (hout : outside pc) : ¬ trying pc := by
  cases pc <;> first | exact Bool.false_ne_true | exact absurd hout Bool.false_ne_true

/-- **Run lemma.** During a call, whatever the other threads do. -/
theorem calling_tabled (h₀ : Inv c₀) (h : Calling cfg sound c₀ t c) :
    trying (c.loc t).pc ∧ Tabled (c₀.loc t).head (c.loc t) := by
  induction h with
  | call hs =>
      rw [put_loc_self]
      exact call_tabled h₀ hs
  | @step c u a r _ hok hs hstay ih =>
      by_cases hu : u = t
      · subst hu
        rw [put_loc_self]
        refine ⟨hstay rfl, ?_⟩
        cases a with
        | within a =>
            cases a with
            | glk a => exact (tried_of_prog ih.2 ih.1 hs).tabled
            | other i used =>
                obtain ⟨⟨hout, -⟩, -⟩ := Option.ite_none_right_eq_some.mp hs
                exact absurd ih.1 (not_trying_of_outside hout)
        | overflow => exact hok.elim
      · rw [put_loc_ne c r (Ne.symm hu)]
        exact ih

theorem calling_inv (h₀ : Inv c₀) (h : Calling cfg sound c₀ t c) : Inv c := by
  induction h with
  | call hs => exact inv_sound h₀ (a := .within (.glk .trylock)) trivial hs
  | step _ hok hs _ ih => exact inv_sound ih hok hs

/-- **`glk_trylock` is atomic**: in every run whose steps are `sound`, with any use of
    the table by other locks.  The step with which the call returns leads to `Failed`,
    with the table that the call found, or to `Acquired`. -/
theorem glkTrylock_atomic {a : Step Tid} {r : Shared Tid × Local Tid}
    (h₀ : Reach (step cfg) sound Init c₀) (hc : Calling cfg sound c₀ t c) (hok : sound c t a)
    (hs : step cfg t c.sh (c.loc t) a = some r) (hret : ¬ trying r.2.pc) :
    r.2.pc = .idle ∧ Failed (c.put t r) t (c₀.loc t).head ∨
      ∃ k, r.2.pc = .critical k ∧ Acquired (c.put t r) t (c₀.loc t).head k := by
  have hinv₀ : Inv c₀ := h₀.invariant (fun _ h => h.inv) fun _ _ _ _ h hok hs => inv_sound h hok hs
  have hinv := inv_sound (calling_inv hinv₀ hc) hok hs
  obtain ⟨htry, htab⟩ := calling_tabled hinv₀ hc
  have hloc : (c.put t r).loc t = r.2 := put_loc_self c t r
  obtain ⟨a, rfl⟩ : ∃ b, a = .within b := by
    cases a with
    | within b => exact ⟨b, rfl⟩
    | overflow => exact hok.elim
  cases a with
  | other i used =>
      obtain ⟨⟨hout, -⟩, -⟩ := Option.ite_none_right_eq_some.mp hs
      exact absurd htry (not_trying_of_outside hout)
  | glk a =>
      obtain ⟨hpc | hidle | ⟨k, hcrit, htype⟩, htab'⟩ := tried_of_prog htab htry hs
      · exact absurd hpc hret
      · -- a nonzero value: the node has been given back
        have hpc : ((c.put t r).loc t).pc = .idle := by rw [hloc, hidle]
        refine Or.inl ⟨hidle, owns_idle hpc, handedOver hinv hpc, ?_⟩
        rw [hloc]
        exact htab'.unused (by simp [slot, hidle, Pc.node, Pc.holds])
      · -- 0: the node is the one of the MCS lock, if it has one
        have hpc : ((c.put t r).loc t).pc = .critical k := by rw [hloc, hcrit]
        refine Or.inr ⟨k, hcrit, htype, owns_critical hinv hpc, fun u hu => ?_, ?_⟩
        · exact hinv.owner_unique hu ((owns_critical hinv hpc k).mpr rfl)
        · rw [hloc]
          by_cases hslot : slot r.2.pc
          · exact Or.inr (htab'.used hslot)
          · exact Or.inl (htab'.unused hslot)

end Whole

/-! ## Two calls -/

section Runs

variable {cfg : Config} {ok : Conf Tid (Shared Tid) (Local Tid) → Tid → Step Tid → Prop}
  {c₀ c d : Conf Tid (Shared Tid) (Local Tid)} {t : Tid}

/-- The step does not return from the call of `t`. -/
def stays (cfg : Config) (t : Tid) (c : Conf Tid (Shared Tid) (Local Tid)) (u : Tid)
    (a : Step Tid) : Bool :=
  u ≠ t || (step cfg u c.sh (c.loc u) a).all fun r => trying r.2.pc

/-- What a schedule executes during a call. -/
theorem calling_of_exec [∀ c u a, Decidable (ok c u a)] {as : List (Tid × Step Tid)}
    (h : Calling cfg ok c₀ t c)
    (hx : exec (step cfg) (fun c u a => ok c u a ∧ stays cfg t c u a) c as = some d) :
    Calling cfg ok c₀ t d := by
  induction as generalizing c with
  | nil =>
      obtain rfl : c = d := Option.some.inj hx
      exact h
  | cons m rest ih =>
      obtain ⟨u, a⟩ := m
      obtain ⟨⟨hok, hstay⟩, hx⟩ := Option.ite_none_right_eq_some.mp hx
      obtain ⟨r, hs, hx'⟩ := Option.bind_eq_some_iff.mp hx
      refine ih (h.step hok hs ?_) hx'
      rintro rfl
      simpa [stays, hs] using hstay

end Runs

/-- Seven threads and a lock of type `type`. -/
def start (type : LockType) : Conf (Fin 7) (Shared (Fin 7)) (Local (Fin 7)) :=
  ⟨⟨type, ⟨1, 0⟩, ⟨none, fun _ => none, fun _ => false⟩, ⟨⟨0, 0⟩, [], false, 0, [], 0⟩, 0, 0,
    false⟩, fun _ => ⟨fun _ => .null, .idle⟩⟩

theorem start_init (type : LockType) : Init (start type) := by
  constructor <;> simp [start]

/-- `n` steps of thread `t`. -/
def steps (t : Fin 7) (n : Nat) : List (Fin 7 × Step (Fin 7)) :=
  List.replicate n (t, .within (.glk .go))

/-- A call of thread `t` and its first `n` steps. -/
def calls (t : Fin 7) (a : Glk.Act (Fin 7)) (n : Nat) : List (Fin 7 × Step (Fin 7)) :=
  (t, .within (.glk a)) :: steps t n

/-- A step of thread `t` in the mutex. -/
def mutexStep (t : Fin 7) : List (Fin 7 × Step (Fin 7)) := [(t, .within (.glk (.mutex .go)))]

/-- Thread 1 acquires the mutex, makes the lock a ticket lock, and starts again. -/
def toTicket : List (Fin 7 × Step (Fin 7)) :=
  calls 1 .lock 1 ++ mutexStep 1 ++ steps 1 6 ++ mutexStep 1 ++ mutexStep 1 ++ steps 1 4

/-- Thread 0 reads the type before that, acquires the mutex after it, and gives it back. -/
def retry : List (Fin 7 × Step (Fin 7)) :=
  steps 0 1 ++ toTicket ++ mutexStep 0 ++ steps 0 1 ++ mutexStep 0 ++ mutexStep 0 ++ steps 0 2

/-- A call that fails after it has given back the mutex. -/
theorem glkTrylock_atomic_retry : ∃ c r : _, Calling ⟨1, 1⟩ sound (start .mutex) 0 c ∧
    step ⟨1, 1⟩ 0 c.sh (c.loc 0) (.within (.glk .go)) = some r ∧ r.2.pc = .idle ∧
    (r.2.pc = .idle ∧ Failed (c.put 0 r) 0 ((start .mutex).loc 0).head ∨
      ∃ k, r.2.pc = .critical k ∧ Acquired (c.put 0 r) 0 ((start .mutex).loc 0).head k) := by
  obtain ⟨r₀, c, r, hcall, hx, hok, hs, hidle⟩ : ∃ r₀ c r,
      step ⟨1, 1⟩ 0 (start .mutex).sh ((start .mutex).loc 0) (.within (.glk .trylock))
        = some r₀ ∧
      exec (step ⟨1, 1⟩) (fun c u a => sound c u a ∧ stays ⟨1, 1⟩ 0 c u a)
        ((start .mutex).put 0 r₀) retry = some c ∧ sound c 0 (.within (.glk .go)) ∧
      step ⟨1, 1⟩ 0 c.sh (c.loc 0) (.within (.glk .go)) = some r ∧ r.2.pc = .idle :=
    ⟨_, _, _, rfl, rfl, rfl, rfl, rfl⟩
  have hc := calling_of_exec (.call hcall) hx
  have hret : ¬ trying r.2.pc := by
    rw [hidle]
    exact nofun
  exact ⟨c, r, hc, hs, hidle, glkTrylock_atomic (.start (start_init .mutex)) hc hok hs hret⟩

/-- Thread 1 is in its critical section under the mutex, and stale owners of the ticket and
    the MCS lock have changed the type back to TICKET; thread 6 is one more of them. -/
def stale : List (Fin 7 × Step (Fin 7)) :=
  calls 0 .lock 4 ++ calls 1 .lock 4 ++ calls 2 .lock 3 ++ calls 3 .lock 4 ++ calls 0 .unlock 3
    ++ calls 0 (.background true) 0 ++ steps 1 7 ++ mutexStep 1 ++ steps 1 2
    ++ calls 0 (.background false) 0 ++ steps 2 4 ++ steps 3 15 ++ calls 4 .lock 7
    ++ calls 3 .unlock 3 ++ steps 4 3 ++ calls 5 .lock 7 ++ calls 6 .lock 7 ++ steps 4 7
    ++ steps 5 4 ++ steps 6 1

/-- Thread 0 acquires the ticket lock, and thread 4 waits behind it.  The `glk_unlock` of
    thread 1 serves the ticket of thread 4, and before thread 4 sees it, thread 6 changes
    the type, and thread 0 gives the ticket lock back and finds the mutex taken. -/
def skip : List (Fin 7 × Step (Fin 7)) :=
  steps 0 4 ++ steps 4 4 ++ calls 1 .unlock 3 ++ calls 0 (.background true) 0 ++ steps 6 4
    ++ steps 0 4

set_option maxRecDepth 2000 in
/-- **A waiter is skipped**: the failed call leaves thread 4 waiting for a ticket that is
    never served again, with nobody in the ticket lock. -/
theorem glkTrylock_skips : ¬ ∀ (cfg : Config)
    (c₀ c : Conf (Fin 7) (Shared (Fin 7)) (Local (Fin 7))) (t : Fin 7) (a : Step (Fin 7))
    (r : Shared (Fin 7) × Local (Fin 7)),
    Reach (step cfg) always Init c₀ → Calling cfg always c₀ t c →
    step cfg t c.sh (c.loc t) a = some r → ¬ trying r.2.pc →
    r.2.pc = .idle ∧ Failed (c.put t r) t (c₀.loc t).head ∨
      ∃ k, r.2.pc = .critical k ∧ Acquired (c.put t r) t (c₀.loc t).head k := by
  intro hclaim
  obtain ⟨c₀, r₀, c, r, hx₀, hcall, hx, hs, hidle, hwait, hserved⟩ : ∃ c₀ r₀ c r,
      exec (step ⟨1, 1⟩) always (start .ticket) stale = some c₀ ∧
      step ⟨1, 1⟩ 0 c₀.sh (c₀.loc 0) (.within (.glk .trylock)) = some r₀ ∧
      exec (step ⟨1, 1⟩) (fun c u a => always c u a ∧ stays ⟨1, 1⟩ 0 c u a) (c₀.put 0 r₀) skip
        = some c ∧
      step ⟨1, 1⟩ 0 c.sh (c.loc 0) (.within (.glk (.mutex .go))) = some r ∧ r.2.pc = .idle ∧
      ((ticketView (c.put 0 r)).loc 4).phase = .waiting ∧
      ∀ v, ((ticketView (c.put 0 r)).loc v).phase ≠ .holding ∧
        (ticketView (c.put 0 r)).loc v ≠ .wait (ticketView (c.put 0 r)).sh.head :=
    ⟨_, _, _, _, rfl, rfl, rfl, rfl, rfl, rfl, by decide +kernel⟩
  have hc : Calling ⟨1, 1⟩ always c₀ 0 c := calling_of_exec (.call hcall) hx
  have hret : ¬ trying r.2.pc := by
    rw [hidle]
    exact nofun
  have h₀ : Reach (step ⟨1, 1⟩) always Init c₀ := reach_of_exec (start_init .ticket) hx₀
  rcases hclaim ⟨1, 1⟩ c₀ c 0 _ r h₀ hc hs hret with ⟨-, hfailed⟩ | ⟨k, hcrit, -⟩
  · obtain ⟨v, -, hv⟩ := hfailed.handedOver .ticket 4 hwait
    exact hv.elim (hserved v).1 (hserved v).2
  · rw [hidle] at hcrit
    exact nomatch hcrit

end GlkTry
