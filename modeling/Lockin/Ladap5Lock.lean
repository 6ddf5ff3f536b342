import Lockin.Ladap5In

/-! # Version 5 as a lock

    `Ladap5In` is about a counter of `ladap5_in.h`; this is about its lock word.  The steps are
    those of that module, with a trylock besides; here a program locks only what it does not
    hold and unlocks only what it holds.

    An unlock that sees the lock taken again may break out of its loop, when too many threads
    have got the lock by spinning while others sleep, and then clears `contended` and wakes a
    thread although the lock is held.  No sleeper is forgotten by that (`ladap5Lock_safe`). -/

namespace Ladap5Lock

open Interleaving FutexMutex Ladap5In

variable {Tid : Type}

/-- A thread, and whether it has the lock between its calls. -/
structure Local where
  pc : Pc
  held : Bool

inductive Act (Tid : Type) where
  | step (a : Ladap5In.Act Tid)
  | trylock

/-- The program may make the call. -/
def Local.may (l : Local) : Ladap5In.Act Tid → Prop
  | .lock => l.held = false
  | .unlock => l.held = true
  | _ => True

instance (l : Local) : (a : Ladap5In.Act Tid) → Decidable (l.may a)
  | .lock => inferInstanceAs (Decidable (l.held = false))
  | .unlock => inferInstanceAs (Decidable (l.held = true))
  | .go | .spurious | .wake _ => isTrue trivial

variable [DecidableEq Tid]

/-- One step of a thread. -/
def prog (contentionMax : Nat) : Prog Tid (Shared Tid) Local (Act Tid) := fun t sh l a =>
  match a with
  | .step a =>
      if l.may a then
        -- `ladap_lock` returns from its label `locked`
        (Ladap5In.prog contentionMax t sh l.pc a).map fun r => (r.1, ⟨r.2, l.pc = .leave⟩)
      else none
  | .trylock =>
      if l.pc = .outside ∧ l.held = false then
        some ({ sh with word.locked := 1 }, { l with held := sh.word.locked = 0 })
      else none

/-- A zero-initialised lock, and nobody in a call. -/
structure Init (c : Conf Tid (Shared Tid) Local) : Prop where
  word : c.sh.word = ⟨0, 0⟩
  contention : c.sh.contention = 0
  nSpinAcq : c.sh.nSpinAcq = 0
  nFutex : c.sh.nFutex = 0
  asleep : c.sh.asleep = []
  loc : ∀ t, c.loc t = ⟨.outside, false⟩

/-- What a thread is about to do with the lock. -/
def role (held : Bool) : Pc → Role
  | .outside => if held then .holder else .out
  | .announce | .withdraw | .tryLocked | .tryXchg | .spinLocked _ | .spinXchg _ => .out
  | .loadSpinAcq | .storeSpinAcq _ | .leave => .holder
  | .sleepXchg => .redo
  | .loadFutex | .storeFutex _ | .futexWait => .out
  | .blocked => .blocked
  | .reannounce | .reloadFutex | .restoreFutex _ | .wakeXchg => .redo
  | .readWord | .cas | .clear => .holder
  | .recheck _ | .clearContended => .recheck
  | .readSpinAcq _ | .readFutex _ | .resetSpinAcq => .out
  | .wake => .waker

abbrev Local.role (l : Local) : Role := Ladap5Lock.role l.held l.pc

/-- The state as the protocol sees it. -/
def view (c : Conf Tid (Shared Tid) Local) : View Tid where
  word := c.sh.word
  asleep t := t ∈ c.sh.asleep
  parked _ := False
  role t := (c.loc t).role

/-! ## What a step can do -/

section

variable {contentionMax : Nat} {c : Conf Tid (Shared Tid) Local} {t : Tid}

/-- The view after a step of `t`. -/
theorem view_put_role (c : Conf Tid (Shared Tid) Local) (t : Tid) (r : Shared Tid × Local)
    (u : Tid) : (view (c.put t r)).role u = if u = t then r.2.role else (view c).role u := by
  simp only [view, put_loc]
  split <;> rfl

/-- What a step is to the protocol. -/
abbrev Follows (c : Conf Tid (Shared Tid) Local) (t : Tid) (r : Shared Tid × Local) : Prop :=
  Moves t (view c) (view (c.put t r)) (c.loc t).role r.2.role

/-- A step that touches neither the lock word nor the queue. -/
theorem quiet_follows {sh' : Shared Tid} {l' : Local} (hw : sh'.word = c.sh.word)
    (ha : sh'.asleep = c.sh.asleep)
    (hr : (c.loc t).role = .out ∧ (l'.role = .out ∨ l'.role = .redo) ∨
      ((c.loc t).role = .holder ∨ (c.loc t).role = .recheck) ∧ l'.role = (c.loc t).role) :
    Follows c t (sh', l') :=
  Or.inl (.quiet hw (by simp [view, ha]) rfl hr)

/-- A step on the way to the exchange of the word. -/
theorem linger_follows {sh' : Shared Tid} {l' : Local} (hw : sh'.word = c.sh.word)
    (ha : sh'.asleep = c.sh.asleep) (hr : (c.loc t).role = .redo) (hr' : l'.role = .redo) :
    Follows c t (sh', l') :=
  Or.inr (.linger hw (by simp [view, ha]) rfl hr hr')

/-- An exchange of the byte `locked`. -/
theorem xchg_follows (hw : c.sh.word.Flags) {pc pc' : Pc} {held : Bool}
    (hout : (c.loc t).role = .out) (hgot : role held pc = .holder)
    (hnot : role held pc' = .out ∨ role held pc' = .redo) :
    Follows c t ({ c.sh with word.locked := 1 },
      ⟨if c.sh.word.locked = 0 then pc else pc', held⟩) := by
  by_cases h0 : c.sh.word.locked = 0
  · rw [if_pos h0]
    exact Or.inl (.acquire h0 rfl (Or.inl ⟨hout, rfl⟩) rfl rfl hgot)
  · rw [if_neg h0]
    exact quiet_follows (hw.setLocked h0) rfl (Or.inl ⟨hout, hnot⟩)

/-- An exchange of the whole word. -/
theorem mark_follows (hw : c.sh.word.Flags) {pc pc' : Pc} {held : Bool}
    (hredo : (c.loc t).role = .redo) (hgot : role held pc = .holder)
    (hnot : role held pc' = .out ∨ role held pc' = .redo) :
    Follows c t ({ c.sh with word := ⟨1, 1⟩ },
      ⟨if c.sh.word.u &&& 1 ≠ 0 then pc' else pc, held⟩) := by
  by_cases h1 : c.sh.word.u &&& 1 ≠ 0
  · rw [if_pos h1]
    exact Or.inl (.mark (hw.u_and_one.mp h1) rfl rfl rfl (Or.inl hredo) hnot)
  · have h0 : c.sh.word.locked = 0 := hw.1.resolve_right fun h => h1 (hw.u_and_one.mpr h)
    rw [if_neg h1]
    exact Or.inl (.acquire h0 rfl (Or.inr ⟨Or.inl hredo, rfl⟩) rfl rfl hgot)

/-- The head of the spin loop leads on to a try or to an exchange of the word. -/
theorem role_spinFrom (held : Bool) (i : Nat) :
    role held (spinFrom i) = .out ∨ role held (spinFrom i) = .redo := by
  unfold spinFrom
  split
  · exact Or.inl rfl
  · exact Or.inr rfl

theorem role_recheckFrom (held : Bool) (i : Nat) : role held (recheckFrom i) = .recheck := by
  unfold recheckFrom
  split <;> rfl

/-- **Inversion**, of a step of `ladap_lock`. -/
theorem follows_of_lock (hw : c.sh.word.Flags) {a : Ladap5In.Act Tid} {r : Shared Tid × Pc}
    (hs : ladapLock contentionMax t c.sh (c.loc t).pc a = some r) :
    Follows c t (r.1, ⟨r.2, (c.loc t).pc = .leave⟩) := by
  have hrole : (c.loc t).role = role (c.loc t).held (c.loc t).pc := rfl
  obtain rfl | ⟨hl, rfl⟩ := ladapLock_act hs
  · cases hl : (c.loc t).pc with
    | announce =>
        rw [hl] at hs hrole
        obtain rfl := Option.some.inj hs
        refine quiet_follows rfl rfl (Or.inl ⟨hrole, Or.inl ?_⟩)
        dsimp only [Local.role]
        split <;> rfl
    | withdraw =>
        rw [hl] at hs hrole
        obtain rfl := Option.some.inj hs
        exact quiet_follows rfl rfl (Or.inl ⟨hrole, Or.inr rfl⟩)
    | tryLocked =>
        rw [hl] at hs hrole
        obtain rfl := Option.some.inj hs
        refine quiet_follows rfl rfl (Or.inl ⟨hrole, ?_⟩)
        dsimp only [Local.role]
        split
        · exact Or.inl rfl
        · exact role_spinFrom _ 1
    | spinLocked i =>
        rw [hl] at hs hrole
        obtain rfl := Option.some.inj hs
        refine quiet_follows rfl rfl (Or.inl ⟨hrole, ?_⟩)
        dsimp only [Local.role]
        split
        · exact Or.inl rfl
        · exact role_spinFrom _ (i + 1)
    | tryXchg =>
        rw [hl] at hs hrole
        obtain rfl := Option.some.inj hs
        exact xchg_follows hw hrole rfl (role_spinFrom _ 1)
    | spinXchg i =>
        rw [hl] at hs hrole
        obtain rfl := Option.some.inj hs
        exact xchg_follows hw hrole rfl (role_spinFrom _ (i + 1))
    | loadSpinAcq | storeSpinAcq _ | leave =>
        rw [hl] at hs hrole
        obtain rfl := Option.some.inj hs
        exact quiet_follows rfl rfl (Or.inr ⟨Or.inl hrole, hrole.symm⟩)
    | sleepXchg =>
        rw [hl] at hs hrole
        obtain rfl := Option.some.inj hs
        exact mark_follows hw hrole rfl (Or.inl rfl)
    | loadFutex | storeFutex _ =>
        rw [hl] at hs hrole
        obtain rfl := Option.some.inj hs
        exact quiet_follows rfl rfl (Or.inl ⟨hrole, Or.inl rfl⟩)
    | futexWait =>
        rw [hl] at hs hrole
        dsimp only [ladapLock] at hs
        split at hs <;> obtain rfl := Option.some.inj hs
        · next hu =>
          exact Or.inl (.sleep (hw.u_eq_257.mp hu) rfl (fun u => List.mem_cons) rfl hrole rfl)
        · exact quiet_follows rfl rfl (Or.inl ⟨hrole, Or.inr rfl⟩)
    | blocked =>
        rw [hl] at hs hrole
        obtain ⟨ht, hs⟩ := Option.ite_none_left_eq_some.mp hs
        obtain rfl := Option.some.inj hs
        refine Or.inl (.leave rfl (fun u => ?_) (fun _ _ => Iff.rfl) id (Or.inl hrole) rfl)
        exact ⟨fun h => ⟨h, by rintro rfl; exact ht h⟩, And.left⟩
    | reannounce | reloadFutex | restoreFutex _ =>
        rw [hl] at hs hrole
        obtain rfl := Option.some.inj hs
        exact linger_follows rfl rfl hrole rfl
    | wakeXchg =>
        rw [hl] at hs hrole
        obtain rfl := Option.some.inj hs
        exact mark_follows hw hrole rfl (role_spinFrom _ 1)
    | _ =>
        rw [hl] at hs
        cases hs
  · rw [hl] at hs hrole ⊢
    obtain ⟨-, hs⟩ := Option.ite_none_right_eq_some.mp hs
    obtain rfl := Option.some.inj hs
    exact Or.inl (.leave rfl (by simp [view]) (fun _ _ => Iff.rfl) id (Or.inl hrole) rfl)

/-- **Inversion**, of a step of `ladap_unlock`. -/
theorem follows_of_unlock (hw : c.sh.word.Flags) {a : Ladap5In.Act Tid} {r : Shared Tid × Pc}
    (hs : ladapUnlock c.sh (c.loc t).pc a = some r) : Follows c t (r.1, ⟨r.2, false⟩) := by
  have hrole : (c.loc t).role = role (c.loc t).held (c.loc t).pc := rfl
  obtain rfl | ⟨hl, u, rfl⟩ := ladapUnlock_act hs
  · cases hl : (c.loc t).pc with
    | readWord =>
        rw [hl] at hs hrole
        obtain rfl := Option.some.inj hs
        refine quiet_follows rfl rfl (Or.inr ⟨Or.inl hrole, ?_⟩)
        rw [hrole]
        dsimp only [Local.role]
        split <;> rfl
    | cas =>
        rw [hl] at hs hrole
        dsimp only [ladapUnlock] at hs
        split at hs <;> obtain rfl := Option.some.inj hs
        · next hu => exact Or.inl (.releaseFast (hw.u_eq_one.mp hu) rfl rfl rfl hrole rfl)
        · exact quiet_follows rfl rfl (Or.inr ⟨Or.inl hrole, hrole.symm⟩)
    | clear =>
        rw [hl] at hs hrole
        obtain rfl := Option.some.inj hs
        exact Or.inl (.release rfl rfl rfl hrole (role_recheckFrom _ 0))
    | recheck i =>
        rw [hl] at hs hrole
        obtain rfl := Option.some.inj hs
        by_cases h0 : c.sh.word.locked ≠ 0
        · rw [if_pos h0]
          exact Or.inl (.giveUp (hw.locked_eq h0) rfl rfl rfl hrole rfl)
        · rw [if_neg h0]
          refine quiet_follows rfl rfl (Or.inr ⟨Or.inr hrole, ?_⟩)
          exact (role_recheckFrom _ (i + 1)).trans hrole.symm
    | readSpinAcq _ | readFutex _ =>
        rw [hl] at hs hrole
        obtain rfl := Option.some.inj hs
        refine quiet_follows rfl rfl (Or.inl ⟨hrole, Or.inl ?_⟩)
        dsimp only [Local.role]
        split <;> rfl
    | resetSpinAcq =>
        -- whoever has taken the lock will see to the sleepers; the thread need not help
        rw [hl] at hs hrole
        obtain rfl := Option.some.inj hs
        exact Or.inr (.volunteer rfl rfl rfl hrole rfl)
    | clearContended =>
        rw [hl] at hs hrole
        obtain rfl := Option.some.inj hs
        exact Or.inl (.unmark rfl rfl rfl hrole rfl)
    | _ =>
        rw [hl] at hs
        cases hs
  · rw [hl] at hs hrole
    obtain ⟨q, hq, rfl⟩ := Option.map_eq_some_iff.mp hs
    exact Or.inl (.wake rfl (Mutexee.wokeOne_of_futexWake hq) rfl hrole rfl)

/-- A step calls one of the two functions, or is inside of it. -/
theorem step_cases {pc : Pc} {sh : Shared Tid} {a : Ladap5In.Act Tid} {r : Shared Tid × Pc}
    (hs : Ladap5In.prog contentionMax t sh pc a = some r) :
    (pc = .outside ∧ a = .lock ∧ r = (sh, .announce)) ∨
      (pc = .outside ∧ a = .unlock ∧ r = (sh, .readWord)) ∨
      ladapLock contentionMax t sh pc a = some r ∨
      pc ≠ .leave ∧ ladapUnlock sh pc a = some r := by
  have hbody (h : (ladapLock contentionMax t sh pc a).orElse (fun _ => ladapUnlock sh pc a)
      = some r) :
      ladapLock contentionMax t sh pc a = some r ∨ pc ≠ .leave ∧ ladapUnlock sh pc a = some r := by
    cases hlock : ladapLock contentionMax t sh pc a with
    | some r' =>
        rw [hlock] at h
        exact Or.inl h
    | none =>
        rw [hlock] at h
        refine Or.inr ⟨?_, h⟩
        rintro rfl
        cases a <;> cases h
  unfold Ladap5In.prog at hs
  split at hs
  · exact Or.inl ⟨rfl, rfl, (Option.some.inj hs).symm⟩
  · exact Or.inr (Or.inl ⟨rfl, rfl, (Option.some.inj hs).symm⟩)
  · exact Or.inr (Or.inr (hbody hs))

/-- **Inversion.** Every step is one of the protocol, or helps. -/
theorem follows_of_prog {a : Act Tid} {r : Shared Tid × Local} (hw : c.sh.word.Flags)
    (hs : prog contentionMax t c.sh (c.loc t) a = some r) : Follows c t r := by
  have hrole : (c.loc t).role = role (c.loc t).held (c.loc t).pc := rfl
  cases a with
  | step a =>
      obtain ⟨hmay, hstep⟩ := Option.ite_none_right_eq_some.mp hs
      obtain ⟨r, hprog, rfl⟩ := Option.map_eq_some_iff.mp hstep
      obtain ⟨hl, rfl, rfl⟩ | ⟨hl, rfl, rfl⟩ | hlock | ⟨hpc, hunlock⟩ := step_cases hprog
      · rw [hl, show (c.loc t).held = false from hmay] at hrole
        exact quiet_follows rfl rfl (Or.inl ⟨hrole, Or.inl rfl⟩)
      · rw [hl, show (c.loc t).held = true from hmay] at hrole
        exact quiet_follows rfl rfl (Or.inr ⟨Or.inl hrole, hrole.symm⟩)
      · exact follows_of_lock hw hlock
      · rw [decide_eq_false hpc]
        exact follows_of_unlock hw hunlock
  | trylock =>
      obtain ⟨⟨hl, hheld⟩, hs⟩ := Option.ite_none_right_eq_some.mp hs
      obtain rfl := Option.some.inj hs
      rw [hl, hheld] at hrole
      by_cases h0 : c.sh.word.locked = 0
      · rw [decide_eq_true h0]
        exact Or.inl (.acquire h0 rfl (Or.inl ⟨hrole, rfl⟩) rfl rfl (by rw [hl]; rfl))
      · rw [decide_eq_false h0]
        exact quiet_follows (hw.setLocked h0) rfl (Or.inl ⟨hrole, Or.inl (by rw [hl]; rfl)⟩)

/-! ## Every run -/

omit [DecidableEq Tid] in
/-- Before the first call. -/
theorem Init.inv (h : Init c) : Inv (view c) ∧ Owned (view c) := by
  refine ⟨?_, fun hne => absurd (congrArg Word.locked h.word) hne⟩
  constructor <;> simp [view, Local.role, role, Word.Flags, h.word, h.asleep, h.loc]

/-- **Run lemma.** -/
theorem inv_of_reach {ok : Conf Tid (Shared Tid) Local → Tid → Act Tid → Prop}
    (h : Reach (prog contentionMax) ok Init c) : Inv (view c) ∧ Owned (view c) :=
  h.invariant (I := fun c => Inv (view c) ∧ Owned (view c)) (fun _ h0 => h0.inv)
    fun c t _ r hc _ hs => (follows_of_prog hc.1.flags hs).inv hc (view_put_role c t r)

end

/-- The thread has acquired the lock and not released it. -/
def Holds (c : Conf Tid (Shared Tid) Local) (t : Tid) : Prop := (c.loc t).role = .holder

/-- The thread is awake and about to exchange the word. -/
def Redoes (c : Conf Tid (Shared Tid) Local) (t : Tid) : Prop :=
  t ∉ c.sh.asleep ∧ ((c.loc t).role = .redo ∨ (c.loc t).pc = .blocked)

/-- The thread has still to re-check `locked`, to clear `contended`, or to wake. -/
def HasToWake (c : Conf Tid (Shared Tid) Local) (t : Tid) : Prop :=
  (∃ i, (c.loc t).pc = .recheck i) ∨ (c.loc t).pc = .clearContended ∨ (c.loc t).pc = .wake

theorem eq_blocked {l : Local} (h : l.role = .blocked ∨ l.role = .parked) : l.pc = .blocked := by
  obtain ⟨pc, held⟩ := l
  cases pc with
  | outside => cases held <;> simp [Local.role, role] at h
  | _ => simp [Local.role, role] at h ⊢

omit [DecidableEq Tid] in
/-- A thread that retries is awake and about to exchange the word. -/
theorem redoes_of_retries {c : Conf Tid (Shared Tid) Local} {t : Tid} (h : Retries (view c) t) :
    Redoes c t := by
  obtain ⟨hrole, hasleep, -⟩ := h
  exact ⟨hasleep, hrole.imp_right eq_blocked⟩

omit [DecidableEq Tid] in
/-- A thread that is to wake another one is in its unlock. -/
theorem hasToWake_of_role {c : Conf Tid (Shared Tid) Local} {t : Tid}
    (h : (c.loc t).role = .waker ∨ (c.loc t).role = .recheck) : HasToWake c t := by
  unfold HasToWake
  generalize c.loc t = l at h ⊢
  obtain ⟨pc, held⟩ := l
  cases pc with
  | outside => cases held <;> simp [Local.role, role] at h
  | _ => simp [Local.role, role] at h ⊢

/-- **Mutual exclusion and no lost wake-up**, for any `LADAP_CONTENTION_MAX`, also when unlocks
    wake to be fair.  At most one thread holds the lock, and a locked word is held by somebody.
    While a thread is asleep the word is locked and contended, or a thread that is awake is
    about to exchange the word, to re-check it or to wake; when the lock is free, one of the
    latter. -/
theorem ladap5Lock_safe {contentionMax : Nat} {c : Conf Tid (Shared Tid) Local}
    (h : Reach (prog contentionMax) always Init c) :
    (∀ t u, Holds c t → Holds c u → t = u) ∧
    (c.sh.word.locked ≠ 0 → ∃ t, Holds c t) ∧
    (∀ t ∈ c.sh.asleep, c.sh.word = ⟨1, 1⟩ ∨ ∃ u, Redoes c u ∨ HasToWake c u) ∧
    ∀ t ∈ c.sh.asleep, c.sh.word.locked = 0 →
      ∃ u, u ∉ c.sh.asleep ∧ (Redoes c u ∨ HasToWake c u) := by
  obtain ⟨hinv, howned⟩ := inv_of_reach h
  have hwake : ∀ t ∈ c.sh.asleep,
      c.sh.word = ⟨1, 1⟩ ∨ ∃ u, Redoes c u ∨ HasToWake c u := by
    intro t ht
    obtain ⟨hl, hm⟩ | ⟨u, hu | hu⟩ := hinv.wakeable (t := t) ht
    · exact Or.inl (congrArg₂ Word.mk hl hm)
    · exact Or.inr ⟨u, Or.inl (redoes_of_retries hu)⟩
    · exact Or.inr ⟨u, Or.inr (hasToWake_of_role hu)⟩
  refine ⟨hinv.unique, howned, hwake, fun t ht h0 => ?_⟩
  obtain hw | ⟨u, hu⟩ := hwake t ht
  · rw [hw] at h0
    cases h0
  · refine ⟨u, fun hasleep => ?_, hu⟩
    obtain ⟨hawake, -⟩ | hwaker := hu
    · exact hawake hasleep
    · -- a sleeper is in its futex call
      have hsleeper : (c.loc u).pc = .blocked := eq_blocked (hinv.sleeper u hasleep)
      obtain ⟨i, hl⟩ | hl | hl := hwaker <;> exact nomatch hl.symm.trans hsleeper

/-- Everything free. -/
def start : Conf (Fin 2) (Shared (Fin 2)) Local :=
  ⟨⟨⟨0, 0⟩, 0, 0, 0, []⟩, fun _ => ⟨.outside, false⟩⟩

theorem start_init : Init start := ⟨rfl, rfl, rfl, rfl, rfl, fun _ => rfl⟩

/-- Thread 0 has taken the lock and is still counted when thread 1 comes, which is sent to
    sleep; then thread 0 leaves and unlocks. -/
def sentToSleep : List (Fin 2 × Act (Fin 2)) :=
  (0, .step .lock) :: List.replicate 5 (0, .step .go)
    ++ (1, .step .lock) :: List.replicate 6 (1, .step .go)
    ++ [(0, .step .go), (0, .step .unlock), (0, .step .go), (0, .step .go)]

/-- The lock is free, a thread is asleep, and the unlocker looks whether somebody takes it. -/
theorem ladap5Lock_safe_sentToSleep : ∃ c : Conf (Fin 2) (Shared (Fin 2)) Local,
    exec (prog 0) always start sentToSleep = some c ∧ 1 ∈ c.sh.asleep ∧
      c.sh.word.locked = 0 ∧ HasToWake c 0 ∧
      ∃ u, u ∉ c.sh.asleep ∧ (Redoes c u ∨ HasToWake c u) := by
  obtain ⟨c, hx, hasleep, hfree, hwaker⟩ : ∃ c : Conf (Fin 2) (Shared (Fin 2)) Local,
      exec (prog 0) always start sentToSleep = some c ∧ 1 ∈ c.sh.asleep ∧
        c.sh.word.locked = 0 ∧ (c.loc 0).pc = .recheck 0 := ⟨_, rfl, by decide, rfl, rfl⟩
  have hreach : Reach (prog 0) always Init c := reach_of_exec start_init hx
  exact ⟨c, hx, hasleep, hfree, Or.inl ⟨0, hwaker⟩,
    (ladap5Lock_safe hreach).2.2.2 1 hasleep hfree⟩

end Ladap5Lock
