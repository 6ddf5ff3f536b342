import Lockin.GlsLocks

/-! # Waiting with a deadline

    `glk_cond_timedwait`, `gls_cond_timedwait` and `mutexee_cond_timedwait`: the same code
    over three locks.  The locks are those of `GlsLocks`, so a wait releases and takes its
    lock step by step, together with any other threads; only how it takes the lock again
    differs (`Waitable`).

    The condition variable `c` is used by threads with the lock `m` and, as it may happen by
    mistake, with other locks, which also try to store themselves in `c->l`.  The clock
    returns any time, whatever it returned before, and the futex call returns when it likes.

    What a call has done is recorded in `Call`, which is history.  Seconds are integers. -/

namespace CondTimedwait

open Interleaving GlsLocks

/-! ## Times -/

/-- `struct timespec`. -/
structure TimeSpec where
  sec : Int
  nsec : Int
  deriving DecidableEq

/-- `struct timeval`. -/
structure TimeVal where
  sec : Int
  usec : Int
  deriving DecidableEq

/-- A timespec is normalised. -/
def TimeSpec.Valid (ts : TimeSpec) : Prop := 0 ≤ ts.nsec ∧ ts.nsec < 1000000000

def TimeVal.Valid (tv : TimeVal) : Prop := 0 ≤ tv.usec ∧ tv.usec < 1000000

instance (ts : TimeSpec) : Decidable ts.Valid := inferInstanceAs (Decidable (_ ∧ _))
instance (tv : TimeVal) : Decidable tv.Valid := inferInstanceAs (Decidable (_ ∧ _))

/-- The time in nanoseconds. -/
def TimeSpec.ns (ts : TimeSpec) : Int := ts.sec * 1000000000 + ts.nsec

def TimeVal.ns (tv : TimeVal) : Int := tv.sec * 1000000000 + tv.usec * 1000

/-- The conversion of the deadline `ts` to a timeout, at the time `tv`. -/
def relative (ts : TimeSpec) (tv : TimeVal) : TimeSpec :=
  let rt : TimeSpec := ⟨ts.sec - tv.sec, ts.nsec - tv.usec * 1000⟩
  if rt.nsec < 0 then ⟨rt.sec - 1, rt.nsec + 1000000000⟩ else rt

section

variable {ts : TimeSpec} {tv : TimeVal}

/-- The timeout is the distance to the deadline. -/
theorem relative_ns (ts : TimeSpec) (tv : TimeVal) : (relative ts tv).ns = ts.ns - tv.ns := by
  unfold relative TimeSpec.ns TimeVal.ns
  dsimp only
  split <;> dsimp only <;> ring

/-- One borrow is enough. -/
theorem relative_valid (hts : ts.Valid) (htv : tv.Valid) : (relative ts tv).Valid := by
  unfold TimeSpec.Valid TimeVal.Valid at *
  unfold relative
  dsimp only
  split <;> dsimp only <;> omega

/-- The sign of the timeout is that of its seconds. -/
theorem relative_sec_neg (hts : ts.Valid) (htv : tv.Valid) :
    (relative ts tv).sec < 0 ↔ ts.ns < tv.ns := by
  have hns := relative_ns ts tv
  have hvalid := relative_valid hts htv
  unfold TimeSpec.Valid at hvalid
  have hdef : (relative ts tv).ns
      = (relative ts tv).sec * 1000000000 + (relative ts tv).nsec := rfl
  omega

end

/-! ## The locks -/

variable {Tid : Type} [DecidableEq Tid]

/-- A lock that a condition variable may be used with: the wait releases it with its unlock
    function and begins to take it again with `relock`. -/
structure Waitable (M : LockModel Tid) where
  relock : Tid → M.Sh → M.Lc → Option (M.Sh × M.Lc)
  relock_step : ∀ t sh l r, relock t sh l = some r →
    M.place l = .idle ∧ M.place r.2 = .inside .lock

/-- `glk_lock` or `gls_lock`. -/
def byLock (M : LockModel Tid) : Waitable M where
  relock t sh l := M.prog t sh l (M.start .lock)
  relock_step t sh l r h := M.start_step .lock t sh l r h

/-- `mutexee_lock_t`. -/
def mutexee (fair : Bool) : LockModel Tid where
  Sh := Mutexee.Shared Tid
  Lc := Mutexee.Pc
  Act := Mutexee.Act Tid
  prog := Mutexee.prog (Mutexee.mutexee fair)
  ok := always
  created sh := sh = ⟨⟨0, 0⟩, [], false, 0, [], 0⟩
  unused pc := pc = .idle
  start := mutexStart
  starts := mutexStarts
  place := mutexPlace
  taken := mutexTaken
  busy := EBUSY
  full _ := false
  unused_idle := mutex_unused_idle
  ok_start _ _ _ _ := trivial
  start_step := mutex_start_step (Mutexee.mutexee fair)
  step := mutex_step (Mutexee.mutexee fair)
  exclusive := by
    intro c hc t u ht hu
    have hinv := Mutexee.inv_of_reach (hc.mono_init fun _ h => mutex_init h.1 h.2)
    exact hinv.unique t u (holder_of_critical ht) (holder_of_critical hu)

/-- `while (xchg_32(&m->l.b.locked, 257) & 1)`, the loop of `mutexee_lock` without its
    spinning. -/
def byExchange (fair : Bool) : Waitable (@mutexee Tid _ fair) where
  relock _ sh pc :=
    match (pc : Mutexee.Pc) with
    | .idle => some (sh, .xchg32 .plain true)
    | _ => none
  relock_step t sh pc r h := by
    cases (pc : Mutexee.Pc) with
    | idle =>
        obtain rfl := Option.some.inj h
        exact ⟨rfl, rfl⟩
    | _ => cases h

/-! ## The wait -/

inductive Ret where
  | zero
  | einval
  | etimedout
  deriving DecidableEq

/-- What a call has done. -/
structure Call (Lk : Type) where
  ts : TimeSpec
  /-- `c->l` when the call began. -/
  l₀ : Option Lk
  /-- The call has stored its lock in `c->l`. -/
  associated : Bool
  /-- It has called the unlock function. -/
  released : Bool
  /-- What the clock returned. -/
  readings : List TimeVal
  /-- The timeout of its futex call. -/
  timeout : Option TimeSpec

/-- Where a thread is: in a wait, or `out`, where it uses the lock. -/
inductive Pc where
  | out
  /-- `head = c->head`. -/
  | readHead
  /-- `c->l != m`. -/
  | readL (head : BitVec 32)
  /-- `if (c->l) return EINVAL`. -/
  | checkL (head : BitVec 32)
  /-- The CAS of `c->l`. -/
  | casL (head : BitVec 32)
  /-- `if (c->l != m) return EINVAL`. -/
  | readL' (head : BitVec 32)
  | unlock (head : BitVec 32)
  | unlocking (head : BitVec 32)
  /-- The first `gettimeofday`. -/
  | clock (head : BitVec 32)
  | futexWait (head : BitVec 32) (rt : TimeSpec)
  | blocked
  /-- The second `gettimeofday`. -/
  | clock'
  /-- The label `timeout`. -/
  | relock (ret : Ret)
  | relocking (ret : Ret)
  | returned (ret : Ret)
  deriving DecidableEq

/-- The condition variable and its lock. -/
structure Shared (M : LockModel Tid) (Lk : Type) where
  head : BitVec 32
  l : Option Lk
  lock : M.Sh

structure Local (M : LockModel Tid) (Lk : Type) where
  lock : M.Lc
  pc : Pc
  call : Call Lk

/-- What a thread may do, and the answers of the clock. -/
inductive Act (M : LockModel Tid) (Lk : Type) where
  | timedwait (ts : TimeSpec)
  | go
  | time (tv : TimeVal)
  /-- A step of the lock. -/
  | lock (a : M.Act)
  /-- A signal or broadcast increments `c->head`. -/
  | signal
  /-- A wait with another lock stores it in `c->l` if it is `NULL`. -/
  | other (lk : Lk)

section

variable {M : LockModel Tid} (W : Waitable M) {Lk : Type} [DecidableEq Lk] (m : Lk)

/-- The call of `timedwait`. -/
def Call.begin (ts : TimeSpec) (l : Option Lk) : Call Lk := ⟨ts, l, false, false, [], none⟩

/-- The call up to the release of the lock. -/
def associate (sh : Shared M Lk) (l : Local M Lk) : Option (Shared M Lk × Local M Lk) :=
  match l.pc with
  | .readHead => some (sh, { l with pc := .readL sh.head })
  | .readL head =>
      some (sh, { l with pc := if sh.l ≠ some m then .checkL head else .unlock head })
  | .checkL head =>
      some (sh, { l with pc := if sh.l ≠ none then .returned .einval else .casL head })
  | .casL head =>
      if sh.l = none then
        some ({ sh with l := some m },
          { l with pc := .readL' head, call.associated := true })
      else some (sh, { l with pc := .readL' head })
  | .readL' head =>
      some (sh, { l with pc := if sh.l ≠ some m then .returned .einval else .unlock head })
  | _ => none

/-- The wait itself. -/
def sleep (sh : Shared M Lk) (l : Local M Lk) : Option (Shared M Lk × Local M Lk) :=
  match l.pc with
  | .futexWait head rt =>
      some (sh, { l with
        pc := if sh.head = head then .blocked else .clock'
        call.timeout := some rt })
  -- woken, timed out, or for no reason
  | .blocked => some (sh, { l with pc := .clock' })
  | _ => none

/-- The clock returns `tv`. -/
def gettimeofday (tv : TimeVal) (sh : Shared M Lk) (l : Local M Lk) :
    Option (Shared M Lk × Local M Lk) :=
  let rt := relative l.call.ts tv
  match l.pc with
  | .clock head =>
      some (sh, { l with
        pc := if rt.sec < 0 then .relock .etimedout else .futexWait head rt
        call.readings := l.call.readings ++ [tv] })
  | .clock' =>
      some (sh, { l with
        pc := .relock (if rt.sec < 0 then .etimedout else .zero)
        call.readings := l.call.readings ++ [tv] })
  | _ => none

/-- A step of the lock: for the user, or in the unlock or lock function of a wait. -/
def lockStep (t : Tid) (a : M.Act) (sh : Shared M Lk) (l : Local M Lk) :
    Option (Shared M Lk × Local M Lk) :=
  match l.pc with
  | .out =>
      (M.prog t sh.lock l.lock a).map fun r => ({ sh with lock := r.1 }, { l with lock := r.2 })
  | .unlocking head =>
      if M.starts a then none
      else (M.prog t sh.lock l.lock a).map fun r => ({ sh with lock := r.1 },
        { l with lock := r.2, pc := if M.place r.2 = .idle then .clock head else .unlocking head })
  | .relocking ret =>
      if M.starts a then none
      else (M.prog t sh.lock l.lock a).map fun r => ({ sh with lock := r.1 },
        { l with
          lock := r.2
          pc := if M.place r.2 = .critical then .returned ret else .relocking ret })
  | _ => none

/-- A step of the wait. -/
def go (t : Tid) (sh : Shared M Lk) (l : Local M Lk) : Option (Shared M Lk × Local M Lk) :=
  match l.pc with
  | .out => none
  | .unlock head =>
      (M.prog t sh.lock l.lock (M.start .unlock)).map fun r => ({ sh with lock := r.1 },
        { l with lock := r.2, pc := .unlocking head, call.released := true })
  | .relock ret =>
      (W.relock t sh.lock l.lock).map fun r => ({ sh with lock := r.1 },
        { l with lock := r.2, pc := .relocking ret })
  | .returned _ => some (sh, { l with pc := .out })
  | .futexWait _ _ | .blocked => sleep sh l
  | _ => associate m sh l

/-- One step of a thread. -/
def prog : Prog Tid (Shared M Lk) (Local M Lk) (Act M Lk) := fun t sh l a =>
  match a with
  | .timedwait ts =>
      if l.pc = .out ∧ M.place l.lock = .critical ∧ ts.Valid then
        some (sh, { l with pc := .readHead, call := Call.begin ts sh.l })
      else none
  | .go => go W m t sh l
  | .time tv => if tv.Valid then gettimeofday tv sh l else none
  | .lock a => lockStep t a sh l
  | .signal => if l.pc = .out then some ({ sh with head := sh.head + 1 }, l) else none
  | .other lk =>
      if l.pc = .out ∧ sh.l = none then some ({ sh with l := some lk }, l) else none

end

/-- Nobody waits. -/
def Init {M : LockModel Tid} {Lk : Type} (c : Conf Tid (Shared M Lk) (Local M Lk)) : Prop :=
  ∀ t, (c.loc t).pc = .out

/-! ## What a wait does -/

section

variable {M : LockModel Tid} {W : Waitable M} {Lk : Type} [DecidableEq Lk] {m : Lk}

/-- The call has not released the lock: it holds it, and `c->l` is as it was, or what the
    call or another one has stored there when it was `NULL`. -/
structure Before (m : Lk) (l : Option Lk) (lk : M.Lc) (k : Call Lk) : Prop where
  holds : M.place lk = .critical
  kept : k.released = false
  unread : k.readings = []
  awake : k.timeout = none
  since : k.l₀ = none ∨ k.l₀ = l
  associated : k.associated = true → l = some m
  valid : k.ts.Valid

/-- The call has not looked at the clock. -/
structure Unread (k : Call Lk) : Prop where
  unread : k.readings = []
  awake : k.timeout = none
  valid : k.ts.Valid

/-- The first reading `tv` is not later than the deadline. -/
structure Early (k : Call Lk) (tv : TimeVal) : Prop where
  readings : k.readings = [tv]
  early : ¬ k.ts.ns < tv.ns
  valid : k.ts.Valid
  reading : tv.Valid

/-- What the call has read and slept when it goes to return `ret`. -/
inductive Timed (k : Call Lk) (ret : Ret) : Prop where
  | late (tv : TimeVal) : k.readings = [tv] → k.ts.ns < tv.ns → k.timeout = none →
      ret = .etimedout → Timed k ret
  | slept (tv tv' : TimeVal) : k.readings = [tv, tv'] → ¬ k.ts.ns < tv.ns →
      k.timeout = some (relative k.ts tv) → k.ts.Valid → tv.Valid →
      ret = (if k.ts.ns < tv'.ns then .etimedout else .zero) → Timed k ret

/-- The invariant of a thread. -/
def Sound (m : Lk) (l : Option Lk) (x : Local M Lk) : Prop :=
  match x.pc with
  | .out => True
  | .readHead | .readL _ | .checkL _ | .casL _ =>
      Before m l x.lock x.call ∧ x.call.associated = false
  | .readL' _ => Before m l x.lock x.call ∧ l ≠ none
  | .unlock _ => Before m l x.lock x.call
  | .unlocking _ | .clock _ => Unread x.call
  | .futexWait _ rt =>
      ∃ tv, Early x.call tv ∧ x.call.timeout = none ∧ rt = relative x.call.ts tv
  | .blocked | .clock' =>
      ∃ tv, Early x.call tv ∧ x.call.timeout = some (relative x.call.ts tv)
  | .relock ret | .relocking ret => Timed x.call ret
  | .returned ret =>
      if ret = .einval then Before m l x.lock x.call ∧ x.call.associated = false ∧ l ≠ none
      else Timed x.call ret ∧ M.place x.lock = .critical

/-- A lock that is stored in `c->l` stays there. -/
def Keeps (l l' : Option Lk) : Prop := l ≠ none → l' = l

omit [DecidableEq Lk] in
/-- A lock that is associated stays so. -/
theorem Before.keeps {l l' : Option Lk} {lk : M.Lc} {k : Call Lk} (h : Before m l lk k)
    (hl : Keeps l l') : Before m l' lk k := by
  refine ⟨h.holds, h.kept, h.unread, h.awake, ?_, fun ha => ?_, h.valid⟩
  · rcases h.since with h0 | h0
    · exact Or.inl h0
    · by_cases hnone : l = none
      · exact Or.inl (h0.trans hnone)
      · exact Or.inr (h0.trans (hl hnone).symm)
  · have hm := h.associated ha
    rw [hl (by rw [hm]; exact nofun), hm]

omit [DecidableEq Lk] in
/-- Before the wait no time has been read. -/
theorem Before.unread_call {l : Option Lk} {lk : M.Lc} {k : Call Lk} (h : Before m l lk k) :
    Unread k := ⟨h.unread, h.awake, h.valid⟩

omit [DecidableEq Lk] in
theorem Keeps.ne_none {l l' : Option Lk} (h : Keeps l l') (hl : l ≠ none) : l' ≠ none := by
  rw [h hl]
  exact hl

omit [DecidableEq Lk] in
/-- The steps of the other threads. -/
theorem Sound.keeps {l l' : Option Lk} {x : Local M Lk} (h : Sound m l x) (hl : Keeps l l') :
    Sound m l' x := by
  obtain ⟨lk, pc, k⟩ := x
  cases pc with
  | readHead | readL | checkL | casL => exact ⟨h.1.keeps hl, h.2⟩
  | readL' => exact ⟨h.1.keeps hl, hl.ne_none h.2⟩
  | unlock => exact Before.keeps h hl
  | returned ret =>
      cases ret with
      | einval => exact ⟨h.1.keeps hl, h.2.1, hl.ne_none h.2.2⟩
      | zero | etimedout => exact h
  | _ => exact h

/-- What a step does to a thread and to `c->l`. -/
structure Step (m : Lk) (l : Option Lk) (r : Shared M Lk × Local M Lk) : Prop where
  keeps : Keeps l r.1.l
  sound : Sound m r.1.l r.2

omit [DecidableEq Lk] in
/-- A step that does not touch `c->l`. -/
theorem Step.still {sh sh' : Shared M Lk} {x : Local M Lk} (hl : sh'.l = sh.l)
    (h : Sound m sh.l x) : Step m sh.l (sh', x) :=
  ⟨fun _ => hl, by rw [hl]; exact h⟩

section

variable {t : Tid} {sh : Shared M Lk} {x : Local M Lk} {r : Shared M Lk × Local M Lk}

/-- The lock is associated with the condition variable. -/
theorem associate_step (h : Sound m sh.l x) (hs : associate m sh x = some r) :
    Step m sh.l r := by
  obtain ⟨lk, pc, k⟩ := x
  cases pc with
  | readHead =>
      obtain rfl := Option.some.inj hs
      exact .still rfl h
  | readL head =>
      obtain rfl := Option.some.inj hs
      refine .still rfl ?_
      dsimp only
      split
      · exact h
      · exact h.1
  | checkL head =>
      obtain rfl := Option.some.inj hs
      refine .still rfl ?_
      dsimp only
      split <;> rename_i hl
      · exact ⟨h.1, h.2, hl⟩
      · exact h
  | casL head =>
      dsimp only [associate] at hs
      split at hs <;> rename_i hl <;> obtain rfl := Option.some.inj hs
      · refine ⟨fun hne => absurd hl hne, ?_, nofun⟩
        obtain ⟨h, -⟩ := h
        refine ⟨h.holds, h.kept, h.unread, h.awake, Or.inl ?_, fun _ => rfl, h.valid⟩
        rcases h.since with h0 | h0
        · exact h0
        · exact h0.trans hl
      · exact .still rfl ⟨h.1, hl⟩
  | readL' head =>
      obtain rfl := Option.some.inj hs
      refine .still rfl ?_
      dsimp only
      split <;> rename_i hl
      · refine ⟨h.1, ?_, h.2⟩
        by_contra ha
        exact hl (h.1.associated (Bool.eq_true_of_not_eq_false ha))
      · exact h.1
  | _ => exact nomatch hs

omit [DecidableEq Lk] in
/-- The thread is woken, or times out. -/
theorem sleep_step (h : Sound m sh.l x) (hs : sleep sh x = some r) : Step m sh.l r := by
  obtain ⟨lk, pc, k⟩ := x
  cases pc with
  | futexWait head rt =>
      obtain rfl := Option.some.inj hs
      obtain ⟨tv, hearly, -, hrt⟩ := h
      obtain rfl : rt = relative k.ts tv := hrt
      have hslept : ∃ tv', Early { k with timeout := some (relative k.ts tv) } tv' ∧
          some (relative k.ts tv) = some (relative k.ts tv') :=
        ⟨tv, ⟨hearly.readings, hearly.early, hearly.valid, hearly.reading⟩, rfl⟩
      refine .still rfl ?_
      dsimp only
      split <;> exact hslept
  | blocked =>
      obtain rfl := Option.some.inj hs
      exact .still rfl h
  | _ => exact nomatch hs

omit [DecidableEq Lk] in
/-- A reading of the clock. -/
theorem gettimeofday_step {tv : TimeVal} (htv : tv.Valid) (h : Sound m sh.l x)
    (hs : gettimeofday tv sh x = some r) : Step m sh.l r := by
  obtain ⟨lk, pc, k⟩ := x
  cases pc with
  | clock head =>
      obtain rfl := Option.some.inj hs
      obtain ⟨hunread, hawake, hvalid⟩ : Unread k := h
      have hread : k.readings ++ [tv] = [tv] := by rw [hunread, List.nil_append]
      have hneg := relative_sec_neg hvalid htv
      refine .still rfl ?_
      dsimp only
      split <;> rename_i hlate
      · exact .late tv hread (hneg.mp hlate) hawake rfl
      · exact ⟨tv, ⟨hread, fun hlt => hlate (hneg.mpr hlt), hvalid, htv⟩, hawake, rfl⟩
  | clock' =>
      obtain rfl := Option.some.inj hs
      obtain ⟨tv₀, hearly, htimeout⟩ := h
      have hread : k.readings ++ [tv] = [tv₀, tv] := by
        rw [show k.readings = [tv₀] from hearly.readings]
        rfl
      refine .still rfl (.slept tv₀ tv hread hearly.early htimeout hearly.valid hearly.reading ?_)
      exact if_congr (relative_sec_neg hearly.valid htv) rfl rfl
  | _ => exact nomatch hs

omit [DecidableEq Lk] in
/-- A step of the mutex. -/
theorem lockStep_step {a : M.Act} (h : Sound m sh.l x) (hs : lockStep t a sh x = some r) :
    Step m sh.l r := by
  obtain ⟨lk, pc, k⟩ := x
  cases pc with
  | out =>
      obtain ⟨q, -, rfl⟩ := Option.map_eq_some_iff.mp hs
      exact .still rfl trivial
  | unlocking head =>
      obtain ⟨-, hs⟩ := Option.ite_none_left_eq_some.mp hs
      obtain ⟨q, -, rfl⟩ := Option.map_eq_some_iff.mp hs
      refine .still rfl ?_
      dsimp only
      split <;> exact h
  | relocking ret =>
      obtain ⟨-, hs⟩ := Option.ite_none_left_eq_some.mp hs
      obtain ⟨q, -, rfl⟩ := Option.map_eq_some_iff.mp hs
      refine .still rfl ?_
      have htimed : Timed k ret := h
      dsimp only
      split <;> rename_i hcrit
      · have hne : ret ≠ .einval := by
          cases htimed with
          | late _ _ _ _ hret =>
              rw [hret]
              exact nofun
          | slept tv tv' _ _ _ _ _ hret =>
              rw [hret]
              split <;> exact nofun
        show if ret = .einval then _ else _
        rw [if_neg hne]
        exact ⟨htimed, hcrit⟩
      · exact htimed
  | _ => exact nomatch hs

/-- **Every step of a call.** -/
theorem go_step (h : Sound m sh.l x) (hs : go W m t sh x = some r) : Step m sh.l r := by
  obtain ⟨lk, pc, k⟩ := x
  cases pc with
  | out => exact nomatch hs
  | unlock head =>
      obtain ⟨q, -, rfl⟩ := Option.map_eq_some_iff.mp hs
      obtain ⟨hunread, hawake, hvalid⟩ := Before.unread_call h
      exact .still rfl ⟨hunread, hawake, hvalid⟩
  | relock ret =>
      obtain ⟨q, -, rfl⟩ := Option.map_eq_some_iff.mp hs
      exact .still rfl h
  | returned ret =>
      obtain rfl := Option.some.inj hs
      exact .still rfl trivial
  | futexWait | blocked => exact sleep_step h hs
  | _ => exact associate_step h hs

/-- **Step lemma.** -/
theorem prog_step {a : Act M Lk} (h : Sound m sh.l x) (hs : prog W m t sh x a = some r) :
    Step m sh.l r := by
  cases a with
  | timedwait ts =>
      obtain ⟨⟨-, hholds, hvalid⟩, hr⟩ := Option.ite_none_right_eq_some.mp hs
      obtain rfl := Option.some.inj hr
      refine .still rfl ⟨⟨hholds, rfl, rfl, rfl, Or.inr rfl, ?_, hvalid⟩, rfl⟩
      exact nofun
  | go => exact go_step h hs
  | time tv =>
      obtain ⟨htv, hr⟩ := Option.ite_none_right_eq_some.mp hs
      exact gettimeofday_step htv h hr
  | lock a => exact lockStep_step h hs
  | signal =>
      obtain ⟨-, hr⟩ := Option.ite_none_right_eq_some.mp hs
      obtain rfl := Option.some.inj hr
      exact .still rfl h
  | other lk =>
      obtain ⟨⟨hout, hl⟩, hr⟩ := Option.ite_none_right_eq_some.mp hs
      obtain rfl := Option.some.inj hr
      refine ⟨fun hne => absurd hl hne, ?_⟩
      unfold Sound
      rw [hout]
      trivial

end

/-- **Run lemma.** -/
theorem sound_of_reach {ok : Conf Tid (Shared M Lk) (Local M Lk) → Tid → Act M Lk → Prop}
    {c : Conf Tid (Shared M Lk) (Local M Lk)} (hc : Reach (prog W m) ok Init c) (t : Tid) :
    Sound m c.sh.l (c.loc t) := by
  refine hc.invariant (I := fun c => ∀ t, Sound m c.sh.l (c.loc t)) (fun c h t => ?_)
    (fun c t a r h _ hs u => ?_) t
  · unfold Sound
    rw [h t]
    trivial
  · have hstep := prog_step (h t) hs
    rw [put_loc, put_sh]
    split
    · exact hstep.sound
    · exact (h u).keeps hstep.keeps

/-! ## What a wait returns -/

/-- What the claim of a wait is: with `EINVAL` it has kept the lock and left `c->l` alone,
    which names a lock; otherwise it holds the lock again, and what it returns is decided by
    its last reading of the clock. -/
structure Outcome (l : Option Lk) (x : Local M Lk) (ret : Ret) : Prop where
  holds : M.place x.lock = .critical
  einval : ret = .einval → x.call.released = false ∧ x.call.associated = false ∧ l ≠ none ∧
    (x.call.l₀ = none ∨ x.call.l₀ = l)
  timed : ret ≠ .einval → ∃ first last, x.call.readings.head? = some first ∧
    x.call.readings.getLast? = some last ∧
    (ret = .etimedout ↔ x.call.ts.ns < last.ns) ∧
    (x.call.ts.ns < first.ns → x.call.timeout = none) ∧
    ∀ rt, x.call.timeout = some rt →
      0 ≤ rt.sec ∧ rt.Valid ∧ rt.ns = x.call.ts.ns - first.ns

omit [DecidableEq Lk] in
/-- The result of a call that has read the clock. -/
theorem Timed.outcome {k : Call Lk} {ret : Ret} (h : Timed k ret) :
    ∃ first last, k.readings.head? = some first ∧ k.readings.getLast? = some last ∧
      (ret = .etimedout ↔ k.ts.ns < last.ns) ∧
      (k.ts.ns < first.ns → k.timeout = none) ∧
      ∀ rt, k.timeout = some rt → 0 ≤ rt.sec ∧ rt.Valid ∧ rt.ns = k.ts.ns - first.ns := by
  cases h with
  | late tv hread hlate hawake hret =>
      refine ⟨tv, tv, by rw [hread]; rfl, by rw [hread]; rfl, iff_of_true hret hlate,
        fun _ => hawake, fun rt hrt => ?_⟩
      rw [hawake] at hrt
      exact nomatch hrt
  | slept tv tv' hread hearly htimeout hvalid htv hret =>
      refine ⟨tv, tv', by rw [hread]; rfl, by rw [hread]; rfl, ?_,
        fun hlate => absurd hlate hearly, fun rt hrt => ?_⟩
      · rw [hret]
        split <;> rename_i hlate
        · exact iff_of_true rfl hlate
        · exact iff_of_false nofun hlate
      · rw [htimeout] at hrt
        obtain rfl := Option.some.inj hrt
        refine ⟨?_, relative_valid hvalid htv, relative_ns _ _⟩
        have hneg := relative_sec_neg hvalid htv
        by_contra hlt
        exact hearly (hneg.mp (not_le.mp hlt))

end

/-- The three functions. -/
inductive Timedwait where
  | glk (cfg : Glk.Config)
  | gls (cfg : Glk.Config)
  | mutexee (fair : Bool)

/-- The lock of a condition variable. -/
def Timedwait.lock : Timedwait → LockModel Tid
  | .glk cfg => GlsLocks.glk cfg
  | .gls cfg => GlsLocks.lock cfg .glk
  | .mutexee fair => CondTimedwait.mutexee fair

/-- How a wait takes it again. -/
def Timedwait.waitable : (f : Timedwait) → Waitable (@Timedwait.lock Tid _ f)
  | .glk _ => byLock _
  | .gls _ => byLock _
  | .mutexee fair => byExchange fair

/-- **Waiting with a deadline**, for each of the three functions, any threads and locks, all
    deadlines and all answers of the clock: whenever a call has returned, its outcome is as
    its first and last readings of the clock say. -/
theorem condTimedwait_outcome (f : Timedwait) {Lk : Type} [DecidableEq Lk] (m : Lk)
    {c : Conf Tid (Shared f.lock Lk) (Local f.lock Lk)}
    (hc : Reach (prog f.waitable m) always Init c) {t : Tid} {ret : Ret}
    (hret : (c.loc t).pc = .returned ret) : Outcome c.sh.l (c.loc t) ret := by
  have hsound := sound_of_reach hc t
  unfold Sound at hsound
  rw [hret] at hsound
  dsimp only at hsound
  split at hsound <;> rename_i he
  · obtain ⟨hbefore, hassoc, hl⟩ := hsound
    exact ⟨hbefore.holds, fun _ => ⟨hbefore.kept, hassoc, hl, hbefore.since⟩,
      fun hne => absurd he hne⟩
  · exact ⟨hsound.2, fun h => absurd h he, fun _ => hsound.1.outcome⟩

/-- A mutex and a condition variable that nobody has used. -/
def start : Conf (Fin 2) (Shared (@mutexee (Fin 2) _ false) Bool)
    (Local (@mutexee (Fin 2) _ false) Bool) :=
  ⟨⟨0, none, ⟨⟨0, 0⟩, [], false, 0, [], 0⟩⟩, fun _ =>
    ⟨Mutexee.Pc.idle, .out, .begin ⟨0, 0⟩ none⟩⟩

/-- Thread 0 takes the mutex and waits until 5 s; the clock says 4.999999 s, and 5.000001 s
    when it wakes up. -/
def late : List (Fin 2 × Act (@mutexee (Fin 2) _ false) Bool) :=
  [(0, .lock .lock), (0, .lock .go), (0, .timedwait ⟨5, 0⟩), (0, .go), (0, .go), (0, .go),
    (0, .go), (0, .go), (0, .go), (0, .lock .go), (0, .lock .go), (0, .time ⟨4, 999999⟩),
    (0, .go), (0, .go), (0, .time ⟨5, 1⟩), (0, .go), (0, .lock .go)]

theorem condTimedwait_outcome_late : ∃ c : Conf (Fin 2) (Shared (@mutexee (Fin 2) _ false) Bool)
    (Local (@mutexee (Fin 2) _ false) Bool),
    exec (prog (byExchange false) true) always start late = some c ∧
    (c.loc 0).pc = .returned .etimedout ∧ (c.loc 0).call.timeout = some ⟨0, 1000⟩ ∧
    Outcome c.sh.l (c.loc 0) .etimedout := by
  obtain ⟨c, hc, hret, htimeout⟩ : ∃ c : Conf (Fin 2) (Shared (@mutexee (Fin 2) _ false) Bool)
      (Local (@mutexee (Fin 2) _ false) Bool),
      exec (prog (byExchange false) true) always start late = some c ∧
      (c.loc 0).pc = .returned .etimedout ∧ (c.loc 0).call.timeout = some ⟨0, 1000⟩ :=
    ⟨_, rfl, rfl, rfl⟩
  exact ⟨c, hc, hret, htimeout,
    condTimedwait_outcome (.mutexee false) true (reach_of_exec (fun _ => rfl) hc) hret⟩

end CondTimedwait
