import Lockin.GlkAlone

/-! # Unlocking a free lock under `GLS_DEBUG`

    The unlock functions of `gls.c` with `GLS_DEBUG`: a lock that is found free is warned
    about.  `gls_unlock` and `gls_unlock_mcs` return after the warning, the others go on and
    release the lock that nobody holds (`goesOn`).

    In a state in which the lock is free and nobody waits (`Quiet`), one thread makes such a
    call and runs alone until it returns (`Unlocked`).  The lock is usable afterwards
    (`Usable`) when it is free, `gls_lock` acquires it, and no later run breaks mutual
    exclusion.  The store of `FREE` to a free word changes nothing, and neither do the
    stores to the two bytes of a mutex that is not locked; but the ticket lock serves a
    ticket that nobody took, and every later ticket is behind
    (`glsUnlock_debug_survives`). -/

namespace GlsDebug

open Interleaving GlsApi GlsLocks

variable {Tid : Type} [DecidableEq Tid]

/-- What the unlock function of a flavour does under `GLS_DEBUG`. -/
structure DebugLock (M : LockModel Tid) where
  /-- The function `is_free` of the lock. -/
  isFree : M.Sh → Bool
  /-- Where the function goes on after the warning, unless it returns. -/
  goesOn : Option M.Lc
  /-- The thread has released the lock, and its unlock has yet to return. -/
  released : M.Lc → Bool
  /-- The thread has a node for another lock. -/
  ready : M.Lc → Prop

/-- The word is free. -/
def tasDebug (kind : TasGlk.Kind) : DebugLock (@tas Tid _ kind) where
  isFree := TasGlk.isFree
  goesOn := some TasGlk.Pc.unlock
  released _ := false
  ready _ := True

/-- `ticket_lock_is_free`. -/
def ticketDebug : DebugLock (@ticket Tid _) where
  isFree sh := TicketIn.Shared.head sh - TicketIn.Shared.tail sh = 1
  goesOn := some TicketIn.Pc.loadHead
  released _ := false
  ready _ := True

/-- `mcs_lock_is_free`. -/
def mcsDebug : DebugLock (@mcs Tid _) where
  isFree := McsGlkIn.mcsLockIsFree
  goesOn := none
  released _ := false
  ready l := ∃ i, McsGlkIn.Local.head l i = .null

/-- The end of `mutex_unlock`. -/
def mutexReleased : Mutexee.Pc → Bool
  | .recheck _ k => k = .user
  | .clearContended k => k = .user
  | .wake k => k = .user
  | _ => false

/-- `mutex_lock_is_free`. -/
def mutexIsFree (sh : Mutexee.Shared Tid) : Bool := sh.word.locked = 0

def mutexDebug : DebugLock (@mutex Tid _) where
  isFree := mutexIsFree
  goesOn := some (Mutexee.Pc.readWord .user)
  released := mutexReleased
  ready _ := True

/-- `glk_is_free`, whose loop ends when the type does not change. -/
def glkIsFree (sh : Glk.Shared Tid) : Bool :=
  match sh.lockType with
  | .ticket => sh.ticket.head - sh.ticket.tail = 1
  | .mcs => sh.mcs.tail.isNone
  | .mutex => sh.mutex.word.locked = 0

/-- The end of `glk_unlock`. -/
def glkReleased : Glk.Pc Tid → Bool
  | .mutex (.unlock .user) pc => mutexReleased pc
  | _ => false

def glkDebug (cfg : Glk.Config) : DebugLock (@glk Tid _ cfg) where
  isFree := glkIsFree
  goesOn := none
  released l := glkReleased (Glk.Local.pc l)
  ready l := ∃ i, Glk.Local.head l i = .null

/-- The unlock function of a flavour. -/
def debug (cfg : Glk.Config) : (F : Flavour) → DebugLock (@lock Tid _ cfg F)
  | .glk => glkDebug cfg
  | .ttas => tasDebug .ttas
  | .mcs => mcsDebug
  | .mutex => mutexDebug
  | .ticket => ticketDebug
  | .tas => tasDebug .tas
  | .tasIn => tasDebug .tasIn

section

variable {M : LockModel Tid} (D : DebugLock M)

/-- The lock is free, and every thread is in no call, or has only the end of an unlock left. -/
structure Quiet (c : Conf Tid M.Sh M.Lc) : Prop where
  free : D.isFree c.sh = true
  away : ∀ u, M.place (c.loc u) = .idle ∨ M.place (c.loc u) = .critical ∨
    D.released (c.loc u) = true

/-- Thread `t` unlocks the free lock, alone, and the state afterwards is `d`. -/
def Unlocked (c : Conf Tid M.Sh M.Lc) (t : Tid) (d : Conf Tid M.Sh M.Lc) : Prop :=
  match D.goesOn with
  | none => d = c
  | some l => ∃ x, M.Alone t (c.sh, l) x ∧ M.place x.2 = .idle ∧ d = c.put t x

/-- The lock function of thread `u`, run alone, acquires. -/
def Locks (c : Conf Tid M.Sh M.Lc) (u : Tid) : Prop :=
  ∃ r x, M.prog u c.sh (c.loc u) (M.start .lock) = some r ∧ M.Alone u r x ∧
    M.place x.2 = .critical

/-- In every later run, at most one thread holds the lock. -/
def Exclusive (d : Conf Tid M.Sh M.Lc) : Prop :=
  ∀ e, Reach M.prog M.ok (· = d) e → ∀ u v, M.place (e.loc u) = .critical →
    M.place (e.loc v) = .critical → u = v

/-- The lock works. -/
structure Usable (d : Conf Tid M.Sh M.Lc) : Prop where
  free : D.isFree d.sh = true
  locks : ∀ u, M.place (d.loc u) = .idle → D.ready (d.loc u) → Locks (M := M) d u
  exclusive : Exclusive (M := M) d

/-- The lock survives that thread `t` unlocks it. -/
def Survives (c : Conf Tid M.Sh M.Lc) (t : Tid) : Prop :=
  (∃ d, Unlocked D c t d) ∧ ∀ d, Unlocked D c t d → Usable D d

end

section

variable {M : LockModel Tid} {D : DebugLock M} {c : Conf Tid M.Sh M.Lc} {t : Tid}

/-- At most one thread has the lock. -/
theorem exclusive_of_reach (hc : Reach M.prog M.ok M.Init c) : Exclusive (M := M) c :=
  fun _ he _ _ hu hv => M.unique (hc.trans he) hu hv

/-- A function that returns after the warning. -/
theorem survives_of_return (hret : D.goesOn = none) (hc : Reach M.prog M.ok M.Init c)
    (hfree : D.isFree c.sh = true)
    (hlocks : ∀ u, M.place (c.loc u) = .idle → D.ready (c.loc u) → Locks (M := M) c u) :
    Survives D c t := by
  have hiff : ∀ d, Unlocked D c t d ↔ d = c := by
    intro d
    rw [Unlocked, hret]
  refine ⟨⟨c, (hiff c).mpr rfl⟩, fun d hd => ?_⟩
  obtain rfl := (hiff d).mp hd
  exact ⟨hfree, hlocks, exclusive_of_reach hc⟩

end

/-! ## Test-and-set -/

section Tas

open TasGlk

variable {kind : Kind} {c : Conf Tid Nat TasGlk.Pc} {t : Tid}

omit [DecidableEq Tid] in
theorem tas_idle {pc : TasGlk.Pc} (h : tasPlace pc = .idle) : pc = .idle := by
  cases pc <;> first | rfl | cases h

/-- The store of `FREE`. -/
theorem tas_alone {x : Nat × TasGlk.Pc}
    (h : (@tas Tid _ kind).Alone t (FREE, TasGlk.Pc.unlock) x) :
    x = (FREE, .unlock) ∨ x = (FREE, .idle) := by
  induction h with
  | refl => exact Or.inl rfl
  | tail _ hgo ih =>
      obtain ⟨⟨f, hplace⟩, a, hs⟩ := hgo
      rcases ih with rfl | rfl
      · cases a with
        | go => exact Or.inr (Option.some.inj hs).symm
        | lock | trylock | unlock => cases hs
      · exact nomatch hplace

/-- The spin locks. -/
theorem tas_survives (hc : Reach (prog kind) (@tas Tid _ kind).ok (tas kind).Init c)
    (hquiet : Quiet (tasDebug kind) c) (ht : tasPlace (c.loc t) = .idle) :
    Survives (tasDebug kind) c t := by
  have hfree : c.sh = FREE := of_decide_eq_true hquiet.free
  -- the store changes nothing
  have hsame : c.put t (FREE, .idle) = c := by
    rw [← hfree, ← tas_idle ht, put_self]
  have hunlocked : ∀ d, Unlocked (tasDebug kind) c t d ↔ d = c := by
    intro d
    constructor
    · rintro ⟨x, halone, hplace, rfl⟩
      rw [hfree] at halone
      rcases tas_alone halone with rfl | rfl
      · exact nomatch hplace
      · exact hsame
    · rintro rfl
      refine ⟨(FREE, .idle), ?_, rfl, hsame.symm⟩
      rw [hfree]
      exact .head (f := .unlock) (a := TasGlk.Act.go) rfl rfl .refl
  refine ⟨⟨c, (hunlocked c).mpr rfl⟩, fun d hd => ?_⟩
  obtain rfl := (hunlocked d).mp hd
  refine ⟨hquiet.free, fun u hu _ => ?_, exclusive_of_reach hc⟩
  refine ⟨(FREE, .swap), (LOCKED, .critical), ?_, ?_, rfl⟩
  · show prog kind u d.sh (d.loc u) .lock = _
    rw [hfree, tas_idle hu]
    rfl
  · refine .head (f := .lock) (a := TasGlk.Act.go) rfl ?_ .refl
    cases kind <;> rfl

end Tas

/-! ## Ticket -/

section Ticket

variable {c : Conf Tid TicketIn.Shared TicketIn.Pc} {t : Tid}

/-- **The release of a free ticket lock breaks it.** -/
theorem ticket_not_survives (hquiet : Quiet (@ticketDebug Tid _) c) :
    ¬ Survives (@ticketDebug Tid _) c t := by
  intro hsurvives
  have hunlocked : Unlocked (@ticketDebug Tid _) c t
      (c.put t ({ c.sh with head := c.sh.head + 1 }, .idle)) := by
    refine ⟨({ c.sh with head := c.sh.head + 1 }, .idle), ?_, rfl, rfl⟩
    refine .head (f := .unlock) (a := TicketIn.Act.go) rfl rfl ?_
    exact .head (f := .unlock) (a := TicketIn.Act.go) rfl rfl .refl
  have hfree : c.sh.head - c.sh.tail = 1 := of_decide_eq_true hquiet.free
  have hfree' : c.sh.head + 1 - c.sh.tail = 1 := of_decide_eq_true (hsurvives.2 _ hunlocked).free
  bv_omega

/-- Nor does the next `gls_lock_ticket` return by itself: its ticket has been passed. -/
theorem ticket_stuck {sh : TicketIn.Shared} (hdist : sh.head = sh.tail + 2)
    {x : TicketIn.Shared × TicketIn.Pc} (h : ticket.Alone t (sh, TicketIn.Pc.addTail) x) :
    x = (sh, .addTail) ∨ ∃ sh' : TicketIn.Shared, sh'.head ≠ sh.tail + 1 ∧
      x = (sh', .readHead (sh.tail + 1)) := by
  induction h with
  | refl => exact Or.inl rfl
  | tail _ hgo ih =>
      obtain ⟨-, a, hs⟩ := hgo
      rcases ih with rfl | ⟨sh', hne, rfl⟩
      · cases a with
        | lock | trylock | unlock => cases hs
        | go =>
            refine Or.inr ⟨_, ?_, (Option.some.inj hs).symm⟩
            show sh.head ≠ sh.tail + 1
            rw [hdist]
            bv_omega
      · cases a with
        | lock | trylock | unlock => cases hs
        | go =>
            obtain rfl := Option.some.inj hs
            have hpassed : ¬ sh.tail + 1 - sh'.head = 0 := by bv_omega
            exact Or.inr ⟨sh', hne, by rw [if_neg hpassed]⟩

end Ticket

/-! ## MCS -/

section Mcs

open McsGlkIn

variable {c : Conf Tid (McsQueue.Shared (Glk.Node Tid)) (McsGlkIn.Local Tid)} {t : Tid}

/-- A thread that finds the queue empty. -/
theorem mcs_locks {u : Tid} (hfree : c.sh.tail = none) (hidle : mcsPlace (c.loc u) = .idle)
    (hready : ∃ i, (c.loc u).head i = .null) : Locks (M := mcs) c u := by
  generalize hsh : c.sh = sh at hfree
  generalize hl : c.loc u = l at hidle hready
  obtain ⟨head, pc⟩ := l
  obtain rfl : pc = .idle := by
    cases pc with
    | queue p => cases p <;> cases hidle
    | _ => first | rfl | cases hidle
  obtain ⟨i, head', hget⟩ : ∃ i head', mcsGetLocalLock head = some (i, head') := by
    obtain ⟨i, hi⟩ := GlkAlone.exists_firstHead hready
    exact ⟨i, _, congrArg (Option.map _) hi⟩
  -- the states of the run: entry taken, `next` cleared, tail exchanged
  let sh1 : McsQueue.Shared (Glk.Node Tid) :=
    { sh with next := Function.update sh.next (u, i) none }
  let sh2 : McsQueue.Shared (Glk.Node Tid) := { sh1 with tail := some (u, i) }
  have hentry : McsGlkIn.prog u sh ⟨head, .getLocal false⟩ .go
      = some (sh, ⟨head', .queue (.clearNext false (u, i))⟩) := congrArg (Option.map _) hget
  have hclear : McsGlkIn.prog u sh ⟨head', .queue (.clearNext false (u, i))⟩ .go
      = some (sh1, ⟨head', .queue (.swap (u, i))⟩) := rfl
  have hswap : McsGlkIn.prog u sh1 ⟨head', .queue (.swap (u, i))⟩ .go
      = some (sh2, ⟨head', .critical⟩) := by
    have hq : McsQueue.prog u sh1 (.swap (u, i)) .go = some (sh2, .held (u, i)) := by
      simp only [McsQueue.prog, sh1, sh2, hfree]
    show inQueue u sh1 head' (.swap (u, i)) = _
    rw [inQueue, hq]
    rfl
  refine ⟨(sh, ⟨head, .getLocal false⟩), (sh2, ⟨head', .critical⟩), ?_, ?_, rfl⟩
  · show McsGlkIn.prog u c.sh (c.loc u) .lock = _
    rw [hsh, hl]
    rfl
  · refine .head (f := .lock) (a := McsGlkIn.Act.go) rfl hentry ?_
    refine .head (f := .lock) (a := McsGlkIn.Act.go) rfl hclear ?_
    exact .head (f := .lock) (a := McsGlkIn.Act.go) rfl hswap .refl

/-- The MCS lock. -/
theorem mcs_survives (hc : Reach McsGlkIn.prog (@mcs Tid _).ok mcs.Init c)
    (hquiet : Quiet (@mcsDebug Tid _) c) : Survives (@mcsDebug Tid _) c t :=
  survives_of_return rfl hc hquiet.free fun _ hidle hready =>
    mcs_locks (Option.isNone_iff_eq_none.mp hquiet.free) hidle hready

end Mcs

/-! ## Mutex -/

section Mutex

open Mutexee FutexMutex

omit [DecidableEq Tid] in
/-- The two flags of a mutex that nobody holds or waits for may be cleared. -/
theorem inv_cleared {v : View Tid} (h : FutexMutex.Inv v) (h0 : v.word.locked = 0)
    (hasleep : ∀ u, ¬ v.asleep u) : FutexMutex.Inv { v with word := ⟨0, 0⟩ } := by
  have hno : ∀ u, v.role u ≠ .holder := fun u hu => by
    have := (h.locked u hu).symm.trans h0
    exact absurd this (by decide)
  exact ⟨⟨Or.inl rfl, Or.inl rfl⟩, fun u hu => absurd hu (hno u), fun u _ hu => absurd hu (hno u),
    h.sleeper, h.parker, fun u hu => absurd hu (hasleep u), fun u hu => absurd hu (hasleep u)⟩

variable {c : Conf Tid (Mutexee.Shared Tid) Mutexee.Pc} {t : Tid}

theorem mutex_idle {pc : Mutexee.Pc} (h : mutexPlace pc = .idle) : pc = .idle := by
  cases pc <;> first | rfl | cases h

/-- Who is away does not sleep. -/
theorem role_of_away {pc : Mutexee.Pc} (h : mutexPlace pc = .idle ∨ mutexPlace pc = .critical ∨
    mutexReleased pc = true) : pc.role ≠ .blocked ∧ pc.role ≠ .parked := by
  cases pc with
  | blocked | seqBlocked | xchg32 => rcases h with h | h | h <;> cases h
  | sigAdd h' | sigWake h' | bcastReadM h' | bcastAdd h' | bcastRequeue h' _ =>
      cases h' <;> exact ⟨nofun, nofun⟩
  | _ => exact ⟨nofun, nofun⟩

omit [DecidableEq Tid] in
/-- Nobody sleeps when nobody waits. -/
theorem asleep_nil (hinv : FutexMutex.Inv (view c))
    (haway : ∀ u, (c.loc u).role ≠ .blocked ∧ (c.loc u).role ≠ .parked) : c.sh.asleep = [] := by
  refine List.eq_nil_iff_forall_not_mem.mpr fun u hu => ?_
  rcases hinv.sleeper u hu with h | h
  · exact (haway u).1 h
  · exact (haway u).2 h

/-- The mutex after the unlock. -/
def cleared (sh : Mutexee.Shared Tid) : Mutexee.Shared Tid := { sh with word := ⟨0, 0⟩ }

omit [DecidableEq Tid] in
/-- The word of a free mutex is not 1. -/
theorem u_ne_one {sh : Mutexee.Shared Tid} (h0 : sh.word.locked = 0) : sh.word.u ≠ 1 := by
  unfold Word.u
  rw [h0]
  show 0 + 256 * _ ≠ 1
  omega

omit [DecidableEq Tid] in
theorem setLocked_zero {sh : Mutexee.Shared Tid} (h0 : sh.word.locked = 0) :
    { sh with word.locked := 0 } = sh := by
  rw [← h0]

omit [DecidableEq Tid] in
theorem setContended_zero {sh : Mutexee.Shared Tid} (h0 : sh.word.locked = 0) :
    { sh with word.contended := 0 } = cleared sh := by
  show ({ sh with word := ⟨sh.word.locked, 0⟩ } : Mutexee.Shared Tid) = _
  rw [h0]
  rfl

/-- The places of the unlock before its store to `contended`, and after it. -/
def Unlocking (sh : Mutexee.Shared Tid) (x : Mutexee.Shared Tid × Mutexee.Pc) : Prop :=
  x.1 = sh ∧ (x.2 = .readWord .user ∨ x.2 = .clear .user ∨ x.2 = .recheck 0 .user ∨
    x.2 = .clearContended .user) ∨
  x.1 = cleared sh ∧ (x.2 = .wake .user ∨ x.2 = .idle)

/-- A step of the unlock of a mutex that is not locked. -/
theorem Unlocking.step {sh : Mutexee.Shared Tid} (h0 : sh.word.locked = 0)
    (hasleep : sh.asleep = []) {x y : Mutexee.Shared Tid × Mutexee.Pc} (h : Unlocking sh x)
    (hbusy : x.2 ≠ .idle) {a : Mutexee.Act Tid}
    (hs : Mutexee.prog Mutexee.glkMutex t x.1 x.2 a = some y) : Unlocking sh y := by
  obtain ⟨sh', pc⟩ := x
  rcases h with ⟨hsh, hpc⟩ | ⟨hsh, hpc⟩
  · dsimp only at hsh hpc hs
    subst hsh
    rcases hpc with rfl | rfl | rfl | rfl
    · cases a <;> simp only [Mutexee.prog, mutexeeUnlock, reduceCtorEq, Option.some.injEq] at hs
      rw [if_neg (u_ne_one h0)] at hs
      subst hs
      exact Or.inl ⟨rfl, Or.inr (Or.inl rfl)⟩
    · cases a <;> simp only [Mutexee.prog, mutexeeUnlock, reduceCtorEq, Option.some.injEq] at hs
      subst hs
      exact Or.inl ⟨setLocked_zero h0, Or.inr (Or.inr (Or.inl rfl))⟩
    · cases a <;> simp only [Mutexee.prog, mutexeeUnlock, reduceCtorEq, Option.some.injEq] at hs
      rw [if_neg (not_not_intro h0)] at hs
      subst hs
      exact Or.inl ⟨rfl, Or.inr (Or.inr (Or.inr rfl))⟩
    · cases a <;> simp only [Mutexee.prog, mutexeeUnlock, reduceCtorEq, Option.some.injEq] at hs
      subst hs
      exact Or.inr ⟨setContended_zero h0, Or.inl rfl⟩
  · dsimp only at hsh hpc hs hbusy
    subst hsh
    obtain rfl := hpc.resolve_right hbusy
    cases a <;> simp only [Mutexee.prog, mutexeeUnlock, reduceCtorEq,
      Option.map_eq_some_iff] at hs
    obtain ⟨q, hq, rfl⟩ := hs
    have hnil : q = [] := by
      have hq' : futexWake [] _ = some q := hasleep ▸ hq
      rename_i u
      cases u with
      | none => exact (Option.some.inj hq').symm
      | some u => cases hq'
    refine Or.inr ⟨?_, Or.inr rfl⟩
    show ({ cleared sh with asleep := q } : Mutexee.Shared Tid) = cleared sh
    rw [hnil, ← hasleep]
    rfl

/-- The unlock of a mutex that is not locked, alone. -/
theorem mutex_unlocking {sh : Mutexee.Shared Tid} (h0 : sh.word.locked = 0)
    (hasleep : sh.asleep = []) {x : Mutexee.Shared Tid × Mutexee.Pc}
    (h : mutex.Alone t (sh, Mutexee.Pc.readWord .user) x) : Unlocking sh x := by
  induction h with
  | refl => exact Or.inl ⟨rfl, Or.inl rfl⟩
  | tail _ hgo ih =>
      obtain ⟨⟨f, hplace⟩, a, hs⟩ := hgo
      refine ih.step h0 hasleep (fun hidle => ?_) hs
      rw [hidle] at hplace
      cases hplace

/-- It returns. -/
theorem mutex_unlocked {sh : Mutexee.Shared Tid} (h0 : sh.word.locked = 0)
    (hasleep : sh.asleep = []) :
    mutex.Alone t (sh, Mutexee.Pc.readWord .user) (cleared sh, Mutexee.Pc.idle) := by
  have hread : Mutexee.prog glkMutex t sh (.readWord .user) .go = some (sh, .clear .user) :=
    congrArg some (congrArg _ (if_neg (u_ne_one h0)))
  have hclear : Mutexee.prog glkMutex t sh (.clear .user) .go
      = some (sh, .recheck 0 .user) := congrArg (fun s => some (s, _)) (setLocked_zero h0)
  have hcheck : Mutexee.prog glkMutex t sh (.recheck 0 .user) .go
      = some (sh, .clearContended .user) :=
    congrArg some (congrArg _ (if_neg (not_not_intro h0)))
  have hcontended : Mutexee.prog glkMutex t sh (.clearContended .user) .go
      = some (cleared sh, .wake .user) := congrArg (fun s => some (s, _)) (setContended_zero h0)
  have hwake : Mutexee.prog glkMutex t (cleared sh) (.wake .user) (.wake none)
      = some (cleared sh, .idle) := by
    have hq : futexWake (cleared sh).asleep none = some [] := if_pos hasleep
    show (futexWake (cleared sh).asleep none).map _ = _
    rw [hq, ← hasleep]
    rfl
  refine .head (f := .unlock) (a := Mutexee.Act.go) rfl hread ?_
  refine .head (f := .unlock) (a := Mutexee.Act.go) rfl hclear ?_
  refine .head (f := .unlock) (a := Mutexee.Act.go) rfl hcheck ?_
  refine .head (f := .unlock) (a := Mutexee.Act.go) rfl hcontended ?_
  exact .head (f := .unlock) (a := Mutexee.Act.wake none) rfl hwake .refl

/-- The mutex. -/
theorem mutex_survives (hc : Reach (Mutexee.prog glkMutex) (@mutex Tid _).ok mutex.Init c)
    (hquiet : Quiet (@mutexDebug Tid _) c) (ht : mutexPlace (c.loc t) = .idle) :
    Survives (@mutexDebug Tid _) c t := by
  have h0 : c.sh.word.locked = 0 := of_decide_eq_true hquiet.free
  have hinv := Mutexee.inv_of_reach (hc.mono_init fun _ h => mutex_init h.1 h.2)
  have haway := fun u => role_of_away (hquiet.away u)
  have hasleep := asleep_nil hinv haway
  -- only the flag `contended` may have changed
  have hunlocked : ∀ d, Unlocked (@mutexDebug Tid _) c t d ↔
      d = c.put t (cleared c.sh, .idle) := by
    intro d
    constructor
    · rintro ⟨x, halone, hplace, rfl⟩
      have hx := mutex_unlocking h0 hasleep halone
      obtain ⟨sh', pc⟩ := x
      obtain rfl := mutex_idle hplace
      rcases hx with ⟨-, h | h | h | h⟩ | ⟨hsh, -⟩
      · cases h
      · cases h
      · cases h
      · cases h
      · exact congrArg (fun s => c.put t (s, Mutexee.Pc.idle)) hsh
    · rintro rfl
      exact ⟨_, mutex_unlocked h0 hasleep, rfl, rfl⟩
  have hidle : ∀ u, (c.put t (cleared c.sh, .idle)).loc u = c.loc u := by
    intro u
    rw [put_loc]
    split
    · rename_i hut
      rw [hut]
      exact (mutex_idle ht).symm
    · rfl
  refine ⟨⟨_, (hunlocked _).mpr rfl⟩, fun d hd => ?_⟩
  obtain rfl := (hunlocked d).mp hd
  refine ⟨rfl, fun u hu _ => ?_, ?_⟩
  · refine ⟨(cleared c.sh, .xchg8), ({ cleared c.sh with word := ⟨1, 0⟩ }, .critical), ?_, ?_, rfl⟩
    · show Mutexee.prog glkMutex u (cleared c.sh) ((c.put t _).loc u) .lock = _
      rw [mutex_idle hu]
      rfl
    · exact .head (f := .lock) (a := Mutexee.Act.go) rfl rfl .refl
  · intro e he u v hu hv
    have hcleared : FutexMutex.Inv (view (c.put t (cleared c.sh, .idle))) := by
      have hno : ∀ u, ¬ (view c).asleep u := fun u hu => by
        have hmem : u ∈ c.sh.asleep := hu
        rw [hasleep] at hmem
        cases hmem
      have hview : view (c.put t (cleared c.sh, .idle)) = { view c with word := ⟨0, 0⟩ } := by
        unfold view
        simp only [hidle]
        rfl
      rw [hview]
      exact inv_cleared hinv h0 hno
    have hinv' : FutexMutex.Inv (view e) :=
      he.invariant (I := fun c => FutexMutex.Inv (view c)) (fun c h => h ▸ hcleared)
        fun c t _ r h _ hs => h.effect (effect_of_prog h.flags hs) (view_put_role c t r)
    exact hinv'.unique u v (holder_of_critical hu) (holder_of_critical hv)

end Mutex

/-! ## The adaptive lock -/

section Adaptive

open Glk

variable {cfg : Glk.Config} {c : Conf Tid (Glk.Shared Tid) (Glk.Local Tid)} {t : Tid}

/-- The thread is in no call, or at the end of an unlock of the mutex. -/
def Over (pc : Glk.Pc Tid) : Prop :=
  pc = .idle ∨ ∃ mpc, pc = .mutex (.unlock .user) mpc ∧ mutexReleased mpc = true

omit [DecidableEq Tid] in
theorem glk_idle {pc : Glk.Pc Tid} (h : glkPcPlace pc = .idle) : pc = .idle := by
  cases pc with
  | idle => rfl
  | readType try_ | check try_ => cases try_ <;> cases h
  | ticketUnlock k | ticketIncrement k | mcsUnlock k | mcsCasTail k | mcsWaitSucc k
  | mcsClear k =>
      rcases k with _ | _ | _ <;> cases h
  | mutex call mpc =>
      rcases call with _ | _ | _ | _ | _
      · cases h
      · revert h
        show tryMutexPlace (mutexPlace mpc) = .idle → _
        generalize mutexPlace mpc = p
        rcases p with _ | _ | _ | _ | _ <;> exact nofun
      all_goals cases h
  | _ => cases h

omit [DecidableEq Tid] in
/-- A release of GLK ends in its caller. -/
theorem over_of_released {pc : Glk.Pc Tid} (h : glkReleased pc = true) : Over pc := by
  cases pc with
  | mutex call mpc =>
      cases call with
      | unlock k =>
          cases k with
          | user => exact Or.inr ⟨mpc, rfl, h⟩
          | retry => cases h
      | lock | trylock => cases h
  | _ => cases h

/-- The owner of a lock shows in the lock. -/
theorem not_owns_of_free (hinv : Glk.Inv c) (hfree : glkIsFree c.sh = true) (u : Tid) :
    ¬ Owns c c.sh.lockType u := by
  intro hown
  cases hty : c.sh.lockType with
  | ticket =>
      rw [hty] at hown
      obtain ⟨f, hline, hf⟩ := (TicketQueue.sim (by decide)).reach hinv.ticket
      have hdist : c.sh.ticket.head - c.sh.ticket.tail = 1 := by
        rw [glkIsFree, hty] at hfree
        exact of_decide_eq_true hfree
      have hhead : c.sh.ticket.head = c.sh.ticket.tail + 1 := by bv_omega
      have hout := (hline.free_iff hf).mp hhead u
      cases hown.symm.trans hout
  | mcs =>
      rw [hty] at hown
      obtain ⟨f, hline, hf⟩ := McsQueue.sim.reach hinv.mcs
      have htail : c.sh.mcs.tail = none := by
        rw [glkIsFree, hty] at hfree
        exact Option.isNone_iff_eq_none.mp hfree
      have hrel := hline.free_of_tail hf htail
      have hturn := (hf.holding_at hown).1
      have := hturn.lt_length
      omega
  | mutex =>
      rw [hty] at hown
      have h1 := (Mutexee.inv_of_reach hinv.mutex).locked u hown
      have h0 : c.sh.mutex.word.locked = 0 := by
        rw [glkIsFree, hty] at hfree
        exact of_decide_eq_true hfree
      exact absurd (h1.symm.trans h0) (by decide)

/-- All three locks are free when every thread is over. -/
theorem free_of_over (hinv : Glk.Inv c) (hover : ∀ u, Over (c.loc u).pc) :
    GlkAlone.Free c.sh := by
  have hticket : ∀ u, ((Glk.ticketView c).loc u).phase = .out := by
    intro u
    show (c.loc u).pc.ticketPc.phase = .out
    rcases hover u with hpc | ⟨mpc, hpc, -⟩ <;> rw [hpc] <;> rfl
  have hmcs : ∀ u, ((Glk.mcsView c).loc u).phase = .out := by
    intro u
    show ((c.loc u).pc.mcsPc u (c.loc u).head).phase = .out
    rcases hover u with hpc | ⟨mpc, hpc, -⟩ <;> rw [hpc] <;> rfl
  have hmutex : ∀ u, ((Glk.mutexView c).loc u).role ≠ .holder ∧
      ((Glk.mutexView c).loc u).role ≠ .blocked ∧ ((Glk.mutexView c).loc u).role ≠ .parked := by
    intro u
    show (c.loc u).pc.mutexPc.role ≠ .holder ∧ (c.loc u).pc.mutexPc.role ≠ .blocked ∧
      (c.loc u).pc.mutexPc.role ≠ .parked
    rcases hover u with hpc | ⟨mpc, hpc, hrel⟩
    · rw [hpc]
      exact ⟨nofun, nofun, nofun⟩
    · rw [hpc]
      show mpc.role ≠ .holder ∧ mpc.role ≠ .blocked ∧ mpc.role ≠ .parked
      cases mpc with
      | recheck | clearContended | wake => exact ⟨nofun, nofun, nofun⟩
      | _ => cases hrel
  refine ⟨?_, ?_, ?_, ?_⟩
  · obtain ⟨f, hline, hf⟩ := (TicketQueue.sim (by decide)).reach hinv.ticket
    exact (hline.free_iff hf).mpr hticket
  · obtain ⟨f, hline, hf⟩ := McsQueue.sim.reach hinv.mcs
    refine hline.tail_empty ?_
    by_contra hne
    have hlen := hf.rel_le_len
    obtain ⟨u, hu⟩ := f.exists_at (k := f.rel) le_rfl (by omega)
    exact hf.not_at_of_out (hmcs u) _ hu
  · by_contra hne
    obtain ⟨u, hu⟩ := Mutexee.owned_of_reach hinv.mutex hne
    exact (hmutex u).1 hu
  · exact asleep_nil (Mutexee.inv_of_reach hinv.mutex) fun u => (hmutex u).2

/-- GLK. -/
theorem glk_survives (hc : Reach (GlkTry.prog cfg) (@glk Tid _ cfg).ok (glk cfg).Init c)
    (hquiet : Quiet (glkDebug cfg) c) : Survives (glkDebug cfg) c t := by
  have hinv := GlkTry.inv_of_reach (hc.mono_init fun _ h => glk_init h.1 h.2)
  have hover : ∀ u, Over (c.loc u).pc := by
    intro u
    rcases hquiet.away u with h | h | h
    · exact Or.inl (glk_idle h)
    · obtain ⟨k, hk⟩ := critical_of_place h
      have hty : c.sh.lockType = k := hinv.sure u k (by rw [hk]; rfl)
      have hown : Owns c k u := hinv.owns_of_holds (by rw [hk]; rfl)
      rw [← hty] at hown
      exact absurd hown (not_owns_of_free hinv hquiet.free u)
    · exact over_of_released h
  refine survives_of_return rfl hc hquiet.free fun u hidle hready => ?_
  have hpc := glk_idle hidle
  have hunused : ∀ i, (c.loc u).head i ≠ .this := by
    have hslot := hinv.slotted u
    simp only [Local.Slotted, hpc] at hslot
    exact hslot
  obtain ⟨x, halone, hx⟩ :=
    GlkAlone.acquires (t := u) (free_of_over hinv hover) ⟨hready, hunused⟩
  refine ⟨(c.sh, ⟨(c.loc u).head, .readType false⟩), x, ?_, halone, hx⟩
  show Glk.prog cfg u c.sh (c.loc u) .lock = _
  rw [← show (⟨(c.loc u).head, .idle⟩ : Glk.Local Tid) = c.loc u from hpc ▸ rfl]
  rfl

end Adaptive

/-! ## All flavours -/

/-- **Unlocking a free lock under `GLS_DEBUG`.**  In every state that a lock reaches in which
    it is free and nobody waits, the unlock of a thread that is in no call leaves a lock that
    is free, that the next `gls_lock` acquires and that keeps excluding, exactly when the
    flavour is not the ticket lock. -/
theorem glsUnlock_debug_survives (cfg : Glk.Config) (F : Flavour)
    {c : Conf Tid (@lock Tid _ cfg F).Sh (@lock Tid _ cfg F).Lc} {t : Tid}
    (hc : Reach (lock cfg F).prog (lock cfg F).ok (lock cfg F).Init c)
    (hquiet : Quiet (debug cfg F) c) (ht : (lock cfg F).place (c.loc t) = .idle) :
    Survives (debug cfg F) c t ↔ F ≠ .ticket := by
  cases F with
  | glk => exact iff_of_true (glk_survives hc hquiet) nofun
  | ttas | tas | tasIn => exact iff_of_true (tas_survives hc hquiet ht) nofun
  | mcs => exact iff_of_true (mcs_survives hc hquiet) nofun
  | mutex => exact iff_of_true (mutex_survives hc hquiet ht) nofun
  | ticket => exact iff_of_false (ticket_not_survives hquiet) (not_not_intro rfl)

/-- A test-and-set lock that nobody has used. -/
def tasStart : Conf (Fin 2) Nat TasGlk.Pc := ⟨TasGlk.FREE, fun _ => .idle⟩

/-- Thread 1 takes the lock and gives it back. -/
def tasUsed : List (Fin 2 × TasGlk.Act) := [(1, .lock), (1, .go), (1, .unlock), (1, .go)]

/-- Thread 0 unlocks a lock that has been used. -/
theorem glsUnlock_debug_survives_tas : ∃ c : Conf (Fin 2) Nat TasGlk.Pc,
    exec (TasGlk.prog .tas) always tasStart tasUsed = some c ∧
    (Survives (debug ⟨1, 1⟩ .tas) c 0 ↔ Flavour.tas ≠ .ticket) := by
  obtain ⟨c, hx, hfree, hidle⟩ : ∃ c : Conf (Fin 2) Nat TasGlk.Pc,
      exec (TasGlk.prog .tas) always tasStart tasUsed = some c ∧ TasGlk.isFree c.sh = true ∧
        ∀ u, tasPlace (c.loc u) = .idle := ⟨_, rfl, rfl, by decide⟩
  have hstart : (@tas (Fin 2) _ .tas).Init tasStart := ⟨rfl, fun _ => rfl⟩
  have hreach : Reach (TasGlk.prog .tas) always (@tas (Fin 2) _ .tas).Init c :=
    reach_of_exec hstart hx
  exact ⟨c, hx, glsUnlock_debug_survives ⟨1, 1⟩ .tas hreach
    ⟨hfree, fun u => Or.inl (hidle u)⟩ (hidle 0)⟩

/-- A ticket lock that nobody has used. -/
def ticketStart : Conf (Fin 2) TicketIn.Shared TicketIn.Pc := ⟨⟨1, 0, 0⟩, fun _ => .idle⟩

/-- **The ticket lock breaks**: the unlock of a new lock leaves `head - tail = 2`, which is
    not free. -/
theorem glsUnlock_debug_breaks : ¬ ∀ (F : Flavour)
    (c : Conf (Fin 2) (@lock (Fin 2) _ ⟨1, 1⟩ F).Sh (@lock (Fin 2) _ ⟨1, 1⟩ F).Lc)
    (t : Fin 2), Reach (lock ⟨1, 1⟩ F).prog (lock ⟨1, 1⟩ F).ok (lock ⟨1, 1⟩ F).Init c →
    Quiet (debug ⟨1, 1⟩ F) c → (lock ⟨1, 1⟩ F).place (c.loc t) = .idle →
    Survives (debug ⟨1, 1⟩ F) c t := by
  intro h
  have hfree : Quiet (@ticketDebug (Fin 2) _) ticketStart :=
    ⟨by decide, fun _ => Or.inl rfl⟩
  have hstart : Reach TicketIn.prog (@ticket (Fin 2) _).ok ticket.Init ticketStart :=
    .start ⟨rfl, fun _ => rfl⟩
  exact ticket_not_survives hfree (h .ticket ticketStart 0 hstart hfree rfl)

end GlsDebug
