import Lockin.GlsLocks

/-! # A thread alone with the adaptive lock

    When the three locks of a `glk_t` are free and no other thread moves, `glk_lock`
    acquires, whatever the type, the counters and the adaptation period.

    One round of `glk_lock` acquires the lock that `lock_type` names, may change the type,
    and ends in the critical section or back at the start, with the three locks free again
    (`of_ticket`, `of_mcs`, `of_mutex`).  The background thread does not move either, so
    the type changes at most twice: under multiprogramming a round leads to the mutex, which
    stays; otherwise it leads to the ticket lock with a total of zero, which stays. -/

namespace GlkAlone

open Glk GlsLocks

variable {Tid : Type} [DecidableEq Tid]

/-- The three locks are free. -/
structure Free (sh : Shared Tid) : Prop where
  ticket : sh.ticket.head = sh.ticket.tail + 1
  next : sh.mcs.tail = none
  locked : sh.mutex.word.locked = 0
  asleep : sh.mutex.asleep = []

/-- The thread can take a node. -/
structure Ready (head : Heads) : Prop where
  null : ∃ i, head i = .null
  unused : ∀ i, head i ≠ .this

/-- An entry is found. -/
theorem exists_firstHead {head : Heads} {e : Head} (h : ∃ i, head i = e) :
    ∃ i, firstHead head e = some i := by
  obtain ⟨i, hi⟩ := h
  refine Option.isSome_iff_exists.mp (List.find?_isSome.mpr ⟨i, List.mem_finRange i, ?_⟩)
  exact decide_eq_true hi

/-- Thread `t` alone gets to its critical section. -/
def Acquires (cfg : Config) (t : Tid) (sh : Shared Tid) (head : Heads) (pc : Pc Tid) : Prop :=
  ∃ x, (glk cfg).Alone t (sh, ⟨head, pc⟩) x ∧ (glk cfg).place x.2 = .critical

variable {cfg : Config} {t : Tid} {sh sh' : Shared Tid} {head head' : Heads} {pc pc' : Pc Tid}

theorem Acquires.critical (k : LockType) : Acquires cfg t sh head (.critical k) :=
  ⟨_, .refl, rfl⟩

theorem Acquires.step {f : Fn} {a : Act Tid} (hplace : glkPcPlace pc = .inside f)
    (hs : Glk.prog cfg t sh ⟨head, pc⟩ a = some (sh', ⟨head', pc'⟩))
    (h : Acquires cfg t sh' head' pc') : Acquires cfg t sh head pc := by
  obtain ⟨x, halone, hx⟩ := h
  have hstep : (glk cfg).prog t sh ⟨head, pc⟩ (GlkTry.Act.glk a) = some (sh', ⟨head', pc'⟩) := hs
  exact ⟨x, .head (f := f) hplace hstep halone, hx⟩

/-- A step whose place in the code determines it. -/
theorem Acquires.go {f : Fn} (hplace : glkPcPlace pc = .inside f)
    (hs : Glk.go cfg t sh ⟨head, pc⟩ = some (sh', ⟨head', pc'⟩))
    (h : Acquires cfg t sh' head' pc') : Acquires cfg t sh head pc :=
  .step (a := .go) hplace hs h

/-- The type still names the lock. -/
theorem Acquires.check {held : LockType} (hty : sh.lockType = held) :
    Acquires cfg t sh head (.check false held) := by
  refine .go rfl rfl ?_
  dsimp only
  rw [if_pos hty]
  exact .critical held

/-- The type names another lock. -/
theorem Acquires.recheck {held : LockType} (hty : sh.lockType ≠ held)
    (h : Acquires cfg t sh head (unlockLock (.retry false) held)) :
    Acquires cfg t sh head (.check false held) := by
  refine .go rfl rfl ?_
  dsimp only
  rw [if_neg hty]
  exact h

/-- The stores at the end of the adaptation. -/
theorem Acquires.stores {held : LockType} {total acquired : BitVec 32} {type : Option LockType}
    (h : Acquires cfg t { sh with
      queueTotal := total, numAcquired := acquired, lockType := type.getD sh.lockType } head
      (.check false held)) : Acquires cfg t sh head (.storeTotal held total acquired type) := by
  refine .go rfl rfl (.go rfl rfl ?_)
  cases type with
  | none => exact h
  | some ty => exact .go rfl rfl h

/-! ## The ticket lock -/

/-- The ticket lock is given back. -/
theorem Acquires.ticketUnlock
    (h : Acquires cfg t { sh with ticket.head := sh.ticket.head + 1 } head (.readType false)) :
    Acquires cfg t sh head (.ticketUnlock (.retry false)) :=
  .go rfl rfl (.go rfl rfl h)

/-- **A round with the ticket lock.** -/
theorem of_ticket (hfree : Free sh) (hty : sh.lockType = .ticket)
    (hnext : ∀ sh' : Shared Tid, Free sh' → sh'.multiprogramming = sh.multiprogramming →
      (sh.multiprogramming = true ∧ sh'.lockType = .mutex ∨
        sh.multiprogramming = false ∧ cfg.ratioHigh sh.queueTotal ∧ sh'.lockType = .mcs) →
      Acquires cfg t sh' head (.readType false)) :
    Acquires cfg t sh head (.readType false) := by
  refine .go rfl rfl ?_
  dsimp only
  rw [hty]
  refine .go rfl rfl (.go rfl rfl ?_)
  have hdist : sh.ticket.tail + 1 - sh.ticket.head = 0 := by
    rw [hfree.ticket]
    exact BitVec.sub_self _
  dsimp only
  rw [if_pos hdist]
  -- a stop for the release of the ticket that was taken
  have hrelease : ∀ sh' : Shared Tid, sh'.ticket = { sh.ticket with tail := sh.ticket.tail + 1 } →
      sh'.mcs = sh.mcs → sh'.mutex = sh.mutex →
      sh'.multiprogramming = sh.multiprogramming → sh'.lockType ≠ .ticket →
      (sh.multiprogramming = true ∧ sh'.lockType = .mutex ∨
        sh.multiprogramming = false ∧ cfg.ratioHigh sh.queueTotal ∧ sh'.lockType = .mcs) →
      Acquires cfg t sh' head (.check false .ticket) := by
    intro sh' hticket hmcs hmutex hmp hne hto
    refine .recheck hne (.ticketUnlock (hnext _ ⟨?_, ?_, ?_, ?_⟩ hmp hto))
    · show sh'.ticket.head + 1 = sh'.ticket.tail + 1
      rw [hticket, hfree.ticket]
    · exact (congrArg McsQueue.Shared.tail hmcs).trans hfree.next
    · exact (congrArg (fun m => m.word.locked) hmutex).trans hfree.locked
    · exact (congrArg Mutexee.Shared.asleep hmutex).trans hfree.asleep
  unfold glkTicketAdap
  split
  · refine .go rfl rfl ?_
    dsimp only
    split <;> rename_i hmp
    · exact .go rfl rfl (hrelease _ rfl rfl rfl rfl nofun (Or.inl ⟨hmp, rfl⟩))
    · refine .go rfl rfl ?_
      dsimp only
      split <;> rename_i hhigh
      · exact .stores (hrelease _ rfl rfl rfl rfl nofun
          (Or.inr ⟨Bool.eq_false_of_not_eq_true hmp, hhigh, rfl⟩))
      · exact .stores (.check hty)
  · exact .check hty

/-! ## The MCS lock -/

/-- The MCS lock is given back, with nobody behind. -/
theorem Acquires.mcsUnlock {i : Fin nestedLocksMax} (hi : ∀ j, head j = .this ↔ j = i)
    (hnext : sh.mcs.next (t, i) = none) (htail : sh.mcs.tail = some (t, i))
    (h : Acquires cfg t { sh with mcs.tail := none } (Function.update head i .null)
      (.readType false)) : Acquires cfg t sh head (.mcsUnlock (.retry false)) := by
  have hget : glkMcsGetLocalUnlock head = some (i, Function.update head i .null) := by
    rw [glkMcsGetLocalUnlock, firstHead_unique hi]
    rfl
  have hs : Glk.go cfg t sh ⟨head, .mcsUnlock (.retry false)⟩
      = some (sh, ⟨Function.update head i .null, .mcsCasTail (.retry false) i⟩) := by
    simp only [Glk.go, glkMcsLockUnlock, hget, Option.map_some, hnext]
  have hs' : Glk.go cfg t sh ⟨Function.update head i .null, .mcsCasTail (.retry false) i⟩
      = some ({ sh with mcs.tail := none }, ⟨Function.update head i .null, .readType false⟩) :=
    if_pos htail
  exact .go rfl hs (.go rfl hs' h)

/-- The first node of the queue is looked up and has no successor. -/
theorem Acquires.mcsFirst {i : Fin nestedLocksMax} {na : BitVec 32}
    (hi : glkMcsGetLocalNochange head = some i) (hnext : sh.mcs.next (t, i) = none)
    (h : Acquires cfg t sh head (.mcsAddTotal na 1)) : Acquires cfg t sh head (.mcsFirst na) := by
  refine .go rfl ?_ h
  show ((glkMcsGetLocalNochange head).map fun i =>
    (sh, walkFrom na (sh.mcs.next (t, i)) 1)).map _ = _
  rw [hi]
  show some (sh, (⟨head, walkFrom na (sh.mcs.next (t, i)) 1⟩ : Local Tid)) = _
  rw [hnext]
  rfl

/-- **A round with the MCS lock.** -/
theorem of_mcs (hfree : Free sh) (hready : Ready head) (hty : sh.lockType = .mcs)
    (hnext : ∀ sh' : Shared Tid, Free sh' → sh'.multiprogramming = sh.multiprogramming →
      (sh.multiprogramming = true ∧ sh'.lockType = .mutex ∨
        sh.multiprogramming = false ∧ sh'.queueTotal = 0 ∧ sh'.lockType = .ticket) →
      Acquires cfg t sh' head (.readType false)) :
    Acquires cfg t sh head (.readType false) := by
  obtain ⟨i, hnull⟩ := exists_firstHead hready.null
  have hthis : ∀ j, Function.update head i .this j = Head.this ↔ j = i := by
    intro j
    rw [Function.update_apply]
    split
    · rename_i hj
      exact iff_of_true rfl hj
    · rename_i hj
      exact iff_of_false (hready.unused j) hj
  have hback : Function.update (Function.update head i .this) i .null = head := by
    rw [Function.update_idem, ← firstHead_eq hnull, Function.update_eq_self]
  have hget : glkMcsGetLocalLock head = some (i, Function.update head i .this) := by
    rw [glkMcsGetLocalLock, hnull]
    rfl
  -- the acquisition of a free lock
  refine .go rfl rfl ?_
  dsimp only
  rw [hty]
  refine .go rfl (congrArg (Option.map _) hget) (.go rfl rfl (.go rfl rfl (.go rfl rfl ?_)))
  dsimp only
  rw [hfree.next]
  dsimp only
  have hrelease : ∀ sh' : Shared Tid,
      sh'.mcs = { sh.mcs with
        next := Function.update sh.mcs.next (t, i) none, tail := some (t, i) } →
      sh'.ticket = sh.ticket → sh'.mutex = sh.mutex →
      sh'.multiprogramming = sh.multiprogramming → sh'.lockType ≠ .mcs →
      (sh.multiprogramming = true ∧ sh'.lockType = .mutex ∨
        sh.multiprogramming = false ∧ sh'.queueTotal = 0 ∧ sh'.lockType = .ticket) →
      Acquires cfg t sh' (Function.update head i .this) (.check false .mcs) := by
    intro sh' hmcs hticket hmutex hmp hne hto
    refine .recheck hne (.mcsUnlock hthis ?_ ?_ ?_)
    · rw [hmcs]
      exact Function.update_self ..
    · rw [hmcs]
    · rw [hback]
      refine hnext _ ⟨?_, rfl, ?_, ?_⟩ hmp hto
      · show sh'.ticket.head = sh'.ticket.tail + 1
        rw [hticket]
        exact hfree.ticket
      · exact (congrArg (fun m => m.word.locked) hmutex).trans hfree.locked
      · exact (congrArg Mutexee.Shared.asleep hmutex).trans hfree.asleep
  have hcurr : glkMcsGetLocalNochange (Function.update head i .this) = some i :=
    firstHead_unique hthis
  unfold glkMcsAdap
  split
  · -- nobody is behind, so the length of the queue is 1
    refine .mcsFirst hcurr (Function.update_self ..) (.go rfl rfl ?_)
    dsimp only
    split
    · refine .go rfl rfl ?_
      dsimp only
      split <;> rename_i hmp
      · exact .go rfl rfl (hrelease _ rfl rfl rfl rfl nofun (Or.inl ⟨hmp, rfl⟩))
      · split
        · exact .stores (hrelease _ rfl rfl rfl rfl nofun
            (Or.inr ⟨Bool.eq_false_of_not_eq_true hmp, rfl, rfl⟩))
        · exact .stores (.check hty)
    · exact .check hty
  · exact .check hty

/-! ## The mutex -/

/-- A step in the code of the mutex. -/
theorem Acquires.mutex {call : MutexCall} {mpc mpc' : Mutexee.Pc} {a : Mutexee.Act Tid} {f : Fn}
    {m : Mutexee.Shared Tid} (hplace : glkPcPlace (.mutex call mpc : Pc Tid) = .inside f)
    (hs : Mutexee.prog Mutexee.glkMutex t sh.mutex mpc a = some (m, mpc'))
    (h : Acquires cfg t { sh with mutex := m } head (call.next mpc')) :
    Acquires cfg t sh head (.mutex call mpc) := by
  refine .step (a := .mutex a) hplace ?_ h
  show ((Mutexee.prog Mutexee.glkMutex t sh.mutex mpc a).map _).map _ = _
  rw [hs]
  rfl

/-- The mutex is given back, with nobody asleep. -/
theorem Acquires.mutexUnlock (hasleep : sh.mutex.asleep = [])
    (h : ∀ m : Mutexee.Shared Tid, m.word.locked = 0 → m.asleep = [] →
      Acquires cfg t { sh with mutex := m } head (.readType false)) :
    Acquires cfg t sh head (.mutex (.unlock (.retry false)) (.readWord .user)) := by
  by_cases hu : sh.mutex.word.u = 1
  · refine .mutex (a := .go) rfl (congrArg some (congrArg _ (if_pos hu))) ?_
    exact .mutex (a := .go) rfl (if_pos hu) (h _ rfl hasleep)
  · refine .mutex (a := .go) rfl (congrArg some (congrArg _ (if_neg hu))) ?_
    refine .mutex (a := .go) rfl rfl (.mutex (a := .go) rfl rfl (.mutex (a := .go) rfl rfl ?_))
    have hwake : Mutexee.futexWake sh.mutex.asleep none = some [] := if_pos hasleep
    refine .mutex (a := .wake none) rfl (congrArg (Option.map _) hwake) ?_
    exact h _ rfl rfl

/-- **A round with the mutex.** -/
theorem of_mutex (hfree : Free sh) (hty : sh.lockType = .mutex)
    (hnext : ∀ sh' : Shared Tid, Free sh' → sh'.multiprogramming = sh.multiprogramming →
      sh.multiprogramming = false ∧ sh'.queueTotal = 0 ∧ sh'.lockType = .ticket →
      Acquires cfg t sh' head (.readType false)) :
    Acquires cfg t sh head (.readType false) := by
  refine .go rfl rfl ?_
  dsimp only
  rw [hty]
  refine .mutex (a := .go) rfl rfl ?_
  dsimp only
  rw [if_pos hfree.locked]
  refine .go rfl rfl ?_
  dsimp only
  split <;> rename_i hmp
  · exact .check hty
  · refine .go rfl rfl ?_
    dsimp only
    rw [if_pos hty]
    refine .stores (.recheck nofun (.mutexUnlock hfree.asleep fun m hlocked hasleep => ?_))
    exact hnext _ ⟨hfree.ticket, hfree.next, hlocked, hasleep⟩ rfl
      ⟨Bool.eq_false_of_not_eq_true hmp, rfl, rfl⟩

/-! ## All rounds -/

/-- A total of zero is no contention. -/
theorem ratioHigh_zero (cfg : Config) : cfg.ratioHigh 0 = false := by
  unfold Config.ratioHigh
  split
  · rfl
  · rename_i h
    refine decide_eq_false ?_
    show ¬ 3 * cfg.sampleNum ≤ 0
    omega

/-- Once the ticket lock is not contended, the type stays. -/
theorem of_ticket_zero (hfree : Free sh) (hty : sh.lockType = .ticket)
    (hmp : sh.multiprogramming = false) (hzero : sh.queueTotal = 0) :
    Acquires cfg t sh head (.readType false) := by
  refine of_ticket hfree hty fun sh' _ _ hto => ?_
  rw [hmp, hzero, ratioHigh_zero] at hto
  exact absurd hto (by simp)

/-- Under multiprogramming, the mutex stays. -/
theorem of_mutex_mp (hfree : Free sh) (hty : sh.lockType = .mutex)
    (hmp : sh.multiprogramming = true) : Acquires cfg t sh head (.readType false) :=
  of_mutex hfree hty fun _ _ _ hto => nomatch hmp.symm.trans hto.1

/-- After the first round, the type is the one that stays. -/
theorem of_mcs_type (hfree : Free sh) (hready : Ready head) (hty : sh.lockType = .mcs) :
    Acquires cfg t sh head (.readType false) := by
  refine of_mcs hfree hready hty fun sh' hfree' hmp' hto => ?_
  rcases hto with ⟨hmp, hty'⟩ | ⟨hmp, hzero, hty'⟩
  · exact of_mutex_mp hfree' hty' (hmp'.trans hmp)
  · exact of_ticket_zero hfree' hty' (hmp'.trans hmp) hzero

/-- **A thread alone acquires.** -/
theorem acquires (hfree : Free sh) (hready : Ready head) :
    Acquires cfg t sh head (.readType false) := by
  cases hty : sh.lockType with
  | mcs => exact of_mcs_type hfree hready hty
  | ticket =>
      refine of_ticket hfree hty fun sh' hfree' hmp' hto => ?_
      rcases hto with ⟨hmp, hty'⟩ | ⟨-, -, hty'⟩
      · exact of_mutex_mp hfree' hty' (hmp'.trans hmp)
      · exact of_mcs_type hfree' hready hty'
  | mutex =>
      refine of_mutex hfree hty fun sh' hfree' hmp' hto => ?_
      exact of_ticket_zero hfree' hto.2.2 (hmp'.trans hto.1) hto.2.1

end GlkAlone
