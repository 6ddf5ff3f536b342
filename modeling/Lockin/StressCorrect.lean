import Lockin.Counting
import Lockin.GlsLocks

/-! # The stress test of the locks

    `test_correctness` of `bmarks/stress_correct_in.c`: threads that increment a counter under
    a lock, seven times out of eight after a lock and else after a trylock, until the main
    thread sets `stop`, and that count their own increments.  The lock is any of the models of
    `GlsLocks`; a load and a store of the counter are two steps.

    The counter is the sum of what the threads have counted, but for the increments that are
    not counted yet (`stress_correct`), so the test never prints that the lock is wrong. -/

namespace StressCorrect

open Interleaving GlsLocks

variable {Tid : Type}

/-- Where a thread is. -/
inductive Stage where
  /-- `stop == 0`, and `iter++ & 7`. -/
  | check
  /-- About to call a function of the lock. -/
  | enter (f : Fn)
  | inside (f : Fn)
  | load
  | store (n : BitVec 64)
  /-- `d->num_acquires++`. -/
  | count
  | done
  deriving DecidableEq

structure Shared (Sh : Type) where
  lock : Sh
  counter : BitVec 64
  stop : Bool

structure Local (Lc : Type) where
  stage : Stage
  iter : BitVec 64
  numAcquires : BitVec 64
  loc : Lc

/-- The steps of the test, those of the lock, and the main thread. -/
inductive Act (A : Type) where
  | go
  | inner (a : A)
  | stop

section

variable [DecidableEq Tid] (M : LockModel Tid)

/-- After the return of a function of the lock; a trylock returns 0 when it has the lock. -/
def returned (l : M.Lc) : Fn → Stage
  | .lock => .load
  | .trylock => if M.place l = .critical then .load else .check
  | .unlock => .count

/-- After a step of the lock that leads to `l'`. -/
def settle (stage : Stage) (l' : M.Lc) : Stage :=
  match stage with
  | .inside f => if M.place l' = .inside f then .inside f else returned M l' f
  | stage => stage

/-- `test_correctness`. -/
def testCorrectness (t : Tid) (sh : Shared M.Sh) (l : Local M.Lc) :
    Stage → Option (Shared M.Sh × Local M.Lc)
  | .check =>
      if sh.stop then some (sh, { l with stage := .done })
      else some (sh, { l with
        stage := .enter (if l.iter &&& 7 ≠ 0 then .lock else .trylock)
        iter := l.iter + 1 })
  | .enter f =>
      (M.prog t sh.lock l.loc (M.start f)).map fun r =>
        ({ sh with lock := r.1 }, { l with stage := .inside f, loc := r.2 })
  | .load => some (sh, { l with stage := .store sh.counter })
  | .store n => some ({ sh with counter := n + 1 }, { l with stage := .enter .unlock })
  | .count => some (sh, { l with stage := .check, numAcquires := l.numAcquires + 1 })
  | .inside _ => none
  | .done => none

/-- One step of a thread. -/
def prog : Prog Tid (Shared M.Sh) (Local M.Lc) (Act M.Act) := fun t sh l a =>
  match a with
  | .go => testCorrectness M t sh l l.stage
  | .inner a =>
      if M.starts a then none
      else (M.prog t sh.lock l.loc a).map fun r =>
        ({ sh with lock := r.1 }, { l with stage := settle M l.stage r.2, loc := r.2 })
  | .stop => some ({ sh with stop := true }, l)

/-- The threads are about to start. -/
structure Init (c : Conf Tid (Shared M.Sh) (Local M.Lc)) : Prop where
  created : M.created c.sh.lock
  counter : c.sh.counter = 0
  stage : ∀ t, (c.loc t).stage = .check
  numAcquires : ∀ t, (c.loc t).numAcquires = 0
  unused : ∀ t, M.unused (c.loc t).loc

/-- The lock with its threads. -/
abbrev lockView (c : Conf Tid (Shared M.Sh) (Local M.Lc)) : Conf Tid M.Sh M.Lc :=
  c.view Shared.lock fun _ => Local.loc

/-- The steps of the lock are such that it is a lock. -/
def Ok (c : Conf Tid (Shared M.Sh) (Local M.Lc)) (t : Tid) : Act M.Act → Prop
  | .inner a => M.ok (lockView M c) t a
  | _ => True

end

/-- The increments of a thread that it has not counted. -/
def Stage.pending : Stage → Nat
  | .enter .unlock => 1
  | .inside .unlock => 1
  | .count => 1
  | _ => 0

/-- `acquires` of the main thread. -/
def acquires [Fintype Tid] {Sh Lc : Type} (c : Conf Tid (Shared Sh) (Local Lc)) : BitVec 64 :=
  BitVec.ofNat 64 (c.total fun l => l.numAcquires.toNat)

/-! ## One step -/

section

variable [DecidableEq Tid] {M : LockModel Tid} {t : Tid} {sh : Shared M.Sh} {l : Local M.Lc}
  {r : Shared M.Sh × Local M.Lc}

/-- Where a thread that stands there is with the lock. -/
def Stage.place : Stage → Place
  | .check => .idle
  | .enter f => f.from
  | .inside f => .inside f
  | .load => .critical
  | .store _ => .critical
  | .count => .idle
  | .done => .idle

/-- Between the load and the store. -/
def Stage.loaded : Stage → Option (BitVec 64)
  | .store n => some n
  | _ => none

/-- A step of the lock keeps the thread where its stage says, and does not count. -/
theorem settle_spec {l' : M.Lc} {taken : Bool} {stage : Stage}
    (hplace : M.place l.loc = stage.place) (hflow : Flow taken (M.place l.loc) (M.place l')) :
    M.place l' = (settle M stage l').place ∧ (settle M stage l').pending = stage.pending ∧
      (settle M stage l').loaded = stage.loaded := by
  rw [hplace] at hflow
  cases stage with
  | inside f =>
      obtain hsame | hto := hflow
      · have heq : settle M (.inside f) l' = .inside f := if_pos hsame
        rw [heq]
        exact ⟨hsame, rfl, rfl⟩
      · have hne : M.place l' ≠ .inside f := by
          rw [hto]
          cases f <;> cases taken <;> simp
        have heq : settle M (.inside f) l' = returned M l' f := if_neg hne
        rw [heq]
        cases f with
        | lock | unlock => exact ⟨hto, rfl, rfl⟩
        | trylock =>
            cases taken with
            | true =>
                have hidle : M.place l' = .idle := hto
                have hret : returned M l' .trylock = .check := if_neg (by simp [hidle])
                rw [hret]
                exact ⟨hidle, rfl, rfl⟩
            | false =>
                have hcritical : M.place l' = .critical := hto
                have hret : returned M l' .trylock = .load := if_pos hcritical
                rw [hret]
                exact ⟨hcritical, rfl, rfl⟩
  | enter f => cases f <;> exact ⟨hflow, rfl, rfl⟩
  | check | load | store n | count | done => exact ⟨hflow, rfl, rfl⟩

end

/-! ## Every run -/

section

variable [DecidableEq Tid] [Fintype Tid] {M : LockModel Tid}
  {c : Conf Tid (Shared M.Sh) (Local M.Lc)} {t : Tid} {r : Shared M.Sh × Local M.Lc}

/-- What a thread has incremented. -/
def Local.share {Lc : Type} (l : Local Lc) : Nat := l.numAcquires.toNat + l.stage.pending

/-- The counter is what the threads have incremented, and nobody has overtaken a load. -/
structure Inv (M : LockModel Tid) (c : Conf Tid (Shared M.Sh) (Local M.Lc)) : Prop where
  lock : Reach M.prog M.ok M.Init (lockView M c)
  place : ∀ t, M.place (c.loc t).loc = (c.loc t).stage.place
  loaded : ∀ t n, (c.loc t).stage.loaded = some n → n = c.sh.counter
  sum : c.sh.counter = BitVec.ofNat 64 (c.total Local.share)

/-- Before the first call. -/
theorem Init.inv (h : Init M c) : Inv M c := by
  refine ⟨.start ⟨h.created, h.unused⟩, fun t => ?_, fun t n hn => ?_, ?_⟩
  · rw [h.stage t]
    exact M.unused_idle _ (h.unused t)
  · rw [h.stage t] at hn
    cases hn
  · have hzero : c.total Local.share = 0 := total_eq_zero fun t => by
      rw [Local.share, h.numAcquires t, h.stage t]
      rfl
    rw [h.counter, hzero]
    rfl

/-- A step of a thread adds to the sum what it adds to the share of the thread. -/
theorem sum_put {d : BitVec 64} (hsum : c.sh.counter = BitVec.ofNat 64 (c.total Local.share))
    (hshare : BitVec.ofNat 64 r.2.share = BitVec.ofNat 64 (c.loc t).share + d)
    (hcounter : r.1.counter = c.sh.counter + d) :
    (c.put t r).sh.counter = BitVec.ofNat 64 ((c.put t r).total Local.share) := by
  have hput := congrArg (BitVec.ofNat 64) (total_put c Local.share t r)
  rw [BitVec.ofNat_add, BitVec.ofNat_add, hshare, ← hsum] at hput
  have hswap : c.sh.counter + (BitVec.ofNat 64 (c.loc t).share + d)
      = (c.sh.counter + d) + BitVec.ofNat 64 (c.loc t).share := by
    rw [BitVec.add_comm (BitVec.ofNat 64 (c.loc t).share) d, BitVec.add_assoc]
  rw [hswap] at hput
  exact hcounter.trans ((BitVec.add_left_inj _).mp hput).symm

/-- A step that stores nothing. -/
theorem Inv.quiet (h : Inv M c) (hcounter : r.1.counter = c.sh.counter)
    (hlock : Follows M.prog M.ok (lockView M c) t (r.1.lock, r.2.loc))
    (hplace : M.place r.2.loc = r.2.stage.place)
    (hloaded : ∀ n, r.2.stage.loaded = some n → n = c.sh.counter)
    (hshare : BitVec.ofNat 64 r.2.share = BitVec.ofNat 64 (c.loc t).share) : Inv M (c.put t r) := by
  refine ⟨h.lock.view_put hlock, fun u => ?_, fun u n hn => ?_, ?_⟩
  · rw [put_loc]
    split
    · exact hplace
    · exact h.place u
  · rw [put_sh, hcounter]
    rw [put_loc] at hn
    split at hn
    · exact hloaded n hn
    · exact h.loaded u n hn
  · refine sum_put (d := 0#64) h.sum ?_ ?_
    · rw [hshare, BitVec.add_zero]
    · rw [hcounter, BitVec.add_zero]

/-- The store, by the thread that has the lock. -/
theorem Inv.store (h : Inv M c) {n : BitVec 64} (hstage : (c.loc t).stage = .store n) :
    Inv M (c.put t ({ c.sh with counter := n + 1 },
      { c.loc t with stage := .enter .unlock })) := by
  have hcritical : M.place (c.loc t).loc = .critical := by rw [h.place t, hstage]; rfl
  obtain rfl : n = c.sh.counter := h.loaded t n (by rw [hstage]; rfl)
  refine ⟨h.lock.view_put (Or.inl rfl), fun u => ?_, fun u m hm => ?_, ?_⟩
  · rw [put_loc]
    split
    · exact hcritical
    · exact h.place u
  · rw [put_loc] at hm
    split at hm
    · cases hm
    · next hut =>
      -- somebody else would have the lock too
      have hu : M.place (c.loc u).loc = .critical := by
        rw [h.place u]
        revert hm
        cases (c.loc u).stage <;> intro hm <;> first | rfl | cases hm
      exact absurd (M.unique h.lock hu hcritical) hut
  · refine sum_put (d := 1#64) h.sum ?_ rfl
    rw [Local.share, Local.share, hstage]
    exact BitVec.ofNat_add _ 1

/-- **Step lemma.** -/
theorem Inv.step (h : Inv M c) {a : Act M.Act} (hok : Ok M c t a)
    (hs : prog M t c.sh (c.loc t) a = some r) : Inv M (c.put t r) := by
  have hplace := h.place t
  cases a with
  | stop =>
      obtain rfl := Option.some.inj hs
      exact h.quiet rfl (Or.inl rfl) hplace (h.loaded t) rfl
  | inner a =>
      obtain ⟨ha, hs⟩ := Option.ite_none_left_eq_some.mp hs
      obtain ⟨r', hstep, rfl⟩ := Option.map_eq_some_iff.mp hs
      obtain ⟨hplace', hpending, hloaded⟩ :=
        settle_spec hplace (M.step _ _ _ _ _ (Bool.not_eq_true _ ▸ ha) hstep)
      refine h.quiet rfl (Or.inr ⟨a, hok, hstep⟩) hplace' (fun n hn => ?_) ?_
      · exact h.loaded t n (hloaded.symm.trans hn)
      · rw [Local.share, Local.share, hpending]
  | go =>
      dsimp only [prog] at hs
      cases hstage : (c.loc t).stage with
      | check =>
          rw [hstage] at hs hplace
          dsimp only [testCorrectness] at hs
          split at hs <;> obtain rfl := Option.some.inj hs
          · refine h.quiet rfl (Or.inl rfl) hplace (by simp [Stage.loaded]) ?_
            rw [Local.share, Local.share, hstage]
            rfl
          · refine h.quiet rfl (Or.inl rfl) ?_ (by simp [Stage.loaded]) ?_
            · rw [hplace]
              dsimp only
              split <;> rfl
            · rw [Local.share, Local.share, hstage]
              dsimp only
              split <;> rfl
      | enter f =>
          rw [hstage] at hs hplace
          obtain ⟨r', hstep, rfl⟩ := Option.map_eq_some_iff.mp hs
          obtain ⟨hfrom, hin⟩ := M.start_step _ _ _ _ _ hstep
          refine h.quiet rfl (Or.inr ⟨_, M.ok_start _ _ _ hfrom, hstep⟩) hin
            (by simp [Stage.loaded]) ?_
          rw [Local.share, Local.share, hstage]
          cases f <;> rfl
      | load =>
          rw [hstage] at hs hplace
          obtain rfl := Option.some.inj hs
          refine h.quiet rfl (Or.inl rfl) hplace (fun n hn => (Option.some.inj hn).symm) ?_
          rw [Local.share, Local.share, hstage]
          rfl
      | store n =>
          rw [hstage] at hs
          obtain rfl := Option.some.inj hs
          exact h.store hstage
      | count =>
          rw [hstage] at hs hplace
          obtain rfl := Option.some.inj hs
          refine h.quiet rfl (Or.inl rfl) hplace (by simp [Stage.loaded]) ?_
          rw [Local.share, Local.share, hstage]
          show BitVec.ofNat 64 ((c.loc t).numAcquires + 1).toNat
            = BitVec.ofNat 64 ((c.loc t).numAcquires.toNat + 1)
          rw [BitVec.ofNat_toNat, BitVec.ofNat_add, BitVec.ofNat_toNat, BitVec.setWidth_eq,
            BitVec.setWidth_eq]
          rfl
      | inside f | done =>
          rw [hstage] at hs
          cases hs

/-- **No increment is lost.**  In every run of any number of threads on any of the locks, the
    counter is what the threads have counted and the increments that they have still to count;
    when every thread is done, the counter is what the main thread expects. -/
theorem stress_correct (h : Reach (prog M) (Ok M) (Init M) c) :
    c.sh.counter = acquires c + BitVec.ofNat 64 (c.total fun l => l.stage.pending) ∧
      ((∀ t, (c.loc t).stage = .done) → c.sh.counter = acquires c) := by
  have hinv : Inv M c := h.invariant (fun _ h0 => h0.inv) fun _ _ _ _ hc hok hs => hc.step hok hs
  have hsum : c.sh.counter = acquires c + BitVec.ofNat 64 (c.total fun l => l.stage.pending) := by
    rw [hinv.sum, acquires, ← BitVec.ofNat_add]
    exact congrArg (BitVec.ofNat 64)
      (total_add c (fun l => l.numAcquires.toNat) fun l => l.stage.pending)
  refine ⟨hsum, fun hdone => ?_⟩
  have hnone : c.total (fun l => l.stage.pending) = 0 := total_eq_zero fun t => by
    rw [hdone t]
    rfl
  rw [hsum, hnone]
  exact BitVec.add_zero _

end

/-- The lock of the schedule. -/
abbrev ttas : LockModel Bool := tas .ttas

/-- Two threads are about to start. -/
def start : Conf Bool (Shared ttas.Sh) (Local ttas.Lc) :=
  ⟨⟨TasGlk.FREE, 0, false⟩, fun _ => ⟨.check, 0, 0, .idle⟩⟩

theorem start_init : Init ttas start := ⟨rfl, rfl, fun _ => rfl, fun _ => rfl, fun _ => rfl⟩

instance (c : Conf Bool (Shared ttas.Sh) (Local ttas.Lc)) (t : Bool) :
    (a : Act ttas.Act) → Decidable (Ok ttas c t a)
  | .inner _ => isTrue trivial
  | .go => isTrue trivial
  | .stop => isTrue trivial

/-- A step of the lock. -/
abbrev inner : Act ttas.Act := .inner TasGlk.Act.go

/-- One thread gets the lock by its trylock, the trylock of the other one fails and its lock
    waits; both increment once. -/
def contended : List (Bool × Act ttas.Act) :=
  [(true, .go), (true, .go), (true, inner), (true, inner),
    (false, .go), (false, .go), (false, inner), (false, .go), (false, .go), (false, inner),
    (true, .go), (true, .go), (true, .go), (true, inner), (false, inner), (false, inner),
    (false, .go), (true, .go), (false, .go), (false, .go), (false, inner), (false, .go),
    (true, .stop), (true, .go), (false, .go)]

theorem stress_correct_contended : ∃ c : Conf Bool (Shared ttas.Sh) (Local ttas.Lc),
    exec (prog ttas) (Ok ttas) start contended = some c ∧ (∀ t, (c.loc t).stage = .done) ∧
      c.sh.counter = 2 ∧ c.sh.counter = acquires c := by
  obtain ⟨c, hx, hdone, hcounter⟩ : ∃ c : Conf Bool (Shared ttas.Sh) (Local ttas.Lc),
      exec (prog ttas) (Ok ttas) start contended = some c ∧ (∀ t, (c.loc t).stage = .done) ∧
        c.sh.counter = 2 := by
    refine ⟨_, rfl, ?_, rfl⟩
    decide
  have hreach : Reach (prog ttas) (Ok ttas) (Init ttas) c := reach_of_exec start_init hx
  exact ⟨c, hx, hdone, hcounter, (stress_correct hreach).2 hdone⟩

end StressCorrect
