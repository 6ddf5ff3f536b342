import Lockin.Counting
import Mathlib.Tactic

/-! # The sleep barrier

    `barrier_sleep_cross` of `sbarrier.c`, over a mutex and a condition variable as POSIX
    specifies them: `pthread_cond_wait` releases the mutex and starts to wait in one step,
    a broadcast ends the wait of everybody who waits, and a wait may end SPURIOUSLY.

    The wait is not in a loop, so a thread that returns spuriously leaves the barrier at
    once.  Without spurious returns the rounds are in order: `Round c k` describes a state
    in which `k` rounds have ended.  Whoever waits in round `k + 1` has been counted in
    `crossing`, and the thread that finds `crossing` complete ends the round for all of
    them before it lets go of the mutex. -/

namespace SleepBarrier

open Interleaving

/-- A `barrier_sleep_t`, with the owner of its mutex and the threads that wait on its
    condition variable. -/
structure Shared (Tid : Type) where
  count : Nat
  crossing : Nat
  owner : Option Tid
  asleep : List Tid

/-- Where a thread is. -/
inductive Pc where
  | outside
  | lock
  | loadCrossing
  | storeCrossing (crossing : Nat)
  /-- `b->crossing < b->count`. -/
  | test
  | wait
  /-- In `pthread_cond_wait`. -/
  | waiting
  | broadcast
  | reset
  | unlock
  deriving DecidableEq

/-- The memory of a thread. -/
structure Local where
  /-- History: the number of the round that the thread has entered last. -/
  round : Nat
  pc : Pc

/-- A call of `barrier_sleep_cross`, and the spurious return of a wait. -/
inductive Act where
  | enter
  | go
  | spurious
  deriving DecidableEq

variable {Tid : Type}

section

variable [DecidableEq Tid]

/-- `barrier_sleep_cross`. -/
def barrierSleepCross (t : Tid) (sh : Shared Tid) : Pc → Option (Shared Tid × Pc)
  | .outside => none
  | .lock => if sh.owner = none then some ({ sh with owner := some t }, .loadCrossing) else none
  | .loadCrossing => some (sh, .storeCrossing sh.crossing)
  | .storeCrossing crossing => some ({ sh with crossing := crossing + 1 }, .test)
  | .test => some (sh, if sh.crossing < sh.count then .wait else .broadcast)
  | .wait => some ({ sh with owner := none, asleep := t :: sh.asleep }, .waiting)
  | .waiting =>
      if t ∉ sh.asleep ∧ sh.owner = none then some ({ sh with owner := some t }, .unlock)
      else none
  | .broadcast => some ({ sh with asleep := [] }, .reset)
  | .reset => some ({ sh with crossing := 0 }, .unlock)
  | .unlock => some ({ sh with owner := none }, .outside)

/-- One step of a thread. -/
def prog : Prog Tid (Shared Tid) Local Act
  | _, sh, ⟨round, .outside⟩, .enter => some (sh, ⟨round + 1, .lock⟩)
  | t, sh, ⟨round, .waiting⟩, .spurious =>
      if t ∈ sh.asleep ∧ sh.owner = none then
        some ({ sh with owner := some t, asleep := sh.asleep.filter (· ≠ t) }, ⟨round, .unlock⟩)
      else none
  | t, sh, ⟨round, pc⟩, .go => (barrierSleepCross t sh pc).map fun r => (r.1, ⟨round, r.2⟩)
  | _, _, _, _ => none

end

/-- No wait returns spuriously. -/
def woken (_ : Conf Tid (Shared Tid) Local) (_ : Tid) (a : Act) : Prop := a ≠ .spurious

instance (c : Conf Tid (Shared Tid) Local) (t : Tid) (a : Act) : Decidable (woken c t a) :=
  inferInstanceAs (Decidable (_ ≠ _))

/-- `barrier_sleep_init` for all the threads, and nobody has entered. -/
structure Init [Fintype Tid] (c : Conf Tid (Shared Tid) Local) : Prop where
  count : c.sh.count = Fintype.card Tid
  crossing : c.sh.crossing = 0
  owner : c.sh.owner = none
  asleep : c.sh.asleep = []
  outside : ∀ t, c.loc t = ⟨0, .outside⟩

/-! ## Rounds -/

/-- Where a thread can be when `k` rounds have ended. -/
@[simp] def Place (k : Nat) (asleep : Prop) (round : Nat) : Pc → Prop
  | .outside => round = k ∧ ¬ asleep
  | .waiting => round = k + 1 ∧ asleep ∨ round = k ∧ ¬ asleep
  | .reset => round = k ∧ ¬ asleep
  | .unlock => round = k ∧ ¬ asleep
  | _ => round = k + 1 ∧ ¬ asleep

/-- The thread has the mutex. -/
@[simp] def Pc.holds : Pc → Bool
  | .outside => false
  | .lock => false
  | .waiting => false
  | _ => true

/-- The thread has been counted in round `k + 1`. -/
def Counted (k : Nat) (l : Local) : Prop :=
  match l.pc with
  | .test => True
  | .wait => True
  | .broadcast => True
  | .waiting => l.round = k + 1
  | _ => False

instance (k : Nat) (l : Local) : Decidable (Counted k l) := by
  unfold Counted
  split <;> infer_instance

/-- What the owner of the mutex knows about `crossing`, when `n` threads have been counted. -/
def Known (card n crossing : Nat) : Pc → Prop
  | .storeCrossing x => crossing = n ∧ x = n
  | .broadcast => n = card
  | .reset => n = 0
  | _ => crossing = n

variable [Fintype Tid]

/-- `k` rounds have ended. -/
structure Round (c : Conf Tid (Shared Tid) Local) (k : Nat) : Prop where
  participants : c.sh.count = Fintype.card Tid
  place : ∀ t, Place k (t ∈ c.sh.asleep) (c.loc t).round (c.loc t).pc
  owner : ∀ t, (c.loc t).pc.holds = true ↔ c.sh.owner = some t
  free : c.sh.owner = none → c.sh.crossing = c.count (Counted k)
  known : ∀ t, c.sh.owner = some t →
    Known (Fintype.card Tid) (c.count (Counted k)) c.sh.crossing (c.loc t).pc

theorem Init.round {c : Conf Tid (Shared Tid) Local} (h : Init c) : Round c 0 where
  participants := h.count
  place := by
    intro t
    rw [h.outside t, h.asleep]
    exact ⟨rfl, List.not_mem_nil⟩
  owner := by
    intro t
    rw [h.outside t, h.owner]
    exact iff_of_false nofun nofun
  free := by
    intro _
    rw [h.crossing]
    refine (count_eq_zero fun t => ?_).symm
    rw [h.outside t]
    exact id
  known := by
    intro t ht
    rw [h.owner] at ht
    exact nomatch ht

variable [DecidableEq Tid]

namespace Round

variable {c : Conf Tid (Shared Tid) Local} {k : Nat} {t : Tid} {n : Nat} {pc : Pc}

/-- A thread that is counted as before. -/
theorem count_same {r : Shared Tid × Local} (h : Counted k r.2 ↔ Counted k (c.loc t)) :
    (c.put t r).count (Counted k) = c.count (Counted k) := by
  have hput := count_put (P := Counted k) c t r
  simp only [h] at hput
  exact Nat.add_right_cancel hput

/-- **A step within a round**: the thread gets to `l`, `sh'` says who has the mutex, and
    if it is this thread or nobody, what is known about `crossing`. -/
theorem put (h : Round c k) {sh' : Shared Tid} {l : Local} (hcount : sh'.count = c.sh.count)
    (hplace : Place k (t ∈ sh'.asleep) l.round l.pc)
    (hasleep : ∀ u, u ≠ t → (u ∈ sh'.asleep ↔ u ∈ c.sh.asleep))
    (howner : l.pc.holds = true ↔ sh'.owner = some t)
    (hothers : ∀ u, u ≠ t → (sh'.owner = some u ↔ c.sh.owner = some u))
    (hfree : sh'.owner = none → sh'.crossing = (c.put t (sh', l)).count (Counted k))
    (hknown : sh'.owner = some t →
      Known (Fintype.card Tid) ((c.put t (sh', l)).count (Counted k)) sh'.crossing l.pc)
    (hstill : ∀ u, u ≠ t → c.sh.owner = some u →
      sh'.crossing = c.sh.crossing ∧ (Counted k l ↔ Counted k (c.loc t))) :
    Round (c.put t (sh', l)) k where
  participants := hcount.trans h.participants
  place := by
    intro u
    rw [put_loc, put_sh]
    split <;> rename_i hut
    · rw [hut]
      exact hplace
    · rw [hasleep u hut]
      exact h.place u
  owner := by
    intro u
    rw [put_loc, put_sh]
    split <;> rename_i hut
    · rw [hut]
      exact howner
    · rw [hothers u hut]
      exact h.owner u
  free := hfree
  known := by
    intro u hu
    rw [put_sh] at hu
    by_cases hut : u = t
    · subst hut
      rw [put_loc_self]
      exact hknown hu
    · have hown := (hothers u hut).mp hu
      obtain ⟨hcross, hcounted⟩ := hstill u hut hown
      rw [put_loc_ne c _ hut, put_sh, count_same hcounted, hcross]
      exact h.known u hown

omit [DecidableEq Tid] in
/-- The holder of the mutex is the only one. -/
theorem sole (h : Round c k) (hl : c.loc t = ⟨n, pc⟩) (hholds : pc.holds = true) (u : Tid)
    (hut : u ≠ t) : c.sh.owner ≠ some u := by
  intro hu
  have ht := (h.owner t).mp (by rw [hl]; exact hholds)
  exact hut (Option.some.inj (hu.symm.trans ht))

/-- The thread takes the mutex. -/
theorem acquire (h : Round c k) {pc' : Pc} (hl : c.loc t = ⟨n, pc⟩) (hfree : c.sh.owner = none)
    (hplace : Place k (t ∈ c.sh.asleep) n pc')
    (hcounted : Counted k ⟨n, pc'⟩ ↔ Counted k ⟨n, pc⟩) (hholds : pc'.holds = true)
    (hpc' : ∀ crossing, Known (Fintype.card Tid) crossing crossing pc') :
    Round (c.put t ({ c.sh with owner := some t }, ⟨n, pc'⟩)) k := by
  have hsame : (c.put t ({ c.sh with owner := some t }, ⟨n, pc'⟩)).count (Counted k)
      = c.count (Counted k) := count_same (by rw [hl]; exact hcounted)
  refine h.put rfl hplace (fun _ _ => Iff.rfl) (iff_of_true hholds rfl) (fun u hut => ?_) nofun
    (fun _ => ?_) fun u _ hu => ?_
  · rw [hfree]
    exact iff_of_false (fun hu => hut (Option.some.inj hu).symm) nofun
  · rw [hsame]
    show Known _ _ c.sh.crossing pc'
    rw [h.free hfree]
    exact hpc' _
  · rw [hfree] at hu
    exact nomatch hu

/-- The thread goes on with the mutex. -/
theorem goOn (h : Round c k) {pc' : Pc} {sh' : Shared Tid} (hl : c.loc t = ⟨n, pc⟩)
    (hholds : pc.holds = true) (hholds' : pc'.holds = true) (hcount : sh'.count = c.sh.count)
    (hasleep : sh'.asleep = c.sh.asleep) (howner : sh'.owner = c.sh.owner)
    (hplace : Place k (t ∈ c.sh.asleep) n pc')
    (hknown : Known (Fintype.card Tid) ((c.put t (sh', ⟨n, pc'⟩)).count (Counted k))
      sh'.crossing pc') : Round (c.put t (sh', ⟨n, pc'⟩)) k := by
  have ht : c.sh.owner = some t := (h.owner t).mp (by rw [hl]; exact hholds)
  refine h.put hcount ?_ (fun u _ => by rw [hasleep]) ?_ (fun u _ => by rw [howner])
    (fun hnone => ?_) (fun _ => hknown) fun u hut hu => absurd hu (h.sole hl hholds u hut)
  · rw [hasleep]
    exact hplace
  · rw [howner]
    exact iff_of_true hholds' ht
  · rw [howner, ht] at hnone
    exact nomatch hnone

/-- The thread releases the mutex, and may start to wait. -/
theorem release (h : Round c k) {pc' : Pc} {asleep : List Tid} (hl : c.loc t = ⟨n, pc⟩)
    (hholds : pc.holds = true) (hholds' : pc'.holds = false)
    (hplace : Place k (t ∈ asleep) n pc')
    (hasleep : ∀ u, u ≠ t → (u ∈ asleep ↔ u ∈ c.sh.asleep))
    (hcounted : Counted k ⟨n, pc'⟩ ↔ Counted k ⟨n, pc⟩)
    (hknown : Known (Fintype.card Tid) (c.count (Counted k)) c.sh.crossing pc →
      c.sh.crossing = c.count (Counted k)) :
    Round (c.put t ({ c.sh with owner := none, asleep := asleep }, ⟨n, pc'⟩)) k := by
  have ht : c.sh.owner = some t := (h.owner t).mp (by rw [hl]; exact hholds)
  have hsame : (c.put t ({ c.sh with owner := none, asleep := asleep }, ⟨n, pc'⟩)).count
      (Counted k) = c.count (Counted k) := count_same (by rw [hl]; exact hcounted)
  refine h.put rfl hplace hasleep (iff_of_false (by rw [hholds']; exact nofun) nofun)
    (fun u hut => iff_of_false nofun (h.sole hl hholds u hut)) (fun _ => ?_) nofun
    fun u hut hu => absurd hu (h.sole hl hholds u hut)
  rw [hsame]
  have hown := h.known t ht
  rw [hl] at hown
  exact hknown hown

/-- **The broadcast ends the round**: everybody has been counted in it, and is woken. -/
theorem finish (h : Round c k) (hl : c.loc t = ⟨n, .broadcast⟩) :
    Round (c.put t ({ c.sh with asleep := [] }, ⟨n, .reset⟩)) (k + 1) := by
  have ht : c.sh.owner = some t := (h.owner t).mp (by rw [hl]; rfl)
  have hall : c.count (Counted k) = Fintype.card Tid := by
    have := h.known t ht
    rwa [hl] at this
  have hcounted : ∀ u, Counted k (c.loc u) := by
    intro u
    by_contra hu
    have := count_lt_card hu
    omega
  have hround : n = k + 1 := by
    have := h.place t
    rw [hl] at this
    exact this.1
  -- the others are in their waits
  have hothers : ∀ u, u ≠ t → c.loc u = ⟨k + 1, .waiting⟩ := by
    intro u hut
    have hu := hcounted u
    have hno : (c.loc u).pc.holds = false := by
      by_contra hholds
      exact h.sole hl rfl u hut ((h.owner u).mp (Bool.eq_true_of_not_eq_false hholds))
    generalize c.loc u = l at hu hno
    obtain ⟨m, pc⟩ := l
    cases pc with
    | waiting =>
        have hm : m = k + 1 := hu
        rw [hm]
    | outside => cases hu
    | lock => cases hu
    | _ => cases hno
  have hzero : (c.put t ({ c.sh with asleep := [] }, ⟨n, .reset⟩)).count (Counted (k + 1)) = 0 := by
    refine count_eq_zero fun u => ?_
    rw [put_loc]
    split <;> rename_i hut
    · exact id
    · rw [hothers u hut]
      show ¬ k + 1 = k + 1 + 1
      omega
  constructor
  · exact h.participants
  · intro u
    rw [put_loc, put_sh]
    split <;> rename_i hut
    · exact ⟨hround, List.not_mem_nil⟩
    · rw [hothers u hut]
      exact Or.inr ⟨rfl, List.not_mem_nil⟩
  · intro u
    rw [put_loc, put_sh]
    split <;> rename_i hut
    · rw [hut]
      exact iff_of_true rfl ht
    · rw [hothers u hut]
      exact iff_of_false nofun (h.sole hl rfl u hut)
  · intro hnone
    exact nomatch ht.symm.trans hnone
  · intro u hu
    obtain rfl : t = u := Option.some.inj (ht.symm.trans hu)
    rw [put_loc_self]
    exact hzero

/-- **Every step keeps the rounds in order.** -/
theorem step (h : Round c k) {a : Act} {r : Shared Tid × Local} (hok : woken c t a)
    (hs : prog t c.sh (c.loc t) a = some r) : ∃ k', Round (c.put t r) k' := by
  obtain ⟨n, pc, hl⟩ : ∃ n pc, c.loc t = ⟨n, pc⟩ := ⟨_, _, rfl⟩
  have hplace : Place k (t ∈ c.sh.asleep) n pc := by
    have := h.place t
    rwa [hl] at this
  have hknown : pc.holds = true →
      Known (Fintype.card Tid) (c.count (Counted k)) c.sh.crossing pc := by
    intro hholds
    have := h.known t ((h.owner t).mp (by rw [hl]; exact hholds))
    rwa [hl] at this
  rw [hl] at hs
  cases a with
  | spurious => exact absurd rfl hok
  | enter =>
      cases pc with
      | outside =>
          obtain rfl := Option.some.inj hs
          have hne : c.sh.owner ≠ some t := fun hown => by
            have := (h.owner t).mpr hown
            rw [hl] at this
            exact nomatch this
          have hcounted : Counted k ⟨n + 1, .lock⟩ ↔ Counted k (c.loc t) := by
            rw [hl]
            exact iff_of_false id id
          refine ⟨k, h.put rfl ⟨congrArg (· + 1) hplace.1, hplace.2⟩ (fun _ _ => Iff.rfl)
            (iff_of_false nofun hne) (fun _ _ => Iff.rfl) (fun hnone => ?_)
            (fun hown => absurd hown hne) fun _ _ _ => ⟨rfl, hcounted⟩⟩
          rw [count_same hcounted]
          exact h.free hnone
      | _ => exact nomatch hs
  | go =>
      have hmap :
          (barrierSleepCross t c.sh pc).map (fun r => (r.1, (⟨n, r.2⟩ : Local))) = some r := by
        rw [← hs]
        cases pc <;> rfl
      obtain ⟨⟨sh', pc'⟩, hcross, rfl⟩ := Option.map_eq_some_iff.mp hmap
      cases pc with
      | outside => exact nomatch hcross
      | lock =>
          obtain ⟨hfree, hr⟩ := Option.ite_none_right_eq_some.mp hcross
          obtain ⟨rfl, rfl⟩ := Prod.mk.inj (Option.some.inj hr)
          exact ⟨k, h.acquire hl hfree hplace Iff.rfl rfl fun _ => rfl⟩
      | loadCrossing =>
          obtain ⟨rfl, rfl⟩ := Prod.mk.inj (Option.some.inj hcross)
          have hsame : (c.put t (c.sh, ⟨n, .storeCrossing c.sh.crossing⟩)).count (Counted k)
              = c.count (Counted k) := count_same (by rw [hl]; exact Iff.rfl)
          refine ⟨k, h.goOn hl rfl rfl rfl rfl rfl hplace ?_⟩
          rw [hsame]
          exact ⟨hknown rfl, hknown rfl⟩
      | storeCrossing x =>
          obtain ⟨rfl, rfl⟩ := Prod.mk.inj (Option.some.inj hcross)
          obtain ⟨-, hx⟩ := hknown rfl
          -- the thread counts itself, in the field and among the counted
          have hmore := count_put (P := Counted k) c t
            ({ c.sh with crossing := x + 1 }, ⟨n, .test⟩)
          rw [hl, if_neg (fun hc : Counted k ⟨n, .storeCrossing x⟩ => hc),
            if_pos (show Counted k ⟨n, .test⟩ from trivial)] at hmore
          refine ⟨k, h.goOn hl rfl rfl rfl rfl rfl hplace ?_⟩
          have hx' : x + 1 = (c.put t ({ c.sh with crossing := x + 1 }, ⟨n, .test⟩)).count
              (Counted k) := by omega
          exact hx'
      | test =>
          obtain ⟨rfl, rfl⟩ := Prod.mk.inj (Option.some.inj hcross)
          have hcross : c.sh.crossing = c.count (Counted k) := hknown rfl
          split <;> rename_i hmore
          · have hsame : (c.put t (c.sh, ⟨n, .wait⟩)).count (Counted k) = c.count (Counted k) :=
              count_same (by rw [hl]; exact Iff.rfl)
            refine ⟨k, h.goOn hl rfl rfl rfl rfl rfl hplace ?_⟩
            rw [hsame]
            exact hcross
          · have hsame : (c.put t (c.sh, ⟨n, .broadcast⟩)).count (Counted k)
                = c.count (Counted k) := count_same (by rw [hl]; exact Iff.rfl)
            refine ⟨k, h.goOn hl rfl rfl rfl rfl rfl hplace ?_⟩
            rw [hsame]
            -- it is the last one
            show c.count (Counted k) = Fintype.card Tid
            have hle := count_le_card (P := Counted k) c
            have := h.participants
            omega
      | wait =>
          obtain ⟨rfl, rfl⟩ := Prod.mk.inj (Option.some.inj hcross)
          refine ⟨k, h.release hl rfl rfl (Or.inl ⟨hplace.1, List.mem_cons_self⟩) (fun u hut => ?_)
            (iff_of_true hplace.1 trivial) id⟩
          rw [List.mem_cons, or_iff_right hut]
      | waiting =>
          obtain ⟨⟨hwoken, hfree⟩, hr⟩ := Option.ite_none_right_eq_some.mp hcross
          obtain ⟨rfl, rfl⟩ := Prod.mk.inj (Option.some.inj hr)
          -- only the broadcast wakes, so that its round has ended
          have hround : n = k := by
            rcases hplace with ⟨-, hasleep⟩ | ⟨hn, -⟩
            · exact absurd hasleep hwoken
            · exact hn
          refine ⟨k, h.acquire hl hfree ⟨hround, hwoken⟩ (iff_of_false id fun hc => ?_) rfl
            fun _ => rfl⟩
          have : n = k + 1 := hc
          omega
      | broadcast =>
          obtain ⟨rfl, rfl⟩ := Prod.mk.inj (Option.some.inj hcross)
          exact ⟨k + 1, h.finish hl⟩
      | reset =>
          obtain ⟨rfl, rfl⟩ := Prod.mk.inj (Option.some.inj hcross)
          have hsame : (c.put t ({ c.sh with crossing := 0 }, ⟨n, .unlock⟩)).count (Counted k)
              = c.count (Counted k) := count_same (by rw [hl]; exact Iff.rfl)
          refine ⟨k, h.goOn hl rfl rfl rfl rfl rfl hplace ?_⟩
          rw [hsame]
          exact (hknown rfl).symm
      | unlock =>
          obtain ⟨rfl, rfl⟩ := Prod.mk.inj (Option.some.inj hcross)
          exact ⟨k, h.release hl rfl rfl hplace (fun _ _ => Iff.rfl) Iff.rfl id⟩

/-- Some number of rounds has ended in every state reached. -/
theorem reach (hc : Reach prog woken Init c) : ∃ k, Round c k :=
  hc.invariant (I := fun c => ∃ k, Round c k) (fun _ h0 => ⟨0, h0.round⟩)
    fun _ _ _ _ ⟨_, h⟩ hok hs => h.step hok hs

end Round

/-! ## Safety -/

/-- The number of rounds that the thread has left. -/
def Local.left (l : Local) : Nat := if l.pc = .outside then l.round else l.round - 1

/-- Nobody leaves a round before everybody has entered it, and when somebody has left it,
    nobody waits for it any more. -/
def Safe (c : Conf Tid (Shared Tid) Local) : Prop :=
  ∀ k t, 0 < k → k ≤ (c.loc t).left →
    (∀ u, k ≤ (c.loc u).round) ∧ ∀ u, u ∈ c.sh.asleep → (c.loc u).round ≠ k

/-- **The sleep barrier**, for any number of threads and rounds: when no wait returns
    spuriously, nobody leaves a round before everybody has entered it, and nobody is left
    waiting for a round that has been crossed. -/
theorem barrierSleep_safe {c : Conf Tid (Shared Tid) Local} (hc : Reach prog woken Init c) :
    Safe c := by
  obtain ⟨n, h⟩ := Round.reach hc
  intro k t hpos hk
  have hround : ∀ u, n ≤ (c.loc u).round ∧ (c.loc u).left ≤ n ∧
      (u ∈ c.sh.asleep → (c.loc u).round = n + 1) := by
    intro u
    have hplace := h.place u
    generalize c.loc u = l at hplace
    obtain ⟨m, pc⟩ := l
    cases pc with
    | outside =>
        obtain ⟨hm, hno⟩ := hplace
        exact ⟨hm.ge, hm.le, fun hu => absurd hu hno⟩
    | waiting =>
        have hm : m = n + 1 ∨ m = n := hplace.imp And.left And.left
        refine ⟨?_, ?_, fun hu => hplace.elim And.left fun hno => absurd hu hno.2⟩
        · show n ≤ m
          omega
        · show m - 1 ≤ n
          omega
    | _ =>
        have hm : m = n + 1 ∨ m = n := by first | exact Or.inl hplace.1 | exact Or.inr hplace.1
        refine ⟨?_, ?_, fun hu => absurd hu hplace.2⟩
        · show n ≤ m
          omega
        · show m - 1 ≤ n
          omega
  have hle := (hround t).2.1
  refine ⟨fun u => ?_, fun u hu => ?_⟩
  · have := (hround u).1
    omega
  · have := (hround u).2.2 hu
    omega

/-- Two threads outside. -/
def start : Conf (Fin 2) (Shared (Fin 2)) Local := ⟨⟨2, 0, none, []⟩, fun _ => ⟨0, .outside⟩⟩

theorem start_init : Init start := by constructor <;> simp [start]

/-- Both threads cross the barrier. -/
def cross : List (Fin 2 × Act) :=
  (0, .enter) :: List.replicate 5 (0, .go) ++ (1, .enter) :: List.replicate 7 (1, .go)
    ++ List.replicate 2 (0, .go)

theorem barrierSleep_safe_cross : ∃ c : Conf (Fin 2) (Shared (Fin 2)) Local,
    exec prog woken start cross = some c ∧ (c.loc 0).left = 1 ∧ (c.loc 1).left = 1 ∧ Safe c := by
  obtain ⟨c, hc, h0, h1⟩ : ∃ c : Conf (Fin 2) (Shared (Fin 2)) Local,
      exec prog woken start cross = some c ∧ (c.loc 0).left = 1 ∧ (c.loc 1).left = 1 :=
    ⟨_, rfl, rfl, rfl⟩
  exact ⟨c, hc, h0, h1, barrierSleep_safe (reach_of_exec start_init hc)⟩

/-- Thread 0 enters and its wait returns spuriously. -/
def leaveAlone : List (Fin 2 × Act) :=
  (0, .enter) :: List.replicate 5 (0, .go) ++ [(0, .spurious), (0, .go)]

/-- **A spurious return breaks the barrier**: thread 0 leaves round 1, which thread 1 has not
    entered. -/
theorem barrierSleep_unsafe : ¬ ∀ c : Conf (Fin 2) (Shared (Fin 2)) Local,
    Reach prog always Init c → Safe c := by
  intro h
  obtain ⟨c, hc, hleft, hround⟩ : ∃ c : Conf (Fin 2) (Shared (Fin 2)) Local,
      exec prog always start leaveAlone = some c ∧ (c.loc 0).left = 1 ∧ (c.loc 1).round = 0 :=
    ⟨_, rfl, rfl, rfl⟩
  have hall := (h c (reach_of_exec start_init hc) 1 0 Nat.one_pos hleft.ge).1 1
  omega

end SleepBarrier
