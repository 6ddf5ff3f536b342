import Lockin.Counting
import Mathlib.Tactic

/-! # The sense barrier

    `sbarrier.c`: one `barrier_t` and the threads that meet at it, each of which calls
    `barrier_wait` once per round, one load, store or read-modify-write per step.

    A round ends when the last thread to arrive flips `sense_global`.  A thread derives
    the sense it waits for from the global one when it enters, so a fast thread may be in
    the next round, and have decremented `crossed_n`, while slow ones still spin on the
    previous one.  `Round c k` describes a state in which `k` rounds have ended: every
    thread is in round `k`, on its way out, or in round `k + 1`, on its way in. -/

namespace SenseBarrier

open Interleaving

/-- A `barrier_t`. -/
structure Shared (Tid : Type) where
  participantN : BitVec 64
  crossedN : BitVec 64
  senseGlobal : Bool
  senseLocal : Tid → Bool

/-- Where a thread is; `sense` is its variable `sense_local`. -/
inductive Pc where
  | outside
  | readSense
  | subCrossed (sense : Bool)
  | resetCrossed (sense : Bool)
  | storeSense (sense : Bool)
  | spin (sense : Bool)
  | storeLocal (sense : Bool)
  deriving DecidableEq

/-- The memory of a thread. -/
structure Local where
  /-- History: the number of the round that the thread has entered last. -/
  round : Nat
  pc : Pc

/-- A call of `barrier_wait`; everything else is determined. -/
inductive Act where
  | enter
  | go

variable {Tid : Type}

section

variable [DecidableEq Tid]

/-- `barrier_wait`. -/
def barrierWait (t : Tid) (sh : Shared Tid) : Pc → Option (Shared Tid × Pc)
  | .readSense => some (sh, .subCrossed (!sh.senseGlobal))
  | .subCrossed s =>
      some ({ sh with crossedN := sh.crossedN - 1 },
        if sh.crossedN = 1 then .resetCrossed s else .spin s)
  | .resetCrossed s => some ({ sh with crossedN := sh.participantN }, .storeSense s)
  | .storeSense s => some ({ sh with senseGlobal := s }, .storeLocal s)
  | .spin s => some (sh, if s ≠ sh.senseGlobal then .spin s else .storeLocal s)
  | .storeLocal s =>
      some ({ sh with senseLocal := Function.update sh.senseLocal t (!s) }, .outside)
  | .outside => none

/-- One step of a thread. -/
def prog : Prog Tid (Shared Tid) Local Act
  | _, sh, ⟨round, .outside⟩, .enter => some (sh, ⟨round + 1, .readSense⟩)
  | t, sh, ⟨round, pc⟩, .go => (barrierWait t sh pc).map fun r => (r.1, ⟨round, r.2⟩)
  | _, _, _, _ => none

end

/-- `BARRIER_PARTICIPANT_MAX`. -/
abbrev participantMax : Nat := 105

variable [Fintype Tid]

/-- `barrier_init` for all the threads, and nobody has entered. -/
structure Init (c : Conf Tid (Shared Tid) Local) : Prop where
  participantN : c.sh.participantN = BitVec.ofNat 64 (Fintype.card Tid)
  crossedN : c.sh.crossedN = BitVec.ofNat 64 (Fintype.card Tid)
  senseGlobal : c.sh.senseGlobal = true
  senseLocal : ∀ t, c.sh.senseLocal t = false
  outside : ∀ t, c.loc t = ⟨0, .outside⟩

/-! ## Rounds -/

/-- Where a thread can be when `k` rounds have ended. -/
@[simp] def Place (sense : Bool) (k round : Nat) : Pc → Prop
  | .outside => round = k
  | .readSense => round = k + 1
  | .subCrossed s => round = k + 1 ∧ s = !sense
  | .resetCrossed s => round = k + 1 ∧ s = !sense
  | .storeSense s => round = k + 1 ∧ s = !sense
  | .spin s => round = k + 1 ∧ s = !sense ∨ round = k ∧ s = sense
  | .storeLocal _ => round = k

/-- The thread is in the loop of `barrier_wait`. -/
@[simp] def Pc.inLoop : Pc → Bool
  | .outside => false
  | .readSense => false
  | .subCrossed _ => false
  | .resetCrossed _ => false
  | .storeSense _ => false
  | .spin _ => true
  | .storeLocal _ => false

/-- The thread is the last one of its round, and has not flipped the sense yet. -/
@[simp] def Pc.last : Pc → Bool
  | .outside => false
  | .readSense => false
  | .subCrossed _ => false
  | .resetCrossed _ => true
  | .storeSense _ => true
  | .spin _ => false
  | .storeLocal _ => false

/-- The thread waits for the end of round `k + 1`. -/
def Arrived (k : Nat) (l : Local) : Prop := l.round = k + 1 ∧ l.pc.inLoop

theorem Arrived.not_last {k : Nat} {l : Local} (h : Arrived k l) : ¬ l.pc.last := by
  obtain ⟨round, pc⟩ := l
  cases pc <;> simp_all [Arrived]

instance (k : Nat) (l : Local) : Decidable (Arrived k l) :=
  inferInstanceAs (Decidable (_ ∧ _))

/-- How many threads have arrived in round `k + 1`. -/
def arrivals (c : Conf Tid (Shared Tid) Local) (k : Nat) : Nat :=
  c.count (Arrived k)

/-- `k` rounds have ended. -/
structure Round (c : Conf Tid (Shared Tid) Local) (k : Nat) : Prop where
  participants : c.sh.participantN = BitVec.ofNat 64 (Fintype.card Tid)
  place : ∀ t, Place c.sh.senseGlobal k (c.loc t).round (c.loc t).pc
  count : (∀ t, ¬ (c.loc t).pc.last) →
    c.sh.crossedN = BitVec.ofNat 64 (Fintype.card Tid - arrivals c k)
  last : ∀ t, (c.loc t).pc.last → ∀ u, u ≠ t → Arrived k (c.loc u)
  reset : ∀ t s, (c.loc t).pc = .storeSense s →
    c.sh.crossedN = BitVec.ofNat 64 (Fintype.card Tid)
  missing : ∃ t, ¬ Arrived k (c.loc t)

variable [DecidableEq Tid]

/-- A step of a thread that stays where it is with respect to its arrival. -/
theorem arrivals_put {c : Conf Tid (Shared Tid) Local} {t : Tid} {r : Shared Tid × Local}
    {k : Nat} (h : Arrived k r.2 ↔ Arrived k (c.loc t)) :
    arrivals (c.put t r) k = arrivals c k := by
  have hput := count_put (P := Arrived k) c t r
  simp only [h] at hput
  exact Nat.add_right_cancel hput

/-- One more thread arrives. -/
theorem arrivals_arrive {c : Conf Tid (Shared Tid) Local} {t : Tid} {r : Shared Tid × Local}
    {k : Nat} (hbefore : ¬ Arrived k (c.loc t)) (hafter : Arrived k r.2) :
    arrivals (c.put t r) k = arrivals c k + 1 := by
  have hput := count_put (P := Arrived k) c t r
  rwa [if_neg hbefore, if_pos hafter] at hput

namespace Round

variable {c : Conf Tid (Shared Tid) Local} {k : Nat} {t : Tid} {n : Nat} {pc pc' : Pc}

/-- As long as somebody has not arrived, nobody is last. -/
theorem not_last (h : Round c k) (ht : ¬ Arrived k (c.loc t)) (hl : ¬ (c.loc t).pc.last)
    (u : Tid) : ¬ (c.loc u).pc.last := by
  intro hu
  by_cases hut : u = t
  · rw [hut] at hu
    exact hl hu
  · exact ht (h.last u hu t (Ne.symm hut))

/-- A thread that has not arrived moves on, without arriving or being last. -/
theorem quiet (h : Round c k) (ht : ¬ Arrived k (c.loc t)) (hl : ¬ (c.loc t).pc.last)
    {sh' : Shared Tid} {l : Local} (hpart : sh'.participantN = c.sh.participantN)
    (hcross : sh'.crossedN = c.sh.crossedN) (hsense : sh'.senseGlobal = c.sh.senseGlobal)
    (hplace : Place c.sh.senseGlobal k l.round l.pc) (harr : ¬ Arrived k l) (hl' : ¬ l.pc.last) :
    Round (c.put t (sh', l)) k where
  participants := hpart.trans h.participants
  place := by
    intro u
    show Place sh'.senseGlobal k ((c.put t (sh', l)).loc u).round ((c.put t (sh', l)).loc u).pc
    rw [hsense, put_loc]
    split
    · exact hplace
    · exact h.place u
  count := by
    intro _
    show sh'.crossedN = _
    rw [hcross, arrivals_put (iff_of_false harr ht)]
    exact h.count (h.not_last ht hl)
  last := by
    intro u hu
    rw [put_loc] at hu
    split at hu
    · exact absurd hu hl'
    · exact absurd hu (h.not_last ht hl u)
  reset := by
    intro u s hu
    rw [put_loc] at hu
    split at hu
    · rw [hu] at hl'
      simp at hl'
    · have := h.not_last ht hl u
      rw [hu] at this
      simp at this
  missing := ⟨t, by rwa [put_loc_self]⟩

/-- The decrement of `crossed_n`. -/
theorem sub (h : Round c k) (hcard : Fintype.card Tid < 2 ^ 64) {s : Bool}
    (hl : c.loc t = ⟨n, .subCrossed s⟩) :
    Round (c.put t ({ c.sh with crossedN := c.sh.crossedN - 1 },
      ⟨n, if c.sh.crossedN = 1 then .resetCrossed s else .spin s⟩)) k := by
  have ht : ¬ Arrived k (c.loc t) := by simp [Arrived, hl]
  have hnl : ¬ (c.loc t).pc.last := by simp [hl]
  have hcount := h.count (h.not_last ht hnl)
  obtain ⟨hround, hsense⟩ : n = k + 1 ∧ s = !c.sh.senseGlobal := by
    have := h.place t
    rwa [hl] at this
  have hlt : arrivals c k < Fintype.card Tid := count_lt_card ht
  have hone : c.sh.crossedN = 1 ↔ arrivals c k + 1 = Fintype.card Tid := by
    rw [hcount]
    constructor
    · intro heq
      have heq' : BitVec.toNat (BitVec.ofNat 64 (Fintype.card Tid - arrivals c k)) = 1 :=
        congrArg BitVec.toNat heq
      rw [BitVec.toNat_ofNat, Nat.mod_eq_of_lt (by omega)] at heq'
      omega
    · intro heq
      rw [show Fintype.card Tid - arrivals c k = 1 by omega]
      rfl
  by_cases hlast : c.sh.crossedN = 1
  · rw [if_pos hlast]
    -- everybody else has arrived
    have hothers : ∀ u, u ≠ t → Arrived k (c.loc u) :=
      fun u => others_of_count ht (hone.mp hlast)
    constructor
    · exact h.participants
    · intro u
      rw [put_loc]
      split
      · exact ⟨hround, hsense⟩
      · exact h.place u
    · intro hno
      have := hno t
      rw [put_loc_self] at this
      simp at this
    · intro u hu v hvu
      have hut : u = t := by
        by_contra hne
        rw [put_loc_ne c _ hne] at hu
        exact h.not_last ht hnl u hu
      rw [put_loc_ne c _ (hut ▸ hvu)]
      exact hothers v (hut ▸ hvu)
    · intro u s' hu
      rw [put_loc] at hu
      split at hu
      · simp at hu
      · have := h.not_last ht hnl u
        rw [hu] at this
        simp at this
    · exact ⟨t, by rw [put_loc_self]; simp [Arrived]⟩
  · rw [if_neg hlast]
    have harr : Arrived k (⟨n, .spin s⟩ : Local) := ⟨hround, rfl⟩
    have hmore : arrivals c k + 1 < Fintype.card Tid := by
      have := hone.not.mp hlast
      omega
    have hput : arrivals (c.put t ({ c.sh with crossedN := c.sh.crossedN - 1 }, ⟨n, .spin s⟩)) k
        = arrivals c k + 1 := arrivals_arrive ht harr
    constructor
    · exact h.participants
    · intro u
      rw [put_loc]
      split
      · exact Or.inl ⟨hround, hsense⟩
      · exact h.place u
    · intro _
      show c.sh.crossedN - 1 = _
      rw [hput, hcount]
      rw [show Fintype.card Tid - arrivals c k = (Fintype.card Tid - (arrivals c k + 1)) + 1 by
        omega, BitVec.ofNat_add]
      exact BitVec.add_sub_cancel ..
    · intro u hu
      rw [put_loc] at hu
      split at hu
      · simp at hu
      · exact absurd hu (h.not_last ht hnl u)
    · intro u s' hu
      rw [put_loc] at hu
      split at hu
      · simp at hu
      · have := h.not_last ht hnl u
        rw [hu] at this
        simp at this
    · refine exists_not_of_count_lt ?_
      show arrivals _ k < _
      omega

/-- The last thread of a round resets `crossed_n`. -/
theorem resetCounter (h : Round c k) {s : Bool} (hl : c.loc t = ⟨n, .resetCrossed s⟩) :
    Round (c.put t ({ c.sh with crossedN := c.sh.participantN }, ⟨n, .storeSense s⟩)) k := by
  have hothers : ∀ u, u ≠ t → Arrived k (c.loc u) := h.last t (by rw [hl]; rfl)
  have hplace : Place c.sh.senseGlobal k n (.resetCrossed s) := by
    have := h.place t
    rwa [hl] at this
  constructor
  · exact h.participants
  · intro u
    rw [put_loc]
    split
    · exact hplace
    · exact h.place u
  · intro hno
    have := hno t
    rw [put_loc_self] at this
    exact absurd rfl this
  · intro u hu v hvu
    have hut : u = t := by
      by_contra hne
      rw [put_loc_ne c _ hne] at hu
      exact Arrived.not_last (hothers u hne) hu
    rw [put_loc_ne c _ (hut ▸ hvu)]
    exact hothers v (hut ▸ hvu)
  · intro _ _ _
    exact h.participants
  · exact ⟨t, by rw [put_loc_self]; simp [Arrived]⟩

/-- **The flip ends the round**: everybody else has been waiting for it. -/
theorem flip (h : Round c k) {s : Bool} (hl : c.loc t = ⟨n, .storeSense s⟩) :
    Round (c.put t ({ c.sh with senseGlobal := s }, ⟨n, .storeLocal s⟩)) (k + 1) := by
  have hothers : ∀ u, u ≠ t → Arrived k (c.loc u) := h.last t (by rw [hl]; rfl)
  obtain ⟨hround, hsense⟩ : n = k + 1 ∧ s = !c.sh.senseGlobal := by
    have := h.place t
    rwa [hl] at this
  have hnext : ∀ u, ¬ Arrived (k + 1)
      ((c.put t ({ c.sh with senseGlobal := s }, ⟨n, .storeLocal s⟩)).loc u) := by
    intro u
    rw [put_loc]
    split
    · simp [Arrived]
    · rename_i hut
      have := (hothers u hut).1
      intro hu
      have := hu.1
      omega
  constructor
  · exact h.participants
  · intro u
    rw [put_loc]
    split
    · exact hround
    · rename_i hut
      obtain ⟨hru, hlu⟩ := hothers u hut
      have hpu := h.place u
      cases hpc : (c.loc u).pc <;> rw [hpc] at hlu hpu <;> simp only [Pc.inLoop] at hlu
      · contradiction
      · contradiction
      · contradiction
      · contradiction
      · contradiction
      · rename_i s'
        rcases hpu with ⟨-, hs'⟩ | ⟨hold, -⟩
        · exact Or.inr ⟨hru, hs'.trans hsense.symm⟩
        · omega
      · contradiction
  · intro _
    have hnone : arrivals (c.put t ({ c.sh with senseGlobal := s }, ⟨n, .storeLocal s⟩)) (k + 1)
        = 0 := count_eq_zero hnext
    rw [hnone]
    exact h.reset t s (by rw [hl])
  · intro u hu
    rw [put_loc] at hu
    split at hu
    · simp at hu
    · rename_i hut
      exact absurd hu (hothers u hut).not_last
  · intro _ _ _
    exact h.reset t s (by rw [hl])
  · exact ⟨t, hnext t⟩

/-- **Every step keeps the rounds in order.** -/
theorem step (h : Round c k) (hcard : Fintype.card Tid < 2 ^ 64) {a : Act}
    {r : Shared Tid × Local} (hs : prog t c.sh (c.loc t) a = some r) :
    ∃ k', Round (c.put t r) k' := by
  obtain ⟨n, pc, hl⟩ : ∃ n pc, c.loc t = ⟨n, pc⟩ := ⟨_, _, rfl⟩
  have hplace : Place c.sh.senseGlobal k n pc := by
    have := h.place t
    rwa [hl] at this
  rw [hl] at hs
  cases pc with
  | outside =>
      cases a <;> simp only [prog, barrierWait, Option.map_none, reduceCtorEq,
        Option.some.injEq] at hs
      subst hs
      refine ⟨k, h.quiet ?_ ?_ rfl rfl rfl ?_ ?_ ?_⟩
      · simp [Arrived, hl]
      · simp [hl]
      · exact congrArg (· + 1) hplace
      · simp [Arrived]
      · simp
  | readSense =>
      cases a <;> simp only [prog, barrierWait, Option.map_some, reduceCtorEq,
        Option.some.injEq] at hs
      subst hs
      refine ⟨k, h.quiet ?_ ?_ rfl rfl rfl ?_ ?_ ?_⟩
      · simp [Arrived, hl]
      · simp [hl]
      · exact ⟨hplace, rfl⟩
      · simp [Arrived]
      · simp
  | subCrossed s =>
      cases a <;> simp only [prog, barrierWait, Option.map_some, reduceCtorEq,
        Option.some.injEq] at hs
      subst hs
      exact ⟨k, h.sub hcard hl⟩
  | resetCrossed s =>
      cases a <;> simp only [prog, barrierWait, Option.map_some, reduceCtorEq,
        Option.some.injEq] at hs
      subst hs
      exact ⟨k, h.resetCounter hl⟩
  | storeSense s =>
      cases a <;> simp only [prog, barrierWait, Option.map_some, reduceCtorEq,
        Option.some.injEq] at hs
      subst hs
      exact ⟨k + 1, h.flip hl⟩
  | spin s =>
      cases a <;> simp only [prog, barrierWait, Option.map_some, reduceCtorEq,
        Option.some.injEq] at hs
      subst hs
      by_cases hsense : s = c.sh.senseGlobal
      · -- the round that the thread waits for has ended
        have hround : n = k := by
          rcases hplace with ⟨-, hother⟩ | ⟨hround, -⟩
          · simp [hsense] at hother
          · exact hround
        rw [if_neg (not_not.mpr hsense)]
        refine ⟨k, h.quiet ?_ ?_ rfl rfl rfl ?_ ?_ ?_⟩
        · simp [Arrived, hl, hround]
        · simp [hl]
        · exact hround
        · simp [Arrived]
        · simp
      · rw [if_pos hsense, ← hl, put_self]
        exact ⟨k, h⟩
  | storeLocal s =>
      cases a <;> simp only [prog, barrierWait, Option.map_some, reduceCtorEq,
        Option.some.injEq] at hs
      subst hs
      refine ⟨k, h.quiet ?_ ?_ rfl rfl rfl ?_ ?_ ?_⟩
      · simp [Arrived, hl]
      · simp [hl]
      · exact hplace
      · simp [Arrived]
      · simp

omit [DecidableEq Tid] in
/-- No round has ended yet. -/
theorem init [Nonempty Tid] (h : Init c) : Round c 0 := by
  have harr : ∀ t, ¬ Arrived 0 (c.loc t) := fun t => by simp [Arrived, h.outside t]
  have hnl : ∀ t, ¬ (c.loc t).pc.last := fun t => by simp [h.outside t]
  constructor
  · exact h.participantN
  · intro t
    rw [h.outside t]
    rfl
  · intro _
    have hnone : arrivals c 0 = 0 := count_eq_zero harr
    rw [hnone]
    exact h.crossedN
  · exact fun t ht => absurd ht (hnl t)
  · intro t s ht
    rw [h.outside t] at ht
    cases ht
  · exact ⟨Classical.arbitrary Tid, harr _⟩

/-- **Every reachable state is between two rounds.** -/
theorem reach [Nonempty Tid] (hcard : Fintype.card Tid < 2 ^ 64)
    (h : Reach prog always Init c) : ∃ k, Round c k :=
  Reach.invariant (fun _ h0 => Exists.intro 0 (init h0))
    (fun _ _ _ _ ⟨_, hk⟩ _ hs => hk.step hcard hs) h

omit [DecidableEq Tid] in
/-- A thread is in round `k` or in round `k + 1`. -/
theorem round_bounds (h : Round c k) (t : Tid) :
    k ≤ (c.loc t).round ∧ (c.loc t).round ≤ k + 1 := by
  have := h.place t
  cases hpc : (c.loc t).pc <;> rw [hpc] at this <;> simp only [Place] at this <;> omega

omit [DecidableEq Tid] in
theorem outside (h : Round c k) (ht : (c.loc t).pc = .outside) : (c.loc t).round = k := by
  have := h.place t
  rwa [ht] at this

/-- A thread that has left the barrier sees how many have arrived since. -/
theorem crossedN (h : Round c k) (ht : (c.loc t).pc = .outside) :
    c.sh.crossedN = BitVec.ofNat 64 (Fintype.card Tid - arrivals c k) := by
  refine h.count (h.not_last (t := t) ?_ ?_)
  · simp [Arrived, ht]
  · simp [ht]

end Round

/-! ## Safety -/

/-- The thread has left the barrier for the `k`-th time. -/
def Left (k : Nat) (l : Local) : Prop := k < l.round ∨ k = l.round ∧ l.pc = .outside

/-- The thread spins: it is in the loop, and the condition of the loop holds. -/
def Spins (sh : Shared Tid) (l : Local) : Prop := ∃ s, l.pc = .spin s ∧ s ≠ sh.senseGlobal

/-- **Safety of the sense barrier**, in runs with any number of rounds.  A thread that has
    left round `k` has seen everybody enter round `k`; when it does, `crossed_n` is the
    number of threads minus the ones that wait in round `k + 1` already, so all of them
    before anybody enters; and never do all the threads spin. -/
theorem barrierWait_safe [Nonempty Tid] (hmax : Fintype.card Tid ≤ participantMax)
    {c : Conf Tid (Shared Tid) Local} (h : Reach prog always Init c) :
    (∀ k t u, Left k (c.loc t) → k ≤ (c.loc u).round) ∧
    (∀ t, (c.loc t).pc = .outside →
      c.sh.crossedN = BitVec.ofNat 64 (Fintype.card Tid - arrivals c (c.loc t).round)) ∧
    (∀ t, (c.loc t).pc = .outside → (∀ u, (c.loc u).round ≤ (c.loc t).round) →
      c.sh.crossedN = BitVec.ofNat 64 (Fintype.card Tid)) ∧
    ¬ ∀ t, Spins c.sh (c.loc t) := by
  obtain ⟨K, hK⟩ := Round.reach (hmax.trans_lt (by decide)) h
  refine ⟨?_, ?_, ?_, ?_⟩
  · rintro k t u (hlt | ⟨rfl, hout⟩)
    · have := (hK.round_bounds t).2
      have := (hK.round_bounds u).1
      omega
    · rw [hK.outside hout]
      exact (hK.round_bounds u).1
  · intro t hout
    rw [hK.outside hout]
    exact hK.crossedN hout
  · intro t hout hmax
    rw [hK.outside hout] at hmax
    have hnone : arrivals c K = 0 := by
      refine count_eq_zero fun u hu => ?_
      have := hmax u
      have := hu.1
      omega
    rw [hK.crossedN hout, hnone]
    rfl
  · intro hall
    obtain ⟨t, ht⟩ := hK.missing
    obtain ⟨s, hpc, hs⟩ := hall t
    have hplace := hK.place t
    rw [hpc] at hplace
    rcases hplace with ⟨hround, -⟩ | ⟨-, hsame⟩
    · exact ht ⟨hround, by rw [hpc]; rfl⟩
    · exact hs hsame

/-- A barrier for two threads. -/
def start : Conf (Fin 2) (Shared (Fin 2)) Local where
  sh := ⟨2, 2, true, fun _ => false⟩
  loc _ := ⟨0, .outside⟩

theorem start_init : Init start := by
  constructor
  · rfl
  · rfl
  · rfl
  · exact fun _ => rfl
  · exact fun _ => rfl

/-- Thread 0 arrives first; thread 1 ends the round and waits in the next one while thread
    0 is still in the loop of the first. -/
def overtake : List (Fin 2 × Act) :=
  [(0, .enter), (0, .go), (0, .go), (0, .go), (1, .enter), (1, .go), (1, .go), (1, .go),
    (1, .go), (1, .go), (1, .enter), (1, .go), (1, .go)]

theorem barrierWait_safe_overtake :
    ∃ c : Conf (Fin 2) (Shared (Fin 2)) Local,
      exec prog always start overtake = some c ∧
      c.loc 0 = ⟨1, .spin false⟩ ∧ c.loc 1 = ⟨2, .spin true⟩ ∧
      (∀ k t u, Left k (c.loc t) → k ≤ (c.loc u).round) ∧
      (∀ t, (c.loc t).pc = .outside →
        c.sh.crossedN = BitVec.ofNat 64 (Fintype.card (Fin 2) - arrivals c (c.loc t).round)) ∧
      (∀ t, (c.loc t).pc = .outside → (∀ u, (c.loc u).round ≤ (c.loc t).round) →
        c.sh.crossedN = BitVec.ofNat 64 (Fintype.card (Fin 2))) ∧
      ¬ ∀ t, Spins c.sh (c.loc t) := by
  obtain ⟨c, hc, h0, h1⟩ : ∃ c : Conf (Fin 2) (Shared (Fin 2)) Local,
      exec prog always start overtake = some c ∧
      c.loc 0 = ⟨1, .spin false⟩ ∧ c.loc 1 = ⟨2, .spin true⟩ := ⟨_, rfl, rfl, rfl⟩
  exact ⟨c, hc, h0, h1, barrierWait_safe (by decide) (reach_of_exec start_init hc)⟩

end SenseBarrier
