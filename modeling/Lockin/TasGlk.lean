import Lockin.Interleaving
import Mathlib.Tactic

/-! # The test-and-set locks of GLS

    `tas_glk_impl.h` and `ttas_glk_impl.h` without hardware lock elision, and the inlined
    lock of `gls.c` (`gls_lock_tas_in`), which is a word of the table itself.  One word,
    any number of threads, one load, store, exchange or CAS per step.

    The three differ in how they wait and in the instruction that takes the lock (`Kind`).
    Whoever finds the word `FREE` owns the lock, and nobody else writes to it until the
    owner stores `FREE` again (`Held`). -/

namespace TasGlk

open Interleaving

/-- `tas_lock_t`, `ttas_lock_t`, or a word of the table. -/
inductive Kind where
  | tas
  | ttas
  | tasIn
  deriving DecidableEq

/-- `TAS_FREE`, `TTAS_FREE`, `GLS_TAS_FREE`. -/
def FREE : Nat := 0

/-- `TAS_LOCKED`, `TTAS_LOCKED`, `GLS_TAS_LOCKED`. -/
def LOCKED : Nat := 1

/-- Where a thread is. -/
inductive Pc where
  | idle
  | swap
  | spin
  | tryRead
  | trySwap
  | critical
  | unlock
  deriving DecidableEq

/-- The calls a thread may make; everything else is determined. -/
inductive Act where
  | lock
  | trylock
  | unlock
  | go

/-- `swap_uint32` to `LOCKED`, or (`GLS_CAS`) the exchange of `FREE` for `LOCKED`. -/
def exchange (kind : Kind) (word : Nat) : Nat :=
  if kind = .tasIn then if word = FREE then LOCKED else word else LOCKED

/-- `tas_lock_lock`, `ttas_lock_lock`, `gls_lock_tas_in`. -/
def lockLock (kind : Kind) (word : Nat) : Pc → Option (Nat × Pc)
  | .swap =>
      some (exchange kind word,
        if word = FREE then .critical else if kind = .ttas then .spin else .swap)
  | .spin => some (word, if word = FREE then .swap else .spin)
  | _ => none

/-- `tas_lock_trylock`, `ttas_lock_trylock`, `gls_trylock_tas_in`. -/
def lockTrylock (kind : Kind) (word : Nat) : Pc → Option (Nat × Pc)
  | .tryRead => some (word, if word = LOCKED then .idle else .trySwap)
  | .trySwap => some (exchange kind word, if word = FREE then .critical else .idle)
  | _ => none

/-- `tas_lock_unlock`, `ttas_lock_unlock`, `gls_unlock_tas_in`. -/
def lockUnlock : Pc → Option (Nat × Pc)
  | .unlock => some (FREE, .idle)
  | _ => none

/-- `tas_lock_is_free`, `ttas_lock_is_free`, and the same test in `gls_unlock_tas_in`. -/
def isFree (word : Nat) : Bool := word = FREE

/-- Start a call. -/
def call (kind : Kind) : Pc → Act → Option Pc
  | .idle, .lock => some .swap
  | .idle, .trylock => some (if kind = .ttas then .tryRead else .trySwap)
  | .critical, .unlock => some .unlock
  | _, _ => none

variable {Tid : Type}

/-- One step of a thread. -/
def prog (kind : Kind) : Prog Tid Nat Pc Act := fun _ word pc a =>
  match a with
  | .go =>
      match pc with
      | .idle | .critical => none
      | .swap | .spin => lockLock kind word pc
      | .tryRead | .trySwap => lockTrylock kind word pc
      | .unlock => lockUnlock pc
  | a => (call kind pc a).map fun pc' => (word, pc')

/-- The lock is free and nobody is in a call. -/
structure Init (c : Conf Tid Nat Pc) : Prop where
  free : c.sh = FREE
  idle : ∀ t, c.loc t = .idle

/-- The thread has the lock. -/
def Pc.holds : Pc → Bool
  | .critical => true
  | .unlock => true
  | _ => false

/-- The invariant: the word tells whether somebody has the lock. -/
structure Held (c : Conf Tid Nat Pc) : Prop where
  word : c.sh = FREE ∨ c.sh = LOCKED
  locked : ∀ t, (c.loc t).holds → c.sh = LOCKED
  unique : ∀ t u, (c.loc t).holds → (c.loc u).holds → t = u

/-- Before the first call. -/
theorem Init.held {c : Conf Tid Nat Pc} (h : Init c) : Held c where
  word := Or.inl h.free
  locked := by
    intro t ht
    simp [h.idle t, Pc.holds] at ht
  unique := by
    intro t u ht
    simp [h.idle t, Pc.holds] at ht

theorem exchange_eq {kind : Kind} {word : Nat} (h : word = FREE ∨ word = LOCKED) :
    exchange kind word = LOCKED := by
  unfold exchange
  rcases h with rfl | rfl <;> cases kind <;> rfl

/-- What a step does: it leaves the word and the owner alone, takes a free lock, or gives
    the lock back. -/
inductive Effect (word : Nat) (pc : Pc) (r : Nat × Pc) : Prop where
  | quiet : r.1 = word → r.2.holds = pc.holds → Effect word pc r
  | take : word = FREE → r.1 = LOCKED → r.2 = .critical → Effect word pc r
  | free : pc = .unlock → r.1 = FREE → r.2 = .idle → Effect word pc r

/-- **Inversion.** -/
theorem effect_of_prog {kind : Kind} {t : Tid} {word : Nat} {pc : Pc} {a : Act} {r : Nat × Pc}
    (hw : word = FREE ∨ word = LOCKED) (hs : prog kind t word pc a = some r) :
    Effect word pc r := by
  have hswap : ∀ pc', (pc = .swap ∨ pc = .trySwap) → pc'.holds = false →
      r = (exchange kind word, if word = FREE then .critical else pc') → Effect word pc r := by
    rintro pc' hpc hpc' rfl
    by_cases hfree : word = FREE
    · exact .take hfree (exchange_eq hw) (if_pos hfree)
    · refine .quiet ((exchange_eq hw).trans (hw.resolve_left hfree).symm) ?_
      dsimp only
      rw [if_neg hfree, hpc']
      rcases hpc with rfl | rfl <;> rfl
  cases a with
  | lock | trylock | unlock =>
      obtain ⟨pc', hcall, rfl⟩ := Option.map_eq_some_iff.mp hs
      refine .quiet rfl ?_
      cases pc <;> simp only [call, Option.some.injEq, reduceCtorEq] at hcall
      subst hcall
      first
        | rfl
        | cases kind <;> rfl
  | go =>
      cases pc with
      | idle | critical => exact nomatch hs
      | swap =>
          refine hswap (if kind = .ttas then .spin else .swap) (Or.inl rfl) ?_
            (Option.some.inj hs).symm
          split <;> rfl
      | trySwap => exact hswap .idle (Or.inr rfl) rfl (Option.some.inj hs).symm
      | spin =>
          obtain rfl := Option.some.inj hs
          refine .quiet rfl ?_
          dsimp only
          split <;> rfl
      | tryRead =>
          obtain rfl := Option.some.inj hs
          refine .quiet rfl ?_
          dsimp only
          split <;> rfl
      | unlock =>
          obtain rfl := Option.some.inj hs
          exact .free rfl rfl rfl

variable [DecidableEq Tid]

/-- **Step lemma.** -/
theorem Held.step {kind : Kind} {c : Conf Tid Nat Pc} (h : Held c) {t : Tid} {a : Act}
    {r : Nat × Pc} (hs : prog kind t c.sh (c.loc t) a = some r) : Held (c.put t r) := by
  have hone : ∀ u, c.sh = FREE → ¬ (c.loc u).holds := fun u hfree hu =>
    absurd (hfree.symm.trans (h.locked u hu)) (by decide)
  cases effect_of_prog h.word hs with
  | quiet hw hpc =>
      have hloc : ∀ u, ((c.put t r).loc u).holds = (c.loc u).holds := by
        intro u
        rw [put_loc]
        split
        · rename_i hu
          rw [hpc, hu]
        · rfl
      refine ⟨?_, fun u hu => ?_, fun u v hu hv => ?_⟩
      · rw [put_sh, hw]
        exact h.word
      · rw [hloc] at hu
        rw [put_sh, hw]
        exact h.locked u hu
      · rw [hloc] at hu hv
        exact h.unique u v hu hv
  | take hfree hw hpc =>
      have hown : ∀ u, ((c.put t r).loc u).holds → u = t := by
        intro u hu
        by_contra hne
        rw [put_loc_ne c r hne] at hu
        exact hone u hfree hu
      exact ⟨Or.inr hw, fun _ _ => hw, fun u v hu hv => (hown u hu).trans (hown v hv).symm⟩
  | free hpc hw hpc' =>
      have hnone : ∀ u, ¬ ((c.put t r).loc u).holds := by
        intro u hu
        by_cases hut : u = t
        · rw [hut, put_loc_self, hpc'] at hu
          exact nomatch hu
        · rw [put_loc_ne c r hut] at hu
          exact hut (h.unique u t hu (by rw [hpc]; rfl))
      exact ⟨Or.inl hw, fun u hu => absurd hu (hnone u), fun u _ hu => absurd hu (hnone u)⟩

/-- **Run lemma.** -/
theorem held_of_reach {kind : Kind} {ok : Conf Tid Nat Pc → Tid → Act → Prop}
    {init : Conf Tid Nat Pc → Prop} (hinit : ∀ c, init c → Held c) {c : Conf Tid Nat Pc}
    (hc : Reach (prog kind) ok init c) : Held c :=
  hc.invariant hinit fun _ _ _ _ h _ hs => h.step hs

end TasGlk
