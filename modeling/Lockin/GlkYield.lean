import Lockin.Glk

/-! # When a waiter of the adaptive lock yields

    The spin loops of `glk_mcs_lock_lock` and `glk_ticket_lock_lock`.  Both count their
    iterations, and an iteration yields when the count is EXACTLY 1024 and
    `multiprogramming` is set; only then the count starts again.  In every other iteration
    it is incremented, so a waiter that finds the flag unset when its count is 1024 counts
    on, and is due again only after the counter has wrapped round.

    The loop is run over the states of the lock that the waiter finds, one for each
    iteration.  The iterations in which it is due are `due`, and `yields_iff` says that
    it yields in those of them in which the flag is set. -/

namespace GlkYield

open Glk

/-! ## The loops -/

/-- `(n_spins++ == 1024) && gls_is_multiprogramming()`: the new count, and whether the
    waiter yields. -/
def spinIteration (nSpins : BitVec 64) (multiprogramming : Bool) : BitVec 64 × Bool :=
  if nSpins = 1024 ∧ multiprogramming = true then (0, true) else (nSpins + 1, false)

variable {Tid : Type}

/-- What a waiter waits for: its node, or its ticket. -/
inductive Waiter (Tid : Type) where
  | mcs (node : Node Tid)
  | ticket (ticket : BitVec 32)

/-- The test that ends the loop: `local->waiting != 0`, or `distance == 0`. -/
def Waiter.done (w : Waiter Tid) (sh : Shared Tid) : Bool :=
  match w with
  | .mcs node => !sh.mcs.waiting node
  | .ticket myTicket => myTicket - sh.ticket.head = 0

/-- The loop, with the state of the lock in each iteration: for every iteration, whether
    the waiter yields. -/
def Waiter.spin (w : Waiter Tid) (nSpins : BitVec 64) : List (Shared Tid) → List Bool
  | [] => []
  | sh :: shs =>
      if w.done sh then []
      else
        let r := spinIteration nSpins sh.multiprogramming
        r.2 :: w.spin r.1 shs

/-- The values of `multiprogramming` in the iterations. -/
def Waiter.observed (w : Waiter Tid) : List (Shared Tid) → List Bool
  | [] => []
  | sh :: shs => if w.done sh then [] else sh.multiprogramming :: w.observed shs

/-! ## The counter -/

/-- The flag in iteration `i`. -/
def flag (mps : List Bool) (i : Nat) : Bool := mps.getD i false

/-- The count before iteration `i`. -/
def count (mps : List Bool) (nSpins : BitVec 64) : Nat → BitVec 64
  | 0 => nSpins
  | i + 1 => (spinIteration (count mps nSpins i) (flag mps i)).1

/-- One more iteration. -/
theorem count_cons (mp : Bool) (mps : List Bool) (nSpins : BitVec 64) (i : Nat) :
    count (mp :: mps) nSpins (i + 1) = count mps (spinIteration nSpins mp).1 i := by
  induction i with
  | zero => rfl
  | succ i ih =>
      show (spinIteration (count (mp :: mps) nSpins (i + 1)) (flag mps i)).1 = _
      rw [ih]
      rfl

/-- There is an answer for every iteration. -/
theorem spin_length (w : Waiter Tid) (nSpins : BitVec 64) (shs : List (Shared Tid)) :
    (w.spin nSpins shs).length = (w.observed shs).length := by
  induction shs generalizing nSpins with
  | nil => rfl
  | cons sh shs ih =>
      rw [Waiter.spin, Waiter.observed]
      split
      · rfl
      · exact congrArg (· + 1) (ih _)

/-- The answer of iteration `i`. -/
theorem spin_getD (w : Waiter Tid) (nSpins : BitVec 64) (shs : List (Shared Tid)) (i : Nat) :
    (w.spin nSpins shs).getD i false
      = (spinIteration (count (w.observed shs) nSpins i) (flag (w.observed shs) i)).2 := by
  induction shs generalizing nSpins i with
  | nil =>
      show false = _
      unfold spinIteration
      rw [if_neg fun h => Bool.false_ne_true h.2]
  | cons sh shs ih =>
      rw [Waiter.spin, Waiter.observed]
      split
      · show false = _
        unfold spinIteration
        rw [if_neg fun h => Bool.false_ne_true h.2]
      · cases i with
        | zero => rfl
        | succ i =>
            rw [count_cons]
            exact ih _ i

/-- An iteration yields at a count of 1024 in a multiprogrammed system. -/
theorem spinIteration_yields {nSpins : BitVec 64} {mp : Bool} :
    (spinIteration nSpins mp).2 = true ↔ nSpins = 1024 ∧ mp = true := by
  unfold spinIteration
  split <;> rename_i h
  · exact iff_of_true rfl h
  · exact iff_of_false Bool.false_ne_true h

section

variable {mps : List Bool} {nSpins : BitVec 64} {i : Nat}

/-- After a yield the count starts again. -/
theorem count_yield (hcount : count mps nSpins i = 1024) (hflag : flag mps i = true) :
    (count mps nSpins (i + 1)).toNat = 0 := by
  rw [count, spinIteration, if_pos ⟨hcount, hflag⟩]
  rfl

/-- Any other iteration counts. -/
theorem count_succ (h : ¬ (count mps nSpins i = 1024 ∧ flag mps i = true)) :
    (count mps nSpins (i + 1)).toNat = ((count mps nSpins i).toNat + 1) % 2 ^ 64 := by
  rw [count, spinIteration, if_neg h, BitVec.toNat_add]
  rfl

/-- As long as the count is not 1024, it is the number of iterations. -/
theorem count_add {n : Nat} (hn : (count mps nSpins i).toNat = n) {j : Nat}
    (hj : ∀ k, k < j → (n + k) % 2 ^ 64 ≠ 1024) :
    (count mps nSpins (i + j)).toNat = (n + j) % 2 ^ 64 := by
  induction j with
  | zero =>
      have := (count mps nSpins i).isLt
      rw [Nat.add_zero, Nat.add_zero, hn, Nat.mod_eq_of_lt (hn ▸ this)]
  | succ j ih =>
      have hprev := ih fun k hk => hj k (by omega)
      rw [← Nat.add_assoc, count_succ, hprev]
      · omega
      · rintro ⟨hcount, -⟩
        refine hj j (by omega) ?_
        rw [← hprev, hcount]
        rfl

end

/-! ## The iterations in which the waiter is due -/

/-- The iterations in which the count is 1024: the next one follows after 1025 iterations,
    or, when the flag is not set, after the counter has wrapped round. -/
def due (mps : List Bool) : Nat → Nat
  | 0 => 1024
  | k + 1 => due mps k + if flag mps (due mps k) then 1025 else 2 ^ 64

section

variable {mps : List Bool}

/-- The iterations that yield come one after the other. -/
theorem due_lt_succ (k : Nat) : due mps k < due mps (k + 1) := by
  rw [due]
  split <;> omega

theorem le_due (k : Nat) : k ≤ due mps k := by
  induction k with
  | zero => exact Nat.zero_le _
  | succ k ih =>
      have : due mps k < due mps (k + 1) := due_lt_succ k
      omega

/-- After it was due and did not yield, the count has passed 1024. -/
theorem count_missed {k : Nat} (hcount : count mps 0 (due mps k) = 1024)
    (hflag : flag mps (due mps k) = false) {j : Nat} (hj : j < 2 ^ 64) :
    (count mps 0 (due mps k + 1 + j)).toNat = (1025 + j) % 2 ^ 64 := by
  refine count_add ?_ fun k hk => by omega
  rw [count_succ fun h => Bool.false_ne_true (hflag.symm.trans h.2), hcount]
  rfl

/-- In these iterations the count is 1024. -/
theorem count_due (k : Nat) : count mps 0 (due mps k) = 1024 := by
  induction k with
  | zero =>
      refine BitVec.eq_of_toNat_eq ?_
      have h : (count mps 0 (0 + 1024)).toNat = (0 + 1024) % 2 ^ 64 :=
        count_add (n := 0) rfl fun k hk => by omega
      rw [Nat.zero_add] at h
      exact h
  | succ k ih =>
      refine BitVec.eq_of_toNat_eq ?_
      rw [due]
      split <;> rename_i hflag
      · have h := count_add (count_yield ih hflag) (j := 1024) fun k hk => by omega
        rw [show due mps k + 1025 = due mps k + 1 + 1024 by omega]
        exact h
      · have h := count_missed ih (Bool.eq_false_of_not_eq_true hflag) (j := 2 ^ 64 - 1)
          (by omega)
        rw [show due mps k + 2 ^ 64 = due mps k + 1 + (2 ^ 64 - 1) by omega]
        exact h

/-- The first time the waiter is due from iteration `i` on. -/
theorem exists_due (i : Nat) :
    ∃ k, i ≤ due mps k ∧ (k = 0 ∨ ∃ k', k = k' + 1 ∧ due mps k' < i) := by
  classical
  have hex : ∃ k, i ≤ due mps k := ⟨i, le_due i⟩
  refine ⟨Nat.find hex, Nat.find_spec hex, ?_⟩
  cases hk : Nat.find hex with
  | zero => exact Or.inl rfl
  | succ k' =>
      refine Or.inr ⟨k', rfl, ?_⟩
      have := Nat.find_min hex (m := k') (by omega)
      omega

end

/-! ## Yielding -/

/-- In any 1026 consecutive iterations with the flag set, the waiter yields. -/
def Yields (mps ys : List Bool) : Prop :=
  ∀ i, i + 1026 ≤ ys.length → (∀ j, j < 1026 → flag mps (i + j) = true) →
    ∃ j, j < 1026 ∧ ys.getD (i + j) false = true

/-- Once the waiter was due with the flag unset, the flag is not set in 1026 consecutive
    iterations before it is due again. -/
def Spared (mps : List Bool) : Prop :=
  ∀ k, flag mps (due mps k) = false → ∀ i, due mps k < i → i + 1026 ≤ due mps k + 2 ^ 64 →
    i + 1026 ≤ mps.length → ∃ j, j < 1026 ∧ flag mps (i + j) = false

section

variable {w : Waiter Tid} {shs : List (Shared Tid)}

/-- It yields when it is due and the flag is set. -/
theorem yields_iff (i : Nat) : (w.spin 0 shs).getD i false = true ↔
    count (w.observed shs) 0 i = 1024 ∧ flag (w.observed shs) i = true := by
  rw [spin_getD]
  exact spinIteration_yields

/-- Where the flag is spared, the loop yields as it should. -/
theorem yields_of_spared (h : Spared (w.observed shs)) :
    Yields (w.observed shs) (w.spin 0 shs) := by
  intro i hlen hon
  rw [spin_length] at hlen
  obtain ⟨k, hk, hprev⟩ : ∃ k, i ≤ due (w.observed shs) k ∧
      (k = 0 ∨ ∃ k', k = k' + 1 ∧ due (w.observed shs) k' < i) := exists_due i
  by_cases hin : due (w.observed shs) k < i + 1026
  · -- it is due in the window
    refine ⟨due (w.observed shs) k - i, by omega, ?_⟩
    rw [yields_iff, show i + (due (w.observed shs) k - i) = due (w.observed shs) k by omega]
    refine ⟨count_due k, ?_⟩
    have := hon (due (w.observed shs) k - i) (by omega)
    rwa [show i + (due (w.observed shs) k - i) = due (w.observed shs) k by omega] at this
  · -- it was due before, and the flag was not set
    rcases hprev with rfl | ⟨k', rfl, hlt⟩
    · have : due (w.observed shs) 0 = 1024 := rfl
      omega
    · rw [due] at hin
      split at hin
      · omega
      · rename_i hflag
        obtain ⟨j, hj, hoff⟩ := h k' (Bool.eq_false_of_not_eq_true hflag) i hlt (by omega) hlen
        exact absurd (hon j hj) (by rw [hoff]; exact Bool.false_ne_true)

/-- Where the loop yields as it should, the flag is spared. -/
theorem spared_of_yields (h : Yields (w.observed shs) (w.spin 0 shs)) :
    Spared (w.observed shs) := by
  intro k hflag i hlt hwrap hlen
  by_contra hall
  push Not at hall
  obtain ⟨j, hj, hy⟩ := h i (by rwa [spin_length]) fun j hj =>
    Bool.eq_true_of_not_eq_false (hall j hj)
  -- the count is between 1025 and `2 ^ 64`, or below 1024
  have hcount := count_missed (count_due k) hflag (j := i + j - due (w.observed shs) k - 1)
    (by omega)
  rw [show due (w.observed shs) k + 1 + (i + j - due (w.observed shs) k - 1) = i + j by omega,
    (yields_iff (i + j)).mp hy |>.1] at hcount
  have h1024 : (1024 : BitVec 64).toNat = 1024 := rfl
  omega

/-- **Yielding under multiprogramming**, for both loops and every sequence of states that
    the waiter finds: it yields in any 1026 consecutive iterations with the flag set
    exactly when no such iterations lie between an iteration in which it was due without
    the flag and the next one in which it is due. -/
theorem glkSpin_yields (w : Waiter Tid) (shs : List (Shared Tid)) :
    Yields (w.observed shs) (w.spin 0 shs) ↔ Spared (w.observed shs) :=
  ⟨spared_of_yields, yields_of_spared⟩

end

/-- The ticket lock serves ticket 1 and the flag is `mp`. -/
def serving (mp : Bool) : Shared (Fin 2) where
  lockType := .ticket
  ticket := ⟨1, 2⟩
  mcs := ⟨none, fun _ => none, fun _ => false⟩
  mutex := ⟨⟨0, 0⟩, [], false, 0, [], 0⟩
  numAcquired := 0
  queueTotal := 0
  multiprogramming := mp

theorem serving_observed {shs : List (Shared (Fin 2))} (h : ∀ sh ∈ shs, ∃ mp, sh = serving mp) :
    (Waiter.ticket 2).observed shs = shs.map Shared.multiprogramming := by
  induction shs with
  | nil => rfl
  | cons sh shs ih =>
      obtain ⟨mp, hsh⟩ := h sh List.mem_cons_self
      have hdone : (Waiter.ticket 2).done sh = false := by
        rw [hsh]
        cases mp <;> decide
      rw [Waiter.observed, if_neg (by rw [hdone]; exact Bool.false_ne_true),
        ih fun s hs => h s (List.mem_cons_of_mem _ hs), List.map_cons]

/-- The flag is set only after `a` iterations, and stays set for `b`. -/
def late (a b : Nat) : List (Shared (Fin 2)) :=
  List.replicate a (serving false) ++ List.replicate b (serving true)

theorem late_observed (a b : Nat) : (Waiter.ticket 2).observed (late a b)
    = List.replicate a false ++ List.replicate b true := by
  rw [serving_observed, late, List.map_append, List.map_replicate, List.map_replicate]
  · rfl
  · intro sh hsh
    rcases List.mem_append.mp hsh with hsh | hsh
    · exact ⟨false, List.eq_of_mem_replicate hsh⟩
    · exact ⟨true, List.eq_of_mem_replicate hsh⟩

theorem late_flag {a b i : Nat} (hi : i < a + b) :
    flag ((Waiter.ticket 2).observed (late a b)) i = decide (a ≤ i) := by
  rw [late_observed, flag, List.getD_eq_getElem?_getD]
  by_cases ha : i < a
  · rw [List.getElem?_append_left (by simpa using ha), List.getElem?_replicate, if_pos ha]
    exact (decide_eq_false (by omega)).symm
  · rw [List.getElem?_append_right (by simpa using ha), List.getElem?_replicate,
      if_pos (by rw [List.length_replicate]; omega)]
    exact (decide_eq_true (by omega)).symm

/-- **A waiter that does not yield**: the flag is unset in its first 1025 iterations and set
    in the next 1026. -/
theorem glkSpin_not_yields : ¬ ∀ (w : Waiter (Fin 2)) (shs : List (Shared (Fin 2))),
    Yields (w.observed shs) (w.spin 0 shs) := by
  intro h
  have hspared := spared_of_yields (h (.ticket 2) (late 1025 1026))
  have hlen : ((Waiter.ticket 2).observed (late 1025 1026)).length = 1025 + 1026 := by
    rw [late_observed, List.length_append, List.length_replicate, List.length_replicate]
  obtain ⟨j, hj, hoff⟩ := hspared 0 (late_flag (i := 1024) (by omega)) 1025 (Nat.lt_succ_self _)
    (by show 1025 + 1026 ≤ 1024 + 2 ^ 64; omega) hlen.ge
  rw [late_flag (by omega)] at hoff
  exact of_decide_eq_false hoff (by omega)

end GlkYield
