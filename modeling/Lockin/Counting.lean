import Lockin.Interleaving
import Mathlib.Algebra.BigOperators.Ring.Finset
import Mathlib.Algebra.Order.BigOperators.Group.Finset
import Mathlib.Data.Fintype.BigOperators

/-! # Counting threads

    A counter in shared memory often is a sum over the threads: each of them contributes an
    amount that its local state determines.  `Conf.total f` is the sum for the amount `f`
    and `Conf.count P` the number of the threads whose local state satisfies `P`.  A step
    of one thread changes the sum by the change of that thread's amount, `total_put`. -/

namespace Interleaving

variable {Tid Sh Lc : Type} [Fintype Tid]

/-- The sum of what the threads contribute. -/
def Conf.total (f : Lc → Nat) (c : Conf Tid Sh Lc) : Nat := ∑ t, f (c.loc t)

/-- The number of the threads with `P`. -/
def Conf.count (P : Lc → Prop) [DecidablePred P] (c : Conf Tid Sh Lc) : Nat :=
  (Finset.univ.filter fun t => P (c.loc t)).card

variable {P Q : Lc → Prop} [DecidablePred P] [DecidablePred Q] {c : Conf Tid Sh Lc}

/-- A count is a sum of ones. -/
theorem total_ite (c : Conf Tid Sh Lc) : c.total (fun l => if P l then 1 else 0) = c.count P :=
  (Finset.card_filter ..).symm

theorem total_add (c : Conf Tid Sh Lc) (f g : Lc → Nat) :
    c.total (fun l => f l + g l) = c.total f + c.total g := Finset.sum_add_distrib

theorem total_mul (c : Conf Tid Sh Lc) (n : Nat) (f : Lc → Nat) :
    c.total (fun l => n * f l) = n * c.total f := (Finset.mul_sum ..).symm

/-- Every thread contributes its share. -/
theorem le_total (c : Conf Tid Sh Lc) (f : Lc → Nat) (t : Tid) : f (c.loc t) ≤ c.total f :=
  Finset.single_le_sum (f := fun t => f (c.loc t)) (fun _ _ => Nat.zero_le _) (Finset.mem_univ t)

theorem total_eq_zero {f : Lc → Nat} (h : ∀ t, f (c.loc t) = 0) : c.total f = 0 :=
  Finset.sum_eq_zero fun t _ => h t

/-- No more threads are counted than there are. -/
theorem count_le_card (c : Conf Tid Sh Lc) : c.count P ≤ Fintype.card Tid :=
  Finset.card_le_univ _

/-- Threads that are in one of two places only. -/
theorem count_add_count_le (c : Conf Tid Sh Lc) (h : ∀ l, P l → ¬ Q l) :
    c.count P + c.count Q ≤ Fintype.card Tid := by
  classical
  unfold Conf.count
  rw [← Finset.card_union_of_disjoint]
  · exact Finset.card_le_univ _
  · exact Finset.disjoint_filter.mpr fun t _ => h (c.loc t)

/-- Nobody is counted. -/
theorem count_eq_zero (h : ∀ t, ¬ P (c.loc t)) : c.count P = 0 := by
  unfold Conf.count
  rw [Finset.filter_false_of_mem fun t _ => h t]
  rfl

/-- Somebody is counted. -/
theorem count_pos {t : Tid} (h : P (c.loc t)) : 0 < c.count P :=
  Finset.card_pos.mpr ⟨t, Finset.mem_filter_univ t |>.mpr h⟩

/-- Somebody is not counted. -/
theorem count_lt_card {t : Tid} (h : ¬ P (c.loc t)) : c.count P < Fintype.card Tid :=
  Finset.card_lt_card ⟨Finset.filter_subset _ _, fun hsub =>
    h (Finset.mem_filter.mp (hsub (Finset.mem_univ t))).2⟩

/-- Somebody is not counted. -/
theorem exists_not_of_count_lt (h : c.count P < Fintype.card Tid) : ∃ t, ¬ P (c.loc t) := by
  by_contra hall
  simp only [not_exists, not_not] at hall
  refine absurd h ?_
  unfold Conf.count
  rw [Finset.filter_true_of_mem fun t _ => hall t]
  exact lt_irrefl _

/-- When at most one thread is counted, it is determined. -/
theorem count_le_one (h : c.count P ≤ 1) {t u : Tid} (ht : P (c.loc t)) (hu : P (c.loc u)) :
    t = u :=
  Finset.card_le_one.mp h t (by simpa using ht) u (by simpa using hu)

variable [DecidableEq Tid]

/-- When everybody but one thread is counted, all the others are. -/
theorem others_of_count {t : Tid} (ht : ¬ P (c.loc t)) (h : c.count P + 1 = Fintype.card Tid)
    {u : Tid} (hut : u ≠ t) : P (c.loc u) := by
  by_contra hu
  have hsub : (Finset.univ.filter fun v => P (c.loc v)) ⊆ Finset.univ \ {t, u} := by
    intro v hv
    have hv' := Finset.mem_filter_univ v |>.mp hv
    simp only [Finset.mem_sdiff, Finset.mem_univ, true_and, Finset.mem_insert,
      Finset.mem_singleton, not_or]
    exact ⟨by rintro rfl; exact ht hv', by rintro rfl; exact hu hv'⟩
  have hle := Finset.card_le_card hsub
  rw [Finset.card_sdiff_of_subset (Finset.subset_univ _), Finset.card_pair (Ne.symm hut),
    Finset.card_univ] at hle
  have htwo : 1 < Fintype.card Tid := Fintype.one_lt_card_iff.mpr ⟨t, u, Ne.symm hut⟩
  have : c.count P ≤ Fintype.card Tid - 2 := hle
  omega

/-- **What a step of one thread does to a sum.** -/
theorem total_put (c : Conf Tid Sh Lc) (f : Lc → Nat) (t : Tid) (r : Sh × Lc) :
    (c.put t r).total f + f (c.loc t) = c.total f + f r.2 := by
  unfold Conf.total
  rw [← Finset.add_sum_erase _ _ (Finset.mem_univ t),
    ← Finset.add_sum_erase (a := t) Finset.univ (fun u => f (c.loc u)) (Finset.mem_univ t),
    put_loc_self]
  have hrest : ∑ u ∈ Finset.univ.erase t, f ((c.put t r).loc u)
      = ∑ u ∈ Finset.univ.erase t, f (c.loc u) := by
    refine Finset.sum_congr rfl fun u hu => ?_
    rw [put_loc_ne c r (Finset.ne_of_mem_erase hu)]
  omega

/-- What a step of one thread does to a count. -/
theorem count_put (c : Conf Tid Sh Lc) (t : Tid) (r : Sh × Lc) :
    (c.put t r).count P + (if P (c.loc t) then 1 else 0)
      = c.count P + (if P r.2 then 1 else 0) := by
  rw [← total_ite, ← total_ite]
  exact total_put c (fun l => if P l then 1 else 0) t r

end Interleaving
