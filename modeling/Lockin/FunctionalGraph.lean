import Mathlib.Data.Finset.Card
import Mathlib.Dynamics.PeriodicPts.Defs
import Mathlib.Logic.Relation

/-! # Graphs with at most one edge from each node

    In such a graph there is one walk from each node; it comes back to the node, comes to
    an end, or leads into a cycle that does not contain the node.  A walk that is cut off
    one step too early misses exactly the cycles through every node (`short_walk_iff`). -/

namespace FunctionalGraph

variable {α : Type} (next : α → Option α)

/-- The edges. -/
def Edge (a b : α) : Prop := next a = some b

/-- The node lies on a cycle. -/
def OnCycle (a : α) : Prop := Relation.TransGen (Edge next) a a

/-- One step of a walk, which may have come to an end. -/
def advance (o : Option α) : Option α := o.bind next

/-- Where the walk from `a` is after `k` steps. -/
def walk (a : α) (k : Nat) : Option α := (advance next)^[k] (some a)

variable {next} {a b : α} {k : Nat}

@[simp] theorem walk_zero : walk next a 0 = some a := rfl

theorem walk_succ (a : α) (k : Nat) : walk next a (k + 1) = (walk next a k).bind next :=
  Function.iterate_succ_apply' ..

theorem walk_succ_of (h : walk next a k = some b) : walk next a (k + 1) = next b := by
  rw [walk_succ, h, Option.bind_some]

/-- Nothing follows the end of a walk. -/
theorem walk_end {m : Nat} (h : walk next a k = none) (hm : k ≤ m) : walk next a m = none := by
  induction m, hm using Nat.le_induction with
  | base => exact h
  | succ m _ ih => rw [walk_succ, ih, Option.bind_none]

/-- A path is a walk of some length. -/
theorem transGen_iff : Relation.TransGen (Edge next) a b ↔ ∃ k, walk next a (k + 1) = some b := by
  constructor
  · intro h
    induction h with
    | single hab => exact ⟨0, hab⟩
    | tail _ hbc ih =>
        obtain ⟨k, hk⟩ := ih
        exact ⟨k + 1, (walk_succ_of hk).trans hbc⟩
  · rintro ⟨k, hk⟩
    induction k generalizing b with
    | zero => exact .single hk
    | succ k ih =>
        rw [walk_succ, Option.bind_eq_some_iff] at hk
        obtain ⟨c, hc, hcb⟩ := hk
        exact (ih hc).tail hcb

/-- A cycle is an orbit that comes back. -/
theorem onCycle_iff : OnCycle next a ↔ some a ∈ Function.periodicPts (advance next) := by
  rw [OnCycle, transGen_iff]
  constructor
  · rintro ⟨k, hk⟩
    exact Function.mk_mem_periodicPts (Nat.succ_pos k) hk
  · rintro ⟨n, hn, hper⟩
    obtain ⟨k, rfl⟩ : ∃ k, n = k + 1 := ⟨n - 1, by omega⟩
    exact ⟨k, hper⟩

/-- A node whose walk ends is on no cycle. -/
theorem not_onCycle_of_end (h : walk next a k = none) : ¬ OnCycle next a := by
  intro hcyc
  obtain ⟨n, hn, hper⟩ := onCycle_iff.mp hcyc
  have hback : walk next a (n * (k + 1)) = some a := (hper.mul_const (k + 1)).eq
  rw [walk_end h (Nat.le_trans (Nat.le_succ k) (Nat.le_mul_of_pos_left _ hn))] at hback
  cases hback

section

variable [DecidableEq α] {s : Finset α} {n : Nat}

/-- The nodes that the walk from `a` visits before it comes back. -/
noncomputable def cycleNodes (next : α → Option α) (a : α) : Finset (Option α) :=
  (Finset.range (Function.minimalPeriod (advance next) (some a))).image (walk next a)

/-- They are as many as the cycle is long. -/
theorem card_cycleNodes (a : α) :
    (cycleNodes next a).card = Function.minimalPeriod (advance next) (some a) := by
  rw [cycleNodes, Finset.card_image_of_injOn, Finset.card_range]
  intro i hi j hj
  exact Function.iterate_injOn_Iio_minimalPeriod (Finset.mem_range.mp hi) (Finset.mem_range.mp hj)

/-- A cycle stays among the nodes that can be reached. -/
theorem cycleNodes_subset (hin : ∀ b, Relation.TransGen (Edge next) a b → b ∈ s)
    (hcyc : OnCycle next a) : cycleNodes next a ⊆ s.image some := by
  intro o ho
  obtain ⟨i, -, rfl⟩ := Finset.mem_image.mp ho
  rcases hw : walk next a i with _ | b
  · exact absurd hcyc (not_onCycle_of_end hw)
  · refine Finset.mem_image_of_mem some (hin b ?_)
    cases i with
    | zero =>
        obtain rfl := Option.some.inj hw
        exact hcyc
    | succ i => exact transGen_iff.mpr ⟨i, hw⟩

/-- Every node that is reached from a cycle lies on it. -/
theorem mem_cycleNodes (hcyc : OnCycle next a) (hb : Relation.TransGen (Edge next) a b) :
    some b ∈ cycleNodes next a := by
  obtain ⟨k, hk⟩ := transGen_iff.mp hb
  have hpos := Function.minimalPeriod_pos_of_mem_periodicPts (onCycle_iff.mp hcyc)
  refine Finset.mem_image.mpr ⟨(k + 1) % Function.minimalPeriod (advance next) (some a),
    Finset.mem_range.mpr (Nat.mod_lt _ hpos), ?_⟩
  rw [← hk]
  exact Function.iterate_mod_minimalPeriod_eq

/-- A walk of `n` steps among `n + 1` nodes finds out whether its first node lies on a
    cycle, unless the cycle goes through all of them. -/
theorem short_walk_iff (ha : a ∈ s) (hs : s.card = n + 1)
    (hin : ∀ b, Relation.TransGen (Edge next) a b → b ∈ s) :
    ((∃ k < n, walk next a (k + 1) = some a) ↔ OnCycle next a) ↔
      ¬ ∀ b ∈ s, Relation.TransGen (Edge next) a b := by
  have himage : (s.image some).card = n + 1 := by
    rw [Finset.card_image_of_injective _ (Option.some_injective α), hs]
  constructor
  · intro hfound hall
    have hcyc : OnCycle next a := hall a ha
    obtain ⟨k, hk, hback⟩ := hfound.mpr hcyc
    have hlen : Function.minimalPeriod (advance next) (some a) ≤ k + 1 :=
      Function.IsPeriodicPt.minimalPeriod_le (Nat.succ_pos k) hback
    have hsub : s.image some ⊆ cycleNodes next a := by
      intro o ho
      obtain ⟨b, hb, rfl⟩ := Finset.mem_image.mp ho
      exact mem_cycleNodes hcyc (hall b hb)
    have hcard := Finset.card_le_card hsub
    rw [card_cycleNodes, himage] at hcard
    omega
  · intro hnot
    constructor
    · rintro ⟨k, -, hk⟩
      exact transGen_iff.mpr ⟨k, hk⟩
    · intro hcyc
      have hpos := Function.minimalPeriod_pos_of_mem_periodicPts (onCycle_iff.mp hcyc)
      have hsub := cycleNodes_subset hin hcyc
      have hne : cycleNodes next a ≠ s.image some := by
        intro heq
        refine hnot fun b hb => ?_
        have hmem : some b ∈ cycleNodes next a := heq ▸ Finset.mem_image_of_mem some hb
        obtain ⟨i, -, hi⟩ := Finset.mem_image.mp hmem
        -- once more around, if `b` is where the walk starts
        cases i with
        | zero =>
            obtain rfl := Option.some.inj hi
            exact hcyc
        | succ i => exact transGen_iff.mpr ⟨i, hi⟩
      have hcard := Finset.card_lt_card (hsub.ssubset_of_ne hne)
      rw [card_cycleNodes, himage] at hcard
      refine ⟨Function.minimalPeriod (advance next) (some a) - 1, by omega, ?_⟩
      rw [Nat.sub_add_cancel hpos]
      exact Function.iterate_minimalPeriod

end

end FunctionalGraph
