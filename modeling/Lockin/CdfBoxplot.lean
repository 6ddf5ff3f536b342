import Mathlib.Tactic
import Mathlib.Data.List.Sort
import Mathlib.Order.Bounds.Basic

/-! # The distribution of measured values

    `cdf.c`: `cdf_calc` turns a list of values into the pairs of its cumulative distribution,
    and `cdf_boxplot_get` reads seven values off them.  Percentages are rational numbers
    here.

    `cdf_calc` indexes the values with an `int`, which is negative after `2 ^ 31 - 1`, and then
    its loop ends.  So the pairs are exact when the greatest value is among the first `2 ^ 31`
    in ascending order, and otherwise they lack it (`cdf_exact`). -/

namespace CdfBoxplot

/-- `cdf_pair_t`. -/
structure Pair where
  x : Nat
  cdf : ℚ
  deriving DecidableEq

/-- `cdf_t`, without the averages; `val_n` and `pair_n` are the lengths of the arrays. -/
structure Cdf where
  valsSorted : List Nat
  pairs : List Pair
  deriving DecidableEq

/-- How many values the `int` `i` of `cdf_calc` indexes.  The next `i++` makes it negative, and
    in `i < val_n` it is then a `size_t` that is larger than the number of values that fit into
    memory. -/
def indexed : Nat := 2 ^ 31

/-- The loop of `cdf_calc` from index `i` on, where the rest of the values is left, and the
    store of the last pair. -/
def calcLoop (valN : Nat) : Nat → Nat → List Nat → List Pair
  | _, cur, [] => [⟨cur, 100⟩]
  | i, cur, v :: rest =>
      if i < indexed then
        if cur ≠ v then ⟨cur, (i : ℚ) / valN * 100⟩ :: calcLoop valN (i + 1) v rest
        else calcLoop valN (i + 1) cur rest
      else [⟨cur, 100⟩]

/-- `cdf_calc`.  It reads `vals_sorted[0]`. -/
def cdfCalc (vals : List Nat) : Option Cdf :=
  match vals.mergeSort (· ≤ ·) with
  | [] => none
  | v :: rest => some ⟨vals.mergeSort (· ≤ ·), calcLoop vals.length 1 v rest⟩

/-- `cdf_boxplot_t`: `values` has `CDF_BOXPLOT_VALS` entries. -/
structure Boxplot where
  confidence : ℚ
  values : Nat → Nat

def CDF_BOXPLOT_VALS : Nat := 7

/-- The array `target` of `cdf_boxplot_get`. -/
def target (perc : ℚ) : Nat → ℚ
  | 0 => 100 - perc
  | 1 => 25
  | 2 => 50
  | 3 => 75
  | _ => perc

/-- The variables of the loop of `cdf_boxplot_get`. -/
structure Scan where
  p : Int
  targetCur : Nat
  values : Nat → Nat

/-- `p < e->pair_n && target_cur < 5`. -/
def Scan.goes (e : Cdf) (s : Scan) : Bool := s.p < e.pairs.length ∧ s.targetCur < 5

/-- `e->pairs[p]`. -/
def Cdf.pair (e : Cdf) (p : Int) : Pair := e.pairs.getD p.toNat ⟨0, 0⟩

/-- The body of the loop, and `p++`. -/
def Scan.turn (e : Cdf) (perc : ℚ) (s : Scan) : Scan :=
  let s := if target perc s.targetCur ≤ (e.pair s.p).cdf then
      { p := s.p - 1
        targetCur := s.targetCur + 1
        values := Function.update s.values (s.targetCur + 1) (e.pair s.p).x }
    else s
  { s with p := s.p + 1 }

/-- At most `fuel` turns of the loop; `none` when it has not ended by then. -/
def Scan.loop (e : Cdf) (perc : ℚ) : Nat → Scan → Option Scan
  | 0, s => if s.goes e then none else some s
  | fuel + 1, s => if s.goes e then (s.turn e perc).loop e perc fuel else some s

/-- `cdf_boxplot_get`. -/
def cdfBoxplotGet (fuel : Nat) (b : Boxplot) (e : Cdf) (perc : ℚ) : Option Boxplot :=
  let s : Scan := ⟨0, 0, Function.update b.values 0 (e.pair 0).x⟩
  (s.loop e perc fuel).map fun s =>
    ⟨perc, Function.update s.values (CDF_BOXPLOT_VALS - 1) (e.pair (e.pairs.length - 1)).x⟩

/-! ## The pairs -/

/-- What is left of the loop of `cdf_calc` adds the pairs of the values that are left.
    `i` values, all of them at most `cur`, have been passed. -/
structure Tail (valN i cur : Nat) (rest : List Nat) (ps : List Pair) : Prop where
  ascending : ps.Pairwise (·.x < ·.x)
  first : ∀ p ∈ ps, cur ≤ p.x
  mem : ∀ v, (∃ p ∈ ps, p.x = v) ↔ v ∈ cur :: rest
  cdf : ∀ p ∈ ps, p.cdf = 100 * (i + rest.countP (· ≤ p.x)) / valN
  last : ps.getLast?.map Pair.cdf = some 100

theorem countP_cons_le {v x : Nat} (h : v ≤ x) (rest : List Nat) :
    (v :: rest).countP (· ≤ x) = rest.countP (· ≤ x) + 1 :=
  List.countP_cons_of_pos (decide_eq_true h)

theorem Tail.ne_nil {valN i cur : Nat} {rest : List Nat} {ps : List Pair}
    (h : Tail valN i cur rest ps) : ps ≠ [] := by
  rintro rfl
  exact nomatch h.last

/-- The end of the loop. -/
theorem Tail.stop {valN i cur : Nat} (hi : i = valN) (hpos : 0 < i) :
    Tail valN i cur [] [⟨cur, 100⟩] := by
  have hne : (valN : ℚ) ≠ 0 := Nat.cast_ne_zero.mpr (by omega)
  refine ⟨List.pairwise_singleton _ _, ?_, ?_, ?_, rfl⟩
  · intro p hp
    rw [List.mem_singleton.mp hp]
  · intro v
    constructor
    · rintro ⟨p, hp, rfl⟩
      rw [List.mem_singleton.mp hp]
      exact List.mem_singleton_self _
    · intro hv
      exact ⟨_, List.mem_singleton_self _, (List.mem_singleton.mp hv).symm⟩
  · intro p hp
    rw [List.mem_singleton.mp hp, List.countP_nil, hi]
    field_simp
    simp

/-- A value that differs from the last one. -/
theorem Tail.emit {valN i cur v : Nat} {rest : List Nat} {ps : List Pair} (hlt : cur < v)
    (hsorted : ∀ w ∈ rest, v ≤ w) (h : Tail valN (i + 1) v rest ps) :
    Tail valN i cur (v :: rest) (⟨cur, (i : ℚ) / valN * 100⟩ :: ps) := by
  refine ⟨List.pairwise_cons.mpr ⟨fun p hp => ?_, h.ascending⟩, ?_, ?_, ?_, ?_⟩
  · exact lt_of_lt_of_le hlt (h.first p hp)
  · intro p hp
    rcases List.mem_cons.mp hp with rfl | hp
    · exact le_rfl
    · exact hlt.le.trans (h.first p hp)
  · intro w
    rw [List.mem_cons, ← h.mem w]
    constructor
    · rintro ⟨p, hp, rfl⟩
      rcases List.mem_cons.mp hp with rfl | hp
      · exact Or.inl rfl
      · exact Or.inr ⟨p, hp, rfl⟩
    · rintro (rfl | ⟨p, hp, rfl⟩)
      · exact ⟨_, List.mem_cons_self, rfl⟩
      · exact ⟨p, List.mem_cons_of_mem _ hp, rfl⟩
  · intro p hp
    rcases List.mem_cons.mp hp with rfl | hp
    · -- nothing that is left is at most `cur`
      have hzero : (v :: rest).countP (· ≤ cur) = 0 := by
        rw [List.countP_eq_zero]
        intro w hw
        have hvw : v ≤ w := by
          rcases List.mem_cons.mp hw with rfl | hw
          · exact le_rfl
          · exact hsorted w hw
        simp only [decide_eq_true_eq]
        omega
      rw [hzero, Nat.cast_zero, add_zero]
      ring
    · rw [h.cdf p hp, countP_cons_le (h.first p hp)]
      push_cast
      ring
  · rw [List.getLast?_cons_of_ne_nil h.ne_nil]
    exact h.last

/-- A value that was seen before. -/
theorem Tail.skip {valN i cur : Nat} {rest : List Nat} {ps : List Pair}
    (h : Tail valN (i + 1) cur rest ps) : Tail valN i cur (cur :: rest) ps := by
  refine ⟨h.ascending, h.first, ?_, ?_, h.last⟩
  · intro w
    rw [h.mem w]
    simp
  · intro p hp
    rw [h.cdf p hp, countP_cons_le (h.first p hp)]
    push_cast
    ring

/-- No value is above those that the loop passes from index `i` on, and `cur`. -/
def Covered (i cur : Nat) (rest : List Nat) : Prop :=
  ∀ v ∈ rest, ∃ w ∈ cur :: rest.take (indexed - i), v ≤ w

/-- The index stays in range for one more value. -/
theorem take_indexed {i v : Nat} (hi : i < indexed) (rest : List Nat) :
    (v :: rest).take (indexed - i) = v :: rest.take (indexed - (i + 1)) := by
  obtain ⟨n, hn⟩ : ∃ n, indexed - i = n + 1 := ⟨indexed - i - 1, by omega⟩
  rw [hn, List.take_succ_cons, show indexed - (i + 1) = n by omega]

theorem covered_cons {i cur v : Nat} {rest : List Nat} (hi : i < indexed) (hle : cur ≤ v) :
    Covered i cur (v :: rest) ↔ Covered (i + 1) v rest := by
  constructor
  · intro h w hw
    obtain ⟨u, hu, hwu⟩ := h w (List.mem_cons_of_mem _ hw)
    rw [take_indexed hi] at hu
    obtain rfl | hu := List.mem_cons.mp hu
    · exact ⟨v, List.mem_cons_self, hwu.trans hle⟩
    · exact ⟨u, hu, hwu⟩
  · intro h w hw
    rw [take_indexed hi]
    obtain rfl | hw := List.mem_cons.mp hw
    · exact ⟨w, List.mem_cons_of_mem _ List.mem_cons_self, le_rfl⟩
    · obtain ⟨u, hu, hwu⟩ := h w hw
      exact ⟨u, List.mem_cons_of_mem _ hu, hwu⟩

/-- Values that are all equal to the last one. -/
theorem Tail.equal {valN i cur : Nat} {rest : List Nat} (hpos : 0 < i)
    (hlen : i + rest.length = valN) (hrest : ∀ v ∈ rest, v = cur) :
    Tail valN i cur rest [⟨cur, 100⟩] := by
  induction rest generalizing i with
  | nil => exact .stop (by simpa using hlen) hpos
  | cons v rest ih =>
      obtain rfl := hrest v List.mem_cons_self
      rw [List.length_cons] at hlen
      exact (ih (Nat.succ_pos i) (by omega) fun w hw => hrest w (List.mem_cons_of_mem _ hw)).skip

/-- **The loop of `cdf_calc`** emits the pairs of the values that are left, if it passes the
    greatest one. -/
theorem calcLoop_spec {valN i cur : Nat} {rest : List Nat} (hpos : 0 < i)
    (hlen : i + rest.length = valN) (hsorted : (cur :: rest).Pairwise (· ≤ ·))
    (hcovered : Covered i cur rest) : Tail valN i cur rest (calcLoop valN i cur rest) := by
  induction rest generalizing i cur with
  | nil => exact .stop (by simpa using hlen) hpos
  | cons v rest ih =>
      obtain ⟨hcur, hrest⟩ := List.pairwise_cons.mp hsorted
      have hle : cur ≤ v := hcur v List.mem_cons_self
      rw [calcLoop]
      split <;> rename_i hi
      · have hcovered' := (covered_cons hi hle).mp hcovered
        rw [List.length_cons] at hlen
        have htail := ih (Nat.succ_pos i) (by omega) hrest hcovered'
        split <;> rename_i hne
        · exact htail.emit (lt_of_le_of_ne hle hne) (List.pairwise_cons.mp hrest).1
        · obtain rfl : cur = v := not_not.mp hne
          exact htail.skip
      · -- the loop ends, and the values that are left are at most `cur`
        refine .equal hpos hlen fun w hw => le_antisymm ?_ (hcur w hw)
        obtain ⟨u, hu, hwu⟩ := hcovered w hw
        rw [show indexed - i = 0 by omega, List.take_zero, List.mem_singleton] at hu
        exact hu ▸ hwu

/-- The loop emits pairs of the values that it passes only. -/
theorem calcLoop_mem {valN i cur : Nat} {rest : List Nat} {p : Pair}
    (hp : p ∈ calcLoop valN i cur rest) : p.x ∈ cur :: rest.take (indexed - i) := by
  induction rest generalizing i cur with
  | nil =>
      obtain rfl := List.mem_singleton.mp hp
      exact List.mem_cons_self
  | cons v rest ih =>
      rw [calcLoop] at hp
      split at hp <;> rename_i hi
      · rw [take_indexed hi]
        split at hp <;> rename_i hne
        · obtain rfl | hp := List.mem_cons.mp hp
          · exact List.mem_cons_self
          · exact List.mem_cons_of_mem _ (ih hp)
        · obtain rfl : cur = v := not_not.mp hne
          exact List.mem_cons_of_mem _ (ih hp)
      · obtain rfl := List.mem_singleton.mp hp
        exact List.mem_cons_self

/-- The pairs are the cumulative distribution of the values. -/
structure PairsExact (vals : List Nat) (ps : List Pair) : Prop where
  ascending : ps.Pairwise (·.x < ·.x)
  mem : ∀ v, (∃ p ∈ ps, p.x = v) ↔ v ∈ vals
  cdf : ∀ p ∈ ps, p.cdf = 100 * vals.countP (· ≤ p.x) / vals.length
  last : ps.getLast?.map Pair.cdf = some 100

theorem sorted (vals : List Nat) : (vals.mergeSort (· ≤ ·)).Pairwise (· ≤ ·) := by
  have h : (vals.mergeSort fun a b => decide (a ≤ b)).Pairwise (fun a b => decide (a ≤ b) = true) :=
    List.pairwise_mergeSort
      (fun a b c hab hbc => by
        simp only [decide_eq_true_eq] at *
        omega)
      (fun a b => by
        simp only [Bool.or_eq_true, decide_eq_true_eq]
        omega) vals
  exact h.imp fun hab => of_decide_eq_true hab

/-- The greatest value is among the first `2 ^ 31` in ascending order. -/
def Reaches (vals : List Nat) : Prop :=
  ∀ v ∈ vals, ∃ w ∈ (vals.mergeSort (· ≤ ·)).take indexed, v ≤ w

/-- As it is when there are no more. -/
theorem reaches_of_length {vals : List Nat} (h : vals.length ≤ indexed) : Reaches vals := by
  intro v hv
  refine ⟨v, ?_, le_rfl⟩
  rw [List.take_of_length_le (by rwa [List.length_mergeSort])]
  exact (List.mergeSort_perm vals _).mem_iff.mpr hv

/-- **`cdf_calc`** is exact if its loop passes the greatest value, and only then. -/
theorem cdfCalc_spec {vals : List Nat} (hne : vals ≠ []) :
    ∃ e, cdfCalc vals = some e ∧ (PairsExact vals e.pairs ↔ Reaches vals) := by
  have hperm := List.mergeSort_perm vals (· ≤ ·)
  have hsorted := sorted vals
  unfold cdfCalc Reaches
  cases hs : vals.mergeSort (· ≤ ·) with
  | nil =>
      rw [hs] at hperm
      exact absurd hperm.symm.eq_nil hne
  | cons v rest =>
      rw [hs] at hperm hsorted
      have hlen : 1 + rest.length = vals.length := by
        rw [← hperm.length_eq, List.length_cons]
        omega
      have hone : 1 < indexed + 1 := by unfold indexed; norm_num
      have htake : (v :: rest).take indexed = v :: rest.take (indexed - 1) := by
        obtain ⟨n, hn⟩ : ∃ n, indexed = n + 1 := ⟨indexed - 1, by omega⟩
        rw [hn, List.take_succ_cons, Nat.add_sub_cancel]
      refine ⟨_, rfl, fun hexact w hw => ?_, fun hreaches => ?_⟩
      · obtain ⟨p, hp, rfl⟩ := (hexact.mem w).mpr hw
        exact ⟨p.x, htake ▸ calcLoop_mem hp, le_rfl⟩
      · have hcovered : Covered 1 v rest := by
          intro w hw
          rw [← htake]
          exact hreaches w (hperm.mem_iff.mp (List.mem_cons_of_mem _ hw))
        have htail := calcLoop_spec Nat.one_pos hlen hsorted hcovered
        refine ⟨htail.ascending, fun w => ?_, fun p hp => ?_, htail.last⟩
        · rw [← hperm.mem_iff]
          exact htail.mem w
        · rw [htail.cdf p hp, ← hperm.countP_eq, countP_cons_le (htail.first p hp)]
          push_cast
          ring

/-! ## The box plot -/

/-- The `x` of the first pair that reaches `t`. -/
def FirstAt (ps : List Pair) (t : ℚ) (x : Nat) : Prop :=
  ∃ (q : Nat) (pr : Pair), ps[q]? = some pr ∧ pr.x = x ∧ t ≤ pr.cdf ∧
    ∀ (q' : Nat) (pr' : Pair), q' < q → ps[q']? = some pr' → pr'.cdf < t

/-- The `x` of the pairs that reach `t`. -/
def reaching (ps : List Pair) (t : ℚ) : Set Nat := {x | ∃ p ∈ ps, p.x = x ∧ t ≤ p.cdf}

/-- The first pair that reaches `t` has the least `x`. -/
theorem FirstAt.isLeast {ps : List Pair} {t : ℚ} {x : Nat} (h : FirstAt ps t x)
    (hasc : ps.Pairwise (·.x < ·.x)) : IsLeast (reaching ps t) x := by
  obtain ⟨q, pr, hq, rfl, hreach, hbefore⟩ := h
  refine ⟨⟨pr, List.mem_of_getElem? hq, rfl, hreach⟩, ?_⟩
  rintro _ ⟨p, hp, rfl, hp'⟩
  obtain ⟨r, hr, rfl⟩ := List.mem_iff_getElem.mp hp
  obtain ⟨hqlt, rfl⟩ := List.getElem?_eq_some_iff.mp hq
  rcases Nat.lt_trichotomy q r with hlt | rfl | hgt
  · exact (List.pairwise_iff_getElem.mp hasc q r hqlt hr hlt).le
  · exact le_rfl
  · exact absurd (hbefore r _ hgt (List.getElem?_eq_getElem hr)) (not_lt.mpr hp')

/-- The targets ascend, up to 100. -/
theorem target_le {perc : ℚ} (h75 : 75 ≤ perc) (j : Nat) : target perc j ≤ target perc (j + 1) := by
  rcases j with _ | _ | _ | _ | j <;> simp only [target] <;> linarith

theorem target_le_hundred {perc : ℚ} (h75 : 75 ≤ perc) (h100 : perc ≤ 100) (j : Nat) :
    target perc j ≤ 100 := by
  rcases j with _ | _ | _ | _ | j <;> simp only [target] <;> linarith

/-- The invariant of the loop: the targets before `target_cur` are done, and no pair before
    `p` reaches `target_cur`. -/
structure Scanned (e : Cdf) (perc : ℚ) (least : Nat) (s : Scan) : Prop where
  nonneg : 0 ≤ s.p
  inside : s.p < e.pairs.length
  targets : s.targetCur ≤ 5
  before : ∀ (q : Nat) (pr : Pair), (q : Int) < s.p → e.pairs[q]? = some pr →
    pr.cdf < target perc s.targetCur
  first : s.values 0 = least
  done : ∀ j, j < s.targetCur → FirstAt e.pairs (target perc j) (s.values (j + 1))

section

variable {e : Cdf} {perc : ℚ} {least : Nat} {s : Scan}

/-- The pair that the loop looks at. -/
theorem Scanned.pair (h : Scanned e perc least s) :
    e.pairs[s.p.toNat]? = some (e.pair s.p) := by
  have hlt : s.p.toNat < e.pairs.length := by
    have := h.inside
    have := h.nonneg
    omega
  unfold Cdf.pair
  rw [List.getD_eq_getElem?_getD, List.getElem?_eq_getElem hlt]
  rfl

/-- **Step lemma.** A turn advances either `target_cur` or `p`. -/
theorem Scanned.turn (h : Scanned e perc least s) (h75 : 75 ≤ perc) (h100 : perc ≤ 100)
    (hlast : e.pairs.getLast?.map Pair.cdf = some 100) (hgoes : s.goes e = true) :
    Scanned e perc least (s.turn e perc) ∧
      (s.turn e perc).p.toNat + (s.turn e perc).targetCur = s.p.toNat + s.targetCur + 1 := by
  have hlt : s.targetCur < 5 := (of_decide_eq_true hgoes).2
  have hnn := h.nonneg
  have hpair := h.pair
  unfold Scan.turn
  split <;> rename_i hreach
  · -- the pair reaches the target, and is looked at again
    have hp : s.p - 1 + 1 = s.p := by omega
    refine ⟨⟨?_, ?_, hlt, ?_, ?_, ?_⟩, ?_⟩
    · dsimp only
      omega
    · dsimp only
      have := h.inside
      omega
    · intro q pr hq hpr
      dsimp only at hq ⊢
      rw [hp] at hq
      exact (h.before q pr hq hpr).trans_le (target_le h75 _)
    · dsimp only
      rw [Function.update_of_ne (by omega)]
      exact h.first
    · intro j hj
      dsimp only at hj ⊢
      by_cases hnew : j = s.targetCur
      · subst hnew
        rw [Function.update_self]
        refine ⟨s.p.toNat, _, hpair, rfl, hreach, fun q' pr' hq' hpr' => ?_⟩
        exact h.before q' pr' (by omega) hpr'
      · rw [Function.update_of_ne (by omega)]
        exact h.done j (by omega)
    · dsimp only
      rw [hp]
      omega
  · -- the last pair reaches every target, so this is not the last one
    have hnotlast : s.p + 1 < e.pairs.length := by
      by_contra hge
      have hin := h.inside
      have hidx : s.p.toNat = e.pairs.length - 1 := by omega
      rw [List.getLast?_eq_getElem?, ← hidx, hpair] at hlast
      have hcdf : (e.pair s.p).cdf = 100 := Option.some.inj hlast
      rw [hcdf] at hreach
      exact hreach (target_le_hundred h75 h100 _)
    refine ⟨⟨?_, hnotlast, h.targets, ?_, h.first, h.done⟩, ?_⟩
    · dsimp only
      omega
    · intro q pr hq hpr
      dsimp only at hq ⊢
      by_cases hnew : (q : Int) = s.p
      · have hq' : q = s.p.toNat := by omega
        rw [hq', hpair] at hpr
        rw [← Option.some.inj hpr]
        exact not_le.mp hreach
      · exact h.before q pr (by omega) hpr
    · dsimp only
      omega

/-- **The loop ends**, with all five targets done. -/
theorem Scanned.loop (h : Scanned e perc least s) (h75 : 75 ≤ perc) (h100 : perc ≤ 100)
    (hlast : e.pairs.getLast?.map Pair.cdf = some 100) {fuel : Nat}
    (hfuel : e.pairs.length + 5 ≤ fuel + s.p.toNat + s.targetCur) :
    ∃ s', s.loop e perc fuel = some s' ∧ Scanned e perc least s' ∧ s'.targetCur = 5 := by
  have hstop : s.goes e = false → s.targetCur = 5 := by
    intro hgoes
    have hnot := of_decide_eq_false hgoes
    have := h.inside
    have := h.targets
    omega
  induction fuel generalizing s with
  | zero =>
      cases hgoes : s.goes e with
      | false => exact ⟨s, by rw [Scan.loop, hgoes]; rfl, h, hstop hgoes⟩
      | true =>
          have := of_decide_eq_true hgoes
          have := h.nonneg
          omega
  | succ fuel ih =>
      cases hgoes : s.goes e with
      | false => exact ⟨s, by rw [Scan.loop, hgoes]; rfl, h, hstop hgoes⟩
      | true =>
          obtain ⟨hturn, hsum⟩ := h.turn h75 h100 hlast hgoes
          obtain ⟨s', hs', hscan, hdone⟩ := ih hturn (by omega) (fun hg => by
            have hnot := of_decide_eq_false hg
            have := hturn.inside
            have := hturn.targets
            omega)
          exact ⟨s', by rw [Scan.loop, hgoes, if_pos rfl, hs'], hscan, hdone⟩

end

/-- The box plot of the pairs. -/
structure BoxplotExact (ps : List Pair) (perc : ℚ) (b : Boxplot) : Prop where
  confidence : b.confidence = perc
  min : IsLeast {x | ∃ p ∈ ps, p.x = x} (b.values 0)
  least : ∀ j, j < 5 → IsLeast (reaching ps (target perc j)) (b.values (j + 1))
  max : IsGreatest {x | ∃ p ∈ ps, p.x = x} (b.values 6)
  ascending : ∀ i, i < 6 → b.values i ≤ b.values (i + 1)

/-- **`cdf_boxplot_get`** terminates and is exact. -/
theorem cdfBoxplotGet_spec {vals : List Nat} {e : Cdf} (h : PairsExact vals e.pairs)
    {perc : ℚ} (h75 : 75 ≤ perc) (h100 : perc ≤ 100) (b : Boxplot) :
    ∃ b', cdfBoxplotGet (e.pairs.length + 5) b e perc = some b' ∧
      BoxplotExact e.pairs perc b' := by
  have hpos : 0 < e.pairs.length := by
    rw [List.length_pos_iff]
    rintro hnil
    have hlast := h.last
    rw [hnil] at hlast
    exact nomatch hlast
  have hget : ∀ i (hi : i < e.pairs.length), e.pair i = e.pairs[i] := by
    intro i hi
    unfold Cdf.pair
    rw [Int.toNat_natCast, List.getD_eq_getElem?_getD, List.getElem?_eq_getElem hi]
    rfl
  have hstart : Scanned e perc (e.pair 0).x ⟨0, 0, Function.update b.values 0 (e.pair 0).x⟩ := by
    refine ⟨le_rfl, ?_, Nat.zero_le _, ?_, ?_, ?_⟩
    · dsimp only
      omega
    · intro q pr hq
      dsimp only at hq
      omega
    · dsimp only
      rw [Function.update_self]
    · intro j hj
      exact absurd hj (Nat.not_lt_zero j)
  have hfuel : e.pairs.length + 5 ≤ e.pairs.length + 5 + (0 : Int).toNat + 0 := by
    omega
  obtain ⟨s, hs, hscan, hfive⟩ := hstart.loop h75 h100 h.last hfuel
  refine ⟨_, by rw [cdfBoxplotGet, hs]; rfl, ?_⟩
  -- the values that the loop has stored are left alone
  have hvalue : ∀ i, i < 6 → Function.update s.values (CDF_BOXPLOT_VALS - 1)
      (e.pair (e.pairs.length - 1)).x i = s.values i :=
    fun i hi => Function.update_of_ne (by unfold CDF_BOXPLOT_VALS; omega) _ _
  have hmax : Function.update s.values (CDF_BOXPLOT_VALS - 1)
      (e.pair (e.pairs.length - 1)).x 6 = e.pairs[e.pairs.length - 1].x := by
    show Function.update s.values 6 _ 6 = _
    rw [Function.update_self, ← hget (e.pairs.length - 1) (by omega)]
    congr 2
    omega
  have hleast : ∀ j, j < 5 → IsLeast (reaching e.pairs (target perc j)) (s.values (j + 1)) :=
    fun j hj => (hscan.done j (by omega)).isLeast h.ascending
  have hmem : ∀ j, j < 5 → ∃ p ∈ e.pairs, p.x = s.values (j + 1) := by
    intro j hj
    obtain ⟨p, hp, hx, -⟩ := (hleast j hj).1
    exact ⟨p, hp, hx⟩
  have hmin : IsLeast {x | ∃ p ∈ e.pairs, p.x = x} (s.values 0) := by
    rw [hscan.first, show e.pair 0 = e.pairs[0] from hget 0 hpos]
    refine ⟨⟨_, List.getElem_mem hpos, rfl⟩, ?_⟩
    rintro _ ⟨p, hp, rfl⟩
    obtain ⟨r, hr, rfl⟩ := List.mem_iff_getElem.mp hp
    rcases Nat.eq_zero_or_pos r with rfl | hr0
    · exact le_rfl
    · exact (List.pairwise_iff_getElem.mp h.ascending 0 r hpos hr hr0).le
  have hgreatest : IsGreatest {x | ∃ p ∈ e.pairs, p.x = x} e.pairs[e.pairs.length - 1].x := by
    refine ⟨⟨_, List.getElem_mem _, rfl⟩, ?_⟩
    rintro _ ⟨p, hp, rfl⟩
    obtain ⟨r, hr, rfl⟩ := List.mem_iff_getElem.mp hp
    rcases Nat.lt_or_ge r (e.pairs.length - 1) with hlt | hge
    · exact (List.pairwise_iff_getElem.mp h.ascending r _ hr (by omega) hlt).le
    · have : r = e.pairs.length - 1 := by omega
      subst this
      exact le_rfl
  refine ⟨rfl, ?_, fun j hj => ?_, ?_, fun i hi => ?_⟩
  · dsimp only
    rw [hvalue 0 (by omega)]
    exact hmin
  · dsimp only
    rw [hvalue (j + 1) (by omega)]
    exact hleast j hj
  · dsimp only
    rw [hmax]
    exact hgreatest
  · dsimp only
    rw [hvalue i hi]
    rcases Nat.lt_or_ge (i + 1) 6 with hlt | hge
    · rw [hvalue (i + 1) hlt]
      rcases i with _ | j
      · exact hmin.2 (hmem 0 (by omega))
      · -- whoever reaches the next target reaches this one
        obtain ⟨p, hp, hx, hreach⟩ := (hleast (j + 1) (by omega)).1
        exact (hleast j (by omega)).2 ⟨p, hp, hx, (target_le h75 j).trans hreach⟩
    · obtain rfl : i = 5 := by omega
      rw [hmax]
      exact hgreatest.2 (hmem 4 (by omega))

/-! ## Both functions -/

/-- The two functions do what they are for. -/
def Exact (vals : List Nat) : Prop :=
  ∃ e, cdfCalc vals = some e ∧ PairsExact vals e.pairs ∧
    ∀ perc : ℚ, 75 ≤ perc → perc ≤ 100 → ∀ b, ∃ fuel b',
      cdfBoxplotGet fuel b e perc = some b' ∧ BoxplotExact e.pairs perc b'

/-- **`cdf_calc` and `cdf_boxplot_get` are exact** when the greatest value is among the first
    `2 ^ 31` in ascending order, and only then. -/
theorem cdf_exact {vals : List Nat} (hne : vals ≠ []) : Exact vals ↔ Reaches vals := by
  obtain ⟨e, he, hiff⟩ := cdfCalc_spec hne
  constructor
  · rintro ⟨e', he', hpairs, -⟩
    obtain rfl : e = e' := Option.some.inj (he.symm.trans he')
    exact hiff.mp hpairs
  · intro hreaches
    have hpairs := hiff.mpr hreaches
    exact ⟨e, he, hpairs, fun perc h75 h100 b => ⟨_, cdfBoxplotGet_spec hpairs h75 h100 b⟩⟩

theorem cdf_exact_five : Exact [3, 1, 3, 2, 3] :=
  (cdf_exact (List.cons_ne_nil _ _)).mpr (reaches_of_length (by decide))

/-- **Too many values**: the loop ends before the last one, and its pair is missing. -/
theorem cdf_inexact : ¬ ∀ vals : List Nat, vals ≠ [] → Exact vals := by
  intro h
  have hne : List.replicate indexed 0 ++ [1] ≠ [] := List.append_ne_nil_of_right_ne_nil _ (by simp)
  obtain ⟨e, he, hpairs, -⟩ := h _ hne
  obtain ⟨e', he', hiff⟩ := cdfCalc_spec hne
  obtain rfl : e = e' := Option.some.inj (he.symm.trans he')
  obtain ⟨w, hw, hle⟩ := hiff.mp hpairs 1 (List.mem_append_right _ (List.mem_singleton_self 1))
  have hzero : ∀ v ∈ List.replicate indexed 0, v = 0 := fun v => List.eq_of_mem_replicate
  -- the values are in ascending order
  have hsorted : (List.replicate indexed 0 ++ [1]).Pairwise
      fun a b : Nat => decide (a ≤ b) = true := by
    refine List.pairwise_append.mpr ⟨?_, List.pairwise_singleton _ _, fun v hv w _ => ?_⟩
    · refine List.pairwise_replicate.mpr (Or.inr ?_)
      rfl
    · rw [hzero v hv]
      exact decide_eq_true (Nat.zero_le w)
  rw [List.mergeSort_of_pairwise hsorted, List.take_left' List.length_replicate] at hw
  rw [hzero w hw] at hle
  exact absurd hle (by norm_num)

end CdfBoxplot
