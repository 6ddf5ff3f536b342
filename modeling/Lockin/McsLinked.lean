import Mathlib.Data.Set.Card
import Lockin.McsQueue

/-! # The linked part of an MCS queue

    The threads that can be reached from the holder along the `next` pointers, in the protocol
    of `McsQueue`.  A thread that has swapped itself in, but not linked itself yet, hides
    itself and all threads behind it.

    While the holder stays, the pointers it can follow stay as they are and the nodes on its
    way stay in use, so its linked part only grows (`Line.linked_subset`).  The `i`th node on
    the way belongs to the `i`th thread behind the holder (`Line.follow_place`), so a walk that
    comes to an end has counted the linked threads (`Line.ncard_linked`). -/

namespace McsQueue

open Interleaving FifoLock

variable {Tid N : Type}

/-- The node to which `i` links lead from `n`. -/
def Shared.follow (sh : Shared N) (n : N) : Nat → Option N
  | 0 => some n
  | i + 1 => (sh.follow n i).bind sh.next

/-- The threads in line that can be reached from `t` along the links, `t` included. -/
def linked (c : Conf Tid (Shared N) (Pc N)) (t : Tid) : Set Tid :=
  {u | (c.loc u).phase ≠ .out ∧ ∃ n m i, (c.loc t).node = some n ∧ (c.loc u).node = some m ∧
    c.sh.follow n i = some m}

theorem follow_succ {sh : Shared N} {n m : N} {i : Nat} :
    sh.follow n (i + 1) = some m ↔ ∃ x, sh.follow n i = some x ∧ sh.next x = some m :=
  Option.bind_eq_some_iff

/-- A way has a beginning. -/
theorem follow_le {sh : Shared N} {n m : N} {i j : Nat} (h : sh.follow n i = some m)
    (hj : j ≤ i) : ∃ x, sh.follow n j = some x := by
  induction i generalizing m with
  | zero =>
      obtain rfl := Nat.le_zero.mp hj
      exact ⟨m, h⟩
  | succ i ih =>
      obtain heq | hlt := Nat.eq_or_lt_of_le hj
      · rw [heq]
        exact ⟨m, h⟩
      · obtain ⟨x, hx, -⟩ := follow_succ.mp h
        exact ih hx (Nat.le_of_lt_succ hlt)

/-- There is no way beyond the last node. -/
theorem follow_end {sh : Shared N} {n m : N} {i j : Nat} (h : sh.follow n i = some m)
    (hend : sh.next m = none) {x : N} (hj : sh.follow n j = some x) : j ≤ i := by
  by_contra hlt
  obtain ⟨y, hy⟩ := follow_le hj (show i + 1 ≤ j by omega)
  obtain ⟨z, hz, hnext⟩ := follow_succ.mp hy
  obtain rfl := Option.some.inj (h.symm.trans hz)
  exact nomatch hend.symm.trans hnext

namespace Line

variable {c : Conf Tid (Shared N) (Pc N)} {f : Fifo Tid} {t u : Tid} {n m : N} {i : Nat}

/-- A link leads to the thread behind. -/
theorem next_place (h : Line c f) {k : Nat} (hk : f.At k u) (hu : (c.loc u).node = some n)
    (hnext : c.sh.next n = some m) : ∃ v, f.At (k + 1) v ∧ (c.loc v).node = some m := by
  have hlt := hk.lt_length
  have hle := hk.rel_le
  have hmore : k + 1 < f.log.length := by
    by_contra hlast
    exact nomatch (h.last_next u k n hk (by omega) hu).symm.trans hnext
  obtain ⟨v, hv⟩ := f.exists_at (k := k + 1) (by omega) hmore
  refine ⟨v, hv, ?_⟩
  have hbehind := h.behind u v k n hk hv hu
  cases hl : c.loc v
  all_goals rw [hl] at hbehind
  case setWaiting x p => exact nomatch hbehind.2.symm.trans hnext
  case link x p => exact nomatch hbehind.2.1.symm.trans hnext
  case spin x => exact hbehind.1.symm.trans hnext
  all_goals exact hbehind.elim

/-- The `i`th node on the way from the holder belongs to the `i`th thread behind it. -/
theorem follow_place (h : Line c f) (ht : f.At f.rel t) (hn : (c.loc t).node = some n)
    (hi : c.sh.follow n i = some m) : ∃ u, f.At (f.rel + i) u ∧ (c.loc u).node = some m := by
  induction i generalizing m with
  | zero =>
      obtain rfl := Option.some.inj hi
      exact ⟨t, ht, hn⟩
  | succ i ih =>
      obtain ⟨x, hx, hnext⟩ := follow_succ.mp hi
      obtain ⟨u, hu, hux⟩ := ih hx
      exact h.next_place hu hux hnext

/-- Who is about to link itself behind a node is the first to do so. -/
theorem next_of_link (h : Line c f) (hf : f.Ok fun v => (c.loc v).phase) {p : N}
    (hl : c.loc u = .link n p) : c.sh.next p = none := by
  have hph : (c.loc u).phase = .waiting := by rw [hl]; rfl
  obtain ⟨k, hk, -⟩ := hf.waiting_at hph
  have hne : k ≠ f.rel := by
    rintro rfl
    obtain ⟨x, hx, -⟩ := h.head u hk hph
    exact nomatch hl.symm.trans hx
  have hle := hk.rel_le
  have hlt := hk.lt_length
  obtain ⟨v, hv⟩ := f.exists_at (k := k - 1) (by omega) (by omega)
  obtain ⟨q, hq⟩ := Pc.node_of_phase ((hf.place v).mpr ⟨_, hv⟩)
  have hbehind := h.behind v u (k - 1) q hv (by rwa [show k - 1 + 1 = k by omega]) hq
  rw [hl] at hbehind
  obtain ⟨rfl, hnone, -⟩ := hbehind
  exact hnone

/-! ## What other threads do to it -/

section Step

variable [DecidableEq N] {a : Act N} {r : Shared N × Pc N}

omit [DecidableEq N] in
/-- Only the preparation of a node and a link write to `next`. -/
theorem next_frame [DecidableEq N] {sh : Shared N} {l : Pc N}
    (hclear : ∀ b x, l ≠ .clearNext b x) (hlink : ∀ x p, l ≠ .link x p)
    (hs : prog u sh l a = some r) : r.1.next = sh.next := by
  cases l with
  | clearNext b x => exact absurd rfl (hclear b x)
  | link x p => exact absurd rfl (hlink x p)
  | cas x | casTail x =>
      cases a <;> simp only [prog, reduceCtorEq] at hs
      split at hs <;> obtain rfl := Option.some.inj hs <;> rfl
  | _ =>
      cases a <;> simp only [prog, reduceCtorEq, Option.some.injEq] at hs
      all_goals
        subst hs
        rfl

/-- A link between threads in line stays. -/
theorem next_step (h : Line c f) (hf : f.Ok fun v => (c.loc v).phase)
    (hs : prog u c.sh (c.loc u) a = some r) {k : Nat} {v : Tid} (hk : f.At k v)
    (hv : (c.loc v).node = some n) (hnext : c.sh.next n = some m) : r.1.next n = some m := by
  cases hl : c.loc u with
  | clearNext b x =>
      rw [hl] at hs
      cases a <;> simp only [prog, reduceCtorEq, Option.some.injEq] at hs
      subst hs
      have hne : n ≠ x := by
        rintro rfl
        obtain rfl := h.distinct v u n hv (by rw [hl]; rfl)
        exact hf.not_at_of_out (by rw [hl]; rfl) k hk
      exact (Function.update_of_ne hne ..).trans hnext
  | link x p =>
      rw [hl] at hs
      cases a <;> simp only [prog, reduceCtorEq, Option.some.injEq] at hs
      subst hs
      have hne : n ≠ p := by
        rintro rfl
        cases (h.next_of_link hf hl).symm.trans hnext
      exact (Function.update_of_ne hne ..).trans hnext
  | _ =>
      rw [next_frame (by simp [hl]) (by simp [hl]) hs]
      exact hnext

/-- The way from the holder stays. -/
theorem follow_step (h : Line c f) (hf : f.Ok fun v => (c.loc v).phase)
    (hs : prog u c.sh (c.loc u) a = some r) (ht : f.At f.rel t) (hn : (c.loc t).node = some n)
    (hi : c.sh.follow n i = some m) : r.1.follow n i = some m := by
  induction i generalizing m with
  | zero => exact hi
  | succ i ih =>
      obtain ⟨x, hx, hnext⟩ := follow_succ.mp hi
      obtain ⟨v, hv, hvx⟩ := h.follow_place ht hn hx
      exact follow_succ.mpr ⟨x, ih hx, h.next_step hf hs hv hvx hnext⟩

omit [DecidableEq N] in
/-- Who waits keeps its node and its place. -/
theorem node_of_waiting [DecidableEq N] {sh : Shared N} {l : Pc N} (hl : l.phase = .waiting)
    (hs : prog u sh l a = some r) : r.2.node = l.node ∧ r.2.phase ≠ .out := by
  cases l with
  | setWaiting x p | link x p =>
      cases a <;> simp only [prog, reduceCtorEq, Option.some.injEq] at hs
      subst hs
      exact ⟨rfl, Phase.noConfusion⟩
  | spin x =>
      cases a <;> simp only [prog, reduceCtorEq, Option.some.injEq] at hs
      subst hs
      cases sh.waiting x <;> exact ⟨rfl, Phase.noConfusion⟩
  | _ => cases hl

variable [DecidableEq Tid]

/-- **While the holder stays, its linked part only grows.** -/
theorem linked_subset (h : Line c f) (hf : f.Ok fun v => (c.loc v).phase)
    (ht : (c.loc t).phase = .holding) (hut : u ≠ t) (hs : prog u c.sh (c.loc u) a = some r) :
    linked c t ⊆ linked (c.put u r) t := by
  obtain ⟨hturn, -⟩ := hf.holding_at ht
  rintro v ⟨hout, n, m, i, hn, hm, hi⟩
  have hloc : (c.put u r).loc t = c.loc t := put_loc_ne c r hut.symm
  have hv : ((c.put u r).loc v).node = some m ∧ ((c.put u r).loc v).phase ≠ .out := by
    by_cases hvu : v = u
    · subst hvu
      have hwait : (c.loc v).phase = .waiting := by
        cases hph : (c.loc v).phase with
        | out => exact absurd hph hout
        | waiting => rfl
        | holding => exact absurd (hf.holding_unique hph ht) hut
      obtain ⟨hnode, hstill⟩ := node_of_waiting hwait hs
      rw [put_loc_self, hnode]
      exact ⟨hm, hstill⟩
    · rw [put_loc_ne c r hvu]
      exact ⟨hm, hout⟩
  exact ⟨hv.2, n, m, i, by rw [hloc]; exact hn, hv.1, h.follow_step hf hs hturn hn hi⟩

end Step

/-! ## How many they are -/

/-- A walk that has come to its end has passed the linked threads. -/
theorem linked_eq (h : Line c f) (hf : f.Ok fun v => (c.loc v).phase) (ht : f.At f.rel t)
    (hn : (c.loc t).node = some n) (hi : c.sh.follow n i = some m) (hend : c.sh.next m = none) :
    linked c t = {u | u ∈ f.queue.take (i + 1)} := by
  ext u
  rw [Set.mem_ofPred_eq, List.mem_iff_getElem?]
  constructor
  · rintro ⟨-, n', x, j, hn', hx, hj⟩
    obtain rfl := Option.some.inj (hn.symm.trans hn')
    obtain ⟨v, hv, hvx⟩ := h.follow_place ht hn hj
    obtain rfl := h.distinct u v x hx hvx
    refine ⟨j, ?_⟩
    rw [List.getElem?_take, if_pos (Nat.lt_succ_of_le (follow_end hi hend hj))]
    exact (f.queue_getElem? j u).mpr hv
  · rintro ⟨j, hj⟩
    rw [List.getElem?_take] at hj
    obtain ⟨hlt, hj⟩ := Option.ite_none_right_eq_some.mp hj
    have hu := (f.queue_getElem? j u).mp hj
    obtain ⟨x, hx⟩ := follow_le hi (Nat.le_of_lt_succ hlt)
    obtain ⟨v, hv, hvx⟩ := h.follow_place ht hn hx
    obtain rfl := hv.tid_unique hu
    exact ⟨(hf.place v).mpr ⟨_, hv⟩, n, x, j, hn, hvx, hx⟩

/-- A walk that has come to its end **has counted the linked threads**. -/
theorem ncard_linked [DecidableEq Tid] (h : Line c f) (hf : f.Ok fun v => (c.loc v).phase)
    (ht : f.At f.rel t) (hn : (c.loc t).node = some n) (hi : c.sh.follow n i = some m)
    (hend : c.sh.next m = none) : (linked c t).ncard = i + 1 := by
  obtain ⟨u, hu, -⟩ := h.follow_place ht hn hi
  have hlen : i + 1 ≤ f.queue.length := by
    have := (List.getElem?_eq_some_iff.mp ((f.queue_getElem? i u).mpr hu)).1
    omega
  have hnodup : (f.queue.take (i + 1)).Nodup := hf.queue_nodup.sublist (List.take_sublist ..)
  rw [h.linked_eq hf ht hn hi hend, ← List.coe_toFinset, Set.ncard_coe_finset,
    List.toFinset_card_of_nodup hnodup, List.length_take, Nat.min_eq_left hlen]

/-- A walk is no longer than there are threads. -/
theorem follow_lt_card [Fintype Tid] (h : Line c f) (hf : f.Ok fun v => (c.loc v).phase)
    (ht : f.At f.rel t) (hn : (c.loc t).node = some n) (hi : c.sh.follow n i = some m) :
    i < Fintype.card Tid := by
  obtain ⟨u, hu, -⟩ := h.follow_place ht hn hi
  have hlt := (List.getElem?_eq_some_iff.mp ((f.queue_getElem? i u).mpr hu)).1
  exact hlt.trans_le hf.queue_nodup.length_le_card

/-- So it comes to an end. -/
theorem exists_end [Fintype Tid] (h : Line c f) (hf : f.Ok fun v => (c.loc v).phase)
    (ht : f.At f.rel t) (hn : (c.loc t).node = some n) :
    ∃ i m, c.sh.follow n i = some m ∧ c.sh.next m = none := by
  by_contra hnone
  push Not at hnone
  have hall : ∀ i, ∃ m, c.sh.follow n i = some m := by
    intro i
    induction i with
    | zero => exact ⟨n, rfl⟩
    | succ i ih =>
        obtain ⟨x, hx⟩ := ih
        obtain ⟨m, hm⟩ := Option.ne_none_iff_exists'.mp (hnone i x hx)
        exact ⟨m, follow_succ.mpr ⟨x, hx, hm⟩⟩
  obtain ⟨m, hm⟩ := hall (Fintype.card Tid)
  exact Nat.lt_irrefl _ (h.follow_lt_card hf ht hn hm)

end Line

end McsQueue
