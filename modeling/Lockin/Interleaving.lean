import Mathlib.Logic.Function.Basic
import Mathlib.Logic.Relation
import Mathlib.Data.List.Basic

/-! # Interleaved threads

    A concurrent program is given by what ONE atomic step of one thread does to
    the shared state and to that thread's own local state.  A configuration is
    the shared state together with the local state of every thread, and a run
    is any interleaving of enabled steps.

    * `Reach` collects the configurations met by runs all of whose steps satisfy
      a side condition `ok`, so "every run" (`ok := fun _ _ _ => True`) and
      "every run that keeps to a condition" are one notion with one invariant
      rule, `Reach.invariant`.
    * `Run` additionally records the moves, for properties of the order of
      events.
    * `Reach.simulated` transports reachability along a map of configurations
      that sends every step to a step or to nothing.
    * `Reach.view_put` does so for one step of a program that contains another.
    * `Reach.solo` does so for a thread that runs while the others stand still. -/

namespace Interleaving

/-- Small runs number their threads with the literals of `Fin 2` and `Fin 3`. -/
scoped instance neZero_two : @NeZero Nat Zero.ofOfNat0 2 := ⟨Nat.succ_ne_zero 1⟩

scoped instance neZero_three : @NeZero Nat Zero.ofOfNat0 3 := ⟨Nat.succ_ne_zero 2⟩

/-- The shared state and the local state of every thread. -/
structure Conf (Tid Sh Lc : Type) where
  sh : Sh
  loc : Tid → Lc

/-- The atomic step of thread `t` on the choice `a`; `none` when the choice is
    not enabled. -/
abbrev Prog (Tid Sh Lc Act : Type) := Tid → Sh → Lc → Act → Option (Sh × Lc)

variable {Tid Sh Lc Act : Type} [DecidableEq Tid]

/-- The configuration after thread `t` stepped to `r`. -/
def Conf.put (c : Conf Tid Sh Lc) (t : Tid) (r : Sh × Lc) : Conf Tid Sh Lc :=
  ⟨r.1, Function.update c.loc t r.2⟩

@[simp, grind =] theorem put_sh (c : Conf Tid Sh Lc) (t : Tid) (r : Sh × Lc) :
    (c.put t r).sh = r.1 := rfl

@[grind =] theorem put_loc (c : Conf Tid Sh Lc) (t : Tid) (r : Sh × Lc) (u : Tid) :
    (c.put t r).loc u = if u = t then r.2 else c.loc u :=
  Function.update_apply c.loc t r.2 u

@[simp] theorem put_loc_self (c : Conf Tid Sh Lc) (t : Tid) (r : Sh × Lc) :
    (c.put t r).loc t = r.2 := Function.update_self ..

theorem put_loc_ne (c : Conf Tid Sh Lc) {t u : Tid} (r : Sh × Lc) (h : u ≠ t) :
    (c.put t r).loc u = c.loc u := Function.update_of_ne h ..

@[simp] theorem put_self (c : Conf Tid Sh Lc) (t : Tid) :
    c.put t (c.sh, c.loc t) = c := by
  simp [Conf.put]

/-- Two steps of one thread. -/
theorem put_put (c : Conf Tid Sh Lc) (t : Tid) (r r' : Sh × Lc) :
    (c.put t r).put t r' = c.put t r' :=
  congrArg (Conf.mk r'.1) (Function.update_idem ..)

/-- Run a schedule: the threads that move, with their choices, in order.  It ends in
    `none` when a step is not enabled or violates the side condition. -/
def exec (p : Prog Tid Sh Lc Act) (ok : Conf Tid Sh Lc → Tid → Act → Prop)
    [∀ c t a, Decidable (ok c t a)] :
    Conf Tid Sh Lc → List (Tid × Act) → Option (Conf Tid Sh Lc)
  | c, [] => some c
  | c, (t, a) :: rest =>
      if ok c t a then (p t c.sh (c.loc t) a).bind fun r => exec p ok (c.put t r) rest
      else none

/-- What a step shows to the outside: who moved, and between which local states. -/
structure Move (Tid Lc : Type) where
  tid : Tid
  before : Lc
  after : Lc

/-- Configurations reached from `init` by steps that all satisfy `ok`. -/
inductive Reach (p : Prog Tid Sh Lc Act) (ok : Conf Tid Sh Lc → Tid → Act → Prop)
    (init : Conf Tid Sh Lc → Prop) : Conf Tid Sh Lc → Prop where
  | start {c : Conf Tid Sh Lc} : init c → Reach p ok init c
  | step {c : Conf Tid Sh Lc} {t : Tid} {a : Act} {r : Sh × Lc} :
      Reach p ok init c → ok c t a → p t c.sh (c.loc t) a = some r →
      Reach p ok init (c.put t r)

/-- Runs from `c₀` whose steps all satisfy `ok`, with the moves they make. -/
inductive Run (p : Prog Tid Sh Lc Act) (ok : Conf Tid Sh Lc → Tid → Act → Prop)
    (c₀ : Conf Tid Sh Lc) : List (Move Tid Lc) → Conf Tid Sh Lc → Prop where
  | nil : Run p ok c₀ [] c₀
  | snoc {tr : List (Move Tid Lc)} {c : Conf Tid Sh Lc} {t : Tid} {a : Act}
      {r : Sh × Lc} :
      Run p ok c₀ tr c → ok c t a → p t c.sh (c.loc t) a = some r →
      Run p ok c₀ (tr ++ [⟨t, c.loc t, r.2⟩]) (c.put t r)

/-- Every step is allowed. -/
abbrev always : Conf Tid Sh Lc → Tid → Act → Prop := fun _ _ _ => True

attribute [grind =] Function.update_apply

variable {p : Prog Tid Sh Lc Act} {ok : Conf Tid Sh Lc → Tid → Act → Prop}
  {init : Conf Tid Sh Lc → Prop}

/-- **The invariant rule.** What holds initially and survives every allowed step
    holds in every configuration reached. -/
theorem Reach.invariant {I : Conf Tid Sh Lc → Prop}
    (hinit : ∀ c, init c → I c)
    (hstep : ∀ c t a r, I c → ok c t a → p t c.sh (c.loc t) a = some r →
      I (c.put t r))
    {c : Conf Tid Sh Lc} (h : Reach p ok init c) : I c := by
  induction h with
  | start h0 => exact hinit _ h0
  | step _ hok hs ih => exact hstep _ _ _ _ ih hok hs

/-- What is reached from a reached configuration is reached. -/
theorem Reach.trans {c d : Conf Tid Sh Lc} (h : Reach p ok init c)
    (h' : Reach p ok (· = c) d) : Reach p ok init d := by
  induction h' with
  | start heq =>
      rw [heq]
      exact h
  | step _ hok hs ih => exact .step ih hok hs

/-- A stronger side condition reaches fewer configurations. -/
theorem Reach.mono {ok' : Conf Tid Sh Lc → Tid → Act → Prop}
    (himp : ∀ c t a, ok c t a → ok' c t a) {c : Conf Tid Sh Lc}
    (h : Reach p ok init c) : Reach p ok' init c := by
  induction h with
  | start h0 => exact .start h0
  | step _ hok hs ih => exact .step ih (himp _ _ _ hok) hs

/-- More initial configurations reach more. -/
theorem Reach.mono_init {init' : Conf Tid Sh Lc → Prop} (himp : ∀ c, init c → init' c)
    {c : Conf Tid Sh Lc} (h : Reach p ok init c) : Reach p ok init' c := by
  induction h with
  | start h0 => exact .start (himp _ h0)
  | step _ hok hs ih => exact .step ih hok hs

/-- The end of a run is reached. -/
theorem Run.reach {c₀ c : Conf Tid Sh Lc} {tr : List (Move Tid Lc)}
    (h : Run p ok c₀ tr c) (h0 : init c₀) : Reach p ok init c := by
  induction h with
  | nil => exact .start h0
  | snoc _ hok hs ih => exact .step ih hok hs

/-- What a schedule executes is a run. -/
theorem run_of_exec [∀ c t a, Decidable (ok c t a)] {c d : Conf Tid Sh Lc}
    {as : List (Tid × Act)} (hx : exec p ok c as = some d) : ∃ tr, Run p ok c tr d := by
  have hmain : ∀ c' tr, Run p ok c tr c' → exec p ok c' as = some d →
      ∃ tr', Run p ok c tr' d := by
    clear hx
    induction as with
    | nil =>
        intro c' tr hr hx
        obtain rfl : c' = d := Option.some.inj hx
        exact ⟨tr, hr⟩
    | cons m rest ih =>
        intro c' tr hr hx
        obtain ⟨t, a⟩ := m
        obtain ⟨hok, hx⟩ := Option.ite_none_right_eq_some.mp hx
        obtain ⟨r, hs, hx'⟩ := Option.bind_eq_some_iff.mp hx
        exact ih _ _ (.snoc hr hok hs) hx'
  exact hmain c [] .nil hx

/-- What a schedule executes after a reached configuration is reached. -/
theorem Reach.exec [∀ c t a, Decidable (ok c t a)] {c d : Conf Tid Sh Lc}
    {as : List (Tid × Act)} (h : Reach p ok init c) (hx : exec p ok c as = some d) :
    Reach p ok init d := by
  obtain ⟨tr, hr⟩ := run_of_exec hx
  clear hx
  induction hr with
  | nil => exact h
  | snoc _ hok hs ih => exact .step ih hok hs

/-- What a schedule executes is reached. -/
theorem reach_of_exec [∀ c t a, Decidable (ok c t a)] {c d : Conf Tid Sh Lc}
    {as : List (Tid × Act)} (h0 : init c) (hx : exec p ok c as = some d) :
    Reach p ok init d :=
  (Reach.start h0).exec hx

/-! ## One thread -/

/-- The steps of thread `t` while the others stand still. -/
def Solo (p : Prog Tid Sh Lc Act) (t : Tid) : Sh × Lc → Sh × Lc → Prop :=
  Relation.ReflTransGen fun x y => ∃ a, p t x.1 x.2 a = some y

omit [DecidableEq Tid] in
/-- One step. -/
theorem Solo.single {t : Tid} {x y : Sh × Lc} (a : Act) (hs : p t x.1 x.2 a = some y) :
    Solo p t x y :=
  Relation.ReflTransGen.single ⟨a, hs⟩

omit [DecidableEq Tid] in
/-- One run after the other. -/
theorem Solo.trans {t : Tid} {x y z : Sh × Lc} (hxy : Solo p t x y) (hyz : Solo p t y z) :
    Solo p t x z :=
  Relation.ReflTransGen.trans hxy hyz

/-- What a thread comes to by itself is reached. -/
theorem Reach.solo {c : Conf Tid Sh Lc} {t : Tid} {x y : Sh × Lc}
    (h : Reach p always init (c.put t x)) (hs : Solo p t x y) :
    Reach p always init (c.put t y) := by
  induction hs with
  | refl => exact h
  | tail _ hstep ih =>
      obtain ⟨a, ha⟩ := hstep
      rw [← put_put c t _ _]
      refine .step (a := a) ih trivial ?_
      rw [put_sh, put_loc_self]
      exact ha

/-- **Simulation along a map.** If `f` sends initial configurations to initial
    ones and every allowed step, from a reached configuration, to an allowed
    step of `q` or to no change, then it sends reached configurations to
    reached ones. -/
theorem Reach.simulated {Tid' Sh' Lc' Act' : Type} [DecidableEq Tid']
    {q : Prog Tid' Sh' Lc' Act'}
    {ok' : Conf Tid' Sh' Lc' → Tid' → Act' → Prop}
    {init' : Conf Tid' Sh' Lc' → Prop}
    (f : Conf Tid Sh Lc → Conf Tid' Sh' Lc')
    (hinit : ∀ c, init c → init' (f c))
    (hstep : ∀ c t a r, Reach p ok init c → Reach q ok' init' (f c) → ok c t a →
      p t c.sh (c.loc t) a = some r →
      f (c.put t r) = f c ∨ ∃ t' a' r', ok' (f c) t' a' ∧
        q t' (f c).sh ((f c).loc t') a' = some r' ∧ f (c.put t r) = (f c).put t' r')
    {c : Conf Tid Sh Lc} (h : Reach p ok init c) : Reach q ok' init' (f c) := by
  induction h with
  | start h0 => exact .start (hinit _ h0)
  | step hc hok hs ih =>
      rcases hstep _ _ _ _ hc ih hok hs with heq | ⟨t', a', r', hok', hs', heq⟩
      · rw [heq]; exact ih
      · rw [heq]; exact .step ih hok' hs'

/-! ## Views

    A program that contains another one is seen through maps of the shared and of the
    local states; the inner program is run faithfully when every step of the outer one
    leaves the view alone or is a step of the inner one. -/

section Views

variable {Sh' Lc' Act' : Type} {f : Sh → Sh'} {g : Tid → Lc → Lc'}

/-- A configuration seen through `f` and `g`. -/
def Conf.view (f : Sh → Sh') (g : Tid → Lc → Lc') (c : Conf Tid Sh Lc) : Conf Tid Sh' Lc' :=
  ⟨f c.sh, fun t => g t (c.loc t)⟩

/-- A step, seen from outside. -/
theorem view_put (c : Conf Tid Sh Lc) (t : Tid) (r : Sh × Lc) :
    (c.put t r).view f g = (c.view f g).put t (f r.1, g t r.2) := by
  refine congrArg (Conf.mk (f r.1)) (funext fun u => ?_)
  simp only [Conf.view, Function.update_apply, Conf.put]
  split
  · rename_i hut
    rw [hut]
  · rfl

/-- Thread `t` goes to `r` without a change, or by an allowed step. -/
def Follows (p : Prog Tid Sh Lc Act) (ok : Conf Tid Sh Lc → Tid → Act → Prop)
    (c : Conf Tid Sh Lc) (t : Tid) (r : Sh × Lc) : Prop :=
  r = (c.sh, c.loc t) ∨ ∃ a, ok c t a ∧ p t c.sh (c.loc t) a = some r

/-- A step that is one of the program, or none at all. -/
theorem Reach.follows {c : Conf Tid Sh Lc} {t : Tid} {r : Sh × Lc} (h : Reach p ok init c)
    (hf : Follows p ok c t r) : Reach p ok init (c.put t r) := by
  rcases hf with rfl | ⟨a, hok, hs⟩
  · rwa [put_self]
  · exact .step h hok hs

/-- A step that the inner program follows keeps its view reachable. -/
theorem Reach.view_put {q : Prog Tid Sh' Lc' Act'} {ok' : Conf Tid Sh' Lc' → Tid → Act' → Prop}
    {init' : Conf Tid Sh' Lc' → Prop} {c : Conf Tid Sh Lc} {t : Tid} {r : Sh × Lc}
    (h : Reach q ok' init' (c.view f g))
    (hf : Follows q ok' (c.view f g) t (f r.1, g t r.2)) :
    Reach q ok' init' ((c.put t r).view f g) := by
  rw [Interleaving.view_put]
  exact h.follows hf

end Views

end Interleaving
