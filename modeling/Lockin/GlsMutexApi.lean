import Lockin.ClhtLpTas
import Lockin.GlsSystem

/-! # The trylock of the pthread interface

    `gls_mutex_api_lock`, `gls_mutex_api_trylock` and `gls_mutex_api_unlock` of `gls_in.h` on
    any number of addresses, by any number of threads, over any of the seven flavours.

    What the interface needs of a flavour is a `Gls`: the three functions on addresses, and
    what is known of their calls.  There are two of them: `pointers`, where the table of
    `GlsSystem` leads to a lock object, and `inTable`, where the lock is the word of a slot that
    a resize copies.

    A program goes by what the calls return: it unlocks what it was told it has (`told`).
    `gls_mutex_api_trylock` does not pass on what the function of the flavour returns, and
    always returns 0.  So it tells the truth exactly when that function gets the lock, that is,
    when its last step does not find the lock taken, or when the thread had the lock before
    (`glsMutexApiTrylock_truthful`).  A thread that was told wrong unlocks a lock that it does
    not have, and leaves any memory behind (`Act.stray`). -/

namespace GlsMutexApi

open Interleaving GlsLocks
open ClhtLp (Addr PutType)

variable {Tid : Type}

/-- The functions of one flavour, on addresses. -/
structure Gls (Tid : Type) [DecidableEq Tid] where
  Sh : Type
  Lc : Type
  Act : Type
  prog : Prog Tid Sh Lc Act
  Init : Conf Tid Sh Lc → Prop
  /-- The steps that a run may take for the locks to be locks. -/
  ok : Conf Tid Sh Lc → Tid → Act → Prop
  /-- The start of a call. -/
  start : Fn → Addr → Act
  /-- The start of any call. -/
  starts : Act → Bool
  /-- Anything may happen in the step. -/
  wild : Act → Bool
  /-- The call that the thread is in. -/
  call : Lc → Option (Fn × Addr)
  holds : Lc → Addr → Prop
  /-- The next step of a trylock finds the lock taken. -/
  taken : Sh → Lc → Bool
  /-- What a trylock returns when it does not get the lock. -/
  busy : Int
  /-- What holds of a thread where it stands. -/
  fine : Lc → Prop
  init_fine : ∀ c, Init c → ∀ t, fine (c.loc t) ∧ call (c.loc t) = none
  started : ∀ t sh l f a r, a ≠ 0 → fine l → prog t sh l (start f a) = some r →
    fine r.2 ∧ call l = none ∧ call r.2 = some (f, a) ∧ ∀ b, holds l b → holds r.2 b
  stepped : ∀ t sh l x r, starts x = false → wild x = false → fine l →
    prog t sh l x = some r → fine r.2 ∧ (call r.2 = call l ∨ call r.2 = none)
  locked : ∀ t sh l x r a, starts x = false → wild x = false → fine l →
    prog t sh l x = some r → call l = some (.lock, a) → call r.2 = none → holds r.2 a
  tried : ∀ t sh l x r a, starts x = false → wild x = false → fine l →
    prog t sh l x = some r → call l = some (.trylock, a) → call r.2 = none →
    (holds r.2 a ↔ taken sh l = false ∨ holds l a)
  ok_start : ∀ c t f a, a ≠ 0 → (f = .unlock → holds (c.loc t) a) → ok c t (start f a)
  ok_tame : ∀ c t x, ok c t x → wild x = false
  keeps : ∀ c, Reach prog ok Init c → ∀ t x r, starts x = false → ok c t x →
    prog t c.sh (c.loc t) x = some r → ∀ b, holds (c.loc t) b →
    call (c.loc t) ≠ some (.unlock, b) → holds r.2 b
  unique : ∀ c, Reach prog ok Init c → ∀ t u a, holds (c.loc t) a → holds (c.loc u) a → t = u
  unlocks : ∀ c, Reach prog ok Init c → ∀ t a, call (c.loc t) = none → holds (c.loc t) a →
    (prog t c.sh (c.loc t) (start .unlock a)).isSome

/-! ## The interface -/

/-- What `gls_mutex_api_lock` returns. -/
def glsMutexApiLock : Int := 0

/-- What `gls_mutex_api_trylock` returns when the function of the flavour returns `res`. -/
def glsMutexApiTrylock (_res : Int) : Int := 0

/-- What `gls_mutex_api_unlock` returns. -/
def glsMutexApiUnlock : Int := 0

section

variable [DecidableEq Tid] (G : Gls Tid)

/-- A thread of the program. -/
structure Local where
  /-- The last lock or trylock of the address that returned 0 was not followed by an unlock. -/
  told : Addr → Bool
  loc : G.Lc

/-- The calls of a program, the steps of the functions, and an unlock by a thread that was told
    wrong that it has the lock. -/
inductive Act where
  | call (f : Fn) (addr : Addr)
  | inner (x : G.Act)
  | stray (addr : Addr) (sh : G.Sh) (l : {l : G.Lc // G.fine l ∧ G.call l = none})

/-- What the call of a thread returns with its next step. -/
def returns (sh : G.Sh) (l : G.Lc) : Fn → Int
  | .lock => glsMutexApiLock
  | .trylock => glsMutexApiTrylock (if G.taken sh l then G.busy else 0)
  | .unlock => glsMutexApiUnlock

/-- The thread after a step of its function that leads to `l'`. -/
def settle (sh : G.Sh) (l : Local G) (l' : G.Lc) : Local G :=
  match G.call l.loc, G.call l' with
  | some (f, a), none =>
      ⟨if f ≠ .unlock ∧ returns G sh l.loc f = 0 then Function.update l.told a true else l.told,
        l'⟩
  | _, _ => { l with loc := l' }

/-- One step of a thread. -/
def prog : Prog Tid G.Sh (Local G) (Act G) := fun t sh l act =>
  match act with
  | .call f a =>
      if a ≠ 0 ∧ (f = .unlock → l.told a) then
        (G.prog t sh l.loc (G.start f a)).map fun r =>
          (r.1, ⟨if f = .unlock then Function.update l.told a false else l.told, r.2⟩)
      else none
  | .inner x =>
      if G.starts x then none
      else (G.prog t sh l.loc x).map fun r => (r.1, settle G sh l r.2)
  | .stray a sh' l' =>
      if l.told a ∧ G.call l.loc = none then
        some (sh', ⟨Function.update l.told a false, l'.val⟩)
      else none

/-- The functions with their threads. -/
abbrev glsView (c : Conf Tid G.Sh (Local G)) : Conf Tid G.Sh G.Lc :=
  c.view id fun _ => Local.loc

/-- Before the first call of the program. -/
structure Init (c : Conf Tid G.Sh (Local G)) : Prop where
  gls : G.Init (glsView G c)
  told : ∀ t a, (c.loc t).told a = false

/-- Nothing happens but the steps of the functions, and a stray unlock is one. -/
def tame (c : Conf Tid G.Sh (Local G)) (t : Tid) : Act G → Prop
  | .call _ _ => True
  | .inner x => G.wild x = false
  | .stray a _ _ => ¬ G.holds (c.loc t).loc a

/-- The steps are such that the locks are locks, and no step of a trylock finds a lock taken
    that its thread has not. -/
def found (c : Conf Tid G.Sh (Local G)) (t : Tid) : Act G → Prop
  | .call _ _ => True
  | .inner x => G.ok (glsView G c) t x ∧ ∀ a, G.call (c.loc t).loc = some (.trylock, a) →
      G.taken c.sh (c.loc t).loc = false ∨ G.holds (c.loc t).loc a
  | .stray a _ _ => ¬ G.holds (c.loc t).loc a

/-- **The trylock tells the truth**: the call that thread `t` made on `addr`, and that returns
    with the step to `r`, returns 0 exactly if the thread then holds the lock. -/
def Truthful (c : Conf Tid G.Sh (Local G)) (t : Tid) (addr : Addr) (r : G.Sh × Local G) : Prop :=
  returns G c.sh (c.loc t).loc .trylock = 0 ↔ G.holds r.2.loc addr

/-- What the program was told is right: no two threads were told at once that they have the
    lock of an address, who was told has it, and can unlock it. -/
structure Trusted (c : Conf Tid G.Sh (Local G)) : Prop where
  unique : ∀ t u a, (c.loc t).told a = true → (c.loc u).told a = true → t = u
  holds : ∀ t a, (c.loc t).told a = true → G.holds (c.loc t).loc a
  unlocks : ∀ t a, (c.loc t).told a = true → G.call (c.loc t).loc = none →
    (G.prog t c.sh (c.loc t).loc (G.start .unlock a)).isSome

/-! ## One step -/

variable {G} {t : Tid} {sh : G.Sh} {l : Local G} {r : G.Sh × Local G}

/-- What a call is. -/
theorem call_step {f : Fn} {a : Addr} (hs : prog G t sh l (.call f a) = some r) :
    ∃ r', a ≠ 0 ∧ (f = .unlock → l.told a = true) ∧
      G.prog t sh l.loc (G.start f a) = some r' ∧
      r = (r'.1, ⟨if f = .unlock then Function.update l.told a false else l.told, r'.2⟩) := by
  obtain ⟨⟨ha, htold⟩, hs⟩ := Option.ite_none_right_eq_some.mp hs
  obtain ⟨r', hstart, rfl⟩ := Option.map_eq_some_iff.mp hs
  exact ⟨r', ha, htold, hstart, rfl⟩

/-- What a step of a function is. -/
theorem inner_step {x : G.Act} (hs : prog G t sh l (.inner x) = some r) :
    ∃ r', G.starts x = false ∧ G.prog t sh l.loc x = some r' ∧
      r = (r'.1, settle G sh l r'.2) := by
  obtain ⟨hx, hs⟩ := Option.ite_none_left_eq_some.mp hs
  obtain ⟨r', hstep, rfl⟩ := Option.map_eq_some_iff.mp hs
  exact ⟨r', Bool.not_eq_true _ ▸ hx, hstep, rfl⟩

/-- What a stray unlock is. -/
theorem stray_step {a : Addr} {sh' : G.Sh} {l' : {l : G.Lc // G.fine l ∧ G.call l = none}}
    (hs : prog G t sh l (.stray a sh' l') = some r) :
    l.told a = true ∧ r = (sh', ⟨Function.update l.told a false, l'.val⟩) := by
  obtain ⟨⟨htold, -⟩, hr⟩ := Option.ite_none_right_eq_some.mp hs
  exact ⟨htold, (Option.some.inj hr).symm⟩

theorem settle_loc (l' : G.Lc) : (settle G sh l l').loc = l' := by
  unfold settle
  split <;> rfl

/-- A step of a function tells the thread nothing, unless a lock or a trylock returns with it. -/
theorem told_of_settle {l' : G.Lc} {b : Addr} (htold : (settle G sh l l').told b = true) :
    l.told b = true ∨
      ∃ f, f ≠ .unlock ∧ G.call l.loc = some (f, b) ∧ G.call l' = none := by
  unfold settle at htold
  split at htold
  · next f a hcall hret =>
    dsimp only at htold
    split at htold
    · next hf =>
      rw [Function.update_apply] at htold
      split at htold
      · next hb =>
        subst hb
        exact Or.inr ⟨f, hf.1, hcall, hret⟩
      · exact Or.inl htold
    · exact Or.inl htold
  · exact Or.inl htold

/-- A step that does not return leaves what the thread was told. -/
theorem settle_told {l' : G.Lc} (hcall : G.call l' ≠ none) :
    (settle G sh l l').told = l.told := by
  unfold settle
  split
  · next hret => exact absurd hret hcall
  · rfl

/-! ## Any run -/

variable {c : Conf Tid G.Sh (Local G)}

/-- In every run a thread stands where the lock allows it. -/
theorem fine_of_reach (hc : Reach (prog G) (tame G) (Init G) c) (t : Tid) :
    G.fine (c.loc t).loc := by
  refine hc.invariant (I := fun c => ∀ t, G.fine (c.loc t).loc)
    (fun c h t => (G.init_fine _ h.gls t).1) (fun c t a r h hok hs u => ?_) t
  rw [put_loc]
  split
  case isFalse => exact h u
  cases a with
  | call f a =>
      obtain ⟨r', ha, -, hstart, rfl⟩ := call_step hs
      exact (G.started _ _ _ _ _ _ ha (h t) hstart).1
  | inner x =>
      obtain ⟨r', hx, hstep, rfl⟩ := inner_step hs
      rw [settle_loc]
      exact (G.stepped _ _ _ _ _ hx hok (h t) hstep).1
  | stray a sh' l' =>
      obtain ⟨-, rfl⟩ := stray_step hs
      exact l'.property.1

/-- The last step of a trylock. -/
theorem truthful_iff (hc : Reach (prog G) (tame G) (Init G) c) {x : G.Act} {a : Addr}
    (hcall : G.call (c.loc t).loc = some (.trylock, a)) (hx : G.wild x = false)
    (hs : prog G t c.sh (c.loc t) (.inner x) = some r) (hret : G.call r.2.loc = none) :
    Truthful G c t a r ↔ G.taken c.sh (c.loc t).loc = false ∨ G.holds (c.loc t).loc a := by
  obtain ⟨r', hstarts, hstep, rfl⟩ := inner_step hs
  unfold Truthful
  dsimp only at hret ⊢
  rw [settle_loc] at hret ⊢
  have hzero : returns G c.sh (c.loc t).loc .trylock = 0 := rfl
  exact (iff_true_left hzero).trans
    (G.tried _ _ _ _ _ _ hstarts hx (fine_of_reach hc t) hstep hcall hret)

/-! ## Runs in which nobody is told wrong -/

/-- The thread has what it was told it has; the lock that it unlocks is not one of these. -/
structure Trusting (l : Local G) : Prop where
  fine : G.fine l.loc
  holds : ∀ a, l.told a = true → G.holds l.loc a
  unlock : ∀ a, G.call l.loc = some (.unlock, a) → l.told a = false

/-- A call begins. -/
theorem Trusting.call {f : Fn} {a : Addr} (h : Trusting l)
    (hs : prog G t sh l (.call f a) = some r) : Trusting r.2 := by
  obtain ⟨r', ha, -, hstart, rfl⟩ := call_step hs
  obtain ⟨hfine, -, hcall, hholds⟩ := G.started _ _ _ _ _ _ ha h.fine hstart
  refine ⟨hfine, fun b htold => hholds b (h.holds b ?_), fun b hb => ?_⟩
  · dsimp only at htold
    split at htold
    · rw [Function.update_apply] at htold
      split at htold
      · cases htold
      · exact htold
    · exact htold
  · -- with its unlock the program gives up what it was told
    obtain ⟨rfl, rfl⟩ := Prod.mk.inj (Option.some.inj (hcall.symm.trans hb))
    dsimp only
    rw [if_pos rfl, Function.update_self]

/-- **Step lemma.** -/
theorem Trusting.inner {x : G.Act} (hc : Reach G.prog G.ok G.Init (glsView G c))
    (h : Trusting (c.loc t)) (hok : found G c t (.inner x))
    (hs : prog G t c.sh (c.loc t) (.inner x) = some r) : Trusting r.2 := by
  obtain ⟨r', hx, hstep, rfl⟩ := inner_step hs
  have htame := G.ok_tame _ _ _ hok.1
  obtain ⟨hfine, hcall⟩ := G.stepped _ _ _ _ _ hx htame h.fine hstep
  have hkeeps := G.keeps _ hc t x r' hx hok.1 hstep
  refine ⟨?_, fun b htold => ?_, fun b hb => ?_⟩ <;> dsimp only at * <;> rw [settle_loc] at *
  · exact hfine
  · obtain hbefore | ⟨f, hf, hcallb, hret⟩ := told_of_settle htold
    · -- it was told before, and has not begun to unlock it
      refine hkeeps b (h.holds b hbefore) fun hunlock => ?_
      exact absurd ((h.unlock b hunlock).symm.trans hbefore) Bool.false_ne_true
    · cases f with
      | lock => exact G.locked _ _ _ _ _ _ hx htame h.fine hstep hcallb hret
      | trylock =>
          exact (G.tried _ _ _ _ _ _ hx htame h.fine hstep hcallb hret).mpr (hok.2 b hcallb)
      | unlock => exact absurd rfl hf
  · have hne : G.call r'.2 ≠ none := by
      rw [hb]
      exact Option.some_ne_none _
    rw [settle_told hne]
    exact h.unlock b ((hcall.resolve_right hne).symm.trans hb)

/-- **Run lemma.** -/
theorem trusting_of_reach (hc : Reach (prog G) (found G) (Init G) c) :
    Reach G.prog G.ok G.Init (glsView G c) ∧ ∀ t, Trusting (c.loc t) := by
  refine hc.invariant
    (I := fun c => Reach G.prog G.ok G.Init (glsView G c) ∧ ∀ t, Trusting (c.loc t))
    (fun c h => ⟨.start h.gls, fun t => ?_⟩) fun c t a r ⟨hgls, h⟩ hok hs => ?_
  · obtain ⟨hfine, hcall⟩ := G.init_fine _ h.gls t
    refine ⟨hfine, fun a ha => ?_, fun a ha => ?_⟩
    · exact absurd ((h.told t a).symm.trans ha) Bool.false_ne_true
    · cases hcall.symm.trans ha
  · have hothers : Trusting r.2 → ∀ u, Trusting ((c.put t r).loc u) := by
      intro hr u
      rw [put_loc]
      split
      · exact hr
      · exact h u
    cases a with
    | call f a =>
        refine ⟨?_, hothers ((h t).call hs)⟩
        obtain ⟨r', ha, htold, hstart, rfl⟩ := call_step hs
        exact hgls.view_put (Or.inr ⟨_, G.ok_start _ _ _ _ ha fun hf =>
          (h t).holds a (htold hf), hstart⟩)
    | inner x =>
        refine ⟨?_, hothers (Trusting.inner hgls (h t) hok hs)⟩
        obtain ⟨r', -, hstep, rfl⟩ := inner_step hs
        refine hgls.view_put (Or.inr ⟨x, hok.1, ?_⟩)
        dsimp only
        rw [settle_loc]
        exact hstep
    | stray a sh' l' =>
        -- the thread has what it was told, so that its unlock is not stray
        obtain ⟨htold, -⟩ := stray_step hs
        exact absurd ((h t).holds a htold) hok

/-- **Run lemma.** What the program was told is right. -/
theorem trusted_of_reach (hc : Reach (prog G) (found G) (Init G) c) : Trusted G c := by
  obtain ⟨hgls, h⟩ := trusting_of_reach hc
  refine ⟨fun t u a ht hu => ?_, fun t a ht => (h t).holds a ht, fun t a ht hcall => ?_⟩
  · exact G.unique _ hgls t u a ((h t).holds a ht) ((h u).holds a hu)
  · exact G.unlocks _ hgls t a hcall ((h t).holds a ht)

end

/-! ## Lock objects behind the table -/

section Pointers

variable [DecidableEq Tid]

/-- The call of a function on an address. -/
def onAddr : Fn → Addr → GlsObjects.Call
  | .lock, a => .lock a
  | .trylock, a => .trylock a
  | .unlock, a => .unlock a

@[simp] theorem fn_onAddr (f : Fn) (a : Addr) : GlsSystem.fn (onAddr f a) = f := by
  cases f <;> rfl

@[simp] theorem addr_onAddr (f : Fn) (a : Addr) : (onAddr f a).addr = a := by
  cases f <;> rfl

/-- The call that a thread is in. -/
def callOf {Lc : Type} (l : GlsSystem.Local Lc) : Option (Fn × Addr) :=
  if l.stage = .out then none else some (GlsSystem.fn l.gls.call, l.gls.call.addr)

/-- A call begins in `GlsSystem`. -/
def systemStarts {Sh Lc A : Type} : GlsSystem.Act Sh Lc A → Bool
  | .start _ => true
  | _ => false

variable (M : LockModel (Tid × Nat))

/-- The next step of the function finds the object taken. -/
def systemTaken (sh : GlsSystem.Shared M.Sh) (l : GlsSystem.Local M.Lc) : Bool :=
  match l.stage with
  | .inside x n => M.taken (sh.objs x) (l.locs x n)
  | _ => false

variable {M} {cache : Bool} {type : PutType} {t : Tid} {sh : GlsSystem.Shared M.Sh}
  {l : GlsSystem.Local M.Lc} {r : GlsSystem.Shared M.Sh × GlsSystem.Local M.Lc}

omit [DecidableEq Tid] in
/-- The call of a thread that is in one. -/
theorem callOf_of_stage {Lc : Type} {l : GlsSystem.Local Lc} (h : l.stage ≠ .out) :
    callOf l = some (GlsSystem.fn l.gls.call, l.gls.call.addr) := if_neg h

omit [DecidableEq Tid] in
/-- A thread with a call is in it. -/
theorem callOf_eq_some {Lc : Type} {l : GlsSystem.Local Lc} {f : Fn} {a : Addr}
    (h : callOf l = some (f, a)) :
    l.stage ≠ .out ∧ GlsSystem.fn l.gls.call = f ∧ l.gls.call.addr = a := by
  obtain ⟨hstage, heq⟩ := Option.ite_none_left_eq_some.mp h
  exact ⟨hstage, Prod.mk.inj (Option.some.inj heq)⟩

/-- Who holds what after a step at object `x`, in a context that had not the lock. -/
theorem holds_of_setLoc {x : ClhtLp.Val} {n : Nat} {l' : M.Lc} {stage : GlsSystem.Stage} {a : Addr}
    (hbefore : M.place (l.locs x n) ≠ .critical) :
    GlsSystem.Holds M { l.setLoc x n l' with stage := stage } a ↔
      (M.place l' = .critical ∧ (a, x) ∈ l.gls.lookups) ∨ GlsSystem.Holds M l a := by
  -- the lock may be in this context, at this object, or in another one
  constructor
  · rintro ⟨⟨b, y⟩, hy, rfl, m, hm⟩
    have hm' : M.place ((l.setLoc x n l').locs y m) = .critical := hm
    rw [GlsSystem.setLoc_locs] at hm'
    split at hm'
    · next heq =>
      rw [heq.1] at hy
      exact Or.inl ⟨hm', hy⟩
    · exact Or.inr ⟨(b, y), hy, rfl, m, hm'⟩
  · rintro (⟨hl', hx⟩ | ⟨⟨b, y⟩, hy, rfl, m, hm⟩)
    · refine ⟨(a, x), hx, rfl, n, ?_⟩
      show M.place ((l.setLoc x n l').locs x n) = .critical
      rw [GlsSystem.setLoc_locs, if_pos ⟨rfl, rfl⟩]
      exact hl'
    · refine ⟨(b, y), hy, rfl, m, ?_⟩
      show M.place ((l.setLoc x n l').locs y m) = .critical
      rw [GlsSystem.setLoc_locs, if_neg]
      · exact hm
      · rintro ⟨rfl, rfl⟩
        exact hbefore hm

/-- A call begins. -/
theorem system_started {f : Fn} {a : Addr} (h : GlsSystem.Here M l)
    (hs : GlsSystem.prog M cache type t sh l (.start (onAddr f a)) = some r) :
    GlsSystem.Here M r.2 ∧ callOf l = none ∧ callOf r.2 = some (f, a) ∧
      ∀ b, GlsSystem.Holds M l b → GlsSystem.Holds M r.2 b := by
  obtain ⟨hhere, hout, -, -, hlocs, hstage, hcall, hlookups⟩ := h.start hs
  refine ⟨hhere, if_pos hout, ?_, fun b hb => ?_⟩
  · rw [callOf_of_stage (by rw [hstage]; simp), hcall, fn_onAddr, addr_onAddr]
  · unfold GlsSystem.Holds
    rw [hlocs, hlookups]
    exact hb

/-- A step goes on with the call, or is the last one of its function. -/
theorem system_stepped {x : GlsSystem.Act M.Sh M.Lc M.Act} (h : GlsSystem.Here M l)
    (hstarts : systemStarts x = false) (hwild : x.overflows = false)
    (hs : GlsSystem.prog M cache type t sh l x = some r) :
    callOf r.2 = callOf l ∨ callOf r.2 = none ∧ ∃ y n l',
      l.stage = .inside y n ∧ r.2 = { l.setLoc y n l' with stage := .out } ∧
      M.place l' = (GlsSystem.fn l.gls.call).to (systemTaken M sh l) := by
  cases x with
  | start => cases hstarts
  | overflow => cases hwild
  | lookup =>
      obtain ⟨-, hstage, -, -, -, hcall, hnext⟩ := h.lookup hs
      have hin : r.2.stage ≠ .out := by
        obtain ⟨heq, -⟩ | ⟨v, heq, -⟩ := hnext <;> rw [heq] <;> simp
      refine Or.inl ?_
      rw [callOf_of_stage hin, callOf_of_stage (by rw [hstage]; simp), hcall]
  | enter n =>
      obtain ⟨y, r', hstage, -, -, rfl, -⟩ := h.enter hs
      exact Or.inl ((callOf_of_stage (by simp)).trans
        (callOf_of_stage (by rw [hstage]; simp)).symm)
  | inner y n b =>
      obtain ⟨r', -, rfl, -, ⟨hstage, -⟩ | ⟨hin, hstage, hplace⟩⟩ := h.inner hs
      · refine Or.inl ?_
        unfold callOf
        rw [hstage]
        rfl
      · dsimp only at hstage
        refine Or.inr ⟨if_pos hstage, y, n, r'.2, hin, by rw [hstage], ?_⟩
        rw [hplace, systemTaken, hin]

/-- Who holds what after a call has returned. -/
theorem system_returned {x : GlsSystem.Act M.Sh M.Lc M.Act} {f : Fn} {a b : Addr}
    (h : GlsSystem.Here M l) (hstarts : systemStarts x = false) (hwild : x.overflows = false)
    (hs : GlsSystem.prog M cache type t sh l x = some r) (hcall : callOf l = some (f, a))
    (hret : callOf r.2 = none) :
    ∃ y, (a, y) ∈ l.gls.lookups ∧ (GlsSystem.Holds M r.2 b ↔
      (f.to (systemTaken M sh l) = .critical ∧ (b, y) ∈ l.gls.lookups) ∨
        GlsSystem.Holds M l b) := by
  obtain ⟨-, rfl, rfl⟩ := callOf_eq_some hcall
  obtain hsame | ⟨-, y, n, l', hin, hr, hplace⟩ := system_stepped h hstarts hwild hs
  · cases hret.symm.trans (hsame.trans hcall)
  · -- it was in the function, and nobody is in a function with the lock
    refine ⟨y, (h.on y (Or.inr ⟨n, hin⟩)).1, ?_⟩
    have hbefore : M.place (l.locs y n) ≠ .critical := by
      rw [h.inside y n hin]
      simp
    rw [hr, holds_of_setLoc hbefore, hplace]

variable {c : Conf Tid (GlsSystem.Shared M.Sh) (GlsSystem.Local M.Lc)}

/-- A thread keeps what it does not unlock. -/
theorem system_keeps {x : GlsSystem.Act M.Sh M.Lc M.Act}
    (hc : Reach (GlsSystem.prog M cache type) (GlsSystem.Ok M) (GlsSystem.Init M) c)
    (hstarts : systemStarts x = false) (hok : GlsSystem.Ok M c t x)
    (hs : GlsSystem.prog M cache type t c.sh (c.loc t) x = some r) {b : Addr}
    (hb : GlsSystem.Holds M (c.loc t) b) (hcall : callOf (c.loc t) ≠ some (.unlock, b)) :
    GlsSystem.Holds M r.2 b := by
  have h := GlsSystem.here_of_reach hc t
  cases x with
  | start => cases hstarts
  | overflow => exact hok.elim
  | lookup =>
      obtain ⟨-, -, -, -, hlocs, -, hnext⟩ := h.lookup hs
      obtain ⟨p, hp, haddr, n, hn⟩ := hb
      refine ⟨p, ?_, haddr, n, by rw [hlocs]; exact hn⟩
      obtain ⟨-, heq⟩ | ⟨v, -, heq⟩ := hnext <;> rw [heq]
      · exact hp
      · exact List.mem_cons_of_mem _ hp
  | enter n =>
      obtain ⟨y, r', hstage, hfrom, -, rfl, -⟩ := h.enter hs
      by_cases hcrit : M.place ((c.loc t).locs y n) = .critical
      · -- an unlock, and of another address
        obtain ⟨⟨b, z⟩, hz, rfl, m, hm⟩ := hb
        refine ⟨(b, z), hz, rfl, m, ?_⟩
        show M.place (((c.loc t).setLoc y n r'.2).locs z m) = .critical
        rw [GlsSystem.setLoc_locs, if_neg]
        · exact hm
        · rintro ⟨rfl, rfl⟩
          have hone := (GlsObjects.inv_of_reach (GlsSystem.gls_of_reach hc)).oneObject
          have haddr := (hone.object t t _ _ z z (h.on z (Or.inl hstage)).1 hz).mp rfl
          refine hcall ?_
          rw [callOf_of_stage (by rw [hstage]; simp), haddr]
          rw [hcrit] at hfrom
          cases hfn : GlsSystem.fn (c.loc t).gls.call <;> rw [hfn] at hfrom <;>
            first | rfl | cases hfrom
      · exact (holds_of_setLoc hcrit).mpr (Or.inr hb)
  | inner y n a =>
      obtain ⟨r', -, rfl, -, ⟨-, hplace⟩ | ⟨hin, -, -⟩⟩ := h.inner hs
      · obtain ⟨p, hp, haddr, m, hm⟩ := hb
        refine ⟨p, hp, haddr, m, ?_⟩
        show M.place (((c.loc t).setLoc y n r'.2).locs p.2 m) = .critical
        rw [GlsSystem.setLoc_locs]
        split
        · next heq => rw [hplace, ← heq.1, ← heq.2]; exact hm
        · exact hm
      · refine (holds_of_setLoc ?_).mpr (Or.inr hb)
        rw [h.inside y n hin]
        simp

variable (M cache type) in
/-- The functions of a pointer flavour. -/
def pointers : Gls Tid where
  Sh := GlsSystem.Shared M.Sh
  Lc := GlsSystem.Local M.Lc
  Act := GlsSystem.Act M.Sh M.Lc M.Act
  prog := GlsSystem.prog M cache type
  Init := GlsSystem.Init M
  ok := GlsSystem.Ok M
  start f a := .start (onAddr f a)
  starts := systemStarts
  wild := GlsSystem.Act.overflows
  call := callOf
  holds := GlsSystem.Holds M
  taken := systemTaken M
  busy := M.busy
  fine := GlsSystem.Here M
  init_fine _ h t := ⟨h.here t, if_pos (h.stage t)⟩
  started _ _ _ _ _ _ _ h hs := system_started h hs
  stepped _ _ _ _ _ hstarts hwild h hs :=
    ⟨h.step hwild hs, (system_stepped h hstarts hwild hs).imp_right And.left⟩
  locked _ _ _ _ _ a hstarts hwild h hs hcall hret := by
    obtain ⟨y, hy, hiff⟩ := system_returned (b := a) h hstarts hwild hs hcall hret
    exact hiff.mpr (Or.inl ⟨rfl, hy⟩)
  tried _ sh l _ _ a hstarts hwild h hs hcall hret := by
    obtain ⟨y, hy, hiff⟩ := system_returned (b := a) h hstarts hwild hs hcall hret
    rw [hiff, and_iff_left hy]
    cases systemTaken M sh l <;> simp
  ok_start c t f a _ hf := by
    cases f with
    | lock | trylock => trivial
    | unlock => exact hf rfl
  ok_tame _ _ _ hok := hok.tame
  keeps _ hc _ _ _ hstarts hok hs _ hb hcall := system_keeps hc hstarts hok hs hb hcall
  unique _ hc := (GlsSystem.exclusive_of_reach hc).unique
  unlocks _ hc t a hcall ha := by
    refine (GlsSystem.exclusive_of_reach hc).release t a ?_ ha
    by_contra hout
    cases (callOf_of_stage hout).symm.trans hcall

end Pointers

/-! ## Lock words in the table -/

section InTable

open ClhtLpConc (Words)

/-- The call of a function on an address. -/
def tasIn : Fn → Addr → ClhtLpConc.Call
  | .lock, a => .lockTasIn a
  | .trylock, a => .trylockTasIn a
  | .unlock, a => .unlockTasIn a

/-- The function and the address of a call. -/
def named : ClhtLpConc.Call → Option (Fn × Addr)
  | .lockTasIn a => some (.lock, a)
  | .trylockTasIn a => some (.trylock, a)
  | .unlockTasIn a => some (.unlock, a)
  | _ => none

@[simp] theorem named_tasIn (f : Fn) (a : Addr) : named (tasIn f a) = some (f, a) := by
  cases f <;> rfl

/-- The functions of `tas_in` are named by their calls of the table. -/
theorem tasIn_of_named {call : ClhtLpConc.Call} {f : Fn} {a : Addr}
    (h : named call = some (f, a)) : call = tasIn f a := by
  cases call <;> cases h <;> rfl

/-- They are calls on the words of the table. -/
theorem tasIn_words {a : Addr} (ha : a ≠ 0) (f : Fn) : (tasIn f a).words := by
  cases f <;> exact ha

/-- The call that a thread is in. -/
def tasInCall (l : ClhtLpConc.Local) : Option (Fn × Addr) :=
  match l.pc with
  | .idle => none
  | _ => named l.call

def tasInStarts : ClhtLpConc.Act → Bool
  | .start _ => true
  | .go => false

/-- The CAS finds the word of the slot locked. -/
def tasInTaken (h : ClhtLp.Clht) (l : ClhtLpConc.Local) : Bool :=
  match l.pc with
  | .tasCas p => h.read p ≠ 0
  | _ => false

/-- A thread is in one of the three functions, and at the store only in an unlock. -/
structure InWords (l : ClhtLpConc.Local) : Prop where
  words : l.pc = .idle ∨ l.call.words
  store : ∀ p, l.pc = .tasStore p → ∃ a, l.call = .unlockTasIn a

/-- A thread that is idle in the table is in no call. -/
theorem tasInCall_idle {l : ClhtLpConc.Local} (hidle : l.pc = .idle) : tasInCall l = none := by
  rw [tasInCall, hidle]

/-- A thread in the table is in the call that it has begun. -/
theorem tasInCall_of_ne {l : ClhtLpConc.Local} (hpc : l.pc ≠ .idle) :
    tasInCall l = named l.call := by
  unfold tasInCall
  split
  · next hidle => exact absurd hidle hpc
  · rfl

section Steps

variable {Tid : Type} {t : Tid} {h : ClhtLp.Clht} {l : ClhtLpConc.Local}
  {r : ClhtLp.Clht × ClhtLpConc.Local}

/-- A step that starts no call. -/
theorem tasIn_step {x : ClhtLpConc.Act} (hx : tasInStarts x = false)
    (hs : ClhtLpConc.prog t h l x = some r) :
    x = .go ∧ ClhtLpConc.go h l l.pc = some r ∧ l.pc ≠ .idle := by
  cases x with
  | start => cases hx
  | go =>
      refine ⟨rfl, hs, fun hidle => ?_⟩
      have hgo : ClhtLpConc.go h l l.pc = some r := hs
      rw [hidle] at hgo
      cases hgo

/-- A call begins. -/
theorem tasIn_started {f : Fn} {a : Addr} (ha : a ≠ 0)
    (hs : ClhtLpConc.prog t h l (.start (tasIn f a)) = some r) :
    InWords r.2 ∧ tasInCall l = none ∧ tasInCall r.2 = some (f, a) ∧
      ∀ b, b ∈ l.held → b ∈ r.2.held := by
  dsimp only [ClhtLpConc.prog] at hs
  split at hs
  · next hidle =>
    obtain ⟨-, hr⟩ := Option.ite_none_right_eq_some.mp hs
    obtain rfl := Option.some.inj hr
    have hentry : (tasIn f a).entry = .readHt := by
      cases f <;> rfl
    rw [hentry]
    refine ⟨⟨Or.inr (tasIn_words ha f), fun p hp => by cases hp⟩, tasInCall_idle hidle, ?_,
      fun _ hb => hb⟩
    exact named_tasIn f a
  · cases hs

/-- A step goes on with the call, or is the last one. -/
theorem tasIn_stepped (hin : InWords l) (hpc : l.pc ≠ .idle)
    (hs : ClhtLpConc.go h l l.pc = some r) :
    InWords r.2 ∧ (tasInCall r.2 = tasInCall l ∨ tasInCall r.2 = none) := by
  have hcall := ClhtLpConc.call_of_go hs
  refine ⟨⟨Or.inr ?_, fun p hp => ?_⟩, ?_⟩
  · rw [hcall]
    exact hin.words.resolve_left hpc
  · rw [hcall]
    exact (ClhtLpConc.store_of_go hs hp).elim id (hin.store p)
  · by_cases hret : r.2.pc = .idle
    · exact Or.inr (tasInCall_idle hret)
    · rw [tasInCall_of_ne hret, tasInCall_of_ne hpc, hcall]
      exact Or.inl rfl

/-- A lock or a trylock returns with its CAS: with the lock, or from a trylock that finds the
    word locked. -/
theorem tasIn_returned {f : Fn} {a : Addr} (hin : InWords l) (hf : f ≠ .unlock)
    (hpc : l.pc ≠ .idle) (hs : ClhtLpConc.go h l l.pc = some r)
    (hcall : tasInCall l = some (f, a)) (hret : tasInCall r.2 = none) :
    tasInTaken h l = false ∧ r.2.held = a :: l.held ∨
      f = .trylock ∧ tasInTaken h l = true ∧ r.2.held = l.held := by
  have hl : l.call = tasIn f a := tasIn_of_named ((tasInCall_of_ne hpc).symm.trans hcall)
  have hidle : r.2.pc = .idle := by
    by_contra hne
    rw [tasInCall_of_ne hne, ClhtLpConc.call_of_go hs, hl, named_tasIn] at hret
    cases hret
  unfold tasInTaken
  obtain ⟨x, hpc⟩ | ⟨p, hpc | hpc⟩ := ClhtLpConc.idle_of_go rfl hs hidle
  · -- the table returns the slot to the function
    rw [hpc] at hs
    obtain rfl := Option.some.inj hs
    rw [hl] at hidle
    cases f with
    | lock | trylock => cases x <;> cases hidle
    | unlock => exact absurd rfl hf
  · rw [hpc] at hs ⊢
    dsimp only [ClhtLpConc.go] at hs
    split at hs
    · next hfree =>
      obtain rfl := Option.some.inj hs
      refine Or.inl ⟨by simp [hfree], ?_⟩
      show l.call.key :: l.held = a :: l.held
      rw [hl]
      cases f <;> rfl
    · next hlocked =>
      rw [hl] at hs
      cases f with
      | lock =>
          obtain rfl := Option.some.inj hs
          cases hpc.symm.trans hidle
      | trylock =>
          obtain rfl := Option.some.inj hs
          exact Or.inr ⟨rfl, by simp [hlocked], rfl⟩
      | unlock => exact absurd rfl hf
  · -- the store is the end of an unlock
    obtain ⟨b, hb⟩ := hin.store p hpc
    rw [hb] at hl
    cases f with
    | lock | trylock => cases hl
    | unlock => exact absurd rfl hf

end Steps

variable [DecidableEq Tid]

/-- A thread keeps what it does not unlock. -/
theorem tasIn_keeps {c : Conf Tid ClhtLp.Clht ClhtLpConc.Local} {t : Tid}
    {r : ClhtLp.Clht × ClhtLpConc.Local} (hc : ClhtLpConc.Words c) (hpc : (c.loc t).pc ≠ .idle)
    (hok : ClhtLpConc.OwnSlot c t .go) (hs : ClhtLpConc.go c.sh (c.loc t) (c.loc t).pc = some r)
    {b : Addr} (hb : b ∈ (c.loc t).held) (hcall : tasInCall (c.loc t) ≠ some (.unlock, b)) :
    b ∈ r.2.held := by
  obtain ⟨-, heff⟩ := hc.kept.step hok hs
  cases heff with
  | same _ hheld => rwa [hheld]
  | adds _ _ _ _ hheld => rwa [hheld]
  | takes _ _ _ _ hheld =>
      rw [hheld]
      exact List.mem_cons_of_mem _ hb
  | gives _ _ hgives _ _ hheld =>
      -- only an unlock gives a lock back, and only the one it is called for
      rw [hheld]
      refine List.mem_filter.mpr ⟨hb, decide_eq_true ?_⟩
      rintro rfl
      refine hcall ((tasInCall_of_ne hpc).trans ?_)
      cases hl : (c.loc t).call <;> rw [hl] at hgives <;> first | rfl | cases hgives

omit [DecidableEq Tid] in
/-- Who holds a lock can begin to unlock it. -/
theorem tasIn_unlocks {c : Conf Tid ClhtLp.Clht ClhtLpConc.Local} {t : Tid}
    (hc : ClhtLpConc.Words c) {a : Addr} (hcall : tasInCall (c.loc t) = none)
    (ha : a ∈ (c.loc t).held) :
    (ClhtLpConc.prog t c.sh (c.loc t) (.start (tasIn .unlock a))).isSome := by
  have hidle : (c.loc t).pc = .idle := by
    by_contra hne
    rw [tasInCall_of_ne hne] at hcall
    -- a thread in the table is in a call of one of the three functions
    have hw := (hc.calls t).resolve_left hne
    cases hl : (c.loc t).call <;> rw [hl] at hcall hw <;> first | exact hw.elim | cases hcall
  unfold ClhtLpConc.prog
  rw [hidle]
  exact Option.isSome_iff_exists.mpr ⟨_, if_pos ha⟩

/-- A new table of any size, and all threads outside. -/
def TableInit (c : Conf Tid ClhtLp.Clht ClhtLpConc.Local) : Prop := ∃ n, ClhtLpConc.Init n c

omit [DecidableEq Tid] in
/-- A new table. -/
theorem TableInit.words {c : Conf Tid ClhtLp.Clht ClhtLpConc.Local} (h : TableInit c) :
    ClhtLpConc.Words c := by
  obtain ⟨n, h⟩ := h
  exact h.words

/-- The functions of `GLS_TAS_IN`. -/
def inTable : Gls Tid where
  Sh := ClhtLp.Clht
  Lc := ClhtLpConc.Local
  Act := ClhtLpConc.Act
  prog := ClhtLpConc.prog
  Init := TableInit
  ok := ClhtLpConc.OwnSlot
  start f a := .start (tasIn f a)
  starts := tasInStarts
  wild _ := false
  call := tasInCall
  holds l a := a ∈ l.held
  taken := tasInTaken
  busy := 1
  fine := InWords
  init_fine c h t := by
    obtain ⟨n, h⟩ := h
    obtain ⟨hidle, -⟩ := h.loc t
    refine ⟨⟨Or.inl hidle, fun p hp => ?_⟩, tasInCall_idle hidle⟩
    cases hidle.symm.trans hp
  started _ _ _ _ _ _ ha _ hs := tasIn_started ha hs
  stepped _ _ _ _ _ hstarts _ hin hs := by
    obtain ⟨-, hgo, hpc⟩ := tasIn_step hstarts hs
    exact tasIn_stepped hin hpc hgo
  locked _ _ _ _ _ _ hstarts _ hin hs hcall hret := by
    obtain ⟨-, hgo, hpc⟩ := tasIn_step hstarts hs
    obtain ⟨-, hheld⟩ | ⟨hf, -⟩ := tasIn_returned hin (by simp) hpc hgo hcall hret
    · rw [hheld]
      exact List.mem_cons_self ..
    · cases hf
  tried _ _ _ _ _ _ hstarts _ hin hs hcall hret := by
    obtain ⟨-, hgo, hpc⟩ := tasIn_step hstarts hs
    obtain ⟨hfree, hheld⟩ | ⟨-, htaken, hheld⟩ := tasIn_returned hin (by simp) hpc hgo hcall hret
    · rw [hheld]
      exact iff_of_true (List.mem_cons_self ..) (Or.inl hfree)
    · rw [hheld, htaken]
      simp
  ok_start _ _ f _ ha _ := tasIn_words ha f
  ok_tame _ _ _ _ := rfl
  keeps _ hc _ _ _ hstarts hok hs _ hb hcall := by
    obtain ⟨rfl, hgo, hpc⟩ := tasIn_step hstarts hs
    exact tasIn_keeps (ClhtLpConc.words_of_reach (fun _ h => h.words) hc) hpc hok hgo hb hcall
  unique _ hc := (ClhtLpConc.words_of_reach (fun _ h => h.words) hc).agree.single
  unlocks _ hc t a hcall ha :=
    tasIn_unlocks (ClhtLpConc.words_of_reach (fun _ h => h.words) hc) hcall ha

end InTable

/-! ## Every flavour -/

/-- The functions that `gls_mutex_api_lock`, `gls_mutex_api_trylock` and `gls_mutex_api_unlock`
    call, for a choice of `GLS_LOCK_IN_TYPE_DEFAULT`; `cache` is `GLS_LOCK_CACHE`. -/
def gls [DecidableEq Tid] (cfg : Glk.Config) (cache : Bool) : GlsApi.Flavour → Gls Tid
  | .glk => pointers (lock cfg .glk) cache .adaptive
  | .ttas => pointers (lock cfg .ttas) cache .ttas
  | .mcs => pointers (lock cfg .mcs) cache .mcs
  | .mutex => pointers (lock cfg .mutex) cache .mutex
  | .ticket => pointers (lock cfg .ticket) cache .ticket
  | .tas => pointers (lock cfg .tas) cache .tas
  | .tasIn => inTable

/-- **The trylock of the interface tells the truth exactly when it gets the lock**, for every
    flavour, or when its thread has the lock already.  In every run the step with which a call
    returns decides it; and in runs in which every trylock meets the condition, what the
    program was told is right. -/
theorem glsMutexApiTrylock_truthful [DecidableEq Tid] (cfg : Glk.Config) (cache : Bool)
    (F : GlsApi.Flavour) :
    (∀ (c : Conf Tid (gls cfg cache F).Sh (Local (gls cfg cache F))) (t : Tid)
      (x : (@gls Tid _ cfg cache F).Act) (a : Addr)
      (r : (@gls Tid _ cfg cache F).Sh × Local (@gls Tid _ cfg cache F)),
      Reach (prog _) (tame _) (Init _) c → tame _ c t (.inner x) →
      (gls cfg cache F).call (c.loc t).loc = some (.trylock, a) →
      prog _ t c.sh (c.loc t) (.inner x) = some r → (gls cfg cache F).call r.2.loc = none →
      (Truthful _ c t a r ↔ (gls cfg cache F).taken c.sh (c.loc t).loc = false ∨
        (gls cfg cache F).holds (c.loc t).loc a)) ∧
    ∀ c : Conf Tid (gls cfg cache F).Sh (Local (gls cfg cache F)),
      Reach (prog _) (found _) (Init _) c → Trusted _ c :=
  ⟨fun _ _ _ _ _ hc htame hcall hs hret => truthful_iff hc hcall htame hs hret,
    fun _ hc => trusted_of_reach hc⟩

/-- The functions of `GLS_TTAS`. -/
abbrev ttasGls : Gls Bool := gls ⟨127, 4095⟩ true .ttas

/-- Before the first call of the program. -/
def start : Conf Bool ttasGls.Sh (Local ttasGls) :=
  ⟨GlsSystem.start.sh, fun t => ⟨fun _ => false, GlsSystem.start.loc t⟩⟩

theorem start_init : Init ttasGls start := ⟨GlsSystem.start_init, fun _ _ => rfl⟩

/-- A step of a function, at which no trylock finds a lock taken. -/
def free (c : Conf Bool ttasGls.Sh (Local ttasGls)) (t : Bool) : Act ttasGls → Prop
  | .call _ _ => True
  | .inner x => GlsSystem.Okay (glsView ttasGls c) t x ∧ ttasGls.taken c.sh (c.loc t).loc = false
  | .stray _ _ _ => False

instance (c : Conf Bool ttasGls.Sh (Local ttasGls)) (t : Bool) :
    (a : Act ttasGls) → Decidable (free c t a)
  | .call _ _ => isTrue trivial
  | .inner x => @instDecidableAnd _ _ (GlsSystem.instDecidableOkay _ t x) (Bool.decEq _ _)
  | .stray _ _ _ => isFalse id

section Free

variable {c : Conf Bool ttasGls.Sh (Local ttasGls)} {t : Bool} {a : Act ttasGls}

/-- A trylock that finds the lock free meets the condition. -/
theorem found_of_free (h : free c t a) : found ttasGls c t a := by
  cases a with
  | call => trivial
  | inner x => exact ⟨h.1.ok, fun _ _ => Or.inl h.2⟩
  | stray => exact h.elim

/-- So it does the condition of the run. -/
theorem tame_of_free (h : free c t a) : tame ttasGls c t a := by
  cases a with
  | call => trivial
  | inner x => exact ttasGls.ok_tame _ _ _ h.1.ok
  | stray => exact h.elim

end Free

/-- Thread `t` calls `f` on address 8, looks it up in `n` steps and goes into the function. -/
def calls (t : Bool) (f : Fn) (n : Nat) : List (Bool × Act ttasGls) :=
  (t, .call f 8) :: List.replicate n (t, .inner GlsSystem.Act.lookup) ++
    [(t, .inner (GlsSystem.Act.enter 0))]

/-- The step of the function at the object. -/
def object : ttasGls.Act := GlsSystem.Act.inner 1 0 TasGlk.Act.go

/-- A run up to the step with which a trylock of address 8 returns. -/
theorem returning_of_exec (as : List (Bool × Act ttasGls)) (t u : Bool)
    (hrun : ((exec (prog ttasGls) free start as).bind fun c =>
      (prog ttasGls t c.sh (c.loc t) (.inner object)).map fun r =>
        decide (ttasGls.call (c.loc t).loc = some (.trylock, 8) ∧ ttasGls.call r.2.loc = none ∧
          ttasGls.taken c.sh (c.loc t).loc = decide (t ≠ u) ∧
          ((c.put t r).loc u).told 8 = true)) = some true) :
    ∃ c r, exec (prog ttasGls) free start as = some c ∧
      prog ttasGls t c.sh (c.loc t) (.inner object) = some r ∧
      ttasGls.call (c.loc t).loc = some (.trylock, 8) ∧ ttasGls.call r.2.loc = none ∧
      ttasGls.taken c.sh (c.loc t).loc = decide (t ≠ u) ∧
      ((c.put t r).loc u).told 8 = true := by
  obtain ⟨c, hx, hr⟩ := Option.bind_eq_some_iff.mp hrun
  obtain ⟨r, hs, hends⟩ := Option.map_eq_some_iff.mp hr
  exact ⟨c, r, hx, hs, of_decide_eq_true hends⟩

/-- A trylock of a free lock, up to its last step. -/
def tryFree : List (Bool × Act ttasGls) := calls false .trylock 18 ++ [(false, .inner object)]

/-- The thread that tries a free lock gets it and is told so. -/
theorem glsMutexApiTrylock_truthful_free : ∃ c r,
    exec (prog ttasGls) free start tryFree = some c ∧
    prog ttasGls false c.sh (c.loc false) (.inner object) = some r ∧
    (Truthful ttasGls c false 8 r ↔ ttasGls.taken c.sh (c.loc false).loc = false ∨
      ttasGls.holds (c.loc false).loc 8) ∧ Trusted ttasGls (c.put false r) ∧
    ((c.put false r).loc false).told 8 = true := by
  obtain ⟨c, r, hx, hs, hcall, hret, htaken, htold⟩ :=
    returning_of_exec tryFree false false (by decide +kernel)
  have hreach : Reach (prog ttasGls) free (Init ttasGls) c := reach_of_exec start_init hx
  have htruth := @glsMutexApiTrylock_truthful Bool _ ⟨127, 4095⟩ true .ttas
  have hfound : found ttasGls c false (.inner object) := ⟨trivial, fun _ _ => Or.inl htaken⟩
  exact ⟨c, r, hx, hs, htruth.1 c false object 8 r (hreach.mono fun _ _ _ h => tame_of_free h)
    rfl hcall hs hret,
    htruth.2 _ ((hreach.mono fun _ _ _ h => found_of_free h).step hfound hs), htold⟩

/-- Thread `false` locks, and thread `true` tries, up to its last step. -/
def tryHeld : List (Bool × Act ttasGls) :=
  calls false .lock 18 ++ [(false, .inner object)] ++ calls true .trylock 6

/-- **A trylock of a held lock returns 0.** -/
theorem glsMutexApiTrylock_not_truthful : ¬ ∀ (cfg : Glk.Config) (cache : Bool)
    (F : GlsApi.Flavour) (c : Conf Bool (gls cfg cache F).Sh (Local (gls cfg cache F))) (t : Bool)
    (x : (@gls Bool _ cfg cache F).Act) (a : Addr)
    (r : (@gls Bool _ cfg cache F).Sh × Local (@gls Bool _ cfg cache F)),
    Reach (prog _) (tame _) (Init _) c → tame _ c t (.inner x) →
    (gls cfg cache F).call (c.loc t).loc = some (.trylock, a) →
    prog _ t c.sh (c.loc t) (.inner x) = some r → (gls cfg cache F).call r.2.loc = none →
    Truthful _ c t a r := by
  intro hclaim
  obtain ⟨c, r, hx, hs, hcall, hret, htaken, htold⟩ :=
    returning_of_exec tryHeld true false (by decide +kernel)
  have hreach : Reach (prog ttasGls) free (Init ttasGls) c := reach_of_exec start_init hx
  have htame := hreach.mono fun _ _ _ h => tame_of_free h
  have htruthful := hclaim ⟨127, 4095⟩ true .ttas c true object 8 r htame rfl hcall hs hret
  -- the other thread has the lock
  obtain ⟨hgls, htrusting⟩ := trusting_of_reach (hreach.mono fun _ _ _ h => found_of_free h)
  have hother : ttasGls.holds (c.loc false).loc 8 := by
    rw [put_loc_ne c r (by decide)] at htold
    exact (htrusting false).holds 8 htold
  obtain hfree | hholds := (truthful_iff htame hcall rfl hs hret).mp htruthful
  · cases htaken.symm.trans hfree
  · cases ttasGls.unique _ hgls false true 8 hother hholds

end GlsMutexApi
