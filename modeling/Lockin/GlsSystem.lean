import Lockin.GlsLocks
import Lockin.GlsObjects

/-! # The locks of GLS, from the address to the critical section

    `gls_lock`, `gls_trylock` and `gls_unlock` of one pointer flavour with all their steps: the
    lookup of `GlsObjects`, with its initialization, its cache and the table with its resizes,
    and then the function of the flavour on the object that the lookup has given, which is any
    of the lock models of `GlsLocks`.  Any number of threads use any number of addresses.

    * An object is initialized before the table publishes it, so every object is there from
      the start.
    * Steps of an object are not only those of a call on it: the MCS locks of a thread share
      their nodes, and what the thread does with them at another lock is a step here too
      (`McsGlkIn.Act.other`).  A thread that needs a node when all of them are in use goes
      behind the table of nodes, and then anything may happen (`Act.overflow`).
    * A thread may lock or try a lock that it has.  Its calls at an object run in contexts:
      one has the lock, and another one waits for it or finds it taken.

    No two threads hold the lock of one address (`gls_exclusive`), as long as the lookups keep
    to the condition of `GlsObjects`, the steps of every object to that of its lock, nobody
    runs out of nodes, and who unlocks has the lock. -/

namespace GlsSystem

open Interleaving GlsLocks
open ClhtLp (Addr Val PutType)
open GlsObjects (Call)

variable {Tid : Type}

/-- The function of the flavour. -/
def fn : Call → Fn
  | .lock _ => .lock
  | .trylock _ => .trylock
  | .unlock _ => .unlock

/-- Where a thread is: in no call, in the lookup, back from it with the object, or in the
    function of the flavour, in context `n`. -/
inductive Stage where
  | out
  | lookup
  | found (x : Val)
  | inside (x : Val) (n : Nat)
  deriving DecidableEq

structure Shared (Sh : Type) where
  gls : GlsObjects.Shared
  objs : Val → Sh

/-- A thread, with the state of its contexts at every object. -/
structure Local (Lc : Type) where
  stage : Stage
  gls : GlsObjects.Local
  locs : Val → Nat → Lc

inductive Act (Sh Lc A : Type) where
  | start (call : Call)
  | lookup
  | enter (n : Nat)
  | inner (x : Val) (n : Nat) (a : A)
  | overflow (x : Val) (n : Nat) (sh : Shared Sh) (l : Local Lc)

/-- The stage after a step of the lookup. -/
def looked (l : GlsObjects.Local) : Stage :=
  match l.pc, l.lookups with
  | .out, (_, x) :: _ => .found x
  | _, _ => .lookup

/-- A step at object `x` in context `n`. -/
def Local.setLoc {Lc : Type} (l : Local Lc) (x : Val) (n : Nat) (loc : Lc) : Local Lc :=
  { l with locs := Function.update l.locs x (Function.update (l.locs x) n loc) }

section

variable [DecidableEq Tid] (M : LockModel (Tid × Nat))

/-- The thread has the lock of the address. -/
def Holds (l : Local M.Lc) (addr : Addr) : Prop :=
  ∃ p ∈ l.gls.lookups, p.1 = addr ∧ ∃ n, M.place (l.locs p.2 n) = .critical

/-- The stage after a step at object `x` in context `n` that leads to `l'`. -/
def settle (l : Local M.Lc) (x : Val) (n : Nat) (l' : M.Lc) : Stage :=
  if l.stage = .inside x n ∧ M.place l' ≠ .inside (fn l.gls.call) then .out else l.stage

variable (cache : Bool) (type : PutType)

/-- One step of a thread. -/
def prog : Prog Tid (Shared M.Sh) (Local M.Lc) (Act M.Sh M.Lc M.Act) := fun t sh l a =>
  match a with
  | .start call =>
      if l.stage = .out then
        (GlsObjects.prog cache type t sh.gls l.gls (.start call)).map fun r =>
          ({ sh with gls := r.1 }, { l with stage := .lookup, gls := r.2 })
      else none
  | .lookup =>
      if l.stage = .lookup then
        (GlsObjects.prog cache type t sh.gls l.gls .go).map fun r =>
          ({ sh with gls := r.1 }, { l with stage := looked r.2, gls := r.2 })
      else none
  | .enter n =>
      match l.stage with
      | .found x =>
          (M.prog (t, n) (sh.objs x) (l.locs x n) (M.start (fn l.gls.call))).map fun r =>
            ({ sh with objs := Function.update sh.objs x r.1 },
              { l.setLoc x n r.2 with stage := .inside x n })
      | _ => none
  | .inner x n a =>
      if M.starts a then none
      else (M.prog (t, n) (sh.objs x) (l.locs x n) a).map fun r =>
        ({ sh with objs := Function.update sh.objs x r.1 },
          { l.setLoc x n r.2 with stage := settle M l x n r.2 })
  | .overflow x n sh' l' => if M.full (l.locs x n) then some (sh', l') else none

/-- Before the first call of the program. -/
structure Init (c : Conf Tid (Shared M.Sh) (Local M.Lc)) : Prop where
  gls : GlsObjects.Init (c.view Shared.gls fun _ => Local.gls)
  stage : ∀ t, (c.loc t).stage = .out
  created : ∀ x, M.created (c.sh.objs x)
  unused : ∀ t x n, M.unused ((c.loc t).locs x n)

/-- The lookups. -/
abbrev glsView (c : Conf Tid (Shared M.Sh) (Local M.Lc)) :
    Conf Tid GlsObjects.Shared GlsObjects.Local :=
  c.view Shared.gls fun _ => Local.gls

/-- One object with the contexts of all threads. -/
def objView (x : Val) (c : Conf Tid (Shared M.Sh) (Local M.Lc)) : Conf (Tid × Nat) M.Sh M.Lc :=
  ⟨c.sh.objs x, fun p => (c.loc p.1).locs x p.2⟩

/-- Who unlocks has the lock, the table has room for the step, the object is a lock in the runs
    that have it, and a node is taken only while one is free. -/
def Ok (c : Conf Tid (Shared M.Sh) (Local M.Lc)) (t : Tid) : Act M.Sh M.Lc M.Act → Prop
  | .start (.unlock addr) => Holds M (c.loc t) addr
  | .start _ => True
  | .lookup => GlsObjects.Fits (glsView M c) t .go
  | .enter _ => True
  | .inner x n a => M.ok (objView M x c) (t, n) a
  | .overflow _ _ _ _ => False

/-- **The locks of GLS are locks**, an unlock gets to the object that its thread holds, a thread
    that holds a lock can unlock it, and no assertion fails. -/
structure Exclusive (c : Conf Tid (Shared M.Sh) (Local M.Lc)) : Prop where
  unique : ∀ t u addr, Holds M (c.loc t) addr → Holds M (c.loc u) addr → t = u
  unlock : ∀ t addr x, (c.loc t).stage = .found x → (c.loc t).gls.call = .unlock addr →
    ∃ n, M.place ((c.loc t).locs x n) = .critical
  release : ∀ t addr, (c.loc t).stage = .out → Holds M (c.loc t) addr →
    ((prog M cache type) t c.sh (c.loc t) (.start (.unlock addr))).isSome
  safe : ∀ t, (c.loc t).gls.pc ≠ .crash

end

/-! ## One thread -/

section

variable [DecidableEq Tid] {M : LockModel (Tid × Nat)} {cache : Bool} {type : PutType} {t : Tid}
  {sh : Shared M.Sh} {l : Local M.Lc} {r : Shared M.Sh × Local M.Lc}

/-- The call is at the object. -/
def Stage.On (s : Stage) (x : Val) : Prop := s = .found x ∨ ∃ n, s = .inside x n

/-- The one place that is written. -/
theorem setLoc_locs {Lc : Type} (l : Local Lc) (x y : Val) (n m : Nat) (loc : Lc) :
    (l.setLoc x n loc).locs y m = if y = x ∧ m = n then loc else l.locs y m := by
  unfold Local.setLoc
  dsimp only
  by_cases hyx : y = x
  · rw [hyx, Function.update_self, Function.update_apply]
    exact if_congr (and_iff_right rfl).symm rfl rfl
  · rw [Function.update_of_ne hyx, if_neg fun h => hyx h.1]

/-- What holds of a thread where it stands. -/
structure Here (M : LockModel (Tid × Nat)) (l : Local M.Lc) : Prop where
  out : l.stage ≠ .lookup → l.gls.pc = .out
  on : ∀ x, l.stage.On x → (l.gls.call.addr, x) ∈ l.gls.lookups ∧
    ((∀ a, l.gls.call ≠ .unlock a) → l.gls.call.addr ∈ l.gls.locks)
  inside : ∀ x n, l.stage = .inside x n → M.place (l.locs x n) = .inside (fn l.gls.call)
  outside : ∀ x n f, M.place (l.locs x n) = .inside f → l.stage = .inside x n
  locked : ∀ x n, M.place (l.locs x n) = .critical → ∃ a ∈ l.gls.locks, (a, x) ∈ l.gls.lookups

/-- A call begins. -/
theorem Here.start (h : Here M l) {call : Call}
    (hs : prog M cache type t sh l (.start call) = some r) :
    Here M r.2 ∧ l.stage = .out ∧
      GlsObjects.prog cache type t sh.gls l.gls (.start call) = some (r.1.gls, r.2.gls) ∧
      r.1.objs = sh.objs ∧ r.2.locs = l.locs ∧ r.2.stage = .lookup ∧ r.2.gls.call = call ∧
      r.2.gls.lookups = l.gls.lookups := by
  obtain ⟨hout, hs⟩ := Option.ite_none_right_eq_some.mp hs
  obtain ⟨r', hg, rfl⟩ := Option.map_eq_some_iff.mp hs
  have hr' : r' = (sh.gls, { l.gls with pc := .initOnce, call := call }) := by
    obtain ⟨-, hr⟩ := Option.ite_none_right_eq_some.mp hg
    exact (Option.some.inj hr).symm
  refine ⟨⟨by simp, ?_, by simp, ?_, ?_⟩, hout, hg, rfl, rfl, rfl, by rw [hr'], by rw [hr']⟩
  · rintro x (hx | ⟨n, hx⟩) <;> cases hx
  · intro x n f hf
    exact absurd (hout.symm.trans (h.outside x n f hf)) (by simp)
  · rw [hr']
    exact h.locked

/-- A step of the lookup goes on, or has the object. -/
theorem Here.lookup (h : Here M l) (hs : prog M cache type t sh l .lookup = some r) :
    Here M r.2 ∧ l.stage = .lookup ∧
      GlsObjects.prog cache type t sh.gls l.gls .go = some (r.1.gls, r.2.gls) ∧
      r.1.objs = sh.objs ∧ r.2.locs = l.locs ∧ r.2.gls.call = l.gls.call ∧
      (r.2.stage = .lookup ∧ r.2.gls.lookups = l.gls.lookups ∨
        ∃ v, r.2.stage = .found v ∧ r.2.gls.lookups = (l.gls.call.addr, v) :: l.gls.lookups) := by
  obtain ⟨hstage, hs⟩ := Option.ite_none_right_eq_some.mp hs
  obtain ⟨r', hg, rfl⟩ := Option.map_eq_some_iff.mp hs
  have hno : ∀ x n f, M.place (l.locs x n) ≠ .inside f := by
    intro x n f hf
    exact absurd (hstage.symm.trans (h.outside x n f hf)) (by simp)
  obtain ⟨pc, tab, hpc, heq⟩ | ⟨v, known, tab, heq⟩ := GlsObjects.go_cases hg
  · -- it goes on
    have hlooked : looked r'.2 = .lookup := by
      rw [heq]
      unfold looked
      split
      · next hout _ => exact absurd hout hpc
      · rfl
    refine ⟨?_, hstage, hg, rfl, rfl, by rw [heq], Or.inl ⟨hlooked, by rw [heq]⟩⟩
    rw [hlooked, heq]
    refine ⟨by simp, ?_, by simp, fun x n f hf => absurd hf (hno x n f), h.locked⟩
    rintro x (hx | ⟨n, hx⟩) <;> cases hx
  · -- it has the object
    have hlooked : looked r'.2 = .found v := by
      rw [heq]
      rfl
    have hlocks : ∀ a ∈ l.gls.locks, a ∈ r'.2.locks := by
      intro a ha
      rw [heq]
      dsimp only [GlsObjects.Local.found]
      split
      · exact ha
      · exact List.mem_cons_of_mem _ ha
    refine ⟨?_, hstage, hg, rfl, rfl, by rw [heq]; rfl, Or.inr ⟨v, hlooked, by rw [heq]; rfl⟩⟩
    rw [hlooked]
    refine ⟨fun _ => by rw [heq]; rfl, ?_, by simp, fun x n f hf => absurd hf (hno x n f), ?_⟩
    · rintro x (hx | ⟨n, hx⟩) <;> cases hx
      rw [heq]
      refine ⟨List.mem_cons_self .., fun hlock => ?_⟩
      dsimp only [GlsObjects.Local.found] at hlock ⊢
      split
      · next a hcall => exact absurd hcall (hlock a)
      · exact List.mem_cons_self ..
    · intro x n hx
      obtain ⟨a, ha, hmem⟩ := h.locked x n hx
      refine ⟨a, hlocks a ha, ?_⟩
      rw [heq]
      exact List.mem_cons_of_mem _ hmem

/-- The function of the flavour begins. -/
theorem Here.enter (h : Here M l) {n : Nat} (hs : prog M cache type t sh l (.enter n) = some r) :
    ∃ x r', l.stage = .found x ∧ M.place (l.locs x n) = (fn l.gls.call).from ∧
      M.prog (t, n) (sh.objs x) (l.locs x n) (M.start (fn l.gls.call)) = some r' ∧
      r = ({ sh with objs := Function.update sh.objs x r'.1 },
        { l.setLoc x n r'.2 with stage := .inside x n }) ∧ Here M r.2 := by
  dsimp only [prog] at hs
  split at hs
  · next x hstage =>
    obtain ⟨r', hstep, rfl⟩ := Option.map_eq_some_iff.mp hs
    obtain ⟨hfrom, hin⟩ := M.start_step _ _ _ _ _ hstep
    refine ⟨x, r', hstage, hfrom, hstep, rfl, fun _ => h.out (by simp [hstage]), ?_, ?_, ?_, ?_⟩
    · rintro y (hy | ⟨m, hy⟩) <;> cases hy
      exact h.on x (Or.inl hstage)
    · intro y m hy
      cases hy
      show M.place ((l.setLoc x n r'.2).locs x n) = _
      rw [setLoc_locs, if_pos ⟨rfl, rfl⟩]
      exact hin
    · intro y m f hf
      have hf' : M.place ((l.setLoc x n r'.2).locs y m) = .inside f := hf
      rw [setLoc_locs] at hf'
      split at hf' <;> rename_i heq
      · rw [heq.1, heq.2]
      · exact absurd (hstage.symm.trans (h.outside y m f hf')) (by simp)
    · intro y m hy
      have hy' : M.place ((l.setLoc x n r'.2).locs y m) = .critical := hy
      rw [setLoc_locs] at hy'
      split at hy'
      · rw [hin] at hy'
        cases hy'
      · exact h.locked y m hy'
  · cases hs

/-- Where a step at an object leads: on, out of the call, or nowhere when the object and the
    context are not those of the call. -/
theorem Here.flow (h : Here M l) {x : Val} {n : Nat} {taken : Bool} {l' : M.Lc}
    (hflow : Flow taken (M.place (l.locs x n)) (M.place l')) :
    settle M l x n l' = l.stage ∧ M.place l' = M.place (l.locs x n) ∨
      l.stage = .inside x n ∧ settle M l x n l' = .out ∧
        M.place l' = (fn l.gls.call).to taken := by
  by_cases hstage : l.stage = .inside x n
  · rw [h.inside x n hstage] at hflow ⊢
    obtain hsame | hto := hflow
    · refine Or.inl ⟨if_neg fun hne => hne.2 hsame, hsame⟩
    · refine Or.inr ⟨hstage, if_pos ⟨hstage, ?_⟩, hto⟩
      rw [hto]
      cases fn l.gls.call <;> cases taken <;> simp
  · refine Or.inl ⟨if_neg fun hin => hstage hin.1, ?_⟩
    cases hplace : M.place (l.locs x n) with
    | inside f => exact absurd (h.outside x n f hplace) hstage
    | idle | critical =>
        rw [hplace] at hflow
        exact hflow

/-- A step at an object: it goes on, or the call is over. -/
theorem Here.inner (h : Here M l) {x : Val} {n : Nat} {a : M.Act}
    (hs : prog M cache type t sh l (.inner x n a) = some r) :
    ∃ r', M.prog (t, n) (sh.objs x) (l.locs x n) a = some r' ∧
      r = ({ sh with objs := Function.update sh.objs x r'.1 },
        { l.setLoc x n r'.2 with stage := settle M l x n r'.2 }) ∧ Here M r.2 ∧
      (r.2.stage = l.stage ∧ M.place r'.2 = M.place (l.locs x n) ∨
        l.stage = .inside x n ∧ r.2.stage = .out ∧
          M.place r'.2 = (fn l.gls.call).to (M.taken (sh.objs x) (l.locs x n))) := by
  obtain ⟨ha, hs⟩ := Option.ite_none_left_eq_some.mp hs
  obtain ⟨r', hstep, rfl⟩ := Option.map_eq_some_iff.mp hs
  have hflow := h.flow (M.step _ _ _ _ _ (Bool.not_eq_true _ ▸ ha) hstep)
  refine ⟨r', hstep, rfl, ?_, hflow⟩
  obtain ⟨hsettle, hplace⟩ | ⟨hstage, hsettle, hplace⟩ := hflow
  · -- every place is as before
    have hsame : ∀ y m, M.place ((l.setLoc x n r'.2).locs y m) = M.place (l.locs y m) := by
      intro y m
      rw [setLoc_locs]
      split <;> rename_i heq
      · rw [heq.1, heq.2, hplace]
      · rfl
    rw [hsettle]
    refine ⟨h.out, h.on, fun y m hy => ?_, fun y m f hf => ?_, fun y m hy => ?_⟩
    · exact (hsame y m).trans (h.inside y m hy)
    · exact h.outside y m f ((hsame y m).symm.trans hf)
    · exact h.locked y m ((hsame y m).symm.trans hy)
  · -- the call is over
    rw [hsettle]
    refine ⟨fun _ => h.out (by simp [hstage]), ?_, by simp, fun y m f hf => ?_, fun y m hy => ?_⟩
    · rintro y (hy | ⟨m, hy⟩) <;> cases hy
    · have hf' : M.place ((l.setLoc x n r'.2).locs y m) = .inside f := hf
      rw [setLoc_locs] at hf'
      split at hf' <;> rename_i heq
      · -- no function leaves its thread inside
        rw [hplace] at hf'
        revert hf'
        cases fn l.gls.call <;> cases M.taken (sh.objs x) (l.locs x n) <;> simp
      · have hin := Stage.inside.inj (hstage.symm.trans (h.outside y m f hf'))
        exact absurd ⟨hin.1.symm, hin.2.symm⟩ heq
    · have hy' : M.place ((l.setLoc x n r'.2).locs y m) = .critical := hy
      rw [setLoc_locs] at hy'
      split at hy' <;> rename_i heq
      · -- it was a lock or a trylock that ended with the lock
        obtain ⟨hon, hlocks⟩ := h.on x (Or.inr ⟨n, hstage⟩)
        rw [heq.1]
        refine ⟨l.gls.call.addr, hlocks fun a hcall => ?_, hon⟩
        rw [hplace, hcall] at hy'
        cases hy'
      · exact h.locked y m hy'

end

/-! ## Every run -/

/-- The step goes behind the table of nodes. -/
def Act.overflows {Sh Lc A : Type} : Act Sh Lc A → Bool
  | .overflow _ _ _ _ => true
  | _ => false

section

variable [DecidableEq Tid] {M : LockModel (Tid × Nat)} {cache : Bool} {type : PutType}
  {c : Conf Tid (Shared M.Sh) (Local M.Lc)} {t : Tid} {a : Act M.Sh M.Lc M.Act}
  {r : Shared M.Sh × Local M.Lc}

/-- **Step lemma.** -/
theorem Here.step {sh : Shared M.Sh} {l : Local M.Lc} (h : Here M l) (ha : a.overflows = false)
    (hs : prog M cache type t sh l a = some r) : Here M r.2 := by
  cases a with
  | start call => exact (h.start hs).1
  | lookup => exact (h.lookup hs).1
  | enter n =>
      obtain ⟨x, r', -, -, -, -, hr⟩ := h.enter hs
      exact hr
  | inner x n a =>
      obtain ⟨r', -, -, hr, -⟩ := h.inner hs
      exact hr
  | overflow => exact nomatch ha

/-- Before the first call. -/
theorem Init.here (h : Init M c) (t : Tid) : Here M (c.loc t) := by
  have hidle : ∀ x n, M.place ((c.loc t).locs x n) = .idle :=
    fun x n => M.unused_idle _ (h.unused t x n)
  refine ⟨fun _ => (h.gls.loc t).1, ?_, ?_, ?_, ?_⟩
  · rintro x (hx | ⟨n, hx⟩) <;> cases (h.stage t).symm.trans hx
  · intro x n hx
    cases (h.stage t).symm.trans hx
  · intro x n f hf
    cases (hidle x n).symm.trans hf
  · intro x n hx
    cases (hidle x n).symm.trans hx

theorem Ok.tame (hok : Ok M c t a) : a.overflows = false := by
  cases a with
  | overflow => exact hok.elim
  | _ => rfl

/-- **Run lemma.** -/
theorem here_of_reach (h : Reach (prog M cache type) (Ok M) (Init M) c) (t : Tid) :
    Here M (c.loc t) := by
  refine h.invariant (I := fun c => ∀ t, Here M (c.loc t)) (fun _ h0 t => h0.here t)
    (fun c t a r hc hok hs u => ?_) t
  rw [put_loc]
  split
  · exact (hc t).step hok.tame hs
  · exact hc u

/-- The view of an object that the step leaves alone. -/
theorem objView_keep (y : Val) (hsh : r.1.objs y = c.sh.objs y)
    (hloc : r.2.locs y = (c.loc t).locs y) : objView M y (c.put t r) = objView M y c := by
  unfold objView
  rw [put_sh, hsh]
  refine congrArg (Conf.mk (c.sh.objs y)) (funext fun p => ?_)
  rw [put_loc]
  split <;> rename_i hp
  · rw [hloc, hp]
  · rfl

/-- The view of the object of the step. -/
theorem objView_step (x : Val) (n : Nat) {sh' : M.Sh} {l' : M.Lc} {stage : Stage} :
    objView M x (c.put t ({ c.sh with objs := Function.update c.sh.objs x sh' },
      { (c.loc t).setLoc x n l' with stage := stage })) = (objView M x c).put (t, n) (sh', l') := by
  unfold objView Conf.put
  dsimp only
  rw [Function.update_self]
  refine congrArg (Conf.mk sh') (funext fun ⟨u, m⟩ => ?_)
  rw [Function.update_apply, Function.update_apply]
  dsimp only
  by_cases hut : u = t
  · subst hut
    rw [if_pos rfl]
    show ((c.loc u).setLoc x n l').locs x m = _
    rw [setLoc_locs]
    exact if_congr (by simp) rfl rfl
  · rw [if_neg hut, if_neg fun h => hut (Prod.mk.inj h).1]

/-- The lookups run as they do without the objects. -/
theorem gls_of_reach (h : Reach (prog M cache type) (Ok M) (Init M) c) :
    Reach (GlsObjects.prog cache type) GlsObjects.Fits GlsObjects.Init (glsView M c) := by
  refine h.simulated (glsView M) (fun _ h0 => h0.gls) fun c t a r hc _ hok hs => ?_
  have hhere := here_of_reach hc t
  have hview : glsView M (c.put t r) = (glsView M c).put t (r.1.gls, r.2.gls) := view_put ..
  cases a with
  | start call =>
      obtain ⟨-, -, hgls, -⟩ := hhere.start hs
      refine Or.inr ⟨t, _, _, ?_, hgls, hview⟩
      -- no table is in use yet
      obtain ⟨⟨hout, -⟩, -⟩ := Option.ite_none_right_eq_some.mp hgls
      unfold GlsObjects.Fits
      split
      · intro htable
        exact absurd (hout.symm.trans htable) (by simp)
      · trivial
  | lookup =>
      obtain ⟨-, -, hgls, -⟩ := hhere.lookup hs
      exact Or.inr ⟨t, _, _, hok, hgls, hview⟩
  | enter n =>
      obtain ⟨x, r', -, -, -, rfl, -⟩ := hhere.enter hs
      exact Or.inl (hview.trans (put_self (glsView M c) t))
  | inner x n b =>
      obtain ⟨r', -, rfl, -⟩ := hhere.inner hs
      exact Or.inl (hview.trans (put_self (glsView M c) t))
  | overflow => exact hok.elim

/-- Every object runs as it does alone. -/
theorem object_of_reach (h : Reach (prog M cache type) (Ok M) (Init M) c) (y : Val) :
    Reach M.prog M.ok M.Init (objView M y c) := by
  refine h.simulated (objView M y) (fun _ h0 => ⟨h0.created y, fun p => h0.unused p.1 y p.2⟩)
    fun c t a r hc _ hok hs => ?_
  have hhere := here_of_reach hc t
  cases a with
  | start call =>
      obtain ⟨-, -, -, hsh, hloc, -⟩ := hhere.start hs
      exact Or.inl (objView_keep y (congrFun hsh y) (congrFun hloc y))
  | lookup =>
      obtain ⟨-, -, -, hsh, hloc, -⟩ := hhere.lookup hs
      exact Or.inl (objView_keep y (congrFun hsh y) (congrFun hloc y))
  | enter n =>
      obtain ⟨x, r', -, hfrom, hstep, rfl, -⟩ := hhere.enter hs
      by_cases hyx : y = x
      · subst hyx
        exact Or.inr ⟨(t, n), _, r', M.ok_start _ _ _ hfrom, hstep, objView_step y n⟩
      · exact Or.inl (objView_keep y (Function.update_of_ne hyx ..) (Function.update_of_ne hyx ..))
  | inner x n b =>
      obtain ⟨r', hstep, rfl, -⟩ := hhere.inner hs
      by_cases hyx : y = x
      · subst hyx
        exact Or.inr ⟨(t, n), _, r', hok, hstep, objView_step y n⟩
      · exact Or.inl (objView_keep y (Function.update_of_ne hyx ..) (Function.update_of_ne hyx ..))
  | overflow => exact hok.elim

/-- Who is about to run the unlock function has the lock. -/
def Held (M : LockModel (Tid × Nat)) (l : Local M.Lc) : Prop :=
  ∀ a, l.gls.call = .unlock a → (l.stage = .lookup ∨ ∃ x, l.stage = .found x) → Holds M l a

/-- What a thread holds, it has locked. -/
theorem held_of_reach (h : Reach (prog M cache type) (Ok M) (Init M) c) (t : Tid) :
    Held M (c.loc t) := by
  induction h generalizing t with
  | start h0 =>
      rintro a - (hx | ⟨x, hx⟩) <;> cases (h0.stage t).symm.trans hx
  | @step c u b r hc hok hs ih =>
      rw [put_loc]
      split <;> rename_i htu
      case isFalse => exact ih t
      subst htu
      have hhere := here_of_reach hc t
      cases b with
      | start call =>
          obtain ⟨-, -, -, -, hloc, -, hcall, hlookups⟩ := hhere.start hs
          intro a ha _
          obtain rfl : call = .unlock a := hcall.symm.trans ha
          unfold Holds
          rw [hloc, hlookups]
          exact hok
      | lookup =>
          obtain ⟨-, hstage, -, -, hloc, hcall, hlookups⟩ := hhere.lookup hs
          intro a ha _
          -- the lookups only grow
          obtain ⟨p, hp, haddr, hheld⟩ := ih t a (hcall.symm.trans ha) (Or.inl hstage)
          refine ⟨p, ?_, haddr, by rwa [hloc]⟩
          obtain ⟨-, heq⟩ | ⟨v, -, heq⟩ := hlookups <;> rw [heq]
          · exact hp
          · exact List.mem_cons_of_mem _ hp
      | enter n =>
          obtain ⟨x, r', -, -, -, rfl, -⟩ := hhere.enter hs
          rintro a - (hx | ⟨y, hx⟩) <;> cases hx
      | inner x n b =>
          obtain ⟨r', -, rfl, -, ⟨hstage, hplace⟩ | ⟨-, hstage, -⟩⟩ := hhere.inner hs
          · intro a ha hbefore
            rw [hstage] at hbefore
            obtain ⟨p, hp, haddr, m, hheld⟩ := ih t a ha hbefore
            refine ⟨p, hp, haddr, m, ?_⟩
            show M.place (((c.loc t).setLoc x n r'.2).locs p.2 m) = .critical
            rw [setLoc_locs]
            split <;> rename_i heq
            · rw [hplace, ← heq.1, ← heq.2]
              exact hheld
            · exact hheld
          · rintro a - (hx | ⟨y, hx⟩) <;> cases hstage.symm.trans hx
      | overflow => exact hok.elim

/-- **Run lemma.** Every lock excludes. -/
theorem exclusive_of_reach
    (h : Reach (prog M cache type) (Ok M) (Init M) c) : Exclusive M cache type c := by
  have hone := (GlsObjects.inv_of_reach (gls_of_reach h)).oneObject
  refine ⟨?_, ?_, ?_, hone.safe⟩
  · -- one address, one object, and the object is held once
    rintro t u addr ⟨⟨a, x⟩, hx, rfl, n, hxheld⟩ ⟨⟨b, y⟩, hy, rfl, m, hyheld⟩
    obtain rfl : x = y := (hone.object t u _ _ x y hx hy).mpr rfl
    have heq : (t, n) = (u, m) := M.unique (object_of_reach h x) hxheld hyheld
    exact (Prod.mk.inj heq).1
  · intro t addr x hstage hcall
    obtain ⟨⟨a, y⟩, hy, rfl, n, hyheld⟩ := held_of_reach h t addr hcall (Or.inr ⟨x, hstage⟩)
    obtain ⟨hx, -⟩ := (here_of_reach h t).on x (Or.inl hstage)
    rw [hcall] at hx
    obtain rfl : x = y := (hone.object t t _ _ x y hx hy).mpr rfl
    exact ⟨n, hyheld⟩
  · rintro t addr hstage ⟨⟨a, x⟩, hx, rfl, n, hheld⟩
    obtain ⟨b, hb, hbx⟩ := (here_of_reach h t).locked x n hheld
    obtain rfl : a = b := (hone.object t t a b x x hx hbx).mp rfl
    have hout : (c.loc t).gls.pc = .out := (here_of_reach h t).out (by simp [hstage])
    have hgls : GlsObjects.prog cache type t c.sh.gls (c.loc t).gls (.start (.unlock a))
        = some (c.sh.gls, { (c.loc t).gls with pc := .initOnce, call := .unlock a }) :=
      if_pos ⟨hout, hb⟩
    dsimp only [prog]
    rw [if_pos hstage, hgls]
    rfl

/-- **Mutual exclusion of GLS.**  Whatever the flavour, no two threads hold the lock of one
    address, in every run of any number of threads over any number of addresses, while the
    table is created, filled and resized. -/
theorem gls_exclusive (cfg : Glk.Config) (cache : Bool) (type : PutType)
    {c : Conf Tid (Shared (@lock (Tid × Nat) _ cfg (GlsApi.flavour type)).Sh)
      (Local (@lock (Tid × Nat) _ cfg (GlsApi.flavour type)).Lc)}
    (h : Reach (prog (lock cfg (GlsApi.flavour type)) cache type) (Ok _) (Init _) c) :
    Exclusive (lock cfg (GlsApi.flavour type)) cache type c :=
  exclusive_of_reach h

end

/-! ## A schedule -/

/-- The flavour of the schedule. -/
abbrev ttas : LockModel (Bool × Nat) := lock ⟨127, 4095⟩ (GlsApi.flavour .ttas)

/-- Before the first call of the program. -/
def start : Conf Bool (Shared ttas.Sh) (Local ttas.Lc) :=
  ⟨⟨GlsObjects.start.sh, fun _ => TasGlk.FREE⟩,
    fun t => ⟨.out, GlsObjects.start.loc t, fun _ _ => .idle⟩⟩

theorem start_init : Init ttas start :=
  ⟨GlsObjects.start_init, fun _ => rfl, fun _ => rfl, fun _ _ _ => rfl⟩

/-- `Ok` where the lock is held in the first context. -/
def Okay (c : Conf Bool (Shared ttas.Sh) (Local ttas.Lc)) (t : Bool) :
    Act ttas.Sh ttas.Lc ttas.Act → Prop
  | .start (.unlock addr) =>
      ∃ p ∈ (c.loc t).gls.lookups, p.1 = addr ∧ ttas.place ((c.loc t).locs p.2 0) = .critical
  | .lookup => GlsObjects.Fits (glsView ttas c) t .go
  | .overflow _ _ _ _ => False
  | _ => True

theorem Okay.ok {c : Conf Bool (Shared ttas.Sh) (Local ttas.Lc)} {t : Bool}
    {a : Act ttas.Sh ttas.Lc ttas.Act} (h : Okay c t a) : Ok ttas c t a := by
  cases a with
  | start call =>
      cases call with
      | lock | trylock => trivial
      | unlock addr =>
          obtain ⟨p, hp, haddr, hheld⟩ := h
          exact ⟨p, hp, haddr, 0, hheld⟩
  | enter | inner => trivial
  | lookup | overflow => exact h

instance (c : Conf Bool (Shared ttas.Sh) (Local ttas.Lc)) (t : Bool) :
    (a : Act ttas.Sh ttas.Lc ttas.Act) → Decidable (Okay c t a)
  | .start (.unlock _) => (inferInstance : Decidable (∃ p ∈ (c.loc t).gls.lookups, _))
  | .start (.lock _) | .start (.trylock _) => isTrue trivial
  | .lookup => (inferInstance : Decidable (GlsObjects.Fits _ t .go))
  | .enter _ | .inner _ _ _ => isTrue trivial
  | .overflow _ _ _ _ => isFalse id

/-- A thread starts a call and makes `n` steps of its lookup. -/
def calls (t : Bool) (call : Call) (n : Nat) : List (Bool × Act ttas.Sh ttas.Lc ttas.Act) :=
  (t, .start call) :: List.replicate n (t, .lookup)

/-- It goes into the function at object `x` in context `n`, and makes one step. -/
def tries (t : Bool) (x : Val) (n : Nat) : List (Bool × Act ttas.Sh ttas.Lc ttas.Act) :=
  [(t, .enter n), (t, .inner x n TasGlk.Act.go)]

/-- Both threads use address 8 first.  The one that creates the table gets the lock, the trylock
    of the other one finds it taken and locks address 12, and so does one of the thread that has
    the lock, which then unlocks. -/
def racing : List (Bool × Act ttas.Sh ttas.Lc ttas.Act) :=
  calls true (.lock 8) 4 ++ (calls false (.trylock 8) 3 ++ (List.replicate 7 (true, .lookup) ++
    (List.replicate 14 (false, .lookup) ++ (List.replicate 6 (true, .lookup) ++
      (tries true 1 0 ++ (tries false 1 0 ++ (calls false (.lock 12) 14 ++ (tries false 2 0 ++
        (calls true (.trylock 8) 1 ++ (tries true 1 1 ++ calls true (.unlock 8) 1))))))))))

theorem gls_exclusive_racing : ∃ c : Conf Bool (Shared ttas.Sh) (Local ttas.Lc),
    exec (prog ttas true .ttas) Okay start racing = some c ∧ Exclusive ttas true .ttas c ∧
      Holds ttas (c.loc true) 8 ∧ Holds ttas (c.loc false) 12 ∧ (c.loc true).stage = .found 1 := by
  have hrun : ((exec (prog ttas true .ttas) Okay start racing).map fun c =>
      (decide (((8, 1) ∈ (c.loc true).gls.lookups ∧
          ttas.place ((c.loc true).locs 1 0) = .critical) ∧
        (12, 2) ∈ (c.loc false).gls.lookups ∧
          ttas.place ((c.loc false).locs 2 0) = .critical), (c.loc true).stage))
        = some (true, .found 1) := by
    decide +kernel
  obtain ⟨c, hx, hends⟩ := Option.map_eq_some_iff.mp hrun
  obtain ⟨hholds, hstage⟩ := Prod.mk.inj hends
  obtain ⟨⟨htrue, height⟩, hfalse, htwelve⟩ := of_decide_eq_true hholds
  have hreach : Reach (prog ttas true .ttas) (Ok ttas) (Init ttas) c :=
    (reach_of_exec start_init hx).mono fun _ _ _ h => h.ok
  exact ⟨c, hx, gls_exclusive ⟨127, 4095⟩ true .ttas hreach, ⟨_, htrue, rfl, 0, height⟩,
    ⟨_, hfalse, rfl, 0, htwelve⟩, hstage⟩

end GlsSystem
