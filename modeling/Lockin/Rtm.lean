import Mathlib.Logic.Function.Basic
import Mathlib.Data.List.Basic

/-! # Restricted transactional memory

    Memory that threads access inside and outside of transactions.  A transaction buffers its
    stores and publishes them all when it ends.  Conflicts are found access by access: whoever
    makes an access, in a transaction or not, makes the other threads lose the transactions that
    the access conflicts with.  A thread that has lost its transaction has no effect on the
    memory and starts again.

    What a thread does with the memory is a tree of accesses (`Code`).  `Tracks` says that a
    transaction has done a part of such a tree, on any memory in which what it has read is still
    there; with the invariant `Mem.Inv`, which every operation keeps, that is the memory of the
    moment.  So a transaction that ends does to the memory what the code does without
    interference (`Mem.Inv.xend_eq_run`). -/

namespace Rtm

variable {Tid Addr Addr' Val : Type}

/-! ## Code -/

/-- The accesses of a piece of a program, in order. -/
inductive Code (Addr Val : Type) where
  | done
  | load (a : Addr) (next : Val → Code Addr Val)
  | store (a : Addr) (v : Val) (next : Code Addr Val)

namespace Code

/-- The code on other addresses. -/
def map (f : Addr → Addr') : Code Addr Val → Code Addr' Val
  | .done => .done
  | .load a next => .load (f a) fun v => (next v).map f
  | .store a v next => .store (f a) v (next.map f)

/-- What the code does to the memory without interference. -/
def run [DecidableEq Addr] : Code Addr Val → (Addr → Val) → Addr → Val
  | .done, m => m
  | .load a next, m => (next (m a)).run m
  | .store a v next, m => next.run (Function.update m a v)

variable [DecidableEq Addr] [DecidableEq Addr']

/-- Renamed addresses: the code does the same to the renamed memory. -/
theorem run_map {f : Addr → Addr'} (hf : Function.Injective f) (code : Code Addr Val) :
    ∀ m : Addr' → Val, (code.map f).run m ∘ f = code.run (m ∘ f) := by
  induction code with
  | done => exact fun m => rfl
  | load a next ih => exact fun m => ih (m (f a)) m
  | store a v next ih =>
      intro m
      rw [map, run, run, ih, Function.update_comp_eq_of_injective m hf]

end Code

/-! ## Transactions -/

/-- What a transaction has read, with what it has found, and the stores it has buffered. -/
structure Tx (Addr Val : Type) where
  reads : List (Addr × Val)
  writes : Addr → Option Val

namespace Tx

/-- A transaction that has just begun. -/
def fresh : Tx Addr Val := ⟨[], fun _ => none⟩

/-- The memory as the transaction sees it. -/
def sees (x : Tx Addr Val) (m : Addr → Val) (a : Addr) : Val := (x.writes a).getD (m a)

def wrote (x : Tx Addr Val) (a : Addr) : Bool := (x.writes a).isSome

variable [DecidableEq Addr]

def touched (x : Tx Addr Val) (a : Addr) : Bool := x.wrote a || x.reads.any fun p => p.1 = a

/-- What the transaction has read is in the memory. -/
def Current (x : Tx Addr Val) (m : Addr → Val) : Prop := ∀ p ∈ x.reads, m p.1 = p.2

omit [DecidableEq Addr] in
/-- A transaction reads the memory where it has not written. -/
theorem sees_of_not_wrote {x : Tx Addr Val} {a : Addr} (h : x.wrote a = false)
    (m : Addr → Val) : x.sees m a = m a := by
  rw [sees, Option.isSome_eq_false_iff.mp h |> Option.isNone_iff_eq_none.mp]
  rfl

/-- The read set is a part of what a transaction touches. -/
theorem touched_of_read {x : Tx Addr Val} {p : Addr × Val} (hp : p ∈ x.reads) :
    x.touched p.1 = true := by
  have hany : (x.reads.any fun q => q.1 = p.1) = true := List.any_eq_true.mpr ⟨p, hp, by simp⟩
  rw [touched, hany, Bool.or_true]

/-- The write set is a part of what a transaction touches. -/
theorem touched_of_wrote {x : Tx Addr Val} {a : Addr} (h : x.wrote a = true) :
    x.touched a = true := by
  rw [touched, h, Bool.true_or]

/-- A read adds its address to what is touched. -/
theorem touched_read {x : Tx Addr Val} {a b : Addr} {v : Val}
    (h : Tx.touched { x with reads := (a, v) :: x.reads } b = true) :
    x.touched b = true ∨ b = a := by
  simp only [touched, wrote, List.any_cons, Bool.or_eq_true, decide_eq_true_eq] at h ⊢
  obtain h | rfl | h := h
  · exact Or.inl (Or.inl h)
  · exact Or.inr rfl
  · exact Or.inl (Or.inr h)

/-- A write adds its address to what is written. -/
theorem wrote_write {x : Tx Addr Val} {a b : Addr} {v : Val}
    (h : Tx.wrote { x with writes := Function.update x.writes a (some v) } b = true) :
    x.wrote b = true ∨ b = a := by
  by_cases hb : b = a
  · exact Or.inr hb
  · dsimp only [wrote] at h
    rw [Function.update_of_ne hb] at h
    exact Or.inl h

/-- A write adds its address to what is touched. -/
theorem touched_write {x : Tx Addr Val} {a b : Addr} {v : Val}
    (h : Tx.touched { x with writes := Function.update x.writes a (some v) } b = true) :
    x.touched b = true ∨ b = a := by
  obtain h | h := Bool.or_eq_true_iff.mp h
  · exact (wrote_write h).imp_left touched_of_wrote
  · exact Or.inl (Bool.or_eq_true_iff.mpr (Or.inr h))

end Tx

/-- The cells, and the transactions that are open. -/
structure Mem (Tid Addr Val : Type) where
  cells : Addr → Val
  tx : Tid → Option (Tx Addr Val)

section

variable [DecidableEq Tid] [DecidableEq Addr]

namespace Mem

/-- The thread has this transaction now, or none. -/
def put (s : Mem Tid Addr Val) (t : Tid) (o : Option (Tx Addr Val)) : Mem Tid Addr Val :=
  { s with tx := Function.update s.tx t o }

/-- The other threads lose the transactions that an access conflicts with. -/
def conflict (s : Mem Tid Addr Val) (t : Tid) (p : Tx Addr Val → Bool) : Mem Tid Addr Val :=
  { s with tx := fun u => if u = t then s.tx u else (s.tx u).filter fun x => !p x }

def load (s : Mem Tid Addr Val) (t : Tid) (a : Addr) : Val × Mem Tid Addr Val :=
  match s.tx t with
  | none => (s.cells a, s.conflict t (·.wrote a))
  | some x =>
      match x.writes a with
      | some v => (v, s)
      | none =>
          (s.cells a, (s.conflict t (·.wrote a)).put t
            (some { x with reads := (a, s.cells a) :: x.reads }))

def store (s : Mem Tid Addr Val) (t : Tid) (a : Addr) (v : Val) : Mem Tid Addr Val :=
  match s.tx t with
  | none => { s.conflict t (·.touched a) with cells := Function.update s.cells a v }
  | some x =>
      (s.conflict t (·.touched a)).put t
        (some { x with writes := Function.update x.writes a (some v) })

/-- An atomic exchange. -/
def exchange (s : Mem Tid Addr Val) (t : Tid) (a : Addr) (v : Val) : Val × Mem Tid Addr Val :=
  ((s.load t a).1, (s.load t a).2.store t a v)

def xbegin (s : Mem Tid Addr Val) (t : Tid) : Mem Tid Addr Val := s.put t (some .fresh)

/-- The transaction is lost, for whatever reason. -/
def abort (s : Mem Tid Addr Val) (t : Tid) : Mem Tid Addr Val := s.put t none

/-- A fault outside of a transaction. -/
def xend (s : Mem Tid Addr Val) (t : Tid) : Option (Mem Tid Addr Val) :=
  (s.tx t).map fun x => { s.put t none with cells := x.sees s.cells }

/-- What the transactions have read is still there, and nobody else has touched what a
    transaction has stored. -/
structure Inv (s : Mem Tid Addr Val) : Prop where
  current : ∀ t x, s.tx t = some x → x.Current s.cells
  apart : ∀ t u x y a, s.tx t = some x → s.tx u = some y → t ≠ u → x.wrote a = true →
    y.touched a = false

/-! ## What the operations do -/

section

omit [DecidableEq Addr]

variable {s : Mem Tid Addr Val} {t u : Tid} {x y : Tx Addr Val} {a : Addr}
  {o : Option (Tx Addr Val)} {p : Tx Addr Val → Bool}

@[simp] theorem put_cells : (s.put t o).cells = s.cells := rfl

@[simp] theorem put_tx_self : (s.put t o).tx t = o := Function.update_self ..

theorem put_tx_ne (hu : u ≠ t) : (s.put t o).tx u = s.tx u := Function.update_of_ne hu ..

@[simp] theorem conflict_cells : (s.conflict t p).cells = s.cells := rfl

@[simp] theorem conflict_tx_self : (s.conflict t p).tx t = s.tx t := if_pos rfl

/-- A conflict leaves the transactions of the other threads that it does not hit. -/
theorem conflict_eq_some (hu : u ≠ t) :
    (s.conflict t p).tx u = some y ↔ s.tx u = some y ∧ p y = false := by
  rw [conflict]
  dsimp only
  rw [if_neg hu, Option.filter_eq_some_iff, Bool.not_eq_true']

/-- A load outside a transaction reads the memory, and aborts who has written there. -/
theorem load_plain (h : s.tx t = none) :
    s.load t a = (s.cells a, s.conflict t (·.wrote a)) := by
  rw [load, h]

/-- A load in a transaction of an address that it has written itself. -/
theorem load_own {v : Val} (h : s.tx t = some x) (hv : x.writes a = some v) :
    s.load t a = (v, s) := by
  rw [load, h]
  dsimp only
  rw [hv]

/-- Another load in a transaction adds to the read set. -/
theorem load_read (h : s.tx t = some x) (hv : x.writes a = none) :
    s.load t a = (s.cells a, (s.conflict t (·.wrote a)).put t
      (some { x with reads := (a, s.cells a) :: x.reads })) := by
  rw [load, h]
  dsimp only
  rw [hv]

/-- A thread without a transaction acts on the memory at once. -/
theorem load_none (h : s.tx t = none) (a : Addr) :
    (s.load t a).1 = s.cells a ∧ (s.load t a).2.tx t = none := by
  rw [load_plain h]
  exact ⟨rfl, conflict_tx_self.trans h⟩

/-- A load does not change the memory. -/
@[simp] theorem load_cells : (s.load t a).2.cells = s.cells := by
  unfold load
  split
  · rfl
  · split <;> rfl

/-- The others keep their transactions or lose them. -/
def Spares (t : Tid) (s s' : Mem Tid Addr Val) : Prop :=
  ∀ u y, u ≠ t → s'.tx u = some y → s.tx u = some y

omit [DecidableEq Tid] in
/-- A thread without a transaction gets none by a step of another one. -/
theorem Spares.none {s' : Mem Tid Addr Val} (h : Spares t s s') (hu : u ≠ t)
    (hnone : s.tx u = none) : s'.tx u = none := by
  cases hy : s'.tx u with
  | none => rfl
  | some y => exact nomatch hnone.symm.trans (h u y hu hy)

/-- A new transaction of a thread is no matter to the others. -/
theorem put_spares (s : Mem Tid Addr Val) (t : Tid) (o : Option (Tx Addr Val)) :
    Spares t s (s.put t o) := by
  intro u y hu hy
  rw [put_tx_ne hu] at hy
  exact hy

/-- A conflict only aborts. -/
theorem conflict_put_spares (s : Mem Tid Addr Val) (t : Tid) (p : Tx Addr Val → Bool)
    (o : Option (Tx Addr Val)) : Spares t s ((s.conflict t p).put t o) := by
  intro u y hu hy
  rw [put_tx_ne hu] at hy
  exact ((conflict_eq_some hu).mp hy).1

/-- A load only aborts others. -/
theorem load_spares (s : Mem Tid Addr Val) (t : Tid) (a : Addr) : Spares t s (s.load t a).2 := by
  cases hx : s.tx t with
  | none =>
      rw [load_plain hx]
      exact fun u y hu hy => ((conflict_eq_some hu).mp hy).1
  | some x =>
      cases hv : x.writes a with
      | some v =>
          rw [load_own hx hv]
          exact fun u y _ hy => hy
      | none =>
          rw [load_read hx hv]
          exact conflict_put_spares s t _ _

end

variable {s s' : Mem Tid Addr Val} {t : Tid}

/-- A store outside a transaction writes the memory, and aborts who has touched it. -/
theorem store_plain {a : Addr} {v : Val} (h : s.tx t = none) :
    s.store t a v =
      { s.conflict t (·.touched a) with cells := Function.update s.cells a v } := by
  rw [store, h]

/-- A store in a transaction is kept in its write set. -/
theorem store_tx {x : Tx Addr Val} {a : Addr} {v : Val} (h : s.tx t = some x) :
    s.store t a v = (s.conflict t (·.touched a)).put t
      (some { x with writes := Function.update x.writes a (some v) }) := by
  rw [store, h]

/-- A store only aborts others. -/
theorem store_spares (s : Mem Tid Addr Val) (t : Tid) (a : Addr) (v : Val) :
    Spares t s (s.store t a v) := by
  cases hx : s.tx t with
  | none =>
      rw [store_plain hx]
      exact fun u y hu hy => ((conflict_eq_some hu).mp hy).1
  | some x =>
      rw [store_tx hx]
      exact conflict_put_spares s t _ _

/-- What a store outside a transaction leaves. -/
theorem store_none (h : s.tx t = none) (a : Addr) (v : Val) :
    (s.store t a v).cells = Function.update s.cells a v ∧ (s.store t a v).tx t = none := by
  rw [store_plain h]
  exact ⟨rfl, conflict_tx_self.trans h⟩

/-- What an exchange outside a transaction leaves. -/
theorem exchange_none (h : s.tx t = none) (a : Addr) (v : Val) :
    (s.exchange t a v).1 = s.cells a ∧
      (s.exchange t a v).2.cells = Function.update s.cells a v ∧
      (s.exchange t a v).2.tx t = none := by
  obtain ⟨hload, hnone⟩ := load_none h a
  obtain ⟨hcells, hstore⟩ := store_none hnone a v
  rw [load_cells] at hcells
  exact ⟨hload, hcells, hstore⟩

/-- An exchange only aborts others. -/
theorem exchange_spares (s : Mem Tid Addr Val) (t : Tid) (a : Addr) (v : Val) :
    Spares t s (s.exchange t a v).2 :=
  fun u y hu hy => load_spares s t a u y hu (store_spares (s.load t a).2 t a v u y hu hy)

/-! ## The invariant -/

omit [DecidableEq Tid] in
/-- Without transactions there is nothing to keep. -/
theorem Inv.of_none (h : ∀ t, s.tx t = none) : s.Inv where
  current t _ hx := nomatch (h t).symm.trans hx
  apart t _ _ _ _ hx := nomatch (h t).symm.trans hx

/-- A change of one thread keeps the invariant. -/
theorem Inv.change (h : s.Inv) (hspares : Spares t s s')
    (hcurrent : ∀ u y, s'.tx u = some y → y.Current s'.cells)
    (hself : ∀ x u y b, s'.tx t = some x → s'.tx u = some y → u ≠ t →
      (x.wrote b = true → y.touched b = false) ∧ (y.wrote b = true → x.touched b = false)) :
    s'.Inv where
  current := hcurrent
  apart u w y z b hy hz hne hb := by
    by_cases hu : u = t
    · subst hu
      exact (hself y w z b hy hz hne.symm).1 hb
    · by_cases hw : w = t
      · subst hw
        exact (hself z u y b hz hy hne).2 hb
      · exact h.apart u w y z b (hspares u y hu hy) (hspares w z hw hz) hne hb

/-- The thread has no transaction afterwards, and has changed nothing that a transaction of
    another thread has read. -/
theorem Inv.change_none (h : s.Inv) (hspares : Spares t s s') (hnone : s'.tx t = none)
    (hcells : ∀ u y, u ≠ t → s'.tx u = some y → ∀ p ∈ y.reads, s'.cells p.1 = s.cells p.1) :
    s'.Inv := by
  refine h.change hspares (fun u y hy p hp => ?_) fun x u y b hx => ?_
  · have hu : u ≠ t := by
      rintro rfl
      exact nomatch hnone.symm.trans hy
    exact (hcells u y hu hy p hp).trans (h.current u y (hspares u y hu hy) p hp)
  · exact nomatch hnone.symm.trans hx

/-- The thread has another transaction afterwards, which has touched more. -/
theorem Inv.change_tx (h : s.Inv) {x x' : Tx Addr Val} {a : Addr} {p : Tx Addr Val → Bool}
    (hx : s.tx t = some x) (hcurrent : x'.Current s.cells)
    (hwrote : ∀ b, x'.wrote b = true → x.wrote b = true ∨ b = a ∧ p = (·.touched a))
    (htouched : ∀ b, x'.touched b = true → x.touched b = true ∨ b = a)
    (hp : ∀ y, p y = false → y.wrote a = false) :
    ((s.conflict t p).put t (some x')).Inv := by
  have hspares := conflict_put_spares s t p (some x')
  refine h.change hspares (fun u y hy => ?_) fun z u y b hz hy hu => ?_
  · by_cases hu : u = t
    · rw [hu, put_tx_self] at hy
      obtain rfl := Option.some.inj hy
      exact hcurrent
    · exact h.current u y (hspares u y hu hy)
  · -- whoever conflicts with the access has lost its transaction
    rw [put_tx_self] at hz
    obtain rfl := Option.some.inj hz
    rw [put_tx_ne hu] at hy
    obtain ⟨hy, hnot⟩ := (conflict_eq_some hu).mp hy
    refine ⟨fun hb => ?_, fun hb => Bool.eq_false_iff.mpr fun hxb => ?_⟩
    · obtain hb | ⟨rfl, rfl⟩ := hwrote b hb
      · exact h.apart t u x y b hx hy hu.symm hb
      · exact hnot
    · obtain hxb | rfl := htouched b hxb
      · exact nomatch (h.apart u t y x b hy hx hu hb).symm.trans hxb
      · exact nomatch (hp y hnot).symm.trans hb

/-- A load keeps the transactions current. -/
theorem Inv.load (h : s.Inv) (t : Tid) (a : Addr) : (s.load t a).2.Inv := by
  cases hx : s.tx t with
  | none =>
      have hspares := load_spares s t a
      rw [load_plain hx] at hspares ⊢
      exact h.change_none hspares (by simpa using hx) fun u y _ _ p _ => rfl
  | some x =>
      cases hv : x.writes a with
      | some v =>
          rw [load_own hx hv]
          exact h
      | none =>
          rw [load_read hx hv]
          refine h.change_tx hx (fun p hp => ?_) (fun b hb => Or.inl hb)
            (fun b hb => Tx.touched_read hb) fun y hy => hy
          obtain rfl | hp := List.mem_cons.mp hp
          · rfl
          · exact h.current t x hx p hp

/-- A store keeps the transactions current. -/
theorem Inv.store (h : s.Inv) (t : Tid) (a : Addr) (v : Val) : (s.store t a v).Inv := by
  cases hx : s.tx t with
  | none =>
      have hspares := store_spares s t a v
      rw [store_plain hx] at hspares ⊢
      refine h.change_none hspares (by simpa using hx) fun u y hu hy p hp => ?_
      -- whoever has read `a` has lost its transaction
      refine Function.update_of_ne ?_ _ _
      rintro rfl
      have hnot := ((conflict_eq_some hu).mp hy).2
      exact nomatch hnot.symm.trans (Tx.touched_of_read hp)
  | some x =>
      rw [store_tx hx]
      refine h.change_tx hx (fun p hp => h.current t x hx p hp)
        (fun b hb => (Tx.wrote_write hb).imp_right fun hb => ⟨hb, rfl⟩)
        (fun b hb => Tx.touched_write hb) fun y hy => Bool.eq_false_iff.mpr fun hb => ?_
      exact nomatch hy.symm.trans (Tx.touched_of_wrote hb)

/-- An exchange keeps the transactions current. -/
theorem Inv.exchange (h : s.Inv) (t : Tid) (a : Addr) (v : Val) : (s.exchange t a v).2.Inv :=
  (h.load t a).store t a v

/-- A new transaction is current. -/
theorem Inv.xbegin (h : s.Inv) (t : Tid) : (s.xbegin t).Inv := by
  refine h.change (put_spares s t _) (fun u y hy => ?_) fun x u y b hx _ _ => ?_
  · by_cases hu : u = t
    · rw [hu, Mem.xbegin, put_tx_self] at hy
      obtain rfl := Option.some.inj hy
      exact fun p hp => nomatch hp
    · exact h.current u y (put_spares s t _ u y hu hy)
  · -- it has not touched anything
    rw [Mem.xbegin, put_tx_self] at hx
    obtain rfl := Option.some.inj hx
    exact ⟨fun hb => absurd hb Bool.false_ne_true, fun _ => rfl⟩

/-- An abort keeps the other transactions current. -/
theorem Inv.abort (h : s.Inv) (t : Tid) : (s.abort t).Inv :=
  h.change_none (put_spares s t none) put_tx_self fun _ _ _ _ _ _ => rfl

/-- A commit keeps the other transactions current. -/
theorem Inv.xend (h : s.Inv) (hs : s.xend t = some s') : s'.Inv := by
  obtain ⟨x, hx, rfl⟩ := Option.map_eq_some_iff.mp hs
  refine h.change_none (put_spares s t none) put_tx_self fun u y hu hy p hp => ?_
  -- nobody else has read what it has stored
  refine Tx.sees_of_not_wrote (Bool.eq_false_iff.mpr fun hb => ?_) _
  have hnot := h.apart t u x y p.1 hx (put_spares s t none u y hu hy) hu.symm hb
  exact nomatch hnot.symm.trans (Tx.touched_of_read hp)

end Mem

/-! ## What a transaction has done -/

/-- The transaction has done the code up to `rest`, on any memory in which what it has read is
    still there. -/
def Tracks (x : Tx Addr Val) (code rest : Code Addr Val) : Prop :=
  ∀ m, x.Current m → code.run m = rest.run (x.sees m)

section

variable {x x' : Tx Addr Val} {code rest : Code Addr Val}

omit [DecidableEq Tid]

/-- Nothing. -/
theorem Tracks.start (hwrites : x.writes = fun _ => none) (code : Code Addr Val) :
    Tracks x code code := by
  intro m _
  have hsees : x.sees m = m := by
    funext a
    rw [Tx.sees, hwrites]
    rfl
  rw [hsees]

/-- A read adds to what has to be there. -/
theorem Tracks.mono (h : Tracks x code rest) (hreads : ∀ p ∈ x.reads, p ∈ x'.reads)
    (hwrites : x'.writes = x.writes) : Tracks x' code rest := by
  intro m hm
  have hsees : x'.sees m = x.sees m := by
    funext a
    rw [Tx.sees, hwrites]
    rfl
  rw [hsees]
  exact h m fun p hp => hm p (hreads p hp)

/-- A transaction goes on with what its load has given. -/
theorem Tracks.load {a : Addr} {v : Val} {next : Val → Code Addr Val}
    (h : Tracks x code (.load a next)) (hv : ∀ m, x.Current m → x.sees m a = v) :
    Tracks x code (next v) := by
  intro m hm
  rw [h m hm, Code.run, hv m hm]

/-- A transaction goes on after a store. -/
theorem Tracks.store {a : Addr} {v : Val} {next : Code Addr Val}
    (h : Tracks x code (.store a v next)) :
    Tracks { x with writes := Function.update x.writes a (some v) } code next := by
  intro m hm
  rw [h m hm, Code.run]
  congr 1
  funext b
  unfold Tx.sees
  dsimp only
  by_cases hb : b = a
  · rw [hb, Function.update_self, Function.update_self]
    rfl
  · rw [Function.update_of_ne hb, Function.update_of_ne hb]

end

namespace Mem

variable {s s' : Mem Tid Addr Val} {t : Tid} {x : Tx Addr Val}

omit [DecidableEq Addr] in
/-- A load in a transaction. -/
theorem load_tx (h : s.tx t = some x) (a : Addr) : ∃ x', (s.load t a).2.tx t = some x' ∧
    x'.writes = x.writes ∧ (∀ p ∈ x.reads, p ∈ x'.reads) ∧
    (x.wrote a = false → (a, (s.load t a).1) ∈ x'.reads) ∧
    ∀ m, x'.Current m → x'.sees m a = (s.load t a).1 := by
  cases hv : x.writes a with
  | some v =>
      rw [load_own h hv]
      refine ⟨x, h, rfl, fun p hp => hp, fun hwrote => ?_, fun m _ => ?_⟩
      · rw [Tx.wrote, hv] at hwrote
        exact absurd hwrote.symm Bool.false_ne_true
      · rw [Tx.sees, hv]
        rfl
  | none =>
      rw [load_read h hv]
      refine ⟨_, put_tx_self, rfl, fun p hp => List.mem_cons_of_mem _ hp,
        fun _ => List.mem_cons_self, fun m hm => ?_⟩
      rw [Tx.sees, hv]
      exact hm _ List.mem_cons_self

omit [DecidableEq Tid] in
/-- A live transaction sees the memory as the code would without interference. -/
theorem Inv.eq_run (hinv : s.Inv) (h : s.tx t = some x) {code rest : Code Addr Val}
    (htracks : Tracks x code rest) : code.run s.cells = rest.run (x.sees s.cells) :=
  htracks s.cells (hinv.current t x h)

/-- **A transaction that ends takes effect at once.** -/
theorem Inv.xend_eq_run (hinv : s.Inv) (h : s.tx t = some x) {code : Code Addr Val}
    (htracks : Tracks x code .done) (hs : s.xend t = some s') : s'.cells = code.run s.cells := by
  obtain ⟨y, hy, rfl⟩ := Option.map_eq_some_iff.mp hs
  obtain rfl := Option.some.inj (h.symm.trans hy)
  exact (hinv.eq_run h htracks).symm

end Mem

end

end Rtm
