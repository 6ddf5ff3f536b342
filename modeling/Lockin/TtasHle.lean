import Lockin.Interleaving
import Lockin.Rtm

/-! # Lock elision

    The locks of `ttas_in.h` and `tas_in.h` built with `RTM`: a thread that finds the lock free
    runs its critical section in a transaction that has read the lock word but not taken the
    lock.  When the transaction is lost the call tries again or takes the lock, and the section
    starts again.

    The data that the lock protects is touched by critical sections alone.  In every run the
    sections take effect one after the other, as with a lock that is always taken
    (`hle_serial`). -/

namespace TtasHle

open Interleaving Rtm

/-- `ttas_in.h` reads the lock word before a call tries anything, `tas_in.h` does not;
    `retries` is 1 with `USE_HLE == 2` and `HLE_RTM_OPT_RETRIES` with `USE_HLE == 3`. -/
structure Config where
  tests : Bool
  retries : Nat

/-- `HLE_RTM_OPT_RETRIES`. -/
def hleRtmOptRetries : Nat := 3

def ttasPessimistic : Config := ⟨true, 1⟩

def ttasOptimistic : Config := ⟨true, hleRtmOptRetries⟩

def tasPessimistic : Config := ⟨false, 1⟩

def tasOptimistic : Config := ⟨false, hleRtmOptRetries⟩

/-- The lock word and the data. -/
inductive Cell (Addr : Type) where
  | lock
  | data (a : Addr)
  deriving DecidableEq

/-- What a thread does with the data while it has the lock. -/
abbrev Section (Addr : Type) := Code Addr UInt32

/-- The memory, and the sections that have taken effect, the last one first. -/
structure Shared (Tid Addr : Type) where
  mem : Mem Tid (Cell Addr) UInt32
  log : List (Tid × Section Addr)

/-- The call and the try that a lost transaction falls back into. -/
structure Begun where
  trylock : Bool
  t : Nat

/-- Where a thread is. -/
inductive Pc where
  | outside
  -- the first test of the lock word
  | tryTest
  | test
  -- `_xbegin`, and in the transaction
  | xbegin (k : Begun)
  | readLock (k : Begun)
  /-- `_xend(); return 1;`. -/
  | giveUp (k : Begun)
  | xabort (k : Begun)
  -- without a transaction
  | tryExchange
  | spin
  | exchange
  /-- The critical section, in a transaction or with the lock. -/
  | critical (k : Option Begun)
  -- `ttas_lock_unlock`
  | unlock (k : Option Begun)
  | xend (k : Option Begun)
  | clear (k : Option Begun)

/-- The transaction that the thread runs in, unless it has lost it. -/
def Pc.begun : Pc → Option Begun
  | .readLock k | .giveUp k | .xabort k => some k
  | .critical k | .unlock k | .xend k | .clear k => k
  | _ => none

/-- A thread with the section of its call, and what is left of the section. -/
structure Local (Addr : Type) where
  pc : Pc
  todo : Section Addr
  rest : Section Addr

/-- The calls, and the choices of the schedule. -/
inductive Act (Addr : Type) where
  | lock (s : Section Addr)
  | trylock (s : Section Addr)
  | go
  /-- The transaction is lost, or has been. -/
  | abort

variable {Tid Addr : Type}

/-- A call that does not try with a transaction any more. -/
def fallback (cfg : Config) (trylock : Bool) : Pc :=
  if trylock then .tryExchange else if cfg.tests then .spin else .exchange

/-- The head of the loop over `t`. -/
def attempt (cfg : Config) (trylock : Bool) (t : Nat) : Pc :=
  if t < cfg.retries then .xbegin ⟨trylock, t⟩ else fallback cfg trylock

section

variable [DecidableEq Tid] [DecidableEq Addr] (cfg : Config)

/-- A step of a thread whose transaction, if it is in one, is not lost. -/
def goStep (t : Tid) (sh : Shared Tid Addr) (l : Local Addr) :
    Option (Shared Tid Addr × Local Addr) :=
  match l.pc with
  | .outside => none
  | .tryTest =>
      let r := sh.mem.load t .lock
      some ({ sh with mem := r.2 },
        { l with pc := if r.1 = 1 then .outside else attempt cfg true 0 })
  | .test =>
      let r := sh.mem.load t .lock
      some ({ sh with mem := r.2 },
        { l with pc := if r.1 = 1 then .test else attempt cfg false 0 })
  | .xbegin k => some ({ sh with mem := sh.mem.xbegin t }, { l with pc := .readLock k })
  | .readLock k =>
      let r := sh.mem.load t .lock
      some ({ sh with mem := r.2 },
        if r.1 = 0 then { l with pc := .critical (some k), rest := l.todo }
        else { l with pc := if k.trylock then .giveUp k else .xabort k })
  | .giveUp _ =>
      (sh.mem.xend t).map fun mem => ({ sh with mem := mem }, { l with pc := .outside })
  | .xabort k =>
      -- the status says `_XABORT_EXPLICIT`
      some ({ sh with mem := sh.mem.abort t }, { l with pc := fallback cfg k.trylock })
  | .tryExchange =>
      let r := sh.mem.exchange t .lock 1
      some ({ sh with mem := r.2 },
        if r.1 = 0 then { l with pc := .critical none, rest := l.todo }
        else { l with pc := .outside })
  | .spin =>
      let r := sh.mem.load t .lock
      some ({ sh with mem := r.2 }, { l with pc := if r.1 = 1 then .spin else .exchange })
  | .exchange =>
      let r := sh.mem.exchange t .lock 1
      some ({ sh with mem := r.2 },
        if r.1 = 0 then { l with pc := .critical none, rest := l.todo }
        else { l with pc := fallback cfg false })
  | .critical k =>
      match l.rest with
      | .done => some (sh, { l with pc := .unlock k })
      | .load a next =>
          let r := sh.mem.load t (.data a)
          some ({ sh with mem := r.2 }, { l with rest := next r.1 })
      | .store a v next =>
          some ({ sh with mem := sh.mem.store t (.data a) v }, { l with rest := next })
  | .unlock k =>
      -- `lock->lock == TTAS_FREE && _xtest()`
      let r := sh.mem.load t .lock
      some ({ sh with mem := r.2 },
        { l with pc := if r.1 = 0 ∧ (r.2.tx t).isSome then .xend k else .clear k })
  | .xend _ =>
      (sh.mem.xend t).map fun mem =>
        (⟨mem, (t, l.todo) :: sh.log⟩, { l with pc := .outside })
  | .clear _ =>
      some (⟨sh.mem.store t .lock 0, (t, l.todo) :: sh.log⟩, { l with pc := .outside })

/-- One step of a thread.  One whose transaction is lost can only go back to `_xbegin`. -/
def prog : Prog Tid (Shared Tid Addr) (Local Addr) (Act Addr) := fun t sh l a =>
  match a with
  | .lock s =>
      match l.pc with
      | .outside => some (sh, ⟨if cfg.tests then .test else attempt cfg false 0, s, s⟩)
      | _ => none
  | .trylock s =>
      match l.pc with
      | .outside => some (sh, ⟨if cfg.tests then .tryTest else attempt cfg true 0, s, s⟩)
      | _ => none
  | .go =>
      if l.pc.begun.isSome → (sh.mem.tx t).isSome then goStep cfg t sh l else none
  | .abort =>
      l.pc.begun.map fun k =>
        ({ sh with mem := sh.mem.abort t }, { l with pc := attempt cfg k.trylock (k.t + 1) })

end

/-- The data in the memory. -/
def data (cells : Cell Addr → UInt32) : Addr → UInt32 := fun a => cells (.data a)

/-- What the sections do one after the other. -/
def replay [DecidableEq Addr] (log : List (Tid × Section Addr)) (m : Addr → UInt32) :
    Addr → UInt32 :=
  log.foldr (fun p m => p.2.run m) m

theorem data_injective : Function.Injective (Cell.data : Addr → Cell Addr) := by
  intro a b h
  cases h
  rfl

section

variable [DecidableEq Addr]

@[simp] theorem data_update_lock (cells : Cell Addr → UInt32) (v : UInt32) :
    data (Function.update cells .lock v) = data cells := by
  funext a
  have hne : Cell.data a ≠ Cell.lock := nofun
  exact Function.update_of_ne hne v cells

@[simp] theorem data_update_data (cells : Cell Addr → UInt32) (a : Addr) (v : UInt32) :
    data (Function.update cells (.data a) v) = Function.update (data cells) a v :=
  Function.update_comp_eq_of_injective cells data_injective a v

/-- The section does the same to the memory without the lock. -/
theorem data_run (code : Section Addr) (cells : Cell Addr → UInt32) :
    data ((code.map .data).run cells) = code.run (data cells) :=
  Code.run_map data_injective code cells

end

/-- A free lock, no transaction, and nobody in a call. -/
structure Init (m : Addr → UInt32) (c : Conf Tid (Shared Tid Addr) (Local Addr)) : Prop where
  free : c.sh.mem.cells .lock = 0
  data : data c.sh.mem.cells = m
  tx : ∀ t, c.sh.mem.tx t = none
  log : c.sh.log = []
  outside : ∀ t, (c.loc t).pc = .outside

/-! ## What holds of a thread -/

/-- How far a thread has got with the lock. -/
inductive Stage where
  | out
  /-- In a transaction, but not in the section yet. -/
  | opened
  /-- In a transaction that has found the lock free. -/
  | elided
  | holder
  deriving DecidableEq

@[simp] def Pc.stage : Pc → Stage
  | .outside | .tryTest | .test | .xbegin _ | .tryExchange | .spin | .exchange => .out
  | .readLock _ | .giveUp _ | .xabort _ => .opened
  | .critical (some _) | .unlock (some _) | .xend (some _) | .clear (some _) => .elided
  | .critical none | .unlock none | .xend none | .clear none => .holder

/-- After the section. -/
@[simp] def Pc.ends : Pc → Bool
  | .unlock _ | .xend _ | .clear _ => true
  | _ => false

/-- The thread has the lock. -/
def Local.Holds (l : Local Addr) : Prop := l.pc.stage = .holder

/-- The thread runs its section in a transaction. -/
def Local.Elides (l : Local Addr) : Prop := l.pc.stage = .elided

/-- A section ends in its transaction, or under the lock. -/
theorem Pc.stage_of_ends {pc : Pc} (h : pc.ends = true) :
    pc.stage = .elided ∨ pc.stage = .holder := by
  cases pc with
  | unlock k | xend k | clear k =>
      cases k with
      | none => exact Or.inr rfl
      | some k => exact Or.inl rfl
  | _ => cases h

/-- Who has taken the lock has not begun a transaction. -/
theorem Pc.begun_of_holder {pc : Pc} (h : pc.stage = .holder) : pc.begun = none := by
  cases pc with
  | critical k | unlock k | xend k | clear k =>
      cases k with
      | none => rfl
      | some k => cases h
  | _ => cases h

/-- After the last attempt the thread tries the lock itself. -/
theorem stage_fallback (cfg : Config) (trylock : Bool) : (fallback cfg trylock).stage = .out := by
  unfold fallback
  split
  · rfl
  · split <;> rfl

/-- An attempt begins outside. -/
theorem stage_attempt (cfg : Config) (trylock : Bool) (t : Nat) :
    (attempt cfg trylock t).stage = .out := by
  unfold attempt
  split
  · rfl
  · exact stage_fallback cfg trylock

theorem stage_ite {p : Prop} [Decidable p] {pc pc' : Pc} (h : pc.stage = .out)
    (h' : pc'.stage = .out) : (if p then pc else pc').stage = .out := by
  split
  · exact h
  · exact h'

variable [DecidableEq Addr]

/-- A transaction in a section: nobody has taken the lock since, and it has done a part of the
    section. -/
structure Elided (x : Tx (Cell Addr) UInt32) (l : Local Addr) : Prop where
  free : (Cell.lock, 0) ∈ x.reads
  untaken : x.wrote .lock = false
  tracks : Tracks x (l.todo.map .data) (l.rest.map .data)

/-- What holds of a thread at its place. -/
structure Here (mem : Mem Tid (Cell Addr) UInt32) (t : Tid) (l : Local Addr) : Prop where
  plain : l.pc.stage = .out ∨ l.pc.stage = .holder → mem.tx t = none
  opened : ∀ x, l.pc.stage = .opened → mem.tx t = some x → x.writes = fun _ => none
  elided : ∀ x, l.pc.stage = .elided → mem.tx t = some x → Elided x l
  done : l.pc.ends = true → l.rest = .done
  xend : l.pc ≠ .xend none
  clear : ∀ k, l.pc ≠ .clear (some k)

/-- It depends on the thread's own transaction only, which it may lose. -/
theorem Here.spared {mem mem' : Mem Tid (Cell Addr) UInt32} {t u : Tid} {l : Local Addr}
    (h : Here mem u l) (hspares : Mem.Spares t mem mem') (hu : u ≠ t) : Here mem' u l where
  plain hstage := hspares.none hu (h.plain hstage)
  opened x hstage hx := h.opened x hstage (hspares u x hu hx)
  elided x hstage hx := h.elided x hstage (hspares u x hu hx)
  done := h.done
  xend := h.xend
  clear := h.clear

/-- A thread that is not in a transaction. -/
theorem Here.of_plain {mem : Mem Tid (Cell Addr) UInt32} {t : Tid} {l : Local Addr}
    (hstage : l.pc.stage = .out ∨ l.pc.stage = .holder) (hnone : mem.tx t = none)
    (hdone : l.pc.ends = true → l.rest = .done) (hxend : l.pc ≠ .xend none) : Here mem t l where
  plain _ := hnone
  opened x _ hx := nomatch hnone.symm.trans hx
  elided x _ hx := nomatch hnone.symm.trans hx
  done := hdone
  xend := hxend
  clear k hl := by
    rw [hl] at hstage
    obtain h | h := hstage <;> cases h

/-- Outside, a thread has no transaction. -/
theorem Here.of_out {mem : Mem Tid (Cell Addr) UInt32} {t : Tid} {l : Local Addr}
    (hstage : l.pc.stage = .out) (hnone : mem.tx t = none) : Here mem t l := by
  refine .of_plain (Or.inl hstage) hnone (fun hends => ?_) fun hl => ?_
  · obtain h | h := Pc.stage_of_ends hends <;> exact nomatch hstage.symm.trans h
  · rw [hl] at hstage
    cases hstage

/-- A transaction begins without writes. -/
theorem Here.of_opened {mem : Mem Tid (Cell Addr) UInt32} {t : Tid} {l : Local Addr}
    (hl : l.pc.stage = .opened) (h : ∀ x, mem.tx t = some x → x.writes = fun _ => none) :
    Here mem t l where
  plain hstage := by obtain hstage | hstage := hstage <;> exact nomatch hl.symm.trans hstage
  opened x _ hx := h x hx
  elided x hstage _ := nomatch hl.symm.trans hstage
  done hends := by
    obtain hstage | hstage := Pc.stage_of_ends hends <;> exact nomatch hl.symm.trans hstage
  xend hpc := by
    rw [hpc] at hl
    cases hl
  clear k hpc := by
    rw [hpc] at hl
    cases hl

/-- In an elided section, the transaction follows the section. -/
theorem Here.of_elided {mem : Mem Tid (Cell Addr) UInt32} {t : Tid} {l : Local Addr}
    {x : Tx (Cell Addr) UInt32} (hl : l.pc.stage = .elided) (hx : mem.tx t = some x)
    (h : Elided x l)
    (hends : l.pc.ends = true → l.rest = .done ∧ ∀ k, l.pc ≠ .clear (some k)) :
    Here mem t l where
  plain hstage := by obtain hstage | hstage := hstage <;> exact nomatch hl.symm.trans hstage
  opened y hstage _ := nomatch hl.symm.trans hstage
  elided y _ hy := by
    obtain rfl := Option.some.inj (hx.symm.trans hy)
    exact h
  done h := (hends h).1
  xend hpc := by
    rw [hpc] at hl
    cases hl
  clear k hpc := (hends (by rw [hpc]; rfl)).2 k hpc

/-! ## What a step does -/

variable [DecidableEq Tid]

/-- What a step does to the memory and the log. -/
inductive Effect (t : Tid) (sh sh' : Shared Tid Addr) (l l' : Local Addr) : Prop where
  | quiet : sh'.mem.cells = sh.mem.cells → sh'.log = sh.log → ¬ l.Holds → ¬ l'.Holds →
      Effect t sh sh' l l'
  | acquire : sh.mem.cells .lock = 0 → sh'.mem.cells .lock = 1 →
      data sh'.mem.cells = data sh.mem.cells → sh'.log = sh.log → ¬ l.Holds → l'.Holds →
      l'.rest = l'.todo → Effect t sh sh' l l'
  /-- In the section, with the lock. -/
  | work : sh'.mem.cells .lock = sh.mem.cells .lock → sh'.log = sh.log → l.Holds → l'.Holds →
      l'.todo = l.todo → l'.rest.run (data sh'.mem.cells) = l.rest.run (data sh.mem.cells) →
      Effect t sh sh' l l'
  | release : sh'.mem.cells .lock = 0 → data sh'.mem.cells = data sh.mem.cells →
      sh'.log = (t, l.todo) :: sh.log → l.Holds → ¬ l'.Holds → l.rest = .done →
      Effect t sh sh' l l'
  /-- The end of a transaction that has run a section. -/
  | commit : sh.mem.cells .lock = 0 → sh'.mem.cells .lock = 0 →
      data sh'.mem.cells = l.todo.run (data sh.mem.cells) →
      sh'.log = (t, l.todo) :: sh.log → ¬ l.Holds → ¬ l'.Holds → Effect t sh sh' l l'

/-- What a step of `t` keeps and does. -/
structure Steps (t : Tid) (sh : Shared Tid Addr) (l : Local Addr)
    (r : Shared Tid Addr × Local Addr) : Prop where
  inv : r.1.mem.Inv
  spares : Mem.Spares t sh.mem r.1.mem
  here : Here r.1.mem t r.2
  effect : Effect t sh r.1 l r.2

section

variable {cfg : Config} {t : Tid} {sh : Shared Tid Addr} {l : Local Addr}

omit [DecidableEq Tid] [DecidableEq Addr] in
theorem Local.not_holds {stage : Stage} (hl : l.pc.stage = stage) (hne : stage ≠ .holder) :
    ¬ l.Holds :=
  fun h => hne (hl.symm.trans h)

/-- A load of the lock word by a thread that has nothing to do with the lock yet. -/
theorem steps_of_load (hinv : sh.mem.Inv) (hhere : Here sh.mem t l) (hl : l.pc.stage = .out)
    {pc' : Pc} (hpc' : pc'.stage = .out) :
    Steps t sh l ({ sh with mem := (sh.mem.load t .lock).2 }, { l with pc := pc' }) where
  inv := hinv.load t .lock
  spares := Mem.load_spares sh.mem t .lock
  here := .of_out hpc' (Mem.load_none (hhere.plain (Or.inl hl)) .lock).2
  effect := .quiet Mem.load_cells rfl (Local.not_holds hl (by decide))
    (Local.not_holds hpc' (by decide))

/-- An exchange of the lock word. -/
theorem steps_of_exchange (hinv : sh.mem.Inv) (hhere : Here sh.mem t l)
    (hword : sh.mem.cells .lock = 0 ∨ sh.mem.cells .lock = 1) (hl : l.pc.stage = .out)
    {pc' : Pc} (hpc' : pc'.stage = .out) :
    Steps t sh l ({ sh with mem := (sh.mem.exchange t .lock 1).2 },
      if (sh.mem.exchange t .lock 1).1 = 0 then
        { l with pc := .critical none, rest := l.todo }
      else { l with pc := pc' }) := by
  obtain ⟨hv, hcells, hnone⟩ := Mem.exchange_none (hhere.plain (Or.inl hl)) .lock 1
  have hinv' := hinv.exchange t .lock 1
  have hspares := Mem.exchange_spares sh.mem t .lock 1
  have hout := Local.not_holds hl (by decide)
  by_cases h0 : sh.mem.cells .lock = 0
  · rw [hv, if_pos h0]
    refine ⟨hinv', hspares, .of_plain (Or.inr rfl) hnone nofun nofun,
      .acquire h0 ?_ ?_ rfl hout rfl rfl⟩
    · exact (congrFun hcells _).trans (Function.update_self ..)
    · exact (congrArg data hcells).trans (data_update_lock ..)
  · rw [hv, if_neg h0]
    refine ⟨hinv', hspares, .of_out hpc' hnone,
      .quiet ?_ rfl hout (Local.not_holds hpc' (by decide))⟩
    have h1 := hword.resolve_left h0
    exact hcells.trans (by rw [← h1, Function.update_eq_self])

/-- A transaction begins. -/
theorem steps_of_xbegin (hinv : sh.mem.Inv) (hl : l.pc.stage = .out) (k : Begun) :
    Steps t sh l ({ sh with mem := sh.mem.xbegin t }, { l with pc := .readLock k }) where
  inv := hinv.xbegin t
  spares := Mem.put_spares sh.mem t _
  here := by
    refine .of_opened rfl fun x hx => ?_
    rw [Mem.xbegin, Mem.put_tx_self] at hx
    obtain rfl := Option.some.inj hx
    rfl
  effect := .quiet rfl rfl (Local.not_holds hl (by decide)) nofun

/-- The transaction is lost, or given back. -/
theorem steps_of_abort (hinv : sh.mem.Inv) (hnot : ¬ l.Holds) {pc' : Pc}
    (hpc' : pc'.stage = .out) :
    Steps t sh l ({ sh with mem := sh.mem.abort t }, { l with pc := pc' }) where
  inv := hinv.abort t
  spares := Mem.put_spares sh.mem t none
  here := .of_out hpc' Mem.put_tx_self
  effect := .quiet rfl rfl hnot (Local.not_holds hpc' (by decide))

omit [DecidableEq Tid] in
/-- A step in a transaction that has found the lock free. -/
theorem steps_of_elided {mem : Mem Tid (Cell Addr) UInt32} {l' : Local Addr}
    (hinv : mem.Inv) (hspares : Mem.Spares t sh.mem mem) (hcells : mem.cells = sh.mem.cells)
    (hnot : ¬ l.Holds) (hl' : l'.pc.stage = .elided) {x : Tx (Cell Addr) UInt32}
    (hx : mem.tx t = some x) (hel : Elided x l')
    (hends : l'.pc.ends = true → l'.rest = .done ∧ ∀ k, l'.pc ≠ .clear (some k)) :
    Steps t sh l ({ sh with mem := mem }, l') :=
  ⟨hinv, hspares, .of_elided hl' hx hel hends,
    .quiet hcells rfl hnot (Local.not_holds hl' (by decide))⟩

/-- The first load of a transaction decides whether the section begins. -/
theorem steps_of_readLock (hinv : sh.mem.Inv) (hhere : Here sh.mem t l) {k : Begun}
    (hl : l.pc = .readLock k) {x : Tx (Cell Addr) UInt32} (hx : sh.mem.tx t = some x) :
    Steps t sh l ({ sh with mem := (sh.mem.load t .lock).2 },
      if (sh.mem.load t .lock).1 = 0 then { l with pc := .critical (some k), rest := l.todo }
      else { l with pc := if k.trylock then .giveUp k else .xabort k }) := by
  have hopened : l.pc.stage = .opened := by rw [hl]; rfl
  have hwrites := hhere.opened x hopened hx
  obtain ⟨x', hx', hwrites', -, hread, -⟩ := Mem.load_tx hx .lock
  have huntaken : x'.wrote .lock = false := by rw [Tx.wrote, hwrites', hwrites]; rfl
  have hinv' := hinv.load t .lock
  have hspares := Mem.load_spares sh.mem t .lock
  have hnot : ¬ l.Holds := Local.not_holds hopened (by decide)
  split
  · next h0 =>
    have hfree := hread (by rw [Tx.wrote, hwrites]; rfl)
    rw [h0] at hfree
    exact steps_of_elided hinv' hspares Mem.load_cells hnot rfl hx'
      ⟨hfree, huntaken, .start (hwrites'.trans hwrites) _⟩ fun h => absurd h Bool.false_ne_true
  · have hpc : (if k.trylock then Pc.giveUp k else .xabort k).stage = .opened := by
      split <;> rfl
    refine ⟨hinv', hspares, .of_opened hpc fun y hy => ?_,
      .quiet Mem.load_cells rfl hnot (Local.not_holds hpc (by decide))⟩
    obtain rfl := Option.some.inj (hx'.symm.trans hy)
    exact hwrites'.trans hwrites

/-- A trylock that has found the lock taken ends its transaction, which has done nothing. -/
theorem steps_of_giveUp (hinv : sh.mem.Inv) (hhere : Here sh.mem t l) (hl : l.pc.stage = .opened)
    {mem : Mem Tid (Cell Addr) UInt32} (hs : sh.mem.xend t = some mem) :
    Steps t sh l ({ sh with mem := mem }, { l with pc := .outside }) := by
  have hinv' := hinv.xend hs
  obtain ⟨x, hx, rfl⟩ := Option.map_eq_some_iff.mp hs
  refine ⟨hinv', Mem.put_spares sh.mem t none, .of_out rfl Mem.put_tx_self,
    .quiet ?_ rfl (Local.not_holds hl (by decide)) nofun⟩
  funext a
  dsimp only
  rw [Tx.sees, hhere.opened x hl hx]
  rfl

/-- A step of the section in a transaction. -/
theorem steps_of_critical_some (hinv : sh.mem.Inv) (hhere : Here sh.mem t l) {k : Begun}
    (hl : l.pc = .critical (some k)) {x : Tx (Cell Addr) UInt32} (hx : sh.mem.tx t = some x)
    {r : Shared Tid Addr × Local Addr} (hs : goStep cfg t sh l = some r) : Steps t sh l r := by
  have hstage : l.pc.stage = .elided := by rw [hl]; rfl
  have hnot : ¬ l.Holds := Local.not_holds hstage (by decide)
  have hel := hhere.elided x hstage hx
  have htracks := hel.tracks
  unfold goStep at hs
  rw [hl] at hs
  dsimp only at hs
  cases hrest : l.rest with
  | done =>
      rw [hrest] at hs htracks
      obtain rfl := Option.some.inj hs
      exact steps_of_elided hinv (fun u y _ hy => hy) rfl hnot rfl hx
        ⟨hel.free, hel.untaken, htracks⟩ fun _ => ⟨rfl, fun k h => by cases h⟩
  | load a next =>
      rw [hrest] at hs htracks
      obtain rfl := Option.some.inj hs
      obtain ⟨x', hx', hwrites, hreads, -, hv⟩ := Mem.load_tx hx (.data a)
      refine steps_of_elided (hinv.load t _) (Mem.load_spares sh.mem t _) Mem.load_cells
        hnot rfl hx' ⟨hreads _ hel.free, ?_, ?_⟩ fun h => absurd h Bool.false_ne_true
      · rw [Tx.wrote, hwrites]
        exact hel.untaken
      · exact (htracks.mono hreads hwrites).load hv
  | store a v next =>
      rw [hrest] at hs htracks
      obtain rfl := Option.some.inj hs
      have hx' : (sh.mem.store t (.data a) v).tx t =
          some { x with writes := Function.update x.writes (.data a) (some v) } := by
        rw [Mem.store_tx hx]
        exact Mem.put_tx_self
      refine steps_of_elided (hinv.store t _ v) (Mem.store_spares sh.mem t _ v) ?_ hnot rfl hx'
        ⟨hel.free, Bool.eq_false_iff.mpr fun hwrote => ?_, htracks.store⟩
        fun h => absurd h Bool.false_ne_true
      · rw [Mem.store_tx hx]
        rfl
      · obtain hwrote | h := Tx.wrote_write hwrote
        · rw [hel.untaken] at hwrote
          cases hwrote
        · cases h

/-- A step of the section with the lock. -/
theorem steps_of_critical_none (hinv : sh.mem.Inv) (hhere : Here sh.mem t l)
    (hl : l.pc = .critical none) {r : Shared Tid Addr × Local Addr}
    (hs : goStep cfg t sh l = some r) : Steps t sh l r := by
  have hstage : l.pc.stage = .holder := by rw [hl]; rfl
  have hnone := hhere.plain (Or.inr hstage)
  unfold goStep at hs
  rw [hl] at hs
  dsimp only at hs
  cases hrest : l.rest with
  | done =>
      rw [hrest] at hs
      obtain rfl := Option.some.inj hs
      exact ⟨hinv, fun u y _ hy => hy, .of_plain (Or.inr rfl) hnone (fun _ => rfl) nofun,
        .work rfl rfl hstage rfl rfl (by rw [hrest])⟩
  | load a next =>
      rw [hrest] at hs
      obtain rfl := Option.some.inj hs
      obtain ⟨hv, hnone'⟩ := Mem.load_none hnone (.data a)
      refine ⟨hinv.load t _, Mem.load_spares sh.mem t _,
        .of_plain (Or.inr rfl) hnone' nofun nofun, .work ?_ rfl hstage rfl rfl ?_⟩
      · exact congrFun Mem.load_cells _
      · dsimp only
        rw [hrest, Mem.load_cells, hv]
        rfl
  | store a v next =>
      rw [hrest] at hs
      obtain rfl := Option.some.inj hs
      obtain ⟨hcells, hnone'⟩ := Mem.store_none hnone (.data a) v
      refine ⟨hinv.store t _ v, Mem.store_spares sh.mem t _ v,
        .of_plain (Or.inr rfl) hnone' nofun nofun, .work ?_ rfl hstage rfl rfl ?_⟩
      · have hne : Cell.lock ≠ Cell.data a := nofun
        exact (congrFun hcells _).trans (Function.update_of_ne hne ..)
      · dsimp only
        rw [hrest, hcells, data_update_data]
        rfl

/-- An unlock decides how to end the section. -/
theorem steps_of_unlock (hinv : sh.mem.Inv) (hhere : Here sh.mem t l)
    (hheld : l.Holds → sh.mem.cells .lock = 1) {k : Option Begun} (hl : l.pc = .unlock k)
    (hlive : k.isSome → (sh.mem.tx t).isSome) :
    Steps t sh l ({ sh with mem := (sh.mem.load t .lock).2 },
      { l with pc := if (sh.mem.load t .lock).1 = 0 ∧ ((sh.mem.load t .lock).2.tx t).isSome
        then .xend k else .clear k }) := by
  have hdone := hhere.done (by rw [hl]; rfl)
  have hinv' := hinv.load t .lock
  have hspares := Mem.load_spares sh.mem t .lock
  cases k with
  | none =>
      have hstage : l.pc.stage = .holder := by rw [hl]; rfl
      obtain ⟨hv, hnone'⟩ := Mem.load_none (hhere.plain (Or.inr hstage)) .lock
      rw [hv, hheld hstage, if_neg fun h => absurd h.1 (by decide)]
      refine ⟨hinv', hspares, .of_plain (Or.inr rfl) hnone' (fun _ => hdone) nofun,
        .work ?_ rfl hstage rfl rfl ?_⟩
      · exact congrFun Mem.load_cells _
      · dsimp only
        rw [Mem.load_cells]
  | some k =>
      -- what the transaction has found in the lock word is still there
      have hstage : l.pc.stage = .elided := by rw [hl]; rfl
      obtain ⟨x, hx⟩ := Option.isSome_iff_exists.mp (hlive rfl)
      have hel := hhere.elided x hstage hx
      obtain ⟨x', hx', hwrites, hreads, hread, -⟩ := Mem.load_tx hx .lock
      have hfree' : sh.mem.cells .lock = 0 := hinv.current t x hx _ hel.free
      have hv := hinv'.current t x' hx' _ (hread hel.untaken)
      rw [Mem.load_cells, hfree'] at hv
      rw [if_pos ⟨hv.symm, by rw [hx']; rfl⟩]
      refine steps_of_elided hinv' hspares Mem.load_cells (Local.not_holds hstage (by decide)) rfl
        hx' ⟨hreads _ hel.free, ?_, hel.tracks.mono hreads hwrites⟩
        fun _ => ⟨hdone, fun k h => by cases h⟩
      rw [Tx.wrote, hwrites]
      exact hel.untaken

/-- **The end of a transaction that has run a section.** -/
theorem steps_of_xend (hinv : sh.mem.Inv) (hhere : Here sh.mem t l) {k : Option Begun}
    (hl : l.pc = .xend k) {mem : Mem Tid (Cell Addr) UInt32} (hs : sh.mem.xend t = some mem) :
    Steps t sh l (⟨mem, (t, l.todo) :: sh.log⟩, { l with pc := .outside }) := by
  have hdone := hhere.done (by rw [hl]; rfl)
  have hinv' := hinv.xend hs
  obtain ⟨x, hx, hmem⟩ := Option.map_eq_some_iff.mp hs
  have hstage : l.pc.stage = .elided := by
    cases k with
    | none => exact absurd hl hhere.xend
    | some k => rw [hl]; rfl
  have hel := hhere.elided x hstage hx
  have hfree : sh.mem.cells .lock = 0 := hinv.current t x hx _ hel.free
  have htracks := hel.tracks
  rw [hdone] at htracks
  have hrun := hinv.xend_eq_run hx htracks hs
  subst hmem
  refine ⟨hinv', Mem.put_spares sh.mem t none, .of_out rfl Mem.put_tx_self,
    .commit hfree ?_ ?_ rfl (Local.not_holds hstage (by decide)) nofun⟩
  · exact (Tx.sees_of_not_wrote hel.untaken _).trans hfree
  · exact (congrArg data hrun).trans (data_run l.todo sh.mem.cells)

/-- The holder stores 0 to the lock: its section takes its place in the order. -/
theorem steps_of_clear (hinv : sh.mem.Inv) (hhere : Here sh.mem t l) {k : Option Begun}
    (hl : l.pc = .clear k) :
    Steps t sh l (⟨sh.mem.store t .lock 0, (t, l.todo) :: sh.log⟩, { l with pc := .outside }) := by
  have hdone := hhere.done (by rw [hl]; rfl)
  have hstage : l.pc.stage = .holder := by
    cases k with
    | none => rw [hl]; rfl
    | some k => exact absurd hl (hhere.clear k)
  obtain ⟨hcells, hnone'⟩ := Mem.store_none (hhere.plain (Or.inr hstage)) .lock 0
  refine ⟨hinv.store t .lock 0, Mem.store_spares sh.mem t .lock 0, .of_out rfl hnone',
    .release ?_ ?_ rfl hstage nofun hdone⟩
  · exact (congrFun hcells _).trans (Function.update_self ..)
  · exact (congrArg data hcells).trans (data_update_lock ..)

/-- Every step of a thread whose transaction is not lost. -/
theorem steps_of_go (hinv : sh.mem.Inv) (hhere : Here sh.mem t l)
    (hword : sh.mem.cells .lock = 0 ∨ sh.mem.cells .lock = 1)
    (hheld : l.Holds → sh.mem.cells .lock = 1)
    (hlive : l.pc.begun.isSome → (sh.mem.tx t).isSome) {r : Shared Tid Addr × Local Addr}
    (hs : goStep cfg t sh l = some r) : Steps t sh l r := by
  have hgo := hs
  unfold goStep at hgo
  cases hl : l.pc with
  | outside =>
      rw [hl] at hgo
      cases hgo
  | tryTest =>
      rw [hl] at hgo
      obtain rfl := Option.some.inj hgo
      exact steps_of_load hinv hhere (by rw [hl]; rfl) (stage_ite rfl (stage_attempt cfg true 0))
  | test =>
      rw [hl] at hgo
      obtain rfl := Option.some.inj hgo
      exact steps_of_load hinv hhere (by rw [hl]; rfl) (stage_ite rfl (stage_attempt cfg false 0))
  | spin =>
      rw [hl] at hgo
      obtain rfl := Option.some.inj hgo
      exact steps_of_load hinv hhere (by rw [hl]; rfl) (stage_ite rfl rfl)
  | tryExchange =>
      rw [hl] at hgo
      obtain rfl := Option.some.inj hgo
      exact steps_of_exchange hinv hhere hword (by rw [hl]; rfl) rfl
  | exchange =>
      rw [hl] at hgo
      obtain rfl := Option.some.inj hgo
      exact steps_of_exchange hinv hhere hword (by rw [hl]; rfl) (stage_fallback cfg false)
  | xbegin k =>
      rw [hl] at hgo
      obtain rfl := Option.some.inj hgo
      exact steps_of_xbegin hinv (by rw [hl]; rfl) k
  | readLock k =>
      obtain ⟨x, hx⟩ := Option.isSome_iff_exists.mp (hlive (by rw [hl]; rfl))
      rw [hl] at hgo
      obtain rfl := Option.some.inj hgo
      exact steps_of_readLock hinv hhere hl hx
  | giveUp k =>
      rw [hl] at hgo
      obtain ⟨mem, hmem, rfl⟩ := Option.map_eq_some_iff.mp hgo
      exact steps_of_giveUp hinv hhere (by rw [hl]; rfl) hmem
  | xabort k =>
      have hstage : l.pc.stage = .opened := by rw [hl]; rfl
      rw [hl] at hgo
      obtain rfl := Option.some.inj hgo
      exact steps_of_abort hinv (Local.not_holds hstage (by decide)) (stage_fallback cfg k.trylock)
  | critical k =>
      cases k with
      | none => exact steps_of_critical_none hinv hhere hl hs
      | some k =>
          obtain ⟨x, hx⟩ := Option.isSome_iff_exists.mp (hlive (by rw [hl]; rfl))
          exact steps_of_critical_some hinv hhere hl hx hs
  | unlock k =>
      rw [hl] at hgo hlive
      obtain rfl := Option.some.inj hgo
      exact steps_of_unlock hinv hhere hheld hl hlive
  | xend k =>
      rw [hl] at hgo
      obtain ⟨mem, hmem, rfl⟩ := Option.map_eq_some_iff.mp hgo
      exact steps_of_xend hinv hhere hl hmem
  | clear k =>
      rw [hl] at hgo
      obtain rfl := Option.some.inj hgo
      exact steps_of_clear hinv hhere hl

/-- **Inversion.** Every step. -/
theorem steps_of_prog (hinv : sh.mem.Inv) (hhere : Here sh.mem t l)
    (hword : sh.mem.cells .lock = 0 ∨ sh.mem.cells .lock = 1)
    (hheld : l.Holds → sh.mem.cells .lock = 1) {a : Act Addr}
    {r : Shared Tid Addr × Local Addr} (hs : prog cfg t sh l a = some r) : Steps t sh l r := by
  have hcall : ∀ (pc : Pc) (s : Section Addr), l.pc = .outside → pc.stage = .out →
      Steps t sh l (sh, ⟨pc, s, s⟩) := by
    intro pc s hl hpc
    have hstage : l.pc.stage = .out := by rw [hl]; rfl
    exact ⟨hinv, fun u y _ hy => hy, .of_out hpc (hhere.plain (Or.inl hstage)),
      .quiet rfl rfl (Local.not_holds hstage (by decide)) (Local.not_holds hpc (by decide))⟩
  cases a with
  | lock s =>
      dsimp only [prog] at hs
      split at hs
      · next hl =>
        obtain rfl := Option.some.inj hs
        exact hcall _ s hl (stage_ite rfl (stage_attempt cfg false 0))
      · cases hs
  | trylock s =>
      dsimp only [prog] at hs
      split at hs
      · next hl =>
        obtain rfl := Option.some.inj hs
        exact hcall _ s hl (stage_ite rfl (stage_attempt cfg true 0))
      · cases hs
  | go =>
      obtain ⟨hlive, hs⟩ := Option.ite_none_right_eq_some.mp hs
      exact steps_of_go hinv hhere hword hheld hlive hs
  | abort =>
      obtain ⟨k, hk, rfl⟩ := Option.map_eq_some_iff.mp hs
      refine steps_of_abort hinv (fun hholds => ?_) (stage_attempt cfg k.trylock (k.t + 1))
      exact nomatch (Pc.begun_of_holder hholds).symm.trans hk

end

/-! ## Every run -/

variable {m : Addr → UInt32} {c : Conf Tid (Shared Tid Addr) (Local Addr)}

/-- What holds in every configuration of a run on the initial data `m`. -/
structure Inv (m : Addr → UInt32) (c : Conf Tid (Shared Tid Addr) (Local Addr)) : Prop where
  mem : c.sh.mem.Inv
  here : ∀ t, Here c.sh.mem t (c.loc t)
  held : ∀ t, (c.loc t).Holds → c.sh.mem.cells .lock = 1
  unique : ∀ t u, (c.loc t).Holds → (c.loc u).Holds → t = u
  word : c.sh.mem.cells .lock = 0 ∨ ∃ t, (c.loc t).Holds
  free : (∀ t, ¬ (c.loc t).Holds) → data c.sh.mem.cells = replay c.sh.log m
  partway : ∀ t, (c.loc t).Holds →
    (c.loc t).rest.run (data c.sh.mem.cells) = (c.loc t).todo.run (replay c.sh.log m)

omit [DecidableEq Tid] in
/-- The lock word is 0 or 1. -/
theorem Inv.flag (h : Inv m c) : c.sh.mem.cells .lock = 0 ∨ c.sh.mem.cells .lock = 1 :=
  h.word.imp_right fun ⟨t, ht⟩ => h.held t ht

omit [DecidableEq Tid] in
/-- Nobody has the lock when the word is 0. -/
theorem Inv.nobody (h : Inv m c) (h0 : c.sh.mem.cells .lock = 0) (t : Tid) :
    ¬ (c.loc t).Holds := by
  intro ht
  rw [h.held t ht] at h0
  exact absurd h0 (by decide)

section

variable {t : Tid} {r : Shared Tid Addr × Local Addr}

/-- A step keeps what holds of every thread. -/
theorem Inv.here_put (h : Inv m c) (hs : Steps t c.sh (c.loc t) r) (u : Tid) :
    Here (c.put t r).sh.mem u ((c.put t r).loc u) := by
  by_cases hu : u = t
  · rw [hu, put_loc_self]
    exact hs.here
  · rw [put_loc_ne c r hu]
    exact (h.here u).spared hs.spares hu

/-- Nobody has the lock after the step. -/
theorem Inv.put_nobody (h : Inv m c) (hs : Steps t c.sh (c.loc t) r)
    (hother : ∀ u, u ≠ t → ¬ (c.loc u).Holds) (hnot : ¬ r.2.Holds)
    (h0 : r.1.mem.cells .lock = 0) (hfree : data r.1.mem.cells = replay r.1.log m) :
    Inv m (c.put t r) := by
  have hnobody : ∀ u, ¬ ((c.put t r).loc u).Holds := by
    intro u
    by_cases hu : u = t
    · rw [hu, put_loc_self]
      exact hnot
    · rw [put_loc_ne c r hu]
      exact hother u hu
  exact ⟨hs.inv, h.here_put hs, fun u hu => absurd hu (hnobody u),
    fun u _ hu => absurd hu (hnobody u), Or.inl h0, fun _ => hfree,
    fun u hu => absurd hu (hnobody u)⟩

/-- The thread has the lock after the step. -/
theorem Inv.put_holder (h : Inv m c) (hs : Steps t c.sh (c.loc t) r)
    (hother : ∀ u, u ≠ t → ¬ (c.loc u).Holds) (hholds : r.2.Holds)
    (h1 : r.1.mem.cells .lock = 1)
    (hpartway : r.2.rest.run (data r.1.mem.cells) = r.2.todo.run (replay r.1.log m)) :
    Inv m (c.put t r) := by
  have hself : ((c.put t r).loc t).Holds := by
    rw [put_loc_self]
    exact hholds
  have honly : ∀ u, ((c.put t r).loc u).Holds → u = t := by
    intro u hu
    by_contra hne
    rw [put_loc_ne c r hne] at hu
    exact hother u hne hu
  refine ⟨hs.inv, h.here_put hs, fun _ _ => h1,
    fun u w hu hw => (honly u hu).trans (honly w hw).symm, Or.inr ⟨t, hself⟩,
    fun hnobody => absurd hself (hnobody t), fun u hu => ?_⟩
  rw [honly u hu, put_loc_self]
  exact hpartway

/-- A step of a thread without the lock that changes nothing. -/
theorem Inv.put_quiet (h : Inv m c) (hs : Steps t c.sh (c.loc t) r)
    (hcells : r.1.mem.cells = c.sh.mem.cells) (hlog : r.1.log = c.sh.log)
    (hnot : ¬ (c.loc t).Holds) (hnot' : ¬ r.2.Holds) : Inv m (c.put t r) := by
  have hholds : ∀ u, ((c.put t r).loc u).Holds → u ≠ t ∧ (c.loc u).Holds := by
    intro u hu
    have hne : u ≠ t := by
      rintro rfl
      rw [put_loc_self] at hu
      exact hnot' hu
    rw [put_loc_ne c r hne] at hu
    exact ⟨hne, hu⟩
  have hstill : ∀ u, (c.loc u).Holds → ((c.put t r).loc u).Holds := by
    intro u hu
    have hne : u ≠ t := by
      rintro rfl
      exact hnot hu
    rw [put_loc_ne c r hne]
    exact hu
  constructor
  · exact hs.inv
  · exact h.here_put hs
  · intro u hu
    exact (congrFun hcells _).trans (h.held u (hholds u hu).2)
  · intro u w hu hw
    exact h.unique u w (hholds u hu).2 (hholds w hw).2
  · obtain h0 | ⟨u, hu⟩ := h.word
    · exact Or.inl ((congrFun hcells _).trans h0)
    · exact Or.inr ⟨u, hstill u hu⟩
  · intro hnobody
    rw [put_sh, hcells, hlog]
    exact h.free fun u hu => hnobody u (hstill u hu)
  · intro u hu
    obtain ⟨hne, hu⟩ := hholds u hu
    rw [put_sh, put_loc_ne c r hne, hcells, hlog]
    exact h.partway u hu

/-- **Step lemma.** -/
theorem Inv.put (h : Inv m c) (hs : Steps t c.sh (c.loc t) r) : Inv m (c.put t r) := by
  have halone : (c.loc t).Holds → ∀ u, u ≠ t → ¬ (c.loc u).Holds :=
    fun ht u hne hu => hne (h.unique u t hu ht)
  cases hs.effect with
  | quiet hcells hlog hnot hnot' => exact h.put_quiet hs hcells hlog hnot hnot'
  | acquire h0 h1 hdata hlog hnot hholds hrest =>
      refine h.put_holder hs (fun u _ => h.nobody h0 u) hholds h1 ?_
      rw [hrest, hdata, hlog, h.free (h.nobody h0)]
  | work hword hlog hholds hholds' htodo hrun =>
      refine h.put_holder hs (halone hholds) hholds' (hword.trans (h.held t hholds)) ?_
      rw [hrun, htodo, hlog]
      exact h.partway t hholds
  | release h0 hdata hlog hholds hnot' hdone =>
      -- the section of the holder is over, and takes its place in the log
      refine h.put_nobody hs (halone hholds) hnot' h0 ?_
      have hpartway := h.partway t hholds
      rw [hdone] at hpartway
      rw [hdata, hlog]
      exact hpartway
  | commit h0 h0' hdata hlog hnot hnot' =>
      refine h.put_nobody hs (fun u _ => h.nobody h0 u) hnot' h0' ?_
      rw [hdata, hlog, h.free (h.nobody h0)]
      rfl

end

omit [DecidableEq Tid] in
/-- Before the first call. -/
theorem Init.inv (h : Init m c) : Inv m c := by
  have hout : ∀ t, (c.loc t).pc.stage = .out := by
    intro t
    rw [h.outside t]
    rfl
  have hnot : ∀ t, ¬ (c.loc t).Holds := fun t => Local.not_holds (hout t) (by decide)
  refine ⟨.of_none h.tx, fun t => .of_out (hout t) (h.tx t), fun t ht => absurd ht (hnot t),
    fun t _ ht => absurd ht (hnot t), Or.inl h.free, fun _ => ?_, fun t ht => absurd ht (hnot t)⟩
  rw [h.data, h.log]
  rfl

/-- **Run lemma.** -/
theorem inv_of_reach {cfg : Config} (h : Reach (prog cfg) always (Init m) c) : Inv m c :=
  h.invariant (fun _ h0 => h0.inv) fun _ t _ _ hc _ hs =>
    hc.put (steps_of_prog hc.mem (hc.here t) hc.flag (hc.held t) hs)

omit [DecidableEq Tid] in
/-- A transaction that runs a section keeps everybody from having the lock. -/
theorem Inv.nobody_of_elided (h : Inv m c) {t : Tid} (hl : (c.loc t).Elides)
    {x : Tx (Cell Addr) UInt32} (hx : c.sh.mem.tx t = some x) (u : Tid) : ¬ (c.loc u).Holds :=
  h.nobody (h.mem.current t x hx _ ((h.here t).elided x hl hx).free) u

/-- **Lock elision is correct**, for both locks and any number of tries, whatever transactions are
    lost.  While nobody has the lock, the data is what the sections that have ended do one after
    the other.  A thread that has the lock is the only one, no transaction runs a section then,
    and its own section has done its part of what it does after those.  So has a section that
    runs in a transaction, in the view of the transaction.  Transactions end by `_xend` and the
    others by clearing the lock word. -/
theorem hle_serial {cfg : Config} (h : Reach (prog cfg) always (Init m) c) :
    ((∀ t, ¬ (c.loc t).Holds) → data c.sh.mem.cells = replay c.sh.log m) ∧
    (∀ t, (c.loc t).Holds → (∀ u, (c.loc u).Holds → u = t) ∧
      (∀ u, (c.loc u).Elides → c.sh.mem.tx u = none) ∧
      (c.loc t).rest.run (data c.sh.mem.cells) = (c.loc t).todo.run (replay c.sh.log m)) ∧
    (∀ t x, (c.loc t).Elides → c.sh.mem.tx t = some x →
      (c.loc t).rest.run (data (x.sees c.sh.mem.cells))
        = (c.loc t).todo.run (replay c.sh.log m)) ∧
    ∀ t, (c.loc t).pc ≠ .xend none ∧ ∀ k, (c.loc t).pc ≠ .clear (some k) := by
  have hinv := inv_of_reach h
  refine ⟨hinv.free, fun t ht => ⟨fun u hu => hinv.unique u t hu ht, fun u hu => ?_,
    hinv.partway t ht⟩, fun t x hl hx => ?_, fun t => ⟨(hinv.here t).xend, (hinv.here t).clear⟩⟩
  · cases hx : c.sh.mem.tx u with
    | none => rfl
    | some x => exact absurd ht (hinv.nobody_of_elided hu hx t)
  · have hrun := congrArg data (hinv.mem.eq_run hx ((hinv.here t).elided x hl hx).tracks)
    rw [data_run, data_run, hinv.free (hinv.nobody_of_elided hl hx)] at hrun
    exact hrun.symm

/-! ## A schedule -/

/-- Two threads that count, the lock free. -/
def start : Conf (Fin 2) (Shared (Fin 2) Unit) (Local Unit) :=
  ⟨⟨⟨fun _ => 0, fun _ => none⟩, []⟩, fun _ => ⟨.outside, .done, .done⟩⟩

theorem start_init : Init (fun _ => 0) start := ⟨rfl, rfl, fun _ => rfl, rfl, fun _ => rfl⟩

def increment : Section Unit := .load () fun v => .store () (v + 1) .done

/-- Thread 1 reads what thread 0 has stored in its transaction, which is lost, and commits.
    Thread 0 fails to get through twice more, and takes the lock. -/
def contended : List (Fin 2 × Act Unit) :=
  (0, .lock increment) :: List.replicate 5 (0, .go)
    ++ (1, .lock increment) :: List.replicate 8 (1, .go)
    ++ [(0, .abort), (0, .go), (0, .abort), (0, .go), (0, .abort)]
    ++ List.replicate 3 (0, .go)

theorem hle_serial_contended : ∃ c : Conf (Fin 2) (Shared (Fin 2) Unit) (Local Unit),
    exec (prog ttasOptimistic) always start contended = some c ∧
      (c.loc 0).Holds ∧ data c.sh.mem.cells () = 1 ∧
      (c.loc 0).rest.run (data c.sh.mem.cells)
        = (c.loc 0).todo.run (replay c.sh.log fun _ => 0) := by
  obtain ⟨c, hx, hholds, hdata⟩ : ∃ c : Conf (Fin 2) (Shared (Fin 2) Unit) (Local Unit),
      exec (prog ttasOptimistic) always start contended = some c ∧
        (c.loc 0).Holds ∧ data c.sh.mem.cells () = 1 := ⟨_, rfl, rfl, rfl⟩
  have hreach : Reach (prog ttasOptimistic) always (Init fun _ => 0) c :=
    reach_of_exec start_init hx
  exact ⟨c, hx, hholds, hdata, ((hle_serial hreach).2.1 0 hholds).2.2⟩

end TtasHle
