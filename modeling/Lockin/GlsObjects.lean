import Lockin.ClhtLpAlone
import Lockin.ClhtLpObjects
import Lockin.ClhtLpStatus

/-! # One lock object for every address

    `gls_lock`, `gls_trylock` and `gls_unlock` of one pointer flavour in `gls.c`, up to the
    object that they work on, by any number of threads: `GLS_INIT_ONCE` with `gls_init`, the
    cache of the last lookup, and the functions of the table with all their steps.  What the
    lock functions do to the object is the business of other modules; here a call is over when
    it has its object, and a thread may unlock whatever it has got by a lock or a trylock, held
    or not.

    Two lookups give the same object exactly if they are of the same address, and no lookup
    gives `NULL` (`OneObject`), in every run in which no table counts 2^32 expansions and no
    table of more than 2^31 buckets is copied.  A counter that comes round asks for a second
    resize of its table, and a thread that has been delayed in the first one then publishes
    an empty table (`gls_oneObject_wraps`). -/

namespace GlsObjects

open Interleaving SlotTable ClhtLp

variable {Tid : Type}

/-- `DEFAULT_CLHT_SIZE`. -/
def defaultClhtSize : Nat := 256

/-- `num_buckets` of `gls_init`. -/
def numBuckets (numLocks : Nat) : Nat := if numLocks = 0 then defaultClhtSize else numLocks

/-- The calls of a program. -/
inductive Call where
  | lock (addr : Addr)
  | trylock (addr : Addr)
  | unlock (addr : Addr)
  deriving DecidableEq

def Call.addr : Call → Addr
  | .lock addr | .trylock addr | .unlock addr => addr

/-- The function of the table: `gls_lock_get_put` or `gls_lock_get_get`. -/
def Call.onTable (type : PutType) : Call → ClhtLpConc.Call
  | .lock addr | .trylock addr => .putType addr type
  | .unlock addr => .get addr

/-- Where a thread stands. -/
inductive Pc where
  | out
  /-- `gls_initialized == 0` of `GLS_INIT_ONCE`. -/
  | initOnce
  /-- `__sync_val_compare_and_swap(&gls_initializing, 0, 1)`. -/
  | initCas
  /-- `while (gls_initialized == 0)`. -/
  | initWait
  /-- `assert(gls_initialized == 0)`. -/
  | initAssert
  /-- `gls_hashtable = clht_lp_create(num_buckets)`. -/
  | initCreate
  /-- `gls_initialized = 1`. -/
  | initDone
  /-- The load of `gls_hashtable`. -/
  | hashtable
  /-- In a function of the table. -/
  | table
  /-- An assertion has failed, or `NULL` has been followed. -/
  | crash
  deriving DecidableEq

structure Shared where
  initialized : Bool
  initializing : Bool
  hashtable : Option Clht

/-- `struct gls_lock_cache`. -/
structure LockCache where
  lock : Addr
  addr : Val
  deriving DecidableEq

/-- A thread, with what its lookups have given. -/
structure Local where
  pc : Pc
  call : Call
  cache : LockCache
  /-- The thread in the functions of the table. -/
  tab : ClhtLpConc.Local
  /-- The addresses of its locks and trylocks. -/
  locks : List Addr
  lookups : List (Addr × Val)

inductive Act where
  | start (call : Call)
  | go
  deriving DecidableEq

/-! ## One step -/

def Local.goto (l : Local) (pc : Pc) : Local := { l with pc := pc }

/-- The call has its object. -/
def Local.found (l : Local) (val : Val) : Local :=
  { l with
    pc := .out
    lookups := (l.call.addr, val) :: l.lookups
    locks := match l.call with
      | .unlock _ => l.locks
      | _ => l.call.addr :: l.locks }

section

variable (cache : Bool) (type : PutType)

/-- `gls_lock_cache_set`, which only `gls_lock_get_put` calls. -/
def Local.cacheSet (l : Local) (val : Val) : Local :=
  match l.call with
  | .unlock _ => l
  | _ => if cache then { l with cache := ⟨l.call.addr, val⟩ } else l

/-- After `GLS_INIT_ONCE`: `GLS_LOCK_CACHE_GET`, and then the table. -/
def Local.lookup (l : Local) : Local :=
  if cache ∧ l.cache.lock = l.call.addr then l.found l.cache.addr else l.goto .hashtable

/-- A step of the thread in the table; the return of the function is the end of the lookup. -/
def Local.inTable (l : Local) (tab : ClhtLpConc.Local) : Local :=
  match l.tab.pc with
  | .ret (.val val) => (Local.cacheSet cache { l with tab := tab } val).found val
  | _ => { l with tab := tab }

/-- The next access of a thread to shared memory. -/
def go (sh : Shared) (l : Local) : Pc → Option (Shared × Local)
  | .out | .crash => none
  | .initOnce => some (sh, if sh.initialized then l.lookup cache else l.goto .initCas)
  | .initCas =>
      if sh.initializing then some (sh, l.goto .initWait)
      else some ({ sh with initializing := true }, l.goto .initAssert)
  | .initWait => some (sh, if sh.initialized then l.lookup cache else l)
  | .initAssert => some (sh, l.goto (if sh.initialized then .crash else .initCreate))
  | .initCreate =>
      match clhtLpCreate (numBuckets defaultClhtSize) with
      | some h => some ({ sh with hashtable := some h }, l.goto .initDone)
      | none => some ({ sh with hashtable := none }, l.goto .crash)
  | .initDone => some ({ sh with initialized := true }, l.lookup cache)
  | .hashtable =>
      match sh.hashtable with
      | none => some (sh, l.goto .crash)
      | some _ =>
          some (sh, { l with
            pc := .table
            tab := { l.tab with
              pc := (l.call.onTable type).entry
              call := l.call.onTable type } })
  | .table =>
      match sh.hashtable with
      | none => none
      | some h =>
          (ClhtLpConc.go h l.tab l.tab.pc).map fun r =>
            ({ sh with hashtable := some r.1 }, l.inTable cache r.2)

/-- Locks are at addresses of the program, and a thread unlocks what it has locked. -/
def Call.enabled (l : Local) : Call → Prop
  | .lock addr | .trylock addr => addr ≠ 0
  | .unlock addr => addr ∈ l.locks

instance (l : Local) : (call : Call) → Decidable (call.enabled l)
  | .lock addr | .trylock addr => (inferInstance : Decidable (addr ≠ 0))
  | .unlock addr => (inferInstance : Decidable (addr ∈ l.locks))

/-- The atomic step. -/
def prog : Prog Tid Shared Local Act := fun _ sh l a =>
  match a with
  | .start call =>
      if l.pc = .out ∧ call.enabled l then some (sh, { l with pc := .initOnce, call := call })
      else none
  | .go => go cache type sh l l.pc

end

/-- Before the first call of the program. -/
structure Init (c : Conf Tid Shared Local) : Prop where
  sh : c.sh = ⟨false, false, none⟩
  loc : ∀ t, (c.loc t).pc = .out ∧ (c.loc t).cache = ⟨0, 0⟩ ∧
    (c.loc t).tab.pc = .idle ∧ (c.loc t).tab.held = [] ∧ (c.loc t).tab.log = [] ∧
    (c.loc t).locks = [] ∧ (c.loc t).lookups = []

/-- The table has room for the step. -/
def Fits (c : Conf Tid Shared Local) (t : Tid) (_ : Act) : Prop :=
  match c.sh.hashtable with
  | some h => (c.loc t).pc = .table → ClhtLpConc.Room h (c.loc t).tab.pc
  | none => True

theorem fits_iff (c : Conf Tid Shared Local) (t : Tid) (a : Act) :
    (match c.sh.hashtable with
      | some h => decide ((c.loc t).pc = .table → ClhtLpConc.Room h (c.loc t).tab.pc)
      | none => true) = true ↔ Fits c t a := by
  unfold Fits
  cases c.sh.hashtable with
  | some h => exact decide_eq_true_iff
  | none => exact iff_of_true rfl trivial

instance (c : Conf Tid Shared Local) (t : Tid) (a : Act) : Decidable (Fits c t a) :=
  decidable_of_iff _ (fits_iff c t a)

/-- **Every address has one object**, other addresses have others, and no lookup, of an unlock
    or any other call, has given `NULL`. -/
structure OneObject (c : Conf Tid Shared Local) : Prop where
  object : ∀ u v a b x y, (a, x) ∈ (c.loc u).lookups → (b, y) ∈ (c.loc v).lookups →
    (x = y ↔ a = b)
  found : ∀ u a x, (a, x) ∈ (c.loc u).lookups → x ≠ 0
  safe : ∀ u, (c.loc u).pc ≠ .crash

/-- **What a lookup has given is in the table**: it is what `clht_lp_get` finds for the address
    now, and one of the objects that the table has made, of the flavour of the calls. -/
structure InTable (type : PutType) (c : Conf Tid Shared Local) : Prop where
  get : ∀ u a x, (a, x) ∈ (c.loc u).lookups → ∃ h, c.sh.hashtable = some h ∧
    clhtLpGet h.cur a = x ∧ 0 < x ∧ h.objs[x - 1]? = some type

/-! ## What a thread relies on -/

/-- The address is in the current table, with the object. -/
def Shared.Bound (sh : Shared) (addr : Addr) (val : Val) : Prop :=
  ∃ h, sh.hashtable = some h ∧ (addr, val) ∈ h.cur.content

/-- The thread is to create the table. -/
def Pc.creates : Pc → Bool
  | .initAssert | .initCreate => true
  | _ => false

/-- The thread has won the CAS of `gls_init`. -/
def Pc.inits : Pc → Bool
  | .initAssert | .initCreate | .initDone => true
  | _ => false

/-- Who creates the table has won the CAS. -/
theorem Pc.inits_of_creates {pc : Pc} (h : pc.creates = true) : pc.inits = true := by
  cases pc <;> first | rfl | cases h

/-- What a thread has got so far. -/
structure Knows (type : PutType) (sh : Shared) (l : Local) : Prop where
  locks : ∀ a ∈ l.locks, a ≠ 0 ∧ ∃ x, (.putType a type, x) ∈ l.tab.log
  lookups : ∀ a x, (a, x) ∈ l.lookups → sh.Bound a x
  cached : l.cache.lock ≠ 0 → (l.cache.lock, l.cache.addr) ∈ l.lookups ∧
    ∃ x, (.putType l.cache.lock type, x) ∈ l.tab.log

/-- What holds of a thread where it stands. -/
structure Fine (type : PutType) (sh : Shared) (l : Local) : Prop extends Knows type sh l where
  safe : l.pc ≠ .crash
  made : l.pc = .initDone ∨ l.pc = .hashtable ∨ l.pc = .table → sh.hashtable ≠ none
  before : l.pc.creates = true → sh.hashtable = none
  idle : l.pc ≠ .table → l.tab.pc = .idle
  inside : l.pc = .table → l.tab.pc ≠ .idle ∧ l.tab.call = l.call.onTable type
  call : l.pc ≠ .out → l.call.addr ≠ 0 ∧ ∀ a, l.call = .unlock a → a ∈ l.locks

/-- What the steps of the others do to the table. -/
structure Grows (sh sh' : Shared) : Prop where
  hashtable : sh.hashtable ≠ none → sh'.hashtable ≠ none
  bound : ∀ a x, sh.Bound a x → sh'.Bound a x

variable {type : PutType} {cache : Bool} {sh sh' : Shared} {l : Local}

/-- A step that leaves the table alone. -/
theorem Grows.of_eq (h : sh'.hashtable = sh.hashtable) : Grows sh sh' :=
  ⟨fun hne => h ▸ hne, fun _ _ ⟨g, hg, hmem⟩ => ⟨g, h.trans hg, hmem⟩⟩

/-- The steps of the others keep what a thread knows. -/
theorem Knows.grow (hk : Knows type sh l) (hg : Grows sh sh') : Knows type sh' l :=
  ⟨hk.locks, fun a x hmem => hg.bound a x (hk.lookups a x hmem), hk.cached⟩

/-- They keep what holds of it where it stands. -/
theorem Fine.frame (hf : Fine type sh l) (hg : Grows sh sh')
    (hbefore : l.pc.creates = true → sh'.hashtable = none) : Fine type sh' l :=
  ⟨hf.toKnows.grow hg, hf.safe, fun hpc => hg.hashtable (hf.made hpc), hbefore, hf.idle, hf.inside,
    hf.call⟩

/-- Outside the table, only the place changes. -/
theorem Fine.goto (hf : Fine type sh l) {pc : Pc} (hcall : l.pc ≠ .out) (htab : l.pc ≠ .table)
    (hpc : pc ≠ .crash ∧ pc ≠ .table)
    (hmade : pc = .initDone ∨ pc = .hashtable → sh.hashtable ≠ none)
    (hbefore : pc.creates = true → sh.hashtable = none) : Fine type sh (l.goto pc) := by
  refine ⟨⟨hf.locks, hf.lookups, hf.cached⟩, hpc.1, fun h => hmade ?_, hbefore,
    fun _ => hf.idle htab, fun h => absurd h hpc.2, fun _ => hf.call hcall⟩
  rcases h with h | h | h
  · exact Or.inl h
  · exact Or.inr h
  · exact absurd h hpc.2

/-- The object that a call ends with is that of its address; a lock or trylock has put it. -/
theorem Knows.found (hk : Knows type sh l) {val : Val} (htab : l.tab.pc = .idle)
    (hcall : l.call.addr ≠ 0) (hval : sh.Bound l.call.addr val)
    (hput : (∀ a, l.call ≠ .unlock a) → ∃ x, (.putType l.call.addr type, x) ∈ l.tab.log) :
    Fine type sh (l.found val) := by
  refine ⟨⟨?_, ?_, ?_⟩, by simp [Local.found], by simp [Local.found], ?_, fun _ => htab,
    by simp [Local.found], fun h => absurd rfl h⟩
  · intro a ha
    cases hc : l.call with
    | unlock b =>
        simp only [Local.found, hc] at ha
        exact hk.locks a ha
    | lock b | trylock b =>
        simp only [Local.found, hc] at ha
        obtain rfl | hold := List.mem_cons.mp ha
        · have hput' := hput (by simp [hc])
          rw [hc] at hcall hput'
          exact ⟨hcall, hput'⟩
        · exact hk.locks a hold
  · intro a x hmem
    obtain heq | hold := List.mem_cons.mp hmem
    · obtain ⟨rfl, rfl⟩ := Prod.mk.inj heq
      exact hval
    · exact hk.lookups a x hold
  · intro hne
    exact ⟨List.mem_cons_of_mem _ (hk.cached hne).1, (hk.cached hne).2⟩
  · intro h
    cases h

/-- Only a lock or a trylock sets the cache. -/
theorem cacheSet_eq (cache : Bool) (l : Local) (val : Val) :
    l.cacheSet cache val = l ∨
      (∀ a, l.call ≠ .unlock a) ∧
        l.cacheSet cache val = { l with cache := ⟨l.call.addr, val⟩ } := by
  cases hc : l.call with
  | unlock a =>
      left
      simp only [Local.cacheSet, hc]
  | lock a | trylock a =>
      cases cache with
      | true =>
          right
          simp [Local.cacheSet, hc]
      | false =>
          left
          simp [Local.cacheSet, hc]

/-- The function of the table returns. -/
theorem Knows.returned (hk : Knows type sh l) {val : Val} (htab : l.tab.pc = .idle)
    (hcall : l.call.addr ≠ 0) (hval : sh.Bound l.call.addr val)
    (hput : (∀ a, l.call ≠ .unlock a) → ∃ x, (.putType l.call.addr type, x) ∈ l.tab.log) :
    Fine type sh ((l.cacheSet cache val).found val) := by
  have hf := hk.found htab hcall hval hput
  obtain heq | ⟨hlock, heq⟩ := cacheSet_eq cache l val
  · rw [heq]
    exact hf
  · rw [heq]
    exact ⟨⟨hf.locks, hf.lookups, fun _ => ⟨List.mem_cons_self .., hput hlock⟩⟩, hf.safe, hf.made,
      hf.before, hf.idle, hf.inside, hf.call⟩

/-- The cache has the object of its address. -/
theorem Fine.lookup (hf : Fine type sh l) (hcall : l.pc ≠ .out) (htab : l.pc ≠ .table)
    (hmade : sh.hashtable ≠ none) : Fine type sh (l.lookup cache) := by
  unfold Local.lookup
  split
  · next hhit =>
    obtain ⟨-, heq⟩ := hhit
    have haddr := (hf.call hcall).1
    obtain ⟨hmem, hput⟩ := hf.cached (heq ▸ haddr)
    rw [heq] at hmem hput
    exact hf.toKnows.found (hf.idle htab) haddr (hf.lookups _ _ hmem) fun _ => hput
  · exact hf.goto hcall htab ⟨by simp, by simp⟩ (fun _ => hmade) (by simp [Pc.creates])

/-- `GLS_LOCK_CACHE_GET` does not look at the table. -/
theorem lookup_tab (cache : Bool) (l : Local) : (l.lookup cache).tab = l.tab := by
  unfold Local.lookup
  split <;> rfl

theorem lookup_inits (cache : Bool) (l : Local) : (l.lookup cache).pc.inits = false := by
  unfold Local.lookup
  split <;> rfl

theorem cacheSet_tab (cache : Bool) (l : Local) (val : Val) :
    (l.cacheSet cache val).tab = l.tab := by
  unfold Local.cacheSet
  split
  · rfl
  · split <;> rfl

/-- The thread in the table, after a step there. -/
theorem inTable_tab (cache : Bool) (l : Local) (tab : ClhtLpConc.Local) :
    (l.inTable cache tab).tab = tab := by
  unfold Local.inTable
  split
  · exact cacheSet_tab ..
  · rfl

/-- A lookup goes to the table, or ends with what the cache has. -/
theorem lookup_cases (cache : Bool) (l : Local) :
    l.lookup cache = l.goto .hashtable ∨ ∃ v, l.lookup cache = l.found v := by
  unfold Local.lookup
  split
  · exact Or.inr ⟨_, rfl⟩
  · exact Or.inl rfl

/-- A step of a lookup goes on, or ends with an object. -/
theorem go_cases {r : Shared × Local} (hs : go cache type sh l l.pc = some r) :
    (∃ pc tab, pc ≠ .out ∧ r.2 = { l with pc := pc, tab := tab }) ∨
      ∃ v known tab, r.2 = Local.found { l with cache := known, tab := tab } v := by
  have hlookup : (∃ pc tab, pc ≠ .out ∧ l.lookup cache = { l with pc := pc, tab := tab }) ∨
      ∃ v known tab, l.lookup cache = Local.found { l with cache := known, tab := tab } v := by
    obtain heq | ⟨v, heq⟩ := lookup_cases cache l
    · exact Or.inl ⟨.hashtable, l.tab, by simp, heq⟩
    · exact Or.inr ⟨v, l.cache, l.tab, heq⟩
  cases hpc : l.pc
  all_goals rw [hpc] at hs
  case out | crash => cases hs
  case initOnce =>
    obtain rfl := Option.some.inj hs
    dsimp only
    split
    · exact hlookup
    · exact Or.inl ⟨.initCas, l.tab, by simp, rfl⟩
  case initCas =>
    dsimp only [go] at hs
    split at hs <;> obtain rfl := Option.some.inj hs
    · exact Or.inl ⟨.initWait, l.tab, by simp, rfl⟩
    · exact Or.inl ⟨.initAssert, l.tab, by simp, rfl⟩
  case initWait =>
    obtain rfl := Option.some.inj hs
    dsimp only
    split
    · exact hlookup
    · exact Or.inl ⟨l.pc, l.tab, by simp [hpc], rfl⟩
  case initAssert =>
    obtain rfl := Option.some.inj hs
    exact Or.inl ⟨_, l.tab, by split <;> simp, rfl⟩
  case initCreate =>
    dsimp only [go] at hs
    split at hs <;> obtain rfl := Option.some.inj hs
    · exact Or.inl ⟨.initDone, l.tab, by simp, rfl⟩
    · exact Or.inl ⟨.crash, l.tab, by simp, rfl⟩
  case initDone =>
    obtain rfl := Option.some.inj hs
    exact hlookup
  case hashtable =>
    dsimp only [go] at hs
    split at hs <;> obtain rfl := Option.some.inj hs
    · exact Or.inl ⟨.crash, l.tab, by simp, rfl⟩
    · exact Or.inl ⟨.table, _, by simp, rfl⟩
  case table =>
    dsimp only [go] at hs
    split at hs
    · cases hs
    · obtain ⟨x, -, rfl⟩ := Option.map_eq_some_iff.mp hs
      dsimp only
      unfold Local.inTable
      split
      · next v hv =>
        obtain heq | ⟨-, heq⟩ := cacheSet_eq cache { l with tab := x.2 } v
        · exact Or.inr ⟨v, l.cache, x.2, by rw [heq]; rfl⟩
        · exact Or.inr ⟨v, ⟨l.call.addr, v⟩, x.2, by rw [heq]; rfl⟩
      · exact Or.inl ⟨l.pc, x.2, by simp [hpc], rfl⟩

/-! ## The invariant -/

section

variable [DecidableEq Tid] {c : Conf Tid Shared Local} {t : Tid} {r : Shared × Local}

/-- The threads in the table. -/
def tables (h : Clht) (c : Conf Tid Shared Local) : Conf Tid Clht ClhtLpConc.Local :=
  ⟨h, fun u => (c.loc u).tab⟩

/-- What a step does to the threads in the table. -/
theorem tables_put (h h' : Clht) (c : Conf Tid Shared Local) (t : Tid) (r : Shared × Local) :
    tables h' (c.put t r) = (tables h c).put t (h', r.2.tab) := by
  refine congrArg (Conf.mk h') (funext fun u => ?_)
  rw [Function.update_apply]
  split
  · next hut => rw [hut, put_loc_self]
  · next hut => rw [put_loc_ne c r hut]; rfl

/-- At most one thread creates the table, and then the threads in it run as they do without the
    rest of GLS. -/
structure Inv (type : PutType) (c : Conf Tid Shared Local) : Prop where
  fine : ∀ u, Fine type c.sh (c.loc u)
  single : ∀ u v, (c.loc u).pc.inits = true → (c.loc v).pc.inits = true → u = v
  fresh : c.sh.initializing = false → c.sh.hashtable = none ∧ ∀ u, (c.loc u).pc.inits = false
  ready : c.sh.initialized = true → c.sh.hashtable ≠ none
  noTab : c.sh.hashtable = none → ∀ u,
    (c.loc u).tab.pc = .idle ∧ (c.loc u).tab.held = [] ∧ (c.loc u).tab.log = []
  runs : ∀ h, c.sh.hashtable = some h → Reach ClhtLpConc.prog ClhtLpConc.Counted
    (ClhtLpConc.Init (numBuckets defaultClhtSize)) (tables h c)

/-- What the steps outside the table have in common. -/
theorem Inv.put (h : Inv type c) (hgrow : Grows c.sh r.1) (hfine : Fine type r.1 r.2)
    (hbefore : ∀ u, u ≠ t → (c.loc u).pc.creates = true → r.1.hashtable = none)
    (hinits : r.2.pc.inits = true →
      (c.loc t).pc.inits = true ∨ c.sh.initializing = false ∧ r.1.initializing = true)
    (hfresh : r.1.initializing = false →
      c.sh.initializing = false ∧ r.1.hashtable = c.sh.hashtable)
    (hready : r.1.initialized = true → r.1.hashtable ≠ none)
    (hnoTab : r.1.hashtable = none → c.sh.hashtable = none ∧ r.2.tab = (c.loc t).tab)
    (hruns : ∀ g, r.1.hashtable = some g → Reach ClhtLpConc.prog ClhtLpConc.Counted
      (ClhtLpConc.Init (numBuckets defaultClhtSize)) (tables g (c.put t r))) :
    Inv type (c.put t r) := by
  have hself : (c.put t r).loc t = r.2 := put_loc_self ..
  have hone : ∀ u, u ≠ t → (c.loc u).pc.inits = true → r.2.pc.inits ≠ true := by
    intro u hut hu ht
    obtain hold | ⟨hfree, -⟩ := hinits ht
    · exact hut (h.single u t hu hold)
    · rw [(h.fresh hfree).2 u] at hu
      cases hu
  refine ⟨?_, ?_, ?_, hready, ?_, hruns⟩
  · intro u
    by_cases hut : u = t
    · subst hut
      rw [hself]
      exact hfine
    · rw [put_loc_ne c r hut]
      exact (h.fine u).frame hgrow (hbefore u hut)
  · intro u v hu hv
    by_cases hut : u = t
    · by_cases hvt : v = t
      · exact hut.trans hvt.symm
      · subst hut
        rw [hself] at hu
        rw [put_loc_ne c r hvt] at hv
        exact absurd hu (hone v hvt hv)
    · rw [put_loc_ne c r hut] at hu
      by_cases hvt : v = t
      · subst hvt
        rw [hself] at hv
        exact absurd hv (hone u hut hu)
      · rw [put_loc_ne c r hvt] at hv
        exact h.single u v hu hv
  · intro hfree
    obtain ⟨hfree', hsame⟩ := hfresh hfree
    obtain ⟨hnone, hno⟩ := h.fresh hfree'
    refine ⟨hsame.trans hnone, fun u => ?_⟩
    by_cases hut : u = t
    · subst hut
      rw [hself, Bool.eq_false_iff]
      intro hu
      obtain hold | ⟨-, htrue⟩ := hinits hu
      · rw [hno u] at hold
        cases hold
      · rw [put_sh, htrue] at hfree
        cases hfree
    · rw [put_loc_ne c r hut]
      exact hno u
  · intro hnone u
    obtain ⟨hold, htab⟩ := hnoTab hnone
    by_cases hut : u = t
    · subst hut
      rw [hself, htab]
      exact h.noTab hold u
    · rw [put_loc_ne c r hut]
      exact h.noTab hold u

/-- A step outside the table that does not create it. -/
theorem Inv.quiet (h : Inv type c) (hht : r.1.hashtable = c.sh.hashtable)
    (htab : r.2.tab = (c.loc t).tab) (hfine : Fine type r.1 r.2)
    (hinits : r.2.pc.inits = true →
      (c.loc t).pc.inits = true ∨ c.sh.initializing = false ∧ r.1.initializing = true)
    (hfresh : r.1.initializing = false → c.sh.initializing = false)
    (hready : r.1.initialized = true → r.1.hashtable ≠ none) : Inv type (c.put t r) := by
  refine h.put (.of_eq hht) hfine (fun u _ hu => hht.trans ((h.fine u).before hu)) hinits
    (fun hfree => ⟨hfresh hfree, hht⟩) hready (fun hnone => ⟨hht.symm.trans hnone, htab⟩) ?_
  intro g hg
  have hreach := h.runs g (hht.symm.trans hg)
  rw [tables_put g g c t r, htab]
  exact (put_self (tables g c) t).symm ▸ hreach

/-- A call begins. -/
theorem Inv.begin (h : Inv type c) (hout : (c.loc t).pc = .out) {call : Call}
    (hen : call.enabled (c.loc t)) :
    Inv type (c.put t (c.sh, { c.loc t with pc := .initOnce, call := call })) := by
  have hf := h.fine t
  have hcall : call.addr ≠ 0 ∧ ∀ a, call = .unlock a → a ∈ (c.loc t).locks := by
    cases call with
    | unlock a =>
        refine ⟨(hf.locks a hen).1, fun b hb => ?_⟩
        obtain rfl := Call.unlock.inj hb
        exact hen
    | _ => exact ⟨hen, fun b hb => by cases hb⟩
  refine h.quiet rfl rfl ⟨⟨hf.locks, hf.lookups, hf.cached⟩, by simp, by simp, ?_,
    fun _ => hf.idle (by simp [hout]), by simp, fun _ => hcall⟩ ?_ id h.ready
  · intro hpc
    cases hpc
  · intro hpc
    cases hpc

/-- The table is created. -/
theorem Inv.create (h : Inv type c) (hpc : (c.loc t).pc = .initCreate) {g : Clht}
    (hg : clhtLpCreate (numBuckets defaultClhtSize) = some g) :
    Inv type (c.put t ({ c.sh with hashtable := some g }, (c.loc t).goto .initDone)) := by
  have hf := h.fine t
  have hnone := hf.before (by rw [hpc]; rfl)
  have hgrow : Grows c.sh { c.sh with hashtable := some g } := by
    refine ⟨fun hne => absurd hnone hne, fun a x hbound => ?_⟩
    obtain ⟨g', hg', -⟩ := hbound
    rw [hnone] at hg'
    cases hg'
  refine h.put hgrow ?_ ?_ (fun _ => Or.inl (by rw [hpc]; rfl)) ?_ (by simp) (by simp) ?_
  · obtain ⟨hlocks, hlookups, hcached⟩ := hf.toKnows.grow hgrow
    refine ⟨⟨hlocks, hlookups, hcached⟩, by simp [Local.goto], by simp, ?_,
      fun _ => hf.idle (by simp [hpc]), by simp [Local.goto], fun _ => hf.call (by simp [hpc])⟩
    intro hcreates
    cases hcreates
  · intro u hut hu
    exact absurd (h.single u t (Pc.inits_of_creates hu) (by rw [hpc]; rfl)) hut
  · intro hfree
    have hno := (h.fresh hfree).2 t
    rw [hpc] at hno
    cases hno
  · intro g' hg'
    obtain rfl := Option.some.inj hg'
    rw [tables_put g]
    exact (put_self (tables g c) t).symm ▸ Reach.start ⟨hg, h.noTab hnone⟩

/-- The functions of the table that GLS calls. -/
theorem Call.onTable_pointers {call : Call} (hcall : call.addr ≠ 0) :
    (call.onTable type).pointers := by
  cases call <;> exact hcall

/-- A function of the table begins. -/
theorem Inv.enter (h : Inv type c) (hpc : (c.loc t).pc = .hashtable) {g : Clht}
    (hg : c.sh.hashtable = some g) :
    Inv type (c.put t (c.sh, { c.loc t with
      pc := .table
      tab := { (c.loc t).tab with
        pc := ((c.loc t).call.onTable type).entry
        call := (c.loc t).call.onTable type } })) := by
  have hf := h.fine t
  obtain ⟨haddr, hunlock⟩ := hf.call (by simp [hpc])
  have hsome : c.sh.hashtable ≠ none := by simp [hg]
  have hidle := hf.idle (by simp [hpc])
  have hpointers : ((c.loc t).call.onTable type).pointers := Call.onTable_pointers haddr
  have hfollows : ((c.loc t).call.onTable type).follows (c.loc t).tab := by
    cases hc : (c.loc t).call with
    | unlock a =>
        obtain ⟨x, hx⟩ := (hf.locks a (hunlock a hc)).2
        exact ⟨type, x, hx⟩
    | _ => trivial
  refine h.put (.of_eq rfl) ?_ (fun u _ hu => (h.fine u).before hu) (by simp [Pc.inits])
    (fun hfree => ⟨hfree, rfl⟩) h.ready (fun hnone => absurd hnone hsome) ?_
  · refine ⟨⟨hf.locks, hf.lookups, hf.cached⟩, by simp, fun _ => hsome, ?_, by simp,
      fun _ => ⟨?_, rfl⟩, fun _ => ⟨haddr, hunlock⟩⟩
    · intro hcreates
      cases hcreates
    · cases (c.loc t).call <;> simp [Call.onTable, ClhtLpConc.Call.entry]
  · intro g' hg'
    obtain rfl := Option.some.inj (hg.symm.trans hg')
    rw [tables_put g]
    have hok : ClhtLpConc.Counted (tables g c) t (.start ((c.loc t).call.onTable type)) :=
      ⟨hpointers, hfollows⟩
    refine .step (h.runs g hg) hok ?_
    have hen : ((c.loc t).call.onTable type).enabled ((tables g c).loc t) := by
      cases (c.loc t).call <;> trivial
    show ClhtLpConc.prog t g (c.loc t).tab _ = _
    dsimp only [ClhtLpConc.prog]
    rw [hidle]
    exact if_pos hen

omit [DecidableEq Tid] in
/-- What a function of the table returns, and what it leaves of the thread. -/
theorem Fine.inTable (hf : Fine type c.sh (c.loc t)) (hpc : (c.loc t).pc = .table) {g : Clht}
    (hobj : ClhtLpConc.Objects (tables g c))
    {x : Clht × ClhtLpConc.Local} (hgrow : Grows c.sh { c.sh with hashtable := some x.1 })
    (hs : ClhtLpConc.go g (c.loc t).tab (c.loc t).tab.pc = some x) :
    Fine type { c.sh with hashtable := some x.1 } ((c.loc t).inTable cache x.2) := by
  obtain ⟨hne, hcall⟩ := hf.inside hpc
  obtain ⟨haddr, hunlock⟩ := hf.call (by simp [hpc])
  have hkey : (c.loc t).tab.call.key = (c.loc t).call.addr := by
    rw [hcall]
    cases (c.loc t).call <;> rfl
  -- the thread knows what it has known before
  have hlog := ClhtLpConc.log_subset hs
  have hknows : Knows type { c.sh with hashtable := some x.1 } { c.loc t with tab := x.2 } := by
    obtain ⟨hlocks, hlookups, hcached⟩ := hf.toKnows.grow hgrow
    refine ⟨fun a ha => ?_, hlookups, fun hlock => ?_⟩
    · obtain ⟨ha0, y, hy⟩ := hlocks a ha
      exact ⟨ha0, y, hlog hy⟩
    · obtain ⟨hmem, y, hy⟩ := hcached hlock
      exact ⟨hmem, y, hlog hy⟩
  by_cases hret : ∃ y, (c.loc t).tab.pc = .ret y
  · obtain ⟨y, hy⟩ := hret
    have hanswer := hobj.answer (t := t) hy
    rw [hy] at hs
    obtain rfl := Option.some.inj hs
    obtain ⟨v, rfl, hv⟩ := hanswer
    have hreturned : (c.loc t).tab.call.returned (c.loc t).tab (.val v)
        = (c.loc t).tab.finish (.val v) := by
      rw [hcall]
      cases (c.loc t).call <;> rfl
    have hin : (c.loc t).inTable cache ((c.loc t).tab.finish (.val v))
        = (Local.cacheSet cache { c.loc t with tab := (c.loc t).tab.finish (.val v) } v).found
          v := by
      unfold Local.inTable
      rw [hy]
    rw [hreturned] at hknows ⊢
    rw [hin]
    refine hknows.returned rfl haddr ⟨g, rfl, hkey ▸ hv⟩ fun hlock => ⟨.val v, ?_⟩
    have hput : (c.loc t).tab.call = .putType (c.loc t).call.addr type := by
      rw [hcall]
      cases hc : (c.loc t).call with
      | unlock a => exact absurd hc (hlock a)
      | _ => rfl
    rw [← hput]
    exact List.mem_cons_self ..
  · have hin : (c.loc t).inTable cache x.2 = { c.loc t with tab := x.2 } := by
      unfold Local.inTable
      split
      · next v hv => exact absurd ⟨_, hv⟩ hret
      · rfl
    have hinside := hobj.inside (t := t) hs fun y hy => hret ⟨y, hy⟩
    rw [hin]
    refine ⟨hknows, by simp [hpc], fun _ => by simp, ?_, fun hno => absurd hpc hno,
      fun _ => ⟨hinside, (ClhtLpConc.call_of_go hs).trans hcall⟩, fun _ => ⟨haddr, hunlock⟩⟩
    rw [hpc]
    intro hcreates
    cases hcreates

/-- A step in the table. -/
theorem Inv.inTable (h : Inv type c) (hpc : (c.loc t).pc = .table) {g : Clht}
    (hg : c.sh.hashtable = some g) (hroom : ClhtLpConc.Room g (c.loc t).tab.pc)
    {x : Clht × ClhtLpConc.Local} (hs : ClhtLpConc.go g (c.loc t).tab (c.loc t).tab.pc = some x) :
    Inv type (c.put t ({ c.sh with hashtable := some x.1 }, (c.loc t).inTable cache x.2)) := by
  have hf := h.fine t
  have hreach := h.runs g hg
  have hobj := ClhtLpConc.objects_of_reach hreach
  have hle : g.cur.content ≤ x.1.cur.content := hobj.grows hroom hs
  have hgrow : Grows c.sh { c.sh with hashtable := some x.1 } := by
    refine ⟨fun _ => by simp, fun a v ⟨g', hg', hmem⟩ => ?_⟩
    obtain rfl := Option.some.inj (hg.symm.trans hg')
    exact ⟨x.1, rfl, Multiset.mem_of_le hle hmem⟩
  refine h.put hgrow (hf.inTable hpc hobj hgrow hs) ?_ ?_ ?_ (by simp) (by simp) ?_
  · intro u _ hu
    have hnone := (h.fine u).before hu
    rw [hg] at hnone
    cases hnone
  · intro hinits
    have hno : ((c.loc t).inTable cache x.2).pc.inits = false := by
      unfold Local.inTable
      split
      · rfl
      · rw [hpc]
        rfl
    rw [hno] at hinits
    cases hinits
  · intro hfree
    have hnone := (h.fresh hfree).1
    rw [hg] at hnone
    cases hnone
  · intro g' hg'
    obtain rfl := Option.some.inj hg'
    rw [tables_put g, inTable_tab]
    have hok : ClhtLpConc.Counted (tables g c) t .go := hroom
    exact .step hreach hok hs

/-- **Every step keeps the invariant.** -/
theorem Inv.step (h : Inv type c) (hok : Fits c t .go)
    (hs : go cache type c.sh (c.loc t) (c.loc t).pc = some r) : Inv type (c.put t r) := by
  have hf := h.fine t
  cases hpc : (c.loc t).pc
  all_goals rw [hpc] at hs
  case out | crash => cases hs
  case initOnce =>
    obtain rfl := Option.some.inj hs
    refine h.quiet rfl ?_ ?_ ?_ id h.ready
    · dsimp only
      split
      · exact lookup_tab ..
      · rfl
    · dsimp only
      split
      · next hin => exact hf.lookup (by simp [hpc]) (by simp [hpc]) (h.ready hin)
      · exact hf.goto (by simp [hpc]) (by simp [hpc]) (by simp) (by simp) (by simp [Pc.creates])
    · dsimp only
      split
      · simp [lookup_inits]
      · simp [Local.goto, Pc.inits]
  case initCas =>
    dsimp only [go] at hs
    split at hs <;> obtain rfl := Option.some.inj hs
    · exact h.quiet rfl rfl
        (hf.goto (by simp [hpc]) (by simp [hpc]) (by simp) (by simp) (by simp [Pc.creates]))
        (by simp [Local.goto, Pc.inits]) id h.ready
    · -- nobody has won before, so that there is no table
      next hfree =>
      have hnone := (h.fresh (by simpa using hfree)).1
      refine h.quiet rfl rfl ?_ (fun _ => Or.inr ⟨by simpa using hfree, rfl⟩) (by simp) h.ready
      have hf' : Fine type { c.sh with initializing := true } (c.loc t) :=
        hf.frame (.of_eq rfl) (fun _ => hnone)
      exact hf'.goto (by simp [hpc]) (by simp [hpc]) (by simp) (by simp) fun _ => hnone
  case initWait =>
    obtain rfl := Option.some.inj hs
    refine h.quiet rfl ?_ ?_ ?_ id h.ready
    · dsimp only
      split
      · exact lookup_tab ..
      · rfl
    · dsimp only
      split
      · next hin => exact hf.lookup (by simp [hpc]) (by simp [hpc]) (h.ready hin)
      · exact hf
    · dsimp only
      split
      · simp [lookup_inits]
      · exact Or.inl
  case initAssert =>
    obtain rfl := Option.some.inj hs
    have hnone := hf.before (by rw [hpc]; rfl)
    -- the assertion holds
    have hno : c.sh.initialized = false := by
      by_contra htrue
      exact h.ready (by simpa using htrue) hnone
    rw [hno]
    exact h.quiet rfl rfl
      (hf.goto (by simp [hpc]) (by simp [hpc]) (by simp) (by simp) fun _ => hnone)
      (fun _ => Or.inl (by rw [hpc]; rfl)) id h.ready
  case initCreate =>
    dsimp only [go] at hs
    split at hs <;> obtain rfl := Option.some.inj hs
    · next g hg => exact h.create hpc hg
    · next hg => cases hg
  case initDone =>
    obtain rfl := Option.some.inj hs
    have hmade := hf.made (Or.inl hpc)
    have hf' : Fine type { c.sh with initialized := true } (c.loc t) :=
      hf.frame (.of_eq rfl) hf.before
    exact h.quiet rfl (lookup_tab ..) (hf'.lookup (by simp [hpc]) (by simp [hpc]) hmade)
      (by simp [lookup_inits]) id fun _ => hmade
  case hashtable =>
    obtain ⟨g, hg⟩ := Option.ne_none_iff_exists'.mp (hf.made (Or.inr (Or.inl hpc)))
    dsimp only [go] at hs
    rw [hg] at hs
    obtain rfl := Option.some.inj hs
    exact h.enter hpc hg
  case table =>
    obtain ⟨g, hg⟩ := Option.ne_none_iff_exists'.mp (hf.made (Or.inr (Or.inr hpc)))
    have hroom : ClhtLpConc.Room g (c.loc t).tab.pc := by
      unfold Fits at hok
      rw [hg] at hok
      exact hok hpc
    dsimp only [go] at hs
    rw [hg] at hs
    obtain ⟨x, hx, rfl⟩ := Option.map_eq_some_iff.mp hs
    exact h.inTable hpc hg hroom hx

/-! ## Every run -/

omit [DecidableEq Tid] in
theorem Init.fine (h : Init c) (u : Tid) : Fine type c.sh (c.loc u) := by
  obtain ⟨hout, hcache, hidle, -, -, hlocks, hlookups⟩ := h.loc u
  refine ⟨⟨?_, ?_, ?_⟩, by simp [hout], by simp [hout], ?_, fun _ => hidle, by simp [hout],
    fun hpc => absurd hout hpc⟩
  · simp [hlocks]
  · simp [hlookups]
  · simp [hcache]
  · rw [hout]
    intro hcreates
    cases hcreates

/-- Before the first call. -/
theorem Init.inv (h : Init c) : Inv type c := by
  have hinits : ∀ u, (c.loc u).pc.inits = false := by
    intro u
    rw [(h.loc u).1]
    rfl
  have hnone : c.sh.hashtable = none := by rw [h.sh]
  refine ⟨h.fine, ?_, fun _ => ⟨hnone, hinits⟩, ?_, ?_, ?_⟩
  · intro u v hu
    rw [hinits u] at hu
    cases hu
  · rw [h.sh]
    intro htrue
    cases htrue
  · intro _ u
    obtain ⟨-, -, hidle, hheld, hlog, -⟩ := h.loc u
    exact ⟨hidle, hheld, hlog⟩
  · intro g hg
    rw [hnone] at hg
    cases hg

/-- **Run lemma.** -/
theorem inv_of_reach (h : Reach (prog cache type) Fits Init c) : Inv type c := by
  refine Reach.invariant (fun _ h0 => h0.inv) ?_ h
  intro c t a r hc hok hs
  cases a with
  | start call =>
      obtain ⟨⟨hout, hen⟩, heq⟩ := Option.ite_none_right_eq_some.mp hs
      obtain rfl := Option.some.inj heq
      exact hc.begin hout hen
  | go => exact hc.step hok hs

/-- The invariant gives the property of the lookups. -/
theorem Inv.oneObject (h : Inv type c) : OneObject c := by
  refine ⟨?_, ?_, fun u => (h.fine u).safe⟩
  · intro u v a b x y hx hy
    obtain ⟨g, hg, hxmem⟩ := (h.fine u).lookups a x hx
    obtain ⟨g', hg', hymem⟩ := (h.fine v).lookups b y hy
    obtain rfl := Option.some.inj (hg.symm.trans hg')
    have hobj := ClhtLpConc.objects_of_reach (h.runs g hg)
    constructor
    · rintro rfl
      exact hobj.own a b x hxmem hymem
    · rintro rfl
      exact hobj.puts.kept.mapped.distinct.eq hxmem hymem
  · intro u a x hx
    obtain ⟨g, hg, hmem⟩ := (h.fine u).lookups a x hx
    exact ((ClhtLpConc.objects_of_reach (h.runs g hg)).entry a x hmem).1

/-! ### The objects -/

/-- All objects are of the flavour. -/
def Flavoured (type : PutType) (sh : Shared) : Prop :=
  ∀ h, sh.hashtable = some h → ∀ kind ∈ h.objs, kind = type

omit [DecidableEq Tid] in
/-- A step in the table makes objects of the flavour only. -/
theorem Fine.flavoured (hf : Fine type c.sh (c.loc t)) (hpc : (c.loc t).pc = .table) {g : Clht}
    (hg : ∀ kind ∈ g.objs, kind = type) {x : Clht × ClhtLpConc.Local}
    (hs : ClhtLpConc.go g (c.loc t).tab (c.loc t).tab.pc = some x) :
    ∀ kind ∈ x.1.objs, kind = type := by
  obtain heq | heq := ClhtLpConc.objs_cases hs
  · rw [heq]
    exact hg
  · rw [heq, (hf.inside hpc).2]
    have hput : ∀ kind ∈ g.objs ++ [type], kind = type := by
      intro kind hkind
      obtain hold | hnew := List.mem_append.mp hkind
      · exact hg kind hold
      · exact List.mem_singleton.mp hnew
    cases (c.loc t).call with
    | unlock a => exact hg
    | _ => exact hput

/-- **Step lemma.** -/
theorem Flavoured.step (hfl : Flavoured type c.sh) (hi : Inv type c)
    (hs : go cache type c.sh (c.loc t) (c.loc t).pc = some r) : Flavoured type r.1 := by
  have hkeep : r.1.hashtable = c.sh.hashtable → Flavoured type r.1 :=
    fun heq h hh => hfl h (heq ▸ hh)
  cases hpc : (c.loc t).pc
  all_goals rw [hpc] at hs
  case out | crash => cases hs
  case initCreate =>
    dsimp only [go] at hs
    split at hs <;> obtain rfl := Option.some.inj hs
    · next h hh =>
      intro h' hh'
      obtain rfl := Option.some.inj hh'
      obtain ⟨T, -, rfl⟩ := Option.map_eq_some_iff.mp hh
      intro kind hkind
      cases hkind
    · intro h hh
      cases hh
  case table =>
    dsimp only [go] at hs
    split at hs
    · cases hs
    · next h hh =>
      obtain ⟨x, hx, rfl⟩ := Option.map_eq_some_iff.mp hs
      intro h' hh'
      obtain rfl := Option.some.inj hh'
      exact (hi.fine t).flavoured hpc (hfl h hh) hx
  case initCas | hashtable =>
    dsimp only [go] at hs
    split at hs <;> obtain rfl := Option.some.inj hs <;> exact hkeep rfl
  all_goals
    obtain rfl := Option.some.inj hs
    exact hkeep rfl

/-- **Run lemma.** The objects of a run are of its flavour. -/
theorem flavoured_of_reach (h : Reach (prog cache type) Fits Init c) :
    Inv type c ∧ Flavoured type c.sh := by
  refine Reach.invariant (I := fun c => Inv type c ∧ Flavoured type c.sh) ?_ ?_ h
  · intro c h0
    refine ⟨h0.inv, fun h hh => ?_⟩
    rw [h0.sh] at hh
    cases hh
  · rintro c t a r ⟨hi, hfl⟩ hok hs
    cases a with
    | start call =>
        obtain ⟨⟨hout, hen⟩, heq⟩ := Option.ite_none_right_eq_some.mp hs
        obtain rfl := Option.some.inj heq
        exact ⟨hi.begin hout hen, hfl⟩
    | go => exact ⟨hi.step hok hs, hfl.step hi hs⟩

/-- What a lookup has given is in the current table. -/
theorem Inv.inCurrent (hi : Inv type c) (hfl : Flavoured type c.sh) :
    InTable type c := by
  refine ⟨fun u a x hx => ?_⟩
  obtain ⟨h, hh, hmem⟩ := (hi.fine u).lookups a x hx
  have hobj := ClhtLpConc.objects_of_reach (hi.runs h hh)
  obtain ⟨hne, hle⟩ := hobj.entry a x hmem
  have hpos : 0 < x := Nat.pos_of_ne_zero hne
  have hlt : x - 1 < h.objs.length := Nat.sub_one_lt_of_le hpos hle
  refine ⟨h, hh, hobj.puts.kept.mapped.clhtLpGet hmem, hpos, ?_⟩
  rw [List.getElem?_eq_getElem hlt, hfl h hh _ (List.getElem_mem hlt)]

/-- **The lookups and the table agree**, at any time of such a run: whatever a lookup has given,
    by the table or by the cache of a thread, however long ago and however often the table has
    been resized since, is in the current table. -/
theorem gls_inTable (cache : Bool) (type : PutType)
    (h : Reach (prog cache type) Fits Init c) : InTable type c := by
  obtain ⟨hi, hfl⟩ := flavoured_of_reach h
  exact hi.inCurrent hfl

/-- **Every address has one lock object for ever**, for every number of threads and every
    interleaving of their calls, with and without the cache, as long as no counter of
    expansions comes round and no table of more than 2^31 buckets is copied. -/
theorem gls_oneObject (cache : Bool) (type : PutType)
    (h : Reach (prog cache type) Fits Init c) : OneObject c :=
  (inv_of_reach h).oneObject

end

/-! ## Schedules -/

/-- Before the first call of the program. -/
def start : Conf Bool Shared Local :=
  ⟨⟨false, false, none⟩, fun _ => ⟨.out, .lock 0, ⟨0, 0⟩, ⟨.idle, .get 0, [], []⟩, [], []⟩⟩

theorem start_init : Init start := ⟨rfl, fun _ => ⟨rfl, rfl, rfl, rfl, rfl, rfl, rfl⟩⟩

/-- A thread starts a call and makes `n` steps in it. -/
def calls (t : Bool) (call : Call) (n : Nat) : List (Bool × Act) :=
  (t, .start call) :: List.replicate n (t, .go)

/-- Both threads lock one address in their first calls, one of them while the other one creates
    the table; both searches have missed the address before either puts it. -/
def racing : List (Bool × Act) :=
  calls true (.lock 8) 4 ++ (calls false (.trylock 8) 3 ++ (List.replicate 7 (true, .go) ++
    (List.replicate 14 (false, .go) ++ (List.replicate 6 (true, .go) ++
      (calls true (.unlock 8) 1 ++ calls false (.trylock 12) 14)))))

/-- The condition can be met, by threads whose first puts race each other, and by an unlock. -/
theorem gls_oneObject_racing : ∃ c : Conf Bool Shared Local,
    Reach (prog true .adaptive) Fits Init c ∧ OneObject c ∧
      (c.loc true).lookups = [(8, 1), (8, 1)] ∧ (c.loc false).lookups = [(12, 2), (8, 1)] := by
  have hrun : ((exec (prog true .adaptive) Fits start racing).map fun c =>
      ((c.loc true).lookups, (c.loc false).lookups))
        = some ([(8, 1), (8, 1)], [(12, 2), (8, 1)]) := by
    decide +kernel
  obtain ⟨c, hx, hlookups⟩ := Option.map_eq_some_iff.mp hrun
  obtain ⟨htrue, hfalse⟩ := Prod.mk.inj hlookups
  have hreach : Reach (prog true .adaptive) Fits Init c := reach_of_exec start_init hx
  exact ⟨c, hreach, gls_oneObject true .adaptive hreach, htrue, hfalse⟩

/-- What the threads of that run have got is in the table. -/
theorem gls_inTable_racing : ∃ (c : Conf Bool Shared Local) (h : Clht),
    Reach (prog true .adaptive) Fits Init c ∧ c.sh.hashtable = some h ∧
      clhtLpGet h.cur 8 = 1 ∧ h.objs[0]? = some .adaptive := by
  have hrun : ((exec (prog true .adaptive) Fits start racing).map fun c =>
      (c.loc true).lookups) = some [(8, 1), (8, 1)] := by
    decide +kernel
  obtain ⟨c, hx, hlookups⟩ := Option.map_eq_some_iff.mp hrun
  have hreach : Reach (prog true .adaptive) Fits Init c := reach_of_exec start_init hx
  obtain ⟨h, hh, hget, -, htype⟩ := (gls_inTable true .adaptive hreach).get true 8 1
    (by rw [hlookups]; exact List.mem_cons_self ..)
  exact ⟨c, h, hreach, hh, hget, htype⟩

/-! ## A thread that runs alone -/

section Alone

variable {cache : Bool} {type : PutType} {t : Tid} {init : Bool} {h h' : Clht} {l : Local}

/-- The steps in the table. -/
theorem solo_table (hpc : l.pc = .table) {x : ClhtLpConc.Local}
    (hg : ClhtLpConc.Goes (h, l.tab) (h', x)) :
    Solo (prog cache type) t (⟨true, init, some h⟩, l)
      (⟨true, init, some h'⟩, { l with tab := x }) := by
  generalize hy : (h', x) = y at hg
  obtain rfl : h' = y.1 := congrArg Prod.fst hy
  obtain rfl : x = y.2 := congrArg Prod.snd hy
  clear hy
  induction hg with
  | refl => exact .refl
  | @tail y z _ hstep ih =>
      obtain ⟨hs, hret⟩ := hstep
      refine ih.tail ⟨.go, ?_⟩
      refine (congrArg (go cache type ⟨true, init, some y.1⟩ { l with tab := y.2 }) hpc).trans ?_
      show (ClhtLpConc.go y.1 y.2 y.2.pc).map _ = _
      rw [hs]
      refine congrArg some (Prod.ext rfl ?_)
      show Local.inTable cache { l with tab := y.2 } z.2 = _
      unfold Local.inTable
      split
      · next v hv =>
          rw [hv] at hret
          cases hret
      · rfl

/-- A lock of an address that is not cached, in the table. -/
def Local.locking (type : PutType) (l : Local) (addr : Addr) : Local :=
  { l with
    pc := .table
    call := .lock addr
    tab := { l.tab with pc := .readHt, call := .putType addr type } }

/-- A thread that runs alone begins a lock, up to the table. -/
theorem solo_locking (hout : l.pc = .out) {addr : Addr} (haddr : addr ≠ 0)
    (hmiss : l.cache.lock ≠ addr) :
    Solo (prog cache type) t (⟨true, init, some h⟩, l)
      (⟨true, init, some h⟩, l.locking type addr) := by
  have hstart : prog cache type t ⟨true, init, some h⟩ l (.start (.lock addr))
      = some (⟨true, init, some h⟩, { l with pc := .initOnce, call := .lock addr }) :=
    if_pos ⟨hout, haddr⟩
  have honce : prog cache type t ⟨true, init, some h⟩
      { l with pc := .initOnce, call := .lock addr } .go
      = some (⟨true, init, some h⟩, { l with pc := .hashtable, call := .lock addr }) := by
    refine congrArg some (Prod.ext rfl ?_)
    show Local.lookup cache { l with pc := .initOnce, call := .lock addr } = _
    exact if_neg fun hhit => hmiss hhit.2
  refine (Solo.single _ hstart).trans ((Solo.single _ honce).trans (Solo.single .go rfl))

/-- The lock has its object. -/
def Local.locked (cache : Bool) (l : Local) (val : Val) : Local :=
  (Local.cacheSet cache { l with tab := l.tab.finish (.val val) } val).found val

/-- It returns from the table. -/
theorem solo_locked (hpc : l.pc = .table) {addr : Addr} {val : Val}
    (hret : l.tab.pc = .ret (.val val)) (hput : l.tab.call = .putType addr type) :
    Solo (prog cache type) t (⟨true, init, some h⟩, l)
      (⟨true, init, some h⟩, l.locked cache val) := by
  refine Solo.single .go ?_
  refine (congrArg (go cache type ⟨true, init, some h⟩ l) hpc).trans ?_
  show (ClhtLpConc.go h l.tab l.tab.pc).map _ = _
  rw [hret]
  refine congrArg some (Prod.ext rfl ?_)
  show l.inTable cache (l.tab.call.returned l.tab (.val val)) = _
  unfold Local.inTable
  rw [hret, hput]
  rfl

/-! ## Counting up to a request -/

/-- The first table, with objects `1` to `n` for the addresses `8` to `8 * n` and `o` overflow
    buckets. -/
structure Filled (h : Clht) (n o : Nat) : Prop where
  idle : Idle h
  first : h.ht = 0
  numBuckets : h.cur.numBuckets = 256
  overflow : h.cur.overflow = o
  card : h.cur.content.card = n
  keys : ∀ (a : Nat) (x : Val), (a, x) ∈ h.cur.content → a ≤ 8 * n
  objs : h.objs.length = n

/-- The buckets have room for the entries. -/
theorem Filled.card_le {n o : Nat} (hf : Filled h n o) : n ≤ 3 * (256 + o) := by
  have hle := hf.idle.wf.card_content_le
  rwa [hf.card, hf.numBuckets, hf.overflow] at hle

/-- The thread is to ask for a resize, in the lock of the last address. -/
structure Asks (type : PutType) (n : Nat) (l : Local) : Prop where
  pc : l.pc = .table
  call : l.call = .lock (8 * n)
  tab : l.tab.pc = .statusTry true ⟨0, .val n⟩
  tabCall : l.tab.call = .putType (8 * n) type

/-- The thread is out, and its cache has no address beyond the last one. -/
structure Rests (n : Nat) (l : Local) : Prop where
  pc : l.pc = .out
  cached : l.cache.lock ≤ 8 * n

/-- A put of the next address. -/
theorem Filled.put {n o : Nat} (hf : Filled h n o) (type : PutType) (x : ClhtLpConc.Local)
    (hcall : x.call = .putType (8 * (n + 1)) type) :
    ∃ h' o', Filled h' (n + 1) o' ∧ (o' = o ∨ o' = o + 1) ∧
      ClhtLpConc.Goes (h, x.goto .readHt) (h', x.goto
        (if o' = o + 1 ∧ o' % 2 ^ 32 = 256 then .statusTry true ⟨0, .val (n + 1)⟩
          else .ret (.val (n + 1)))) := by
  have hkey : 8 * (n + 1) ≠ 0 := by omega
  have hnew : ∀ w, (8 * (n + 1), w) ∉ h.cur.content := by
    intro w hmem
    have := hf.keys _ _ hmem
    omega
  obtain ⟨T', e, hg, hgoes⟩ := ClhtLpConc.put_grown hf.idle hcall hkey hnew
  rw [hf.objs] at hg hgoes
  have hcur : ({ h.setTab h.ht T' with objs := h.objs ++ [type] } : Clht).cur = T' :=
    setTab_cur h T'
  have hover := hg.overflow
  rw [hf.overflow] at hover
  have hwf := hg.wf
  have hflag : (e = none ∧ T'.numExpands = T'.numExpandsThreshold) ↔
      T'.overflow = o + 1 ∧ T'.overflow % 2 ^ 32 = 256 := by
    rw [hwf.expands, hwf.thresholdEq, hg.numBuckets, hf.numBuckets]
    refine and_congr ?_ Iff.rfl
    rw [hover]
    cases e <;> simp
  simp only [hflag] at hgoes
  refine ⟨{ h.setTab h.ht T' with objs := h.objs ++ [type] }, T'.overflow,
    ⟨⟨?_, ?_, hf.idle.resizeLock, hf.idle.next⟩, hf.first, ?_, ?_, ?_, ?_, ?_⟩, ?_, hgoes⟩
  · rw [hcur]
    exact hwf
  · rw [hcur, hg.lock]
    exact hf.idle.free
  · rw [hcur, hg.numBuckets]
    exact hf.numBuckets
  · rw [hcur]
  · rw [hcur, hg.content, Multiset.card_cons, hf.card]
  · intro a x hmem
    rw [hcur, hg.content] at hmem
    obtain heq | hold := Multiset.mem_cons.mp hmem
    · exact (Prod.mk.inj heq).1.le
    · have := hf.keys a x hold
      omega
  · show (h.objs ++ [type]).length = _
    rw [List.length_append, hf.objs]
    rfl
  · split at hover
    · exact Or.inr hover
    · exact Or.inl hover

/-- A lock of the next address, from where it is in the table: it returns, or asks. -/
theorem Filled.lock {n o : Nat} (hf : Filled h n o) (type : PutType) (t : Tid) (init : Bool)
    (l : Local) :
    ∃ h' o' l', Filled h' (n + 1) o' ∧ (o' = o ∨ o' = o + 1) ∧
      Solo (prog true type) t (⟨true, init, some h⟩, l.locking type (8 * (n + 1)))
        (⟨true, init, some h'⟩, l') ∧
      if o' = o + 1 ∧ o' % 2 ^ 32 = 256
      then Asks type (n + 1) l' ∧ l'.lookups = l.lookups
      else Rests (n + 1) l' ∧ l'.lookups = (8 * (n + 1), n + 1) :: l.lookups := by
  obtain ⟨h', o', hf', ho', hgoes⟩ := hf.put type (l.locking type (8 * (n + 1))).tab rfl
  have hsolo : Solo (prog true type) t (⟨true, init, some h⟩, l.locking type (8 * (n + 1)))
      (⟨true, init, some h'⟩, { l.locking type (8 * (n + 1)) with tab := _ }) :=
    solo_table rfl hgoes
  by_cases hask : o' = o + 1 ∧ o' % 2 ^ 32 = 256
  · rw [if_pos hask] at hsolo
    refine ⟨h', o', _, hf', ho', hsolo, ?_⟩
    rw [if_pos hask]
    exact ⟨⟨rfl, rfl, rfl, rfl⟩, rfl⟩
  · rw [if_neg hask] at hsolo
    refine ⟨h', o', _, hf', ho', hsolo.trans (solo_locked rfl rfl rfl), ?_⟩
    rw [if_neg hask]
    exact ⟨⟨rfl, le_refl _⟩, rfl⟩

/-- **A thread locks one address after the other until it is to ask for a resize**, with `T`
    overflow buckets. -/
theorem Filled.asks {T : Nat} (hT : T % 2 ^ 32 = 256) {h : Clht} {l : Local} {n o : Nat}
    (hf : Filled h n o) (hrests : Rests n l) (ho : o < T)
    (hbetween : ∀ j, o < j → j < T → j % 2 ^ 32 ≠ 256) (type : PutType) (t : Tid) (init : Bool) :
    ∃ h' n' l', n ≤ n' ∧ Filled h' (n' + 1) T ∧
      Solo (prog true type) t (⟨true, init, some h⟩, l) (⟨true, init, some h'⟩, l') ∧
      Asks type (n' + 1) l' ∧ l.lookups ⊆ l'.lookups := by
  have haddr : 8 * (n + 1) ≠ 0 := by omega
  have hmiss : l.cache.lock ≠ 8 * (n + 1) :=
    (lt_of_le_of_lt hrests.cached (by omega : 8 * n < 8 * (n + 1))).ne
  have hlocking : Solo (prog true type) t (⟨true, init, some h⟩, l)
      (⟨true, init, some h⟩, l.locking type (8 * (n + 1))) := solo_locking hrests.pc haddr hmiss
  obtain ⟨h', o', l', hf', ho', hsolo, hl'⟩ := hf.lock type t init l
  by_cases hask : o' = o + 1 ∧ o' % 2 ^ 32 = 256
  · rw [if_pos hask] at hl'
    have hend : o' = T := by
      by_contra hne
      exact hbetween o' (by omega) (by omega) hask.2
    rw [hend] at hf'
    exact ⟨h', n, l', le_refl n, hf', hlocking.trans hsolo, hl'.1, hl'.2 ▸ List.Subset.refl _⟩
  · rw [if_neg hask] at hl'
    have hlt : o' < T := by
      by_contra hge
      have hend : o' = o + 1 ∧ o' = T := by omega
      exact hask ⟨hend.1, hend.2 ▸ hT⟩
    have hroom := hf'.card_le
    obtain ⟨h'', n'', l'', hle, hf'', hsolo', hasks, hsub⟩ := hf'.asks hT hl'.1 hlt
      (fun j hj => hbetween j (by omega)) type t init
    refine ⟨h'', n'', l'', by omega, hf'', (hlocking.trans hsolo).trans hsolo', hasks, ?_⟩
    rw [hl'.2] at hsub
    exact fun y hy => hsub (List.mem_cons_of_mem _ hy)
-- a put counts up, or fills one of the slots that are left
termination_by (T - o, 3 * (256 + o) - n)
decreasing_by
  rcases ho' with rfl | rfl
  · exact Prod.Lex.right _ (by omega)
  · exact Prod.Lex.left _ _ (by omega)

/-! ## A resize that comes too late -/

/-- The lock of `ht_status` is no matter. -/
theorem Filled.statusLock {n o : Nat} (hf : Filled h n o) (b : Bool) :
    Filled { h with statusLock := b } n o :=
  ⟨⟨hf.idle.wf, hf.idle.free, hf.idle.resizeLock, hf.idle.next⟩, hf.first, hf.numBuckets,
    hf.overflow, hf.card, hf.keys, hf.objs⟩

/-- `ht_status`, up to `resize_lock`. -/
theorem Filled.status {n o : Nat} (hf : Filled h n o) (hn : n ≤ 2 ^ 34) {x : ClhtLpConc.Local}
    {addr : Addr} (hcall : x.call = .putType addr type) (val : Val) :
    ∃ r by_, 0 < numBucketsNew 256 r by_ ∧
      ClhtLpConc.Goes (h, x.goto (.statusTry true ⟨0, .val val⟩))
        ({ h with statusLock := true }, x.goto (.resizeTry r by_ 0 ⟨1, .val val⟩)) := by
  have hsize : clhtLpSize h.cur ≤ 2 ^ 34 := by
    rw [clhtLpSize_eq, hf.card]
    exact hn
  obtain ⟨r, by_, hasks, hnew⟩ :=
    statusResize_of_put (n := 256) (expandsMax h.cur) (by omega) (by omega) hsize
  refine ⟨r, by_, hnew, ?_⟩
  have hstatus := ClhtLpConc.status_goes (h := h) (l := x) (r := true) (k := ⟨0, .val val⟩)
    (by simp)
  rw [hf.numBuckets, hasks, hcall] at hstatus
  refine hstatus.trans (.head (p := .resizeHt _ _ _) rfl ?_ (.refl _))
  show some (_, x.goto (.resizeTry r by_ h.ht _)) = _
  rw [hf.first]
  rfl

/-- The first table has been superseded, and all its buckets have been copied. -/
structure Superseded (h : Clht) (n : Nat) : Prop where
  resizeLock : h.resizeLock = false
  first : 0 < h.numTabs
  numBuckets : (h.tab 0).numBuckets = 256
  copied : ∀ b < 256, (h.tab 0).lock b = .resize
  objs : h.objs.length = n

/-- The resize that supersedes it. -/
theorem Filled.resize {n o : Nat} (hf : Filled h n o) {r : Bool} {by_ : Int}
    (hnew : 0 < numBucketsNew 256 r by_) (x : ClhtLpConc.Local) (k : ClhtLpConc.Cont) :
    ∃ h' p, Superseded h' n ∧
      ClhtLpConc.Goes (h, x.goto (.resizeTry r by_ 0 k)) (h', x.goto p) := by
  have hcur : h.tab 0 = h.cur := by
    rw [Clht.cur, hf.first]
  obtain ⟨htNew, hcreate⟩ : ∃ T, clhtLpHashtableCreate (numBucketsNew 256 r by_) = some T :=
    ⟨_, if_neg hnew.ne'⟩
  obtain ⟨hw, hp, hc0, -, -, -⟩ := clhtLpHashtableCreate_some hcreate
  have hw' : ({ htNew with version := h.cur.version + 1 } : Hashtable).Wf :=
    ⟨hw.pos, hw.hashed, hw.distinct, hw.whole, hw.expands, hw.thresholdEq⟩
  have hd : Distinct (htNew.content + SlotTable.content (bucketsVisited 256) h.cur.table) := by
    rw [hc0, zero_add]
    refine hf.idle.wf.distinct.of_le (content_mono _ ?_)
    rw [hf.numBuckets]
    decide
  obtain ⟨T', N', hcpy, -, -, -⟩ := copyBuckets_copied hw' hp hf.idle.free hd
  obtain ⟨hold, hlock⟩ := ClhtLpConc.copyBuckets_old hcpy
  have hnum : (h.tab 0).numBuckets = 256 := by rw [hcur, hf.numBuckets]
  have hpos : 0 < h.numTabs := hf.first ▸ hf.idle.next
  rw [← hcur, ← hnum] at hcpy
  rw [← hnum] at hcreate
  refine ⟨_, _, ⟨?_, ?_, ?_, ?_, ?_⟩,
    ClhtLpConc.resize_goes hf.idle.resizeLock hpos hcreate hcpy⟩
  · rfl
  · exact Nat.succ_pos _
  · rw [ClhtLpConc.resized_tab hpos]
    exact (congrArg Hashtable.numBuckets hold).trans hf.numBuckets
  · intro b hb
    rw [ClhtLpConc.resized_tab hpos]
    show T'.lock b = .resize
    rw [hlock]
    exact if_pos hb
  · exact hf.objs

/-- **The resize of the superseded table** publishes an empty one. -/
theorem Superseded.resize {n : Nat} (hs : Superseded h n) {r : Bool} {by_ : Int}
    (hnew : 0 < numBucketsNew 256 r by_) (x : ClhtLpConc.Local) (val : Val) :
    ∃ h', Idle h' ∧ (∀ b, h'.cur.table b = emptyBucket) ∧ h'.objs.length = n ∧
      ClhtLpConc.Goes (h, x.goto (.resizeTry r by_ 0 ⟨1, .val val⟩))
        (h', x.goto (.ret (.val val))) := by
  obtain ⟨htNew, hcreate, htable⟩ : ∃ T, clhtLpHashtableCreate (numBucketsNew 256 r by_) = some T ∧
      T.table = fun _ => emptyBucket := ⟨_, if_neg hnew.ne', rfl⟩
  have hcpy := ClhtLpConc.copyBuckets_resized (n := 256)
    { htNew with version := (h.tab 0).version + 1 } hs.copied
  rw [← hs.numBuckets] at hcreate
  have hgoes := ClhtLpConc.resize_goes (h := h) (l := x) (k := ⟨1, .val val⟩) hs.resizeLock
    hs.first hcreate (by rw [hs.numBuckets]; exact hcpy)
  obtain ⟨hw, -, -, hover, -, hfree⟩ := clhtLpHashtableCreate_some hcreate
  have hnot : ¬ htNew.numExpandsThreshold ≤ htNew.numExpands := by
    rw [hw.expands, hw.thresholdEq, hover]
    have := threshold_pos htNew.numBuckets
    omega
  rw [if_neg hnot] at hgoes
  obtain ⟨h', hh'⟩ : ∃ h', h' = ClhtLpConc.resized h 0 (numBucketsNew (h.tab 0).numBuckets r by_)
    (h.tab 0) { htNew with version := (h.tab 0).version + 1 } := ⟨_, rfl⟩
  rw [← hh'] at hgoes
  have hcur := ClhtLpConc.resized_cur h 0 (numBucketsNew (h.tab 0).numBuckets r by_)
    (h.tab 0) { htNew with version := (h.tab 0).version + 1 }
  rw [← hh'] at hcur
  refine ⟨{ h' with statusLock := false }, ⟨?_, ?_, ?_, ?_⟩, ?_, ?_,
    hgoes.trans (.head (p := .statusRls _) rfl rfl (.refl _))⟩
  · show h'.cur.Wf
    rw [hcur]
    exact ⟨hw.pos, hw.hashed, hw.distinct, hw.whole, hw.expands, hw.thresholdEq⟩
  · show ∀ b, h'.cur.lock b = .free
    rw [hcur]
    exact hfree
  · rw [hh']
    rfl
  · rw [hh']
    exact Nat.lt_succ_self _
  · show ∀ b, h'.cur.table b = emptyBucket
    rw [hcur]
    exact fun b => congrFun htable b
  · rw [hh']
    exact hs.objs

/-- A put into an empty table. -/
theorem put_empty (hi : Idle h) (hempty : ∀ b, h.cur.table b = emptyBucket) {addr : Addr}
    (haddr : addr ≠ 0) {x : ClhtLpConc.Local} (hcall : x.call = .putType addr type) :
    ∃ h', ClhtLpConc.Goes (h, x.goto .readHt) (h', x.goto (.ret (.val (h.objs.length + 1)))) := by
  have hseek : seek addr (h.cur.table (clhtLpHash h.cur addr)) 0 none = .absent (some 0) := by
    rw [hempty]
    simp [seek, emptyBucket, entriesPerBucket, List.replicate, haddr.symm]
  exact ⟨_, ClhtLpConc.put_goes hi hcall hseek⟩

/-- The thread is to take `resize_lock`, with the first table as the one that it will copy. -/
structure Parked (type : PutType) (n : Nat) (l : Local) : Prop where
  pc : l.pc = .table
  tab : ∃ r by_, 0 < numBucketsNew 256 r by_ ∧ l.tab.pc = .resizeTry r by_ 0 ⟨1, .val n⟩
  tabCall : l.tab.call = .putType (8 * n) type
  call : l.call = .lock (8 * n)

/-- **A thread locks one address after the other until it is about to resize**, with `T` overflow
    buckets. -/
theorem Filled.parks {T : Nat} (hT : T % 2 ^ 32 = 256) (hT' : T ≤ 2 ^ 32 + 256) {n o : Nat}
    (hf : Filled h n o) (hrests : Rests n l) (ho : o < T)
    (hbetween : ∀ j, o < j → j < T → j % 2 ^ 32 ≠ 256) (type : PutType) (t : Tid) (init : Bool) :
    ∃ h' n' l', n ≤ n' ∧ Filled h' (n' + 1) T ∧
      Solo (prog true type) t (⟨true, init, some h⟩, l) (⟨true, init, some h'⟩, l') ∧
      Parked type (n' + 1) l' ∧ l.lookups ⊆ l'.lookups := by
  obtain ⟨h', n', l', hle, hf', hsolo, hasks, hsub⟩ := hf.asks hT hrests ho hbetween type t init
  have hcard := hf'.card_le
  obtain ⟨r, by_, hnew, hgoes⟩ := hf'.status (by omega) hasks.tabCall (n' + 1)
  rw [← hasks.tab] at hgoes
  exact ⟨_, n', _, hle, hf'.statusLock true, hsolo.trans (solo_table hasks.pc hgoes),
    ⟨hasks.pc, ⟨r, by_, hnew, rfl⟩, hasks.tabCall, hasks.call⟩, hsub⟩

/-- The thread goes on: it publishes an empty table, and its lock returns. -/
theorem Superseded.returns {n m : Nat} (hs : Superseded h m) (hp : Parked type n l) (t : Tid)
    (init : Bool) : ∃ h' l', Idle h' ∧ (∀ b, h'.cur.table b = emptyBucket) ∧
      h'.objs.length = m ∧
      Solo (prog true type) t (⟨true, init, some h⟩, l) (⟨true, init, some h'⟩, l') ∧
      l'.pc = .out ∧ l'.cache.lock = 8 * n ∧ l.lookups ⊆ l'.lookups := by
  obtain ⟨r, by_, hnew, htab⟩ := hp.tab
  obtain ⟨h', hi, hempty, hobjs, hgoes⟩ := hs.resize hnew l.tab n
  rw [← htab] at hgoes
  generalize hl' : { l with tab := l.tab.goto (.ret (.val n)) } = l'
  have hresizes : Solo (prog true type) t (⟨true, init, some h⟩, l)
      (⟨true, init, some h'⟩, l') := by
    rw [← hl']
    exact solo_table hp.pc hgoes
  have hthere : l'.pc = .table ∧ l'.call = .lock (8 * n) ∧ l'.tab.pc = .ret (.val n) ∧
      l'.tab.call = .putType (8 * n) type ∧ l'.lookups = l.lookups := by
    rw [← hl']
    exact ⟨hp.pc, hp.call, rfl, hp.tabCall, rfl⟩
  obtain ⟨hpc, hcall, hret, htabCall, hkept⟩ := hthere
  have hreturns : Solo (prog true type) t (⟨true, init, some h'⟩, l')
      (⟨true, init, some h'⟩, l'.locked true n) := solo_locked hpc hret htabCall
  refine ⟨h', l'.locked true n, hi, hempty, hobjs, hresizes.trans hreturns, rfl, ?_, ?_⟩
  · unfold Local.locked Local.cacheSet
    dsimp only
    rw [hcall]
    rfl
  · have hlookups : (l'.locked true n).lookups = (8 * n, n) :: l'.lookups := by
      unfold Local.locked Local.cacheSet
      dsimp only
      rw [hcall]
      rfl
    rw [← hkept, hlookups]
    exact List.subset_cons_self ..

/-- A lock of an address that is not cached, with an empty table. -/
theorem solo_empty (hi : Idle h) (hempty : ∀ b, h.cur.table b = emptyBucket) (hout : l.pc = .out)
    {addr : Addr} (haddr : addr ≠ 0) (hmiss : l.cache.lock ≠ addr) (type : PutType) (t : Tid)
    (init : Bool) : ∃ h' l',
      Solo (prog true type) t (⟨true, init, some h⟩, l) (⟨true, init, some h'⟩, l') ∧
      l'.lookups = (addr, h.objs.length + 1) :: l.lookups := by
  obtain ⟨h', hgoes⟩ := put_empty hi hempty haddr (x := (l.locking type addr).tab) rfl
  have hputs : Solo (prog true type) t (⟨true, init, some h⟩, l.locking type addr)
      (⟨true, init, some h'⟩, { l.locking type addr with tab := _ }) := solo_table rfl hgoes
  exact ⟨h', _, (solo_locking hout haddr hmiss).trans (hputs.trans (solo_locked rfl rfl rfl)), rfl⟩

end Alone

/-! ## A run that loses an address -/

/-- The first lock initialises GLS. -/
theorem solo_init (type : PutType) (t : Bool) : ∃ h, Filled h 0 0 ∧
    Solo (prog true type) t (start.sh, start.loc t)
      (⟨true, true, some h⟩, (start.loc t).locking type 8) := by
  obtain ⟨T, hT⟩ : ∃ T, clhtLpHashtableCreate 256 = some T := ⟨_, rfl⟩
  obtain ⟨hw, -, hc, hover, hnum, hfree⟩ := clhtLpHashtableCreate_some hT
  refine ⟨⟨fun _ => T, 1, 0, false, false, [], []⟩,
    ⟨⟨hw, hfree, rfl, Nat.one_pos⟩, rfl, hnum, hover, ?_, ?_, rfl⟩, ?_⟩
  · show T.content.card = 0
    rw [hc]
    rfl
  · intro a x hmem
    have hmem' : (a, x) ∈ T.content := hmem
    rw [hc] at hmem'
    exact absurd hmem' (Multiset.notMem_zero _)
  · obtain rfl := Option.some.inj hT
    -- the call, `GLS_INIT_ONCE` with its five steps, and the load of `gls_hashtable`
    exact (Solo.single (.start (.lock 8)) rfl).trans ((Solo.single .go rfl).trans
      ((Solo.single .go rfl).trans ((Solo.single .go rfl).trans ((Solo.single .go rfl).trans
        ((Solo.single .go rfl).trans (Solo.single .go rfl))))))

/-- One thread has got object 1 for the address 8, and waits before `resize_lock`. -/
theorem reach_parked : ∃ (c : Conf Bool Shared Local) (h : Clht) (n : Nat),
    Reach (prog true .adaptive) always Init c ∧ c.sh = ⟨true, true, some h⟩ ∧
      Filled h (n + 2) 256 ∧ Parked .adaptive (n + 2) (c.loc true) ∧
      (8, 1) ∈ (c.loc true).lookups ∧ c.loc false = start.loc false := by
  obtain ⟨h₀, hf₀, hinit⟩ := solo_init .adaptive true
  obtain ⟨h₁, o₁, l₁, hf₁, ho₁, hfirst, hl₁⟩ := hf₀.lock .adaptive true true (start.loc true)
  rw [if_neg (by omega)] at hl₁
  obtain ⟨hrests, hlookups⟩ := hl₁
  obtain ⟨h₂, n, l₂, hn, hf₂, hfills, hparked, hsub⟩ := hf₁.parks (T := 256) (by decide) (by omega)
    hrests (by omega) (by omega) .adaptive true true
  obtain ⟨m, rfl⟩ : ∃ m, n = m + 1 := ⟨n - 1, by omega⟩
  have hstart : Reach (prog true .adaptive) always Init
      (start.put true (start.sh, start.loc true)) := by
    rw [put_self]
    exact .start start_init
  refine ⟨start.put true (⟨true, true, some h₂⟩, l₂), h₂, m,
    hstart.solo (hinit.trans (hfirst.trans hfills)), rfl, hf₂, ?_, ?_, ?_⟩
  · rw [put_loc_self]
    exact hparked
  · rw [put_loc_self]
    exact hsub (hlookups ▸ List.mem_cons_self ..)
  · exact put_loc_ne _ _ (by decide)

/-- The counter of the first table has come round for the other thread, which has replaced the
    table. -/
theorem reach_superseded : ∃ (c : Conf Bool Shared Local) (h : Clht) (n m : Nat),
    Reach (prog true .adaptive) always Init c ∧ c.sh = ⟨true, true, some h⟩ ∧
      Superseded h (m + 1) ∧ Parked .adaptive (n + 2) (c.loc true) ∧
      (8, 1) ∈ (c.loc true).lookups := by
  obtain ⟨c, h, n, hc, hsh, hf, hparked, hmem, hloc⟩ := reach_parked
  have hrests : Rests (n + 2) (c.loc false) := by
    rw [hloc]
    exact ⟨rfl, Nat.zero_le _⟩
  obtain ⟨h', m, l', -, hf', hfills, hparked', -⟩ := hf.parks (T := 2 ^ 32 + 256) (by decide)
    (le_refl _) hrests (by omega) (by omega) .adaptive false true
  obtain ⟨r, by_, hnew, htab⟩ := hparked'.tab
  obtain ⟨h'', p, hs, hgoes⟩ := hf'.resize hnew l'.tab ⟨1, .val (m + 1)⟩
  rw [← htab] at hgoes
  have hself : Reach (prog true .adaptive) always Init
      (c.put false (⟨true, true, some h⟩, c.loc false)) := by
    rw [← hsh, put_self]
    exact hc
  refine ⟨_, h'', n, m, hself.solo (hfills.trans (solo_table hparked'.pc hgoes)), rfl, hs, ?_, ?_⟩
  · rw [put_loc_ne _ _ (by decide)]
    exact hparked
  · rw [put_loc_ne _ _ (by decide)]
    exact hmem

/-- **A counter that comes round loses all addresses**: the first thread now resizes the table
    that has been superseded, finds all its buckets copied and publishes an empty table; the
    next lock of the address 8 gets another object. -/
theorem gls_oneObject_wraps : ∃ c : Conf Bool Shared Local,
    Reach (prog true .adaptive) always Init c ∧ ¬ OneObject c := by
  obtain ⟨c, h, n, m, hc, hsh, hs, hparked, hmem⟩ := reach_superseded
  obtain ⟨h₁, l₁, hi, hempty, hobjs, hreturns, hout, hcache, hsub⟩ := hs.returns hparked true true
  have hmiss : l₁.cache.lock ≠ 8 := by
    have hne : 8 * (n + 2) ≠ 8 := by omega
    rw [hcache]
    exact hne
  obtain ⟨h₂, l₂, hlocks, hlookups⟩ :=
    solo_empty hi hempty hout (by decide) hmiss .adaptive true true
  have hself : Reach (prog true .adaptive) always Init
      (c.put true (⟨true, true, some h⟩, c.loc true)) := by
    rw [← hsh, put_self]
    exact hc
  refine ⟨_, hself.solo (hreturns.trans hlocks), fun hone => ?_⟩
  have hboth : (8, 1) ∈ l₂.lookups ∧ (8, h₁.objs.length + 1) ∈ l₂.lookups := by
    rw [hlookups]
    exact ⟨List.mem_cons_of_mem _ (hsub hmem), List.mem_cons_self ..⟩
  have hsame : 1 = h₁.objs.length + 1 :=
    (hone.object true true 8 8 1 _ (by rw [put_loc_self]; exact hboth.1)
      (by rw [put_loc_self]; exact hboth.2)).mpr rfl
  omega

end GlsObjects
