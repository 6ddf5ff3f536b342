import Lockin.ClhtLpMap

/-! # The pthread interface over GLS

    `gls_in.h` and the functions of `gls.c` under it, for any choice of
    `GLS_LOCK_IN_TYPE_DEFAULT`: the calls of a program, one after the other, and which
    lock function each of them applies to which object.

    An object is created by the first put of its address: `clht_lp_put_type` creates the
    kind it is asked for, `clht_lp_put_in` a word in the table, and `clht_lp_put_init`
    always a `glk_t`.  The lock functions then cast what they find.  The history `log`
    records every lock function that is applied, and what kind of object it found; what the
    functions do to an object after the first of them is not part of the model.

    The mode is the one without debugging, `cache` is `GLS_LOCK_CACHE`. -/

namespace GlsApi

open ClhtLp SlotTable

/-- `GLS_LOCK_IN_TYPE_DEFAULT`. -/
inductive Flavour where
  | glk
  | ttas
  | mcs
  | mutex
  | ticket
  | tas
  | tasIn
  deriving DecidableEq

/-- The type of a `glk_t`. -/
inductive GlkType where
  | ticketLock
  | mcsLock
  | mutexLock

/-- Lock objects, as far as their `trylock` functions read them. -/
inductive LockObj where
  | glk (lockType : GlkType) (head tail : BitVec 32) (next : Bool) (u : Nat)
  | ttas (lock : Nat)
  | mcs (next : Bool)
  | mutex (u : Nat)
  | ticket (head tail : BitVec 32)
  | tas (lock : Nat)
  | word (val : Nat)

/-- The objects as their init functions leave them; `mp` is `gls_is_multiprogramming()`. -/
def initLock (mp : Bool) : Flavour → LockObj
  | .glk => .glk (if mp then .mutexLock else .ticketLock) 1 0 false 0
  | .ttas => .ttas 0
  | .mcs => .mcs false
  | .mutex => .mutex 0
  | .ticket => .ticket 1 0
  | .tas => .tas 0
  | .tasIn => .word 0

/-- The `trylock` functions, run alone: the object afterwards if they take the lock.  An
    object of another type is not cast. -/
def trylock : Flavour → LockObj → Option LockObj
  | .glk, .glk .ticketLock head tail next u =>
      if head - tail = 1 then some (.glk .ticketLock head (tail + 1) next u) else none
  | .glk, .glk .mcsLock head tail next u =>
      if next then none else some (.glk .mcsLock head tail true u)
  | .glk, .glk .mutexLock head tail next u =>
      if u % 256 = 0 then some (.glk .mutexLock head tail next (u + 1)) else none
  | .ttas, .ttas lock => if lock = 0 then some (.ttas 1) else none
  | .mcs, .mcs next => if next then none else some (.mcs true)
  | .mutex, .mutex u => if u % 256 = 0 then some (.mutex (u + 1)) else none
  | .ticket, .ticket head tail =>
      if head - tail = 1 then some (.ticket head (tail + 1)) else none
  | .tas, .tas lock => if lock = 0 then some (.tas 1) else none
  | .tasIn, .word val => if val = 0 then some (.word 1) else none
  | _, _ => none

/-- **Objects are created free.** -/
theorem trylock_initLock (mp : Bool) (F : Flavour) : (trylock F (initLock mp F)).isSome := by
  cases F <;> cases mp <;> rfl

/-- What a lookup gives: a pointer to an object, or the word of an address in the table. -/
inductive Found where
  | null
  | obj (v : Val)
  | word (a : Addr)
  deriving DecidableEq

/-- A lock function was applied to what belongs to `addr`: the flavour of the function, the
    flavour the object was created with, and whether no function was applied before. -/
structure Op where
  addr : Addr
  fn : Flavour
  on : Option Flavour
  first : Bool

/-- The calls of a program; `t` is the thread that makes the call. -/
inductive Call (Tid Cond : Type) where
  | init (a : Addr)
  | lock (t : Tid) (a : Addr)
  | trylock (t : Tid) (a : Addr)
  | unlock (t : Tid) (a : Addr)
  | condWait (t : Tid) (c : Cond) (a : Addr)
  | condTimedwait (t : Tid) (c : Cond) (a : Addr)
  | condInit (c : Cond)
  | condSignal (c : Cond)
  | condBroadcast (c : Cond)

/-- The state of GLS and of the condition variables. -/
structure State (Tid Cond : Type) where
  clht : Clht
  /-- `__thread_lock_cache`. -/
  cache : Tid → Option (Addr × Found)
  /-- `c->l`. -/
  condL : Cond → Option Addr
  /-- History: the addresses whose word in the table was created by `clht_lp_put_in`. -/
  words : Addr → Bool
  /-- History: the lock functions applied so far. -/
  log : List Op

/-- What `clht_lp_put_type` creates for a flavour; no flavour but `tasIn` lacks a type. -/
def Flavour.putType : Flavour → Option PutType
  | .glk => some .adaptive
  | .ttas => some .ttas
  | .mcs => some .mcs
  | .mutex => some .mutex
  | .ticket => some .ticket
  | .tas => some .tas
  | .tasIn => none

/-- The flavour of an object that was created with a type. -/
def flavour : PutType → Flavour
  | .adaptive => .glk
  | .ttas => .ttas
  | .ticket => .ticket
  | .mcs => .mcs
  | .mutex => .mutex
  | .tas => .tas

variable {Tid Cond : Type}

/-- The flavour with which what was found was created. -/
def State.on (s : State Tid Cond) : Found → Option Flavour
  | .null => none
  | .obj v => if v = 0 then none else (s.clht.objs[v - 1]?).map flavour
  | .word a => if s.words a then some .tasIn else none

/-- Apply a lock function of the flavour `fn`. -/
def State.apply (s : State Tid Cond) (a : Addr) (fn : Flavour) (f : Found) : State Tid Cond :=
  { s with log := s.log ++ [⟨a, fn, s.on f, s.log.all (·.addr ≠ a)⟩] }

section

variable [DecidableEq Tid] (cache : Bool) (fuel : Nat)

/-- `GLS_LOCK_CACHE_GET`. -/
def lockCacheGet (s : State Tid Cond) (t : Tid) (a : Addr) : Option Found :=
  match s.cache t with
  | some (lock, addr) => if cache ∧ lock = a then some addr else none
  | none => none

/-- `gls_lock_cache_set`. -/
def lockCacheSet (s : State Tid Cond) (t : Tid) (a : Addr) (f : Found) : State Tid Cond :=
  if cache then { s with cache := Function.update s.cache t (some (a, f)) } else s

/-- `gls_lock_get_put`. -/
def glsLockGetPut (s : State Tid Cond) (t : Tid) (a : Addr) (type : PutType) :
    Option (State Tid Cond × Found) :=
  match lockCacheGet cache s t a with
  | some f => some (s, f)
  | none =>
      match clhtLpPutType fuel s.clht a type with
      | (h, some v) => some (lockCacheSet cache { s with clht := h } t a (.obj v), .obj v)
      | (_, none) => none

/-- `gls_lock_get_put_in`. -/
def glsLockGetPutIn (s : State Tid Cond) (t : Tid) (a : Addr) :
    Option (State Tid Cond × Found) :=
  match clhtLpPutIn fuel s.clht a with
  | (h, some _) =>
      let words := if clhtLpGetIn s.clht.cur a = none then Function.update s.words a true
        else s.words
      some (lockCacheSet cache { s with clht := h, words := words } t a (.word a), .word a)
  | (_, none) => none

/-- `gls_lock_get_get`. -/
def glsLockGetGet (s : State Tid Cond) (t : Tid) (a : Addr) : Found :=
  match lockCacheGet cache s t a with
  | some f => f
  | none => if clhtLpGet s.clht.cur a = 0 then .null else .obj (clhtLpGet s.clht.cur a)

/-- `gls_lock_get_get_in`. -/
def glsLockGetGetIn (s : State Tid Cond) (a : Addr) : Found :=
  if clhtLpGetIn s.clht.cur a = none then .null else .word a

/-- The lookup of a lock function: the object is created if need be. -/
def lockAddr (F : Flavour) (s : State Tid Cond) (t : Tid) (a : Addr) :
    Option (State Tid Cond × Found) :=
  match F.putType with
  | some type => glsLockGetPut cache fuel s t a type
  | none => glsLockGetPutIn cache fuel s t a

/-- `gls_lock`, `gls_lock_ttas` and so on, and the `gls_trylock` functions: look the object
    up or create it, and apply the function of the same flavour. -/
def glsLock (F : Flavour) (s : State Tid Cond) (t : Tid) (a : Addr) : Option (State Tid Cond) :=
  (lockAddr cache fuel F s t a).map fun r => r.1.apply a F r.2

/-- The lookup of an unlock function. -/
def unlockAddr (F : Flavour) (s : State Tid Cond) (t : Tid) (a : Addr) : Found :=
  match F.putType with
  | some _ => glsLockGetGet cache s t a
  | none => glsLockGetGetIn s a

/-- `gls_unlock`, `gls_unlock_ttas` and so on. -/
def glsUnlock (F : Flavour) (s : State Tid Cond) (t : Tid) (a : Addr) : State Tid Cond :=
  s.apply a F (unlockAddr cache F s t a)

/-- `gls_lock_init`, of every flavour. -/
def glsLockInit (s : State Tid Cond) (a : Addr) : Option (State Tid Cond) :=
  match clhtLpPutInit fuel s.clht a with
  | (h, some _) => some { s with clht := h }
  | (_, none) => none

variable [DecidableEq Cond]

/-- `gls_cond_wait` and `gls_cond_timedwait`, around their sleep. -/
def glsCondWait (s : State Tid Cond) (t : Tid) (c : Cond) (a : Addr) : Option (State Tid Cond) :=
  if s.condL c = none ∨ s.condL c = some a then
    glsLock cache fuel .glk
      (glsUnlock cache .glk { s with condL := Function.update s.condL c (some a) } t a) t a
  else some s

/-- The interface, compiled for the flavour `F`. -/
def api (F : Flavour) (s : State Tid Cond) : Call Tid Cond → Option (State Tid Cond)
  | .init a => glsLockInit fuel s a
  | .lock t a => glsLock cache fuel F s t a
  | .trylock t a => glsLock cache fuel F s t a
  | .unlock t a => some (glsUnlock cache F s t a)
  | .condWait t c a => glsCondWait cache fuel s t c a
  | .condTimedwait t c a => glsCondWait cache fuel s t c a
  | .condInit c => some { s with condL := Function.update s.condL c none }
  | .condSignal _ => some s
  | .condBroadcast _ => some s

end

/-- The address has been initialised. -/
def Inits (cs : List (Call Tid Cond)) (a : Addr) : Prop := .init a ∈ cs

/-- The address has been locked or tried. -/
def Locks (cs : List (Call Tid Cond)) (a : Addr) : Prop := ∃ t, .lock t a ∈ cs ∨ .trylock t a ∈ cs

/-- There has been a wait. -/
def Waits (cs : List (Call Tid Cond)) : Prop :=
  ∃ t c a, .condWait t c a ∈ cs ∨ .condTimedwait t c a ∈ cs

/-- The calls a program may make after `cs`: an address is not `NULL`, it is initialised at
    most once and before it is used, and it is locked or tried before it is unlocked or
    waited with. -/
def Allowed (cs : List (Call Tid Cond)) : Call Tid Cond → Prop
  | .init a => a ≠ 0 ∧ ¬ Inits cs a ∧ ¬ Locks cs a
  | .lock _ a => a ≠ 0
  | .trylock _ a => a ≠ 0
  | .unlock _ a => Locks cs a
  | .condWait _ _ a => Locks cs a
  | .condTimedwait _ _ a => Locks cs a
  | .condInit _ => True
  | .condSignal _ => True
  | .condBroadcast _ => True

/-- A new table, and no calls yet. -/
def start (h : Clht) : State Tid Cond := ⟨h, fun _ => none, fun _ => none, fun _ => false, []⟩

/-- The calls that a program has made, and what they leave. -/
inductive Runs [DecidableEq Tid] [DecidableEq Cond] (cache : Bool) (fuel numBuckets : Nat)
    (F : Flavour) : List (Call Tid Cond) → State Tid Cond → Prop where
  | create {h : Clht} : clhtLpCreate numBuckets = some h →
      Runs cache fuel numBuckets F [] (start h)
  | snoc {cs : List (Call Tid Cond)} {s s' : State Tid Cond} {c : Call Tid Cond} :
      Runs cache fuel numBuckets F cs s → Allowed cs c → api cache fuel F s c = some s' →
      Runs cache fuel numBuckets F (cs ++ [c]) s'

/-- The function is of the flavour `F` and so is the object, and the first function finds
    the object free. -/
def Good (F : Flavour) (op : Op) : Prop :=
  op.fn = F ∧ op.on = some F ∧
    ∀ mp G, op.first → op.on = some G → (trylock op.fn (initLock mp G)).isSome

/-! ## What the table holds -/

/-- The object that a flavour puts is of that flavour. -/
theorem flavour_putType {F : Flavour} {type : PutType} (h : F.putType = some type) :
    flavour type = F := by
  cases F <;> cases h <;> rfl

/-- The address is bound to what a put of the flavour `F` creates. -/
def Made (F : Flavour) (s : State Tid Cond) (d : Dict) (a : Addr) : Prop :=
  (∀ type, F.putType = some type → ∃ v, d.map a = some v ∧ d.obj v = some type) ∧
    (F.putType = none → d.map a ≠ none ∧ s.words a = true)

/-- A lookup of the flavour `F` gives what the address is bound to. -/
def Finds (F : Flavour) (d : Dict) (a : Addr) (f : Found) : Prop :=
  (F.putType ≠ none → ∃ v, d.map a = some v ∧ f = .obj v) ∧ (F.putType = none → f = .word a)

/-- The table after calls that initialised the addresses `I` and locked or tried the
    addresses `L`: what has been locked is of the flavour `F`. -/
structure Tabled (F : Flavour) (I L : Addr → Prop) (s : State Tid Cond) (d : Dict) : Prop where
  rep : Rep s.clht d
  locked : ∀ a, L a → Made F s d a
  inited : ∀ a, I a → ¬ L a →
    ∃ v, d.map a = some v ∧ d.obj v = some .adaptive ∧ s.words a = false
  only : ∀ a, d.map a ≠ none → I a ∨ L a
  words : ∀ a, s.words a = true → d.map a ≠ none
  cache : ∀ t a f, s.cache t = some (a, f) → L a ∧ Finds F d a f

namespace Tabled

variable {F : Flavour} {I L : Addr → Prop} {s : State Tid Cond} {d : Dict} {a : Addr}

/-- A lock function works on the object, with its flavour. -/
theorem on_obj (h : Tabled F I L s d) {v : Val} {type : PutType} (hv : d.obj v = some type) :
    s.on (.obj v) = some (flavour type) := by
  rw [h.rep.obj] at hv
  split at hv
  · cases hv
  · rename_i hne
    rw [State.on, if_neg hne, hv]
    rfl

/-- What has been made for `F` is found to be of the flavour `F`. -/
theorem on_eq (h : Tabled F I L s d) {f : Found} (hmade : Made F s d a) (hf : Finds F d a f) :
    s.on f = some F := by
  cases hF : F.putType with
  | none =>
      have hin : F = .tasIn := by cases F <;> first | rfl | cases hF
      rw [hf.2 hF, State.on, if_pos (hmade.2 hF).2, hin]
  | some type =>
      obtain ⟨v, hv, hobj⟩ := hmade.1 type hF
      obtain ⟨v', hv', rfl⟩ := hf.1 (by rw [hF]; exact Option.some_ne_none _)
      obtain rfl : v = v' := Option.some.inj (hv.symm.trans hv')
      rw [h.on_obj hobj, flavour_putType hF]

/-- An address that is bound, and was not initialised for another flavour. -/
theorem made_of_bound (h : Tabled F I L s d) (hok : I a → F = .glk ∨ L a)
    (hbound : d.map a ≠ none) : Made F s d a := by
  by_cases hL : L a
  · exact h.locked a hL
  · have hI := (h.only a hbound).resolve_right hL
    obtain rfl := (hok hI).resolve_right hL
    obtain ⟨v, hv, hobj, -⟩ := h.inited a hI hL
    refine ⟨fun type htype => ⟨v, hv, ?_⟩, fun hnone => nomatch hnone⟩
    cases htype
    exact hobj

/-- What has been locked is bound, and so it is not `NULL`. -/
theorem ne_zero (h : Tabled F I L s d) (hL : L a) : a ≠ 0 := by
  obtain ⟨hptr, hin⟩ := h.locked a hL
  obtain ⟨v, hv⟩ : ∃ v, d.map a = some v := by
    cases hF : F.putType with
    | none => exact Option.ne_none_iff_exists'.mp (hin hF).1
    | some type => exact (hptr type hF).imp fun _ => And.left
  obtain ⟨b, -, hmem⟩ := mem_content.mp ((h.rep.map a v).mp hv)
  exact (mem_entries.mp hmem).1

/-- Another address that is locked or tried, once it is bound right. -/
theorem lock (h : Tabled F I L s d) (hmade : Made F s d a) :
    Tabled F I (fun b => b = a ∨ L b) s d where
  rep := h.rep
  locked := by
    rintro b (rfl | hb)
    · exact hmade
    · exact h.locked b hb
  inited b hI hb := h.inited b hI fun hL => hb (Or.inr hL)
  only b hb := (h.only b hb).imp_right Or.inr
  words := h.words
  cache t b f hb := (h.cache t b f hb).imp_left Or.inr

/-- What a thread caches is in the table. -/
theorem setCache (h : Tabled F I L s d) (cache : Bool) [DecidableEq Tid] {t : Tid} {f : Found}
    (hL : L a) (hf : Finds F d a f) : Tabled F I L (lockCacheSet cache s t a f) d := by
  unfold lockCacheSet
  split
  · refine ⟨h.rep, h.locked, h.inited, h.only, h.words, fun u b g hb => ?_⟩
    rw [show ({ s with cache := Function.update s.cache t (some (a, f)) } : State Tid Cond).cache
      = Function.update s.cache t (some (a, f)) from rfl, Function.update_apply] at hb
    split at hb
    · obtain ⟨rfl, rfl⟩ := Prod.mk.inj (Option.some.inj hb)
      exact ⟨hL, hf⟩
    · exact h.cache u b g hb
  · exact h

/-- The table is replaced by one with the same entries. -/
theorem setClht (h : Tabled F I L s d) {h' : Clht} (hrep : Rep h' d) :
    Tabled F I L { s with clht := h' } d :=
  ⟨hrep, h.locked, h.inited, h.only, h.words, h.cache⟩

/-- A put of the flavour `F` makes a new binding. -/
theorem bind (h : Tabled F I L s d) {h' : Clht} {d' : Dict} (words' : Addr → Bool)
    (hrep : Rep h' d') (hnew : d.map a = none)
    (hmap : ∀ b, b ≠ a → d'.map b = d.map b)
    (hobj : ∀ v type, d.obj v = some type → d'.obj v = some type)
    (hwords : ∀ b, b ≠ a → words' b = s.words b)
    (hmade : Made F { s with clht := h', words := words' } d' a)
    (hbound : d'.map a ≠ none) :
    Tabled F I (fun b => b = a ∨ L b) { s with clht := h', words := words' } d' := by
  have hne : ∀ b, L b → b ≠ a := by
    rintro b hb rfl
    cases hF : F.putType with
    | none => exact ((h.locked b hb).2 hF).1 hnew
    | some type =>
        obtain ⟨v, hv, -⟩ := (h.locked b hb).1 type hF
        rw [hnew] at hv
        cases hv
  have hmade' : ∀ b, L b → Made F { s with clht := h', words := words' } d' b := by
    intro b hb
    obtain ⟨hptr, hin⟩ := h.locked b hb
    refine ⟨fun type htype => ?_, fun hnone => ?_⟩
    · obtain ⟨v, hv, hv'⟩ := hptr type htype
      exact ⟨v, (hmap b (hne b hb)).trans hv, hobj v type hv'⟩
    · obtain ⟨hb', hw⟩ := hin hnone
      exact ⟨by rwa [hmap b (hne b hb)], (hwords b (hne b hb)).trans hw⟩
  constructor
  · exact hrep
  · rintro b (rfl | hb)
    · exact hmade
    · exact hmade' b hb
  · intro b hI hb
    obtain ⟨hba, hL⟩ := not_or.mp hb
    obtain ⟨v, hv, hv', hw⟩ := h.inited b hI hL
    exact ⟨v, (hmap b hba).trans hv, hobj v _ hv', (hwords b hba).trans hw⟩
  · intro b hb
    by_cases hba : b = a
    · exact Or.inr (Or.inl hba)
    · rw [hmap b hba] at hb
      exact (h.only b hb).imp_right Or.inr
  · intro b hb
    by_cases hba : b = a
    · rwa [hba]
    · rw [hmap b hba]
      exact h.words b ((hwords b hba).symm.trans hb)
  · intro t b f hb
    obtain ⟨hL, hf, hf'⟩ := h.cache t b f hb
    refine ⟨Or.inr hL, fun hF => ?_, hf'⟩
    rw [hmap b (hne b hL)]
    exact hf hF

end Tabled

/-! ## What the lookups find -/

section

variable [DecidableEq Tid] {cache : Bool} {fuel : Nat} {F : Flavour} {I L : Addr → Prop}
  {s s' : State Tid Cond} {d : Dict} {t : Tid} {a : Addr} {f : Found}

omit [DecidableEq Tid] in
/-- A hit is what the thread has cached. -/
theorem lockCacheGet_some (hget : lockCacheGet cache s t a = some f) :
    s.cache t = some (a, f) := by
  unfold lockCacheGet at hget
  split at hget
  · rename_i lock addr hc
    obtain ⟨⟨-, rfl⟩, heq⟩ := Option.ite_none_right_eq_some.mp hget
    rw [hc, Option.some.inj heq]
  · cases hget

/-- The cache is all that changes. -/
theorem lockCacheSet_rest (s : State Tid Cond) (t : Tid) (a : Addr) (f : Found) :
    (lockCacheSet cache s t a f).clht = s.clht ∧ (lockCacheSet cache s t a f).log = s.log ∧
      (lockCacheSet cache s t a f).condL = s.condL := by
  unfold lockCacheSet
  split <;> exact ⟨rfl, rfl, rfl⟩

/-- **The lookup of a lock function** finds what the address is bound to, which is of the
    flavour of the function unless the address was initialised for another one. -/
theorem lockAddr_spec (hfuel : 40 ≤ fuel) (h : Tabled F I L s d) (ha : a ≠ 0)
    (hok : I a → F = .glk ∨ L a) (hget : lockAddr cache fuel F s t a = some (s', f))
    (hfits : Fits s'.clht) :
    ∃ d', Tabled F I (fun b => b = a ∨ L b) s' d' ∧ Finds F d' a f ∧ s'.log = s.log ∧
      s'.condL = s.condL := by
  unfold lockAddr at hget
  cases hF : F.putType with
  | some type =>
      simp only [hF, glsLockGetPut] at hget
      split at hget
      · -- the cache has it
        rename_i g hcache
        obtain ⟨rfl, rfl⟩ := Prod.mk.inj (Option.some.inj hget)
        obtain ⟨hL, hf⟩ := h.cache t a g (lockCacheGet_some hcache)
        exact ⟨d, h.lock (h.locked a hL), hf, rfl, rfl⟩
      · split at hget
        · rename_i h' v hput
          obtain ⟨rfl, rfl⟩ := Prod.mk.inj (Option.some.inj hget)
          rw [(lockCacheSet_rest _ t a _).1] at hfits
          have hcall : ClhtLp.call fuel s.clht (.putType a type) = (h', some (.val v)) := by
            simp only [ClhtLp.call, hput, Option.map_some]
          obtain ⟨r, d', hr, hspec, hrep⟩ := call_spec hfuel h.rep (c := .putType a type) ha
            (by rw [hcall]; exact hfits)
          rw [hcall] at hr hrep
          obtain rfl := Option.some.inj hr
          have hne : F.putType ≠ none := by rw [hF]; exact Option.some_ne_none _
          cases hspec with
          | putTypeOld hv =>
              have h₁ := (h.setClht hrep).lock
                (h.made_of_bound hok (by rw [hv]; exact Option.some_ne_none _))
              have hf : Finds F d a (.obj v) :=
                ⟨fun _ => ⟨v, hv, rfl⟩, fun hnone => absurd hnone hne⟩
              exact ⟨d, h₁.setCache cache (Or.inl rfl) hf, hf, (lockCacheSet_rest _ t a _).2⟩
          | putTypeNew hnew hv0 hfree =>
              have hself : (d.bindNew a v type).map a = some v := Function.update_self ..
              have h₁ := h.bind s.words hrep hnew
                (fun b hb => Function.update_of_ne hb ..)
                (fun w type' hw => by
                  rw [← hw]
                  refine Function.update_of_ne ?_ ..
                  rintro rfl
                  rw [hfree] at hw
                  cases hw)
                (fun _ _ => rfl)
                ⟨fun type' htype => ⟨v, hself, by
                    rw [Option.some.inj (htype.symm.trans hF)]
                    exact Function.update_self ..⟩, fun hnone => absurd hnone hne⟩
                (by rw [hself]; exact Option.some_ne_none _)
              have hf : Finds F (d.bindNew a v type) a (.obj v) :=
                ⟨fun _ => ⟨v, hself, rfl⟩, fun hnone => absurd hnone hne⟩
              exact ⟨_, h₁.setCache cache (Or.inl rfl) hf, hf, (lockCacheSet_rest _ t a _).2⟩
        · cases hget
  | none =>
      simp only [hF, glsLockGetPutIn] at hget
      split at hget
      · rename_i h' p hput
        obtain ⟨rfl, rfl⟩ := Prod.mk.inj (Option.some.inj hget)
        have hcall : ClhtLp.call fuel s.clht (.putIn a) = (h', some (.ptr (some p))) := by
          simp only [ClhtLp.call, hput, Option.map_some]
        rw [(lockCacheSet_rest _ t a _).1] at hfits
        obtain ⟨r, d', hr, hspec, hrep⟩ := call_spec hfuel h.rep (c := .putIn a) ha
          (by rw [hcall]; exact hfits)
        rw [hcall] at hr hrep
        obtain rfl := Option.some.inj hr
        have hgetIn := (h.rep.represents.getIn a ha).1
        have hf : ∀ d, Finds F d a (.word a) :=
          fun _ => ⟨fun hne => absurd hF hne, fun _ => rfl⟩
        cases hspec with
        | putInOld hv =>
            have hbound : d.map a ≠ none := by rw [hv]; exact Option.some_ne_none _
            have h₁ := (h.setClht hrep).lock (h.made_of_bound hok hbound)
            rw [if_neg (hgetIn.not.mpr hbound)]
            exact ⟨d, h₁.setCache cache (Or.inl rfl) (hf d), hf d, (lockCacheSet_rest _ t a _).2⟩
        | putInNew hnew =>
            have hself : (d.bind a 0).map a = some 0 := Function.update_self ..
            have h₁ := h.bind (Function.update s.words a true) hrep hnew
              (fun b hb => Function.update_of_ne hb ..) (fun _ _ => id)
              (fun b hb => Function.update_of_ne hb ..)
              ⟨fun type' htype => absurd (htype.symm.trans hF) (Option.some_ne_none _),
                fun _ => ⟨by rw [hself]; exact Option.some_ne_none _, Function.update_self ..⟩⟩
              (by rw [hself]; exact Option.some_ne_none _)
            rw [if_pos (hgetIn.mpr hnew)]
            exact ⟨_, h₁.setCache cache (Or.inl rfl) (hf _), hf _, (lockCacheSet_rest _ t a _).2⟩
      · cases hget

omit [DecidableEq Tid] in
/-- **The lookup of an unlock function** finds what was locked. -/
theorem unlockAddr_spec (h : Tabled F I L s d) (hL : L a) :
    Finds F d a (unlockAddr cache F s t a) := by
  have hmade := h.locked a hL
  have ha := h.ne_zero hL
  unfold unlockAddr
  cases hF : F.putType with
  | some type =>
      obtain ⟨v, hv, hobj⟩ := hmade.1 type hF
      have hne : F.putType ≠ none := by rw [hF]; exact Option.some_ne_none _
      have hv0 : v ≠ 0 := by
        rintro rfl
        rw [h.rep.obj] at hobj
        cases hobj
      simp only [glsLockGetGet]
      split
      · rename_i g hcache
        exact (h.cache t a g (lockCacheGet_some hcache)).2
      · rw [h.rep.represents.get a ha, hv, Option.getD_some, if_neg hv0]
        exact ⟨fun _ => ⟨v, hv, rfl⟩, fun hnone => absurd hnone hne⟩
  | none =>
      have hgetIn := (h.rep.represents.getIn a ha).1
      simp only [glsLockGetGetIn]
      rw [if_neg (hgetIn.not.mpr (hmade.2 hF).1)]
      exact ⟨fun hne => absurd hF hne, fun _ => rfl⟩

omit [DecidableEq Tid] in
/-- **`gls_lock_init`** creates a `glk_t`. -/
theorem glsLockInit_spec (hfuel : 40 ≤ fuel) (h : Tabled F I L s d) (ha : a ≠ 0)
    (hI : ¬ I a) (hL : ¬ L a) (hinit : glsLockInit fuel s a = some s') (hfits : Fits s'.clht) :
    (∃ d', Tabled F (fun b => b = a ∨ I b) L s' d') ∧ s'.log = s.log ∧ s'.condL = s.condL := by
  unfold glsLockInit at hinit
  split at hinit
  · rename_i h' r hput
    obtain rfl := Option.some.inj hinit
    have hcall : ClhtLp.call fuel s.clht (.putInit a) = (h', some (.int r)) := by
      simp only [ClhtLp.call, hput, Option.map_some]
    obtain ⟨r', d', hr, hspec, hrep⟩ := call_spec hfuel h.rep (c := .putInit a) ha
      (by rw [hcall]; exact hfits)
    rw [hcall] at hr hrep
    obtain rfl := Option.some.inj hr
    have hnone : d.map a = none := by
      by_contra hbound
      exact (h.only a hbound).elim hI hL
    refine ⟨?_, rfl, rfl⟩
    cases hspec with
    | putInitOld hv =>
        rw [hnone] at hv
        cases hv
    | @putInitNew _ v _ hv0 hfree =>
        have hself : (d.bindNew a v .adaptive).map a = some v := Function.update_self ..
        have hmap : ∀ b, b ≠ a → (d.bindNew a v .adaptive).map b = d.map b :=
          fun b hb => Function.update_of_ne hb ..
        have hobj : ∀ w type, d.obj w = some type →
            (d.bindNew a v .adaptive).obj w = some type := by
          intro w type hw
          rw [← hw]
          refine Function.update_of_ne ?_ ..
          rintro rfl
          rw [hfree] at hw
          cases hw
        have hword : s.words a = false := by
          by_contra hw
          exact h.words a (Bool.not_eq_false _ |>.mp hw) hnone
        have hne : ∀ b, L b → b ≠ a := by
          rintro b hb rfl
          exact hL hb
        refine ⟨_, hrep, fun b hb => ?_, ?_, fun b hb => ?_, fun b hb => ?_, fun u b f hb => ?_⟩
        · obtain ⟨hptr, hin⟩ := h.locked b hb
          refine ⟨fun type htype => ?_, fun hF => ?_⟩
          · obtain ⟨w, hw, hw'⟩ := hptr type htype
            exact ⟨w, (hmap b (hne b hb)).trans hw, hobj w type hw'⟩
          · rw [hmap b (hne b hb)]
            exact hin hF
        · rintro b (rfl | hIb) hb
          · exact ⟨v, hself, Function.update_self .., hword⟩
          · obtain ⟨w, hw, hw', hb'⟩ := h.inited b hIb hb
            have hba : b ≠ a := by
              rintro rfl
              exact hI hIb
            exact ⟨w, (hmap b hba).trans hw, hobj w _ hw', hb'⟩
        · by_cases hba : b = a
          · exact Or.inl (Or.inl hba)
          · rw [hmap b hba] at hb
            exact (h.only b hb).imp_left Or.inr
        · by_cases hba : b = a
          · rw [hba, hself]
            exact Option.some_ne_none _
          · rw [hmap b hba]
            exact h.words b hb
        · obtain ⟨hLb, hf, hf'⟩ := h.cache u b f hb
          refine ⟨hLb, fun hF => ?_, hf'⟩
          rw [hmap b (hne b hLb)]
          exact hf hF
  · cases hinit

/-- The first lock of an initialised address finds a `glk_t`, whatever it asks for. -/
theorem lockAddr_inited (hfuel : 40 ≤ fuel) (h : Tabled F I L s d) (ha : a ≠ 0) (hI : I a)
    (hL : ¬ L a) (hne : F ≠ .glk) (hget : lockAddr cache fuel F s t a = some (s', f))
    (hfits : Fits s'.clht) : s'.on f ≠ some F := by
  obtain ⟨v, hv, hobj, hword⟩ := h.inited a hI hL
  unfold lockAddr at hget
  cases hF : F.putType with
  | some type =>
      simp only [hF, glsLockGetPut] at hget
      split at hget
      · rename_i g hcache
        exact absurd (h.cache t a g (lockCacheGet_some hcache)).1 hL
      · split at hget
        · rename_i h' w hput
          obtain ⟨rfl, rfl⟩ := Prod.mk.inj (Option.some.inj hget)
          rw [(lockCacheSet_rest _ t a _).1] at hfits
          have hcall : ClhtLp.call fuel s.clht (.putType a type) = (h', some (.val w)) := by
            simp only [ClhtLp.call, hput, Option.map_some]
          obtain ⟨r, d', hr, hspec, hrep⟩ := call_spec hfuel h.rep (c := .putType a type) ha
            (by rw [hcall]; exact hfits)
          rw [hcall] at hr hrep
          obtain rfl := Option.some.inj hr
          cases hspec with
          | putTypeOld hw =>
              obtain rfl : v = w := Option.some.inj (hv.symm.trans hw)
              have hon := (h.setClht hrep).on_obj hobj
              rw [State.on] at hon ⊢
              rw [(lockCacheSet_rest _ t a _).1, hon]
              exact fun heq => hne (Option.some.inj heq).symm
          | putTypeNew hnew => rw [hv] at hnew; cases hnew
        · cases hget
  | none =>
      simp only [hF, glsLockGetPutIn] at hget
      split at hget
      · obtain ⟨rfl, rfl⟩ := Prod.mk.inj (Option.some.inj hget)
        have hgetIn := (h.rep.represents.getIn a ha).1
        rw [if_neg (hgetIn.not.mpr (by rw [hv]; exact Option.some_ne_none _)), State.on]
        have hsame : ∀ g : State Tid Cond,
            (lockCacheSet cache g t a (.word a)).words = g.words := by
          intro g
          unfold lockCacheSet
          split <;> rfl
        rw [hsame, hword]
        simp
      · cases hget

/-! ## One call -/

omit [DecidableEq Tid] in
/-- Applying a function to an object of its own flavour. -/
theorem apply_good (hon : s.on f = some F) :
    ∀ op ∈ (s.apply a F f).log, op ∈ s.log ∨ Good F op := by
  intro op hop
  refine (List.mem_append.mp hop).imp_right fun hnew => ?_
  obtain rfl := List.mem_singleton.mp hnew
  refine ⟨rfl, hon, fun mp G _ hG => ?_⟩
  obtain rfl : F = G := Option.some.inj (hon.symm.trans hG)
  exact trylock_initLock mp F

omit [DecidableEq Tid] in
/-- A lock function leaves the table alone. -/
theorem Tabled.apply (h : Tabled F I L s d) (b : Addr) (G : Flavour) (g : Found) :
    Tabled F I L (s.apply b G g) d := ⟨h.rep, h.locked, h.inited, h.only, h.words, h.cache⟩

omit [DecidableEq Tid] in
/-- The addresses that have been initialised and locked. -/
theorem Tabled.congr (h : Tabled F I L s d) {I' L' : Addr → Prop} (hI : ∀ b, I' b ↔ I b)
    (hL : ∀ b, L' b ↔ L b) : Tabled F I' L' s d := by
  obtain rfl : I' = I := funext fun b => propext (hI b)
  obtain rfl : L' = L := funext fun b => propext (hL b)
  exact h

/-- **A lock** of an address that the flavour may lock. -/
theorem glsLock_spec (hfuel : 40 ≤ fuel) (h : Tabled F I L s d) (ha : a ≠ 0)
    (hok : I a → F = .glk ∨ L a) (hlock : glsLock cache fuel F s t a = some s')
    (hfits : Fits s'.clht) :
    (∃ d', Tabled F I (fun b => b = a ∨ L b) s' d') ∧ s'.condL = s.condL ∧
      ∀ op ∈ s'.log, op ∈ s.log ∨ Good F op := by
  obtain ⟨⟨s₁, f⟩, hget, rfl⟩ := Option.map_eq_some_iff.mp hlock
  obtain ⟨d', h₁, hf, hlog, hcond⟩ := lockAddr_spec hfuel h ha hok hget hfits
  have hgood := apply_good (a := a) (h₁.on_eq (h₁.locked a (Or.inl rfl)) hf)
  rw [hlog] at hgood
  exact ⟨⟨d', h₁.apply a F f⟩, hcond, hgood⟩

omit [DecidableEq Tid] in
variable (cache t) in

/-- **An unlock** of an address that has been locked. -/
theorem glsUnlock_spec (h : Tabled F I L s d) (hL : L a) :
    Tabled F I L (glsUnlock cache F s t a) d ∧
      ∀ op ∈ (glsUnlock cache F s t a).log, op ∈ s.log ∨ Good F op :=
  ⟨h.apply a F _, apply_good (h.on_eq (h.locked a hL) (unlockAddr_spec h hL))⟩

variable [DecidableEq Cond]

/-- A wait of the flavour `glk`. -/
theorem glsCondWait_spec (hfuel : 40 ≤ fuel) (h : Tabled .glk I L s d) (hL : L a) (ha : a ≠ 0)
    {c : Cond} (hwait : glsCondWait cache fuel s t c a = some s') (hfits : Fits s'.clht) :
    (∃ d', Tabled .glk I L s' d') ∧ ∀ op ∈ s'.log, op ∈ s.log ∨ Good .glk op := by
  unfold glsCondWait at hwait
  split at hwait
  · have h₀ : Tabled .glk I L { s with condL := Function.update s.condL c (some a) } d :=
      ⟨h.rep, h.locked, h.inited, h.only, h.words, h.cache⟩
    obtain ⟨h₁, hgood₁⟩ := glsUnlock_spec cache t h₀ hL
    obtain ⟨⟨d', h₂⟩, -, hgood₂⟩ :=
      glsLock_spec hfuel h₁ ha (fun _ => Or.inl rfl) hwait hfits
    refine ⟨⟨d', h₂.congr (fun _ => Iff.rfl) fun b => ?_⟩, fun op hop => ?_⟩
    · constructor
      · exact Or.inr
      · rintro (rfl | hb)
        · exact hL
        · exact hb
    · exact (hgood₂ op hop).elim (hgood₁ op) Or.inr
  · obtain rfl := Option.some.inj hwait
    exact ⟨⟨d, h⟩, fun op => Or.inl⟩

end

/-! ## Whole programs -/

/-- No wait, and no address that is both initialised and locked or tried. -/
def Clean (cs : List (Call Tid Cond)) : Prop := ¬ Waits cs ∧ ∀ a, Inits cs a → ¬ Locks cs a

/-- The addresses initialised, with one more call. -/
theorem inits_snoc (cs : List (Call Tid Cond)) (c : Call Tid Cond) (a : Addr) :
    Inits (cs ++ [c]) a ↔ Inits cs a ∨ c = .init a := by
  simp [Inits, eq_comm]

/-- The addresses locked, with one more call. -/
theorem locks_snoc (cs : List (Call Tid Cond)) (c : Call Tid Cond) (a : Addr) :
    Locks (cs ++ [c]) a ↔ Locks cs a ∨ ∃ t, c = .lock t a ∨ c = .trylock t a := by
  simp only [Locks, List.mem_append, List.mem_singleton, ← exists_or, eq_comm]
  exact exists_congr fun t => by tauto

/-- The waits, with one more call. -/
theorem waits_snoc (cs : List (Call Tid Cond)) (c : Call Tid Cond) :
    Waits (cs ++ [c]) ↔ Waits cs ∨ ∃ t d a, c = .condWait t d a ∨ c = .condTimedwait t d a := by
  simp only [Waits, List.mem_append, List.mem_singleton, ← exists_or, eq_comm]
  exact exists_congr fun t => exists_congr fun d => exists_congr fun a => by tauto

section

variable [DecidableEq Tid] [DecidableEq Cond] {cache : Bool} {fuel numBuckets : Nat}
  {F : Flavour} {cs : List (Call Tid Cond)} {c : Call Tid Cond} {s s' : State Tid Cond}

omit [DecidableEq Cond] in
/-- A lookup applies no lock function. -/
theorem lockAddr_log {G : Flavour} {t : Tid} {a : Addr} {f : Found}
    (hget : lockAddr cache fuel G s t a = some (s', f)) : s'.log = s.log := by
  unfold lockAddr at hget
  split at hget
  · simp only [glsLockGetPut] at hget
    split at hget
    · rw [(Prod.mk.inj (Option.some.inj hget)).1]
    · split at hget
      · rw [← (Prod.mk.inj (Option.some.inj hget)).1]
        exact (lockCacheSet_rest _ t a _).2.1
      · cases hget
  · simp only [glsLockGetPutIn] at hget
    split at hget
    · rw [← (Prod.mk.inj (Option.some.inj hget)).1]
      exact (lockCacheSet_rest _ t a _).2.1
    · cases hget

omit [DecidableEq Cond] in
/-- A lock function adds itself to the history. -/
theorem glsLock_log {G : Flavour} {t : Tid} {a : Addr}
    (hlock : glsLock cache fuel G s t a = some s') :
    ∃ on first, s'.log = s.log ++ [⟨a, G, on, first⟩] := by
  obtain ⟨⟨s₁, f⟩, hget, rfl⟩ := Option.map_eq_some_iff.mp hlock
  exact ⟨_, _, congrArg (· ++ [_]) (lockAddr_log hget)⟩

/-- What has been applied stays in the history. -/
theorem api_log (hs : api cache fuel F s c = some s') : ∀ op ∈ s.log, op ∈ s'.log := by
  have hlock : ∀ (G : Flavour) t a (g g' : State Tid Cond), glsLock cache fuel G g t a = some g' →
      ∀ op ∈ g.log, op ∈ g'.log := by
    intro G t a g g' hg op hop
    obtain ⟨on, first, hlog⟩ := glsLock_log hg
    rw [hlog]
    exact List.mem_append_left _ hop
  have hwait : ∀ t e a, glsCondWait cache fuel s t e a = some s' → ∀ op ∈ s.log, op ∈ s'.log := by
    intro t e a hw op hop
    unfold glsCondWait at hw
    split at hw
    · exact hlock _ _ _ _ _ hw op (List.mem_append_left _ hop)
    · obtain rfl := Option.some.inj hw
      exact hop
  intro op hop
  cases c with
  | init a =>
      simp only [api, glsLockInit] at hs
      split at hs
      · obtain rfl := Option.some.inj hs
        exact hop
      · cases hs
  | lock t a => exact hlock _ _ _ _ _ hs op hop
  | trylock t a => exact hlock _ _ _ _ _ hs op hop
  | unlock t a =>
      obtain rfl := Option.some.inj hs
      exact List.mem_append_left _ hop
  | condWait t e a => exact hwait t e a hs op hop
  | condTimedwait t e a => exact hwait t e a hs op hop
  | condInit e =>
      obtain rfl := Option.some.inj hs
      exact hop
  | condSignal e =>
      obtain rfl := Option.some.inj hs
      exact hop
  | condBroadcast e =>
      obtain rfl := Option.some.inj hs
      exact hop

/-- After some calls: what the table holds, and which condition variables have a lock. -/
structure Sound (F : Flavour) (cs : List (Call Tid Cond)) (s : State Tid Cond) : Prop where
  tabled : ∃ d, Tabled F (Inits cs) (Locks cs) s d
  condL : ¬ Waits cs → ∀ c, s.condL c = none

/-- **Step lemma.** -/
theorem Sound.step (hfuel : 40 ≤ fuel) (h : Sound F cs s) (hc : Allowed cs c)
    (hok : F = .glk ∨ Clean (cs ++ [c])) (hs : api cache fuel F s c = some s')
    (hfits : Fits s'.clht) :
    Sound F (cs ++ [c]) s' ∧ ∀ op ∈ s'.log, op ∈ s.log ∨ Good F op := by
  obtain ⟨d, hd⟩ := h.tabled
  have hI := inits_snoc cs c
  have hL := locks_snoc cs c
  have hW := waits_snoc cs c
  have hlock : ∀ t a, c = .lock t a ∨ c = .trylock t a → a ≠ 0 →
      glsLock cache fuel F s t a = some s' →
      Sound F (cs ++ [c]) s' ∧ ∀ op ∈ s'.log, op ∈ s.log ∨ Good F op := by
    intro t a hcall ha hs
    have hnew : Locks (cs ++ [c]) a := (hL a).mpr (Or.inr ⟨t, hcall⟩)
    have hinit : Inits cs a → F = .glk ∨ Locks cs a := fun hin =>
      hok.imp_right fun hclean => absurd hnew (hclean.2 a ((hI a).mpr (Or.inl hin)))
    obtain ⟨⟨d', hd'⟩, hcond, hgood⟩ := glsLock_spec hfuel hd ha hinit hs hfits
    refine ⟨⟨⟨d', hd'.congr (fun b => ?_) fun b => ?_⟩, fun hno => ?_⟩, hgood⟩
    · rw [hI]
      rcases hcall with rfl | rfl <;> simp
    · rw [hL]
      rcases hcall with rfl | rfl <;> simp [or_comm, eq_comm]
    · rw [hcond]
      exact h.condL fun hw => hno (hW.mpr (Or.inl hw))
  have hwait : ∀ t e a, c = .condWait t e a ∨ c = .condTimedwait t e a → Locks cs a →
      glsCondWait cache fuel s t e a = some s' →
      Sound F (cs ++ [c]) s' ∧ ∀ op ∈ s'.log, op ∈ s.log ∨ Good F op := by
    intro t e a hcall ha hrun
    have hnew : Waits (cs ++ [c]) := hW.mpr (Or.inr ⟨t, e, a, hcall⟩)
    obtain rfl := hok.resolve_right fun hclean => hclean.1 hnew
    obtain ⟨⟨d', hd'⟩, hgood⟩ := glsCondWait_spec hfuel hd ha (hd.ne_zero ha) hrun hfits
    refine ⟨⟨⟨d', hd'.congr (fun b => ?_) fun b => ?_⟩, fun hno => absurd hnew hno⟩, hgood⟩
    · rw [hI]
      rcases hcall with rfl | rfl <;> simp
    · rw [hL]
      rcases hcall with rfl | rfl <;> simp
  have hkeep : (∀ a, c ≠ .init a) → (∀ t a, c ≠ .lock t a ∧ c ≠ .trylock t a) →
      ∀ g : State Tid Cond, Tabled F (Inits cs) (Locks cs) g d →
      (∀ e, g.condL e = none ∨ g.condL e = s.condL e) →
      Sound F (cs ++ [c]) g := by
    intro hi hl g hg hcond
    refine ⟨⟨d, hg.congr (fun b => ?_) fun b => ?_⟩, fun hno e => ?_⟩
    · rw [hI]
      simp [hi]
    · rw [hL]
      simp [hl]
    · have := h.condL (fun hw => hno (hW.mpr (Or.inl hw))) e
      rcases hcond e with he | he
      · exact he
      · rw [he, this]
  cases c with
  | init a =>
      obtain ⟨ha, hni, hnl⟩ := hc
      obtain ⟨⟨d', hd'⟩, hlog, hcond⟩ := glsLockInit_spec hfuel hd ha hni hnl hs hfits
      refine ⟨⟨⟨d', hd'.congr (fun b => ?_) fun b => ?_⟩, fun hno => ?_⟩, fun op hop => ?_⟩
      · rw [hI]
        simp [or_comm, eq_comm]
      · rw [hL]
        simp
      · rw [hcond]
        exact h.condL fun hw => hno (hW.mpr (Or.inl hw))
      · exact Or.inl (hlog ▸ hop)
  | lock t a => exact hlock t a (Or.inl rfl) hc hs
  | trylock t a => exact hlock t a (Or.inr rfl) hc hs
  | unlock t a =>
      obtain rfl := Option.some.inj hs
      obtain ⟨hd', hgood⟩ := glsUnlock_spec cache t hd hc
      exact ⟨hkeep (by simp) (by simp) _ hd' fun _ => Or.inr rfl, hgood⟩
  | condWait t e a => exact hwait t e a (Or.inl rfl) hc hs
  | condTimedwait t e a => exact hwait t e a (Or.inr rfl) hc hs
  | condInit e =>
      obtain rfl := Option.some.inj hs
      refine ⟨hkeep (by simp) (by simp) _
        ⟨hd.rep, hd.locked, hd.inited, hd.only, hd.words, hd.cache⟩
        fun e' => ?_, fun op => Or.inl⟩
      show Function.update s.condL e none e' = none ∨ Function.update s.condL e none e' = _
      rw [Function.update_apply]
      split
      · exact Or.inl rfl
      · exact Or.inr rfl
  | condSignal e =>
      obtain rfl := Option.some.inj hs
      exact ⟨hkeep (by simp) (by simp) _ hd fun _ => Or.inr rfl, fun op => Or.inl⟩
  | condBroadcast e =>
      obtain rfl := Option.some.inj hs
      exact ⟨hkeep (by simp) (by simp) _ hd fun _ => Or.inr rfl, fun op => Or.inl⟩

/-- **The first call that is not clean** applies a function to an object of another flavour,
    unless the flavour is `glk`. -/
theorem Sound.broken (hfuel : 40 ≤ fuel) (h : Sound F cs s) (hclean : Clean cs) (hne : F ≠ .glk)
    (hc : Allowed cs c) (hbad : ¬ Clean (cs ++ [c])) (hs : api cache fuel F s c = some s')
    (hfits : Fits s'.clht) : ∃ op ∈ s'.log, ¬ Good F op := by
  obtain ⟨d, hd⟩ := h.tabled
  have hI := inits_snoc cs c
  have hL := locks_snoc cs c
  have hW := waits_snoc cs c
  have hlock : ∀ t a, c = .lock t a ∨ c = .trylock t a → a ≠ 0 →
      glsLock cache fuel F s t a = some s' → ∃ op ∈ s'.log, ¬ Good F op := by
    intro t a hcall ha hrun
    have hin : Inits cs a := by
      by_contra hni
      refine hbad ⟨fun hw => ?_, fun b hb hlb => ?_⟩
      · refine (hW.mp hw).elim hclean.1 ?_
        rcases hcall with rfl | rfl <;> simp
      · have hbI : Inits cs b := by
          refine ((hI b).mp hb).resolve_right ?_
          rcases hcall with rfl | rfl <;> simp
        refine ((hL b).mp hlb).elim (hclean.2 b hbI) ?_
        rintro ⟨u, hu⟩
        have hba : b = a := by
          rcases hcall with rfl | rfl <;> simp at hu
          · exact hu.2.symm
          · exact hu.2.symm
        exact hni (hba ▸ hbI)
    obtain ⟨⟨s₁, f⟩, hget, rfl⟩ := Option.map_eq_some_iff.mp hrun
    have hon := lockAddr_inited hfuel hd ha hin (hclean.2 a hin) hne hget hfits
    exact ⟨_, List.mem_append_right _ (List.mem_singleton_self _), fun hgood => hon hgood.2.1⟩
  have hwait : ∀ t e a, glsCondWait cache fuel s t e a = some s' →
      ∃ op ∈ s'.log, ¬ Good F op := by
    intro t e a hrun
    -- nobody has waited before, so the variable has no lock yet
    rw [glsCondWait, if_pos (Or.inl (h.condL hclean.1 e))] at hrun
    obtain ⟨on, first, hlog⟩ := glsLock_log hrun
    refine ⟨⟨a, .glk, on, first⟩, ?_, fun hgood => hne hgood.1.symm⟩
    rw [hlog]
    exact List.mem_append_right _ (List.mem_singleton_self _)
  have hsame : (∀ t a, c ≠ .lock t a ∧ c ≠ .trylock t a) →
      (∀ t e a, c ≠ .condWait t e a ∧ c ≠ .condTimedwait t e a) →
      (∀ a, c = .init a → ¬ Locks cs a) → False := by
    intro hl hw hi
    refine hbad ⟨fun hwait => (hW.mp hwait).elim hclean.1 ?_, fun b hb hlb => ?_⟩
    · rintro ⟨t, e, a, hcall | hcall⟩
      · exact (hw t e a).1 hcall
      · exact (hw t e a).2 hcall
    · have hlb' : Locks cs b := by
        refine ((hL b).mp hlb).resolve_right ?_
        rintro ⟨t, hcall | hcall⟩
        · exact (hl t b).1 hcall
        · exact (hl t b).2 hcall
      exact ((hI b).mp hb).elim (fun hbI => hclean.2 b hbI hlb') fun hcall => hi b hcall hlb'
  cases c with
  | init a =>
      refine (hsame (by simp) (by simp) fun b hb => ?_).elim
      obtain rfl : a = b := by simpa using hb
      exact hc.2.2
  | lock t a => exact hlock t a (Or.inl rfl) hc hs
  | trylock t a => exact hlock t a (Or.inr rfl) hc hs
  | unlock t a => exact (hsame (by simp) (by simp) (by simp)).elim
  | condWait t e a => exact hwait t e a hs
  | condTimedwait t e a => exact hwait t e a hs
  | condInit e => exact (hsame (by simp) (by simp) (by simp)).elim
  | condSignal e => exact (hsame (by simp) (by simp) (by simp)).elim
  | condBroadcast e => exact (hsame (by simp) (by simp) (by simp)).elim

omit [DecidableEq Cond] in
/-- A lookup forgets no output. -/
theorem lockAddr_out {G : Flavour} {t : Tid} {a : Addr} {f : Found}
    (hget : lockAddr cache fuel G s t a = some (s', f)) :
    ∀ l ∈ s.clht.out, l ∈ s'.clht.out := by
  intro l hl
  unfold lockAddr at hget
  split at hget
  · rename_i type _
    simp only [glsLockGetPut] at hget
    split at hget
    · rw [← (Prod.mk.inj (Option.some.inj hget)).1]
      exact hl
    · split at hget
      · rename_i h' v hput
        have hout := call_out fuel s.clht (.putType a type) l hl
        simp only [ClhtLp.call, hput] at hout
        rw [← (Prod.mk.inj (Option.some.inj hget)).1, (lockCacheSet_rest _ t a _).1]
        exact hout
      · cases hget
  · simp only [glsLockGetPutIn] at hget
    split at hget
    · rename_i h' v hput
      have hout := call_out fuel s.clht (.putIn a) l hl
      simp only [ClhtLp.call, hput] at hout
      rw [← (Prod.mk.inj (Option.some.inj hget)).1, (lockCacheSet_rest _ t a _).1]
      exact hout
    · cases hget

/-- What has been resized stays printed. -/
theorem api_out (hs : api cache fuel F s c = some s') : ∀ l ∈ s.clht.out, l ∈ s'.clht.out := by
  have hlock : ∀ (G : Flavour) t a (g g' : State Tid Cond), glsLock cache fuel G g t a = some g' →
      ∀ l ∈ g.clht.out, l ∈ g'.clht.out := by
    intro G t a g g' hg
    obtain ⟨⟨g₁, f⟩, hget, rfl⟩ := Option.map_eq_some_iff.mp hg
    exact fun l hl => lockAddr_out hget l hl
  have hwait : ∀ t e a, glsCondWait cache fuel s t e a = some s' →
      ∀ l ∈ s.clht.out, l ∈ s'.clht.out := by
    intro t e a hw
    unfold glsCondWait at hw
    split at hw
    · exact fun l hl => hlock _ _ _ _ _ hw l hl
    · obtain rfl := Option.some.inj hw
      exact fun l => id
  cases c with
  | init a =>
      intro l hl
      simp only [api, glsLockInit] at hs
      split at hs
      · rename_i h' r hput
        have hout := call_out fuel s.clht (.putInit a) l hl
        simp only [ClhtLp.call, hput] at hout
        rw [← Option.some.inj hs]
        exact hout
      · cases hs
  | lock t a => exact hlock _ _ _ _ _ hs
  | trylock t a => exact hlock _ _ _ _ _ hs
  | condWait t e a => exact hwait t e a hs
  | condTimedwait t e a => exact hwait t e a hs
  | _ =>
      obtain rfl := Option.some.inj hs
      exact fun l => id

omit [DecidableEq Tid] [DecidableEq Cond] in
theorem Clean.init (h : Clean (cs ++ [c])) : Clean cs :=
  ⟨fun hw => h.1 ((waits_snoc cs c).mpr (Or.inl hw)), fun a hi hl =>
    h.2 a ((inits_snoc cs c a).mpr (Or.inl hi)) ((locks_snoc cs c a).mpr (Or.inl hl))⟩

omit [DecidableEq Tid] [DecidableEq Cond] in
/-- Before the first call. -/
theorem start_sound {h : Clht} (hc : clhtLpCreate numBuckets = some h) :
    Sound F [] (start h : State Tid Cond) where
  tabled := by
    have hnone : ∀ a, Dict.empty.map a = none := fun _ => rfl
    refine ⟨.empty, create_rep hc, ?_, ?_, ?_, ?_, ?_⟩
    · rintro a ⟨t, hl | hl⟩ <;> cases hl
    · intro a hi
      cases hi
    · intro a ha
      exact absurd (hnone a) ha
    · intro a ha
      cases ha
    · intro t a f hf
      cases hf
  condL _ _ := rfl

/-- **Run lemma.** Every function is applied to a lock of its own flavour. -/
theorem Runs.sound (hfuel : 40 ≤ fuel) (hrun : Runs cache fuel numBuckets F cs s)
    (hfits : Fits s.clht) (hok : F = .glk ∨ Clean cs) :
    Sound F cs s ∧ ∀ op ∈ s.log, Good F op := by
  induction hrun with
  | create hc => exact ⟨start_sound hc, fun op hop => nomatch hop⟩
  | snoc hprev hc hs ih =>
      obtain ⟨hsound, hgood⟩ := ih (fun l hl => hfits l (api_out hs l hl))
        (hok.imp_right Clean.init)
      obtain ⟨hsound', hgood'⟩ := hsound.step hfuel hc hok hs hfits
      exact ⟨hsound', fun op hop => (hgood' op hop).elim (hgood op) id⟩

/-- **Run lemma.** Where the condition fails, some function is applied to a lock
    of another flavour. -/
theorem Runs.broken (hfuel : 40 ≤ fuel) (hrun : Runs cache fuel numBuckets F cs s)
    (hfits : Fits s.clht) (hne : F ≠ .glk) (hbad : ¬ Clean cs) : ∃ op ∈ s.log, ¬ Good F op := by
  induction hrun with
  | create =>
      refine absurd ⟨?_, ?_⟩ hbad
      · rintro ⟨t, e, a, hw | hw⟩ <;> cases hw
      · intro a hi
        cases hi
  | @snoc cs s s' c hprev hc hs ih =>
      have hfits' : Fits s.clht := fun l hl => hfits l (api_out hs l hl)
      by_cases hclean : Clean cs
      · exact (hprev.sound hfuel hfits' (Or.inr hclean)).1.broken hfuel hclean hne hc hbad hs hfits
      · obtain ⟨op, hop, hnot⟩ := ih hfits' hclean
        exact ⟨op, api_log hs op hop, hnot⟩

/-- **One flavour per address**: in every program whose calls have come back, and which has
    not resized a table of more than `2 ^ 31` buckets, every lock function is applied to an
    object of its own flavour, which the first of them finds free, exactly when the flavour
    is `glk`, or there has been no wait and no address was both initialised and locked or
    tried. -/
theorem glsApi_oneFlavour (hfuel : 40 ≤ fuel) (hrun : Runs cache fuel numBuckets F cs s)
    (hfits : Fits s.clht) : (∀ op ∈ s.log, Good F op) ↔ F = .glk ∨ Clean cs := by
  constructor
  · intro hgood
    by_contra hno
    obtain ⟨hne, hbad⟩ := not_or.mp hno
    obtain ⟨op, hop, hnot⟩ := hrun.broken hfuel hfits hne hbad
    exact hnot (hgood op hop)
  · exact fun hok => (hrun.sound hfuel hfits hok).2

end

/-- A mutex that is initialised, locked, waited with and unlocked, with the flavour `glk`. -/
theorem glsApi_oneFlavour_glk :
    ∃ s : State (Fin 2) (Fin 1),
      Runs true 40 256 .glk [.init 4, .lock 0 4, .condWait 0 0 4, .unlock 0 4] s ∧
      s.log.length = 4 ∧
      ((∀ op ∈ s.log, Good .glk op) ↔ Flavour.glk = .glk ∨
        Clean
          ([.init 4, .lock 0 4, .condWait 0 0 4, .unlock 0 4] : List (Call (Fin 2) (Fin 1)))) := by
  obtain ⟨h, s₁, s₂, s₃, s₄, h₀, h₁, h₂, h₃, h₄, hlen, hout⟩ :
      ∃ (h : Clht) (s₁ s₂ s₃ s₄ : State (Fin 2) (Fin 1)),
        clhtLpCreate 256 = some h ∧
        api true 40 .glk (start h) (.init 4) = some s₁ ∧
        api true 40 .glk s₁ (.lock 0 4) = some s₂ ∧
        api true 40 .glk s₂ (.condWait 0 0 4) = some s₃ ∧
        api true 40 .glk s₃ (.unlock 0 4) = some s₄ ∧
        s₄.log.length = 4 ∧ s₄.clht.out = [] :=
    ⟨_, _, _, _, _, rfl, rfl, rfl, rfl, rfl, rfl, rfl⟩
  have hrun : Runs true 40 256 .glk [.init 4, .lock 0 4, .condWait 0 0 4, .unlock 0 4] s₄ :=
    (((Runs.create h₀).snoc (by simp [Allowed, Inits, Locks]) h₁).snoc (by simp [Allowed]) h₂).snoc
      (by simp [Allowed, Locks]) h₃ |>.snoc (by simp [Allowed, Locks]) h₄
  exact ⟨s₄, hrun, hlen, glsApi_oneFlavour le_rfl hrun (by simp [Fits, hout])⟩

/-- **A program of the flavour `ttas` locks a `glk_t`**, when it has initialised the mutex. -/
theorem glsApi_otherFlavour :
    ∃ s : State (Fin 2) (Fin 1), Runs true 40 256 .ttas [.init 4, .lock 0 4] s ∧
      ¬ ∀ op ∈ s.log, Good .ttas op := by
  obtain ⟨h, s₁, s₂, h₀, h₁, h₂, hlog⟩ : ∃ (h : Clht) (s₁ s₂ : State (Fin 2) (Fin 1)),
      clhtLpCreate 256 = some h ∧
      api true 40 .ttas (start h) (.init 4) = some s₁ ∧
      api true 40 .ttas s₁ (.lock 0 4) = some s₂ ∧
      s₂.log = [⟨4, .ttas, some .glk, true⟩] :=
    ⟨_, _, _, rfl, rfl, rfl, rfl⟩
  refine ⟨s₂, ((Runs.create h₀).snoc (by simp [Allowed, Inits, Locks]) h₁).snoc
    (by simp [Allowed]) h₂, fun hgood => ?_⟩
  have := (hgood ⟨4, .ttas, some .glk, true⟩ (by rw [hlog]; exact List.mem_singleton_self _)).2.1
  cases this

end GlsApi
