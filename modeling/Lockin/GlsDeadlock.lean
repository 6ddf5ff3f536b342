import Lockin.ClhtLp
import Lockin.Interleaving
import Mathlib.Tactic

/-! # GLS with deadlock detection

    `gls.c` and `clht_lock_pointer.c` built with `GLS_DEBUG_DEADLOCK`, after `gls_init`: the
    thread ids, the array `h->waiting`, the owner fields of the slots, the detector, and the
    resizes that copy the owner fields.

    * A lock object is what GLS relies on: at most one thread has it.  `gls_lock_init` is a
      put that touches no lock.
    * GLS removes no address, so a slot is named by its key: `keys` are the keys of a bucket
      with its overflow buckets in order, and `owner` are the owner fields.
    * A put is one step under the lock of its bucket.  It asks for a resize when it makes the
      overflow bucket that `num_expands_threshold` counts.  A resizer locks the buckets one by
      one for good, copies them slot by slot to a table in its own memory, and publishes that.
    * `h->status_lock` is left out: it is looked at only when `resize_increase` is 0, and every
      call here passes 1.
    * `GLS_DD_CHECK` is in the loops of the ttas, ticket, MCS and mutex locks.  When it runs
      the detector is a choice of the schedule. -/

namespace GlsDeadlock

open Interleaving

/-- `clht_lp_addr_t`; 0 is `NULL`. -/
abbrev Addr := Nat

/-- The ids of the threads are a `size_t`; 0 is nobody. -/
abbrev Id := BitVec 64

/-- `ENTRIES_PER_BUCKET` with `GLS_DEBUG_DEADLOCK`. -/
def entriesPerBucket : Nat := 2

/-- `GLS_MAX_NUM_THREDS`. -/
def maxNumThreads : Nat := 64

/-- `gls_get_id_arr()` and `tid - 1`, an index of `h->waiting`. -/
def entry (id : Id) : Nat := (id - 1).toNat

/-- A `clht_lp_hashtable_t`. -/
structure Table where
  numBuckets : Nat
  keys : Nat → List Addr
  owner : Addr → Id
  /-- The lock of the bucket is `LOCK_RESIZE`. -/
  resized : Nat → Bool
  /-- History: `bucket_cpy` has read the owner of the slot. -/
  copied : Addr → Bool

/-- `clht_lp_hashtable_create`. -/
def Table.create (numBuckets : Nat) : Table :=
  ⟨numBuckets, fun _ => [], fun _ => 0, fun _ => false, fun _ => false⟩

/-- `clht_lp_hash`. -/
def Table.bin (T : Table) (key : Addr) : Nat := (key >>> 2) &&& (T.numBuckets - 1)

/-- The table has a slot for `key`. -/
def Table.Has (T : Table) (key : Addr) : Prop := key ∈ T.keys (T.bin key)

instance (T : Table) (key : Addr) : Decidable (T.Has key) := List.instDecidableMemOfLawfulBEq ..

/-- A new slot at the end of a bucket.  A vacant slot has been vacant from the start, so
    that its owner is still 0. -/
def Table.insert (T : Table) (key : Addr) (owner : Id) : Table :=
  { T with
    keys := Function.update T.keys (T.bin key) (T.keys (T.bin key) ++ [key])
    owner := Function.update T.owner key owner }

/-- `bucket->owner[j] = owner`. -/
def Table.setOwner (T : Table) (key : Addr) (owner : Id) : Table :=
  { T with owner := Function.update T.owner key owner }

/-- The overflow buckets of a bucket. -/
def Table.overflow (T : Table) (b : Nat) : Nat := ((T.keys b).length - 1) / entriesPerBucket

/-- The slots of a bucket and its overflow buckets. -/
def Table.slots (T : Table) (b : Nat) : Nat := entriesPerBucket * (T.overflow b + 1)

/-- `num_expands` of a table that only `clht_lp_put_seq` has filled. -/
def Table.numExpands (T : Table) : BitVec 32 :=
  BitVec.ofNat 32 ((List.range T.numBuckets).map T.overflow).sum

/-- `num_expands_threshold`. -/
def Table.numExpandsThreshold (T : Table) : BitVec 32 :=
  BitVec.ofNat 32 (ClhtLp.threshold T.numBuckets)

/-- The CAS of `lock_acq_resize`. -/
def Table.lockResize (T : Table) (b : Nat) : Table :=
  { T with resized := Function.update T.resized b true }

/-- The resizer has read a slot. -/
def Table.setCopied (T : Table) (key : Addr) : Table :=
  { T with copied := Function.update T.copied key true }

/-- The `int32_t` loop of `ht_resize_pes` ends before `2 ^ 31`. -/
def bucketsVisited (numBuckets : Nat) : Nat := min numBuckets (2 ^ 31)

/-- What `ht_status` decides when `resize_increase` is 1: the arguments `is_increase` and `by` of
    its call of `ht_resize_pes`.  `full_ratio` is `100 * size / capacity`, taken exactly. -/
def statusResize (numBuckets size : Nat) : Bool × Int :=
  let capacity := numBuckets * entriesPerBucket
  if 0 < size ∧ 100 * size < 5 * capacity then (false, 33)
  else (true, ClhtLp.incByPow2 (100 * size / (40 * capacity)))

structure Shared (Tid : Type) where
  /-- `__gls_ids`. -/
  glsIds : Id
  /-- `h->waiting`, and the memory around it. -/
  waiting : Nat → Addr
  tab : Nat → Table
  /-- `num_expands` of a table. -/
  numExpands : Nat → BitVec 32
  numTabs : Nat
  ht : Nat
  resizeLock : Bool
  ddLock : Bool
  /-- Who has the lock object of an address. -/
  holder : Addr → Option Tid

inductive Call where
  | lock
  | trylock
  | unlock
  | init
  deriving DecidableEq

/-- An element of `wait_cycle`. -/
structure Entry where
  id : Id
  waitOn : Addr
  deriving DecidableEq

/-- Where a thread is. -/
inductive Pc where
  | outside
  /-- `gls_get_id_arr()` in `clht_lp_ddd_waiting_set`. -/
  | setId
  | set
  /-- `hashtable = h->ht` of `clht_lp_put_type`. -/
  | putHt
  /-- `bucket_exists`. -/
  | search (v : Nat)
  /-- `hashtable = h->ht` of `clht_lp_put_impl`, with the bucket of table `v`. -/
  | implHt (v : Nat)
  /-- `hashtable = h->ht` before a `LOCK_ACQ`. -/
  | retryHt
  | lockAcq (v hashtable : Nat)
  /-- `hashtable = h->ht` of `ht_status`. -/
  | status
  /-- Slot `i` of bucket `b`. -/
  | statusScan (v b i size : Nat)
  | resizeHt (isIncrease : Bool) (by_ : Int)
  | resizeTry (isIncrease : Bool) (by_ : Int) (htOld : Nat)
  | cpyLock (htOld : Nat) (htNew : Table) (b : Nat)
  | cpySlot (htOld : Nat) (htNew : Table) (b i : Nat)
  | cpyPut (htOld : Nat) (htNew : Table) (b i : Nat) (key : Addr) (owner : Id)
  | swap (htOld : Nat) (htNew : Table)
  | resizeRls (again : Bool)
  /-- `clht_lp_hashtable_create` has returned `NULL`, and the resizer has followed it. -/
  | crash
  /-- At the lock object, to take it. -/
  | acquire
  -- `clht_lp_ddd_check`
  | checkTry
  | checkOwn
  | walkHt (waitCycle : List Entry) (waitOn : Addr) (owner : Id)
  | walk (waitCycle : List Entry) (waitOn : Addr) (owner : Id) (v : Nat)
  | walkWaiting (waitCycle : List Entry) (waitOn : Addr) (owner : Id)
  | checkRls
  /-- `exit(-2)`. -/
  | exited
  -- `clht_lp_ddd_waiting_unset`; the flag says that the lock has been taken
  | unsetLoad (acquired : Bool)
  | unsetStore (acquired : Bool)
  /-- `gls_hashtable->ht`, for `clht_lp_set_owner`. -/
  | ownHt
  | own (v : Nat)
  /-- `gls_hashtable->ht`, for `clht_lp_get`. -/
  | getHt
  | get (v : Nat)
  /-- `bucket->owner[j] = 0`. -/
  | clear (v : Nat)
  | release

/-- A thread, with its `__gls_id` and the call that it is in. -/
structure Local where
  glsId : Id
  call : Call
  key : Addr
  pc : Pc

inductive Act where
  | call (call : Call) (key : Addr)
  | go
  /-- `GLS_DD_CHECK` runs the detector. -/
  | check
  deriving DecidableEq

variable {Tid : Type}

/-- Go on at `pc`. -/
def Local.goto (l : Local) (pc : Pc) : Local := { l with pc := pc }

/-- Write back a table. -/
def Shared.setTab (sh : Shared Tid) (v : Nat) (T : Table) : Shared Tid :=
  { sh with tab := Function.update sh.tab v T }

/-- `clht_bucket_create_stats`, less the bucket. -/
def Shared.createStats (sh : Shared Tid) (hashtable : Nat) : Shared Tid :=
  { sh with
    numExpands := Function.update sh.numExpands hashtable (sh.numExpands hashtable + 1) }

/-- `gls_get_id`, and then on to `pc`. -/
def glsGetId (sh : Shared Tid) (l : Local) (pc : Pc) : Shared Tid × Local :=
  if l.glsId = 0 then
    ({ sh with glsIds := sh.glsIds + 1 }, { l with glsId := sh.glsIds + 1, pc := pc })
  else (sh, l.goto pc)

/-- Where a call starts. -/
def Call.start : Call → Pc
  | .lock => .setId
  | .trylock => .setId
  | .unlock => .getHt
  | .init => .retryHt

/-- The put has returned. -/
def Call.ready : Call → Pc
  | .lock => .acquire
  | .trylock => .acquire
  | .unlock => .release
  | .init => .outside

/-- The end of `clht_lp_ddd_waiting_unset`. -/
def afterUnset (acquired : Bool) : Pc := if acquired then .ownHt else .outside

/-- The end of a round of `clht_lp_ddd_check`, with what `clht_lp_ddd_get_owner` has
    returned: `owner` and `owner_wait_on`. -/
def walked (myid : Id) (waitCycle : List Entry) (owner : Id) (ownerWaitOn : Addr) : Pc :=
  let waitCycle := waitCycle ++ [⟨owner, ownerWaitOn⟩]
  if owner = myid then .exited
  else if waitCycle.length < maxNumThreads ∧ ownerWaitOn ≠ 0 then
    .walkHt waitCycle ownerWaitOn owner
  else .checkRls

/-- The next step of a thread. -/
def go (t : Tid) (sh : Shared Tid) (l : Local) : Pc → Option (Shared Tid × Local)
  | .outside => none
  | .setId => some (glsGetId sh l .set)
  | .set =>
      some ({ sh with waiting := Function.update sh.waiting (entry l.glsId) l.key },
        l.goto .putHt)
  | .putHt => some (sh, l.goto (.search sh.ht))
  | .search v => some (sh, l.goto (if (sh.tab v).Has l.key then l.call.ready else .implHt v))
  | .implHt v => some (sh, l.goto (.lockAcq v sh.ht))
  | .retryHt => some (sh, l.goto (.lockAcq sh.ht sh.ht))
  | .lockAcq v hashtable =>
      let T := sh.tab v
      let b := T.bin l.key
      if T.resized b then some (sh, l.goto .retryHt)
      else if T.Has l.key then some (sh, l.goto l.call.ready)
      else if (T.keys b).length < T.slots b then
        some (sh.setTab v (T.insert l.key 0), l.goto l.call.ready)
      else
        some ((sh.createStats hashtable).setTab v (T.insert l.key 0),
          l.goto (if sh.numExpands hashtable + 1 = (sh.tab hashtable).numExpandsThreshold then
            .status else l.call.ready))
  | .status => some (sh, l.goto (.statusScan sh.ht 0 0 0))
  | .statusScan v b i size =>
      if b < (sh.tab v).numBuckets then
        if i < (sh.tab v).slots b then
          some (sh, l.goto
            (.statusScan v b (i + 1) (if i < ((sh.tab v).keys b).length then size + 1 else size)))
        else some (sh, l.goto (.statusScan v (b + 1) 0 size))
      else
        let (isIncrease, by_) := statusResize (sh.tab v).numBuckets size
        some (sh, l.goto (.resizeHt isIncrease by_))
  | .resizeHt isIncrease by_ => some (sh, l.goto (.resizeTry isIncrease by_ sh.ht))
  | .resizeTry isIncrease by_ htOld =>
      if sh.resizeLock then some (sh, l.goto l.call.ready)
      else
        let n := ClhtLp.numBucketsNew (sh.tab htOld).numBuckets isIncrease by_
        some ({ sh with resizeLock := true },
          l.goto (if n = 0 then .crash else .cpyLock htOld (.create n) 0))
  | .cpyLock htOld htNew b =>
      if b < bucketsVisited (sh.tab htOld).numBuckets then
        if (sh.tab htOld).resized b then some (sh, l.goto (.cpyLock htOld htNew (b + 1)))
        else
          some (sh.setTab htOld ((sh.tab htOld).lockResize b), l.goto (.cpySlot htOld htNew b 0))
      else some (sh, l.goto (.swap htOld htNew))
  | .cpySlot htOld htNew b i =>
      match ((sh.tab htOld).keys b)[i]? with
      | some key =>
          some (sh.setTab htOld ((sh.tab htOld).setCopied key),
            l.goto (.cpyPut htOld htNew b i key ((sh.tab htOld).owner key)))
      | none => some (sh, l.goto (.cpyLock htOld htNew (b + 1)))
  -- `clht_lp_put_seq`
  | .cpyPut htOld htNew b i key owner =>
      some (sh, l.goto (.cpySlot htOld (htNew.insert key owner) b (i + 1)))
  | .swap _ htNew =>
      some ({ sh.setTab sh.numTabs htNew with
          numExpands := Function.update sh.numExpands sh.numTabs htNew.numExpands
          numTabs := sh.numTabs + 1
          ht := sh.numTabs },
        l.goto (.resizeRls (htNew.numExpandsThreshold ≤ htNew.numExpands)))
  | .resizeRls again =>
      some ({ sh with resizeLock := false }, l.goto (if again then .status else l.call.ready))
  | .crash => none
  | .acquire =>
      if sh.holder l.key = none then
        some ({ sh with holder := Function.update sh.holder l.key (some t) },
          l.goto (.unsetLoad true))
      else if l.call = .trylock then some (sh, l.goto (.unsetLoad false))
      else none
  | .checkTry =>
      some ({ sh with ddLock := true }, l.goto (if sh.ddLock then .acquire else .checkOwn))
  | .checkOwn =>
      some (sh, l.goto (.walkHt [⟨l.glsId, sh.waiting (entry l.glsId)⟩]
        (sh.waiting (entry l.glsId)) 0))
  | .walkHt waitCycle waitOn owner => some (sh, l.goto (.walk waitCycle waitOn owner sh.ht))
  | .walk waitCycle waitOn owner v =>
      some (sh, l.goto
        (if (sh.tab v).Has waitOn ∧ (sh.tab v).owner waitOn ≠ 0 then
          .walkWaiting waitCycle waitOn ((sh.tab v).owner waitOn)
        else walked l.glsId waitCycle owner 0))
  | .walkWaiting waitCycle _ owner =>
      some (sh, l.goto (walked l.glsId waitCycle owner (sh.waiting (entry owner))))
  | .checkRls => some ({ sh with ddLock := false }, l.goto .acquire)
  | .exited => none
  | .unsetLoad acquired =>
      some (sh, l.goto
        (if sh.waiting (entry l.glsId) = l.key then .unsetStore acquired
        else afterUnset acquired))
  | .unsetStore acquired =>
      some ({ sh with waiting := Function.update sh.waiting (entry l.glsId) 0 },
        l.goto (afterUnset acquired))
  | .ownHt => some (sh, l.goto (.own sh.ht))
  | .own v =>
      if (sh.tab v).Has l.key then
        some (sh.setTab v ((sh.tab v).setOwner l.key l.glsId), l.goto .outside)
      else some (sh, l.goto .outside)
  | .getHt => some (sh, l.goto (.get sh.ht))
  -- not in the table: `GLS_WARNING`, and a put
  | .get v =>
      some (if (sh.tab v).Has l.key then glsGetId sh l (.clear v) else (sh, l.goto .setId))
  | .clear v => some (sh.setTab v ((sh.tab v).setOwner l.key 0), l.goto .release)
  | .release =>
      some ({ sh with holder := Function.update sh.holder l.key none }, l.goto .outside)

/-- One step of a thread. -/
def prog : Prog Tid (Shared Tid) Local Act := fun t sh l a =>
  match a, l.pc with
  | .call call key, .outside =>
      some (sh, { l with call := call, key := key, pc := call.start })
  | .check, .acquire => if l.call = .lock then some (sh, l.goto .checkTry) else none
  | .go, pc => go t sh l pc
  | _, _ => none

/-- `gls_init(n)` has returned, and no thread has called GLS.  A table that has not been
    published yet is written before it is read. -/
structure Init (c : Conf Tid (Shared Tid) Local) : Prop where
  glsIds : c.sh.glsIds = 0
  waiting : ∀ i, c.sh.waiting i = 0
  tab : ∃ n, 0 < n ∧ ∀ v, c.sh.tab v = .create n
  numExpands : ∀ v, c.sh.numExpands v = 0
  numTabs : c.sh.numTabs = 1
  ht : c.sh.ht = 0
  resizeLock : c.sh.resizeLock = false
  ddLock : c.sh.ddLock = false
  holder : ∀ key, c.sh.holder key = none
  outside : ∀ t, (c.loc t).pc = .outside ∧ (c.loc t).glsId = 0

end GlsDeadlock
