import Mathlib.Data.Nat.Bitwise
import Lockin.SlotTable

/-! # The hash table of lock objects, run by one thread

    `clht_lock_pointer.c`: the table that maps addresses to lock objects.  This
    module has its data and what each call does when no other thread runs.

    A bucket and its overflow buckets are one chain of slots, `entriesPerBucket`
    for every bucket, in the order in which the loops of the source visit them.
    Only the first bucket's lock byte is ever used.

    Memory is taken as given: an allocation yields all it was asked for, and a
    superseded table stays as it was.  Pointers to tables are numbers in order
    of creation.  A call that does not come back (it spins on a byte that nobody
    will change, or follows `NULL`) yields `none` together with the state it was
    left in, and so does a recursion deeper than its fuel. -/

namespace ClhtLp

open SlotTable

/-- `clht_lp_addr_t`; 0 marks a vacant slot. -/
abbrev Addr := Nat

/-- `clht_lp_val_t`: a pointer to a lock object, 0 being `NULL`. -/
abbrev Val := Nat

/-- `ENTRIES_PER_BUCKET`. -/
def entriesPerBucket : Nat := 3

/-- `LOCK_FREE`, `LOCK_UPDATE`, `LOCK_RESIZE`. -/
inductive BucketLock where
  | free
  | update
  | resize
  deriving DecidableEq

/-- `CLHT_PUT_*`: the kind of lock object a put creates. -/
inductive PutType where
  | adaptive
  | ttas
  | ticket
  | mcs
  | mutex
  | tas
  deriving DecidableEq

/-- `clht_lp_hashtable_t`. -/
structure Hashtable where
  numBuckets : Nat
  /-- Bucket `b`, followed by its overflow buckets. -/
  table : Nat → Chain Addr Val
  /-- The lock byte of bucket `b`. -/
  lock : Nat → BucketLock
  version : Nat
  tableNew : Option Nat
  tablePrev : Option Nat
  numExpands : Nat
  numExpandsThreshold : Nat

/-! ## One table -/

/-- The slots of a bucket as `clht_lp_bucket_create` and `memset` leave it. -/
def emptyBucket : Chain Addr Val := List.replicate entriesPerBucket ⟨0, 0⟩

/-- A new overflow bucket whose first slot has been written.  The other values are
    never initialised; they mean nothing as long as their keys are 0. -/
def bucketWith (key : Addr) (val : Val) : Chain Addr Val := emptyBucket.set 0 ⟨key, val⟩

/-- `num_expands_threshold` of a new table: a `uint32_t`, and at least 1. -/
def threshold (numBuckets : Nat) : Nat :=
  if numBuckets % 2 ^ 32 = 0 then 1 else numBuckets % 2 ^ 32

/-- `clht_lp_hashtable_create`; `none` is `NULL`. -/
def clhtLpHashtableCreate (numBuckets : Nat) : Option Hashtable :=
  if numBuckets = 0 then none
  else some {
    numBuckets := numBuckets
    table := fun _ => emptyBucket
    lock := fun _ => .free
    version := 0
    tableNew := none
    tablePrev := none
    numExpands := 0
    numExpandsThreshold := threshold numBuckets }

/-- `clht_lp_hash`. -/
def clhtLpHash (h : Hashtable) (key : Addr) : Nat := (key >>> 2) &&& (h.numBuckets - 1)

/-- The lock-free search for a key: the loop of `bucket_exists`, `bucket_exists_in`,
    `clht_lp_get`, `clht_lp_get_in` and `clht_lp_remove`. -/
def findSlot (key : Addr) (c : Chain Addr Val) : Option Nat :=
  c.findIdx? fun s => s.key = key

/-- `bucket->val[j]`. -/
def slotVal (ch : Chain Addr Val) (i : Nat) : Val := (ch[i]?.map Slot.val).getD 0

/-- `bucket_exists`. -/
def bucketExists (key : Addr) (c : Chain Addr Val) : Val :=
  match findSlot key c with
  | some i => slotVal c i
  | none => 0

/-- `clht_lp_get`. -/
def clhtLpGet (h : Hashtable) (key : Addr) : Val :=
  bucketExists key (h.table (clhtLpHash h key))

/-- `clht_lp_get_in`: the bucket and the slot in it, or `NULL`. -/
def clhtLpGetIn (h : Hashtable) (key : Addr) : Option (Nat × Nat) :=
  (findSlot key (h.table (clhtLpHash h key))).map fun i => (clhtLpHash h key, i)

/-- What the search of a put comes to. -/
inductive Seek where
  | found (i : Nat)
  | absent (empty : Option Nat)
  deriving DecidableEq

/-- The search of a put, under the bucket lock: it also remembers the first vacant slot,
    and only reports the key absent after the whole chain. -/
def seek (key : Addr) : Chain Addr Val → Nat → Option Nat → Seek
  | [], _, empty => .absent empty
  | s :: rest, i, empty =>
      if s.key = key then .found i
      else seek key rest (i + 1) (if empty = none ∧ s.key = 0 then some i else empty)

/-- Write back a chain. -/
def Hashtable.setChain (h : Hashtable) (b : Nat) (c : Chain Addr Val) : Hashtable :=
  { h with table := Function.update h.table b c }

/-- `clht_bucket_create_stats`, less the bucket: count the expansion, and say whether
    it is the one that calls for a resize. -/
def clhtBucketCreateStats (h : Hashtable) : Hashtable × Bool :=
  let n := (h.numExpands + 1) % 2 ^ 32
  ({ h with numExpands := n }, n = h.numExpandsThreshold)

/-- Write an entry into the vacant slot `empty` of bucket `bin`, or into a new overflow
    bucket; with the slot used and the `resize` flag. -/
def insertSlot (h : Hashtable) (bin : Nat) (key : Addr) (val : Val) :
    Option Nat → Hashtable × Nat × Bool
  | some i => (h.setChain bin ((h.table bin).set i ⟨key, val⟩), i, false)
  | none =>
      let (h', resize) := clhtBucketCreateStats h
      (h'.setChain bin (h.table bin ++ bucketWith key val), (h.table bin).length, resize)

/-- `clht_lp_put_seq`. -/
def clhtLpPutSeq (h : Hashtable) (key : Addr) (val : Val) (bin : Nat) : Hashtable :=
  (insertSlot h bin key val (findSlot 0 (h.table bin))).1

/-- The body of the copy loop of `bucket_cpy`. -/
def cpySlot (htNew : Hashtable) (s : Slot Addr Val) : Hashtable :=
  if s.key = 0 then htNew else clhtLpPutSeq htNew s.key s.val (clhtLpHash htNew s.key)

/-- `bucket_cpy`: both tables afterwards.  A bucket that is already in resize state is
    skipped, one that is locked is waited for. -/
def bucketCpy (h htNew : Hashtable) (b : Nat) : Option (Hashtable × Hashtable) :=
  match h.lock b with
  | .free =>
      some ({ h with lock := Function.update h.lock b .resize },
        (h.table b).foldl cpySlot htNew)
  | .update => none
  | .resize => some (h, htNew)

/-- The copy loop of `ht_resize_pes` over the first `n` buckets. -/
def copyBuckets : Nat → Hashtable → Hashtable → Option (Hashtable × Hashtable)
  | 0, h, htNew => some (h, htNew)
  | n + 1, h, htNew => (copyBuckets n h htNew).bind fun (h, htNew) => bucketCpy h htNew n

/-- How many buckets that loop visits.  `b` is an `int32_t`: what follows `2 ^ 31 - 1` is
    negative, and as a `size_t` no longer below `num_buckets`. -/
def bucketsVisited (numBuckets : Nat) : Nat := min numBuckets (2 ^ 31)

/-- `clht_lp_size`. -/
def clhtLpSize (h : Hashtable) : Nat :=
  ((List.range h.numBuckets).map fun b => (h.table b).countP fun s => s.key ≠ 0).sum

/-- `expands_max` of `ht_status`: the longest chain's overflow buckets. -/
def expandsMax (h : Hashtable) : Nat :=
  ((List.range h.numBuckets).map fun b =>
    (h.table b).length / entriesPerBucket - 1).foldl max 0

/-- `pow2roundup`. -/
def pow2roundup (x : UInt32) : UInt32 :=
  if x = 0 then 1
  else
    let x := x - 1
    let x := x ||| x >>> 1
    let x := x ||| x >>> 2
    let x := x ||| x >>> 4
    let x := x ||| x >>> 8
    let x := x ||| x >>> 16
    x + 1

/-- `inc_by_pow2` of `ht_status`, from the quotient of `full_ratio` and
    `CLHT_OCCUP_AFTER_RES`. -/
def incByPow2 (incBy : Nat) : Int :=
  let p := (pow2roundup (UInt32.ofNat incBy)).toBitVec.toInt
  if p = 1 then 2 else p

/-- What `ht_status` decides: the arguments `is_increase` and `by` of its call of
    `ht_resize_pes`, if it makes one.  `full_ratio` is `100 * size / capacity`, taken
    exactly. -/
def statusResize (numBuckets size expandsMax : Nat) (resizeIncrease : Bool) :
    Option (Bool × Int) :=
  let capacity := numBuckets * entriesPerBucket
  if 0 < size ∧ 100 * size < 5 * capacity then some (false, 33)
  else if 50 * capacity < 100 * size ∨ 24 < expandsMax ∨ resizeIncrease then
    some (true, incByPow2 (100 * size / (40 * capacity)))
  else none

/-! ## The whole structure -/

/-- `clht_lp_t`, with all tables ever created, the lock objects allocated by puts, and
    the lines printed by `ht_resize_pes` (the old and the new number of buckets). -/
structure Clht where
  tab : Nat → Hashtable
  numTabs : Nat
  ht : Nat
  resizeLock : Bool
  statusLock : Bool
  objs : List PutType
  out : List (Nat × Nat)

/-- The current table. -/
def Clht.cur (h : Clht) : Hashtable := h.tab h.ht

/-- Write back a table. -/
def Clht.setTab (h : Clht) (t : Nat) (T : Hashtable) : Clht :=
  { h with tab := Function.update h.tab t T }

/-- Write a lock byte. -/
def Clht.setLock (h : Clht) (t b : Nat) (l : BucketLock) : Clht :=
  h.setTab t { h.tab t with lock := Function.update (h.tab t).lock b l }

/-- `malloc` and initialise a lock object of the given kind. -/
def newLock (type : PutType) (h : Clht) : Clht × Val :=
  ({ h with objs := h.objs ++ [type] }, h.objs.length + 1)

/-- No lock object: what `clht_lp_put_in` stores. -/
def noLock (h : Clht) : Clht × Val := (h, 0)

/-- `clht_lp_create`. -/
def clhtLpCreate (numBuckets : Nat) : Option Clht :=
  (clhtLpHashtableCreate numBuckets).map fun T => {
    tab := fun _ => T
    numTabs := 1
    ht := 0
    resizeLock := false
    statusLock := false
    objs := []
    out := [] }

/-- A slot: its table, its bucket, and its place in the chain. -/
structure SlotPtr where
  tab : Nat
  bin : Nat
  idx : Nat
  deriving DecidableEq

/-- `num_buckets_new` of `ht_resize_pes`; `by` is an `int`, the product a `size_t`. -/
def numBucketsNew (numBuckets : Nat) (isIncrease : Bool) (by_ : Int) : Nat :=
  if isIncrease then (by_ * numBuckets % 2 ^ 64).toNat else numBuckets / 8

/-- The end of a resize: `ht_new` becomes the current table, and the old one learns of
    it. -/
def Clht.publish (h : Clht) (htOld htNew : Hashtable) : Clht :=
  { (h.setTab h.ht { htOld with tableNew := some h.numTabs }).setTab h.numTabs
      { htNew with tablePrev := some h.ht } with
    numTabs := h.numTabs + 1
    ht := h.numTabs
    resizeLock := false }

/-- `ht_resize_pes`, with the `ht_status` it calls when it must resize again. -/
def htResizePes (htStatus : Clht → Clht × Option Nat) (h : Clht) (isIncrease : Bool)
    (by_ : Int) : Clht × Option Int :=
  let htOld := h.cur
  if h.resizeLock then (h, some 0)
  else
    let n := numBucketsNew htOld.numBuckets isIncrease by_
    let h := { h with resizeLock := true, out := h.out ++ [(htOld.numBuckets, n)] }
    match clhtLpHashtableCreate n with
    | none => (h, none)
    | some htNew =>
        match copyBuckets (bucketsVisited htOld.numBuckets) htOld
            { htNew with version := htOld.version + 1 } with
        | none => (h, none)
        | some (htOld, htNew) =>
            let again := htNew.numExpandsThreshold ≤ htNew.numExpands
            let h := h.publish htOld htNew
            if again then
              let (h, r) := htStatus h
              (h, r.map fun _ => 1)
            else (h, some 1)

/-- `ht_status`, less its printing mode. -/
def htStatus : Nat → Clht → Bool → Clht × Option Nat
  | 0, h, _ => (h, none)
  | fuel + 1, h, resizeIncrease =>
      let hashtable := h.cur
      if h.statusLock ∧ !resizeIncrease then (h, some 0)
      else
        let h := { h with statusLock := true }
        let size := clhtLpSize hashtable
        match statusResize hashtable.numBuckets size (expandsMax hashtable)
            resizeIncrease with
        | none => ({ h with statusLock := false }, some size)
        | some (isIncrease, by_) =>
            match htResizePes (htStatus fuel · true) h isIncrease by_ with
            | (h, some _) => ({ h with statusLock := false }, some size)
            | (h, none) => (h, none)

/-- `while (!LOCK_ACQ(lock, hashtable)) { ... }`: the bucket that gets locked and the
    table.  Alone, a thread that finds the byte in update state, or in resize state in a
    table without a successor, spins for ever. -/
def lockAcq (h : Clht) (key : Addr) (t b hashtable : Nat) : Option (Nat × Nat × Nat) :=
  match (h.tab t).lock b with
  | .free => some (t, b, hashtable)
  | .update => none
  | .resize =>
      if (h.tab hashtable).tableNew = none then none
      else if h.cur.lock (clhtLpHash h.cur key) = .free then
        some (h.ht, clhtLpHash h.cur key, h.ht)
      else none

/-- What a put under the lock comes to: the key was there, or is now. -/
inductive PutResult where
  | present (p : SlotPtr)
  | inserted (p : SlotPtr) (val : Val)
  deriving DecidableEq

/-- The locked part that `clht_lp_put_impl`, `clht_lp_put_init` and `clht_lp_put_in`
    have in common: lock bucket `(t, b)`, search, insert what `create` makes, unlock,
    and resize if this expansion calls for it. -/
def putLocked (fuel : Nat) (h : Clht) (key : Addr) (t b : Nat)
    (create : Clht → Clht × Val) : Clht × Option PutResult :=
  match lockAcq h key t b h.ht with
  | none => (h, none)
  | some (t, b, hashtable) =>
      let h := h.setLock t b .update
      match seek key ((h.tab t).table b) 0 none with
      | .found i => (h.setLock t b .free, some (.present ⟨t, b, i⟩))
      | .absent empty =>
          let (h, val) := create h
          let (T, i, resize) := insertSlot (h.tab hashtable) b key val empty
          let h := (h.setTab hashtable T).setLock t b .free
          if resize then
            let (h, r) := htStatus fuel h true
            (h, r.map fun _ => .inserted ⟨t, b, i⟩ val)
          else (h, some (.inserted ⟨t, b, i⟩ val))

/-- `*p`. -/
def Clht.read (h : Clht) (p : SlotPtr) : Val := slotVal ((h.tab p.tab).table p.bin) p.idx

/-- `clht_lp_put_impl`. -/
def clhtLpPutImpl (fuel : Nat) (h : Clht) (t b : Nat) (key : Addr) (type : PutType) :
    Clht × Option Val :=
  let (h, r) := putLocked fuel h key t b (newLock type)
  (h, r.map fun
    | .present p => h.read p
    | .inserted _ val => val)

/-- `clht_lp_put_type`. -/
def clhtLpPutType (fuel : Nat) (h : Clht) (key : Addr) (type : PutType) :
    Clht × Option Val :=
  let bin := clhtLpHash h.cur key
  let currVal := bucketExists key (h.cur.table bin)
  if currVal ≠ 0 then (h, some currVal) else clhtLpPutImpl fuel h h.ht bin key type

/-- `clht_lp_put_init`. -/
def clhtLpPutInit (fuel : Nat) (h : Clht) (key : Addr) : Clht × Option Int :=
  let (h, r) := putLocked fuel h key h.ht (clhtLpHash h.cur key) (newLock .adaptive)
  (h, r.map fun
    | .present _ => 1
    | .inserted _ _ => 0)

/-- `clht_lp_put_in`. -/
def clhtLpPutIn (fuel : Nat) (h : Clht) (key : Addr) : Clht × Option SlotPtr :=
  match clhtLpGetIn h.cur key with
  | some (b, i) => (h, some ⟨h.ht, b, i⟩)
  | none =>
      let (h, r) := putLocked fuel h key h.ht (clhtLpHash h.cur key) noLock
      (h, r.map fun
        | .present p => p
        | .inserted p _ => p)

/-- `clht_lp_remove`. -/
def clhtLpRemove (h : Clht) (key : Addr) : Clht × Option Val :=
  match lockAcq h key h.ht (clhtLpHash h.cur key) h.ht with
  | none => (h, none)
  | some (t, b, _) =>
      let h := h.setLock t b .update
      let c := (h.tab t).table b
      match findSlot key c with
      | some i =>
          let T := (h.tab t).setChain b (c.set i ⟨0, slotVal c i⟩)
          ((h.setTab t T).setLock t b .free, some (slotVal c i))
      | none => (h.setLock t b .free, some 0)

end ClhtLp
