import Lockin.ClhtLp
import Lockin.Interleaving

/-! # The hash table of lock objects, run by many threads

    `clht_lock_pointer.c` and the in-table TAS locks of `gls.c`, one access to shared
    memory a step.  The data are those of `ClhtLp`; what is new is where a thread
    stands in its call.

    * A search without the lock looks at one key a step.  The search of a put is one step:
      the lock byte keeps all other threads from the keys of the bucket.
    * A resizer builds the new table in its own memory, entry by entry, until it stores
      the table to `h->ht`.
    * `ht_status` and `ht_resize_pes` call each other; the calls that are still open are
      counted in `Cont`.  Printing and the statistics are left out, apart from `out`.

    `num_buckets` never changes and is read together with the pointer to its table. -/

namespace ClhtLp

open SlotTable

/-- The slot behind a pointer. -/
def Clht.slot (h : Clht) (p : SlotPtr) : Option (Slot Addr Val) :=
  ((h.tab p.tab).table p.bin)[p.idx]?

/-- Write back a slot. -/
def Clht.setSlot (h : Clht) (p : SlotPtr) (s : Slot Addr Val) : Clht :=
  h.setTab p.tab ((h.tab p.tab).setChain p.bin
    (((h.tab p.tab).table p.bin).set p.idx s))

/-- `bucket->val[j] = val`. -/
def Clht.setVal (h : Clht) (p : SlotPtr) (val : Val) : Clht :=
  match h.slot p with
  | some s => h.setSlot p { s with val := val }
  | none => h

/-- `bucket->key[j] = key`. -/
def Clht.setKey (h : Clht) (p : SlotPtr) (key : Addr) : Clht :=
  match h.slot p with
  | some s => h.setSlot p { s with key := key }
  | none => h

end ClhtLp

namespace ClhtLpConc

open Interleaving SlotTable ClhtLp

/-- The calls a thread can make. -/
inductive Call where
  | putType (key : Addr) (type : PutType)
  | putInit (key : Addr)
  | putIn (key : Addr)
  | remove (key : Addr)
  | get (key : Addr)
  | status (resizeIncrease : Bool)
  | resizePes (isIncrease : Bool) (by_ : Int)
  | lockTasIn (key : Addr)
  | trylockTasIn (key : Addr)
  | unlockTasIn (key : Addr)
  deriving DecidableEq

/-- The address a call is about. -/
def Call.key : Call → Addr
  | .putType key _ | .putInit key | .putIn key | .remove key | .get key => key
  | .lockTasIn key | .trylockTasIn key | .unlockTasIn key => key
  | .status _ | .resizePes _ _ => 0

/-- What a call returns: a lock object, a pointer into the table, or a number. -/
inductive Ret where
  | val (v : Val)
  | ptr (p : SlotPtr)
  | num (n : Nat)
  deriving DecidableEq

/-- What follows `LOCK_RLS`. -/
inductive After where
  | ret (r : Ret)
  /-- `return bucket->val[j]`. -/
  | retVal (p : SlotPtr)
  /-- `ht_status(h, 1, 0)`, and then return. -/
  | status (r : Ret)
  deriving DecidableEq

/-- Where the resize machinery returns to: the calls of `ht_status` that are still open,
    and what the thread's own call returns after them. -/
structure Cont where
  depth : Nat
  ret : Ret
  deriving DecidableEq

/-- Where a thread stands. -/
inductive Pc where
  | idle
  /-- `hashtable = h->ht`, and the bucket of the key. -/
  | readHt
  /-- `bucket->key[j] == key`, without the lock. -/
  | search (t b i : Nat)
  /-- `bucket->val[j]`. -/
  | searchVal (p : SlotPtr)
  /-- `clht_lp_put_impl` reads `h->ht` again. -/
  | implHt (t b : Nat)
  /-- The CAS of `lock_acq_chk_resize`. -/
  | lockAcq (t b hashtable : Nat)
  /-- `while (h->table_new == NULL)`. -/
  | waitNew (hashtable : Nat)
  /-- `hashtable = h->ht` after a failed `LOCK_ACQ`. -/
  | retryHt
  /-- The search under the lock. -/
  | seek (t b hashtable : Nat)
  /-- `clht_bucket_create_stats(hashtable, &resize)`. -/
  | expand (t b hashtable : Nat) (val : Val)
  /-- `bucket->next = b`. -/
  | link (t b : Nat) (val : Val) (resize : Bool)
  /-- `*empty_v = val`. -/
  | putVal (p : SlotPtr) (val : Val)
  /-- `*empty = key`. -/
  | putKey (p : SlotPtr) (val : Val)
  /-- `clht_lp_remove` reads the value. -/
  | rmVal (p : SlotPtr)
  /-- `bucket->key[j] = 0`. -/
  | rmKey (p : SlotPtr) (val : Val)
  /-- `LOCK_RLS(lock)`. -/
  | lockRls (t b : Nat) (next : After)
  /-- `return bucket->val[j]` of `clht_lp_put_impl`. -/
  | retVal (p : SlotPtr)
  /-- `TRYLOCK_ACQ(&h->status_lock)`. -/
  | statusTry (resizeIncrease : Bool) (k : Cont)
  /-- `hashtable = h->ht` of `ht_status`. -/
  | statusHt (resizeIncrease : Bool) (k : Cont)
  /-- Slot `i` of bucket `b`. -/
  | statusScan (resizeIncrease : Bool) (t b i size expandsMax : Nat) (k : Cont)
  /-- `TRYLOCK_RLS(h->status_lock)`. -/
  | statusRls (k : Cont)
  /-- `ht_old = h->ht`. -/
  | resizeHt (isIncrease : Bool) (by_ : Int) (k : Cont)
  /-- `TRYLOCK_ACQ(&h->resize_lock)`. -/
  | resizeTry (isIncrease : Bool) (by_ : Int) (htOld : Nat) (k : Cont)
  /-- `clht_lp_hashtable_create(num_buckets_new)`. -/
  | resizeNew (isIncrease : Bool) (by_ : Int) (htOld : Nat) (k : Cont)
  /-- The CAS of `lock_acq_resize` on bucket `b`. -/
  | cpyLock (htOld : Nat) (htNew : Hashtable) (b : Nat) (k : Cont)
  /-- Slot `i` of bucket `b`, locked by `bucket_cpy`. -/
  | cpySlot (htOld : Nat) (htNew : Hashtable) (b i : Nat) (k : Cont)
  /-- `SWAP_U64(h, ht_new)`. -/
  | swap (htOld : Nat) (htNew : Hashtable) (k : Cont)
  /-- `ht_old->table_new = ht_new`. -/
  | tableNew (htOld htNew : Nat) (again : Bool) (k : Cont)
  /-- `TRYLOCK_RLS(h->resize_lock)`. -/
  | resizeRls (again : Bool) (k : Cont)
  /-- The call on the table has returned. -/
  | ret (r : Ret)
  /-- `GLS_CAS(lock, GLS_TAS_FREE, GLS_TAS_LOCKED)`. -/
  | tasCas (p : SlotPtr)
  /-- `*lock = GLS_TAS_FREE`. -/
  | tasStore (p : SlotPtr)
  /-- `NULL` has been followed. -/
  | crash

/-- A thread, with the in-table locks it holds and the calls that have returned. -/
structure Local where
  pc : Pc
  call : Call
  held : List Addr
  log : List (Call × Ret)

inductive Act where
  | start (call : Call)
  | go
  deriving DecidableEq

/-! ## The parts of a step -/

/-- Go on at `pc`. -/
def Local.goto (l : Local) (pc : Pc) : Local := { l with pc := pc }

/-- The call returns `r`. -/
def Local.finish (l : Local) (r : Ret) : Local :=
  { l with pc := .idle, log := (l.call, r) :: l.log }

/-- Where a call starts. -/
def Call.entry : Call → Pc
  | .status resizeIncrease => .statusTry resizeIncrease ⟨0, .num 0⟩
  | .resizePes isIncrease by_ => .resizeHt isIncrease by_ ⟨0, .num 0⟩
  | _ => .readHt

/-- After `hashtable = h->ht`: the table and the bucket of the key. -/
def Call.begun (t b : Nat) : Call → Pc
  | .putInit _ | .remove _ => .lockAcq t b t
  | _ => .search t b 0

/-- The search without the lock has found the key. -/
def Call.hit (p : SlotPtr) : Call → Pc
  | .putIn _ | .lockTasIn _ | .trylockTasIn _ => .ret (.ptr p)
  | .unlockTasIn _ => .tasStore p
  | _ => .searchVal p

/-- The search without the lock has come to the end of the bucket. -/
def Call.missed (t b : Nat) : Call → Pc
  | .putType _ _ => .implHt t b
  | .get _ => .ret (.val 0)
  | .unlockTasIn _ => .crash
  | _ => .lockAcq t b t

/-- The search without the lock has read the value. -/
def Call.gotVal (p : SlotPtr) (v : Val) : Call → Pc
  | .putType _ _ => if v ≠ 0 then .ret (.val v) else .implHt p.tab p.bin
  | _ => .ret (.val v)

/-- The search under the lock has found the key. -/
def Call.present (p : SlotPtr) : Call → Pc
  | .putType _ _ => .lockRls p.tab p.bin (.retVal p)
  | .putInit _ => .lockRls p.tab p.bin (.ret (.num 1))
  | .remove _ => .rmVal p
  | _ => .lockRls p.tab p.bin (.ret (.ptr p))

/-- What a put makes for a new key. -/
def Call.create : Call → Clht → Clht × Val
  | .putType _ type => newLock type
  | .putInit _ => newLock .adaptive
  | _ => noLock

/-- The search under the lock has not found the key: where it goes to from there, with
    what it has made. -/
def Call.absent (t b hashtable : Nat) (empty : Option Nat) (val : Val) : Call → Pc
  | .remove _ => .lockRls t b (.ret (.val 0))
  | _ =>
      match empty with
      | some i => .putVal ⟨t, b, i⟩ val
      | none => .expand t b hashtable val

/-- What a put returns for a new entry. -/
def Call.inserted (p : SlotPtr) (val : Val) : Call → Ret
  | .putType _ _ => .val val
  | .putInit _ => .num 0
  | _ => .ptr p

/-- Where `LOCK_RLS` leads to. -/
def After.pc : After → Pc
  | .ret r => .ret r
  | .retVal p => .retVal p
  | .status r => .statusTry true ⟨0, r⟩

/-- Back from `ht_resize_pes`, or from an `ht_status` called by it. -/
def Cont.back (k : Cont) : Pc := if k.depth = 0 then .ret k.ret else .statusRls k

/-- One more call of `ht_status` is open. -/
def Cont.open (k : Cont) : Cont := { k with depth := k.depth + 1 }

/-- An `ht_status` is done. -/
def Cont.close (k : Cont) : Cont := { k with depth := k.depth - 1 }

/-- `ht_status` has found `size` entries; only its direct caller is told. -/
def Cont.sized (call : Call) (size : Nat) (k : Cont) : Cont :=
  match call with
  | .status _ => if k.depth = 0 then { k with ret := .num size } else k
  | _ => k

/-- `ht_resize_pes` has won the lock and will return 1. -/
def Cont.won (k : Cont) : Cont := if k.depth = 0 then { k with ret := .num 1 } else k

/-- The GLS call goes on with the pointer, and every other call returns. -/
def Call.returned (l : Local) (r : Ret) : Call → Local
  | .lockTasIn _ | .trylockTasIn _ =>
      match r with
      | .ptr p => l.goto (.tasCas p)
      | _ => l.goto .crash
  | _ => l.finish r

/-! ## One step -/

/-- The next access of a thread to shared memory. -/
def go (h : Clht) (l : Local) : Pc → Option (Clht × Local)
  | .idle | .crash => none
  | .readHt => some (h, l.goto (l.call.begun h.ht (clhtLpHash h.cur l.call.key)))
  | .search t b i =>
      match ((h.tab t).table b)[i]? with
      | some s =>
          if s.key = l.call.key then some (h, l.goto (l.call.hit ⟨t, b, i⟩))
          else some (h, l.goto (.search t b (i + 1)))
      | none => some (h, l.goto (l.call.missed t b))
  | .searchVal p => some (h, l.goto (l.call.gotVal p (h.read p)))
  | .implHt t b => some (h, l.goto (.lockAcq t b h.ht))
  | .lockAcq t b hashtable =>
      match (h.tab t).lock b with
      | .free => some (h.setLock t b .update, l.goto (.seek t b hashtable))
      | .update => some (h, l)
      | .resize => some (h, l.goto (.waitNew hashtable))
  | .waitNew hashtable =>
      if (h.tab hashtable).tableNew = none then some (h, l) else some (h, l.goto .retryHt)
  | .retryHt => some (h, l.goto (.lockAcq h.ht (clhtLpHash h.cur l.call.key) h.ht))
  | .seek t b hashtable =>
      match seek l.call.key ((h.tab t).table b) 0 none with
      | .found i => some (h, l.goto (l.call.present ⟨t, b, i⟩))
      | .absent empty =>
          some ((l.call.create h).1,
            l.goto (l.call.absent t b hashtable empty (l.call.create h).2))
  | .expand t b hashtable val =>
      some (h.setTab hashtable (clhtBucketCreateStats (h.tab hashtable)).1,
        l.goto (.link t b val (clhtBucketCreateStats (h.tab hashtable)).2))
  | .link t b val resize =>
      let r := l.call.inserted ⟨t, b, ((h.tab t).table b).length⟩ val
      some (h.setTab t ((h.tab t).setChain b
          ((h.tab t).table b ++ bucketWith l.call.key val)),
        l.goto (.lockRls t b (if resize then .status r else .ret r)))
  | .putVal p val => some (h.setVal p val, l.goto (.putKey p val))
  | .putKey p val =>
      some (h.setKey p l.call.key,
        l.goto (.lockRls p.tab p.bin (.ret (l.call.inserted p val))))
  | .rmVal p => some (h, l.goto (.rmKey p (h.read p)))
  | .rmKey p val => some (h.setKey p 0, l.goto (.lockRls p.tab p.bin (.ret (.val val))))
  | .lockRls t b next => some (h.setLock t b .free, l.goto next.pc)
  | .retVal p => some (h, l.goto (.ret (.val (h.read p))))
  | .statusTry resizeIncrease k =>
      some ({ h with statusLock := true },
        l.goto (if h.statusLock ∧ !resizeIncrease then k.back else .statusHt resizeIncrease k))
  | .statusHt resizeIncrease k => some (h, l.goto (.statusScan resizeIncrease h.ht 0 0 0 0 k))
  | .statusScan resizeIncrease t b i size expandsMax k =>
      if b < (h.tab t).numBuckets then
        match ((h.tab t).table b)[i]? with
        | some s =>
            some (h, l.goto (.statusScan resizeIncrease t b (i + 1)
              (if s.key ≠ 0 then size + 1 else size) expandsMax k))
        | none =>
            some (h, l.goto (.statusScan resizeIncrease t (b + 1) 0 size
              (max expandsMax (i / entriesPerBucket - 1)) k))
      else
        match statusResize (h.tab t).numBuckets size expandsMax resizeIncrease with
        | some (isIncrease, by_) =>
            some (h, l.goto (.resizeHt isIncrease by_ (k.sized l.call size).open))
        | none => some (h, l.goto (.statusRls (k.sized l.call size).open))
  | .statusRls k => some ({ h with statusLock := false }, l.goto k.close.back)
  | .resizeHt isIncrease by_ k => some (h, l.goto (.resizeTry isIncrease by_ h.ht k))
  | .resizeTry isIncrease by_ htOld k =>
      if h.resizeLock then some (h, l.goto k.back)
      else some ({ h with resizeLock := true }, l.goto (.resizeNew isIncrease by_ htOld k.won))
  | .resizeNew isIncrease by_ htOld k =>
      let n := numBucketsNew (h.tab htOld).numBuckets isIncrease by_
      match clhtLpHashtableCreate n with
      | none => some ({ h with out := h.out ++ [((h.tab htOld).numBuckets, n)] }, l.goto .crash)
      | some htNew =>
          some ({ h with out := h.out ++ [((h.tab htOld).numBuckets, n)] },
            l.goto (.cpyLock htOld { htNew with version := (h.tab htOld).version + 1 } 0 k))
  | .cpyLock htOld htNew b k =>
      if b < bucketsVisited (h.tab htOld).numBuckets then
        match (h.tab htOld).lock b with
        | .free => some (h.setLock htOld b .resize, l.goto (.cpySlot htOld htNew b 0 k))
        | .update => some (h, l)
        | .resize => some (h, l.goto (.cpyLock htOld htNew (b + 1) k))
      else some (h, l.goto (.swap htOld htNew k))
  | .cpySlot htOld htNew b i k =>
      match ((h.tab htOld).table b)[i]? with
      | some s => some (h, l.goto (.cpySlot htOld (cpySlot htNew s) b (i + 1) k))
      | none => some (h, l.goto (.cpyLock htOld htNew (b + 1) k))
  | .swap htOld htNew k =>
      some ({ h.setTab h.numTabs { htNew with tablePrev := some htOld } with
          numTabs := h.numTabs + 1
          ht := h.numTabs },
        l.goto (.tableNew htOld h.numTabs (htNew.numExpandsThreshold ≤ htNew.numExpands) k))
  | .tableNew htOld htNew again k =>
      some (h.setTab htOld { h.tab htOld with tableNew := some htNew },
        l.goto (.resizeRls again k))
  | .resizeRls again k =>
      some ({ h with resizeLock := false },
        l.goto (if again then .statusTry true k else k.back))
  | .ret r => some (h, l.call.returned l r)
  | .tasCas p =>
      if h.read p = 0 then
        some (h.setVal p 1, { l.finish (.num 0) with held := l.call.key :: l.held })
      else
        match l.call with
        | .trylockTasIn _ => some (h, l.finish (.num 1))
        | _ => some (h, l)
  | .tasStore p =>
      some (h.setVal p 0,
        { l.finish (.num 0) with held := l.held.filter (· ≠ l.call.key) })

/-- A lock is only released by its holder. -/
def Call.enabled (l : Local) : Call → Prop
  | .unlockTasIn key => key ∈ l.held
  | _ => True

instance (l : Local) (call : Call) : Decidable (call.enabled l) := by
  cases call <;> unfold Call.enabled <;> infer_instance

variable {Tid : Type}

/-- The atomic step. -/
def prog : Prog Tid Clht Local Act := fun _ h l a =>
  match a with
  | .start call =>
      match l.pc with
      | .idle =>
          if call.enabled l then some (h, { l with pc := call.entry, call := call }) else none
      | _ => none
  | .go => go h l l.pc

/-- What an allowed action does: a thread outside begins a call, or a thread takes a step. -/
theorem prog_cases {c : Conf Tid Clht Local} {t : Tid} {a : Act} {r : Clht × Local}
    (hs : prog t c.sh (c.loc t) a = some r) :
    (∃ call, a = .start call ∧ (c.loc t).pc = .idle ∧ call.enabled (c.loc t) ∧
      r = (c.sh, { c.loc t with pc := call.entry, call := call })) ∨
    (a = .go ∧ go c.sh (c.loc t) (c.loc t).pc = some r) := by
  cases a with
  | go => exact Or.inr ⟨rfl, hs⟩
  | start call =>
      dsimp only [prog] at hs
      split at hs
      · next hidle =>
        obtain ⟨hen, heq⟩ := Option.ite_none_right_eq_some.mp hs
        exact Or.inl ⟨call, rfl, hidle, hen, (Option.some.inj heq).symm⟩
      · exact nomatch hs

/-- A new table, and all threads outside. -/
structure Init (numBuckets : Nat) (c : Conf Tid Clht Local) : Prop where
  sh : clhtLpCreate numBuckets = some c.sh
  loc : ∀ t, (c.loc t).pc = .idle ∧ (c.loc t).held = [] ∧ (c.loc t).log = []

/-! ## Who is resizing -/

/-- What a thread owes as the holder of `resize_lock`: it copies the table `htOld`, it must
    tell `htOld` its successor, or it has only the lock to release. -/
inductive Duty where
  | none
  | copies (htOld : Nat)
  | tells (htOld : Nat)
  | releases
  deriving DecidableEq

def Pc.duty : Pc → Duty
  | .resizeNew _ _ htOld _ | .cpyLock htOld _ _ _ | .cpySlot htOld _ _ _ _ | .swap htOld _ _ =>
      .copies htOld
  | .tableNew htOld _ _ _ => .tells htOld
  | .resizeRls _ _ => .releases
  | _ => .none

theorem Call.entry_duty (call : Call) : call.entry.duty = .none := by
  cases call <;> rfl

theorem Call.begun_duty (t b : Nat) (call : Call) : (call.begun t b).duty = .none := by
  cases call <;> rfl

theorem Call.hit_duty (p : SlotPtr) (call : Call) : (call.hit p).duty = .none := by
  cases call <;> rfl

theorem Call.missed_duty (t b : Nat) (call : Call) : (call.missed t b).duty = .none := by
  cases call <;> rfl

theorem Call.gotVal_duty (p : SlotPtr) (v : Val) (call : Call) :
    (call.gotVal p v).duty = .none := by
  cases call with
  | putType key type =>
      unfold Call.gotVal
      split_ifs <;> rfl
  | _ => rfl

theorem Call.present_duty (p : SlotPtr) (call : Call) : (call.present p).duty = .none := by
  cases call <;> rfl

theorem Call.absent_duty (t b H : Nat) (e : Option Nat) (v : Val) (call : Call) :
    (call.absent t b H e v).duty = .none := by
  cases call <;> cases e <;> rfl

theorem After.pc_duty (next : After) : next.pc.duty = .none := by
  cases next <;> rfl

theorem Cont.back_duty (k : Cont) : k.back.duty = .none := by
  unfold Cont.back
  split <;> rfl

theorem Call.returned_duty (l : Local) (r : Ret) (call : Call) :
    (call.returned l r).pc.duty = .none := by
  cases call <;> cases r <;> rfl

/-! ## Schedules -/

/-- A new table, and all threads outside. -/
def start (numBuckets : Nat) : Option (Conf Tid Clht Local) :=
  (clhtLpCreate numBuckets).map fun h => ⟨h, fun _ => ⟨.idle, .get 0, [], []⟩⟩

/-- A thread starts a call and makes `n` steps in it. -/
def calls (t : Tid) (call : Call) (n : Nat) : List (Tid × Act) :=
  (t, .start call) :: List.replicate n (t, .go)

/-- What a schedule comes to is reached. -/
theorem reach_of_start [DecidableEq Tid] {ok : Conf Tid Clht Local → Tid → Act → Prop}
    [∀ c t a, Decidable (ok c t a)] {n : Nat} {as : List (Tid × Act)}
    {P : Conf Tid Clht Local → Bool}
    (h : ((start n).bind fun c => exec prog ok c as).any P = true) :
    ∃ c, Reach prog ok (Init n) c ∧ P c = true := by
  cases hd : (start n).bind fun c => exec prog ok c as with
  | none =>
      rw [hd] at h
      exact nomatch h
  | some d =>
      rw [hd] at h
      obtain ⟨c, hc, hx⟩ := Option.bind_eq_some_iff.mp hd
      obtain ⟨g, hg, rfl⟩ := Option.map_eq_some_iff.mp hc
      exact ⟨d, reach_of_exec ⟨hg, fun _ => ⟨rfl, rfl, rfl⟩⟩ hx, h⟩

end ClhtLpConc
