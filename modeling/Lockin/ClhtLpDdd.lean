import Mathlib.Order.Interval.Finset.Nat
import Lockin.FunctionalGraph

/-! # The deadlock detector

    `clht_lp_ddd_check` of `clht_lock_pointer.c`, built with `GLS_DEBUG_DEADLOCK`: the
    thread that has been waiting for long follows the owners of the locks that are waited
    for, and reports a deadlock when it meets itself.

    A slot of the table has the key and the thread that owns the lock, 0 for nobody; the
    threads are numbered from 1.  Nothing changes during the call.  An access outside the
    bounds of `waiting` or `wait_cycle`, and a read of an entry that was not written, is a
    `fault`. -/

namespace ClhtLpDdd

open FunctionalGraph

/-- `clht_lp_addr_t`; 0 is `NULL` and marks a vacant slot. -/
abbrev Addr := Nat

/-- `GLS_MAX_NUM_THREDS`. -/
def maxNumThreads : Nat := 64

/-- What the detector reads of a slot. -/
structure Slot where
  key : Addr
  owner : Nat
  deriving DecidableEq

/-- What the detector reads of a `clht_lp_t`: each bucket with its overflow buckets, and
    the address that each thread waits for. -/
structure Clht where
  numBuckets : Nat
  table : Nat → List (List Slot)
  waiting : Nat → Addr
  ddLock : Bool

/-- An element of `wait_cycle`. -/
structure Entry where
  id : Nat
  waitOn : Addr
  deriving DecidableEq

/-- How a call ends, or that it has not. -/
inductive Outcome where
  | running
  | fault
  | ret
  | deadlock (printed : List Entry)
  deriving DecidableEq

/-- `clht_lp_hash`. -/
def clhtLpHash (h : Clht) (key : Addr) : Nat := (key >>> 2) &&& (h.numBuckets - 1)

/-- `clht_lp_ddd_waiting_get`. -/
def waitingGet (h : Clht) (tid : Nat) : Option Addr :=
  if 1 ≤ tid ∧ tid ≤ maxNumThreads then some (h.waiting (tid - 1)) else none

/-- The loop of `clht_lp_ddd_get_owner`, with its two variables, `owner` and `*lock_owner`.
    It leaves a bucket at the first slot with the key and goes on to the next bucket; an
    owner that is not set makes it return at once. -/
def getOwnerLoop (h : Clht) (key : Addr) : List (List Slot) → Nat → Nat → Option (Addr × Nat)
  | [], owner, lockOwner =>
      if 0 < owner then (waitingGet h owner).map fun addr => (addr, lockOwner)
      else some (0, lockOwner)
  | bucket :: rest, owner, lockOwner =>
      match bucket.find? fun s => s.key = key with
      | none => getOwnerLoop h key rest owner lockOwner
      | some s =>
          if s.owner ≠ 0 then getOwnerLoop h key rest s.owner s.owner
          else some (0, lockOwner)

/-- `clht_lp_ddd_get_owner`: the address its owner waits for, and `*lock_owner`. -/
def getOwner (h : Clht) (key : Addr) (lockOwner : Nat) : Option (Addr × Nat) :=
  getOwnerLoop h key (h.table (clhtLpHash h key)) 0 lockOwner

/-- `wait_cycle[i] = e`. -/
def writeCycle (waitCycle : List (Option Entry)) (i : Nat) (e : Entry) :
    Option (List (Option Entry)) :=
  if i < waitCycle.length then some (waitCycle.set i (some e)) else none

/-- The printing loop: `do { .. } while (twice != 2)`. -/
def printCycle (waitCycle : List (Option Entry)) (myid : Nat) :
    Nat → Nat → Nat → List Entry → Outcome
  | 0, _, _, _ => .running
  | fuel + 1, i, twice, printed =>
      match waitCycle[i]? with
      | some (some e) =>
          let twice := twice + if e.id = myid then 1 else 0
          if twice = 2 then .deadlock (printed ++ [e])
          else printCycle waitCycle myid fuel (i + 1) twice (printed ++ [e])
      | _ => .fault

/-- The loop of `clht_lp_ddd_check`. -/
def checkLoop (h : Clht) (myid : Nat) :
    Nat → List (Option Entry) → Nat → Addr → Nat → Outcome
  | 0, _, _, _, _ => .running
  | fuel + 1, waitCycle, ci, waitOn, owner =>
      match getOwner h waitOn owner with
      | none => .fault
      | some (ownerWaitOn, owner) =>
          match writeCycle waitCycle ci ⟨owner, ownerWaitOn⟩ with
          | none => .fault
          | some waitCycle =>
              if owner = myid then printCycle waitCycle myid fuel 0 0 []
              else if ci + 1 < maxNumThreads ∧ ownerWaitOn ≠ 0 then
                checkLoop h myid fuel waitCycle (ci + 1) ownerWaitOn owner
              else .ret

/-- `clht_lp_ddd_check`, called by thread `myid`. -/
def clhtLpDddCheck (fuel : Nat) (h : Clht) (myid : Nat) : Outcome :=
  if h.ddLock then .ret
  else
    match waitingGet h myid with
    | none => .fault
    | some waitOn =>
        match writeCycle (List.replicate maxNumThreads none) 0 ⟨myid, waitOn⟩ with
        | none => .fault
        | some waitCycle => checkLoop h myid fuel waitCycle 1 waitOn 0

/-! ## The wait-for graph -/

/-- The thread that owns the lock of an address. -/
def ownerOf (h : Clht) (key : Addr) : Option Nat :=
  ((h.table (clhtLpHash h key)).flatten.find? fun s => s.key = key).bind fun s =>
    if s.owner = 0 then none else some s.owner

/-- The thread that a thread waits for. -/
def waitsFor (h : Clht) (tid : Nat) : Option Nat :=
  if h.waiting (tid - 1) = 0 then none else ownerOf h (h.waiting (tid - 1))

/-- At most 64 threads, each lock in one slot, and for a thread that does not wait the
    vacant slots without an owner. -/
structure Frozen (h : Clht) (myid : Nat) : Prop where
  me : 1 ≤ myid ∧ myid ≤ maxNumThreads
  unlocked : h.ddLock = false
  owner : ∀ b, ∀ s ∈ (h.table b).flatten, s.key ≠ 0 → s.owner ≤ maxNumThreads
  distinct : ∀ b, (((h.table b).flatten.filter fun s => s.key ≠ 0).map Slot.key).Nodup
  vacant : h.waiting (myid - 1) = 0 → ∀ s ∈ (h.table 0).flatten, s.key = 0 → s.owner = 0

/-- All threads, one of which is the given one, wait in a circle. -/
def AllInCycle (h : Clht) (myid : Nat) : Prop :=
  ∀ tid, 1 ≤ tid → tid ≤ maxNumThreads → Relation.TransGen (Edge (waitsFor h)) myid tid

/-! ## One lookup -/

theorem waitingGet_of {h : Clht} {tid : Nat} (h1 : 1 ≤ tid) (h2 : tid ≤ maxNumThreads) :
    waitingGet h tid = some (h.waiting (tid - 1)) := if_pos ⟨h1, h2⟩

theorem getOwnerLoop_skip {h : Clht} {key : Addr} {bucket : List Slot}
    (hno : (bucket.find? fun s => s.key = key) = none) (rest : List (List Slot))
    (owner lockOwner : Nat) : getOwnerLoop h key (bucket :: rest) owner lockOwner
      = getOwnerLoop h key rest owner lockOwner := by
  rw [getOwnerLoop, hno]

theorem getOwnerLoop_hit {h : Clht} {key : Addr} {bucket : List Slot} {s : Slot}
    (hfind : (bucket.find? fun s => s.key = key) = some s) (rest : List (List Slot))
    (owner lockOwner : Nat) : getOwnerLoop h key (bucket :: rest) owner lockOwner
      = if s.owner ≠ 0 then getOwnerLoop h key rest s.owner s.owner else some (0, lockOwner) := by
  rw [getOwnerLoop, hfind]

/-- The end of the lookup, once the key is not met again. -/
theorem getOwnerLoop_absent {h : Clht} {key : Addr} {bs : List (List Slot)}
    (hno : ∀ s ∈ bs.flatten, s.key ≠ key) (owner lockOwner : Nat) :
    getOwnerLoop h key bs owner lockOwner = getOwnerLoop h key [] owner lockOwner := by
  induction bs with
  | nil => rfl
  | cons bucket rest ih =>
      have hbucket : (bucket.find? fun s => s.key = key) = none := by
        rw [List.find?_eq_none]
        intro s hs
        simpa using hno s (by simp [hs])
      rw [getOwnerLoop_skip hbucket]
      exact ih fun s hs => hno s (by simp only [List.flatten_cons, List.mem_append, hs, or_true])

/-- The walk over the buckets finds the owner of the address. -/
theorem getOwnerLoop_spec {h : Clht} {key : Addr} (hk : key ≠ 0) (bs : List (List Slot))
    (hd : ((bs.flatten.filter fun s => s.key ≠ 0).map Slot.key).Nodup)
    (ho : ∀ s ∈ bs.flatten, s.key ≠ 0 → s.owner ≤ maxNumThreads) (lockOwner : Nat) :
    getOwnerLoop h key bs 0 lockOwner =
      match (bs.flatten.find? fun s => s.key = key).bind fun s =>
        if s.owner = 0 then none else some s.owner with
      | some u => some (h.waiting (u - 1), u)
      | none => some (0, lockOwner) := by
  induction bs with
  | nil => rfl
  | cons bucket rest ih =>
      rw [List.flatten_cons] at hd ho
      rw [List.filter_append, List.map_append, List.nodup_append] at hd
      rw [List.flatten_cons, List.find?_append]
      rcases hfind : bucket.find? fun s => s.key = key with _ | s
      · rw [hfind, Option.none_or, getOwnerLoop_skip hfind]
        exact ih hd.2.1 fun s hs => ho s (List.mem_append_right _ hs)
      · have hkey : s.key = key := by simpa using List.find?_some hfind
        have hmem := List.mem_of_find?_eq_some hfind
        have hs : s.key ≠ 0 := hkey ▸ hk
        rw [hfind, Option.some_or, Option.bind_some, getOwnerLoop_hit hfind]
        by_cases h0 : s.owner = 0
        · rw [if_neg (not_not.mpr h0), if_pos h0]
        · rw [if_pos h0, if_neg h0]
          have hrest : ∀ s' ∈ rest.flatten, s'.key ≠ key := by
            intro s' hs' heq
            refine hd.2.2 s.key ?_ s'.key ?_ (hkey.trans heq.symm)
            · exact List.mem_map_of_mem (List.mem_filter.mpr ⟨hmem, by simpa using hs⟩)
            · exact List.mem_map_of_mem (List.mem_filter.mpr ⟨hs', by simpa [heq] using hk⟩)
          rw [getOwnerLoop_absent hrest, getOwnerLoop, if_pos (Nat.pos_of_ne_zero h0),
            waitingGet_of (Nat.pos_of_ne_zero h0) (ho s (List.mem_append_left _ hmem) hs)]
          rfl

namespace Frozen

variable {h : Clht} {myid : Nat}

/-- **What a lookup finds**: the owner and what it waits for; or `NULL`, and the variable for
    the owner keeps its value. -/
theorem getOwner_of_ne (hf : Frozen h myid) {key : Addr} (hk : key ≠ 0) (lockOwner : Nat) :
    getOwner h key lockOwner =
      match ownerOf h key with
      | some u => some (h.waiting (u - 1), u)
      | none => some (0, lockOwner) :=
  getOwnerLoop_spec hk _ (hf.distinct _) (hf.owner _) lockOwner

/-- The lookup of `NULL`, which finds vacant slots. -/
theorem getOwner_null (hf : Frozen h myid) (hw : h.waiting (myid - 1) = 0) (lockOwner : Nat) :
    getOwner h 0 lockOwner = some (0, lockOwner) := by
  have hhash : clhtLpHash h 0 = 0 := by
    rw [clhtLpHash, Nat.zero_shiftRight, Nat.zero_and]
  have hmain : ∀ bs : List (List Slot), (∀ s ∈ bs.flatten, s.key = 0 → s.owner = 0) →
      getOwnerLoop h 0 bs 0 lockOwner = some (0, lockOwner) := by
    intro bs
    induction bs with
    | nil => exact fun _ => rfl
    | cons bucket rest ih =>
        intro hvac
        rw [List.flatten_cons] at hvac
        rcases hfind : bucket.find? fun s => s.key = 0 with _ | s
        · rw [getOwnerLoop_skip hfind]
          exact ih fun s hs => hvac s (List.mem_append_right _ hs)
        · have h0 := hvac s (List.mem_append_left _ (List.mem_of_find?_eq_some hfind))
            (by simpa using List.find?_some hfind)
          rw [getOwnerLoop_hit hfind, if_neg (not_not.mpr h0)]
  rw [getOwner, hhash]
  exact hmain _ (hf.vacant hw)

/-- An owner is a thread. -/
theorem waitsFor_range (hf : Frozen h myid) {t u : Nat} (ht : waitsFor h t = some u) :
    1 ≤ u ∧ u ≤ maxNumThreads := by
  unfold waitsFor ownerOf at ht
  split at ht
  · cases ht
  · next hk =>
    obtain ⟨s, hfind, hu⟩ := Option.bind_eq_some_iff.mp ht
    split at hu
    · cases hu
    · next h0 =>
      obtain rfl := Option.some.inj hu
      have hkey : s.key = h.waiting (t - 1) := by simpa using List.find?_some hfind
      exact ⟨Nat.pos_of_ne_zero h0,
        hf.owner _ s (List.mem_of_find?_eq_some hfind) (hkey ▸ hk)⟩

end Frozen

/-! ## The walk -/

/-- `wait_cycle` is written below `ci`, and only its first entry is the caller's. -/
structure Written (myid : Nat) (waitCycle : List (Option Entry)) (ci : Nat) : Prop where
  len : waitCycle.length = maxNumThreads
  entry : ∀ i < ci, ∃ e, waitCycle[i]? = some (some e) ∧ (e.id = myid ↔ i = 0)

/-- One more entry. -/
theorem Written.write {myid ci : Nat} {waitCycle : List (Option Entry)}
    (h : Written myid waitCycle ci) (hci : ci < maxNumThreads) (e : Entry) :
    writeCycle waitCycle ci e = some (waitCycle.set ci (some e)) ∧
      (waitCycle.set ci (some e))[ci]? = some (some e) ∧
      ∀ i < ci, (waitCycle.set ci (some e))[i]? = waitCycle[i]? := by
  have hlt : ci < waitCycle.length := h.len ▸ hci
  refine ⟨if_pos hlt, ?_, ?_⟩
  · rw [List.getElem?_set_self hlt]
  · intro i hi
    rw [List.getElem?_set_ne (Nat.ne_of_gt hi)]

/-- The printing loop stops at the second entry of the caller. -/
theorem printCycle_deadlock {myid ci : Nat} {waitCycle : List (Option Entry)}
    (hentry : ∀ i ≤ ci, ∃ e, waitCycle[i]? = some (some e) ∧ (e.id = myid ↔ i = 0 ∨ i = ci))
    (hpos : 0 < ci) (fuel i : Nat) (hi : i ≤ ci) (hfuel : ci < fuel + i) (printed : List Entry) :
    ∃ p, printCycle waitCycle myid fuel i (if i = 0 then 0 else 1) printed = .deadlock p := by
  induction fuel generalizing i printed with
  | zero => omega
  | succ fuel ih =>
      obtain ⟨e, he, hid⟩ := hentry i hi
      rw [printCycle, he]
      dsimp only
      by_cases hlast : i = ci
      · rw [if_pos (hid.mpr (Or.inr hlast)), if_neg (by omega : ¬ i = 0)]
        exact ⟨_, rfl⟩
      · have htwice : (if i = 0 then 0 else 1) + (if e.id = myid then 1 else 0) = 1 := by
          by_cases h0 : i = 0
          · rw [if_pos h0, if_pos (hid.mpr (Or.inl h0))]
          · rw [if_neg h0, if_neg (fun h => (hid.mp h).elim h0 hlast)]
        rw [htwice, if_neg (by omega)]
        have hnext := ih (i + 1) (by omega) (by omega) (printed ++ [e])
        rwa [if_neg (Nat.succ_ne_zero i)] at hnext

/-- The loop is about to look up what thread `t` waits for, the last one of the walk so far,
    in which the caller has not come back. -/
structure Walked (h : Clht) (myid : Nat) (waitCycle : List (Option Entry)) (ci : Nat)
    (waitOn owner t : Nat) : Prop where
  written : Written myid waitCycle ci
  range : 1 ≤ ci ∧ ci < maxNumThreads
  here : walk (waitsFor h) myid (ci - 1) = some t
  awaits : waitOn = h.waiting (t - 1)
  other : owner ≠ myid
  away : ∀ k, k + 1 < ci → walk (waitsFor h) myid (k + 1) ≠ some myid
  waits : waitOn = 0 → t = myid

/-- The caller comes back to itself within 63 steps. -/
def ShortCycle (h : Clht) (myid : Nat) : Prop :=
  ∃ k < maxNumThreads - 1, walk (waitsFor h) myid (k + 1) = some myid

/-- What the caller is told. -/
def Answer (h : Clht) (myid : Nat) (o : Outcome) : Prop :=
  (∃ p, o = .deadlock p) ∧ ShortCycle h myid ∨ o = .ret ∧ ¬ ShortCycle h myid

namespace Walked

variable {h : Clht} {myid ci waitOn owner t : Nat} {waitCycle : List (Option Entry)}

/-- What the next lookup yields. -/
theorem lookup (hw : Walked h myid waitCycle ci waitOn owner t) (hf : Frozen h myid) :
    getOwner h waitOn owner = match waitsFor h t with
      | some u => some (h.waiting (u - 1), u)
      | none => some (0, owner) := by
  unfold waitsFor
  rw [← hw.awaits]
  by_cases h0 : waitOn = 0
  · rw [if_pos h0, h0]
    refine hf.getOwner_null ?_ owner
    rw [← hw.waits h0, ← hw.awaits, h0]
  · rw [if_neg h0]
    exact hf.getOwner_of_ne h0 owner

/-- The walk has come to an end without the caller. -/
theorem not_shortCycle (hw : Walked h myid waitCycle ci waitOn owner t)
    (hend : walk (waitsFor h) myid ci = none) : ¬ ShortCycle h myid := by
  rintro ⟨k, -, hk⟩
  by_cases hlt : k + 1 < ci
  · exact hw.away k hlt hk
  · rw [walk_end hend (Nat.le_of_not_lt hlt)] at hk
    cases hk

end Walked

/-- **The loop**, with the walk so far. -/
theorem checkLoop_answer {h : Clht} {myid : Nat} (hf : Frozen h myid) (fuel : Nat)
    {waitCycle : List (Option Entry)} {ci waitOn owner t : Nat}
    (hw : Walked h myid waitCycle ci waitOn owner t)
    (hfuel : 2 * maxNumThreads ≤ fuel + ci) :
    Answer h myid (checkLoop h myid fuel waitCycle ci waitOn owner) := by
  induction fuel generalizing waitCycle ci waitOn owner t with
  | zero =>
      have := hw.range.2
      omega
  | succ fuel ih =>
      obtain ⟨hpos, hlt⟩ := hw.range
      have hstep : walk (waitsFor h) myid ci = waitsFor h t := by
        rw [← Nat.sub_add_cancel hpos]
        exact walk_succ_of hw.here
      rw [checkLoop, hw.lookup hf]
      rcases hnext : waitsFor h t with _ | u
      · -- nobody owns the lock, or the caller does not wait
        obtain ⟨hwrite, -, -⟩ := hw.written.write hlt ⟨owner, 0⟩
        dsimp only
        rw [hwrite]
        dsimp only
        rw [if_neg hw.other, if_neg (by simp)]
        exact Or.inr ⟨rfl, hw.not_shortCycle (hstep.trans hnext)⟩
      · obtain ⟨hwrite, hself, hold⟩ := hw.written.write hlt ⟨u, h.waiting (u - 1)⟩
        have hu := hstep.trans hnext
        dsimp only
        rw [hwrite]
        dsimp only
        by_cases hme : u = myid
        · rw [if_pos hme]
          subst hme
          refine Or.inl ⟨?_, ci - 1, Nat.sub_lt_sub_right hpos hlt, ?_⟩
          · refine printCycle_deadlock (fun i hi => ?_) hpos fuel 0 (Nat.zero_le _)
              (by omega) []
            rcases Nat.lt_or_eq_of_le hi with hi | rfl
            · obtain ⟨e, he, hid⟩ := hw.written.entry i hi
              exact ⟨e, (hold i hi).trans he, hid.trans (by omega)⟩
            · exact ⟨_, hself, iff_of_true rfl (Or.inr rfl)⟩
          · rw [Nat.sub_add_cancel hpos, hu]
        · rw [if_neg hme]
          by_cases hmore : ci + 1 < maxNumThreads ∧ h.waiting (u - 1) ≠ 0
          · rw [if_pos hmore]
            refine ih (t := u) ⟨?_, ⟨Nat.succ_pos _, hmore.1⟩, hu, rfl, hme, ?_,
              fun h0 => absurd h0 hmore.2⟩ (by omega)
            · refine ⟨by rw [List.length_set, hw.written.len], fun i hi => ?_⟩
              rcases Nat.lt_succ_iff_lt_or_eq.mp hi with hi | rfl
              · rw [hold i hi]
                exact hw.written.entry i hi
              · exact ⟨_, hself, iff_of_false hme (Nat.ne_of_gt hpos)⟩
            · intro k hk hback
              rcases Nat.lt_succ_iff_lt_or_eq.mp hk with hk | rfl
              · exact hw.away k hk hback
              · rw [hu] at hback
                exact hme (Option.some.inj hback)
          · rw [if_neg hmore]
            refine Or.inr ⟨rfl, ?_⟩
            rintro ⟨k, hk, hback⟩
            rcases Nat.lt_trichotomy (k + 1) ci with hk' | rfl | hk'
            · exact hw.away k hk' hback
            · rw [hu] at hback
              exact hme (Option.some.inj hback)
            · -- there is room, so `u` does not wait
              have h0 : h.waiting (u - 1) = 0 := by
                by_contra hne
                exact hmore ⟨by omega, hne⟩
              have hend : walk (waitsFor h) myid (ci + 1) = none :=
                (walk_succ_of hu).trans (if_pos h0)
              rw [walk_end hend hk'] at hback
              cases hback

/-- **What `clht_lp_ddd_check` tells the caller**: it comes back, without an access out of
    bounds, and reports a deadlock if the caller waits for itself within 63 steps. -/
theorem clhtLpDddCheck_answer {h : Clht} {myid : Nat} (hf : Frozen h myid) {fuel : Nat}
    (hfuel : 2 * maxNumThreads ≤ fuel) : Answer h myid (clhtLpDddCheck fuel h myid) := by
  have hwrite : writeCycle (List.replicate maxNumThreads none) 0 ⟨myid, h.waiting (myid - 1)⟩
      = some (some ⟨myid, h.waiting (myid - 1)⟩ :: List.replicate (maxNumThreads - 1) none) := rfl
  rw [clhtLpDddCheck, hf.unlocked, if_neg Bool.false_ne_true, waitingGet_of hf.me.1 hf.me.2]
  dsimp only
  rw [hwrite]
  refine checkLoop_answer hf fuel (t := myid) ⟨⟨rfl, ?_⟩, by decide, rfl, rfl, ?_, ?_, fun _ => rfl⟩
    (by omega)
  · intro i hi
    obtain rfl : i = 0 := by omega
    exact ⟨_, rfl, iff_of_true rfl rfl⟩
  · exact (Nat.ne_of_gt hf.me.1).symm
  · intro k hk
    omega

/-- Whom the caller waits for, in however many steps, is a thread. -/
theorem Frozen.mem_threads {h : Clht} {myid : Nat} (hf : Frozen h myid) {tid : Nat}
    (ht : Relation.TransGen (Edge (waitsFor h)) myid tid) : tid ∈ Finset.Icc 1 maxNumThreads := by
  rw [Finset.mem_Icc]
  cases ht with
  | single hedge => exact hf.waitsFor_range hedge
  | tail _ hedge => exact hf.waitsFor_range hedge

/-- **The deadlock detector**: with any wait-for graph of at most 64 threads, the call comes
    back without an access out of bounds; and it reports a deadlock exactly if the caller
    lies on a cycle, unless all 64 threads wait in one circle. -/
theorem clhtLpDddCheck_exact {h : Clht} {myid : Nat} (hf : Frozen h myid) {fuel : Nat}
    (hfuel : 2 * maxNumThreads ≤ fuel) :
    ((∃ p, clhtLpDddCheck fuel h myid = .deadlock p) ∨ clhtLpDddCheck fuel h myid = .ret) ∧
    (((∃ p, clhtLpDddCheck fuel h myid = .deadlock p) ↔ OnCycle (waitsFor h) myid) ↔
      ¬ AllInCycle h myid) := by
  have hanswer := clhtLpDddCheck_answer hf hfuel
  have hall : AllInCycle h myid ↔ ∀ tid ∈ Finset.Icc 1 maxNumThreads,
      Relation.TransGen (Edge (waitsFor h)) myid tid := by
    simp only [AllInCycle, Finset.mem_Icc, and_imp]
  have hshort : (∃ p, clhtLpDddCheck fuel h myid = .deadlock p) ↔ ShortCycle h myid := by
    rcases hanswer with ⟨hdead, hcyc⟩ | ⟨hret, hno⟩
    · exact iff_of_true hdead hcyc
    · refine iff_of_false ?_ hno
      rintro ⟨p, hp⟩
      cases hret.symm.trans hp
  refine ⟨hanswer.imp And.left And.left, ?_⟩
  rw [hshort, hall]
  exact short_walk_iff (Finset.mem_Icc.mpr hf.me) (Nat.card_Icc 1 maxNumThreads)
    fun _ => hf.mem_threads

/-- A table of one bucket and its overflow buckets. -/
def oneBucket (locks : List (List Slot)) (waiting : Nat → Addr) : Clht :=
  ⟨1, fun b => if b = 0 then locks else [], waiting, false⟩

/-- A table with one bucket. -/
theorem oneBucket_frozen {locks : List (List Slot)} {waiting : Nat → Addr} {myid : Nat}
    (hme : 1 ≤ myid ∧ myid ≤ maxNumThreads)
    (howner : ∀ s ∈ locks.flatten, s.key ≠ 0 → s.owner ≤ maxNumThreads)
    (hkeys : ((locks.flatten.filter fun s => s.key ≠ 0).map Slot.key).Nodup)
    (hvacant : ∀ s ∈ locks.flatten, s.key = 0 → s.owner = 0) :
    Frozen (oneBucket locks waiting) myid := by
  have hbucket : ∀ b, (oneBucket locks waiting).table b = locks ∨
      (oneBucket locks waiting).table b = [] := by
    intro b
    by_cases h0 : b = 0
    · exact Or.inl (if_pos h0)
    · exact Or.inr (if_neg h0)
  refine ⟨hme, rfl, fun b => ?_, fun b => ?_, fun _ => hvacant⟩
  · rcases hbucket b with hb | hb <;> rw [hb]
    · exact howner
    · exact fun s hs => absurd hs List.not_mem_nil
  · rcases hbucket b with hb | hb <;> rw [hb]
    · exact hkeys
    · exact List.nodup_nil

/-- Threads 1 and 2 wait for each other, and thread 3 for one of them. -/
def twoAndOne : Clht :=
  oneBucket [[⟨64, 1⟩, ⟨128, 2⟩], [⟨0, 0⟩, ⟨192, 0⟩]]
    fun i => if i = 0 then 128 else if i = 1 then 64 else if i = 2 then 128 else 0

theorem twoAndOne_frozen {myid : Nat} (hme : 1 ≤ myid ∧ myid ≤ maxNumThreads) :
    Frozen twoAndOne myid :=
  oneBucket_frozen hme (by decide) (by decide) (by decide)

/-- Nobody waits for thread 5. -/
theorem twoAndOne_not_all (myid : Nat) : ¬ AllInCycle twoAndOne myid := by
  intro hall
  obtain ⟨t, ht⟩ : ∃ t, waitsFor twoAndOne t = some 5 := by
    cases hall 5 (by decide) (by decide) with
    | single hedge => exact ⟨_, hedge⟩
    | tail _ hedge => exact ⟨_, hedge⟩
  have hwaiting : ∀ i, twoAndOne.waiting i = 128 ∨ twoAndOne.waiting i = 64 ∨
      twoAndOne.waiting i = 0 := by
    intro i
    simp only [twoAndOne, oneBucket]
    split_ifs <;> simp
  unfold waitsFor at ht
  rcases hwaiting (t - 1) with hw | hw | hw
  all_goals
    rw [hw] at ht
    revert ht
    decide

theorem clhtLpDddCheck_exact_twoAndOne :
    clhtLpDddCheck 128 twoAndOne 1 = .deadlock [⟨1, 128⟩, ⟨2, 64⟩, ⟨1, 128⟩] ∧
    OnCycle (waitsFor twoAndOne) 1 ∧
    clhtLpDddCheck 128 twoAndOne 3 = .ret ∧ ¬ OnCycle (waitsFor twoAndOne) 3 := by
  have hdead : clhtLpDddCheck 128 twoAndOne 1 = .deadlock [⟨1, 128⟩, ⟨2, 64⟩, ⟨1, 128⟩] := by
    decide +kernel
  have hret : clhtLpDddCheck 128 twoAndOne 3 = .ret := by decide +kernel
  have h1 := (clhtLpDddCheck_exact (twoAndOne_frozen (by decide)) (Nat.le_refl 128)).2.mpr
    (twoAndOne_not_all 1)
  have h3 := (clhtLpDddCheck_exact (twoAndOne_frozen (by decide)) (Nat.le_refl 128)).2.mpr
    (twoAndOne_not_all 3)
  refine ⟨hdead, h1.mp ⟨_, hdead⟩, hret, fun hcyc => ?_⟩
  obtain ⟨p, hp⟩ := h3.mpr hcyc
  cases hret.symm.trans hp

/-- Each of the 64 threads waits for a lock of the next one. -/
def circle : Clht :=
  oneBucket ((List.range 32).map fun i => [⟨8 * i + 4, 2 * i + 1⟩, ⟨8 * i + 8, 2 * i + 2⟩])
    fun i => 4 * ((i + 1) % 64 + 1)

/-- **A deadlock of all threads is not reported.** -/
theorem clhtLpDddCheck_misses : Frozen circle 1 ∧ OnCycle (waitsFor circle) 1 ∧
    ∀ fuel, 2 * maxNumThreads ≤ fuel → clhtLpDddCheck fuel circle 1 = .ret := by
  have hfrozen : Frozen circle 1 :=
    oneBucket_frozen (by decide) (by decide +kernel) (by decide +kernel) (by decide +kernel)
  have hback : walk (waitsFor circle) 1 64 = some 1 := by decide +kernel
  have hshort : ¬ ShortCycle circle 1 := by
    unfold ShortCycle
    decide +kernel
  refine ⟨hfrozen, transGen_iff.mpr ⟨63, hback⟩, fun fuel hfuel => ?_⟩
  rcases clhtLpDddCheck_answer hfrozen hfuel with ⟨-, hcyc⟩ | ⟨hret, -⟩
  · exact absurd hcyc hshort
  · exact hret

end ClhtLpDdd
