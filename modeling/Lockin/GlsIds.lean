import Lockin.GlsDeadlock

/-! # The ids of the threads

    Which entries of `h->waiting` are accessed.  A thread uses the entry of its own id, and
    the detector the entry of an id that it has read from an owner field.  An owner field
    is only ever written with the id of a caller, with 0, or with a copy of an owner field,
    so that all these ids have been handed out (`Ids`).

    Ids are not reused.  As long as at most `n` are handed out (`few n`), they are the numbers
    up to `n`, and when `n` is `GLS_MAX_NUM_THREDS` every entry is in the array. -/

namespace GlsDeadlock

open Interleaving

/-- The entry of `h->waiting` that the next step of a thread accesses. -/
def Local.access (l : Local) : Option Nat :=
  match l.pc with
  | .set => some (entry l.glsId)
  | .unsetLoad _ => some (entry l.glsId)
  | .unsetStore _ => some (entry l.glsId)
  | .checkOwn => some (entry l.glsId)
  | .walkWaiting _ _ owner => some (entry owner)
  | _ => none

/-- The index of an id is below it. -/
theorem entry_lt_toNat {id : Id} (hne : id ≠ 0) : entry id < id.toNat := by
  have hpos : id.toNat ≠ 0 := fun hzero => hne (BitVec.eq_of_toNat_eq hzero)
  have hsub : entry id = id.toNat - 1 := BitVec.toNat_sub_of_le (Nat.one_le_iff_ne_zero.mpr hpos)
  omega

variable {Tid : Type}

/-- Every access is in the array, and two threads in GLS have two entries. -/
structure InRange (c : Conf Tid (Shared Tid) Local) : Prop where
  index : ∀ t i, (c.loc t).access = some i → i < maxNumThreads
  apart : ∀ t u, t ≠ u → (c.loc t).pc ≠ .outside → (c.loc u).pc ≠ .outside →
    (c.loc t).glsId ≠ 0 → (c.loc u).glsId ≠ 0 → entry (c.loc t).glsId ≠ entry (c.loc u).glsId

/-- The next step of the thread hands out an id. -/
def takesId (sh : Shared Tid) (l : Local) : Prop :=
  match l.pc with
  | .setId => l.glsId = 0
  | .get v => l.glsId = 0 ∧ (sh.tab v).Has l.key
  | _ => False

/-- At most `n` ids are handed out. -/
def few (n : Nat) (c : Conf Tid (Shared Tid) Local) (t : Tid) (_ : Act) : Prop :=
  takesId c.sh (c.loc t) → c.sh.glsIds.toNat < n

instance (sh : Shared Tid) (l : Local) : Decidable (takesId sh l) := by
  unfold takesId
  split <;> infer_instance

instance (n : Nat) (c : Conf Tid (Shared Tid) Local) (t : Tid) (a : Act) :
    Decidable (few n c t a) :=
  inferInstanceAs (Decidable (_ → _))

/-! ## Owner fields -/

/-- The owners are among the first `n` ids. -/
def Table.OwnersLe (T : Table) (n : Nat) : Prop := ∀ key, (T.owner key).toNat ≤ n

namespace Table.OwnersLe

variable {T : Table} {n m : Nat} {key : Addr} {owner : Id}

/-- A new table has no owners. -/
theorem create (numBuckets n : Nat) : (Table.create numBuckets).OwnersLe n :=
  fun _ => Nat.zero_le n

/-- A bound on the owners, and a larger one. -/
theorem mono (h : T.OwnersLe n) (hle : n ≤ m) : T.OwnersLe m := fun key => (h key).trans hle

/-- An owner is recorded. -/
theorem setOwner (h : T.OwnersLe n) (howner : owner.toNat ≤ n) :
    (T.setOwner key owner).OwnersLe n := by
  intro k
  show (Function.update T.owner key owner k).toNat ≤ n
  rw [Function.update_apply]
  split
  · exact howner
  · exact h k

/-- An entry is inserted with its owner. -/
theorem insert (h : T.OwnersLe n) (howner : owner.toNat ≤ n) : (T.insert key owner).OwnersLe n :=
  setOwner h howner

end Table.OwnersLe

/-! ## The invariant -/

/-- The thread has an id, or is in `gls_lock_init`. -/
def Local.Named (l : Local) : Prop := l.glsId ≠ 0 ∨ l.call = .init

/-- What a thread knows of ids, when `n` have been handed out. -/
def Local.Knows (n : Nat) (l : Local) : Prop :=
  match l.pc with
  | .outside => True
  | .setId => True
  | .getHt => True
  | .get _ => True
  | .retryHt => l.Named
  | .implHt _ => l.Named
  | .lockAcq _ _ => l.Named
  | .status => l.Named
  | .statusScan _ _ _ _ => l.Named
  | .resizeHt _ _ => l.Named
  | .resizeTry _ _ _ => l.Named
  | .cpyLock _ htNew _ => l.Named ∧ htNew.OwnersLe n
  | .cpySlot _ htNew _ _ => l.Named ∧ htNew.OwnersLe n
  | .cpyPut _ htNew _ _ _ owner => l.Named ∧ htNew.OwnersLe n ∧ owner.toNat ≤ n
  | .swap _ htNew => l.Named ∧ htNew.OwnersLe n
  | .resizeRls _ => l.Named
  | .crash => l.Named
  | .walkWaiting _ _ owner => l.glsId ≠ 0 ∧ owner ≠ 0 ∧ owner.toNat ≤ n
  | _ => l.glsId ≠ 0

theorem Local.Knows.mono {l : Local} {n m : Nat} (h : l.Knows n) (hle : n ≤ m) : l.Knows m := by
  unfold Knows at h ⊢
  split <;> rename_i hpc <;> simp only [hpc] at h
  all_goals first
    | exact h
    | exact ⟨h.1, h.2.mono hle⟩
    | exact ⟨h.1, h.2.1.mono hle, h.2.2.trans hle⟩
    | exact ⟨h.1, h.2.1, h.2.2.trans hle⟩

/-- At most `n` ids have been handed out, each to one thread, and no others are anywhere in
    memory. -/
structure Ids (n : Nat) (c : Conf Tid (Shared Tid) Local) : Prop where
  le : c.sh.glsIds.toNat ≤ n
  mine : ∀ t, (c.loc t).glsId.toNat ≤ c.sh.glsIds.toNat
  apart : ∀ t u, (c.loc t).glsId = (c.loc u).glsId → (c.loc t).glsId ≠ 0 → t = u
  tab : ∀ v, (c.sh.tab v).OwnersLe c.sh.glsIds.toNat
  knows : ∀ t, (c.loc t).Knows c.sh.glsIds.toNat

/-- Before the first call. -/
theorem Init.ids {c : Conf Tid (Shared Tid) Local} (h : Init c) (n : Nat) : Ids n c where
  le := by
    rw [h.glsIds]
    exact Nat.zero_le _
  mine := by
    intro t
    rw [(h.outside t).2]
    exact Nat.zero_le _
  apart := by
    intro t u _ hne
    exact absurd (h.outside t).2 hne
  tab := by
    obtain ⟨m, -, htab⟩ := h.tab
    intro v
    rw [htab v]
    exact .create m _
  knows := by
    intro t
    unfold Local.Knows
    rw [(h.outside t).1]
    trivial

variable [DecidableEq Tid]

namespace Ids

variable {n : Nat} {c : Conf Tid (Shared Tid) Local} {t : Tid}

/-- A step that hands out no id. -/
theorem put (h : Ids n c) {sh' : Shared Tid} {l' : Local} (hsh : sh'.glsIds = c.sh.glsIds)
    (hl : l'.glsId = (c.loc t).glsId) (htab : ∀ v, (sh'.tab v).OwnersLe c.sh.glsIds.toNat)
    (hknows : l'.Knows c.sh.glsIds.toNat) : Ids n (c.put t (sh', l')) := by
  have hid : ∀ u, ((c.put t (sh', l')).loc u).glsId = (c.loc u).glsId := by
    intro u
    rw [put_loc]
    split <;> rename_i hut
    · rw [hut]
      exact hl
    · rfl
  constructor
  · rw [put_sh, hsh]
    exact h.le
  · intro u
    rw [hid u, put_sh, hsh]
    exact h.mine u
  · intro u w
    rw [hid u, hid w]
    exact h.apart u w
  · rw [put_sh, hsh]
    exact htab
  · intro u
    rw [put_loc, put_sh, hsh]
    split
    · exact hknows
    · exact h.knows u

/-- A step that leaves the shared memory alone. -/
theorem goto (h : Ids n c) {pc : Pc} (hknows : ((c.loc t).goto pc).Knows c.sh.glsIds.toNat) :
    Ids n (c.put t (c.sh, (c.loc t).goto pc)) :=
  h.put rfl rfl h.tab hknows

omit [DecidableEq Tid] in
/-- The tables after a write to one. -/
theorem tab_setTab (h : Ids n c) {v : Nat} {T : Table} (hT : T.OwnersLe c.sh.glsIds.toNat) :
    ∀ w, (Function.update c.sh.tab v T w).OwnersLe c.sh.glsIds.toNat := by
  intro w
  rw [Function.update_apply]
  split
  · exact hT
  · exact h.tab w

/-- A step that writes a table. -/
theorem setTab (h : Ids n c) {v : Nat} {T : Table} {pc : Pc}
    (hT : T.OwnersLe c.sh.glsIds.toNat)
    (hknows : ((c.loc t).goto pc).Knows c.sh.glsIds.toNat) :
    Ids n (c.put t (c.sh.setTab v T, (c.loc t).goto pc)) :=
  h.put rfl rfl (h.tab_setTab hT) hknows

/-- `gls_get_id`: the thread has an id afterwards. -/
theorem getId (h : Ids n c) (hn : n < 2 ^ 64) {pc : Pc}
    (hfew : (c.loc t).glsId = 0 → c.sh.glsIds.toNat < n)
    (hpc : ∀ l : Local, l.pc = pc → l.glsId ≠ 0 → ∀ m, l.Knows m) :
    Ids n (c.put t (glsGetId c.sh (c.loc t) pc)) := by
  unfold glsGetId
  split <;> rename_i hzero
  · -- the counter does not wrap round, so that nobody has the new id
    have hlt := hfew hzero
    have hnext : (c.sh.glsIds + 1).toNat = c.sh.glsIds.toNat + 1 := by
      rw [BitVec.toNat_add, Nat.mod_eq_of_lt]
      · rfl
      · show c.sh.glsIds.toNat + 1 < 2 ^ 64
        omega
    have hne : c.sh.glsIds + 1 ≠ 0 := by
      intro heq
      rw [heq] at hnext
      exact Nat.succ_ne_zero _ hnext.symm
    have hfresh : ∀ u, (c.loc u).glsId ≠ c.sh.glsIds + 1 := by
      intro u heq
      have := h.mine u
      rw [heq, hnext] at this
      omega
    constructor
    · show (c.sh.glsIds + 1).toNat ≤ _
      omega
    · intro u
      rw [put_loc, put_sh]
      split
      · exact le_rfl
      · have := h.mine u
        show (c.loc u).glsId.toNat ≤ (c.sh.glsIds + 1).toNat
        omega
    · intro u w
      rw [put_loc, put_loc]
      split <;> split <;> rename_i hut hwt
      · exact fun _ _ => hut.trans hwt.symm
      · exact fun heq => absurd heq.symm (hfresh w)
      · exact fun heq => absurd heq (hfresh u)
      · exact h.apart u w
    · intro v
      exact (h.tab v).mono (by rw [put_sh]; show _ ≤ (c.sh.glsIds + 1).toNat; omega)
    · intro u
      rw [put_loc, put_sh]
      split
      · exact hpc _ rfl hne _
      · refine (h.knows u).mono ?_
        show _ ≤ (c.sh.glsIds + 1).toNat
        omega
  · exact h.goto (hpc ((c.loc t).goto pc) rfl hzero _)

/-- The put has returned. -/
theorem knows_ready {l : Local} (h : l.Named) : (l.goto l.call.ready).Knows n := by
  cases hcall : l.call with
  | init => trivial
  | _ =>
      have hne : l.glsId ≠ 0 := h.resolve_right (by rw [hcall]; exact nofun)
      exact hne

theorem knows_walked {l : Local} (h : l.glsId ≠ 0) (waitCycle : List Entry)
    (owner : Id) (addr : Addr) : (l.goto (walked l.glsId waitCycle owner addr)).Knows n := by
  unfold walked
  dsimp only
  split
  · exact h
  · split <;> exact h

theorem knows_afterUnset {l : Local} (h : l.glsId ≠ 0) (acquired : Bool) :
    (l.goto (afterUnset acquired)).Knows n := by
  cases acquired
  · trivial
  · exact h

/-- **Every step keeps the ids.** -/
theorem go_step (h : Ids n c) (hn : n < 2 ^ 64) {r : Shared Tid × Local} (hok : few n c t .go)
    (hs : go t c.sh (c.loc t) (c.loc t).pc = some r) : Ids n (c.put t r) := by
  have hk := h.knows t
  unfold Local.Knows at hk
  unfold few takesId at hok
  generalize hpc : (c.loc t).pc = pc at hk hok hs
  cases pc with
  | outside | exited | crash => cases hs
  | setId =>
      obtain rfl := Option.some.inj hs
      exact h.getId hn hok fun l hl hne m => by unfold Local.Knows; rw [hl]; exact hne
  | get v =>
      obtain rfl := Option.some.inj hs
      split <;> rename_i hhas
      · -- the warning compares the owner with the id of the thread, and makes one
        exact h.getId hn (fun hzero => hok ⟨hzero, hhas⟩)
          fun l hl hne m => by unfold Local.Knows; rw [hl]; exact hne
      · exact h.goto trivial
  | set =>
      obtain rfl := Option.some.inj hs
      exact h.put rfl rfl h.tab hk
  | unsetStore acquired =>
      obtain rfl := Option.some.inj hs
      exact h.put rfl rfl h.tab (knows_afterUnset hk acquired)
  | unsetLoad acquired =>
      obtain rfl := Option.some.inj hs
      refine h.goto ?_
      split
      · exact hk
      · exact knows_afterUnset hk acquired
  | putHt | walkHt _ _ _ | ownHt | getHt =>
      obtain rfl := Option.some.inj hs
      exact h.goto hk
  | implHt _ | retryHt | status | resizeHt _ _ =>
      obtain rfl := Option.some.inj hs
      exact h.goto hk
  | search v =>
      obtain rfl := Option.some.inj hs
      refine h.goto ?_
      split
      · exact knows_ready (Or.inl hk)
      · exact Or.inl hk
  | lockAcq v hashtable =>
      dsimp only [go] at hs
      split at hs
      · obtain rfl := Option.some.inj hs
        exact h.goto hk
      · have hinsert : ((c.sh.tab v).insert (c.loc t).key 0).OwnersLe c.sh.glsIds.toNat :=
          (h.tab v).insert (Nat.zero_le _)
        split at hs
        · obtain rfl := Option.some.inj hs
          exact h.goto (knows_ready hk)
        · split at hs
          · obtain rfl := Option.some.inj hs
            exact h.setTab hinsert (knows_ready hk)
          · obtain rfl := Option.some.inj hs
            refine h.put rfl rfl (tab_setTab h hinsert) ?_
            split
            · exact hk
            · exact knows_ready hk
  | statusScan v b i size =>
      dsimp only [go] at hs
      split at hs
      · split at hs <;> obtain rfl := Option.some.inj hs <;> exact h.goto hk
      · obtain rfl := Option.some.inj hs
        exact h.goto hk
  | resizeTry isIncrease by_ htOld =>
      dsimp only [go] at hs
      split at hs
      · obtain rfl := Option.some.inj hs
        exact h.goto (knows_ready hk)
      · obtain rfl := Option.some.inj hs
        refine h.put rfl rfl h.tab ?_
        split
        · exact hk
        · exact ⟨hk, .create _ _⟩
  | cpyLock htOld htNew b =>
      dsimp only [go] at hs
      split at hs
      · split at hs
        · obtain rfl := Option.some.inj hs
          exact h.goto hk
        · obtain rfl := Option.some.inj hs
          exact h.setTab (h.tab htOld) hk
      · obtain rfl := Option.some.inj hs
        exact h.goto hk
  | cpySlot htOld htNew b i =>
      dsimp only [go] at hs
      split at hs
      · -- the owner in the register was in a table
        obtain rfl := Option.some.inj hs
        exact h.setTab (h.tab htOld) ⟨hk.1, hk.2, h.tab htOld _⟩
      · obtain rfl := Option.some.inj hs
        exact h.goto hk
  | cpyPut htOld htNew b i key owner =>
      obtain rfl := Option.some.inj hs
      exact h.goto ⟨hk.1, hk.2.1.insert hk.2.2⟩
  | swap htOld htNew =>
      obtain rfl := Option.some.inj hs
      exact h.put rfl rfl (h.tab_setTab hk.2) hk.1
  | checkRls | release =>
      obtain rfl := Option.some.inj hs
      exact h.put rfl rfl h.tab (by first | exact hk | trivial)
  | resizeRls again =>
      obtain rfl := Option.some.inj hs
      refine h.put rfl rfl h.tab ?_
      split
      · exact hk
      · exact knows_ready hk
  | acquire =>
      dsimp only [go] at hs
      split at hs
      · obtain rfl := Option.some.inj hs
        exact h.put rfl rfl h.tab hk
      · obtain ⟨-, hr⟩ := Option.ite_none_right_eq_some.mp hs
        obtain rfl := Option.some.inj hr
        exact h.goto hk
  | checkTry =>
      obtain rfl := Option.some.inj hs
      refine h.put rfl rfl h.tab ?_
      split <;> exact hk
  | checkOwn =>
      obtain rfl := Option.some.inj hs
      exact h.goto hk
  | walk waitCycle waitOn owner v =>
      obtain rfl := Option.some.inj hs
      refine h.goto ?_
      split <;> rename_i howner
      · exact ⟨hk, howner.2, h.tab v _⟩
      · exact knows_walked hk _ _ _
  | walkWaiting waitCycle owner =>
      obtain rfl := Option.some.inj hs
      exact h.goto (knows_walked hk.1 _ _ _)
  | own v =>
      dsimp only [go] at hs
      split at hs
      · obtain rfl := Option.some.inj hs
        exact h.setTab ((h.tab v).setOwner (h.mine t)) trivial
      · obtain rfl := Option.some.inj hs
        exact h.goto trivial
  | clear v =>
      obtain rfl := Option.some.inj hs
      exact h.setTab ((h.tab v).setOwner (Nat.zero_le _)) hk

/-- **Step lemma.** -/
theorem step (h : Ids n c) (hn : n < 2 ^ 64) {a : Act} {r : Shared Tid × Local} (hok : few n c t a)
    (hs : prog t c.sh (c.loc t) a = some r) : Ids n (c.put t r) := by
  unfold prog at hs
  split at hs
  · -- a call
    obtain rfl := Option.some.inj hs
    refine h.put rfl rfl h.tab ?_
    cases ‹Call› with
    | init => exact Or.inr rfl
    | _ => trivial
  · -- the detector
    have hk := h.knows t
    unfold Local.Knows at hk
    rename_i hpc
    rw [hpc] at hk
    obtain ⟨-, hr⟩ := Option.ite_none_right_eq_some.mp hs
    obtain rfl := Option.some.inj hr
    exact h.goto hk
  · exact h.go_step hn hok hs
  · cases hs

/-- **Run lemma.** -/
theorem reach (hn : n < 2 ^ 64) (hc : Reach prog (few n) Init c) : Ids n c :=
  hc.invariant (fun _ h0 => h0.ids n) fun _ _ _ _ h hok hs => h.step hn hok hs

omit [DecidableEq Tid] in
/-- An id that has been given is below the number of threads. -/
theorem entry_lt (h : Ids n c) {id : Id} (hne : id ≠ 0) (hle : id.toNat ≤ c.sh.glsIds.toNat) :
    entry id < n :=
  (entry_lt_toNat hne).trans_le (hle.trans h.le)

omit [DecidableEq Tid] in
/-- The invariant gives the property of the indices. -/
theorem inRange (h : Ids maxNumThreads c) : InRange c where
  index := by
    intro t i hi
    have hk := h.knows t
    unfold Local.access at hi
    unfold Local.Knows at hk
    split at hi <;> rename_i hpc
    case h_5 =>
      -- the walk is at the entry of an owner that it has read
      rw [hpc] at hk
      obtain rfl := Option.some.inj hi
      exact h.entry_lt hk.2.1 hk.2.2
    case h_6 => cases hi
    all_goals
      rw [hpc] at hk
      obtain rfl := Option.some.inj hi
      exact h.entry_lt hk (h.mine t)
  apart := by
    intro t u htu _ _ hne _ heq
    have hsub : (c.loc t).glsId - 1 = (c.loc u).glsId - 1 := BitVec.eq_of_toNat_eq heq
    exact htu (h.apart t u ((BitVec.sub_left_inj 1).mp hsub) hne)

/-- The id that `clht_lp_ddd_waiting_set` gets leads into the array only if it is one of the
    first `GLS_MAX_NUM_THREDS`. -/
theorem setId_inRange (h : Ids maxNumThreads c) {r : Shared Tid × Local}
    (hpc : (c.loc t).pc = .setId) (hs : prog t c.sh (c.loc t) .go = some r) :
    InRange (c.put t r) ↔ few maxNumThreads c t .go := by
  refine ⟨fun hrange => ?_, fun hfew => (h.step (by decide) hfew hs).inRange⟩
  intro htakes
  -- the entry is the number of ids before the step, and the array ends there
  unfold takesId at htakes
  rw [hpc] at htakes
  have hr : some (glsGetId c.sh (c.loc t) .set) = some r := by
    rw [← hs]
    unfold prog
    rw [hpc]
    rfl
  obtain rfl := Option.some.inj hr
  unfold glsGetId at hrange
  rw [if_pos htakes] at hrange
  have hlt := hrange.index t (entry (c.sh.glsIds + 1)) (by rw [put_loc_self]; rfl)
  have hcancel : entry (c.sh.glsIds + 1) = c.sh.glsIds.toNat := by
    unfold entry
    rw [BitVec.add_sub_cancel]
  omega

end Ids

/-- **The ids stay in range**, for any number of threads and any calls, as long as at most
    `GLS_MAX_NUM_THREDS` ids are handed out; a thread that gets another one to lock something
    accesses an entry behind the array. -/
theorem glsGetId_inRange {c : Conf Tid (Shared Tid) Local}
    (hc : Reach prog (few maxNumThreads) Init c) :
    InRange c ∧ ∀ t r, (c.loc t).pc = .setId → prog t c.sh (c.loc t) .go = some r →
      (InRange (c.put t r) ↔ few maxNumThreads c t .go) := by
  have hids := Ids.reach (by decide) hc
  exact ⟨hids.inRange, fun _ _ hpc hs => hids.setId_inRange hpc hs⟩

/-- As many threads as there are numbers below `n`, and a table of one bucket. -/
def start (n : Nat) : Conf (Fin n) (Shared (Fin n)) Local :=
  ⟨⟨0, fun _ => 0, fun _ => .create 1, fun _ => 0, 1, 0, false, false, fun _ => none⟩,
    fun _ => ⟨0, .init, 0, .outside⟩⟩

theorem start_init (n : Nat) : Init (start n) where
  glsIds := rfl
  waiting := fun _ => rfl
  tab := ⟨1, Nat.one_pos, fun _ => rfl⟩
  numExpands := fun _ => rfl
  numTabs := rfl
  ht := rfl
  resizeLock := rfl
  ddLock := rfl
  holder := fun _ => rfl
  outside := fun _ => ⟨rfl, rfl⟩

/-- Two threads are in GLS at once: both wait for one address, and then the first one locks it
    and unlocks it. -/
def lockUnlock : List (Fin 2 × Act) :=
  (0, .call .lock 4) :: List.replicate 4 (0, .go) ++ (1, .call .lock 4) :: List.replicate 4 (1, .go)
    ++ List.replicate 7 (0, .go) ++ (0, .call .unlock 4) :: List.replicate 4 (0, .go)

theorem glsGetId_inRange_lockUnlock : ∃ c : Conf (Fin 2) (Shared (Fin 2)) Local,
    exec prog (few maxNumThreads) (start 2) lockUnlock = some c ∧ (c.loc 0).glsId = 1 ∧
      (c.loc 1).glsId = 2 ∧ (c.loc 1).pc ≠ .outside ∧ InRange c := by
  obtain ⟨c, hc, hid, hid', hpc⟩ : ∃ c : Conf (Fin 2) (Shared (Fin 2)) Local,
      exec prog (few maxNumThreads) (start 2) lockUnlock = some c ∧ (c.loc 0).glsId = 1 ∧
        (c.loc 1).glsId = 2 ∧ (c.loc 1).pc = .implHt 0 := ⟨_, rfl, rfl, rfl, rfl⟩
  refine ⟨c, hc, hid, hid', ?_, (glsGetId_inRange (reach_of_exec (start_init 2) hc)).1⟩
  rw [hpc]
  exact nofun

/-- 65 threads begin to lock an address and get their ids. -/
def lockAll : List (Fin 65 × Act) :=
  (List.finRange 65).flatMap fun t => [(t, .call .lock 4), (t, .go)]

set_option maxRecDepth 4000 in
/-- **The 65th thread** accesses the entry behind `h->waiting`. -/
theorem glsGetId_outOfRange : ¬ ∀ c : Conf (Fin 65) (Shared (Fin 65)) Local,
    Reach prog always Init c → InRange c := by
  intro h
  obtain ⟨c, hc, hacc⟩ : ∃ c : Conf (Fin 65) (Shared (Fin 65)) Local,
      exec prog always (start 65) lockAll = some c ∧ (c.loc 64).access = some 64 :=
    ⟨_, rfl, rfl⟩
  exact absurd ((h c (reach_of_exec (start_init 65) hc)).index 64 64 hacc) (by decide)

end GlsDeadlock
