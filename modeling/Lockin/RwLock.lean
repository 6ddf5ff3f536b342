import Lockin.Counting
import Mathlib.Tactic

/-! # The reader-writer locks

    `tas_rw_in.h`, `ttas_rw_in.h` and `ttas_shared_in.h`: one lock, with its functions
    `rlock`, `wlock`, `tryrlock`, `trywlock` and `unlock`, one access to the lock per step.

    The lock is one word, which is read and written as a whole (`val`), by its top byte
    (`w`) and by its lower half (`nr`).  A reader adds 1 to the word before it looks at
    `w`, and a writer changes the word from 0 to `0xFF000000`, so the word is a sum over
    the threads: each of them contributes what it has added, `Pc.weight`.  `unlock` is not
    told what its caller holds; the mode in its program points is history. -/

namespace RwLock

open Interleaving

/-! ## The word -/

/-- `TAS_RW_FREE`, `TTAS_RW_FREE`, `TTAS_SHARED_FREE`. -/
abbrev free : BitVec 32 := 0

/-- `TAS_RW_WLOCKED`, `TTAS_RW_WLOCKED`, `TTAS_SHARED_WLOCKED`. -/
abbrev wlocked : BitVec 32 := 0xFF000000

/-- `lock.rw.w`, the top byte. -/
def w (val : BitVec 32) : BitVec 8 := val.extractLsb' 24 8

/-- `lock.rw.nr`, the lower half. -/
def nr (val : BitVec 32) : BitVec 16 := val.extractLsb' 0 16

/-- The word after a store to its top byte. -/
def storeW (val : BitVec 32) (x : BitVec 8) : BitVec 32 := x ++ val.extractLsb' 0 24

/-- The byte of the writer. -/
theorem w_toNat (val : BitVec 32) : (w val).toNat = val.toNat / 2 ^ 24 % 2 ^ 8 := by
  rw [w, BitVec.extractLsb'_toNat, Nat.shiftRight_eq_div_pow]

/-- The count of the readers. -/
theorem nr_toNat (val : BitVec 32) : (nr val).toNat = val.toNat % 2 ^ 16 := by
  rw [nr, BitVec.extractLsb'_toNat, Nat.shiftRight_zero]

/-- The byte of the writer is cleared. -/
theorem storeW_zero_toNat (val : BitVec 32) : (storeW val 0).toNat = val.toNat % 2 ^ 24 := by
  rw [storeW, BitVec.toNat_append, BitVec.extractLsb'_toNat]
  simp

/-! ## The functions -/

/-- How a thread holds the lock. -/
inductive Mode where
  | read
  | write
  deriving DecidableEq

/-- Where a thread is. -/
inductive Pc where
  | idle
  | tryrW
  | tryrVal
  | tryrCas (lockOld : BitVec 32)
  | trywVal
  | trywCas
  | rAdd
  | rWait
  | wTest
  | wCas
  | critical (m : Mode)
  | unlockW (m : Mode)
  | unlockStore (m : Mode)
  | unlockNr (m : Mode)
  | unlockSub (m : Mode)
  deriving DecidableEq

/-- A call, or the next step of the current one. -/
inductive Act where
  | tryrlock
  | trywlock
  | rlock
  | wlock
  | unlock
  | go

/-- `tryrlock`: it returns 1 in `idle` and 0 in `critical`. -/
def tryrlock (val : BitVec 32) : Pc → Option (BitVec 32 × Pc)
  | .tryrW => some (val, if w val = 0 then .tryrVal else .idle)
  | .tryrVal => some (val, .tryrCas (val &&& free))
  | .tryrCas lockOld =>
      if val = lockOld then some (lockOld + 1, .critical .read)
      else some (val, if val &&& wlocked ≠ 0 then .idle else .tryrW)
  | _ => none

/-- `trywlock`. -/
def trywlock (val : BitVec 32) : Pc → Option (BitVec 32 × Pc)
  | .trywVal => some (val, if val ≠ free then .idle else .trywCas)
  | .trywCas => if val = free then some (wlocked, .critical .write) else some (val, .idle)
  | _ => none

/-- `rlock`. -/
def rlock (val : BitVec 32) : Pc → Option (BitVec 32 × Pc)
  | .rAdd => some (val + 1, .rWait)
  | .rWait => some (val, if w val ≠ 0 then .rWait else .critical .read)
  | _ => none

/-- `wlock`, which goes back to `loop` when its exchange fails. -/
def wlock (loop : Pc) (val : BitVec 32) : Pc → Option (BitVec 32 × Pc)
  | .wTest => some (val, if val ≠ free then .wTest else .wCas)
  | .wCas => if val = free then some (wlocked, .critical .write) else some (val, loop)
  | _ => none

/-- `unlock`. -/
def unlock (val : BitVec 32) : Pc → Option (BitVec 32 × Pc)
  | .unlockW m => some (val, if w val ≠ 0 then .unlockStore m else .unlockNr m)
  | .unlockStore _ => some (storeW val 0, .idle)
  | .unlockNr m => some (val, if nr val > 0 then .unlockSub m else .idle)
  | .unlockSub _ => some (val - 1, .idle)
  | _ => none

/-- One step of a thread; only a thread that holds the lock calls `unlock`. -/
def step (loop : Pc) (val : BitVec 32) : Pc → Act → Option (BitVec 32 × Pc)
  | .idle, .tryrlock => some (val, .tryrW)
  | .idle, .trywlock => some (val, .trywVal)
  | .idle, .rlock => some (val, .rAdd)
  | .idle, .wlock => some (val, loop)
  | .critical m, .unlock => some (val, .unlockW m)
  | .tryrW, .go => tryrlock val .tryrW
  | .tryrVal, .go => tryrlock val .tryrVal
  | .tryrCas lockOld, .go => tryrlock val (.tryrCas lockOld)
  | .trywVal, .go => trywlock val .trywVal
  | .trywCas, .go => trywlock val .trywCas
  | .rAdd, .go => rlock val .rAdd
  | .rWait, .go => rlock val .rWait
  | .wTest, .go => wlock loop val .wTest
  | .wCas, .go => wlock loop val .wCas
  | .unlockW m, .go => unlock val (.unlockW m)
  | .unlockStore m, .go => unlock val (.unlockStore m)
  | .unlockNr m, .go => unlock val (.unlockNr m)
  | .unlockSub m, .go => unlock val (.unlockSub m)
  | _, _ => none

/-- The three locks. -/
inductive Impl where
  | tasRwLock
  | ttasRwLock
  | ttasSharedLock

/-- Where the loop of `wlock` begins: `tas_rw_lock_wlock` repeats its exchange, the others
    wait until the word is 0 first. -/
def Impl.loop : Impl → Pc
  | .tasRwLock => .wCas
  | .ttasRwLock => .wTest
  | .ttasSharedLock => .wTest

variable {Tid : Type}

/-- The lock as a program. -/
def Impl.prog (lock : Impl) : Prog Tid (BitVec 32) Pc Act := fun _ => step lock.loop

/-- A free lock. -/
structure Init (c : Conf Tid (BitVec 32) Pc) : Prop where
  free : c.sh = free
  idle : ∀ t, c.loc t = .idle

/-! ## What the threads contribute -/

/-- How the thread holds the lock, if it does. -/
def Pc.mode : Pc → Option Mode
  | .idle => none
  | .tryrW => none
  | .tryrVal => none
  | .tryrCas _ => none
  | .trywVal => none
  | .trywCas => none
  | .rAdd => none
  | .rWait => none
  | .wTest => none
  | .wCas => none
  | .critical m => some m
  | .unlockW m => some m
  | .unlockStore m => some m
  | .unlockNr m => some m
  | .unlockSub m => some m

/-- The thread holds the lock as a writer. -/
def Pc.Writes (pc : Pc) : Prop := pc.mode = some .write

/-- The thread holds the lock as a reader. -/
def Pc.Reads (pc : Pc) : Prop := pc.mode = some .read

/-- The thread has announced itself as a reader and waits. -/
def Pc.Waits (pc : Pc) : Prop := pc = .rWait

instance : DecidablePred Pc.Writes := fun pc => inferInstanceAs (Decidable (pc.mode = _))

instance : DecidablePred Pc.Reads := fun pc => inferInstanceAs (Decidable (pc.mode = _))

instance : DecidablePred Pc.Waits := fun pc => inferInstanceAs (Decidable (pc = _))

theorem Mode.eq_read {m : Mode} (h : m ≠ .write) : m = .read := by
  cases m
  · rfl
  · contradiction

/-- What a holder has added to the word. -/
@[simp] def Mode.weight : Mode → Nat
  | .read => 1
  | .write => 0xFF000000

/-- What a thread has added to the word. -/
def Pc.weight (pc : Pc) : Nat :=
  0xFF000000 * (if pc.Writes then 1 else 0) +
    ((if pc.Reads then 1 else 0) + (if pc.Waits then 1 else 0))

/-- What a thread that has the lock adds to the word. -/
theorem Pc.weight_of_some {pc : Pc} {m : Mode} (h : pc.mode = some m) : pc.weight = m.weight := by
  have hwait : pc ≠ .rWait := by
    rintro rfl
    cases h
  cases m <;> simp [weight, Writes, Reads, Waits, h, hwait]

/-- What any other thread adds. -/
theorem Pc.weight_of_none {pc : Pc} (h : pc.mode = none) :
    pc.weight = if pc.Waits then 1 else 0 := by
  simp [weight, Writes, Reads, h]

theorem Pc.weight_congr {pc pc' : Pc} (hmode : pc.mode = pc'.mode)
    (hwait : pc.Waits ↔ pc'.Waits) : pc.weight = pc'.weight := by
  cases hm : pc'.mode with
  | none =>
      rw [weight_of_none (hmode.trans hm), weight_of_none hm]
      simp only [hwait]
  | some m => rw [weight_of_some (hmode.trans hm), weight_of_some hm]

/-- The thread is in `unlock` and still holds the lock in mode `m`. -/
def Unlocking (m : Mode) (pc : Pc) : Prop :=
  pc = .unlockW m ∨ pc = .unlockStore m ∨ pc = .unlockNr m ∨ pc = .unlockSub m

/-- How many steps of `unlock` are left at most. -/
def Pc.unlockSteps : Pc → Nat
  | .unlockW _ => 3
  | .unlockNr _ => 2
  | .unlockStore _ => 1
  | .unlockSub _ => 1
  | _ => 0

/-- What the guesses of `unlock` and the load of `tryrlock` have found. -/
@[simp] def Pc.Sound : Pc → Prop
  | .idle => True
  | .tryrW => True
  | .tryrVal => True
  | .tryrCas lockOld => lockOld = free
  | .trywVal => True
  | .trywCas => True
  | .rAdd => True
  | .rWait => True
  | .wTest => True
  | .wCas => True
  | .critical _ => True
  | .unlockW _ => True
  | .unlockStore m => m = .write
  | .unlockNr m => m = .read
  | .unlockSub m => m = .read

section

variable [Fintype Tid]

/-- 1 when a writer holds the lock. -/
def writing (c : Conf Tid (BitVec 32) Pc) : Nat := if ∃ t, (c.loc t).Writes then 1 else 0

/-- The word is the sum of what the threads have added, and writers are alone. -/
structure Tally (c : Conf Tid (BitVec 32) Pc) : Prop where
  total : c.sh.toNat = c.total Pc.weight
  sound : ∀ t, (c.loc t).Sound
  alone : ∀ t u, (c.loc t).Writes → ¬ (c.loc u).Reads

namespace Tally

variable {c : Conf Tid (BitVec 32) Pc} {t : Tid}

/-- **The accounting.** -/
theorem val (h : Tally c) : c.sh.toNat =
    0xFF000000 * c.count Pc.Writes + (c.count Pc.Reads + c.count Pc.Waits) := by
  rw [h.total, ← total_ite, ← total_ite, ← total_ite, ← total_add, ← total_mul, ← total_add]
  rfl

/-- The word has room for one writer only. -/
theorem writers_le_one (h : Tally c) : c.count Pc.Writes ≤ 1 := by
  have := h.val
  have := c.sh.isLt
  omega

/-- Readers leave the top byte alone. -/
theorem readers_lt (hcard : Fintype.card Tid ≤ 65535) (c : Conf Tid (BitVec 32) Pc) :
    c.count Pc.Reads + c.count Pc.Waits < 2 ^ 16 := by
  have hle : c.count Pc.Reads + c.count Pc.Waits ≤ Fintype.card Tid := by
    refine count_add_count_le c fun l hl hw => ?_
    rw [Pc.Reads, hw] at hl
    cases hl
  omega

/-- **The top byte shows the writer.** -/
theorem w_eq_zero_iff (hcard : Fintype.card Tid ≤ 65535) (h : Tally c) :
    w c.sh = 0 ↔ ∀ t, ¬ (c.loc t).Writes := by
  have hval := h.val
  have hone := h.writers_le_one
  have hlt := readers_lt hcard c
  have hw := w_toNat c.sh
  constructor
  · intro hzero t ht
    have hpos : 0 < c.count Pc.Writes := count_pos ht
    rw [hzero] at hw
    simp only [BitVec.ofNat_eq_ofNat, BitVec.toNat_ofNat, Nat.zero_mod] at hw
    omega
  · intro hno
    have hnone : c.count Pc.Writes = 0 := count_eq_zero hno
    refine BitVec.eq_of_toNat_eq ?_
    rw [hw]
    simp only [BitVec.ofNat_eq_ofNat, BitVec.toNat_ofNat, Nat.zero_mod]
    omega

/-- The word is at least what a thread has added to it. -/
theorem weight_le (h : Tally c) (t : Tid) : (c.loc t).weight ≤ c.sh.toNat := by
  rw [h.total]
  exact le_total c Pc.weight t

/-- A free word means that nobody has added anything. -/
theorem of_free (h : Tally c) (hfree : c.sh = free) (t : Tid) : (c.loc t).mode = none := by
  have hle := h.weight_le t
  cases hm : (c.loc t).mode with
  | none => rfl
  | some m =>
      rw [Pc.weight_of_some hm, hfree] at hle
      cases m <;> simp at hle

/-- The lower half shows the readers. -/
theorem nr_pos (hcard : Fintype.card Tid ≤ 65535) (h : Tally c) (hr : (c.loc t).Reads) :
    nr c.sh > 0 := by
  have hnone : c.count Pc.Writes = 0 := count_eq_zero fun u hu => h.alone u t hu hr
  have hpos : 0 < c.count Pc.Reads := count_pos hr
  have hval := h.val
  have hlt := readers_lt hcard c
  have hnr := nr_toNat c.sh
  refine BitVec.lt_def.mpr ?_
  rw [hnr]
  simp only [BitVec.ofNat_eq_ofNat, BitVec.toNat_ofNat, Nat.zero_mod]
  omega

/-- The byte store of a writer takes what the writer has added. -/
theorem storeW (hcard : Fintype.card Tid ≤ 65535) (h : Tally c) (hw : (c.loc t).Writes) :
    (storeW c.sh 0).toNat + Mode.write.weight = c.sh.toNat := by
  have hval := h.val
  have hone := h.writers_le_one
  have hlt := readers_lt hcard c
  have hpos : 0 < c.count Pc.Writes := count_pos hw
  rw [storeW_zero_toNat]
  simp only [Mode.weight]
  omega

/-- The decrement of a reader takes what the reader has added. -/
theorem sub (h : Tally c) (hr : (c.loc t).Reads) :
    (c.sh - 1).toNat + Mode.read.weight = c.sh.toNat := by
  have hle := h.weight_le t
  rw [Pc.weight_of_some hr] at hle
  have : (1 : BitVec 32) ≤ c.sh := BitVec.le_def.mpr hle
  rw [BitVec.toNat_sub_of_le this]
  exact Nat.sub_add_cancel hle

/-- **`unlock` guesses the mode of its caller right.** -/
theorem unlockW_sound (hcard : Fintype.card Tid ≤ 65535) (h : Tally c) {m : Mode}
    (hl : c.loc t = .unlockW m) : w c.sh ≠ 0 ↔ m = .write := by
  rw [Ne, h.w_eq_zero_iff hcard]
  constructor
  · intro hsome
    cases m with
    | write => rfl
    | read =>
        refine absurd (fun u hu => h.alone u t hu ?_) hsome
        rw [hl]
        rfl
  · rintro rfl hno
    refine hno t ?_
    rw [hl]
    rfl

variable [DecidableEq Tid] {r : BitVec 32 × Pc}

/-- A thread that adds to the word what it adds to its own account. -/
theorem put (h : Tally c) (hval : r.1.toNat + (c.loc t).weight = c.sh.toNat + r.2.weight)
    (hsound : r.2.Sound) (hwrites : r.2.Writes → ∀ u, u ≠ t → ¬ (c.loc u).Reads)
    (hreads : r.2.Reads → ∀ u, u ≠ t → ¬ (c.loc u).Writes) : Tally (c.put t r) where
  total := by
    have hput := total_put c Pc.weight t r
    have htotal := h.total
    show r.1.toNat = _
    omega
  sound := by
    intro u
    rw [put_loc]
    split
    · exact hsound
    · exact h.sound u
  alone := by
    intro u v hu hv
    rw [put_loc] at hu hv
    split at hu <;> split at hv <;> rename_i hut hvt
    · rw [Pc.Reads, hu] at hv
      cases hv
    · exact hwrites hu v hvt hv
    · exact hreads hv u hut hu
    · exact h.alone u v hu hv

/-- A step that leaves the word and the holders as they are. -/
theorem stay (h : Tally c) {pc : Pc} (hmode : pc.mode = (c.loc t).mode)
    (hwait : pc.Waits ↔ (c.loc t).Waits) (hsound : pc.Sound) : Tally (c.put t (c.sh, pc)) := by
  refine h.put ?_ hsound ?_ ?_
  · rw [Pc.weight_congr hmode hwait]
  · intro hw u _
    exact h.alone t u (hmode.symm.trans hw)
  · intro hr u _ hu
    exact h.alone u t hu (hmode.symm.trans hr)

/-- A thread that finds the word free takes the lock. -/
theorem take (h : Tally c) (hfree : c.sh = free) (hmode : (c.loc t).mode = none)
    (hwait : ¬ (c.loc t).Waits) (m : Mode) {val : BitVec 32} (hval : val.toNat = m.weight) :
    Tally (c.put t (val, .critical m)) := by
  refine h.put ?_ trivial ?_ ?_
  · rw [hfree, hval, Pc.weight_of_none hmode, if_neg hwait, Pc.weight_of_some rfl]
    exact Nat.add_comm ..
  · intro _ u _ hu
    rw [Pc.Reads, h.of_free hfree u] at hu
    cases hu
  · intro _ u _ hu
    rw [Pc.Writes, h.of_free hfree u] at hu
    cases hu

/-- A thread that takes from the word what it has added releases the lock. -/
theorem release (h : Tally c) {m : Mode} (hmode : (c.loc t).mode = some m)
    {val : BitVec 32} (hval : val.toNat + m.weight = c.sh.toNat) :
    Tally (c.put t (val, .idle)) := by
  refine h.put ?_ trivial ?_ ?_
  · rw [Pc.weight_of_some hmode, hval, Pc.weight_of_none rfl]
    rfl
  · intro hw
    cases hw
  · intro hr
    cases hr

/-- **Every step keeps the account.** -/
theorem step (hcard : Fintype.card Tid ≤ 65535) (h : Tally c) {lock : Impl} {a : Act}
    (hs : lock.prog t c.sh (c.loc t) a = some r) : Tally (c.put t r) := by
  have hsound := h.sound t
  obtain ⟨pc, hl⟩ : ∃ pc, c.loc t = pc := ⟨_, rfl⟩
  have hstay : ∀ pc' : Pc, pc'.mode = pc.mode → (pc'.Waits ↔ pc.Waits) → pc'.Sound →
      Tally (c.put t (c.sh, pc')) :=
    fun pc' hmode hwait => h.stay (hl ▸ hmode) (hl ▸ hwait)
  rw [hl] at hs hsound
  cases pc with
  | idle =>
      cases a <;> simp only [Impl.prog, RwLock.step, reduceCtorEq, Option.some.injEq] at hs <;>
        subst hs
      · exact hstay _ rfl (by simp [Pc.Waits]) trivial
      · exact hstay _ rfl (by simp [Pc.Waits]) trivial
      · exact hstay _ rfl (by simp [Pc.Waits]) trivial
      · cases lock <;> exact hstay _ rfl (by simp [Pc.Waits, Impl.loop]) trivial
  | tryrW =>
      cases a <;> simp only [Impl.prog, RwLock.step, tryrlock, reduceCtorEq,
        Option.some.injEq] at hs
      subst hs
      split <;> exact hstay _ rfl (by simp [Pc.Waits]) trivial
  | tryrVal =>
      cases a <;> simp only [Impl.prog, RwLock.step, tryrlock, reduceCtorEq,
        Option.some.injEq] at hs
      subst hs
      exact hstay _ rfl (by simp [Pc.Waits]) (BitVec.and_zero ..)
  | tryrCas lockOld =>
      cases a <;> simp only [Impl.prog, RwLock.step, tryrlock, reduceCtorEq] at hs
      split at hs <;> rename_i hcas <;> obtain rfl := Option.some.inj hs
      · obtain rfl : lockOld = free := hsound
        exact h.take hcas (by rw [hl]; rfl) (by rw [hl]; simp [Pc.Waits]) .read rfl
      · split <;> exact hstay _ rfl (by simp [Pc.Waits]) trivial
  | trywVal =>
      cases a <;> simp only [Impl.prog, RwLock.step, trywlock, reduceCtorEq,
        Option.some.injEq] at hs
      subst hs
      split <;> exact hstay _ rfl (by simp [Pc.Waits]) trivial
  | trywCas =>
      cases a <;> simp only [Impl.prog, RwLock.step, trywlock, reduceCtorEq] at hs
      split at hs <;> rename_i hcas <;> obtain rfl := Option.some.inj hs
      · exact h.take hcas (by rw [hl]; rfl) (by rw [hl]; simp [Pc.Waits]) .write rfl
      · exact hstay _ rfl (by simp [Pc.Waits]) trivial
  | rAdd =>
      cases a <;> simp only [Impl.prog, RwLock.step, rlock, reduceCtorEq,
        Option.some.injEq] at hs
      subst hs
      refine h.put ?_ trivial ?_ ?_
      · -- the number of readers stays within its half of the word
        have hval := h.val
        have hone := h.writers_le_one
        have hlt := readers_lt hcard c
        rw [hl, BitVec.toNat_add, Nat.mod_eq_of_lt]
        · rfl
        · show _ + 1 < _
          omega
      · intro hw
        cases hw
      · intro hr
        cases hr
  | rWait =>
      cases a <;> simp only [Impl.prog, RwLock.step, rlock, reduceCtorEq,
        Option.some.injEq] at hs
      subst hs
      by_cases hw : w c.sh = 0
      · -- no writer, and the share of the thread is in the word already
        rw [if_neg (not_not.mpr hw)]
        have hno := (h.w_eq_zero_iff hcard).mp hw
        refine h.put ?_ trivial ?_ fun _ u _ => hno u
        · rw [hl]
          rfl
        · intro hwrites
          cases hwrites
      · rw [if_pos hw]
        exact hstay _ rfl Iff.rfl trivial
  | wTest =>
      cases a <;> simp only [Impl.prog, RwLock.step, wlock, reduceCtorEq,
        Option.some.injEq] at hs
      subst hs
      split <;> exact hstay _ rfl (by simp [Pc.Waits]) trivial
  | wCas =>
      cases a <;> simp only [Impl.prog, RwLock.step, wlock, reduceCtorEq] at hs
      split at hs <;> rename_i hcas <;> obtain rfl := Option.some.inj hs
      · exact h.take hcas (by rw [hl]; rfl) (by rw [hl]; simp [Pc.Waits]) .write rfl
      · cases lock <;> exact hstay _ rfl (by simp [Pc.Waits, Impl.loop]) trivial
  | critical m =>
      cases a <;> simp only [Impl.prog, RwLock.step, reduceCtorEq, Option.some.injEq] at hs
      subst hs
      exact hstay _ rfl (by simp [Pc.Waits]) trivial
  | unlockW m =>
      cases a <;> simp only [Impl.prog, RwLock.step, unlock, reduceCtorEq,
        Option.some.injEq] at hs
      subst hs
      have hguess := h.unlockW_sound hcard hl
      split <;> rename_i hw
      · exact hstay _ rfl (by simp [Pc.Waits]) (hguess.mp hw)
      · exact hstay _ rfl (by simp [Pc.Waits]) (Mode.eq_read (hguess.not.mp hw))
  | unlockStore m =>
      cases a <;> simp only [Impl.prog, RwLock.step, unlock, reduceCtorEq,
        Option.some.injEq] at hs
      subst hs
      obtain rfl : m = .write := hsound
      exact h.release (by rw [hl]; rfl) (h.storeW hcard (by rw [hl]; rfl))
  | unlockNr m =>
      cases a <;> simp only [Impl.prog, RwLock.step, unlock, reduceCtorEq,
        Option.some.injEq] at hs
      subst hs
      obtain rfl : m = .read := hsound
      -- its own share is in the word
      rw [if_pos (h.nr_pos hcard (by rw [hl]; rfl))]
      exact hstay _ rfl (by simp [Pc.Waits]) rfl
  | unlockSub m =>
      cases a <;> simp only [Impl.prog, RwLock.step, unlock, reduceCtorEq,
        Option.some.injEq] at hs
      subst hs
      obtain rfl : m = .read := hsound
      exact h.release (by rw [hl]; rfl) (h.sub (by rw [hl]; rfl))

omit [DecidableEq Tid] in
/-- Before the first call. -/
theorem init (h : Init c) : Tally c where
  total := by
    rw [h.free, total_eq_zero fun t => by rw [h.idle t]; rfl]
    rfl
  sound := by
    intro t
    rw [h.idle t]
    trivial
  alone := by
    intro t u hw
    rw [h.idle t] at hw
    cases hw

/-- **Every reachable state is accounted for.** -/
theorem reach (hcard : Fintype.card Tid ≤ 65535) {lock : Impl}
    (h : Reach lock.prog always Init c) : Tally c :=
  h.invariant (fun _ => init) fun _ _ _ _ hc _ hs => hc.step hcard hs

omit [DecidableEq Tid] in
/-- **`unlock` gets on, and what it releases is what its caller holds.** -/
theorem unlock_step (hcard : Fintype.card Tid ≤ 65535) (h : Tally c) {lock : Impl} {m : Mode}
    {a : Act} (hm : Unlocking m (c.loc t)) (hs : lock.prog t c.sh (c.loc t) a = some r) :
    Unlocking m r.2 ∧ r.1 = c.sh ∧ r.2.unlockSteps < (c.loc t).unlockSteps ∨
      r.2 = .idle ∧ r.1.toNat + m.weight = c.sh.toNat := by
  have hsound := h.sound t
  rcases hm with hl | hl | hl | hl <;> rw [hl] at hs hsound
  · cases a <;> simp only [Impl.prog, RwLock.step, unlock, reduceCtorEq, Option.some.injEq] at hs
    subst hs
    refine Or.inl ⟨?_, rfl, ?_⟩
    · split
      · exact Or.inr (Or.inl rfl)
      · exact Or.inr (Or.inr (Or.inl rfl))
    · rw [hl]
      split <;> simp [Pc.unlockSteps]
  · cases a <;> simp only [Impl.prog, RwLock.step, unlock, reduceCtorEq, Option.some.injEq] at hs
    subst hs
    obtain rfl : m = .write := hsound
    exact Or.inr ⟨rfl, h.storeW hcard (by rw [hl]; rfl)⟩
  · cases a <;> simp only [Impl.prog, RwLock.step, unlock, reduceCtorEq, Option.some.injEq] at hs
    subst hs
    obtain rfl : m = .read := hsound
    rw [if_pos (h.nr_pos hcard (by rw [hl]; rfl)), hl]
    exact Or.inl ⟨Or.inr (Or.inr (Or.inr rfl)), rfl, by simp [Pc.unlockSteps]⟩
  · cases a <;> simp only [Impl.prog, RwLock.step, unlock, reduceCtorEq, Option.some.injEq] at hs
    subst hs
    obtain rfl : m = .read := hsound
    exact Or.inr ⟨rfl, h.sub (by rw [hl]; rfl)⟩

end Tally

/-- **Safety of the reader-writer locks** for at most 65535 threads.  A writer holds the
    lock alone; the word is `0xFF000000` for the writer plus the number of readers and of
    threads that have announced themselves as readers; and `unlock`, whatever it guesses
    from the word, takes from it what its caller has added, in at most three steps. -/
theorem rwLock_safe [DecidableEq Tid] (lock : Impl) (hcard : Fintype.card Tid ≤ 65535)
    {c : Conf Tid (BitVec 32) Pc} (h : Reach lock.prog always Init c) :
    (∀ t u, (c.loc t).Writes → (c.loc u).Writes → t = u) ∧
    (∀ t u, (c.loc t).Writes → ¬ (c.loc u).Reads) ∧
    c.sh.toNat = 0xFF000000 * writing c + (c.count Pc.Reads + c.count Pc.Waits) ∧
    (∀ t m a r, Unlocking m (c.loc t) → lock.prog t c.sh (c.loc t) a = some r →
      Unlocking m r.2 ∧ r.1 = c.sh ∧ r.2.unlockSteps < (c.loc t).unlockSteps ∨
        r.2 = .idle ∧ r.1.toNat + m.weight = c.sh.toNat) := by
  have hc := Tally.reach hcard h
  have hone := hc.writers_le_one
  refine ⟨fun t u => count_le_one hone, hc.alone, ?_, fun t m a r => hc.unlock_step hcard⟩
  have hcount : c.count Pc.Writes = writing c := by
    unfold writing
    split <;> rename_i hw
    · obtain ⟨t, ht⟩ := hw
      have hpos : 0 < c.count Pc.Writes := count_pos ht
      omega
    · exact count_eq_zero (not_exists.mp hw)
  rw [hc.val, hcount]

end

/-- A free lock and three threads. -/
def start : Conf (Fin 3) (BitVec 32) Pc := ⟨free, fun _ => .idle⟩

theorem start_init : Init start := by
  constructor
  · rfl
  · exact fun _ => rfl

/-- Thread 0 holds the lock as a writer, threads 1 and 2 announce themselves, and thread 0
    releases the lock with its byte store. -/
def announced : List (Fin 3 × Act) :=
  [(0, .wlock), (0, .go), (0, .go), (1, .rlock), (1, .go), (2, .rlock), (2, .go),
    (0, .unlock), (0, .go), (0, .go), (1, .go)]

theorem rwLock_safe_announced :
    ∃ c : Conf (Fin 3) (BitVec 32) Pc,
      exec Impl.ttasRwLock.prog always start announced = some c ∧
      c.sh = 2 ∧ c.loc 1 = .critical .read ∧
      (∀ t u, (c.loc t).Writes → (c.loc u).Writes → t = u) ∧
      (∀ t u, (c.loc t).Writes → ¬ (c.loc u).Reads) ∧
      c.sh.toNat = 0xFF000000 * writing c + (c.count Pc.Reads + c.count Pc.Waits) ∧
      (∀ t m a r, Unlocking m (c.loc t) → Impl.ttasRwLock.prog t c.sh (c.loc t) a = some r →
        Unlocking m r.2 ∧ r.1 = c.sh ∧ r.2.unlockSteps < (c.loc t).unlockSteps ∨
          r.2 = .idle ∧ r.1.toNat + m.weight = c.sh.toNat) := by
  obtain ⟨c, hc, hsh, h1⟩ : ∃ c : Conf (Fin 3) (BitVec 32) Pc,
      exec Impl.ttasRwLock.prog always start announced = some c ∧
      c.sh = 2 ∧ c.loc 1 = .critical .read := ⟨_, rfl, rfl, rfl⟩
  exact ⟨c, hc, hsh, h1, rwLock_safe .ttasRwLock (by decide) (reach_of_exec start_init hc)⟩

end RwLock
