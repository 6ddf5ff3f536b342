import Lockin.ClhtLpWait

/-! # The holder of the resize lock

    What a step does to the duties of its thread, to `resize_lock` and to the choice of the
    current table is one of six things, `DutyStep`.  So at most one thread has a duty; and
    if whoever wins the lock has read the table that is still current, then the table that is
    being copied always is the current one, `Exclusive`. -/

namespace ClhtLpConc

open Interleaving SlotTable ClhtLp

variable {Tid : Type} {c : Conf Tid Clht Local} {t : Tid} {h : Clht} {pc : Pc}
  {r : Clht × Local}

/-! ## What a step does -/

/-- The lock and the current table stay as they are. -/
structure SameLock (h h' : Clht) : Prop where
  resizeLock : h'.resizeLock = h.resizeLock
  ht : h'.ht = h.ht
  numTabs : h'.numTabs = h.numTabs

/-- **What a step does to the resizer's duty.** -/
inductive DutyStep (h : Clht) (pc : Pc) (r : Clht × Local) : Prop
  | same (heq : r.2.pc.duty = pc.duty) (hsame : SameLock h r.1)
  | wins (isIncrease : Bool) (by_ : Int) (htOld : Nat) (k : Cont)
      (hpc : pc = .resizeTry isIncrease by_ htOld k) (hfree : h.resizeLock = false)
      (hpost : r.2.pc.duty = .copies htOld) (hlock : r.1.resizeLock = true)
      (hht : r.1.ht = h.ht) (hnum : r.1.numTabs = h.numTabs)
  | crashes (hpre : pc.duty ≠ .none) (hpost : r.2.pc = .crash) (hsame : SameLock h r.1)
  | swaps (htOld : Nat) (hpre : pc.duty = .copies htOld) (hpost : r.2.pc.duty = .tells htOld)
      (hlock : r.1.resizeLock = h.resizeLock) (hht : r.1.ht = h.numTabs)
      (hnum : r.1.numTabs = h.numTabs + 1)
  | tells (htOld : Nat) (hpre : pc.duty = .tells htOld) (hpost : r.2.pc.duty = .releases)
      (hsame : SameLock h r.1)
  | releases (hpre : pc.duty = .releases) (hpost : r.2.pc.duty = .none) (hht : r.1.ht = h.ht)
      (hnum : r.1.numTabs = h.numTabs)

theorem SameLock.refl (h : Clht) : SameLock h h := ⟨rfl, rfl, rfl⟩

theorem setVal_sameLock (h : Clht) (p : SlotPtr) (v : Val) : SameLock h (h.setVal p v) := by
  obtain ⟨f, hf⟩ := setVal_eq h p v
  rw [hf]
  exact ⟨rfl, rfl, rfl⟩

theorem setKey_sameLock (h : Clht) (p : SlotPtr) (k : Addr) : SameLock h (h.setKey p k) := by
  obtain ⟨f, hf⟩ := setKey_eq h p k
  rw [hf]
  exact ⟨rfl, rfl, rfl⟩

theorem Call.create_sameLock (h : Clht) (call : Call) : SameLock h (call.create h).1 := by
  cases call <;> exact ⟨rfl, rfl, rfl⟩

/-- **What a step does to `resize_lock`.** -/
theorem dutyStep_of_go {l : Local} (hl : l.pc = pc) (hs : go h l pc = some r) :
    DutyStep h pc r := by
  cases pc with
  | idle => exact nomatch hs
  | crash => exact nomatch hs
  | readHt =>
      obtain rfl := Option.some.inj hs
      exact .same (Call.begun_duty ..) (.refl _)
  | search T b i =>
      dsimp only [go] at hs
      split at hs
      · split at hs <;> obtain rfl := Option.some.inj hs
        · exact .same (Call.hit_duty ..) (.refl _)
        · exact .same rfl (.refl _)
      · obtain rfl := Option.some.inj hs
        exact .same (Call.missed_duty ..) (.refl _)
  | searchVal p =>
      obtain rfl := Option.some.inj hs
      exact .same (Call.gotVal_duty ..) (.refl _)
  | implHt T b =>
      obtain rfl := Option.some.inj hs
      exact .same rfl (.refl _)
  | lockAcq T b H =>
      dsimp only [go] at hs
      split at hs <;> obtain rfl := Option.some.inj hs
      · exact .same rfl ⟨rfl, rfl, rfl⟩
      · exact .same (by rw [hl]) (.refl _)
      · exact .same rfl (.refl _)
  | waitNew H =>
      dsimp only [go] at hs
      split at hs <;> obtain rfl := Option.some.inj hs
      · exact .same (by rw [hl]) (.refl _)
      · exact .same rfl (.refl _)
  | retryHt =>
      obtain rfl := Option.some.inj hs
      exact .same rfl (.refl _)
  | seek T b H =>
      dsimp only [go] at hs
      split at hs <;> obtain rfl := Option.some.inj hs
      · exact .same (Call.present_duty ..) (.refl _)
      · exact .same (Call.absent_duty ..) (Call.create_sameLock ..)
  | expand T b H val =>
      obtain rfl := Option.some.inj hs
      exact .same rfl ⟨rfl, rfl, rfl⟩
  | link T b val resize =>
      obtain rfl := Option.some.inj hs
      exact .same rfl ⟨rfl, rfl, rfl⟩
  | putVal p val =>
      obtain rfl := Option.some.inj hs
      exact .same rfl (setVal_sameLock ..)
  | putKey p val =>
      obtain rfl := Option.some.inj hs
      exact .same rfl (setKey_sameLock ..)
  | rmVal p =>
      obtain rfl := Option.some.inj hs
      exact .same rfl (.refl _)
  | rmKey p val =>
      obtain rfl := Option.some.inj hs
      exact .same rfl (setKey_sameLock ..)
  | lockRls T b next =>
      obtain rfl := Option.some.inj hs
      exact .same (After.pc_duty _) ⟨rfl, rfl, rfl⟩
  | retVal p =>
      obtain rfl := Option.some.inj hs
      exact .same rfl (.refl _)
  | statusTry inc k =>
      obtain rfl := Option.some.inj hs
      refine .same ?_ ⟨rfl, rfl, rfl⟩
      show Pc.duty (if _ then _ else _) = .none
      split
      · exact k.back_duty
      · rfl
  | statusHt inc k =>
      obtain rfl := Option.some.inj hs
      exact .same rfl (.refl _)
  | statusScan inc T b i size em k =>
      dsimp only [go] at hs
      split at hs <;> split at hs <;> obtain rfl := Option.some.inj hs <;> exact .same rfl (.refl _)
  | statusRls k =>
      obtain rfl := Option.some.inj hs
      exact .same (Cont.back_duty _) ⟨rfl, rfl, rfl⟩
  | resizeHt inc by_ k =>
      obtain rfl := Option.some.inj hs
      exact .same rfl (.refl _)
  | resizeTry inc by_ htOld k =>
      dsimp only [go] at hs
      split at hs <;> obtain rfl := Option.some.inj hs
      · exact .same (Cont.back_duty _) (.refl _)
      · next hfree => exact .wins inc by_ htOld k rfl (by simpa using hfree) rfl rfl rfl rfl
  | resizeNew inc by_ htOld k =>
      dsimp only [go] at hs
      split at hs <;> obtain rfl := Option.some.inj hs
      · exact .crashes nofun rfl ⟨rfl, rfl, rfl⟩
      · exact .same rfl ⟨rfl, rfl, rfl⟩
  | cpyLock htOld htNew b k =>
      dsimp only [go] at hs
      split at hs
      · split at hs <;> obtain rfl := Option.some.inj hs
        · exact .same rfl ⟨rfl, rfl, rfl⟩
        · exact .same (by rw [hl]) (.refl _)
        · exact .same rfl (.refl _)
      · obtain rfl := Option.some.inj hs
        exact .same rfl (.refl _)
  | cpySlot htOld htNew b i k =>
      dsimp only [go] at hs
      split at hs <;> obtain rfl := Option.some.inj hs <;> exact .same rfl (.refl _)
  | swap htOld htNew k =>
      obtain rfl := Option.some.inj hs
      exact .swaps htOld rfl rfl rfl rfl rfl
  | tableNew htOld htNew again k =>
      obtain rfl := Option.some.inj hs
      exact .tells htOld rfl rfl ⟨rfl, rfl, rfl⟩
  | resizeRls again k =>
      obtain rfl := Option.some.inj hs
      refine .releases rfl ?_ rfl rfl
      show Pc.duty (if _ then _ else _) = .none
      split
      · rfl
      · exact k.back_duty
  | ret x =>
      obtain rfl := Option.some.inj hs
      exact .same (Call.returned_duty ..) (.refl _)
  | tasCas p =>
      dsimp only [go] at hs
      split at hs
      · obtain rfl := Option.some.inj hs
        exact .same rfl (setVal_sameLock ..)
      · split at hs <;> obtain rfl := Option.some.inj hs
        · exact .same rfl (.refl _)
        · exact .same (by rw [hl]) (.refl _)
  | tasStore p =>
      obtain rfl := Option.some.inj hs
      exact .same rfl (setVal_sameLock ..)

/-- No table is forgotten. -/
theorem numTabs_of_go {l : Local} (hl : l.pc = pc) (hs : go h l pc = some r) :
    h.numTabs ≤ r.1.numTabs := by
  cases dutyStep_of_go hl hs with
  | same heq hsame => exact hsame.numTabs.ge
  | wins isIncrease by_ htOld k _ hfree hpost hlock hht hnum => exact hnum.ge
  | crashes hpre hpost hsame => exact hsame.numTabs.ge
  | swaps htOld hpre hpost hlock hht hnum => exact hnum ▸ Nat.le_succ _
  | tells htOld hpre hpost hsame => exact hsame.numTabs.ge
  | releases hpre hpost hht hnum => exact hnum.ge

/-! ## Who copies, copies the current table -/

structure Exclusive (c : Conf Tid Clht Local) : Prop where
  cur : c.sh.ht < c.sh.numTabs
  copies : ∀ u T, (c.loc u).pc.duty = .copies T → T = c.sh.ht
  locked : ∀ u, (c.loc u).pc.duty ≠ .none → c.sh.resizeLock = true
  single : ∀ u v, (c.loc u).pc.duty ≠ .none → (c.loc v).pc.duty ≠ .none → u = v

/-- Who wins the lock has read the current table. -/
def FreshStart (c : Conf Tid Clht Local) (t : Tid) : Prop :=
  ∀ isIncrease by_ htOld k, (c.loc t).pc = .resizeTry isIncrease by_ htOld k →
    c.sh.resizeLock = false → htOld = c.sh.ht

variable [DecidableEq Tid]

/-- What is left to show when a thread's duty changes. -/
theorem Exclusive.put (h : Exclusive c) (hcur : r.1.ht < r.1.numTabs)
    (hcopies : ∀ T, r.2.pc.duty = .copies T → T = r.1.ht)
    (hlocked : r.2.pc.duty ≠ .none → r.1.resizeLock = true)
    (hothers : (∃ u, u ≠ t ∧ (c.loc u).pc.duty ≠ .none) →
      r.1.ht = c.sh.ht ∧ r.1.resizeLock = true ∧ r.2.pc.duty = .none) :
    Exclusive (c.put t r) := by
  have hself : (c.put t r).loc t = r.2 := put_loc_self ..
  refine ⟨hcur, ?_, ?_, ?_⟩
  · intro u T hu
    by_cases hut : u = t
    · subst hut
      rw [hself] at hu
      exact hcopies T hu
    · rw [put_loc_ne c r hut] at hu
      exact (h.copies u T hu).trans (hothers ⟨u, hut, by simp [hu]⟩).1.symm
  · intro u hu
    by_cases hut : u = t
    · subst hut
      rw [hself] at hu
      exact hlocked hu
    · rw [put_loc_ne c r hut] at hu
      exact (hothers ⟨u, hut, hu⟩).2.1
  · intro u v hu hv
    by_cases hut : u = t
    · by_cases hvt : v = t
      · exact hut.trans hvt.symm
      · subst hut
        rw [hself] at hu
        rw [put_loc_ne c r hvt] at hv
        exact absurd (hothers ⟨v, hvt, hv⟩).2.2 hu
    · rw [put_loc_ne c r hut] at hu
      by_cases hvt : v = t
      · subst hvt
        rw [hself] at hv
        exact absurd (hothers ⟨u, hut, hu⟩).2.2 hv
      · rw [put_loc_ne c r hvt] at hv
        exact h.single u v hu hv

/-- **Every step keeps it.** -/
theorem Exclusive.step (h : Exclusive c) (hfresh : FreshStart c t)
    (hs : go c.sh (c.loc t) (c.loc t).pc = some r) : Exclusive (c.put t r) := by
  -- when the thread has a duty, nobody else has one
  have halone : (c.loc t).pc.duty ≠ .none → ¬ ∃ u, u ≠ t ∧ (c.loc u).pc.duty ≠ .none := by
    rintro ht ⟨u, hut, hu⟩
    exact hut (h.single u t hu ht)
  cases dutyStep_of_go rfl hs with
  | same heq hsame =>
      refine h.put (by rw [hsame.ht, hsame.numTabs]; exact h.cur) ?_ ?_ ?_
      · intro T hT
        rw [hsame.ht]
        exact h.copies t T (heq.symm.trans hT)
      · intro hd
        rw [hsame.resizeLock]
        exact h.locked t (heq ▸ hd)
      · rintro ⟨u, hut, hu⟩
        refine ⟨hsame.ht, hsame.resizeLock.trans (h.locked u hu), ?_⟩
        rw [heq]
        by_contra hd
        exact halone hd ⟨u, hut, hu⟩
  | wins isIncrease by_ htOld k hpc hfree hpost hlock hht hnum =>
      refine h.put (by rw [hht, hnum]; exact h.cur) ?_ (fun _ => hlock) ?_
      · intro T hT
        obtain rfl : htOld = T := Duty.copies.inj (hpost.symm.trans hT)
        rw [hht]
        exact hfresh isIncrease by_ htOld k hpc hfree
      · rintro ⟨u, -, hu⟩
        exact nomatch (h.locked u hu).symm.trans hfree
  | crashes hpre hpost hsame =>
      refine h.put (by rw [hsame.ht, hsame.numTabs]; exact h.cur) ?_ ?_
        fun hother => absurd hother (halone hpre)
      · intro T hT
        rw [hpost] at hT
        exact nomatch hT
      · intro hd
        rw [hpost] at hd
        exact absurd rfl hd
  | swaps htOld hpre hpost hlock hht hnum =>
      refine h.put (by rw [hht, hnum]; exact Nat.lt_succ_self _) ?_ ?_
        fun hother => absurd hother (halone (by simp [hpre]))
      · intro T hT
        exact nomatch hpost.symm.trans hT
      · intro _
        rw [hlock]
        exact h.locked t (by simp [hpre])
  | tells htOld hpre hpost hsame =>
      refine h.put (by rw [hsame.ht, hsame.numTabs]; exact h.cur) ?_ ?_
        fun hother => absurd hother (halone (by simp [hpre]))
      · intro T hT
        exact nomatch hpost.symm.trans hT
      · intro _
        rw [hsame.resizeLock]
        exact h.locked t (by simp [hpre])
  | releases hpre hpost hht hnum =>
      refine h.put (by rw [hht, hnum]; exact h.cur) ?_ ?_
        fun hother => absurd hother (halone (by simp [hpre]))
      · intro T hT
        exact nomatch hpost.symm.trans hT
      · intro hd
        exact absurd hpost hd

omit [DecidableEq Tid] in
/-- A new table. -/
theorem Init.exclusive {n : Nat} (h : Init n c) : Exclusive c := by
  obtain ⟨T, -, hsh⟩ := Option.map_eq_some_iff.mp h.sh
  have hduty : ∀ u, (c.loc u).pc.duty = .none := fun u => by rw [(h.loc u).1]; rfl
  refine ⟨by rw [← hsh]; exact Nat.one_pos, ?_, ?_, ?_⟩
  · intro u T hu
    exact nomatch (hduty u).symm.trans hu
  · intro u hu
    exact absurd (hduty u) hu
  · intro u v hu
    exact absurd (hduty u) hu

end ClhtLpConc
