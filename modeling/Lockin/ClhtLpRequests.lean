import Lockin.ClhtLpWait

/-! # Requests for a resize

    The expansion that brings `num_expands` to its threshold asks for a resize, once for
    every table, and `ht_resize_pes` drops the request if `resize_lock` is taken.  If the
    holder has not yet published its new table, the table in question is being replaced and
    nothing is lost.  If it has, the request was for the new table: nobody asks again, and
    the table stays as it is, `request_lost`.

    In every run in which each request finds the lock free, or a resizer that is still
    copying the current table, a table over its threshold has a thread that sees to it
    (`Heeded`). -/

namespace ClhtLpConc

open Interleaving SlotTable ClhtLp

variable {Tid : Type} {c : Conf Tid Clht Local} {t : Tid} {r : Clht × Local}

/-! ## Who sees to it -/

/-- The thread has asked for a resize and does not come back before there has been one. -/
def Pc.asks : Pc → Bool
  | .link _ _ _ resize => resize
  | .lockRls _ _ (.status _) => true
  | .statusTry resizeIncrease _ | .statusHt resizeIncrease _ => resizeIncrease
  | .statusScan resizeIncrease _ _ _ _ _ _ => resizeIncrease
  | .resizeHt _ _ _ | .resizeTry _ _ _ _ | .resizeNew _ _ _ _ => true
  | .cpyLock _ _ _ _ | .cpySlot _ _ _ _ _ | .swap _ _ _ => true
  | .tableNew _ _ again _ | .resizeRls again _ => again
  | .crash => true
  | _ => false

/-- The thread is in `ht_status` or `ht_resize_pes`. -/
def Pc.resizes : Pc → Bool
  | .statusTry _ _ | .statusHt _ _ | .statusScan _ _ _ _ _ _ _ | .statusRls _ => true
  | .resizeHt _ _ _ | .resizeTry _ _ _ _ | .resizeNew _ _ _ _ => true
  | .cpyLock _ _ _ _ | .cpySlot _ _ _ _ _ | .swap _ _ _ => true
  | .tableNew _ _ _ _ | .resizeRls _ _ => true
  | _ => false

/-- The thread is inside `ht_status` or `ht_resize_pes`, where it may also have crashed, or
    its put has counted an expansion and must call `ht_status`. -/
def Pc.inside : Pc → Bool
  | .link _ _ _ resize => resize
  | .lockRls _ _ (.status _) => true
  | .crash => true
  | pc => pc.resizes

theorem Pc.inside_of_asks {pc : Pc} (h : pc.asks = true) : pc.inside = true := by
  unfold Pc.asks at h
  split at h <;> first | exact h | rfl | exact nomatch h

theorem Pc.resizes_of_out {pc : Pc} (h : pc.inside = false) : pc.resizes = false := by
  cases pc <;> first | rfl | exact h

/-- Whoever holds `resize_lock` is in `ht_resize_pes`. -/
theorem Pc.resizes_of_duty {pc : Pc} (h : pc.duty ≠ .none) : pc.resizes = true := by
  cases pc <;> first | rfl | exact absurd rfl h

/-- A thread that copies sees to the request. -/
theorem Pc.asks_of_copies {pc : Pc} {T : Nat} (h : pc.duty = .copies T) : pc.asks = true := by
  cases pc <;> first | rfl | exact nomatch h

/-- The invariant of the runs that lose no request. -/
structure Heeded (c : Conf Tid Clht Local) : Prop where
  cur : c.sh.ht < c.sh.numTabs
  copies : ∀ u T, (c.loc u).pc.duty = .copies T → T = c.sh.ht
  locked : ∀ u, (c.loc u).pc.duty ≠ .none → c.sh.resizeLock = true
  single : ∀ u v, (c.loc u).pc.duty ≠ .none → (c.loc v).pc.duty ≠ .none → u = v
  told : ∀ T < c.sh.numTabs, T ≠ c.sh.ht →
    (c.sh.tab T).tableNew ≠ none ∨ ∃ u, (c.loc u).pc.duty = .tells T
  asked : c.sh.cur.numExpandsThreshold ≤ c.sh.cur.numExpands → ∃ u, (c.loc u).pc.asks = true

/-- Whoever tries `resize_lock` gets it for the current table, or somebody is copying that
    table. -/
def Heard (c : Conf Tid Clht Local) (t : Tid) (_ : Act) : Prop :=
  match (c.loc t).pc with
  | .resizeTry _ _ htOld _ =>
      (c.sh.resizeLock = false ∧ htOld = c.sh.ht) ∨ ∃ u, (c.loc u).pc.duty = .copies c.sh.ht
  | _ => True

theorem heard_iff [Fintype Tid] (c : Conf Tid Clht Local) (t : Tid) (a : Act) :
    (match (c.loc t).pc with
      | .resizeTry _ _ htOld _ =>
          decide ((c.sh.resizeLock = false ∧ htOld = c.sh.ht) ∨
            ∃ u, (c.loc u).pc.duty = .copies c.sh.ht)
      | _ => true) = true ↔ Heard c t a := by
  unfold Heard
  cases (c.loc t).pc with
  | resizeTry => exact decide_eq_true_iff
  | _ => exact iff_of_true rfl trivial

instance [Fintype Tid] (c : Conf Tid Clht Local) (t : Tid) (a : Act) : Decidable (Heard c t a) :=
  decidable_of_iff _ (heard_iff c t a)

variable [DecidableEq Tid]

/-! ## One step -/

/-- What most steps leave of the tables. -/
structure Current (h h' : Clht) : Prop where
  ht : h'.ht = h.ht
  numTabs : h'.numTabs = h.numTabs
  successor : ∀ T, (h.tab T).tableNew ≠ none → (h'.tab T).tableNew ≠ none

/-- **Step lemma.** -/
theorem Heeded.put (h : Heeded c) (hcur : Current c.sh r.1)
    (hcopies : ∀ T, r.2.pc.duty = .copies T → T = c.sh.ht)
    (hlock : r.2.pc.duty ≠ .none → r.1.resizeLock = true)
    (hothers : (∃ u, u ≠ t ∧ (c.loc u).pc.duty ≠ .none) →
      r.1.resizeLock = true ∧ r.2.pc.duty = .none)
    (htold : ∀ T, (c.loc t).pc.duty = .tells T →
      (r.1.tab T).tableNew ≠ none ∨ r.2.pc.duty = .tells T)
    (hasked : r.1.cur.numExpandsThreshold ≤ r.1.cur.numExpands →
      r.2.pc.asks = true ∨ ∃ u, u ≠ t ∧ (c.loc u).pc.asks = true) :
    Heeded (c.put t r) := by
  have hself : ((c.put t r).loc t) = r.2 := put_loc_self ..
  refine ⟨by rw [put_sh, hcur.ht, hcur.numTabs]; exact h.cur, ?_, ?_, ?_, ?_, ?_⟩
  · intro u T hu
    rw [put_sh, hcur.ht]
    by_cases hut : u = t
    · subst hut
      rw [hself] at hu
      exact hcopies T hu
    · rw [put_loc_ne c r hut] at hu
      exact h.copies u T hu
  · intro u hu
    by_cases hut : u = t
    · subst hut
      rw [hself] at hu
      exact hlock hu
    · rw [put_loc_ne c r hut] at hu
      exact (hothers ⟨u, hut, hu⟩).1
  · intro u v hu hv
    by_cases hut : u = t
    · by_cases hvt : v = t
      · exact hut.trans hvt.symm
      · subst hut
        rw [hself] at hu
        rw [put_loc_ne c r hvt] at hv
        exact absurd (hothers ⟨v, hvt, hv⟩).2 hu
    · rw [put_loc_ne c r hut] at hu
      by_cases hvt : v = t
      · subst hvt
        rw [hself] at hv
        exact absurd (hothers ⟨u, hut, hu⟩).2 hv
      · rw [put_loc_ne c r hvt] at hv
        exact h.single u v hu hv
  · intro T hT hne
    rw [put_sh, hcur.numTabs] at hT
    rw [put_sh, hcur.ht] at hne
    obtain hsome | ⟨u, hu⟩ := h.told T hT hne
    · exact Or.inl (hcur.successor T hsome)
    · by_cases hut : u = t
      · subst hut
        exact (htold T hu).imp_right fun hd => ⟨u, by rw [hself]; exact hd⟩
      · exact Or.inr ⟨u, by rw [put_loc_ne c r hut]; exact hu⟩
  · intro hthr
    obtain ha | ⟨u, hut, hu⟩ := hasked hthr
    · exact ⟨t, by rw [hself]; exact ha⟩
    · exact ⟨u, by rw [put_loc_ne c r hut]; exact hu⟩

/-- A step that changes neither the duty of its thread nor the lock. -/
theorem Heeded.keep (h : Heeded c) (hcur : Current c.sh r.1)
    (hlock : r.1.resizeLock = c.sh.resizeLock) (hduty : r.2.pc.duty = (c.loc t).pc.duty)
    (hasked : r.1.cur.numExpandsThreshold ≤ r.1.cur.numExpands →
      r.2.pc.asks = true ∨ c.sh.cur.numExpandsThreshold ≤ c.sh.cur.numExpands)
    (hasks : (c.loc t).pc.asks = true → r.2.pc.asks = true) : Heeded (c.put t r) := by
  refine h.put hcur ?_ ?_ ?_ ?_ ?_
  · intro T hT
    rw [hduty] at hT
    exact h.copies t T hT
  · intro hd
    rw [hduty] at hd
    rw [hlock]
    exact h.locked t hd
  · rintro ⟨u, hut, hu⟩
    refine ⟨by rw [hlock]; exact h.locked u hu, ?_⟩
    rw [hduty]
    by_contra hd
    exact hut (h.single u t hu hd)
  · intro T hT
    exact Or.inr (hduty.trans hT)
  · intro hthr
    obtain ha | hold := hasked hthr
    · exact Or.inl ha
    · obtain ⟨u, hu⟩ := h.asked hold
      by_cases hut : u = t
      · subst hut
        exact Or.inl (hasks hu)
      · exact Or.inr ⟨u, hut, hu⟩

/-- A step that leaves the tables alone keeps the current one. -/
theorem SameTabs.current {h h' : Clht} (hs : SameTabs h h') : Current h h' :=
  ⟨hs.ht, hs.numTabs, fun _ => by rw [hs.tab]; exact id⟩

/-- A step that leaves the tables alone. -/
theorem Heeded.quiet (h : Heeded c) {d : Duty} (hsame : SameTabs c.sh r.1)
    (hlock : r.1.resizeLock = c.sh.resizeLock) (hpre : (c.loc t).pc.duty = d)
    (hpost : r.2.pc.duty = d) (hasks : (c.loc t).pc.asks = true → r.2.pc.asks = true) :
    Heeded (c.put t r) := by
  refine h.keep hsame.current hlock (hpost.trans hpre.symm) ?_ hasks
  intro hthr
  rw [Clht.cur, hsame.tab, hsame.ht] at hthr
  exact Or.inr hthr

/-- A step that writes to a table, but does not count. -/
theorem Heeded.edit (h : Heeded c) {d : Duty} {T : Nat} {X : Hashtable}
    (hsh : r.1 = c.sh.setTab T X)
    (hthr : X.numExpandsThreshold = (c.sh.tab T).numExpandsThreshold)
    (hexp : X.numExpands = (c.sh.tab T).numExpands)
    (hnew : X.tableNew = (c.sh.tab T).tableNew) (hpre : (c.loc t).pc.duty = d)
    (hpost : r.2.pc.duty = d) (hasks : (c.loc t).pc.asks = true → r.2.pc.asks = true) :
    Heeded (c.put t r) := by
  have hfix : ∀ T', (r.1.tab T').numExpandsThreshold = (c.sh.tab T').numExpandsThreshold ∧
      (r.1.tab T').numExpands = (c.sh.tab T').numExpands ∧
      (r.1.tab T').tableNew = (c.sh.tab T').tableNew := by
    intro T'
    rw [hsh, tab_setTab]
    split
    · next heq =>
      subst heq
      exact ⟨hthr, hexp, hnew⟩
    · exact ⟨rfl, rfl, rfl⟩
  have hht : r.1.ht = c.sh.ht := by rw [hsh]; rfl
  refine h.keep ⟨hht, by rw [hsh]; rfl, fun T' => ?_⟩ (by rw [hsh]; rfl)
    (hpost.trans hpre.symm) ?_ hasks
  · rw [(hfix T').2.2]
    exact id
  · intro hle
    rw [Clht.cur, hht, (hfix _).1, (hfix _).2.1] at hle
    exact Or.inr hle

theorem Call.create_resizeLock (h : Clht) (call : Call) :
    (call.create h).1.resizeLock = h.resizeLock := by
  cases call <;> rfl

/-- Counting an expansion: a table that is now over its threshold was so before, or has just
    reached it. -/
theorem clhtBucketCreateStats_reached {T : Hashtable}
    (hle : T.numExpandsThreshold ≤ (clhtBucketCreateStats T).1.numExpands) :
    (clhtBucketCreateStats T).2 = true ∨ T.numExpandsThreshold ≤ T.numExpands := by
  have hle' : T.numExpandsThreshold ≤ (T.numExpands + 1) % 2 ^ 32 := hle
  by_cases heq : (T.numExpands + 1) % 2 ^ 32 = T.numExpandsThreshold
  · exact Or.inl (decide_eq_true heq)
  · have := Nat.mod_le (T.numExpands + 1) (2 ^ 32)
    exact Or.inr (by omega)

/-- Publishing the new table: its count is the resizer's to look after. -/
theorem Heeded.swap (h : Heeded c) {htOld : Nat} {htNew : Hashtable} {k : Cont}
    (hduty : (c.loc t).pc.duty = .copies htOld) :
    Heeded (c.put t
      ({ c.sh.setTab c.sh.numTabs { htNew with tablePrev := some htOld } with
          numTabs := c.sh.numTabs + 1
          ht := c.sh.numTabs },
        (c.loc t).goto (.tableNew htOld c.sh.numTabs
          (htNew.numExpandsThreshold ≤ htNew.numExpands) k))) := by
  generalize hr : (({ c.sh.setTab c.sh.numTabs { htNew with tablePrev := some htOld } with
      numTabs := c.sh.numTabs + 1
      ht := c.sh.numTabs } : Clht), (c.loc t).goto (.tableNew htOld c.sh.numTabs
        (htNew.numExpandsThreshold ≤ htNew.numExpands) k)) = r
  have hself : (c.put t r).loc t = r.2 := put_loc_self ..
  have hpost : r.2.pc.duty = .tells htOld := by rw [← hr]; rfl
  -- nobody else has a duty
  have honly : ∀ u, ((c.put t r).loc u).pc.duty ≠ .none → u = t := by
    intro u hu
    by_contra hut
    rw [put_loc_ne c r hut] at hu
    exact hut (h.single u t hu (by simp [hduty]))
  have hfix : r.1.ht = c.sh.numTabs ∧ r.1.numTabs = c.sh.numTabs + 1 ∧
      r.1.resizeLock = c.sh.resizeLock := by
    rw [← hr]
    exact ⟨rfl, rfl, rfl⟩
  refine ⟨by rw [put_sh, hfix.1, hfix.2.1]; exact Nat.lt_succ_self _, ?_, ?_, ?_, ?_, ?_⟩
  · intro u T hu
    obtain rfl := honly u (by simp [hu])
    rw [hself, hpost] at hu
    exact nomatch hu
  · intro u hu
    obtain rfl := honly u hu
    rw [put_sh, hfix.2.2]
    exact h.locked u (by simp [hduty])
  · intro u v hu hv
    exact (honly u hu).trans (honly v hv).symm
  · intro T hT hne
    rw [put_sh, hfix.2.1] at hT
    rw [put_sh, hfix.1] at hne
    have hlt : T < c.sh.numTabs := by omega
    have htab : (r.1.tab T).tableNew = (c.sh.tab T).tableNew := by
      rw [← hr]
      exact congrArg Hashtable.tableNew ((tab_setTab ..).trans (if_neg hne))
    by_cases hold : T = htOld
    · exact Or.inr ⟨t, by rw [hself, hpost, hold]⟩
    · obtain hsome | ⟨u, hu⟩ := h.told T hlt (h.copies t htOld hduty ▸ hold)
      · exact Or.inl (by rw [put_sh, htab]; exact hsome)
      · have hut : u = t := h.single u t (by simp [hu]) (by simp [hduty])
        rw [hut, hduty] at hu
        exact nomatch hu
  · intro hle
    refine ⟨t, ?_⟩
    have hcur : r.1.cur = { htNew with tablePrev := some htOld } := by
      rw [← hr]
      exact (tab_setTab ..).trans (if_pos rfl)
    rw [put_sh, hcur] at hle
    rw [hself, ← hr]
    exact decide_eq_true hle

/-- **Every step keeps the invariant.** -/
theorem Heeded.step (h : Heeded c) (hok : Heard c t .go)
    (hs : go c.sh (c.loc t) (c.loc t).pc = some r) : Heeded (c.put t r) := by
  cases hpc : (c.loc t).pc with
  | idle => rw [hpc] at hs; exact nomatch hs
  | crash => rw [hpc] at hs; exact nomatch hs
  | readHt =>
      rw [hpc] at hs
      obtain rfl := Option.some.inj hs
      exact h.quiet (.refl _) rfl (by rw [hpc]; rfl) (Call.begun_duty ..) (by rw [hpc]; nofun)
  | search T b i =>
      have hpre : (c.loc t).pc.duty = .none := by rw [hpc]; rfl
      have hasks : (c.loc t).pc.asks = true → r.2.pc.asks = true := by rw [hpc]; nofun
      rw [hpc] at hs
      dsimp only [go] at hs
      split at hs
      · split at hs
        · obtain rfl := Option.some.inj hs
          exact h.quiet (.refl _) rfl hpre (Call.hit_duty ..) hasks
        · obtain rfl := Option.some.inj hs
          exact h.quiet (.refl _) rfl hpre rfl hasks
      · obtain rfl := Option.some.inj hs
        exact h.quiet (.refl _) rfl hpre (Call.missed_duty ..) hasks
  | searchVal p =>
      rw [hpc] at hs
      obtain rfl := Option.some.inj hs
      exact h.quiet (.refl _) rfl (by rw [hpc]; rfl) (Call.gotVal_duty ..) (by rw [hpc]; nofun)
  | implHt T b =>
      rw [hpc] at hs
      obtain rfl := Option.some.inj hs
      exact h.quiet (.refl _) rfl (by rw [hpc]; rfl) rfl (by rw [hpc]; nofun)
  | lockAcq T b H =>
      have hpre : (c.loc t).pc.duty = .none := by rw [hpc]; rfl
      have hasks : (c.loc t).pc.asks = true → r.2.pc.asks = true := by rw [hpc]; nofun
      rw [hpc] at hs
      dsimp only [go] at hs
      split at hs
      · obtain rfl := Option.some.inj hs
        exact h.edit rfl rfl rfl rfl hpre rfl hasks
      · obtain rfl := Option.some.inj hs
        rw [put_self]
        exact h
      · obtain rfl := Option.some.inj hs
        exact h.quiet (.refl _) rfl hpre rfl hasks
  | waitNew H =>
      have hpre : (c.loc t).pc.duty = .none := by rw [hpc]; rfl
      have hasks : (c.loc t).pc.asks = true → r.2.pc.asks = true := by rw [hpc]; nofun
      rw [hpc] at hs
      dsimp only [go] at hs
      split at hs
      · obtain rfl := Option.some.inj hs
        rw [put_self]
        exact h
      · obtain rfl := Option.some.inj hs
        exact h.quiet (.refl _) rfl hpre rfl hasks
  | retryHt =>
      rw [hpc] at hs
      obtain rfl := Option.some.inj hs
      exact h.quiet (.refl _) rfl (by rw [hpc]; rfl) rfl (by rw [hpc]; nofun)
  | seek T b H =>
      have hpre : (c.loc t).pc.duty = .none := by rw [hpc]; rfl
      have hasks : (c.loc t).pc.asks = true → r.2.pc.asks = true := by rw [hpc]; nofun
      rw [hpc] at hs
      dsimp only [go] at hs
      split at hs
      · obtain rfl := Option.some.inj hs
        exact h.quiet (.refl _) rfl hpre (Call.present_duty ..) hasks
      · obtain rfl := Option.some.inj hs
        exact h.quiet (Call.create_sameTabs ..) (Call.create_resizeLock ..) hpre
          (Call.absent_duty ..) hasks
  | expand T b H val =>
      have hpre : (c.loc t).pc.duty = .none := by rw [hpc]; rfl
      have hasks : (c.loc t).pc.asks = true → r.2.pc.asks = true := by rw [hpc]; nofun
      rw [hpc] at hs
      obtain rfl := Option.some.inj hs
      refine h.keep ⟨rfl, rfl, fun T' => ?_⟩ rfl hpre.symm ?_ hasks
      · show _ → ((c.sh.setTab H _).tab T').tableNew ≠ none
        rw [tab_setTab]
        split
        · next heq =>
          subst heq
          exact id
        · exact id
      · intro hle
        dsimp only [Clht.cur] at hle
        rw [show (c.sh.setTab H (clhtBucketCreateStats (c.sh.tab H)).1).ht = c.sh.ht from rfl,
          tab_setTab] at hle
        split at hle
        · next heq =>
          subst heq
          exact clhtBucketCreateStats_reached hle
        · exact Or.inr hle
  | link T b val resize =>
      rw [hpc] at hs
      obtain rfl := Option.some.inj hs
      refine h.edit rfl rfl rfl rfl (by rw [hpc]; rfl) rfl ?_
      rw [hpc]
      intro ha
      obtain rfl : resize = true := ha
      rfl
  | putVal p val =>
      rw [hpc] at hs
      obtain rfl := Option.some.inj hs
      obtain ⟨f, hf⟩ := setVal_eq c.sh p val
      exact h.edit hf rfl rfl rfl (by rw [hpc]; rfl) rfl (by rw [hpc]; nofun)
  | putKey p val =>
      rw [hpc] at hs
      obtain rfl := Option.some.inj hs
      obtain ⟨f, hf⟩ := setKey_eq c.sh p (c.loc t).call.key
      exact h.edit hf rfl rfl rfl (by rw [hpc]; rfl) rfl (by rw [hpc]; nofun)
  | rmVal p =>
      rw [hpc] at hs
      obtain rfl := Option.some.inj hs
      exact h.quiet (.refl _) rfl (by rw [hpc]; rfl) rfl (by rw [hpc]; nofun)
  | rmKey p val =>
      rw [hpc] at hs
      obtain rfl := Option.some.inj hs
      obtain ⟨f, hf⟩ := setKey_eq c.sh p 0
      exact h.edit hf rfl rfl rfl (by rw [hpc]; rfl) rfl (by rw [hpc]; nofun)
  | lockRls T b next =>
      rw [hpc] at hs
      obtain rfl := Option.some.inj hs
      refine h.edit rfl rfl rfl rfl (by rw [hpc]; rfl) (After.pc_duty _) ?_
      rw [hpc]
      intro ha
      cases next with
      | status x => rfl
      | _ => exact nomatch ha
  | retVal p =>
      rw [hpc] at hs
      obtain rfl := Option.some.inj hs
      exact h.quiet (.refl _) rfl (by rw [hpc]; rfl) rfl (by rw [hpc]; nofun)
  | statusTry inc k =>
      rw [hpc] at hs
      obtain rfl := Option.some.inj hs
      refine h.quiet (d := .none) ⟨rfl, rfl, rfl⟩ rfl (by rw [hpc]; rfl) ?_ ?_
      · show Pc.duty (if _ then _ else _) = _
        split
        · exact k.back_duty
        · rfl
      · rw [hpc]
        intro ha
        obtain rfl : inc = true := ha
        show Pc.asks (if _ then _ else _) = _
        rw [if_neg (by simp)]
        rfl
  | statusHt inc k =>
      rw [hpc] at hs
      obtain rfl := Option.some.inj hs
      exact h.quiet (.refl _) rfl (by rw [hpc]; rfl) rfl (by rw [hpc]; exact id)
  | statusScan inc T b i size em k =>
      have hpre : (c.loc t).pc.duty = .none := by rw [hpc]; rfl
      have hasks : (c.loc t).pc.asks = true → inc = true := by rw [hpc]; exact id
      rw [hpc] at hs
      dsimp only [go] at hs
      split at hs
      · split at hs <;> obtain rfl := Option.some.inj hs <;>
          exact h.quiet (.refl _) rfl hpre rfl hasks
      · split at hs
        · obtain rfl := Option.some.inj hs
          exact h.quiet (.refl _) rfl hpre rfl fun _ => rfl
        · next hnone =>
          obtain rfl := Option.some.inj hs
          refine h.quiet (.refl _) rfl hpre rfl fun ha => ?_
          rw [hasks ha] at hnone
          exact absurd hnone (by simpa using statusResize_ne_none _ size em)
  | statusRls k =>
      rw [hpc] at hs
      obtain rfl := Option.some.inj hs
      exact h.quiet ⟨rfl, rfl, rfl⟩ rfl (by rw [hpc]; rfl) (Cont.back_duty _) (by rw [hpc]; nofun)
  | resizeHt inc by_ k =>
      rw [hpc] at hs
      obtain rfl := Option.some.inj hs
      exact h.quiet (.refl _) rfl (by rw [hpc]; rfl) rfl fun _ => rfl
  | resizeTry inc by_ htOld k =>
      have hpre : (c.loc t).pc.duty = .none := by rw [hpc]; rfl
      have hheard : (c.sh.resizeLock = false ∧ htOld = c.sh.ht) ∨
          ∃ u, (c.loc u).pc.duty = .copies c.sh.ht := by
        unfold Heard at hok
        rwa [hpc] at hok
      rw [hpc] at hs
      dsimp only [go] at hs
      split at hs
      · next hlock =>
        -- the request is dropped: somebody is copying the table
        obtain rfl := Option.some.inj hs
        obtain ⟨u, hu⟩ := hheard.resolve_left fun hfree => by simp [hfree.1] at hlock
        have hut : u ≠ t := by
          rintro rfl
          exact nomatch hpre.symm.trans hu
        have hpost := k.back_duty
        refine h.put (SameTabs.refl _).current (fun T hT => nomatch hpost.symm.trans hT)
          (fun hd => absurd hpost hd) (fun _ => ⟨hlock, hpost⟩)
          (fun T hT => nomatch hpre.symm.trans hT)
          fun _ => Or.inr ⟨u, hut, Pc.asks_of_copies hu⟩
      · next hlock =>
        obtain rfl := Option.some.inj hs
        have hfree : ∀ u, (c.loc u).pc.duty = .none := by
          intro u
          by_contra hu
          exact hlock (h.locked u hu)
        obtain ⟨-, rfl⟩ := hheard.resolve_right fun ⟨u, hu⟩ => nomatch (hfree u).symm.trans hu
        refine h.put ⟨rfl, rfl, fun _ => id⟩ ?_ (fun _ => rfl)
          (fun ⟨u, _, hu⟩ => absurd (hfree u) hu)
          (fun T hT => nomatch hpre.symm.trans hT) fun _ => Or.inl rfl
        intro T hT
        injection hT with hT
        exact hT.symm
  | resizeNew inc by_ htOld k =>
      have hduty : (c.loc t).pc.duty = .copies htOld := by rw [hpc]; rfl
      rw [hpc] at hs
      dsimp only [go] at hs
      split at hs
      · obtain rfl := Option.some.inj hs
        exact h.put ⟨rfl, rfl, fun _ => id⟩ (fun T hT => nomatch hT) (fun hd => absurd rfl hd)
          (fun ⟨u, hut, hu⟩ => (hut (h.single u t hu (by simp [hduty]))).elim)
          (fun T hT => nomatch hduty.symm.trans hT) fun _ => Or.inl rfl
      · obtain rfl := Option.some.inj hs
        exact h.quiet ⟨rfl, rfl, rfl⟩ rfl hduty rfl fun _ => rfl
  | cpyLock htOld htNew b k =>
      have hduty : (c.loc t).pc.duty = .copies htOld := by rw [hpc]; rfl
      rw [hpc] at hs
      dsimp only [go] at hs
      split at hs
      · split at hs
        · obtain rfl := Option.some.inj hs
          exact h.edit rfl rfl rfl rfl hduty rfl fun _ => rfl
        · obtain rfl := Option.some.inj hs
          rw [put_self]
          exact h
        · obtain rfl := Option.some.inj hs
          exact h.quiet (.refl _) rfl hduty rfl fun _ => rfl
      · obtain rfl := Option.some.inj hs
        exact h.quiet (.refl _) rfl hduty rfl fun _ => rfl
  | cpySlot htOld htNew b i k =>
      have hduty : (c.loc t).pc.duty = .copies htOld := by rw [hpc]; rfl
      rw [hpc] at hs
      dsimp only [go] at hs
      split at hs <;> obtain rfl := Option.some.inj hs <;>
        exact h.quiet (.refl _) rfl hduty rfl fun _ => rfl
  | swap htOld htNew k =>
      have hduty : (c.loc t).pc.duty = .copies htOld := by rw [hpc]; rfl
      rw [hpc] at hs
      obtain rfl := Option.some.inj hs
      exact h.swap hduty
  | tableNew htOld htNew again k =>
      have hduty : (c.loc t).pc.duty = .tells htOld := by rw [hpc]; rfl
      have hasks : (c.loc t).pc.asks = again := by rw [hpc]; rfl
      rw [hpc] at hs
      obtain rfl := Option.some.inj hs
      have htab : ∀ T, ((c.sh.setTab htOld { c.sh.tab htOld with tableNew := some htNew }).tab
          T).numExpandsThreshold = (c.sh.tab T).numExpandsThreshold ∧
          ((c.sh.setTab htOld { c.sh.tab htOld with tableNew := some htNew }).tab T).numExpands
            = (c.sh.tab T).numExpands ∧
          ((c.sh.tab T).tableNew ≠ none ∨ T = htOld →
            ((c.sh.setTab htOld { c.sh.tab htOld with tableNew := some htNew }).tab T).tableNew
              ≠ none) := by
        intro T
        rw [tab_setTab]
        split
        · next heq =>
          subst heq
          exact ⟨rfl, rfl, fun _ => Option.some_ne_none _⟩
        · next hne => exact ⟨rfl, rfl, fun hor => hor.resolve_right hne⟩
      refine h.put ⟨rfl, rfl, fun T hT => (htab T).2.2 (Or.inl hT)⟩ (fun T hT => nomatch hT)
        (fun _ => h.locked t (by simp [hduty]))
        (fun ⟨u, hut, hu⟩ => (hut (h.single u t hu (by simp [hduty]))).elim) ?_ ?_
      · intro T hT
        injection hduty.symm.trans hT with hT
        exact Or.inl ((htab T).2.2 (Or.inr hT.symm))
      · intro hle
        have hle' : c.sh.cur.numExpandsThreshold ≤ c.sh.cur.numExpands := by
          have hfix := htab c.sh.ht
          rw [Clht.cur, ← hfix.1, ← hfix.2.1]
          exact hle
        obtain ⟨u, hu⟩ := h.asked hle'
        by_cases hut : u = t
        · subst hut
          exact Or.inl (hasks.symm.trans hu)
        · exact Or.inr ⟨u, hut, hu⟩
  | resizeRls again k =>
      have hduty : (c.loc t).pc.duty = .releases := by rw [hpc]; rfl
      have hasks : (c.loc t).pc.asks = again := by rw [hpc]; rfl
      rw [hpc] at hs
      obtain rfl := Option.some.inj hs
      have hpost : (if again then Pc.statusTry true k else k.back).duty = .none := by
        split
        · rfl
        · exact k.back_duty
      refine h.put ⟨rfl, rfl, fun _ => id⟩ (fun T hT => nomatch hpost.symm.trans hT)
        (fun hd => absurd hpost hd)
        (fun ⟨u, hut, hu⟩ => (hut (h.single u t hu (by simp [hduty]))).elim)
        (fun T hT => nomatch hduty.symm.trans hT) fun hle => ?_
      obtain ⟨u, hu⟩ := h.asked hle
      by_cases hut : u = t
      · subst hut
        obtain rfl : again = true := hasks.symm.trans hu
        exact Or.inl rfl
      · exact Or.inr ⟨u, hut, hu⟩
  | ret x =>
      rw [hpc] at hs
      obtain rfl := Option.some.inj hs
      exact h.quiet (.refl _) rfl (by rw [hpc]; rfl) (Call.returned_duty ..) (by rw [hpc]; nofun)
  | tasCas p =>
      have hpre : (c.loc t).pc.duty = .none := by rw [hpc]; rfl
      have hasks : (c.loc t).pc.asks = true → r.2.pc.asks = true := by rw [hpc]; nofun
      rw [hpc] at hs
      dsimp only [go] at hs
      split at hs
      · obtain rfl := Option.some.inj hs
        obtain ⟨f, hf⟩ := setVal_eq c.sh p 1
        exact h.edit hf rfl rfl rfl hpre rfl hasks
      · split at hs
        · obtain rfl := Option.some.inj hs
          exact h.quiet (.refl _) rfl hpre rfl hasks
        · obtain rfl := Option.some.inj hs
          rw [put_self]
          exact h
  | tasStore p =>
      rw [hpc] at hs
      obtain rfl := Option.some.inj hs
      obtain ⟨f, hf⟩ := setVal_eq c.sh p 0
      exact h.edit hf rfl rfl rfl (by rw [hpc]; rfl) rfl (by rw [hpc]; nofun)

/-! ## Every run -/

omit [DecidableEq Tid] in
/-- A new table. -/
theorem Init.heeded {n : Nat} (h : Init n c) : Heeded c := by
  obtain ⟨T, hT, hsh⟩ := Option.map_eq_some_iff.mp h.sh
  have hduty : ∀ u, (c.loc u).pc.duty = .none := fun u => by rw [(h.loc u).1]; rfl
  have hcur : c.sh.cur = T ∧ c.sh.numTabs = 1 ∧ c.sh.ht = 0 := by
    rw [← hsh]
    exact ⟨rfl, rfl, rfl⟩
  refine ⟨by rw [hcur.2.1, hcur.2.2]; exact Nat.one_pos, ?_, ?_, ?_, ?_, ?_⟩
  · intro u T hu
    exact nomatch (hduty u).symm.trans hu
  · intro u hu
    exact absurd (hduty u) hu
  · intro u v hu
    exact absurd (hduty u) hu
  · intro T' hT' hne
    rw [hcur.2.1] at hT'
    rw [hcur.2.2] at hne
    omega
  · intro hle
    obtain ⟨hw, -, -, hover, -, -⟩ := clhtLpHashtableCreate_some hT
    rw [hcur.1, hw.thresholdEq, hw.expands, hover] at hle
    have := threshold_pos T.numBuckets
    omega

/-- **Run lemma.** -/
theorem heeded_of_reach {n : Nat} (h : Reach prog Heard (Init n) c) : Heeded c := by
  refine Reach.invariant (fun _ h0 => h0.heeded) ?_ h
  intro c t a r hc hok hs
  cases a with
  | go => exact hc.step hok hs
  | start call =>
      dsimp only [prog] at hs
      split at hs
      · next hidle =>
        obtain ⟨-, heq⟩ := Option.ite_none_right_eq_some.mp hs
        obtain rfl := Option.some.inj heq
        exact hc.quiet (.refl _) rfl (by rw [hidle]; rfl) call.entry_duty (by rw [hidle]; nofun)
      · exact nomatch hs

omit [DecidableEq Tid] in
/-- A superseded table knows its successor when nobody is in `ht_resize_pes`. -/
theorem Heeded.told_of_out (h : Heeded c) (hout : ∀ t, (c.loc t).pc.resizes = false) {T : Nat}
    (hT : T < c.sh.numTabs) (hne : T ≠ c.sh.ht) : (c.sh.tab T).tableNew ≠ none := by
  refine (h.told T hT hne).resolve_right ?_
  rintro ⟨u, hu⟩
  exact Bool.false_ne_true ((hout u).symm.trans (Pc.resizes_of_duty (by simp [hu])))

/-- **No request for a resize is lost** in a run in which every request finds the lock free,
    with `ht_old` still current, or somebody copying the current table.  When nobody is in
    `ht_status` or `ht_resize_pes`, every table but the current one has been replaced; and when
    no put is about to call `ht_status` either, so has every table that has reached its
    threshold. -/
theorem request_heard {n : Nat} (h : Reach prog Heard (Init n) c) :
    ((∀ t, (c.loc t).pc.resizes = false) → ∀ T < c.sh.numTabs, T ≠ c.sh.ht →
      (c.sh.tab T).tableNew ≠ none) ∧
    ((∀ t, (c.loc t).pc.inside = false) → ∀ T < c.sh.numTabs,
      (c.sh.tab T).numExpandsThreshold ≤ (c.sh.tab T).numExpands →
      T ≠ c.sh.ht ∧ (c.sh.tab T).tableNew ≠ none) := by
  have hh := heeded_of_reach h
  refine ⟨fun hout T hT hne => hh.told_of_out hout hT hne, fun hout T hT hle => ?_⟩
  have hne : T ≠ c.sh.ht := by
    rintro rfl
    obtain ⟨u, hu⟩ := hh.asked hle
    exact Bool.false_ne_true ((hout u).symm.trans (Pc.inside_of_asks hu))
  exact ⟨hne, hh.told_of_out (fun t => Pc.resizes_of_out (hout t)) hT hne⟩

/-- Addresses that share the first bucket of every table with up to 16 buckets. -/
def colliding (n : Nat) : Addr := 64 * n

/-- A thread calls `clht_lp_put_init` for `n` of them, the first of them `m`. -/
def putInits (t : Bool) (m n : Nat) : List (Bool × Act) :=
  (List.range' m n).flatMap fun k => calls t (.putInit (colliding k)) 7

/-- All threads are outside. -/
def quietConf (c : Conf Bool Clht Local) : Bool :=
  !(c.loc false).pc.inside && !(c.loc true).pc.inside

theorem quietConf_out {c : Conf Bool Clht Local} (h : quietConf c = true) (t : Bool) :
    (c.loc t).pc.inside = false := by
  obtain ⟨hf, ht⟩ := Bool.and_eq_true_iff.mp h
  cases t with
  | false => simpa using hf
  | true => simpa using ht

/-- The condition can be met: the fourth address of the only bucket leads to a resize. -/
theorem request_heard_replaced : ∃ c : Conf Bool Clht Local, Reach prog Heard (Init 1) c ∧
    (c.sh.tab 0).numExpandsThreshold ≤ (c.sh.tab 0).numExpands ∧ 0 ≠ c.sh.ht ∧
    (c.sh.tab 0).tableNew ≠ none := by
  have hrun : ((start 1).bind fun c => exec prog Heard c
      (putInits true 1 3 ++ calls true (.putInit (colliding 4)) 33)).any
      (fun c => quietConf c && decide ((c.sh.tab 0).numExpandsThreshold ≤
        (c.sh.tab 0).numExpands ∧ 0 < c.sh.numTabs)) = true := by
    decide +kernel
  obtain ⟨c, hc, hP⟩ := reach_of_start hrun
  obtain ⟨hq, hP⟩ := Bool.and_eq_true_iff.mp hP
  obtain ⟨hle, hpos⟩ := of_decide_eq_true hP
  exact ⟨c, hc, hle, (request_heard hc).2 (quietConf_out hq) 0 hpos hle⟩

/-- The resizer has published table 1 and told table 0, but still has the lock; then another
    thread's puts bring table 1 to its threshold. -/
def lostSchedule : List (Bool × Act) :=
  putInits true 1 3 ++ (calls true (.putInit (colliding 4)) 30 ++ (putInits false 5 8 ++
    (calls false (.putInit (colliding 13)) 41 ++ List.replicate 3 (true, .go))))

/-- Without the condition a table stays current with its threshold reached and nobody about to
    resize it. -/
theorem request_lost : ∃ c : Conf Bool Clht Local, Reach prog PutsOnly (Init 1) c ∧
    (∀ t, (c.loc t).pc.inside = false) ∧ c.sh.resizeLock = false ∧
    c.sh.cur.numExpandsThreshold ≤ c.sh.cur.numExpands ∧ c.sh.cur.tableNew = none ∧
    (.putInit (colliding 13), .num 0) ∈ (c.loc false).log := by
  have hrun : ((start 1).bind fun c => exec prog PutsOnly c lostSchedule).any
      (fun c => quietConf c && decide (c.sh.resizeLock = false ∧
        c.sh.cur.numExpandsThreshold ≤ c.sh.cur.numExpands ∧ c.sh.cur.tableNew = none ∧
        (.putInit (colliding 13), .num 0) ∈ (c.loc false).log)) = true := by
    decide +kernel
  obtain ⟨c, hc, hP⟩ := reach_of_start hrun
  obtain ⟨hq, hP⟩ := Bool.and_eq_true_iff.mp hP
  exact ⟨c, hc, quietConf_out hq, of_decide_eq_true hP⟩

end ClhtLpConc
