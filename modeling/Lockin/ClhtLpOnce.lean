import Lockin.ClhtLpPuts
import Lockin.ClhtLpRequests

/-! # One resize for every table

    The expansion that brings `num_expands` of a table to its threshold asks for a resize.  As
    long as the counter has not come round to 0 there is only one such expansion, so only one
    thread asks (`Once.single`), nobody but that thread replaces the table, and the table it has
    read before it takes `resize_lock` is still the current one.  So the runs in which no counter
    comes round are among those of `puts_kept`. -/

namespace ClhtLpConc

open Interleaving SlotTable ClhtLp

variable {Tid : Type} {c : Conf Tid Clht Local} {t : Tid} {r : Clht × Local} {h h' : Clht}
  {pc : Pc}

/-! ## The condition -/

/-- The calls of the pointer flavours of GLS. -/
def Call.pointers : Call → Prop
  | .putType key _ | .get key => key ≠ 0
  | _ => False

/-- The calls of GLS are calls of a map. -/
theorem Call.maps_of_pointers {call : Call} (hp : call.pointers) : call.maps := by
  cases call <;> first | exact hp | exact hp.elim

/-- A lookup of an address follows a put of it by the same thread. -/
def Call.follows (l : Local) : Call → Prop
  | .get key => ∃ type x, (.putType key type, x) ∈ l.log
  | _ => True

/-- The counter of expansions does not come round, and `int32_t b` reaches all buckets of a table
    that is copied. -/
def Room (h : Clht) : Pc → Prop
  | .expand _ _ hashtable _ => (h.tab hashtable).numExpands + 1 < 2 ^ 32
  | .resizeTry _ _ htOld _ => h.resizeLock = false → (h.tab htOld).numBuckets ≤ 2 ^ 31
  | _ => True

theorem room_iff (h : Clht) (pc : Pc) :
    (match pc with
      | .expand _ _ hashtable _ => decide ((h.tab hashtable).numExpands + 1 < 2 ^ 32)
      | .resizeTry _ _ htOld _ =>
          decide (h.resizeLock = false → (h.tab htOld).numBuckets ≤ 2 ^ 31)
      | _ => true) = true ↔ Room h pc := by
  cases pc with
  | expand | resizeTry => exact decide_eq_true_iff
  | _ => exact iff_of_true rfl trivial

instance (h : Clht) (pc : Pc) : Decidable (Room h pc) := decidable_of_iff _ (room_iff h pc)

/-- Puts and lookups, with room for every step. -/
def Counted (c : Conf Tid Clht Local) (t : Tid) (a : Act) : Prop :=
  match a with
  | .start call => call.pointers ∧ call.follows (c.loc t)
  | .go => Room c.sh (c.loc t).pc

/-! ## The invariant -/

/-- The pointers to tables that a thread has read: that of a put is not older than its bucket,
    and nobody replaces the table that a resizer is about to lock.  Nobody else asks `ht_status`
    for a look. -/
def Reads (h : Clht) : Pc → Prop
  | .lockAcq T _ H => T ≤ H ∧ H ≤ h.ht
  | .seek T _ H | .expand T _ H _ => H = T
  | .statusTry inc _ | .statusHt inc _ | .statusScan inc _ _ _ _ _ _ => inc = true
  | .resizeTry _ _ htOld _ => htOld = h.ht
  | _ => True

/-- The current table and all counters are as they were. -/
structure SameCounts (h h' : Clht) : Prop where
  ht : h'.ht = h.ht
  numTabs : h'.numTabs = h.numTabs
  expands : ∀ T, (h'.tab T).numExpands = (h.tab T).numExpands
  threshold : ∀ T, (h'.tab T).numExpandsThreshold = (h.tab T).numExpandsThreshold

theorem SameCounts.refl (h : Clht) : SameCounts h h := ⟨rfl, rfl, fun _ => rfl, fun _ => rfl⟩

/-- Equal tables have equal counters. -/
theorem SameTabs.counts (hs : SameTabs h h') : SameCounts h h' :=
  ⟨hs.ht, hs.numTabs, fun _ => by rw [hs.tab], fun _ => by rw [hs.tab]⟩

/-- A table is written, but nothing is counted. -/
theorem SameCounts.setTab {T : Nat} {X : Hashtable} (hexp : X.numExpands = (h.tab T).numExpands)
    (hthr : X.numExpandsThreshold = (h.tab T).numExpandsThreshold) :
    SameCounts h (h.setTab T X) := by
  refine ⟨rfl, rfl, fun T' => ?_, fun T' => ?_⟩
  all_goals
    rw [tab_setTab]
    split
    · next heq =>
      subst heq
      assumption
    · rfl

/-- A store of a value counts nothing. -/
theorem SameCounts.setVal (p : SlotPtr) (val : Val) : SameCounts h (h.setVal p val) := by
  unfold Clht.setVal
  split
  · exact .setTab rfl rfl
  · exact .refl _

/-- A store of a key counts nothing. -/
theorem SameCounts.setKey (p : SlotPtr) (key : Addr) : SameCounts h (h.setKey p key) := by
  unfold Clht.setKey
  split
  · exact .setTab rfl rfl
  · exact .refl _

/-- The invariant: one thread at most sees to the request of the current table, and only after
    its counter has reached the threshold. -/
structure Once (c : Conf Tid Clht Local) : Prop where
  last : c.sh.numTabs = c.sh.ht + 1
  calls : ∀ u, (c.loc u).pc = .idle ∨ (c.loc u).call.pointers
  single : ∀ u v, (c.loc u).pc.asks = true → (c.loc v).pc.asks = true → u = v
  reached : ∀ u, (c.loc u).pc.asks = true →
    c.sh.cur.numExpandsThreshold ≤ c.sh.cur.numExpands
  reads : ∀ u, Reads c.sh (c.loc u).pc

/-- What a thread has read of `ht` stays current. -/
theorem Reads.congr (hr : Reads h pc) (hht : h'.ht = h.ht) : Reads h' pc := by
  cases pc with
  | lockAcq T b H => exact ⟨hr.1, hr.2.trans hht.ge⟩
  | resizeTry inc by_ htOld k => exact Eq.trans hr hht.symm
  | _ => exact hr

/-- A request is met with the table that is still current. -/
theorem Once.fresh (h : Once c) (hok : Counted c t .go) : FreshResizes c t .go := by
  have hr := h.reads t
  have hroom : Room c.sh (c.loc t).pc := hok
  unfold FreshResizes
  dsimp only
  cases hpc : (c.loc t).pc with
  | resizeTry inc by_ htOld k =>
      rw [hpc] at hroom hr
      intro hfree
      obtain rfl : htOld = c.sh.ht := hr
      exact ⟨rfl, hroom hfree⟩
  | _ => trivial

/-! ## Where the steps lead to -/

theorem Call.begun_asks (T b : Nat) (call : Call) : (call.begun T b).asks = false := by
  cases call <;> rfl

theorem Call.present_asks (p : SlotPtr) (call : Call) : (call.present p).asks = false := by
  cases call <;> rfl

/-- The search under the lock asks for no resize. -/
theorem Call.absent_asks (T b H : Nat) (e : Option Nat) (v : Val) (call : Call) :
    (call.absent T b H e v).asks = false := by
  cases call <;> cases e <;> rfl

/-- A thread asks for a resize until it has called `ht_status`. -/
theorem After.pc_asks (T b : Nat) (next : After) :
    next.pc.asks = (Pc.lockRls T b next).asks := by
  cases next <;> rfl

/-- After `ht_status` the request is met. -/
theorem Cont.back_asks (k : Cont) : k.back.asks = false := by
  unfold Cont.back
  split <;> rfl

theorem Cont.back_reads (h : Clht) (k : Cont) : Reads h k.back := by
  unfold Cont.back
  split <;> trivial

theorem Call.gotVal_pointers {call : Call} (hcall : call.pointers) (p : SlotPtr) (v : Val) :
    (call.gotVal p v).asks = false ∧ Reads h (call.gotVal p v) := by
  cases call with
  | putType key type =>
      dsimp only [Call.gotVal]
      split_ifs <;> exact ⟨rfl, trivial⟩
  | get key => exact ⟨rfl, trivial⟩
  | _ => exact hcall.elim

/-- A call of GLS returns. -/
theorem Call.returned_pointers {call : Call} (hcall : call.pointers) (l : Local) (x : Ret) :
    (call.returned l x).pc = .idle := by
  cases call <;> first | rfl | exact hcall.elim

variable [DecidableEq Tid]

/-! ## One step -/

/-- What is left to show for a step that counts nothing. -/
theorem Once.quiet (h : Once c) (hsame : SameCounts c.sh r.1)
    (hcalls : r.2.pc = .idle ∨ r.2.call.pointers)
    (hasks : r.2.pc.asks = true → (c.loc t).pc.asks = true) (hreads : Reads r.1 r.2.pc) :
    Once (c.put t r) := by
  have hself : (c.put t r).loc t = r.2 := put_loc_self ..
  -- whoever asks now, has asked before
  have hbefore : ∀ u, ((c.put t r).loc u).pc.asks = true → (c.loc u).pc.asks = true := by
    intro u hu
    by_cases hut : u = t
    · subst hut
      rw [hself] at hu
      exact hasks hu
    · rwa [put_loc_ne c r hut] at hu
  refine ⟨?_, ?_, fun u v hu hv => h.single u v (hbefore u hu) (hbefore v hv), ?_, ?_⟩
  · rw [put_sh, hsame.numTabs, hsame.ht]
    exact h.last
  · intro u
    by_cases hut : u = t
    · subst hut
      rw [hself]
      exact hcalls
    · rw [put_loc_ne c r hut]
      exact h.calls u
  · intro u hu
    rw [put_sh, Clht.cur, hsame.ht, hsame.threshold, hsame.expands]
    exact h.reached u (hbefore u hu)
  · intro u
    by_cases hut : u = t
    · subst hut
      rw [hself]
      exact hreads
    · rw [put_loc_ne c r hut]
      exact (h.reads u).congr hsame.ht

/-- An expansion of the current table: who reaches the threshold is the only one that asks. -/
theorem Once.expand (h : Once c) {T b : Nat} {val : Val}
    (hpc : (c.loc t).pc = .expand T b c.sh.ht val)
    (hroom : c.sh.cur.numExpands + 1 < 2 ^ 32)
    (hcall : (c.loc t).call.pointers) :
    Once (c.put t (c.sh.setTab c.sh.ht (clhtBucketCreateStats c.sh.cur).1,
      (c.loc t).goto (.link T b val (clhtBucketCreateStats c.sh.cur).2))) := by
  generalize hr : (c.sh.setTab c.sh.ht (clhtBucketCreateStats c.sh.cur).1,
    (c.loc t).goto (.link T b val (clhtBucketCreateStats c.sh.cur).2)) = r
  have hself : (c.put t r).loc t = r.2 := put_loc_self ..
  have hstats : (clhtBucketCreateStats c.sh.cur).2
      = decide (c.sh.cur.numExpands + 1 = c.sh.cur.numExpandsThreshold) := by
    unfold clhtBucketCreateStats
    rw [Nat.mod_eq_of_lt hroom]
  have hcur : r.1.cur.numExpands = c.sh.cur.numExpands + 1 ∧
      r.1.cur.numExpandsThreshold = c.sh.cur.numExpandsThreshold := by
    rw [← hr]
    dsimp only
    rw [setTab_cur]
    exact ⟨Nat.mod_eq_of_lt hroom, rfl⟩
  have hpost : r.2.pc = .link T b val (clhtBucketCreateStats c.sh.cur).2 := by rw [← hr]; rfl
  have hnow : r.2.pc.asks = true → c.sh.cur.numExpands + 1 = c.sh.cur.numExpandsThreshold := by
    intro ha
    rw [hpost] at ha
    exact of_decide_eq_true (hstats.symm.trans ha)
  -- at the threshold nobody has asked before
  have hnobody : r.2.pc.asks = true → ∀ u, (c.loc u).pc.asks ≠ true := by
    intro ha u hu
    have hold := h.reached u hu
    have := hnow ha
    omega
  refine ⟨by rw [← hr]; exact h.last, ?_, ?_, ?_, ?_⟩
  · intro u
    by_cases hut : u = t
    · subst hut
      rw [hself, ← hr]
      exact Or.inr hcall
    · rw [put_loc_ne c r hut]
      exact h.calls u
  · intro u v hu hv
    by_cases hut : u = t
    · by_cases hvt : v = t
      · exact hut.trans hvt.symm
      · subst hut
        rw [hself] at hu
        rw [put_loc_ne c r hvt] at hv
        exact absurd hv (hnobody hu v)
    · rw [put_loc_ne c r hut] at hu
      by_cases hvt : v = t
      · subst hvt
        rw [hself] at hv
        exact absurd hu (hnobody hv u)
      · rw [put_loc_ne c r hvt] at hv
        exact h.single u v hu hv
  · intro u hu
    rw [put_sh, hcur.1, hcur.2]
    by_cases hut : u = t
    · subst hut
      rw [hself] at hu
      exact (hnow hu).ge
    · rw [put_loc_ne c r hut] at hu
      exact (h.reached u hu).trans (Nat.le_succ _)
  · intro u
    by_cases hut : u = t
    · subst hut
      rw [hself, hpost]
      trivial
    · rw [put_loc_ne c r hut]
      refine (h.reads u).congr ?_
      rw [← hr]
      rfl

/-- The new table: its count is the resizer's to look after. -/
theorem Once.swap (h : Once c) {htOld : Nat} {htNew : Hashtable} {k : Cont}
    (hpc : (c.loc t).pc = .swap htOld htNew k) (hcall : (c.loc t).call.pointers) :
    Once (c.put t
      ({ c.sh.setTab c.sh.numTabs { htNew with tablePrev := some htOld } with
          numTabs := c.sh.numTabs + 1
          ht := c.sh.numTabs },
        (c.loc t).goto (.tableNew htOld c.sh.numTabs
          (htNew.numExpandsThreshold ≤ htNew.numExpands) k))) := by
  generalize hr : (({ c.sh.setTab c.sh.numTabs { htNew with tablePrev := some htOld } with
      numTabs := c.sh.numTabs + 1
      ht := c.sh.numTabs } : Clht), (c.loc t).goto (.tableNew htOld c.sh.numTabs
        (htNew.numExpandsThreshold ≤ htNew.numExpands) k)) = r
  have hself : (c.put t r).loc t = r.2 := put_loc_self ..
  have hht : r.1.ht = c.sh.ht + 1 := by
    rw [← hr]
    exact h.last
  -- nobody else asks
  have hother : ∀ u, u ≠ t → (c.loc u).pc.asks ≠ true := by
    intro u hut hu
    exact hut (h.single u t hu (by rw [hpc]; rfl))
  have honly : ∀ u, ((c.put t r).loc u).pc.asks = true → u = t := by
    intro u hu
    by_contra hut
    rw [put_loc_ne c r hut] at hu
    exact hother u hut hu
  refine ⟨by rw [← hr]; rfl, ?_, fun u v hu hv => (honly u hu).trans (honly v hv).symm, ?_, ?_⟩
  · intro u
    by_cases hut : u = t
    · subst hut
      rw [hself, ← hr]
      exact Or.inr hcall
    · rw [put_loc_ne c r hut]
      exact h.calls u
  · intro u hu
    obtain rfl := honly u hu
    have hcur : r.1.cur = { htNew with tablePrev := some htOld } := by
      rw [← hr]
      exact (tab_setTab ..).trans (if_pos rfl)
    rw [hself, ← hr] at hu
    rw [put_sh, hcur]
    exact of_decide_eq_true hu
  · intro u
    by_cases hut : u = t
    · subst hut
      rw [hself, ← hr]
      trivial
    · rw [put_loc_ne c r hut, put_sh]
      have hold := h.reads u
      have hu := hother u hut
      cases hpcu : (c.loc u).pc
      all_goals rw [hpcu] at hold hu
      case lockAcq T b H => exact ⟨hold.1, hold.2.trans (hht ▸ Nat.le_succ _)⟩
      case resizeTry inc by_ htOld' k' => exact absurd rfl hu
      all_goals exact hold

/-- **Every step keeps the invariant.** -/
theorem Once.step (h : Once c) (hp : Puts c) (hok : Counted c t .go)
    (hs : go c.sh (c.loc t) (c.loc t).pc = some r) : Once (c.put t r) := by
  have hk := hp.kept.known t
  have hr := h.reads t
  have hpc : (c.loc t).pc ≠ .idle := by
    intro hidle
    rw [hidle] at hs
    cases hs
  have hcall := (h.calls t).resolve_left hpc
  have hcalls : r.2.pc = .idle ∨ r.2.call.pointers := Or.inr ((call_of_go hs).symm ▸ hcall)
  -- the bucket that a thread has locked is one of the current table
  have hcur : ∀ {T b : Nat}, Locked c.sh (c.loc t).call.key T b → T = c.sh.ht := fun hl =>
    hp.kept.cur_of_byte hl.toAt (by rw [hl.byte]; simp)
  cases hpc : (c.loc t).pc
  all_goals rw [hpc] at hs hk hr
  case idle | crash => cases hs
  case readHt =>
    obtain rfl := Option.some.inj hs
    refine h.quiet (.refl _) hcalls (fun ha => ?_) ?_
    · exact absurd ha (by simp [Local.goto, Call.begun_asks])
    · show Reads _ ((c.loc t).call.begun _ _)
      cases hc : (c.loc t).call <;> rw [hc] at hcall <;> trivial
  case search T b i =>
    dsimp only [go] at hs
    split at hs
    · split at hs <;> obtain rfl := Option.some.inj hs
      · show Once (c.put t (c.sh, (c.loc t).goto ((c.loc t).call.hit _)))
        cases hc : (c.loc t).call <;> rw [hc] at hcall <;> first
          | exact hcall.elim
          | exact h.quiet (.refl _) (Or.inr (hc ▸ hcall)) (by simp [Local.goto, Call.hit, Pc.asks])
              trivial
      · exact h.quiet (.refl _) hcalls (by simp [Local.goto, Pc.asks]) trivial
    · obtain rfl := Option.some.inj hs
      show Once (c.put t (c.sh, (c.loc t).goto ((c.loc t).call.missed _ _)))
      cases hc : (c.loc t).call <;> rw [hc] at hcall <;> first
        | exact hcall.elim
        | exact h.quiet (.refl _) (Or.inr (hc ▸ hcall)) (by simp [Local.goto, Call.missed, Pc.asks])
            trivial
  case searchVal p =>
    obtain rfl := Option.some.inj hs
    obtain ⟨hasks, hreads⟩ := Call.gotVal_pointers (h := c.sh) hcall p (c.sh.read p)
    exact h.quiet (.refl _) hcalls (by simp [Local.goto, hasks]) hreads
  case implHt T b =>
    obtain rfl := Option.some.inj hs
    have hT : T < c.sh.numTabs := hk.table
    have := h.last
    exact h.quiet (.refl _) hcalls (by simp [Local.goto, Pc.asks]) ⟨by omega, le_rfl⟩
  case lockAcq T b H =>
    dsimp only [go] at hs
    split at hs
    · next hfree =>
      obtain rfl := Option.some.inj hs
      obtain rfl := hp.kept.cur_of_byte hk (by rw [hfree]; simp)
      exact h.quiet (.setTab rfl rfl) hcalls (by simp [Local.goto, Pc.asks])
        (Nat.le_antisymm hr.2 hr.1)
    · obtain rfl := Option.some.inj hs
      rw [put_self]
      exact h
    · obtain rfl := Option.some.inj hs
      exact h.quiet (.refl _) hcalls (by simp [Local.goto, Pc.asks]) trivial
  case waitNew H =>
    dsimp only [go] at hs
    split at hs <;> obtain rfl := Option.some.inj hs
    · rw [put_self]
      exact h
    · exact h.quiet (.refl _) hcalls (by simp [Local.goto, Pc.asks]) trivial
  case retryHt =>
    obtain rfl := Option.some.inj hs
    exact h.quiet (.refl _) hcalls (by simp [Local.goto, Pc.asks]) ⟨le_rfl, le_rfl⟩
  case seek T b H =>
    obtain rfl : H = T := hr
    dsimp only [go] at hs
    split at hs <;> obtain rfl := Option.some.inj hs
    · refine h.quiet (.refl _) hcalls (by simp [Local.goto, Call.present_asks]) ?_
      show Reads _ ((c.loc t).call.present _)
      cases (c.loc t).call <;> trivial
    · next e _ =>
      refine h.quiet (Call.create_sameTabs ..).counts hcalls
        (by simp [Local.goto, Call.absent_asks]) ?_
      show Reads _ ((c.loc t).call.absent _ _ _ _ _)
      cases (c.loc t).call <;> cases e <;> trivial
  case expand T b H val =>
    obtain rfl : H = T := hr
    obtain rfl := hcur hk.1
    obtain rfl := Option.some.inj hs
    have hroom : Room c.sh (c.loc t).pc := hok
    rw [hpc] at hroom
    exact h.expand hpc hroom hcall
  case link T b val resize =>
    obtain rfl := Option.some.inj hs
    refine h.quiet (.setTab rfl rfl) hcalls ?_ trivial
    rw [hpc]
    cases resize
    · simp [Local.goto, Pc.asks]
    · exact fun _ => rfl
  case putVal p val =>
    obtain rfl := Option.some.inj hs
    exact h.quiet (.setVal ..) hcalls (by simp [Local.goto, Pc.asks]) trivial
  case putKey p val =>
    obtain rfl := Option.some.inj hs
    exact h.quiet (.setKey ..) hcalls (by simp [Local.goto, Pc.asks]) trivial
  case rmVal p => exact hk.elim
  case rmKey p val => exact hk.elim
  case lockRls T b next =>
    obtain rfl := Option.some.inj hs
    refine h.quiet (.setTab rfl rfl) hcalls ?_ ?_
    · rw [hpc]
      exact (After.pc_asks T b next).le
    · show Reads _ next.pc
      cases next <;> trivial
  case retVal p =>
    obtain rfl := Option.some.inj hs
    exact h.quiet (.refl _) hcalls (by simp [Local.goto, Pc.asks]) trivial
  case statusTry inc k =>
    obtain rfl : inc = true := hr
    obtain rfl := Option.some.inj hs
    have hpost : (if c.sh.statusLock ∧ !true then k.back else Pc.statusHt true k)
        = .statusHt true k := if_neg (by simp)
    refine h.quiet (SameTabs.counts ⟨rfl, rfl, rfl⟩) hcalls (fun _ => by rw [hpc]; rfl) ?_
    show Reads _ (if _ then _ else _)
    rw [hpost]
    rfl
  case statusHt inc k =>
    obtain rfl := Option.some.inj hs
    exact h.quiet (.refl _) hcalls (by rw [hpc]; exact id) hr
  case statusScan inc T b i size em k =>
    obtain rfl : inc = true := hr
    dsimp only [go] at hs
    split at hs
    · split at hs <;> obtain rfl := Option.some.inj hs <;>
        exact h.quiet (.refl _) hcalls (fun _ => by rw [hpc]; rfl) rfl
    · split at hs <;> obtain rfl := Option.some.inj hs
      · exact h.quiet (.refl _) hcalls (fun _ => by rw [hpc]; rfl) trivial
      · exact h.quiet (.refl _) hcalls (by simp [Local.goto, Pc.asks]) trivial
  case statusRls k =>
    obtain rfl := Option.some.inj hs
    exact h.quiet (SameTabs.counts ⟨rfl, rfl, rfl⟩) hcalls
      (by simp [Local.goto, Cont.back_asks]) (Cont.back_reads ..)
  case resizeHt inc by_ k =>
    obtain rfl := Option.some.inj hs
    exact h.quiet (.refl _) hcalls (fun _ => by rw [hpc]; rfl) rfl
  case resizeTry inc by_ htOld k =>
    dsimp only [go] at hs
    split at hs <;> obtain rfl := Option.some.inj hs
    · exact h.quiet (.refl _) hcalls (by simp [Local.goto, Cont.back_asks]) (Cont.back_reads ..)
    · exact h.quiet (SameTabs.counts ⟨rfl, rfl, rfl⟩) hcalls (fun _ => by rw [hpc]; rfl) trivial
  case resizeNew inc by_ htOld k =>
    dsimp only [go] at hs
    split at hs <;> obtain rfl := Option.some.inj hs <;>
      exact h.quiet (SameTabs.counts ⟨rfl, rfl, rfl⟩) hcalls (fun _ => by rw [hpc]; rfl) trivial
  case cpyLock htOld htNew b k =>
    dsimp only [go] at hs
    split at hs
    · split at hs <;> obtain rfl := Option.some.inj hs
      · exact h.quiet (.setTab rfl rfl) hcalls (fun _ => by rw [hpc]; rfl) trivial
      · rw [put_self]
        exact h
      · exact h.quiet (.refl _) hcalls (fun _ => by rw [hpc]; rfl) trivial
    · obtain rfl := Option.some.inj hs
      exact h.quiet (.refl _) hcalls (fun _ => by rw [hpc]; rfl) trivial
  case cpySlot htOld htNew b i k =>
    dsimp only [go] at hs
    split at hs <;> obtain rfl := Option.some.inj hs <;>
      exact h.quiet (.refl _) hcalls (fun _ => by rw [hpc]; rfl) trivial
  case swap htOld htNew k =>
    obtain rfl := Option.some.inj hs
    exact h.swap hpc hcall
  case tableNew htOld htNew again k =>
    obtain rfl := Option.some.inj hs
    exact h.quiet (.setTab rfl rfl) hcalls (by rw [hpc]; exact id) trivial
  case resizeRls again k =>
    obtain rfl := Option.some.inj hs
    refine h.quiet (SameTabs.counts ⟨rfl, rfl, rfl⟩) hcalls ?_ ?_
    · rw [hpc]
      cases again
      · simp [Local.goto, Cont.back_asks]
      · exact fun _ => rfl
    · show Reads _ (if _ then _ else _)
      split
      · rfl
      · exact Cont.back_reads ..
  case ret x =>
    obtain rfl := Option.some.inj hs
    have hidle := Call.returned_pointers hcall (c.loc t) x
    refine h.quiet (.refl _) (Or.inl hidle) ?_ ?_
    · simp [hidle, Pc.asks]
    · rw [hidle]
      trivial
  case tasCas p =>
    exact absurd hk.2 (by simp [Call.takes_of_maps (Call.maps_of_pointers hcall)])
  case tasStore p =>
    exact absurd hk.2 (by simp [Call.gives_of_maps (Call.maps_of_pointers hcall)])

/-! ## Every run -/

/-- A call begins. -/
theorem Once.begin (h : Once c) {call : Call} (hcall : call.pointers) :
    Once (c.put t (c.sh, { c.loc t with pc := call.entry, call := call })) := by
  refine h.quiet (.refl _) (Or.inr hcall) ?_ ?_
  · cases call <;> first | exact hcall.elim | simp [Call.entry, Pc.asks]
  · cases call <;> first | exact hcall.elim | trivial

omit [DecidableEq Tid] in
/-- A new table. -/
theorem Init.once {n : Nat} (h : Init n c) : Once c := by
  have hone : c.sh.ht = 0 ∧ c.sh.numTabs = 1 := by
    obtain ⟨T, -, hsh⟩ := Option.map_eq_some_iff.mp h.sh
    rw [← hsh]
    exact ⟨rfl, rfl⟩
  have hasks : ∀ u, (c.loc u).pc.asks = false := by
    intro u
    rw [(h.loc u).1]
    rfl
  refine ⟨by omega, fun u => Or.inl (h.loc u).1, ?_, ?_, ?_⟩
  · intro u v hu
    exact absurd hu (by simp [hasks])
  · intro u hu
    exact absurd hu (by simp [hasks])
  · intro u
    rw [(h.loc u).1]
    trivial

/-- **Before a counter comes round, a table is resized once at most.** -/
theorem once_of_reach {n : Nat} (h : Reach prog Counted (Init n) c) : Once c ∧ Puts c := by
  refine Reach.invariant (I := fun c => Once c ∧ Puts c) (fun _ h0 => ⟨h0.once, h0.puts⟩) ?_ h
  rintro c t a r ⟨ho, hp⟩ hok hs
  obtain ⟨call, rfl, hidle, -, rfl⟩ | ⟨rfl, hs⟩ := prog_cases hs
  · exact ⟨ho.begin hok.1, hp.begin hidle (Call.maps_of_pointers hok.1)⟩
  · exact ⟨ho.step hp hok hs, hp.step (ho.fresh hok) hs⟩

/-- The runs in which no counter comes round are runs of `puts_kept`. -/
theorem fresh_of_counted {n : Nat} (h : Reach prog Counted (Init n) c) :
    Reach prog FreshResizes (Init n) c := by
  induction h with
  | start h0 => exact .start h0
  | @step c t a r hc hok hs ih =>
      refine .step ih ?_ hs
      cases a with
      | start call => exact Call.maps_of_pointers hok.1
      | go => exact (once_of_reach hc).1.fresh hok

end ClhtLpConc
