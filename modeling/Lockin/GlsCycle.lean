import Lockin.GlsOwners

/-! # The detector among running threads

    Whether `clht_lp_ddd_check` ends the program only when there is a deadlock.  It reads one
    waiting entry and one owner after the other while the threads go on, and a thread in a
    trylock waits for its address like one that is blocked.

    `undisturbed` looks at one read at a time: between two reads of a walk, nobody takes back
    what the walk has just read; an owner that it reads is in the current table; and an entry
    that it reads is not the one of a trylock.  The rest is proved.  What a walk has passed
    stays as it is, because whoever is blocked stays blocked, and so do all those behind him
    (`Waits.chain_step`).  The owner fields are right (`Owners`), and `h->waiting` has the
    address of every thread that is in a lock call (`Waits`), so that each read is one more
    edge.  A walk that comes back to its thread has gone around a cycle. -/

namespace GlsDeadlock

open Interleaving

variable {Tid : Type}

/-- In a call between `clht_lp_ddd_waiting_set` and `clht_lp_ddd_waiting_unset`. -/
def Pc.waits : Pc → Bool
  | .outside => false
  | .setId => false
  | .set => false
  | .ownHt => false
  | .own _ => false
  | .getHt => false
  | .get _ => false
  | .clear _ => false
  | .release => false
  | _ => true

/-- The lock has not been taken yet. -/
def Pc.pending : Pc → Bool
  | .unsetLoad _ => false
  | .unsetStore _ => false
  | pc => pc.waits

/-- `gls_lock_init` does not wait. -/
def Local.waits (l : Local) : Bool := l.pc.waits && decide (l.call ≠ .init)

/-- Thread `t` is in a blocking lock call on a lock that thread `u` has. -/
def Blocked (c : Conf Tid (Shared Tid) Local) (t u : Tid) : Prop :=
  (c.loc t).call = .lock ∧ (c.loc t).pc.pending = true ∧ c.sh.holder (c.loc t).key = some u

/-- A cycle of threads that are blocked by one another. -/
def Deadlock (c : Conf Tid (Shared Tid) Local) : Prop :=
  ∃ t, Relation.TransGen (Blocked c) t t

/-- The walk has read that this thread waits, and is at the owner of what it waits for. -/
def Pc.asked : Pc → Option Id
  | .walkHt _ _ owner => some owner
  | .walk _ _ owner _ => some owner
  | _ => none

/-- The walk has read that this thread owns the lock of this address, and is at the entry of
    the thread. -/
def Pc.found : Pc → Option (Addr × Id)
  | .walkWaiting _ waitOn owner => some (waitOn, owner)
  | _ => none

/-- An unlock does not clear the owner, and a lock call not the entry, that a walk has just
    read; and a walk reads no owner that the current table does not have, and no entry of a
    trylock. -/
def undisturbed (c : Conf Tid (Shared Tid) Local) (t : Tid) : Prop :=
  match (c.loc t).pc with
  | .clear _ => ∀ u, (c.loc u).pc.found ≠ some ((c.loc t).key, (c.loc t).glsId)
  | .unsetStore _ => ∀ u, (c.loc u).pc.asked ≠ some (c.loc t).glsId
  | .walk _ waitOn _ v =>
      (c.sh.tab v).owner waitOn ≠ 0 → c.sh.cur.owner waitOn = (c.sh.tab v).owner waitOn
  | .walkWaiting _ _ owner =>
      ∀ u, (c.loc u).glsId = owner → (c.loc u).call = .trylock → (c.loc u).pc.waits = false
  | _ => True

/-- The address is not `NULL`. -/
def nonNull (a : Act) : Prop :=
  match a with
  | .call _ key => key ≠ 0
  | _ => True

/-- No step loses an owner, and none disturbs a walk. -/
def sound (c : Conf Tid (Shared Tid) Local) (t : Tid) (a : Act) : Prop :=
  kept c t a ∧ nonNull a ∧ undisturbed c t

/-! ## Who waits for what -/

/-- In a put, or outside. -/
def Pc.putting : Pc → Bool
  | .outside => true
  | .implHt _ => true
  | .retryHt => true
  | .lockAcq _ _ => true
  | .status => true
  | .statusScan _ _ _ _ => true
  | .resizeHt _ _ => true
  | .resizeTry _ _ _ => true
  | .cpyLock _ _ _ => true
  | .cpySlot _ _ _ _ => true
  | .cpyPut _ _ _ _ _ _ => true
  | .swap _ _ => true
  | .resizeRls _ => true
  | .crash => true
  | _ => false

/-- What a thread knows of its own call. -/
def Local.Sane (l : Local) : Prop :=
  match l.pc with
  | .unsetLoad acquired => l.call ≠ .unlock ∧ (acquired = false → l.call = .trylock)
  | .unsetStore acquired => l.call ≠ .unlock ∧ (acquired = false → l.call = .trylock)
  | .checkTry => l.call = .lock
  | .checkOwn => l.call = .lock
  | .walkHt _ _ owner => owner ≠ l.glsId
  | .walk _ _ owner _ => owner ≠ l.glsId
  | .exited => l.call ≠ .unlock
  | _ => True

/-- `h->waiting` has the address of every thread between `clht_lp_ddd_waiting_set` and
    `clht_lp_ddd_waiting_unset`, and nothing else. -/
structure Waits (c : Conf Tid (Shared Tid) Local) : Prop where
  owners : Owners c
  waiting : ∀ t, (c.loc t).glsId ≠ 0 → c.sh.waiting (entry (c.loc t).glsId) =
    if (c.loc t).waits then (c.loc t).key else 0
  unused : ∀ i, c.sh.glsIds.toNat ≤ i → c.sh.waiting i = 0
  key : ∀ t, (c.loc t).pc ≠ .outside → (c.loc t).key ≠ 0
  init : ∀ t, (c.loc t).call = .init → (c.loc t).pc.putting = true
  sane : ∀ t, (c.loc t).Sane

/-- Before the first call. -/
theorem Init.waits {c : Conf Tid (Shared Tid) Local} (h : Init c) : Waits c where
  owners := h.owners
  waiting := fun t hid => absurd (h.outside t).2 hid
  unused := fun i _ => h.waiting i
  key := fun t hpc => absurd (h.outside t).1 hpc
  init := by
    intro t _
    rw [(h.outside t).1]
    rfl
  sane := by
    intro t
    unfold Local.Sane
    rw [(h.outside t).1]
    trivial

variable [DecidableEq Tid]

namespace Waits

variable {c : Conf Tid (Shared Tid) Local} {t : Tid}

/-- A step, by its effects on `h->waiting` and on the thread. -/
theorem put (h : Waits c) {sh' : Shared Tid} {l' : Local} (howners : Owners (c.put t (sh', l')))
    (hothers : ∀ i, i ≠ entry l'.glsId → sh'.waiting i = c.sh.waiting i)
    (hmine : l'.glsId ≠ 0 → sh'.waiting (entry l'.glsId) = if l'.waits then l'.key else 0)
    (hunused : ∀ i, sh'.glsIds.toNat ≤ i → sh'.waiting i = 0)
    (hkey : l'.pc ≠ .outside → l'.key ≠ 0) (hinit : l'.call = .init → l'.pc.putting = true)
    (hsane : l'.Sane) : Waits (c.put t (sh', l')) where
  owners := howners
  waiting := by
    intro u hid
    by_cases hut : u = t
    · subst hut
      rw [put_loc_self] at hid ⊢
      exact hmine hid
    · have hne : (c.loc u).glsId ≠ l'.glsId := by
        intro heq
        refine hut (howners.ids.apart u t ?_ hid)
        rw [put_loc_self, put_loc_ne c _ hut]
        exact heq
      rw [put_loc_ne c _ hut] at hid ⊢
      rw [put_sh, hothers]
      · exact h.waiting u hid
      · exact fun heq => hne ((BitVec.sub_left_inj 1).mp (BitVec.eq_of_toNat_eq heq))
  unused := hunused
  key := by
    intro u
    rw [put_loc]
    split
    · exact hkey
    · exact h.key u
  init := by
    intro u
    rw [put_loc]
    split
    · exact hinit
    · exact h.init u
  sane := by
    intro u
    rw [put_loc]
    split
    · exact hsane
    · exact h.sane u

/-- A step that does not change `h->waiting`, or whether the thread waits. -/
theorem keep (h : Waits c) {sh' : Shared Tid} {pc pc' : Pc} (hpc : (c.loc t).pc = pc)
    (howners : Owners (c.put t (sh', (c.loc t).goto pc')))
    (hwaiting : sh'.waiting = c.sh.waiting) (hids : sh'.glsIds = c.sh.glsIds)
    (hwaits : ((c.loc t).goto pc').waits = (c.loc t).waits) (hout : pc ≠ .outside)
    (hinit : (c.loc t).call = .init → pc'.putting = true)
    (hsane : ((c.loc t).goto pc').Sane) : Waits (c.put t (sh', (c.loc t).goto pc')) := by
  refine h.put howners (fun i _ => by rw [hwaiting]) (fun hid => ?_) (fun i hi => ?_)
    (fun _ => h.key t (by rw [hpc]; exact hout)) hinit hsane
  · rw [hwaiting, hwaits]
    exact h.waiting t hid
  · rw [hwaiting]
    rw [hids] at hi
    exact h.unused i hi

omit [DecidableEq Tid] in
/-- A step to a place of the same kind. -/
theorem waits_goto {l : Local} {pc pc' : Pc} (hpc : l.pc = pc) (h : pc'.waits = pc.waits) :
    (l.goto pc').waits = l.waits := by
  unfold Local.waits
  rw [hpc, ← h]
  rfl

/-- The put has returned. -/
theorem ready (h : Waits c) {sh' : Shared Tid} {pc : Pc} (hpc : (c.loc t).pc = pc)
    (hwaits : pc.waits = true) (hcall : (c.loc t).call ≠ .unlock)
    (howners : Owners (c.put t (sh', (c.loc t).goto (c.loc t).call.ready)))
    (hwaiting : sh'.waiting = c.sh.waiting) (hids : sh'.glsIds = c.sh.glsIds) :
    Waits (c.put t (sh', (c.loc t).goto (c.loc t).call.ready)) := by
  refine h.keep hpc howners hwaiting hids ?_ (by rintro rfl; cases hwaits) (fun hc => ?_) ?_
  · unfold Local.waits
    rw [hpc, hwaits]
    cases hc : (c.loc t).call with
    | unlock => exact absurd hc hcall
    | init =>
        show (Pc.outside.waits && decide ((c.loc t).call ≠ .init)) = _
        rw [hc]
        rfl
    | _ =>
        show (Pc.acquire.waits && decide ((c.loc t).call ≠ .init)) = _
        rw [hc]
        rfl
  · rw [hc]
    rfl
  · cases hc : (c.loc t).call <;> trivial

/-- A round of the detector ends. -/
theorem sane_walked {l : Local} (waitCycle : List Entry) (owner : Id) (addr : Addr)
    (hcall : l.call ≠ .unlock) :
    (l.goto (GlsDeadlock.walked l.glsId waitCycle owner addr)).Sane := by
  unfold GlsDeadlock.walked
  dsimp only
  split <;> rename_i howner
  · exact hcall
  · split
    · exact howner
    · trivial

omit [DecidableEq Tid] in
theorem waits_of_pending {pc : Pc} (h : pc.pending = true) : pc.waits = true := by
  cases pc <;> first | exact h | cases h

/-- The walk goes on, or has found its cycle. -/
theorem walked_pending (myid : Id) (waitCycle : List Entry) (owner : Id) (addr : Addr) :
    (GlsDeadlock.walked myid waitCycle owner addr).pending = true := by
  unfold GlsDeadlock.walked
  dsimp only
  split
  · rfl
  · split <;> rfl

omit [DecidableEq Tid] in
/-- Inside a put there is nothing to know of the call. -/
theorem sane_of_putting {l : Local} {pc : Pc} (h : pc.putting = true) : (l.goto pc).Sane := by
  cases pc <;> trivial

/-- **Every step keeps the waits.** -/
theorem go_step (h : Waits c) {r : Shared Tid × Local} (howners : Owners (c.put t r))
    (hs : go t c.sh (c.loc t) (c.loc t).pc = some r) : Waits (c.put t r) := by
  have hat := h.owners.place t
  have hsane := h.sane t
  have hinit := h.init t
  unfold Local.At at hat
  unfold Local.Sane at hsane
  generalize hpc : (c.loc t).pc = pc at hs hat hsane hinit
  have hknows := h.owners.ids.knows t
  unfold Local.Knows at hknows
  rw [hpc] at hknows
  have hout : pc ≠ .outside := by
    rintro rfl
    cases hs
  have hno : pc.putting = false → (c.loc t).call ≠ .init := by
    intro hp hc
    rw [hinit hc] at hp
    cases hp
  have hmine : pc.waits = true → (c.loc t).call ≠ .init → (c.loc t).glsId ≠ 0 →
      c.sh.waiting (entry (c.loc t).glsId) = (c.loc t).key := by
    intro hw hc hid
    rw [h.waiting t hid, if_pos]
    unfold Local.waits
    rw [hpc, hw]
    exact decide_eq_true hc
  -- a step inside a put; `gls_lock_init` goes no further
  have inPut : ∀ {sh' : Shared Tid} {pc' : Pc}, some (sh', (c.loc t).goto pc') = some r →
      sh'.waiting = c.sh.waiting → sh'.glsIds = c.sh.glsIds → pc'.waits = pc.waits →
      pc'.putting = true → Waits (c.put t r) := by
    intro sh' pc' hr hwaiting hids hwaits hput
    obtain rfl := Option.some.inj hr
    exact h.keep hpc howners hwaiting hids (waits_goto hpc hwaits) hout (fun _ => hput)
      (sane_of_putting hput)
  -- a step of another call
  have inCall : ∀ {sh' : Shared Tid} {pc' : Pc}, some (sh', (c.loc t).goto pc') = some r →
      sh'.waiting = c.sh.waiting → sh'.glsIds = c.sh.glsIds → pc'.waits = pc.waits →
      pc.putting = false → ((c.loc t).goto pc').Sane → Waits (c.put t r) := by
    intro sh' pc' hr hwaiting hids hwaits hput hsane'
    obtain rfl := Option.some.inj hr
    exact h.keep hpc howners hwaiting hids (waits_goto hpc hwaits) hout
      (fun hc => absurd hc (hno hput)) hsane'
  -- the put has returned
  have ready : ∀ {sh' : Shared Tid}, pc.waits = true → (c.loc t).call ≠ .unlock →
      some (sh', (c.loc t).goto (c.loc t).call.ready) = some r →
      sh'.waiting = c.sh.waiting → sh'.glsIds = c.sh.glsIds → Waits (c.put t r) := by
    intro sh' hwaits hcall hr hwaiting hids
    obtain rfl := Option.some.inj hr
    exact h.ready hpc hwaits hcall howners hwaiting hids
  cases pc with
  | outside | exited | crash => cases hs
  | setId =>
      dsimp only [go, glsGetId] at hs
      split at hs <;> rename_i hzero
      · -- the new id is the next one, and nothing was ever written to its entry
        obtain rfl := Option.some.inj hs
        have hne : c.sh.glsIds + 1 ≠ 0 := by
          have := howners.ids.knows t
          rwa [put_loc_self] at this
        have hlt := entry_lt_toNat hne
        have hentry : entry (c.sh.glsIds + 1) = c.sh.glsIds.toNat := by
          unfold entry
          rw [BitVec.add_sub_cancel]
        refine h.put howners (fun _ _ => rfl) (fun _ => ?_) (fun i hi => h.unused i ?_)
          (fun _ => h.key t (by rw [hpc]; exact hout)) (fun hc => absurd hc (hno rfl)) trivial
        · exact h.unused _ hentry.ge
        · have hi' : (c.sh.glsIds + 1).toNat ≤ i := hi
          omega
      · exact inCall hs rfl rfl rfl rfl trivial
  | set =>
      -- `clht_lp_ddd_waiting_set`: from here on the entry has the address
      obtain rfl := Option.some.inj hs
      refine h.put howners (fun i hi => Function.update_of_ne hi ..) (fun _ => ?_)
        (fun i hi => ?_) (fun _ => h.key t (by rw [hpc]; exact hout))
        (fun hc => absurd hc (hno rfl)) trivial
      · have hwaits : ((c.loc t).goto .putHt).waits = true := decide_eq_true (hno rfl)
        rw [hwaits]
        exact Function.update_self ..
      · refine (Function.update_of_ne ?_ ..).trans (h.unused i hi)
        have hi' : c.sh.glsIds.toNat ≤ i := hi
        have := entry_lt_toNat hknows
        have := h.owners.ids.mine t
        omega
  | unsetStore acquired =>
      -- `clht_lp_ddd_waiting_unset`: from here on it has not
      obtain rfl := Option.some.inj hs
      refine h.put howners (fun i hi => Function.update_of_ne hi ..) (fun _ => ?_)
        (fun i hi => ?_) (fun _ => h.key t (by rw [hpc]; exact hout))
        (fun hc => absurd hc (hno rfl)) ?_
      · have hwaits : ((c.loc t).goto (afterUnset acquired)).waits = false := by
          cases acquired <;> rfl
        rw [hwaits]
        exact Function.update_self ..
      · show Function.update c.sh.waiting _ 0 i = 0
        rw [Function.update_apply]
        split
        · rfl
        · exact h.unused i hi
      · cases acquired <;> trivial
  | unsetLoad acquired =>
      -- it finds its own address, and goes on to clear it
      dsimp only [go] at hs
      rw [if_pos (hmine rfl (hno rfl) hknows)] at hs
      exact inCall hs rfl rfl rfl rfl hsane
  | get v =>
      dsimp only [go] at hs
      have hget : glsGetId c.sh (c.loc t) (.clear v) = (c.sh, (c.loc t).goto (.clear v)) :=
        if_neg (h.owners.held _ t hat.1).2
      rw [if_pos hat.2.2.1, hget] at hs
      exact inCall hs rfl rfl rfl rfl trivial
  | search v =>
      dsimp only [go] at hs
      split at hs
      · exact ready rfl hat.1 hs rfl rfl
      · exact inPut hs rfl rfl rfl rfl
  | lockAcq v hashtable =>
      dsimp only [go] at hs
      split at hs
      · exact inPut hs rfl rfl rfl rfl
      · split at hs
        · exact ready rfl hat.1 hs rfl rfl
        · split at hs
          · exact ready rfl hat.1 hs rfl rfl
          · split at hs
            · exact inPut hs rfl rfl rfl rfl
            · exact ready rfl hat.1 hs rfl rfl
  | statusScan v b i size =>
      dsimp only [go] at hs
      split at hs
      · split at hs <;> exact inPut hs rfl rfl rfl rfl
      · exact inPut hs rfl rfl rfl rfl
  | resizeTry isIncrease by_ htOld =>
      dsimp only [go] at hs
      split at hs
      · exact ready rfl hat.1 hs rfl rfl
      · split at hs <;> exact inPut hs rfl rfl rfl rfl
  | resizeRls again =>
      dsimp only [go] at hs
      split at hs
      · exact inPut hs rfl rfl rfl rfl
      · exact ready rfl hat.1 hs rfl rfl
  | cpyLock htOld htNew b =>
      dsimp only [go] at hs
      split at hs
      · split at hs <;> exact inPut hs rfl rfl rfl rfl
      · exact inPut hs rfl rfl rfl rfl
  | cpySlot htOld htNew b i =>
      dsimp only [go] at hs
      split at hs <;> exact inPut hs rfl rfl rfl rfl
  | implHt _ | retryHt | status | resizeHt _ _ | cpyPut _ _ _ _ _ _ | swap _ _ =>
      exact inPut hs rfl rfl rfl rfl
  | release => exact inPut hs rfl rfl rfl rfl
  | putHt | ownHt | getHt | checkRls | clear _ => exact inCall hs rfl rfl rfl rfl trivial
  | own v =>
      dsimp only [go] at hs
      split at hs <;> exact inPut hs rfl rfl rfl rfl
  | acquire =>
      dsimp only [go] at hs
      split at hs
      · exact inCall hs rfl rfl rfl rfl ⟨hat.1, nofun⟩
      · -- only a trylock comes back without the lock
        obtain ⟨htry, hr⟩ := Option.ite_none_right_eq_some.mp hs
        exact inCall hr rfl rfl rfl rfl ⟨hat.1, fun _ => htry⟩
  | checkTry =>
      dsimp only [go] at hs
      split at hs
      · exact inCall hs rfl rfl rfl rfl trivial
      · exact inCall hs rfl rfl rfl rfl hsane
  | checkOwn => exact inCall hs rfl rfl rfl rfl (Ne.symm hknows)
  | walkHt waitCycle waitOn owner => exact inCall hs rfl rfl rfl rfl hsane
  | walk waitCycle waitOn owner v =>
      dsimp only [go] at hs
      split at hs
      · exact inCall hs rfl rfl rfl rfl trivial
      · exact inCall hs rfl rfl (waits_of_pending (walked_pending ..)) rfl (sane_walked _ _ _ hat.1)
  | walkWaiting waitCycle waitOn owner =>
      exact inCall hs rfl rfl (waits_of_pending (walked_pending ..)) rfl (sane_walked _ _ _ hat.1)

/-- **Step lemma.** -/
theorem step (h : Waits c) {a : Act} {r : Shared Tid × Local} (hok : sound c t a)
    (hs : prog t c.sh (c.loc t) a = some r) : Waits (c.put t r) := by
  have howners := h.owners.step hok.1 hs
  have hnull := hok.2.1
  unfold prog at hs
  split at hs
  · -- a call
    rename_i call key hpc
    obtain rfl := Option.some.inj hs
    refine h.put howners (fun _ _ => rfl) (fun hid => ?_) h.unused (fun _ => hnull) ?_ ?_
    · have hwaits : Local.waits { c.loc t with call := call, key := key, pc := call.start } =
          false := by cases call <;> rfl
      have hold : (c.loc t).waits = false := by
        unfold Local.waits
        rw [hpc]
        rfl
      have hzero := h.waiting t hid
      rw [hold] at hzero
      rw [hwaits]
      exact hzero
    · rintro rfl
      rfl
    · cases call <;> trivial
  · -- the detector
    rename_i hpc
    obtain ⟨hlock, hr⟩ := Option.ite_none_right_eq_some.mp hs
    obtain rfl := Option.some.inj hr
    refine h.keep hpc howners rfl rfl (waits_goto hpc rfl) nofun (fun hc => ?_) hlock
    exact nomatch hlock.symm.trans hc
  · exact h.go_step howners hs
  · cases hs

omit [DecidableEq Tid] in
/-- Whoever waits is not in an unlock. -/
theorem call_ne_unlock (h : Waits c) (hwaits : (c.loc t).pc.waits = true) :
    (c.loc t).call ≠ .unlock := by
  have hat := h.owners.place t
  have hsane := h.sane t
  unfold Local.At at hat
  unfold Local.Sane at hsane
  generalize (c.loc t).pc = pc at hwaits hat hsane
  cases pc with
  | putHt | retryHt => exact hat
  | unsetLoad _ | unsetStore _ => exact hsane.1
  | exited => exact hsane
  | outside | setId | set | ownHt | own _ | getHt | get _ | clear _ | release => cases hwaits
  | _ => exact hat.1

omit [DecidableEq Tid] in
/-- Whoever waits and is not in a trylock has yet to take the lock, or has it without being on
    record. -/
theorem pending_or (h : Waits c) (hwaits : (c.loc t).pc.waits = true)
    (htry : (c.loc t).call ≠ .trylock) : (c.loc t).pc.pending = true ∨
      c.sh.holder (c.loc t).key = some t ∧ (c.loc t).unrecorded (c.loc t).key = true := by
  have hat := h.owners.place t
  have hsane := h.sane t
  unfold Local.At at hat
  unfold Local.Sane at hsane
  unfold Local.unrecorded
  generalize (c.loc t).pc = pc at hwaits hat hsane
  cases pc with
  | unsetLoad acquired | unsetStore acquired =>
      have hacq : acquired = true := by
        cases acquired
        · exact absurd (hsane.2 rfl) htry
        · rfl
      rw [decide_eq_true rfl]
      exact Or.inr ⟨hat hacq, hacq⟩
  | _ => exact Or.inl hwaits

end Waits

/-! ## Who stays blocked -/

/-- In the rounds of `clht_lp_ddd_check`, or ended by them. -/
def Pc.walks : Pc → Bool
  | .walkHt _ _ _ => true
  | .walk _ _ _ _ => true
  | .walkWaiting _ _ _ => true
  | .exited => true
  | _ => false

/-- What a step does to the lock objects and to the call of its thread: it takes a free lock,
    it releases one, or it does neither. -/
inductive Effect (sh : Shared Tid) (t : Tid) (l : Local) (r : Shared Tid × Local) : Prop where
  | take (hpc : l.pc = .acquire) (hfree : sh.holder l.key = none)
      (hholder : r.1.holder = Function.update sh.holder l.key (some t))
      (hr : r.2 = l.goto (.unsetLoad true))
  | release (hpc : l.pc = .release) (hholder : r.1.holder = Function.update sh.holder l.key none)
      (hr : r.2 = l.goto .outside)
  | neither (hholder : r.1.holder = sh.holder) (hcall : r.2.call = l.call) (hkey : r.2.key = l.key)
      (hid : r.2.glsId = l.glsId ∨ l.glsId = 0)
      (hpending : l.call = .lock → l.pc.pending = true → r.2.pc.pending = true)
      (hrec : r.2.pc.unrecorded = true → l.pc.unrecorded = true ∨ ∃ v, l.pc = .clear v)
      (hwalk : r.2.pc.walks = true → l.pc.walks = true ∨ l.pc = .checkOwn)

namespace Waits

variable {c : Conf Tid (Shared Tid) Local} {t u v : Tid} {addr : Addr}

omit [DecidableEq Tid] in
theorem ready_walks {call : Call} (hcall : call ≠ .unlock) : call.ready.walks = false := by
  cases call with
  | unlock => exact absurd rfl hcall
  | _ => rfl

omit [DecidableEq Tid] in
/-- What a step does to the locks and to the owners. -/
theorem go_effect (h : Waits c) {r : Shared Tid × Local}
    (hs : go t c.sh (c.loc t) (c.loc t).pc = some r) : Effect c.sh t (c.loc t) r := by
  have hat := h.owners.place t
  unfold Local.At at hat
  generalize hpc : (c.loc t).pc = pc at hs hat
  -- a step that takes no lock and releases none
  have neither : ∀ {sh' : Shared Tid} {l' : Local}, some (sh', l') = some r →
      sh'.holder = c.sh.holder → l'.call = (c.loc t).call → l'.key = (c.loc t).key →
      l'.glsId = (c.loc t).glsId ∨ (c.loc t).glsId = 0 →
      ((c.loc t).call = .lock → pc.pending = true → l'.pc.pending = true) →
      (l'.pc.unrecorded = true → pc.unrecorded = true ∨ ∃ v, pc = .clear v) →
      (l'.pc.walks = true → pc.walks = true ∨ pc = .checkOwn) →
      Effect c.sh t (c.loc t) r := by
    intro sh' l' hr hholder hcall hkey hid hpending hrec hwalk
    obtain rfl := Option.some.inj hr
    exact .neither hholder hcall hkey hid (by rwa [hpc]) (by rwa [hpc]) (by rwa [hpc])
  -- the put has returned
  have ready : ∀ {sh' : Shared Tid}, (c.loc t).call ≠ .unlock →
      some (sh', (c.loc t).goto (c.loc t).call.ready) = some r → sh'.holder = c.sh.holder →
      Effect c.sh t (c.loc t) r := by
    intro sh' hcall hr hholder
    refine neither hr hholder rfl rfl (Or.inl rfl) (fun hlock _ => ?_) (fun hu => ?_) fun hw => ?_
    · show (c.loc t).call.ready.pending = true
      rw [hlock]
      rfl
    · exact absurd ((Owners.ready_unrecorded hcall).1.symm.trans hu) Bool.false_ne_true
    · exact absurd ((ready_walks hcall).symm.trans hw) Bool.false_ne_true
  -- a round of the detector ends
  have walked : ∀ {waitCycle : List Entry} {owner : Id} {addr : Addr},
      some (c.sh, (c.loc t).goto
        (GlsDeadlock.walked (c.loc t).glsId waitCycle owner addr)) = some r →
      pc.walks = true → Effect c.sh t (c.loc t) r := by
    intro waitCycle owner addr hr hwalks
    refine neither hr rfl rfl rfl (Or.inl rfl) (fun _ _ => walked_pending ..) (fun hu => ?_)
      fun _ => Or.inl hwalks
    exact absurd ((Owners.walked_quiet ..).1.symm.trans hu) Bool.false_ne_true
  cases pc with
  | outside | exited | crash => cases hs
  | acquire =>
      dsimp only [go] at hs
      split at hs <;> rename_i hfree
      · obtain rfl := Option.some.inj hs
        exact .take hpc hfree rfl rfl
      · obtain ⟨htry, hr⟩ := Option.ite_none_right_eq_some.mp hs
        exact neither hr rfl rfl rfl (Or.inl rfl)
          (fun hlock => absurd (htry.symm.trans hlock) nofun) nofun nofun
  | release =>
      obtain rfl := Option.some.inj hs
      exact .release hpc rfl rfl
  | set | getHt => exact neither hs rfl rfl rfl (Or.inl rfl) (fun _ hp => by cases hp) nofun nofun
  | ownHt =>
      exact neither hs rfl rfl rfl (Or.inl rfl) (fun _ hp => by cases hp)
        (fun _ => Or.inl rfl) nofun
  | clear v =>
      exact neither hs rfl rfl rfl (Or.inl rfl) (fun _ hp => by cases hp)
        (fun _ => Or.inr ⟨v, rfl⟩) nofun
  | unsetStore acquired =>
      refine neither hs rfl rfl rfl (Or.inl rfl) (fun _ hp => by cases hp)
        (fun hu => Or.inl ?_) fun hw => ?_ <;> cases acquired
      · exact hu
      · rfl
      · cases hw
      · cases hw
  | unsetLoad acquired =>
      refine neither hs rfl rfl rfl (Or.inl rfl) (fun _ hp => by cases hp)
        (fun hu => Or.inl ?_) fun hw => ?_ <;> cases acquired
      · dsimp only [Local.goto] at hu
        split at hu <;> cases hu
      · rfl
      · dsimp only [Local.goto] at hw
        split at hw <;> cases hw
      · dsimp only [Local.goto] at hw
        split at hw <;> cases hw
  | setId =>
      dsimp only [go, glsGetId] at hs
      split at hs <;> rename_i hzero
      · exact neither hs rfl rfl rfl (Or.inr hzero) (fun _ hp => by cases hp) nofun nofun
      · exact neither hs rfl rfl rfl (Or.inl rfl) (fun _ hp => by cases hp) nofun nofun
  | get v =>
      -- the holder finds its lock, and it has its id since it took it
      dsimp only [go] at hs
      have hget : glsGetId c.sh (c.loc t) (.clear v) = (c.sh, (c.loc t).goto (.clear v)) :=
        if_neg (h.owners.held _ t hat.1).2
      rw [if_pos hat.2.2.1, hget] at hs
      exact neither hs rfl rfl rfl (Or.inl rfl) (fun _ hp => by cases hp) nofun nofun
  | own v =>
      dsimp only [go] at hs
      split at hs <;>
        exact neither hs rfl rfl rfl (Or.inl rfl) (fun _ hp => by cases hp) nofun nofun
  | search v =>
      dsimp only [go] at hs
      split at hs
      · exact ready hat.1 hs rfl
      · exact neither hs rfl rfl rfl (Or.inl rfl) (fun _ _ => rfl) nofun nofun
  | lockAcq v hashtable =>
      dsimp only [go] at hs
      split at hs
      · exact neither hs rfl rfl rfl (Or.inl rfl) (fun _ _ => rfl) nofun nofun
      · split at hs
        · exact ready hat.1 hs rfl
        · split at hs
          · exact ready hat.1 hs rfl
          · split at hs
            · exact neither hs rfl rfl rfl (Or.inl rfl) (fun _ _ => rfl) nofun nofun
            · exact ready hat.1 hs rfl
  | statusScan v b i size =>
      dsimp only [go] at hs
      split at hs
      · split at hs <;> exact neither hs rfl rfl rfl (Or.inl rfl) (fun _ _ => rfl) nofun nofun
      · exact neither hs rfl rfl rfl (Or.inl rfl) (fun _ _ => rfl) nofun nofun
  | resizeTry isIncrease by_ htOld =>
      dsimp only [go] at hs
      split at hs
      · exact ready hat.1 hs rfl
      · split at hs <;> exact neither hs rfl rfl rfl (Or.inl rfl) (fun _ _ => rfl) nofun nofun
  | resizeRls again =>
      dsimp only [go] at hs
      split at hs
      · exact neither hs rfl rfl rfl (Or.inl rfl) (fun _ _ => rfl) nofun nofun
      · exact ready hat.1 hs rfl
  | cpyLock htOld htNew b =>
      dsimp only [go] at hs
      split at hs
      · split at hs <;> exact neither hs rfl rfl rfl (Or.inl rfl) (fun _ _ => rfl) nofun nofun
      · exact neither hs rfl rfl rfl (Or.inl rfl) (fun _ _ => rfl) nofun nofun
  | cpySlot htOld htNew b i =>
      dsimp only [go] at hs
      split at hs <;> exact neither hs rfl rfl rfl (Or.inl rfl) (fun _ _ => rfl) nofun nofun
  | checkTry =>
      dsimp only [go] at hs
      split at hs <;> exact neither hs rfl rfl rfl (Or.inl rfl) (fun _ _ => rfl) nofun nofun
  | walk waitCycle waitOn owner v =>
      dsimp only [go] at hs
      split at hs
      · exact neither hs rfl rfl rfl (Or.inl rfl) (fun _ _ => rfl) nofun fun _ => Or.inl rfl
      · exact walked hs rfl
  | walkWaiting waitCycle waitOn owner => exact walked hs rfl
  | walkHt _ _ _ =>
      exact neither hs rfl rfl rfl (Or.inl rfl) (fun _ _ => rfl) nofun fun _ => Or.inl rfl
  | checkOwn =>
      exact neither hs rfl rfl rfl (Or.inl rfl) (fun _ _ => rfl) nofun fun _ => Or.inr rfl
  | _ => exact neither hs rfl rfl rfl (Or.inl rfl) (fun _ _ => rfl) nofun nofun

omit [DecidableEq Tid] in
/-- A step is the start of a call, or has one of these effects. -/
theorem effect (h : Waits c) {a : Act} {r : Shared Tid × Local}
    (hs : prog t c.sh (c.loc t) a = some r) :
    (c.loc t).pc = .outside ∧ r.1 = c.sh ∧ r.2.glsId = (c.loc t).glsId ∧
        r.2.pc.unrecorded = false ∧ r.2.pc.walks = false ∨
      Effect c.sh t (c.loc t) r := by
  unfold prog at hs
  split at hs
  · rename_i call key hpc
    obtain rfl := Option.some.inj hs
    exact Or.inl ⟨hpc, rfl, rfl, by cases call <;> rfl, by cases call <;> rfl⟩
  · rename_i hpc
    obtain ⟨-, hr⟩ := Option.ite_none_right_eq_some.mp hs
    obtain rfl := Option.some.inj hr
    exact Or.inr (.neither rfl rfl rfl (Or.inl rfl) (fun _ _ => rfl) nofun nofun)
  · exact Or.inr (h.go_effect hs)
  · cases hs

omit [DecidableEq Tid] in
/-- A lock stays with a thread that does not release it. -/
theorem holder_step (h : Waits c) {a : Act} {r : Shared Tid × Local}
    (hs : prog t c.sh (c.loc t) a = some r) (hown : c.sh.holder addr = some u)
    (hkeep : (c.loc u).pc = .release → (c.loc u).key ≠ addr) : r.1.holder addr = some u := by
  rcases h.effect hs with ⟨-, hr, -⟩ | heff
  · rw [hr]
    exact hown
  cases heff with
  | take _ hfree hholder _ =>
      rw [hholder, Function.update_of_ne]
      · exact hown
      · rintro rfl
        exact nomatch hfree.symm.trans hown
  | release hpc hholder _ =>
      rw [hholder, Function.update_of_ne]
      · exact hown
      · -- only the holder itself can be at the release of this lock
        rintro rfl
        have hat := h.owners.place t
        unfold Local.At at hat
        rw [hpc] at hat
        obtain rfl := Option.some.inj (hat.symm.trans hown)
        exact hkeep hpc rfl
  | neither hholder =>
      rw [hholder]
      exact hown

omit [DecidableEq Tid] in
/-- A thread keeps its id. -/
theorem glsId_step (h : Waits c) {a : Act} {r : Shared Tid × Local}
    (hs : prog t c.sh (c.loc t) a = some r) (hid : (c.loc t).glsId ≠ 0) :
    r.2.glsId = (c.loc t).glsId := by
  rcases h.effect hs with ⟨-, -, hr, -⟩ | heff
  · exact hr
  cases heff with
  | take _ _ _ hr | release _ _ hr =>
      rw [hr]
      rfl
  | neither _ _ _ hid' => exact hid'.resolve_right hid

/-- **Whoever is blocked stays blocked**, until the lock is released. -/
theorem blocked_step (h : Waits c) {a : Act} {r : Shared Tid × Local}
    (hs : prog t c.sh (c.loc t) a = some r) (hblocked : Blocked c u v)
    (hkeep : (c.loc v).pc = .release → (c.loc v).key ≠ (c.loc u).key) :
    Blocked (c.put t r) u v := by
  obtain ⟨hcall, hpending, hholder⟩ := hblocked
  have hholder' := h.holder_step hs hholder hkeep
  by_cases hut : u = t
  · subst hut
    rcases h.effect hs with ⟨hpc, -⟩ | heff
    · rw [hpc] at hpending
      cases hpending
    cases heff with
    | take _ hfree =>
        -- the lock is not free, so the blocked thread does not get it
        exact nomatch hfree.symm.trans hholder
    | release hpc =>
        rw [hpc] at hpending
        cases hpending
    | neither _ hcall' hkey _ hpending' =>
        refine ⟨?_, ?_, ?_⟩ <;> rw [put_loc_self]
        · exact hcall'.trans hcall
        · exact hpending' hcall hpending
        · rw [hkey]
          exact hholder'
  · refine ⟨?_, ?_, ?_⟩ <;> rw [put_loc_ne c _ hut]
    · exact hcall
    · exact hpending
    · exact hholder'

end Waits

/-! ## Walks -/

/-- Thread `u` is in a lock call for `addr`. -/
def Asks (c : Conf Tid (Shared Tid) Local) (u : Tid) (addr : Addr) : Prop :=
  (c.loc u).call = .lock ∧ (c.loc u).key = addr ∧ (c.loc u).pc.waits = true

/-- Thread `u` has the lock of `addr` and is on record for it. -/
def Owns (c : Conf Tid (Shared Tid) Local) (u : Tid) (addr : Addr) : Prop :=
  c.sh.holder addr = some u ∧ (c.loc u).unrecorded addr = false

/-- From `t` along blocked threads to `u`, which is in a lock call for `addr`. -/
def AtWait (c : Conf Tid (Shared Tid) Local) (t : Tid) (addr : Addr) (u : Tid) : Prop :=
  Relation.ReflTransGen (Blocked c) t u ∧ Asks c u addr

/-- From `t` along blocked threads to `u`, which has the lock of `addr`. -/
def AtOwner (c : Conf Tid (Shared Tid) Local) (t : Tid) (addr : Addr) (u : Tid) : Prop :=
  ∃ b, Relation.ReflTransGen (Blocked c) t b ∧ Blocked c b u ∧ (c.loc b).key = addr ∧
    Owns c u addr

/-- How far the walk of thread `t` has come; `owner` is 0 in the first round. -/
def Walked (c : Conf Tid (Shared Tid) Local) (t : Tid) (pc : Pc) : Prop :=
  match pc with
  | .walkHt _ waitOn owner =>
      ∃ u, AtWait c t waitOn u ∧ (owner = 0 ∧ u = t ∨ owner ≠ 0 ∧ (c.loc u).glsId = owner)
  | .walk _ waitOn owner _ =>
      ∃ u, AtWait c t waitOn u ∧ (owner = 0 ∧ u = t ∨ owner ≠ 0 ∧ (c.loc u).glsId = owner)
  | .walkWaiting _ waitOn owner => ∃ u, AtOwner c t waitOn u ∧ (c.loc u).glsId = owner
  | .exited => Deadlock c
  | _ => True

omit [DecidableEq Tid] in
/-- A thread that waits releases nothing. -/
theorem Blocked.ne_release {c : Conf Tid (Shared Tid) Local} {u v : Tid} (h : Blocked c u v) :
    (c.loc u).pc ≠ .release := by
  intro hpc
  have hpending := h.2.1
  rw [hpc] at hpending
  cases hpending

omit [DecidableEq Tid] in
/-- A thread that asks for a lock releases nothing. -/
theorem Asks.ne_release {c : Conf Tid (Shared Tid) Local} {u : Tid} {addr : Addr}
    (h : Asks c u addr) : (c.loc u).pc ≠ .release := by
  intro hpc
  have hwaits := h.2.2
  rw [hpc] at hwaits
  cases hwaits

omit [DecidableEq Tid] in
/-- A thread that releases a lock keeps the others. -/
theorem Owns.key_ne {c : Conf Tid (Shared Tid) Local} {u : Tid} {addr : Addr}
    (h : Owns c u addr) (hpc : (c.loc u).pc = .release) : (c.loc u).key ≠ addr := by
  intro hkey
  have hrec := h.2
  unfold Local.unrecorded at hrec
  rw [hpc, decide_eq_true hkey] at hrec
  cases hrec

omit [DecidableEq Tid] in
theorem walked_of_not {c : Conf Tid (Shared Tid) Local} {t : Tid} {pc : Pc}
    (h : pc.walks = false) : Walked c t pc := by
  cases pc with
  | walkHt | walk | walkWaiting | exited => cases h
  | _ => trivial

namespace Waits

variable {c : Conf Tid (Shared Tid) Local} {t u v : Tid} {addr : Addr} {a : Act}
  {r : Shared Tid × Local}

/-- **A chain of blocked threads stays**, when its end does not release a lock. -/
theorem chain_step (h : Waits c) (hs : prog t c.sh (c.loc t) a = some r)
    (hchain : Relation.ReflTransGen (Blocked c) u v) (hv : (c.loc v).pc ≠ .release) :
    Relation.ReflTransGen (Blocked (c.put t r)) u v := by
  induction hchain with
  | refl => exact .refl
  | tail _ hlast ih =>
      exact (ih hlast.ne_release).tail (h.blocked_step hs hlast fun hpc => absurd hpc hv)

/-- A deadlock is for ever. -/
theorem deadlock_step (h : Waits c) (hs : prog t c.sh (c.loc t) a = some r)
    (hdead : Deadlock c) : Deadlock (c.put t r) := by
  obtain ⟨u, hu⟩ := hdead
  obtain ⟨v, hchain, hlast⟩ := Relation.TransGen.tail'_iff.mp hu
  obtain ⟨w, hfirst, -⟩ := Relation.TransGen.head'_iff.mp hu
  exact ⟨u, .tail' (h.chain_step hs hchain hlast.ne_release)
    (h.blocked_step hs hlast fun hpc => absurd hpc hfirst.ne_release)⟩

/-- A thread in a lock call stays there until it clears its entry. -/
theorem asks_step (h : Waits c) (hs : prog t c.sh (c.loc t) a = some r) (hasks : Asks c u addr)
    (hunset : ∀ acquired, (c.loc t).pc = .unsetStore acquired → u ≠ t) :
    Asks (c.put t r) u addr := by
  obtain ⟨hcall, hkey, hwaits⟩ := hasks
  by_cases hut : u = t
  case neg =>
    refine ⟨?_, ?_, ?_⟩ <;> rw [put_loc_ne c _ hut]
    · exact hcall
    · exact hkey
    · exact hwaits
  subst hut
  have hstay : r.2.call = (c.loc u).call ∧ r.2.key = (c.loc u).key ∧ r.2.pc.waits = true := by
    by_cases hpending : (c.loc u).pc.pending = true
    · rcases h.effect hs with ⟨hpc, -⟩ | heff
      · rw [hpc] at hwaits
        cases hwaits
      cases heff with
      | take _ _ _ hr =>
          rw [hr]
          exact ⟨rfl, rfl, rfl⟩
      | release hpc =>
          rw [hpc] at hwaits
          cases hwaits
      | neither _ hcall' hkey' _ hpending' =>
          exact ⟨hcall', hkey', waits_of_pending (hpending' hcall hpending)⟩
    · -- it has the lock, and finds its address in its entry
      obtain ⟨acquired, hpc⟩ : ∃ acquired, (c.loc u).pc = .unsetLoad acquired := by
        generalize hpc : (c.loc u).pc = pc at hwaits hpending
        cases pc with
        | unsetLoad acquired => exact ⟨acquired, rfl⟩
        | unsetStore acquired => exact absurd rfl (hunset acquired hpc)
        | _ => exact absurd hwaits hpending
      have hknows := h.owners.ids.knows u
      unfold Local.Knows at hknows
      rw [hpc] at hknows
      have hentry : c.sh.waiting (entry (c.loc u).glsId) = (c.loc u).key := by
        rw [h.waiting u hknows, if_pos]
        unfold Local.waits
        rw [hpc, hcall]
        rfl
      unfold prog at hs
      rw [hpc] at hs
      cases a with
      | call | check => cases hs
      | go =>
          obtain rfl := Option.some.inj hs
          rw [if_pos hentry]
          exact ⟨rfl, rfl, rfl⟩
  refine ⟨?_, ?_, ?_⟩ <;> rw [put_loc_self]
  · exact hstay.1.trans hcall
  · exact hstay.2.1.trans hkey
  · exact hstay.2.2

/-- An owner stays on record until it clears the owner field. -/
theorem owns_step (h : Waits c) (hs : prog t c.sh (c.loc t) a = some r) (howns : Owns c u addr)
    (hclear : ∀ v, (c.loc t).pc = .clear v → u = t → (c.loc t).key ≠ addr) :
    Owns (c.put t r) u addr := by
  refine ⟨h.holder_step hs howns.1 howns.key_ne, ?_⟩
  rw [put_loc]
  split <;> rename_i hut
  case isFalse => exact howns.2
  subst hut
  rcases h.effect hs with ⟨-, -, -, hrec, -⟩ | heff
  · exact Local.unrecorded_of hrec addr
  cases heff with
  | take _ hfree _ hr =>
      -- it is another lock that it takes
      have hne : (c.loc u).key ≠ addr := by
        rintro rfl
        exact nomatch hfree.symm.trans howns.1
      rw [hr]
      unfold Local.unrecorded
      rw [show ((c.loc u).goto (.unsetLoad true)).key = (c.loc u).key from rfl,
        decide_eq_false hne]
      rfl
  | release _ _ hr =>
      rw [hr]
      exact Local.unrecorded_of rfl addr
  | neither _ _ hkey _ _ hrec =>
      have hold := howns.2
      unfold Local.unrecorded at hold ⊢
      rw [hkey]
      by_cases haddr : (c.loc u).key = addr
      · -- only `clht_lp_ddd_own_unset`, in its own unlock, takes it off the record
        rw [decide_eq_true haddr, Bool.true_and] at hold ⊢
        refine Bool.eq_false_of_not_eq_true fun hun => ?_
        rcases hrec hun with hun | ⟨v, hpc⟩
        · exact Bool.false_ne_true (hold.symm.trans hun)
        · exact hclear v hpc rfl haddr
      · rw [decide_eq_false haddr, Bool.false_and]

/-- What a walk has read stays so, when nobody takes it back. -/
theorem walked_step (h : Waits c) (hs : prog t c.sh (c.loc t) a = some r) {pc : Pc}
    (hunset : ∀ acquired, (c.loc t).pc = .unsetStore acquired →
      u ≠ t ∧ pc.asked ≠ some (c.loc t).glsId)
    (hclear : ∀ v, (c.loc t).pc = .clear v →
      pc.found ≠ some ((c.loc t).key, (c.loc t).glsId))
    (hwalked : Walked c u pc) (hpos : ∀ x ∈ pc.found, x.2 ≠ 0) :
    Walked (c.put t r) u pc := by
  have hid : ∀ {w : Tid} {owner : Id}, owner ≠ 0 → (c.loc w).glsId = owner →
      ((c.put t r).loc w).glsId = owner := by
    rintro w _ hne rfl
    rw [put_loc]
    split <;> rename_i hwt
    · subst hwt
      exact h.glsId_step hs hne
    · rfl
  have hwait : ∀ {waitOn : Addr} {owner : Id}, pc.asked = some owner →
      (∃ w, AtWait c u waitOn w ∧ (owner = 0 ∧ w = u ∨ owner ≠ 0 ∧ (c.loc w).glsId = owner)) →
      ∃ w, AtWait (c.put t r) u waitOn w ∧
        (owner = 0 ∧ w = u ∨ owner ≠ 0 ∧ ((c.put t r).loc w).glsId = owner) := by
    rintro waitOn owner hasked ⟨w, ⟨hchain, hasks⟩, hw⟩
    refine ⟨w, ⟨h.chain_step hs hchain hasks.ne_release, h.asks_step hs hasks ?_⟩, ?_⟩
    · -- the thread that clears its entry is not the one the walk is at
      rintro acquired hpc rfl
      obtain ⟨hne, hother⟩ := hunset acquired hpc
      rcases hw with ⟨-, rfl⟩ | ⟨-, rfl⟩
      · exact hne rfl
      · exact hother hasked
    · exact hw.imp id fun hw => ⟨hw.1, hid hw.1 hw.2⟩
  cases pc with
  | walkHt waitCycle waitOn owner => exact hwait rfl hwalked
  | walk waitCycle waitOn owner v => exact hwait rfl hwalked
  | walkWaiting waitCycle waitOn owner =>
      -- the last edge stays as well: its lock is not released before its owner is cleared
      obtain ⟨w, ⟨b, hchain, hlast, hkey, howns⟩, hw⟩ := hwalked
      have hlast' : Blocked (c.put t r) b w :=
        h.blocked_step hs hlast fun hpc => by rw [hkey]; exact howns.key_ne hpc
      have hkey' : ((c.put t r).loc b).key = waitOn := by
        refine (h.asks_step hs ⟨hlast.1, hkey, waits_of_pending hlast.2.1⟩ ?_).2.1
        rintro acquired hpc rfl
        have hpending := hlast.2.1
        rw [hpc] at hpending
        cases hpending
      refine ⟨w, ⟨b, h.chain_step hs hchain hlast.ne_release, hlast', hkey',
        h.owns_step hs howns ?_⟩, hid (hpos _ rfl) hw⟩
      rintro v hpc rfl rfl
      exact hclear v hpc (by rw [← hw]; rfl)
  | exited => exact h.deadlock_step hs hwalked
  | _ => trivial

end Waits

/-- The invariant of all the walks. -/
structure Walks (c : Conf Tid (Shared Tid) Local) : Prop where
  waits : Waits c
  walked : ∀ t, Walked c t (c.loc t).pc

namespace Walks

variable {c : Conf Tid (Shared Tid) Local} {t u : Tid} {addr : Addr} {a : Act}
  {r : Shared Tid × Local}

omit [DecidableEq Tid] in
/-- Who is on record for the address that a thread asks for blocks it. -/
theorem blocked_of_owner (h : Walks c) (hasks : Asks c u addr) (hsome : c.sh.cur.owner addr ≠ 0) :
    ∃ v, Blocked c u v ∧ Owns c v addr ∧ (c.loc v).glsId = c.sh.cur.owner addr := by
  obtain ⟨hcall, rfl, hwaits⟩ := hasks
  have hrec := h.waits.owners.record (c.loc u).key
  unfold expected at hrec
  cases hholder : c.sh.holder (c.loc u).key with
  | none =>
      rw [hholder] at hrec
      exact absurd hrec hsome
  | some v =>
      rw [hholder] at hrec
      dsimp only at hrec
      split at hrec <;> rename_i hun
      · exact absurd hrec hsome
      · refine ⟨v, ⟨hcall, ?_, hholder⟩, ⟨hholder, Bool.eq_false_of_not_eq_true hun⟩, hrec.symm⟩
        rcases h.waits.pending_or hwaits (by rw [hcall]; exact nofun) with
          hpending | ⟨hmine, hmyrec⟩
        · exact hpending
        · obtain rfl := Option.some.inj (hmine.symm.trans hholder)
          exact absurd hmyrec hun

omit [DecidableEq Tid] in
/-- An entry that is not of a trylock is of a thread in a lock call. -/
theorem asks_of_waiting (h : Walks c) (hid : (c.loc u).glsId ≠ 0)
    (hsome : c.sh.waiting (entry (c.loc u).glsId) ≠ 0)
    (htry : (c.loc u).call = .trylock → (c.loc u).pc.waits = false) :
    Asks c u (c.sh.waiting (entry (c.loc u).glsId)) := by
  rw [h.waits.waiting u hid] at hsome ⊢
  split at hsome <;> rename_i hwaits
  case isFalse => exact absurd rfl hsome
  rw [if_pos hwaits]
  obtain ⟨hpc, hinit⟩ := Bool.and_eq_true _ _ ▸ hwaits
  refine ⟨?_, rfl, hpc⟩
  cases hcall : (c.loc u).call with
  | lock => rfl
  | trylock => exact absurd (hpc.symm.trans (htry hcall)) nofun
  | unlock => exact absurd hcall (h.waits.call_ne_unlock hpc)
  | init => exact absurd hcall (of_decide_eq_true hinit)

omit [DecidableEq Tid] in
/-- **One round of a walk** goes along one more edge, and a walk that comes back to its thread
    has gone around a cycle. -/
theorem round (h : Walks c) (hok : undisturbed c t)
    (hs : go t c.sh (c.loc t) (c.loc t).pc = some r)
    (hwalks : (c.loc t).pc.walks = true ∨ (c.loc t).pc = .checkOwn) :
    Walked c t r.2.pc := by
  have hsane := h.waits.sane t
  have hknows := h.waits.owners.ids.knows t
  have hwalked := h.walked t
  unfold Local.Sane at hsane
  unfold Local.Knows at hknows
  unfold undisturbed at hok
  generalize hpc : (c.loc t).pc = pc at hs hwalks hsane hknows hwalked hok
  cases pc with
  | checkOwn =>
      -- the walk starts at the thread's own entry
      obtain rfl := Option.some.inj hs
      have hentry : c.sh.waiting (entry (c.loc t).glsId) = (c.loc t).key := by
        rw [h.waits.waiting t hknows, if_pos]
        unfold Local.waits
        rw [hpc, hsane]
        rfl
      refine ⟨t, ⟨.refl, hsane, hentry.symm, ?_⟩, Or.inl ⟨rfl, rfl⟩⟩
      rw [hpc]
      rfl
  | walkHt waitCycle waitOn owner =>
      obtain rfl := Option.some.inj hs
      exact hwalked
  | walk waitCycle waitOn owner v =>
      obtain ⟨u, ⟨hchain, hasks⟩, -⟩ := hwalked
      obtain rfl := Option.some.inj hs
      show Walked c t (ite _ _ _)
      split <;> rename_i hread
      · -- the table is superseded perhaps, but this owner is the current one
        have hcur := hok hread.2
        rw [← hcur] at hread ⊢
        obtain ⟨w, hblocked, howns, hw⟩ := h.blocked_of_owner hasks hread.2
        exact ⟨w, ⟨u, hchain, hblocked, hasks.2.1, howns⟩, hw⟩
      · unfold GlsDeadlock.walked
        dsimp only
        rw [if_neg hsane, if_neg fun hmore => hmore.2 rfl]
        trivial
  | walkWaiting waitCycle waitOn owner =>
      obtain ⟨u, ⟨b, hchain, hblocked, -, -⟩, rfl⟩ := hwalked
      obtain rfl := Option.some.inj hs
      show Walked c t (GlsDeadlock.walked ..)
      unfold GlsDeadlock.walked
      dsimp only
      split <;> rename_i hback
      · -- ids are not shared: the owner is the thread of the walk
        have hut := h.waits.owners.ids.apart u t hback hknows.2.1
        exact ⟨t, .tail' hchain (hut ▸ hblocked)⟩
      · split <;> rename_i hmore
        · exact ⟨u, ⟨hchain.tail hblocked,
            h.asks_of_waiting hknows.2.1 hmore.2 (hok u rfl)⟩, Or.inr ⟨hknows.2.1, rfl⟩⟩
        · trivial
  | exited => cases hs
  | _ => rcases hwalks with hw | hw <;> cases hw

omit [DecidableEq Tid] in
/-- The owners that the walk has found are threads. -/
theorem found_ne {l : Local} {n : Nat} (h : l.Knows n) : ∀ x ∈ l.pc.found, x.2 ≠ 0 := by
  intro x hx
  unfold Local.Knows at h
  generalize l.pc = pc at hx h
  cases pc with
  | walkWaiting =>
      obtain rfl := Option.some.inj hx
      exact h.2.1
  | _ => cases hx

/-- **Every step keeps the walks.** -/
theorem step (h : Walks c) (hok : sound c t a) (hs : prog t c.sh (c.loc t) a = some r) :
    Walks (c.put t r) := by
  have hwaits := h.waits.step hok hs
  have hundisturbed := hok.2.2
  unfold undisturbed at hundisturbed
  refine ⟨hwaits, fun u => ?_⟩
  rw [put_loc]
  split <;> rename_i hut
  case isFalse =>
    refine h.waits.walked_step hs (fun acquired hpc => ⟨hut, ?_⟩) (fun v hpc => ?_) (h.walked u)
      (found_ne (h.waits.owners.ids.knows u)) <;> rw [hpc] at hundisturbed <;>
      exact hundisturbed u
  subst hut
  cases hw : r.2.pc.walks with
  | false => exact walked_of_not hw
  | true =>
      -- the round in the state before the step, and then the step
      have hfrom : (c.loc u).pc.walks = true ∨ (c.loc u).pc = .checkOwn := by
        rcases h.waits.effect hs with ⟨-, -, -, -, hw'⟩ | heff
        · exact nomatch hw'.symm.trans hw
        cases heff with
        | take _ _ _ hr | release _ _ hr =>
            rw [hr] at hw
            cases hw
        | neither _ _ _ _ _ _ hwalk => exact hwalk hw
      have hgo : go u c.sh (c.loc u) (c.loc u).pc = some r := by
        unfold prog at hs
        split at hs <;> rename_i hpc
        · rw [hpc] at hfrom
          rcases hfrom with hf | hf <;> cases hf
        · rw [hpc] at hfrom
          rcases hfrom with hf | hf <;> cases hf
        · exact hs
        · cases hs
      refine h.waits.walked_step hs (fun acquired hpc => ?_) (fun v hpc => ?_)
        (h.round hok.2.2 hgo hfrom) (found_ne (n := (c.put u r).sh.glsIds.toNat) ?_)
      · rw [hpc] at hfrom
        rcases hfrom with hf | hf <;> cases hf
      · rw [hpc] at hfrom
        rcases hfrom with hf | hf <;> cases hf
      · have hknows := hwaits.owners.ids.knows u
        rwa [put_loc_self] at hknows

/-- **Run lemma.** -/
theorem reach (hc : Reach prog sound Init c) : Walks c := by
  refine hc.invariant (fun c h0 => ⟨h0.waits, fun t => ?_⟩) fun _ _ _ _ h hok hs => h.step hok hs
  rw [(h0.outside t).1]
  trivial

end Walks

/-- **The detector is right**, for any number of threads: as long as the steps are `sound`, it
    ends the program only in a state with a cycle of threads each of which is in a blocking
    lock call on a lock that the next one has. -/
theorem clhtLpDddCheck_deadlock {c : Conf Tid (Shared Tid) Local} (hc : Reach prog sound Init c)
    {t : Tid} (hexit : (c.loc t).pc = .exited) : Deadlock c := by
  have hwalked := (Walks.reach hc).walked t
  rw [hexit] at hwalked
  exact hwalked

omit [DecidableEq Tid] in
/-- The condition, as it is computed. -/
theorem undisturbed_iff [Fintype Tid] (c : Conf Tid (Shared Tid) Local) (t : Tid) :
    (match (c.loc t).pc with
      | .clear _ => decide (∀ u, (c.loc u).pc.found ≠ some ((c.loc t).key, (c.loc t).glsId))
      | .unsetStore _ => decide (∀ u, (c.loc u).pc.asked ≠ some (c.loc t).glsId)
      | .walk _ waitOn _ v =>
          decide ((c.sh.tab v).owner waitOn ≠ 0 →
            c.sh.cur.owner waitOn = (c.sh.tab v).owner waitOn)
      | .walkWaiting _ _ owner =>
          decide (∀ u, (c.loc u).glsId = owner → (c.loc u).call = .trylock →
            (c.loc u).pc.waits = false)
      | _ => true) = true ↔ undisturbed c t := by
  unfold undisturbed
  cases (c.loc t).pc with
  | clear _ | unsetStore _ | walk _ _ _ _ | walkWaiting _ _ _ => exact decide_eq_true_iff
  | _ => exact iff_of_true rfl trivial

instance [Fintype Tid] (c : Conf Tid (Shared Tid) Local) (t : Tid) :
    Decidable (undisturbed c t) :=
  decidable_of_iff _ (undisturbed_iff c t)

instance (a : Act) : Decidable (nonNull a) := by
  unfold nonNull
  split <;> infer_instance

instance [Fintype Tid] (c : Conf Tid (Shared Tid) Local) (t : Tid) (a : Act) :
    Decidable (sound c t a) :=
  inferInstanceAs (Decidable (_ ∧ _ ∧ _))

/-- Thread 0 has locked 4 and thread 1 has locked 8. -/
def bothLock : List (Fin 2 × Act) :=
  (0, .call .lock 4) :: List.replicate 11 (0, .go) ++
    (1, .call .lock 8) :: List.replicate 11 (1, .go)

/-- Then each asks for the lock of the other one, and thread 0 runs the detector. -/
def crossed (call : Call) : List (Fin 2 × Act) :=
  bothLock ++ (0, .call .lock 8) :: List.replicate 4 (0, .go) ++
    (1, .call call 4) :: List.replicate 4 (1, .go) ++
    (0, .check) :: List.replicate 8 (0, .go)

/-- `exit(-2)` has been called. -/
def Pc.ended : Pc → Bool
  | .exited => true
  | _ => false

theorem Pc.eq_exited {pc : Pc} (h : pc.ended = true) : pc = .exited := by
  cases pc <;> first | rfl | cases h

theorem clhtLpDddCheck_deadlock_two : ∃ c : Conf (Fin 2) (Shared (Fin 2)) Local,
    exec prog sound (start 2) (crossed .lock) = some c ∧ (c.loc 0).pc = .exited ∧ Deadlock c := by
  have hrun : (exec prog sound (start 2) (crossed .lock)).map (fun c => (c.loc 0).pc.ended) =
      some true := by decide +kernel
  obtain ⟨c, hc, hended⟩ := Option.map_eq_some_iff.mp hrun
  exact ⟨c, hc, Pc.eq_exited hended,
    clhtLpDddCheck_deadlock (reach_of_exec (start_init 2) hc) (Pc.eq_exited hended)⟩

/-- **The detector ends a program without a deadlock**: thread 0 is blocked in a lock call, and
    thread 1, that has the lock, is about to return from a trylock. -/
theorem clhtLpDddCheck_noDeadlock : ¬ ∀ c : Conf (Fin 2) (Shared (Fin 2)) Local,
    Reach prog (fun c t a => kept c t a ∧ nonNull a) Init c → ∀ t,
      (c.loc t).pc = .exited → Deadlock c := by
  intro h
  have hrun : (exec prog (fun c t a => kept c t a ∧ nonNull a) (start 2) (crossed .trylock)).map
      (fun c => ((c.loc 0).pc.ended, (c.loc 1).call, c.sh.holder (c.loc 0).key)) =
        some (true, .trylock, some 1) := by decide +kernel
  obtain ⟨c, hc, hval⟩ := Option.map_eq_some_iff.mp hrun
  obtain ⟨hended, hcall, hholder⟩ : (c.loc 0).pc.ended = true ∧ (c.loc 1).call = .trylock ∧
      c.sh.holder (c.loc 0).key = some 1 := by simpa only [Prod.mk.injEq] using hval
  obtain ⟨t, ht⟩ := h c (reach_of_exec (start_init 2) hc) 0 (Pc.eq_exited hended)
  -- the only edge is from thread 0 to thread 1, which is not in a blocking call
  have hedge : ∀ u v, Blocked c u v → u = 0 ∧ v = 1 := by
    intro u v huv
    have hu : u = 0 := by
      by_contra hne
      rw [Fin.eq_one_of_ne_zero u hne] at huv
      exact nomatch hcall.symm.trans huv.1
    subst hu
    exact ⟨rfl, (Option.some.inj (hholder.symm.trans huv.2.2)).symm⟩
  obtain ⟨v, hfirst, -⟩ := Relation.TransGen.head'_iff.mp ht
  obtain ⟨w, -, hlast⟩ := Relation.TransGen.tail'_iff.mp ht
  exact absurd ((hedge t v hfirst).1.symm.trans (hedge w t hlast).2) (by decide)

end GlsDeadlock
