import Lockin.ClhtLpTables

/-! # Lookups against removals

    A lookup of `clht_lock_pointer.c` reads the key of a slot and then its value, without the
    lock.  In between, a remove may vacate the slot, and a put may fill it again, the value
    first.

    The history is kept with the table: what it was before every step, and for every slot when
    its value was stored last and which key has been stored since.  As long as a lookup loads
    a value that is still the one of its match, or that has been given its key since, what it
    returns was bound to its key during the call. -/

namespace ClhtLpLookup

open Interleaving SlotTable ClhtLpConc

open ClhtLp hiding Call

variable {Tid : Type}

/-- The table, with its history. -/
structure Shared where
  h : Clht
  /-- The table before every step, the last one first. -/
  past : List Clht
  /-- The step of the last `*empty_v = val`. -/
  stored : SlotPtr → Nat
  /-- The key that a put has stored since then. -/
  keyed : SlotPtr → Option Addr

/-- A thread, with the step at which its call began, and that of its last look at a key. -/
structure Local extends thread : ClhtLpConc.Local where
  began : Nat
  looked : Nat

/-- The step number. -/
def Shared.now (sh : Shared) : Nat := sh.past.length

/-- What a step of a thread at `pc`, in a call about `key`, adds to the history. -/
def Shared.record (sh : Shared) (h : Clht) (key : Addr) (pc : Pc) : Shared where
  h := h
  past := sh.h :: sh.past
  stored := match pc with
    | .putVal p _ => Function.update sh.stored p sh.now
    | _ => sh.stored
  keyed := match pc with
    | .putVal p _ => Function.update sh.keyed p none
    | .putKey p _ => Function.update sh.keyed p (some key)
    | _ => sh.keyed

/-- One step of a thread. -/
def prog : Prog Tid Shared Local Act := fun t sh l a =>
  (ClhtLpConc.prog t sh.h l.thread a).map fun r =>
    (sh.record r.1 l.call.key l.pc,
      { thread := r.2
        began := match a with
          | .start _ => sh.now
          | .go => l.began
        looked := match l.pc with
          | .search _ _ _ => sh.now
          | _ => l.looked })

/-- A new table, and all threads outside. -/
structure Init (numBuckets : Nat) (c : Conf Tid Shared Local) : Prop where
  sh : clhtLpCreate numBuckets = some c.sh.h
  past : c.sh.past = []
  loc : ∀ t, (c.loc t).pc = .idle ∧ (c.loc t).began = 0

/-- `key` is in the current table, with the value `val`. -/
def Bound (h : Clht) (key : Addr) (val : Val) : Prop :=
  (⟨key, val⟩ : Slot Addr Val) ∈ h.cur.table (clhtLpHash h.cur key)

/-- The tables from the beginning of a thread's call until now. -/
def during (c : Conf Tid Shared Local) (t : Tid) : List Clht :=
  c.sh.h :: c.sh.past.take (c.sh.now - (c.loc t).began)

/-- `val` has been bound to the key of the thread's call at some moment during the call. -/
def BoundDuring (c : Conf Tid Shared Local) (t : Tid) (val : Val) : Prop :=
  ∃ h ∈ during c t, Bound h (c.loc t).call.key val

/-- The calls of the claim. -/
def plain : Call → Prop
  | .putType _ _ | .remove _ | .get _ => True
  | _ => False

/-- Lookups, puts and removes, and no resize. -/
def calm (c : Conf Tid Shared Local) (t : Tid) (a : Act) : Prop :=
  match a with
  | .start call => plain call
  | .go =>
      match (c.loc t).pc with
      | .resizeHt _ _ _ => False
      | _ => True

/-- When a lookup loads the value of the slot that it has matched, no put has stored a value
    there since the match, or the last one has stored the key of the lookup as well. -/
def timely (c : Conf Tid Shared Local) (t : Tid) : Prop :=
  match (c.loc t).pc with
  | .searchVal p =>
      c.sh.stored p ≤ (c.loc t).looked ∨ c.sh.keyed p = some (c.loc t).call.key
  | _ => True

def sound (c : Conf Tid Shared Local) (t : Tid) (a : Act) : Prop := calm c t a ∧ timely c t

/-! ## What a step does to the slots -/

/-- The part of a call where it is in `ht_resize_pes`, or has a lock of the table. -/
def apart : Pc → Bool
  | .resizeTry _ _ _ _ | .resizeNew _ _ _ _ | .cpyLock _ _ _ _ | .cpySlot _ _ _ _ _ => true
  | .swap _ _ _ | .tableNew _ _ _ _ | .resizeRls _ _ | .tasCas _ | .tasStore _ => true
  | _ => false

/-- The slot at `q` after a step at `pc`. -/
def rewritten (key : Addr) (q : SlotPtr) (s : Slot Addr Val) : Pc → Slot Addr Val
  | .putVal p val => if q = p then { s with val := val } else s
  | .putKey p _ => if q = p then { s with key := key } else s
  | .rmKey p _ => if q = p then { s with key := 0 } else s
  | _ => s

/-- Only the store of a value changes the value. -/
theorem rewritten_val {key : Addr} {q : SlotPtr} {s : Slot Addr Val} {pc : Pc}
    (hpc : ∀ val, pc ≠ .putVal q val) : (rewritten key q s pc).val = s.val := by
  cases pc with
  | putVal p val =>
      refine congrArg Slot.val (if_neg ?_)
      rintro rfl
      exact hpc val rfl
  | putKey p val | rmKey p val =>
      dsimp only [rewritten]
      split <;> rfl
  | _ => rfl

section Slots

variable {h h' : Clht} {l : ClhtLpConc.Local} {pc : Pc} {r : Clht × ClhtLpConc.Local}

/-- What is the same after a step that does not resize. -/
structure Stays (h h' : Clht) : Prop where
  ht : h'.ht = h.ht
  numBuckets : ∀ T, (h'.tab T).numBuckets = (h.tab T).numBuckets

/-- The bucket of a key stays the same. -/
theorem Stays.hash (hs : Stays h h') (key : Addr) :
    clhtLpHash h'.cur key = clhtLpHash h.cur key := by
  unfold clhtLpHash Clht.cur
  rw [hs.ht, hs.numBuckets]

/-- A table is replaced by one of the same size. -/
theorem Stays.setTab {T : Nat} {X : Hashtable} (hX : X.numBuckets = (h.tab T).numBuckets) :
    Stays h (h.setTab T X) := by
  refine ⟨rfl, fun T' => ?_⟩
  rw [tab_setTab]
  split
  · next heq => rw [heq, hX]
  · rfl

/-- A table is replaced by one with the same chains. -/
theorem slot_setTab {T : Nat} {X : Hashtable} (hX : X.table = (h.tab T).table) (q : SlotPtr) :
    (h.setTab T X).slot q = h.slot q := by
  unfold Clht.slot
  rw [tab_setTab]
  split
  · next heq => rw [heq, hX]
  · rfl

/-- A store to a slot. -/
theorem Stays.setSlot (p : SlotPtr) (s : Slot Addr Val) : Stays h (h.setSlot p s) := .setTab rfl

/-- The one slot that is written. -/
theorem setSlot_slot {p q : SlotPtr} {s₀ s : Slot Addr Val} (hp : h.slot p = some s₀) :
    (h.setSlot p s).slot q = if q = p then some s else h.slot q := by
  unfold Clht.setSlot
  rw [setChain_slot]
  obtain ⟨T, b, i⟩ := p
  obtain ⟨T', b', i'⟩ := q
  by_cases hbin : T' = T ∧ b' = b
  · obtain ⟨rfl, rfl⟩ := hbin
    rw [if_pos ⟨rfl, rfl⟩, List.getElem?_set]
    by_cases hi : i = i'
    · subst hi
      rw [if_pos rfl, if_pos rfl, if_pos (List.getElem?_eq_some_iff.mp hp).1]
    · rw [if_neg hi, if_neg (fun heq => hi (SlotPtr.mk.inj heq).2.2.symm)]
      rfl
  · rw [if_neg hbin, if_neg]
    rintro heq
    obtain ⟨hT, hb, -⟩ := SlotPtr.mk.inj heq
    exact hbin ⟨hT, hb⟩

theorem Stays.setVal (p : SlotPtr) (val : Val) : Stays h (h.setVal p val) := by
  unfold Clht.setVal
  split
  · exact .setSlot ..
  · exact ⟨rfl, fun _ => rfl⟩

theorem Stays.setKey (p : SlotPtr) (key : Addr) : Stays h (h.setKey p key) := by
  unfold Clht.setKey
  split
  · exact .setSlot ..
  · exact ⟨rfl, fun _ => rfl⟩

/-- The value of a slot is written. -/
theorem slot_setVal {p q : SlotPtr} {val : Val} {s : Slot Addr Val} (hq : h.slot q = some s) :
    (h.setVal p val).slot q = some (if q = p then { s with val := val } else s) := by
  unfold Clht.setVal
  by_cases hqp : q = p
  · subst hqp
    rw [hq, if_pos rfl]
    exact (setSlot_slot hq).trans (if_pos rfl)
  · rw [if_neg hqp]
    split
    · next s₀ hp => exact (setSlot_slot hp).trans ((if_neg hqp).trans hq)
    · exact hq

/-- The key of a slot is written. -/
theorem slot_setKey {p q : SlotPtr} {key : Addr} {s : Slot Addr Val} (hq : h.slot q = some s) :
    (h.setKey p key).slot q = some (if q = p then { s with key := key } else s) := by
  unfold Clht.setKey
  by_cases hqp : q = p
  · subst hqp
    rw [hq, if_pos rfl]
    exact (setSlot_slot hq).trans (if_pos rfl)
  · rw [if_neg hqp]
    split
    · next s₀ hp => exact (setSlot_slot hp).trans ((if_neg hqp).trans hq)
    · exact hq

/-- **What a step does to the slots**, outside `ht_resize_pes`. -/
theorem slots_of_go (hpc : apart pc = false) (hs : go h l pc = some r) :
    Stays h r.1 ∧ ∀ q s, h.slot q = some s →
      r.1.slot q = some (rewritten l.call.key q s pc) := by
  have hsame : ∀ {x : Clht × ClhtLpConc.Local}, some x = some r → x.1 = h →
      (∀ q s, rewritten l.call.key q s pc = s) →
      Stays h r.1 ∧ ∀ q s, h.slot q = some s →
        r.1.slot q = some (rewritten l.call.key q s pc) := by
    intro x hx hh hre
    obtain rfl := Option.some.inj hx
    rw [hh]
    refine ⟨⟨rfl, fun _ => rfl⟩, fun q s hq => ?_⟩
    rw [hre]
    exact hq
  have htab : ∀ {x : Clht × ClhtLpConc.Local} {T : Nat} {X : Hashtable}, some x = some r →
      x.1 = h.setTab T X → X.table = (h.tab T).table → X.numBuckets = (h.tab T).numBuckets →
      (∀ q s, rewritten l.call.key q s pc = s) →
      Stays h r.1 ∧ ∀ q s, h.slot q = some s →
        r.1.slot q = some (rewritten l.call.key q s pc) := by
    intro x T X hx hh htable hnum hre
    obtain rfl := Option.some.inj hx
    rw [hh]
    refine ⟨.setTab hnum, fun q s hq => ?_⟩
    rw [hre, slot_setTab htable]
    exact hq
  cases pc with
  | idle | crash => cases hs
  | resizeTry _ _ _ _ | resizeNew _ _ _ _ | cpyLock _ _ _ _ | cpySlot _ _ _ _ _ => cases hpc
  | swap _ _ _ | tableNew _ _ _ _ | resizeRls _ _ | tasCas _ | tasStore _ => cases hpc
  | search T b i =>
      dsimp only [go] at hs
      split at hs
      · split at hs <;> exact hsame hs rfl fun _ _ => rfl
      · exact hsame hs rfl fun _ _ => rfl
  | lockAcq T b H =>
      dsimp only [go] at hs
      split at hs
      · exact htab hs rfl rfl rfl fun _ _ => rfl
      · exact hsame hs rfl fun _ _ => rfl
      · exact hsame hs rfl fun _ _ => rfl
  | waitNew H =>
      dsimp only [go] at hs
      split at hs <;> exact hsame hs rfl fun _ _ => rfl
  | seek T b H =>
      dsimp only [go] at hs
      split at hs
      · exact hsame hs rfl fun _ _ => rfl
      · obtain rfl := Option.some.inj hs
        have hcreate := (Call.create_sameTabs h l.call).chains
        exact ⟨⟨hcreate.ht, hcreate.numBuckets⟩, fun q s hq => (hcreate.slot q).trans hq⟩
  | expand T b H val => exact htab hs rfl rfl rfl fun _ _ => rfl
  | link T b val resize =>
      obtain rfl := Option.some.inj hs
      refine ⟨.setTab rfl, fun q s hq => ?_⟩
      refine (setChain_slot h ⟨T, b, 0⟩ q _).trans ?_
      split
      · next heq =>
        obtain ⟨T', b', i⟩ := q
        obtain ⟨rfl, rfl⟩ := heq
        have hold : ((h.tab T').table b')[i]? = some s := hq
        rw [List.getElem?_append_left (List.getElem?_eq_some_iff.mp hold).1]
        exact hold
      · exact hq
  | putVal p val =>
      obtain rfl := Option.some.inj hs
      exact ⟨.setVal p val, fun q s hq => slot_setVal hq⟩
  | putKey p val =>
      obtain rfl := Option.some.inj hs
      exact ⟨.setKey p l.call.key, fun q s hq => slot_setKey hq⟩
  | rmKey p val =>
      obtain rfl := Option.some.inj hs
      exact ⟨.setKey p 0, fun q s hq => slot_setKey hq⟩
  | lockRls T b next => exact htab hs rfl rfl rfl fun _ _ => rfl
  | statusScan inc T b i size expandsMax k =>
      dsimp only [go] at hs
      split at hs
      · split at hs <;> exact hsame hs rfl fun _ _ => rfl
      · split at hs <;> exact hsame hs rfl fun _ _ => rfl
  | statusTry inc k | statusRls k =>
      obtain rfl := Option.some.inj hs
      exact ⟨⟨rfl, fun _ => rfl⟩, fun q s hq => hq⟩
  | _ => exact hsame hs rfl fun _ _ => rfl

/-! ## Where a lookup goes -/

/-- The part of a lookup from its first look at a key to its load of a value. -/
def looks : Pc → Bool
  | .search _ _ _ | .searchVal _ => true
  | _ => false

/-- Where a step leads to. -/
inductive Moves (h : Clht) (key : Addr) (pc : Pc) : Pc → Prop
  | begins : Moves h key pc (.search h.ht (clhtLpHash h.cur key) 0)
  | passes {T b i : Nat} : pc = .search T b i → Moves h key pc (.search T b (i + 1))
  | finds {p : SlotPtr} {s : Slot Addr Val} : pc = .search p.tab p.bin p.idx →
      h.slot p = some s → s.key = key → Moves h key pc (.searchVal p)
  | other {pc' : Pc} : apart pc' = false → looks pc' = false → Moves h key pc pc'

/-- Where a thread goes in a call that does not resize. -/
theorem moves_of_go (hl : l.pc = pc) (hplain : plain l.call) (hpc : apart pc = false)
    (hresize : ∀ inc by_ k, pc ≠ .resizeHt inc by_ k) (hs : go h l pc = some r) :
    Moves h l.call.key pc r.2.pc := by
  have hback : ∀ k : Cont, Moves h l.call.key pc k.back := by
    intro k
    unfold Cont.back
    split <;> exact .other rfl rfl
  cases pc with
  | idle | crash => cases hs
  | resizeTry _ _ _ _ | resizeNew _ _ _ _ | cpyLock _ _ _ _ | cpySlot _ _ _ _ _ => cases hpc
  | swap _ _ _ | tableNew _ _ _ _ | resizeRls _ _ | tasCas _ | tasStore _ => cases hpc
  | resizeHt inc by_ k => exact absurd rfl (hresize inc by_ k)
  | readHt =>
      obtain rfl := Option.some.inj hs
      show Moves _ _ _ (l.call.begun ..)
      cases l.call with
      | remove _ | putInit _ => exact .other rfl rfl
      | _ => exact .begins
  | search T b i =>
      dsimp only [go] at hs
      split at hs
      · next s hslot =>
        split at hs <;> obtain rfl := Option.some.inj hs
        · next hkey =>
          show Moves _ _ _ (l.call.hit ⟨T, b, i⟩)
          cases hcall : l.call <;> rw [hcall] at hplain <;> first
            | exact hplain.elim
            | exact .finds rfl hslot (hcall ▸ hkey)
        · exact .passes rfl
      · obtain rfl := Option.some.inj hs
        show Moves _ _ _ (l.call.missed T b)
        cases hcall : l.call <;> exact .other rfl rfl
  | searchVal p =>
      obtain rfl := Option.some.inj hs
      show Moves _ _ _ (l.call.gotVal p _)
      unfold Call.gotVal
      split
      · split <;> exact .other rfl rfl
      · exact .other rfl rfl
  | lockAcq T b H =>
      dsimp only [go] at hs
      split at hs <;> obtain rfl := Option.some.inj hs
      · exact .other rfl rfl
      · rw [hl]
        exact .other rfl rfl
      · exact .other rfl rfl
  | waitNew H =>
      dsimp only [go] at hs
      split at hs <;> obtain rfl := Option.some.inj hs
      · rw [hl]
        exact .other rfl rfl
      · exact .other rfl rfl
  | seek T b H =>
      dsimp only [go] at hs
      split at hs <;> obtain rfl := Option.some.inj hs
      · show Moves _ _ _ (l.call.present _)
        cases l.call <;> exact .other rfl rfl
      · next empty _ =>
        show Moves _ _ _ (l.call.absent ..)
        cases l.call <;> cases empty <;> exact .other rfl rfl
  | link T b val resize =>
      obtain rfl := Option.some.inj hs
      exact .other rfl rfl
  | lockRls T b next =>
      obtain rfl := Option.some.inj hs
      show Moves _ _ _ next.pc
      cases next <;> exact .other rfl rfl
  | statusTry inc k =>
      obtain rfl := Option.some.inj hs
      dsimp only [Local.goto]
      split
      · exact hback k
      · exact .other rfl rfl
  | statusRls k =>
      obtain rfl := Option.some.inj hs
      exact hback k.close
  | statusScan inc T b i size expandsMax k =>
      dsimp only [go] at hs
      split at hs
      · split at hs <;> obtain rfl := Option.some.inj hs <;> exact .other rfl rfl
      · split at hs <;> obtain rfl := Option.some.inj hs <;> exact .other rfl rfl
  | ret x =>
      obtain rfl := Option.some.inj hs
      show Moves _ _ _ (l.call.returned l x).pc
      cases hcall : l.call <;> rw [hcall] at hplain <;> first
        | exact hplain.elim
        | exact .other rfl rfl
  | _ =>
      obtain rfl := Option.some.inj hs
      exact .other rfl rfl

end Slots

/-! ## The runs -/

/-- What the history says of a lookup that has matched a slot. -/
structure Matched (c : Conf Tid Shared Local) (t : Tid) (p : SlotPtr) : Prop where
  slot : ∃ s, c.sh.h.slot p = some s
  looked : (c.loc t).looked < c.sh.now
  bound : c.sh.stored p ≤ (c.loc t).looked ∨ c.sh.keyed p = some (c.loc t).call.key →
    BoundDuring c t (c.sh.h.read p)

/-- The bucket of the key in the current table. -/
def Here (c : Conf Tid Shared Local) (t : Tid) (T b : Nat) : Prop :=
  T = c.sh.h.ht ∧ b = clhtLpHash c.sh.h.cur (c.loc t).call.key

/-- What is known of the threads in every run. -/
structure Lookups (c : Conf Tid Shared Local) : Prop where
  inTable : ∀ t, apart (c.loc t).pc = false
  call : ∀ t, (c.loc t).pc ≠ .idle → plain (c.loc t).call
  began : ∀ t, (c.loc t).began ≤ c.sh.now
  search : ∀ t T b i, (c.loc t).pc = .search T b i → Here c t T b
  matched : ∀ t p, (c.loc t).pc = .searchVal p → Here c t p.tab p.bin ∧ Matched c t p

/-- A new table. -/
theorem Init.lookups {n : Nat} {c : Conf Tid Shared Local} (h : Init n c) : Lookups c where
  inTable := by
    intro t
    rw [(h.loc t).1]
    rfl
  call := fun t hpc => absurd (h.loc t).1 hpc
  began := by
    intro t
    rw [(h.loc t).2]
    exact Nat.zero_le _
  search := by
    intro t T b i hpc
    rw [(h.loc t).1] at hpc
    cases hpc
  matched := by
    intro t p hpc
    rw [(h.loc t).1] at hpc
    cases hpc

/-- A slot with the key binds it. -/
theorem bound_of_slot {h : Clht} {key : Addr} {p : SlotPtr} {s : Slot Addr Val} (hT : p.tab = h.ht)
    (hb : p.bin = clhtLpHash h.cur key) (hs : h.slot p = some s) (hk : s.key = key) :
    Bound h key (h.read p) := by
  have hread : h.read p = s.val := read_of_slot hs
  have hslot : (h.cur.table (clhtLpHash h.cur key))[p.idx]? = some ⟨key, h.read p⟩ := by
    unfold Clht.cur at hb ⊢
    rw [← hb, ← hT, hread, ← hk]
    exact hs
  exact List.mem_of_getElem? hslot

section

variable [DecidableEq Tid] {c : Conf Tid Shared Local} {t u : Tid} {h' : Clht} {key : Addr}
  {pc : Pc}
  {l' : Local}

/-- What was bound during a call stays so, and what is bound now is. -/
theorem BoundDuring.step {val : Val} (hcall : (((c.put t (c.sh.record h' key pc, l')).loc u).call)
      = (c.loc u).call)
    (hbegan : ((c.put t (c.sh.record h' key pc, l')).loc u).began = (c.loc u).began)
    (hle : (c.loc u).began ≤ c.sh.now)
    (hb : BoundDuring c u val ∨ Bound h' (c.loc u).call.key val) :
    BoundDuring (c.put t (c.sh.record h' key pc, l')) u val := by
  unfold BoundDuring during
  rw [hcall, hbegan]
  rcases hb with ⟨g, hg, hbound⟩ | hbound
  · refine ⟨g, List.mem_cons_of_mem _ ?_, hbound⟩
    show g ∈ (c.sh.h :: c.sh.past).take (c.sh.past.length + 1 - _)
    have hlen : c.sh.past.length + 1 - (c.loc u).began = c.sh.now - (c.loc u).began + 1 :=
      Nat.succ_sub hle
    rw [hlen]
    exact hg
  · exact ⟨h', List.mem_cons_self, hbound⟩

/-- A thread stays at the bucket of its key. -/
theorem Here.step {T b : Nat} (hh : Here c u T b) (hstay : Stays c.sh.h h')
    (hcall : (((c.put t (c.sh.record h' key pc, l')).loc u).call) = (c.loc u).call) :
    Here (c.put t (c.sh.record h' key pc, l')) u T b := by
  unfold Here
  rw [hcall]
  exact ⟨hh.1.trans hstay.ht.symm, hh.2.trans (hstay.hash _).symm⟩

/-- **A step of another thread** keeps what is known of a match. -/
theorem Matched.step {p : SlotPtr} (hm : Matched c u p) (hut : u ≠ t)
    (hhere : Here c u p.tab p.bin) (hle : (c.loc u).began ≤ c.sh.now)
    (hstay : Stays c.sh.h h') (hslots : ∀ q s, c.sh.h.slot q = some s →
      h'.slot q = some (rewritten key q s pc)) :
    Matched (c.put t (c.sh.record h' key pc, l')) u p := by
  obtain ⟨s, hs⟩ := hm.slot
  have hs' := hslots p s hs
  have hloc := put_loc_ne c (c.sh.record h' key pc, l') hut
  have hold : h'.read p = c.sh.h.read p → BoundDuring c u (c.sh.h.read p) →
      BoundDuring (c.put t (c.sh.record h' key pc, l')) u (h'.read p) := by
    intro hread hb
    rw [hread]
    exact .step (by rw [hloc]) (by rw [hloc]) hle (Or.inl hb)
  have hread : (rewritten key p s pc).val = s.val → h'.read p = c.sh.h.read p :=
    fun hval => (read_of_slot hs').trans (hval.trans (read_of_slot hs).symm)
  refine ⟨⟨_, hs'⟩, ?_, ?_⟩
  · rw [hloc]
    exact Nat.lt_succ_of_lt hm.looked
  · rw [hloc]
    show (c.sh.record h' key pc).stored p ≤ _ ∨ (c.sh.record h' key pc).keyed p = _ →
      BoundDuring _ u (h'.read p)
    cases pc with
    | putVal q val =>
        show Function.update c.sh.stored q c.sh.now p ≤ _ ∨
          Function.update c.sh.keyed q none p = _ → _
        by_cases hpq : p = q
        · -- the value is overwritten, and not published yet
          subst hpq
          rw [Function.update_self, Function.update_self]
          rintro (hstored | hkeyed)
          · exact absurd hm.looked (Nat.not_lt.mpr hstored)
          · cases hkeyed
        · rw [Function.update_of_ne hpq, Function.update_of_ne hpq]
          exact fun htime => hold (hread (congrArg Slot.val (if_neg hpq))) (hm.bound htime)
    | putKey q val =>
        show c.sh.stored p ≤ _ ∨ Function.update c.sh.keyed q (some key) p = _ → _
        have hval : (rewritten key p s (.putKey q val)).val = s.val := rewritten_val nofun
        rw [Function.update_apply]
        split
        · next hpq =>
          rintro (hstored | hkeyed)
          · exact hold (hread hval) (hm.bound (Or.inl hstored))
          · -- it is published under the key of the lookup
            refine .step (by rw [hloc]) (by rw [hloc]) hle (Or.inr ?_)
            refine bound_of_slot (hhere.1.trans hstay.ht.symm)
              (hhere.2.trans (hstay.hash _).symm) hs' ?_
            exact (congrArg Slot.key (if_pos hpq)).trans (Option.some.inj hkeyed)
        · exact fun htime => hold (hread hval) (hm.bound htime)
    | rmKey q val =>
        exact fun htime => hold (hread (rewritten_val nofun)) (hm.bound htime)
    | _ => exact fun htime => hold (hread rfl) (hm.bound htime)

namespace Lookups

/-- What the steps have in common. -/
theorem put (h : Lookups c) (hstay : Stays c.sh.h h') (hslots : ∀ q s, c.sh.h.slot q = some s →
      h'.slot q = some (rewritten key q s pc))
    (hin : apart l'.pc = false) (hcall : l'.pc ≠ .idle → plain l'.call)
    (hbegan : l'.began ≤ c.sh.now + 1)
    (hsearch : ∀ T b i, l'.pc = .search T b i →
      T = c.sh.h.ht ∧ b = clhtLpHash c.sh.h.cur l'.call.key)
    (hmatched : ∀ p, l'.pc = .searchVal p → (p.tab = c.sh.h.ht ∧
      p.bin = clhtLpHash c.sh.h.cur l'.call.key) ∧
        Matched (c.put t (c.sh.record h' key pc, l')) t p) :
    Lookups (c.put t (c.sh.record h' key pc, l')) where
  inTable := by
    intro u
    rw [put_loc]
    split
    · exact hin
    · exact h.inTable u
  call := by
    intro u
    rw [put_loc]
    split
    · exact hcall
    · exact h.call u
  began := by
    intro u
    show _ ≤ c.sh.now + 1
    rw [put_loc]
    split
    · exact hbegan
    · exact Nat.le_succ_of_le (h.began u)
  search := by
    intro u T b i hpc
    by_cases hut : u = t
    · subst hut
      rw [put_loc_self] at hpc
      obtain ⟨hT, hb⟩ := hsearch T b i hpc
      unfold Here
      rw [put_loc_self]
      exact ⟨hT.trans hstay.ht.symm, hb.trans (hstay.hash _).symm⟩
    · have hloc := put_loc_ne c (c.sh.record h' key pc, l') hut
      rw [hloc] at hpc
      exact (h.search u T b i hpc).step hstay (by rw [hloc])
  matched := by
    intro u p hpc
    by_cases hut : u = t
    · subst hut
      rw [put_loc_self] at hpc
      obtain ⟨⟨hT, hb⟩, hm⟩ := hmatched p hpc
      refine ⟨?_, hm⟩
      unfold Here
      rw [put_loc_self]
      exact ⟨hT.trans hstay.ht.symm, hb.trans (hstay.hash _).symm⟩
    · have hloc := put_loc_ne c (c.sh.record h' key pc, l') hut
      rw [hloc] at hpc
      obtain ⟨hhere, hm⟩ := h.matched u p hpc
      exact ⟨hhere.step hstay (by rw [hloc]), hm.step hut hhere (h.began u) hstay hslots⟩

/-- **Step lemma.** -/
theorem step (h : Lookups c) {a : Act} {r : Shared × Local} (hok : sound c t a)
    (hs : prog t c.sh (c.loc t) a = some r) : Lookups (c.put t r) := by
  obtain ⟨hcalm, -⟩ := hok
  obtain ⟨r', hr', rfl⟩ := Option.map_eq_some_iff.mp hs
  rcases ClhtLpConc.prog_cases (c := ⟨c.sh.h, fun t => (c.loc t).thread⟩) hr' with
    ⟨call, rfl, hidle, -, rfl⟩ | ⟨rfl, hgo⟩
  · -- a call begins
    have hidle' : (c.loc t).pc = .idle := hidle
    have hentry : call.entry = .readHt := by cases call <;> first | rfl | exact hcalm.elim
    refine h.put ⟨rfl, fun _ => rfl⟩ (fun q s hq => ?_) ?_ (fun _ => hcalm) (Nat.le_succ _)
      (fun T b i hpc => ?_) (fun p hpc => ?_)
    · rw [hidle']
      exact hq
    · show apart call.entry = false
      rw [hentry]
      rfl
    · exact nomatch hentry.symm.trans hpc
    · exact nomatch hentry.symm.trans hpc
  · change go c.sh.h (c.loc t).thread (c.loc t).pc = some r' at hgo
    have hpcIdle : (c.loc t).pc ≠ .idle := by
      intro heq
      rw [heq] at hgo
      cases hgo
    have hplain := h.call t hpcIdle
    obtain ⟨hstay, hslots⟩ := slots_of_go (h.inTable t) hgo
    have hresize : ∀ inc by_ k, (c.loc t).pc ≠ .resizeHt inc by_ k := by
      intro inc by_ k heq
      unfold calm at hcalm
      dsimp only at hcalm
      rw [heq] at hcalm
      exact hcalm
    have hcall : r'.2.call = (c.loc t).call := call_of_go hgo
    have hmoves := moves_of_go rfl hplain (h.inTable t) hresize hgo
    have hbegan := Nat.le_succ_of_le (h.began t)
    refine h.put hstay hslots ?_ (fun _ => hcall ▸ hplain) hbegan (fun T b i hpc => ?_)
      (fun p hpc => ?_)
    · show apart r'.2.pc = false
      generalize r'.2.pc = pc' at hmoves
      cases hmoves <;> first | rfl | assumption
    · change r'.2.pc = _ at hpc
      show _ ∧ _ = clhtLpHash _ r'.2.call.key
      rw [hcall]
      rw [hpc] at hmoves
      cases hmoves with
      | begins => exact ⟨rfl, rfl⟩
      | passes hold => exact h.search t _ _ _ hold
      | other _ hlooks => cases hlooks
    · change r'.2.pc = _ at hpc
      rw [hpc] at hmoves
      cases hmoves with
      | other _ hlooks => cases hlooks
      | finds hold hslot hkey =>
          rename_i s
          have hhere := h.search t _ _ _ hold
          have hslot' := hslots p s hslot
          rw [hold] at hslot'
          refine ⟨⟨hhere.1, ?_⟩, ⟨s, hslot'⟩, ?_, fun _ => ?_⟩
          · show _ = clhtLpHash _ r'.2.call.key
            rw [hcall]
            exact hhere.2
          · rw [put_loc_self, hold]
            exact Nat.lt_succ_self _
          · -- the key is there now
            refine ⟨r'.1, List.mem_cons_self, ?_⟩
            rw [put_loc_self]
            refine bound_of_slot (hhere.1.trans hstay.ht.symm) ?_ hslot' ?_
            · rw [hstay.hash]
              exact hhere.2.trans (congrArg (fun call => clhtLpHash _ (Call.key call)) hcall.symm)
            · exact hkey.trans (congrArg Call.key hcall.symm)

/-- **Run lemma.** -/
theorem reach {n : Nat} (hc : Reach prog sound (Init n) c) : Lookups c :=
  hc.invariant (fun _ h0 => h0.lookups) fun _ _ _ _ h hok hs => h.step hok hs

end Lookups

/-- **Lookups are right**, for any number of threads: in a run of lookups, puts and removes
    without a resize, in which every load of a lookup is `timely`, a nonzero value that the
    lookup of a `clht_lp_get` or `clht_lp_put_type` returns was bound to its key at some moment
    during the call. -/
theorem clhtLpGet_bound {n : Nat} (hc : Reach prog sound (Init n) c) {a : Act}
    {r : Shared × Local} (hok : sound c t a) (hs : prog t c.sh (c.loc t) a = some r) {p : SlotPtr}
    (hpc : (c.loc t).pc = .searchVal p) {val : Val} (hret : r.2.pc = .ret (.val val))
    (hne : val ≠ 0) : BoundDuring c t val := by
  obtain ⟨-, hm⟩ := (Lookups.reach hc).matched t p hpc
  have htimely := hok.2
  unfold timely at htimely
  rw [hpc] at htimely
  have hval : val = c.sh.h.read p := by
    obtain ⟨r', hr', rfl⟩ := Option.map_eq_some_iff.mp hs
    rcases ClhtLpConc.prog_cases (c := ⟨c.sh.h, fun t => (c.loc t).thread⟩) hr' with
      ⟨call, -, hidle, -, -⟩ | ⟨-, hgo⟩
    · exact nomatch hpc.symm.trans hidle
    · change go c.sh.h (c.loc t).thread (c.loc t).pc = some r' at hgo
      rw [hpc] at hgo
      obtain rfl := Option.some.inj hgo
      change (c.loc t).call.gotVal p (c.sh.h.read p) = .ret (.val val) at hret
      unfold Call.gotVal at hret
      split at hret
      · split at hret
        · cases hret
          rfl
        · cases hret
      · cases hret
        rfl
  rw [hval]
  exact hm.bound htimely

end

/-! ### Schedules -/

instance : (call : Call) → Decidable (plain call)
  | .putType _ _ | .remove _ | .get _ => isTrue trivial
  | .putInit _ | .putIn _ | .status _ | .resizePes _ _ => isFalse not_false
  | .lockTasIn _ | .trylockTasIn _ | .unlockTasIn _ => isFalse not_false

theorem calm_iff (c : Conf Tid Shared Local) (t : Tid) :
    (match (c.loc t).pc with
      | .resizeHt _ _ _ => false
      | _ => true) = true ↔ calm c t .go := by
  unfold calm
  dsimp only
  cases (c.loc t).pc with
  | resizeHt => exact iff_of_false Bool.false_ne_true id
  | _ => exact iff_of_true rfl trivial

instance (c : Conf Tid Shared Local) (t : Tid) : (a : Act) → Decidable (calm c t a)
  | .start call => instDecidablePlain call
  | .go => decidable_of_iff _ (calm_iff c t)

instance (c : Conf Tid Shared Local) (t : Tid) : Decidable (timely c t) := by
  unfold timely
  split <;> infer_instance

instance (c : Conf Tid Shared Local) (t : Tid) (a : Act) : Decidable (sound c t a) :=
  inferInstanceAs (Decidable (_ ∧ _))

instance (h : Clht) (key : Addr) (val : Val) : Decidable (Bound h key val) :=
  inferInstanceAs (Decidable (_ ∈ _))

instance (c : Conf Tid Shared Local) (t : Tid) (val : Val) : Decidable (BoundDuring c t val) :=
  inferInstanceAs (Decidable (∃ h ∈ _, _))

/-- A table of one bucket, and two threads outside. -/
def start : Option (Conf (Fin 2) Shared Local) :=
  (clhtLpCreate 1).map fun h =>
    ⟨⟨h, [], fun _ => 0, fun _ => none⟩, fun _ => ⟨⟨.idle, .get 0, [], []⟩, 0, 0⟩⟩

/-- Thread 1 has put 4, and thread 0 has found it; then thread 1 removes it. -/
def removed : List (Fin 2 × Act) :=
  calls 1 (.putType 4 .mutex) 12 ++ calls 0 (.get 4) 2 ++ calls 1 (.remove 4) 7

/-- The slot of which a thread loads the value. -/
def loads : Pc → Option SlotPtr
  | .searchVal p => some p
  | _ => none

/-- A `get` that has found the key loads the value. -/
theorem step_of_loads {c : Conf Tid Shared Local} {t : Tid} {p : SlotPtr} {key : Addr}
    (hpc : loads (c.loc t).pc = some p) (hcall : (c.loc t).call = .get key) :
    (c.loc t).pc = .searchVal p ∧
      ∃ r, prog t c.sh (c.loc t) .go = some r ∧ r.2.pc = .ret (.val (c.sh.h.read p)) := by
  have hval : (c.loc t).pc = .searchVal p := by
    generalize (c.loc t).pc = pc at hpc
    cases pc <;> first | cases hpc; rfl | cases hpc
  have hgo : ClhtLpConc.prog t c.sh.h (c.loc t).thread .go = some (c.sh.h,
      (c.loc t).thread.goto ((c.loc t).call.gotVal p (c.sh.h.read p))) := by
    show go c.sh.h (c.loc t).thread (c.loc t).pc = _
    rw [hval]
    rfl
  refine ⟨hval, _, congrArg _ hgo, ?_⟩
  show (c.loc t).call.gotVal p _ = _
  rw [hcall]
  rfl

/-- What a schedule comes to is reached. -/
theorem reach_of_start (ok : Conf (Fin 2) Shared Local → Fin 2 → Act → Prop)
    [∀ c t a, Decidable (ok c t a)] (as : List (Fin 2 × Act))
    {P : Conf (Fin 2) Shared Local → Bool}
    (h : ((start.bind fun c => exec prog ok c as).map P) = some true) :
    ∃ c, Reach prog ok (Init 1) c ∧ P c = true := by
  obtain ⟨c, hc, hP⟩ := Option.map_eq_some_iff.mp h
  obtain ⟨c₀, hc₀, hx⟩ := Option.bind_eq_some_iff.mp hc
  obtain ⟨g, hg, rfl⟩ := Option.map_eq_some_iff.mp hc₀
  exact ⟨c, reach_of_exec ⟨hg, rfl, fun _ => ⟨rfl, rfl⟩⟩ hx, hP⟩

theorem clhtLpGet_bound_removed : ∃ c : Conf (Fin 2) Shared Local, Reach prog sound (Init 1) c ∧
    ¬ Bound c.sh.h 4 1 ∧ BoundDuring c 0 1 := by
  obtain ⟨c, hc, hP⟩ := reach_of_start sound removed
    (P := fun c => loads (c.loc 0).pc = some ⟨0, 0, 0⟩ ∧ (c.loc 0).call = .get 4 ∧
      c.sh.h.read ⟨0, 0, 0⟩ = 1 ∧ ¬ Bound c.sh.h 4 1 ∧ sound c 0 .go) (by decide +kernel)
  obtain ⟨hloads, hcall, hread, hgone, hok⟩ := of_decide_eq_true hP
  obtain ⟨hpc, r, hs, hret⟩ := step_of_loads hloads hcall
  rw [hread] at hret
  exact ⟨c, hc, hgone, clhtLpGet_bound hc hok hs hpc hret (by decide)⟩

/-- **A lookup returns the value of another key**: the slot that it has matched is vacated and
    filled again before it loads the value. -/
theorem clhtLpGet_other : ¬ ∀ c : Conf (Fin 2) Shared Local, Reach prog calm (Init 1) c →
    ∀ t r p val, prog t c.sh (c.loc t) .go = some r → (c.loc t).pc = .searchVal p →
      r.2.pc = .ret (.val val) → val ≠ 0 → BoundDuring c t val := by
  intro h
  obtain ⟨c, hc, hP⟩ := reach_of_start calm
    (removed ++ calls 1 (.putType 8 .mutex) 12)
    (P := fun c => loads (c.loc 0).pc = some ⟨0, 0, 0⟩ ∧ (c.loc 0).call = .get 4 ∧
      c.sh.h.read ⟨0, 0, 0⟩ = 2 ∧ ¬ BoundDuring c 0 2) (by decide +kernel)
  obtain ⟨hloads, hcall, hread, hnot⟩ := of_decide_eq_true hP
  obtain ⟨hpc, r, hs, hret⟩ := step_of_loads hloads hcall
  rw [hread] at hret
  exact hnot (h c hc 0 r _ 2 hs hpc hret (by decide))

end ClhtLpLookup
