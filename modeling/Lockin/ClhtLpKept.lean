import Mathlib.Data.Fintype.Basic
import Lockin.ClhtLpTables

/-! # No entry lost, none twice

    The invariant of the runs that meet the three conditions of `Careful`, and what one step
    does to the content of the current table: nothing, or it adds the entry of a put, or it
    changes the word of an in-table lock (`Effect`). -/

namespace ClhtLpConc

open Interleaving SlotTable ClhtLp

variable {Tid : Type} {c : Conf Tid Clht Local} {t : Tid} {r : Clht × Local}

/-- What every reached configuration satisfies. -/
structure Kept (c : Conf Tid Clht Local) : Prop where
  excl : Exclusive c
  mapped : c.sh.cur.Mapped
  sized : ∀ T < c.sh.numTabs, 0 < (c.sh.tab T).numBuckets
  closed : ∀ T < c.sh.numTabs, T ≠ c.sh.ht → ∀ b < (c.sh.tab T).numBuckets,
    (c.sh.tab T).lock b = .resize
  moved : ∀ b, c.sh.cur.lock b = .resize → ∃ u, (c.loc u).pc.reached b
  single : ∀ u v x, (c.loc u).pc.locks = some x → (c.loc v).pc.locks = some x → u = v
  known : ∀ u, Known c.sh (c.loc u).call (c.loc u).pc
  proper : ∀ u, (c.loc u).pc = .idle ∨ (c.loc u).call.proper

/-- A slot of the current table that nobody has copied. -/
def Uncopied (c : Conf Tid Clht Local) (p : SlotPtr) : Prop :=
  p.tab = c.sh.ht ∧ ∀ u, ¬ (c.loc u).pc.copied p

/-- The conditions on a step. -/
def Careful (c : Conf Tid Clht Local) (t : Tid) (a : Act) : Prop :=
  match a with
  | .start call => call.proper
  | .go =>
      match (c.loc t).pc with
      | .resizeTry _ _ htOld _ =>
          c.sh.resizeLock = false → htOld = c.sh.ht ∧ c.sh.cur.numBuckets ≤ 2 ^ 31
      | .tasCas p => c.sh.read p = 0 → Uncopied c p
      | .tasStore p => Uncopied c p
      | _ => True

instance : (call : Call) → Decidable call.proper
  | .remove _ => isFalse not_false
  | .status _ | .resizePes _ _ => isTrue trivial
  | .putType key _ | .putInit key | .putIn key | .get key => (inferInstance : Decidable (key ≠ 0))
  | .lockTasIn key | .trylockTasIn key | .unlockTasIn key => (inferInstance : Decidable (key ≠ 0))

instance (p : SlotPtr) (pc : Pc) : Decidable (pc.copied p) := by
  cases pc <;> unfold Pc.copied <;> infer_instance

instance [Fintype Tid] (c : Conf Tid Clht Local) (p : SlotPtr) : Decidable (Uncopied c p) :=
  inferInstanceAs (Decidable (_ ∧ ∀ u, ¬ (c.loc u).pc.copied p))

theorem careful_iff [Fintype Tid] (c : Conf Tid Clht Local) (t : Tid) :
    (match (c.loc t).pc with
      | .resizeTry _ _ htOld _ =>
          decide (c.sh.resizeLock = false → htOld = c.sh.ht ∧ c.sh.cur.numBuckets ≤ 2 ^ 31)
      | .tasCas p => decide (c.sh.read p = 0 → Uncopied c p)
      | .tasStore p => decide (Uncopied c p)
      | _ => true) = true ↔ Careful c t .go := by
  unfold Careful
  dsimp only
  cases (c.loc t).pc with
  | resizeTry | tasCas | tasStore => exact decide_eq_true_iff
  | _ => exact iff_of_true rfl trivial

instance [Fintype Tid] (c : Conf Tid Clht Local) (t : Tid) : (a : Act) → Decidable (Careful c t a)
  | .start call => instDecidableProper call
  | .go => decidable_of_iff _ (careful_iff c t)

/-- The value that a put is about to enter. -/
def Pc.value : Pc → Option Val
  | .expand _ _ _ v | .link _ _ v _ | .putVal _ v | .putKey _ v => some v
  | _ => none

/-- **What a step does to the current table** and to the locks that its thread holds. -/
inductive Effect (c : Conf Tid Clht Local) (t : Tid) (r : Clht × Local) : Prop
  | same (hpost : r.1.cur.content = c.sh.cur.content) (hheld : r.2.held = (c.loc t).held)
  | adds (v : Val) (hv : (c.loc t).pc.value = some v)
      (hnew : ∀ w, ((c.loc t).call.key, w) ∉ c.sh.cur.content)
      (hpost : r.1.cur.content = ((c.loc t).call.key, v) ::ₘ c.sh.cur.content)
      (hheld : r.2.held = (c.loc t).held)
  | takes (m : Multiset (Addr × Val)) (hcall : (c.loc t).call.takes = true)
      (hpre : c.sh.cur.content = ((c.loc t).call.key, 0) ::ₘ m)
      (hpost : r.1.cur.content = ((c.loc t).call.key, 1) ::ₘ m)
      (hheld : r.2.held = (c.loc t).call.key :: (c.loc t).held)
  | gives (v : Val) (m : Multiset (Addr × Val)) (hcall : (c.loc t).call.gives = true)
      (hpre : c.sh.cur.content = ((c.loc t).call.key, v) ::ₘ m)
      (hpost : r.1.cur.content = ((c.loc t).call.key, 0) ::ₘ m)
      (hheld : r.2.held = (c.loc t).held.filter (· ≠ (c.loc t).call.key))

variable [DecidableEq Tid]

/-! ## One step -/

/-- What is left to show for a step. -/
theorem Kept.put (h : Kept c) (hexcl : Exclusive (c.put t r))
    (hframe : ∀ u, u ≠ t → Frame c.sh r.1 (c.loc u).pc) (hmapped : r.1.cur.Mapped)
    (hsized : ∀ T < r.1.numTabs, 0 < (r.1.tab T).numBuckets)
    (hclosed : ∀ T < r.1.numTabs, T ≠ r.1.ht → ∀ b < (r.1.tab T).numBuckets,
      (r.1.tab T).lock b = .resize)
    (hmoved : ∀ b, r.1.cur.lock b = .resize →
      r.2.pc.reached b ∨ ∃ u, u ≠ t ∧ (c.loc u).pc.reached b)
    (hlocks : ∀ x, r.2.pc.locks = some x →
      (c.loc t).pc.locks = some x ∨ ∀ u, u ≠ t → (c.loc u).pc.locks ≠ some x)
    (hknown : Known r.1 r.2.call r.2.pc) (hproper : r.2.call.proper) : Kept (c.put t r) := by
  have hself : (c.put t r).loc t = r.2 := put_loc_self ..
  have hsingle : ∀ u x, u ≠ t → r.2.pc.locks = some x → (c.loc u).pc.locks ≠ some x := by
    intro u x hut ht hu
    obtain hold | hnew := hlocks x ht
    · exact hut (h.single u t x hu hold)
    · exact hnew u hut hu
  refine ⟨hexcl, hmapped, hsized, hclosed, ?_, ?_, ?_, ?_⟩
  · intro b hb
    obtain ht | ⟨u, hut, hu⟩ := hmoved b hb
    · exact ⟨t, by rw [hself]; exact ht⟩
    · exact ⟨u, by rw [put_loc_ne c r hut]; exact hu⟩
  · intro u v x hu hv
    by_cases hut : u = t
    · by_cases hvt : v = t
      · exact hut.trans hvt.symm
      · subst hut
        rw [hself] at hu
        rw [put_loc_ne c r hvt] at hv
        exact absurd hv (hsingle v x hvt hu)
    · rw [put_loc_ne c r hut] at hu
      by_cases hvt : v = t
      · subst hvt
        rw [hself] at hv
        exact absurd hu (hsingle u x hut hv)
      · rw [put_loc_ne c r hvt] at hv
        exact h.single u v x hu hv
  · intro u
    by_cases hut : u = t
    · subst hut
      rw [hself]
      exact hknown
    · rw [put_loc_ne c r hut, put_sh]
      refine (h.known u).frame (fun T hT => ?_) (hframe u hut)
      rw [h.excl.copies u T hT]
      exact h.excl.cur
  · intro u
    by_cases hut : u = t
    · subst hut
      rw [hself]
      exact Or.inr hproper
    · rw [put_loc_ne c r hut]
      exact h.proper u

/-- A step that leaves the chains and the lock bytes alone. -/
theorem Kept.quiet (h : Kept c) (hexcl : Exclusive (c.put t r)) (hsame : SameChains c.sh r.1)
    (hreached : ∀ b, (c.loc t).pc.reached b → r.2.pc.reached b)
    (hlocks : r.2.pc.locks = none ∨ r.2.pc.locks = (c.loc t).pc.locks)
    (hknown : Known r.1 r.2.call r.2.pc) (hproper : r.2.call.proper) :
    Kept (c.put t r) ∧ r.1.cur.content = c.sh.cur.content := by
  have hcur : r.1.cur.numBuckets = c.sh.cur.numBuckets ∧ r.1.cur.table = c.sh.cur.table ∧
      r.1.cur.lock = c.sh.cur.lock := by
    unfold Clht.cur
    rw [hsame.ht, hsame.numBuckets, hsame.table, hsame.lock]
    exact ⟨rfl, rfl, rfl⟩
  refine ⟨h.put hexcl (fun u _ => hsame.frame) (h.mapped.congr hcur.1 hcur.2.1) ?_ ?_ ?_ ?_
    hknown hproper, content_congr hcur.1 hcur.2.1⟩
  · intro T hT
    rw [hsame.numBuckets]
    exact h.sized T (hsame.numTabs ▸ hT)
  · intro T hT hne b hb
    rw [hsame.lock]
    exact h.closed T (hsame.numTabs ▸ hT) (hsame.ht ▸ hne) b (hsame.numBuckets T ▸ hb)
  · intro b hb
    rw [hcur.2.2] at hb
    obtain ⟨u, hu⟩ := h.moved b hb
    by_cases hut : u = t
    · subst hut
      exact Or.inl (hreached b hu)
    · exact Or.inr ⟨u, hut, hu⟩
  · intro x hx
    rcases hlocks with hnone | heq
    · rw [hnone] at hx
      exact nomatch hx
    · exact Or.inl (heq.symm.trans hx)

omit [DecidableEq Tid] in
/-- The byte of a bucket that a thread has locked. -/
theorem Kept.byte_of_locks (h : Kept c) {u : Tid} {T b : Nat}
    (hl : (c.loc u).pc.locks = some (T, b)) : (c.sh.tab T).lock b = .update := by
  have hk := h.known u
  cases hpc : (c.loc u).pc
  all_goals rw [hpc] at hl
  case seek T' b' H =>
    obtain ⟨rfl, rfl⟩ := Prod.mk.inj (Option.some.inj hl)
    rw [hpc] at hk
    exact hk.byte
  case expand T' b' H v =>
    obtain ⟨rfl, rfl⟩ := Prod.mk.inj (Option.some.inj hl)
    rw [hpc] at hk
    exact hk.1.byte
  case link T' b' v resize =>
    obtain ⟨rfl, rfl⟩ := Prod.mk.inj (Option.some.inj hl)
    rw [hpc] at hk
    exact hk.1.byte
  case putVal p v =>
    obtain ⟨rfl, rfl⟩ := Prod.mk.inj (Option.some.inj hl)
    rw [hpc] at hk
    exact hk.1.byte
  case putKey p v =>
    obtain ⟨rfl, rfl⟩ := Prod.mk.inj (Option.some.inj hl)
    rw [hpc] at hk
    exact hk.1.byte
  case lockRls T' b' next =>
    obtain ⟨rfl, rfl⟩ := Prod.mk.inj (Option.some.inj hl)
    rw [hpc] at hk
    exact hk.1.byte
  case rmVal p => rw [hpc] at hk; exact hk.elim
  case rmKey p v => rw [hpc] at hk; exact hk.elim
  all_goals exact nomatch hl

omit [DecidableEq Tid] in
/-- A bucket that is not in resize state is one of the current table. -/
theorem Kept.cur_of_byte (h : Kept c) {key : Addr} {T b : Nat} (hat : At c.sh key T b)
    (hb : (c.sh.tab T).lock b ≠ .resize) : T = c.sh.ht := by
  by_contra hne
  refine hb (h.closed T hat.table hne b ?_)
  rw [hat.bin]
  exact clhtLpHash_lt (h.sized T hat.table) key

omit [DecidableEq Tid] in
/-- What has been copied is in resize state. -/
theorem Kept.copied_byte (h : Kept c) {u : Tid} {p : SlotPtr} (hc : (c.loc u).pc.copied p)
    (hb : p.bin < (c.sh.tab p.tab).numBuckets) : (c.sh.tab p.tab).lock p.bin = .resize := by
  have hk := h.known u
  cases hpc : (c.loc u).pc
  all_goals rw [hpc] at hc
  case cpyLock htOld htNew b k =>
    obtain ⟨rfl, hlt⟩ := hc
    rw [hpc] at hk
    exact hk.2.2.2.1 _ hlt
  case cpySlot htOld htNew b i k =>
    obtain ⟨rfl, hlt⟩ := hc
    rw [hpc] at hk
    exact hk.2.2.2.1 _ (by omega)
  case swap htOld htNew k =>
    obtain rfl : p.tab = htOld := hc
    rw [hpc] at hk
    exact hk.2.1 _ hb
  all_goals exact hc.elim

/-- A step that writes a lock byte of the current table. -/
theorem Kept.byte (h : Kept c) (hexcl : Exclusive (c.put t r)) {b : Nat} {l : BucketLock}
    (hsh : r.1 = c.sh.setLock c.sh.ht b l) (hold : c.sh.cur.lock b ≠ .resize)
    (hmine : ∀ u, u ≠ t → (c.loc u).pc.locks ≠ some (c.sh.ht, b))
    (hreached : ∀ b', (c.loc t).pc.reached b' → r.2.pc.reached b')
    (hnew : l = .resize → r.2.pc.reached b)
    (hlocks : r.2.pc.locks = none ∨ r.2.pc.locks = some (c.sh.ht, b))
    (hknown : Known r.1 r.2.call r.2.pc) (hproper : r.2.call.proper) :
    Kept (c.put t r) ∧ r.1.cur.content = c.sh.cur.content := by
  have hht : r.1.ht = c.sh.ht ∧ r.1.numTabs = c.sh.numTabs := by
    rw [hsh]
    exact ⟨rfl, rfl⟩
  have htab : ∀ T, (r.1.tab T).table = (c.sh.tab T).table ∧
      (r.1.tab T).numBuckets = (c.sh.tab T).numBuckets := by
    rw [hsh]
    exact setLock_tab_table _ _ _ _
  have hbyte : ∀ T b', (r.1.tab T).lock b'
      = if T = c.sh.ht ∧ b' = b then l else (c.sh.tab T).lock b' := by
    rw [hsh]
    exact setLock_tab_lock _ _ _ _
  have hcur : r.1.cur.numBuckets = c.sh.cur.numBuckets ∧ r.1.cur.table = c.sh.cur.table := by
    unfold Clht.cur
    rw [hht.1]
    exact ⟨(htab _).2, (htab _).1⟩
  refine ⟨h.put hexcl (fun u hut => hsh ▸ Frame.setLock (hmine u hut) hold)
    (h.mapped.congr hcur.1 hcur.2) ?_ ?_ ?_ ?_ hknown hproper, content_congr hcur.1 hcur.2⟩
  · intro T hT
    rw [(htab T).2]
    exact h.sized T (hht.2 ▸ hT)
  · intro T hT hne b' hb'
    rw [hht.1] at hne
    rw [hbyte, if_neg fun hand => hne hand.1]
    exact h.closed T (hht.2 ▸ hT) hne b' ((htab T).2 ▸ hb')
  · intro b' hb'
    unfold Clht.cur at hb'
    rw [hht.1, hbyte] at hb'
    split at hb'
    · next heq =>
      rw [heq.2]
      exact Or.inl (hnew hb')
    · obtain ⟨u, hu⟩ := h.moved b' hb'
      by_cases hut : u = t
      · subst hut
        exact Or.inl (hreached b' hu)
      · exact Or.inr ⟨u, hut, hu⟩
  · intro x hx
    rcases hlocks with hnone | heq
    · rw [hnone] at hx
      exact nomatch hx
    · refine Or.inr fun u hut => ?_
      obtain rfl := Option.some.inj (heq.symm.trans hx)
      exact hmine u hut

/-- A step that writes to a chain of the current table. -/
theorem Kept.write (h : Kept c) (hexcl : Exclusive (c.put t r)) {b : Nat}
    {ch : Chain Addr Val} (hsh : r.1 = c.sh.setTab c.sh.ht (c.sh.cur.setChain b ch))
    (hframe : ∀ u, u ≠ t → Frame c.sh r.1 (c.loc u).pc)
    (hmapped : (c.sh.cur.setChain b ch).Mapped) (hnone : ∀ b', ¬ (c.loc t).pc.reached b')
    (hlocks : r.2.pc.locks = none ∨ r.2.pc.locks = (c.loc t).pc.locks)
    (hknown : Known r.1 r.2.call r.2.pc) (hproper : r.2.call.proper) : Kept (c.put t r) := by
  have hht : r.1.ht = c.sh.ht ∧ r.1.numTabs = c.sh.numTabs := by
    rw [hsh]
    exact ⟨rfl, rfl⟩
  have htab : ∀ T, (r.1.tab T).lock = (c.sh.tab T).lock ∧
      (r.1.tab T).numBuckets = (c.sh.tab T).numBuckets := by
    rw [hsh]
    exact setChain_fixed _ _ _ _
  have hcur : r.1.cur = c.sh.cur.setChain b ch := by
    rw [hsh]
    exact setTab_cur ..
  refine h.put hexcl hframe (hcur ▸ hmapped) ?_ ?_ ?_ ?_ hknown hproper
  · intro T hT
    rw [(htab T).2]
    exact h.sized T (hht.2 ▸ hT)
  · intro T hT hne b' hb'
    rw [(htab T).1]
    exact h.closed T (hht.2 ▸ hT) (hht.1 ▸ hne) b' ((htab T).2 ▸ hb')
  · intro b' hb'
    rw [hcur] at hb'
    obtain ⟨u, hu⟩ := h.moved b' hb'
    refine Or.inr ⟨u, ?_, hu⟩
    rintro rfl
    exact hnone b' hu
  · intro x hx
    rcases hlocks with hnil | heq
    · rw [hnil] at hx
      exact nomatch hx
    · exact Or.inl (heq.symm.trans hx)

omit [DecidableEq Tid] in
/-- What the holder of a bucket writes there, with the occupied slots kept. -/
theorem Kept.frame_locked (h : Kept c) {b : Nat} (hpc : (c.loc t).pc.locks = some (c.sh.ht, b))
    (hb : b < c.sh.cur.numBuckets) {ch : Chain Addr Val}
    (hkeep : ∀ (i : Nat) (k : Addr) (v : Val), k ≠ 0 →
      (c.sh.cur.table b)[i]? = some ⟨k, v⟩ → ∃ w, ch[i]? = some ⟨k, w⟩) :
    ∀ u, u ≠ t → Frame c.sh (c.sh.setTab c.sh.ht (c.sh.cur.setChain b ch)) (c.loc u).pc := by
  intro u hut
  refine Frame.setChain hkeep (fun hl => (hut (h.single u t _ hl hpc)).elim) fun i hc => ?_
  have hres := h.copied_byte hc hb
  exact nomatch hres.symm.trans (h.byte_of_locks hpc)

omit [DecidableEq Tid] in
/-- Another value in an occupied slot that nobody has copied. -/
theorem Uncopied.frame {p : SlotPtr} (hun : Uncopied c p) {key : Addr} {v w : Val} (hk : key ≠ 0)
    (hp : (c.sh.cur.table p.bin)[p.idx]? = some ⟨key, v⟩) (u : Tid) :
    Frame c.sh (c.sh.setTab c.sh.ht (c.sh.cur.setChain p.bin
      ((c.sh.cur.table p.bin).set p.idx ⟨key, w⟩))) (c.loc u).pc := by
  have hlen := (List.getElem?_eq_some_iff.mp hp).1
  refine Frame.setChain ?_ (fun _ => ⟨?_, ?_⟩) ?_
  · intro i k x hk' hi
    rw [List.getElem?_set]
    split
    · next heq =>
      subst heq
      obtain ⟨rfl, -⟩ := Slot.mk.inj (Option.some.inj (hp.symm.trans hi))
      exact ⟨w, rfl⟩
    · exact ⟨x, hi⟩
  · intro i x hi
    rw [List.getElem?_set, if_neg]
    · exact hi
    · rintro rfl
      exact hk (Slot.mk.inj (Option.some.inj (hp.symm.trans hi))).1
  · intro key' ha s hs
    rcases List.mem_or_eq_of_mem_set hs with hold | rfl
    · exact ha s hold
    · exact ha ⟨key, v⟩ (List.mem_of_getElem? hp)
  · intro i hc
    rw [List.getElem?_set, if_neg]
    · rfl
    · rintro rfl
      refine hun.2 u ?_
      obtain ⟨T, b, i⟩ := p
      obtain rfl : T = c.sh.ht := hun.1
      exact hc

/-! ## The resizer's steps -/

/-- Who has reached a bucket of the old table resizes it. -/
theorem Pc.duty_of_reached {pc : Pc} {b : Nat} (h : pc.reached b) : pc.duty ≠ .none := by
  cases pc <;> first | exact h.elim | exact fun hd => (nomatch hd)

/-- Copying one slot. -/
theorem Built.cpy {T : Hashtable} (hm : T.Mapped) {b i : Nat} (hb : b < T.numBuckets)
    {s : Slot Addr Val} (hs : (T.table b)[i]? = some s) {htNew : Hashtable}
    (h : Built htNew (SlotTable.content b T.table + entries ((T.table b).take i))) :
    Built (cpySlot htNew s)
      (SlotTable.content b T.table + entries ((T.table b).take (i + 1))) := by
  have htake : (T.table b).take (i + 1) = (T.table b).take i ++ [s] := by
    rw [List.take_add_one, hs]
    rfl
  have hsum : SlotTable.content b T.table + entries ((T.table b).take (i + 1))
      = htNew.content + s.entry := by
    rw [htake, entries_append, h.content, add_assoc, entries_cons, entries_nil, add_zero]
  -- what has been copied so far is part of the table
  have hle : htNew.content + s.entry ≤ T.content := by
    rw [← hsum]
    calc SlotTable.content b T.table + entries ((T.table b).take (i + 1))
        ≤ SlotTable.content b T.table + entries (T.table b) := by
          refine add_le_add_right ?_ _
          conv_rhs => rw [← List.take_append_drop (i + 1) (T.table b), entries_append]
          exact Multiset.le_add_right ..
      _ = SlotTable.content (b + 1) T.table := (content_succ ..).symm
      _ ≤ T.content := content_mono _ hb
  have hcop := cpySlot_copied h.wf h.packed s (hm.distinct.of_le hle)
  exact ⟨hcop.wf, hcop.packed, fun b' => by rw [hcop.lock]; exact h.free b',
    hcop.content.trans hsum.symm⟩

/-- Publishing the new table. -/
theorem Kept.swap (h : Kept c) {htOld : Nat} {htNew : Hashtable} {k : Cont}
    (hpc : (c.loc t).pc = .swap htOld htNew k)
    (hexcl : Exclusive (c.put t
      ({ c.sh.setTab c.sh.numTabs { htNew with tablePrev := some htOld } with
          numTabs := c.sh.numTabs + 1
          ht := c.sh.numTabs },
        (c.loc t).goto (.tableNew htOld c.sh.numTabs
          (htNew.numExpandsThreshold ≤ htNew.numExpands) k))))
    (hprop : (c.loc t).call.proper) :
    Kept (c.put t
      ({ c.sh.setTab c.sh.numTabs { htNew with tablePrev := some htOld } with
          numTabs := c.sh.numTabs + 1
          ht := c.sh.numTabs },
        (c.loc t).goto (.tableNew htOld c.sh.numTabs
          (htNew.numExpandsThreshold ≤ htNew.numExpands) k))) ∧
      htNew.content = c.sh.cur.content := by
  have hk := h.known t
  rw [hpc] at hk
  obtain ⟨hret, hbytes, hbuilt⟩ := hk
  obtain rfl := h.excl.copies t htOld (by rw [hpc]; rfl)
  -- nobody else resizes
  have hothers : ∀ u, u ≠ t → (c.loc u).pc.duty = .none := by
    intro u hut
    by_contra hd
    exact hut (h.excl.single u t hd (by rw [hpc]; exact Duty.noConfusion))
  have hold : ∀ T < c.sh.numTabs,
      (c.sh.setTab c.sh.numTabs { htNew with tablePrev := some c.sh.ht }).tab T
        = c.sh.tab T := by
    intro T hT
    rw [tab_setTab, if_neg hT.ne]
  have hcur : (c.sh.setTab c.sh.numTabs { htNew with tablePrev := some c.sh.ht }).tab
      c.sh.numTabs = { htNew with tablePrev := some c.sh.ht } := by
    rw [tab_setTab, if_pos rfl]
  have hframe : ∀ {pc : Pc}, pc.duty = .none →
      Frame c.sh { c.sh.setTab c.sh.numTabs { htNew with tablePrev := some c.sh.ht } with
        numTabs := c.sh.numTabs + 1
        ht := c.sh.numTabs } pc := by
    intro pc hd
    have hslot : ∀ p : SlotPtr, p.tab < c.sh.numTabs →
        (c.sh.setTab c.sh.numTabs { htNew with tablePrev := some c.sh.ht }).slot p
          = c.sh.slot p := by
      intro p hp
      rw [Clht.slot, hold p.tab hp]
      rfl
    refine ⟨Nat.le_succ _, fun T hT => congrArg Hashtable.numBuckets (hold T hT),
      fun p k v hp _ hv => ⟨v, (hslot p hp).trans hv⟩,
      fun T b hT _ => congrArg (Hashtable.lock · b) (hold T hT), ?_, ?_, fun p hp _ => hslot p hp,
      fun T b _ hc => Duty.noConfusion (hd.symm.trans hc)⟩
    · intro T b i v hT _ hv
      have htab := congrArg (fun X => (Hashtable.table X b)[i]?) (hold T hT)
      exact htab.trans hv
    · intro T b key hT _ ha
      have htab := congrArg (Hashtable.table · b) (hold T hT)
      unfold Absent
      intro s hs
      exact ha s (htab ▸ hs)
  refine ⟨h.put hexcl (fun u hut => hframe (hothers u hut)) ?_ ?_ ?_ ?_ ?_ ?_ hprop, hbuilt.content⟩
  · show Hashtable.Mapped ((c.sh.setTab _ _).tab c.sh.numTabs)
    rw [hcur]
    exact hbuilt.wf.mapped.congr rfl rfl
  · intro T hT
    rcases Nat.lt_succ_iff_lt_or_eq.mp hT with hlt | rfl
    · exact (congrArg Hashtable.numBuckets (hold T hlt)).symm ▸ h.sized T hlt
    · exact (congrArg Hashtable.numBuckets hcur).symm ▸ hbuilt.wf.pos
  · intro T hT hne b hb
    have hlt : T < c.sh.numTabs := (Nat.lt_succ_iff_lt_or_eq.mp hT).resolve_right hne
    have hb' : b < (c.sh.tab T).numBuckets :=
      (congrArg Hashtable.numBuckets (hold T hlt)) ▸ hb
    refine (congrArg (Hashtable.lock · b) (hold T hlt)).trans ?_
    by_cases hht : T = c.sh.ht
    · subst hht
      exact hbytes b hb'
    · exact h.closed T hlt hht b hb'
  · intro b hb
    have hfree : ((c.sh.setTab c.sh.numTabs { htNew with tablePrev := some c.sh.ht }).tab
        c.sh.numTabs).lock b = .free := by
      rw [hcur]
      exact hbuilt.free b
    cases hfree.symm.trans hb
  · intro x hx
    cases hx
  · have hf : Frame c.sh { c.sh.setTab c.sh.numTabs { htNew with tablePrev := some c.sh.ht } with
        numTabs := c.sh.numTabs + 1
        ht := c.sh.numTabs } .idle := hframe rfl
    exact hret.frame hf

/-! ## Every step -/

omit [DecidableEq Tid] in
/-- A careful run resizes the current table. -/
theorem FreshStart.of_careful (hok : Careful c t .go) : FreshStart c t := by
  intro inc by_ htOld k hpc hfree
  unfold Careful at hok
  rw [hpc] at hok
  exact (hok hfree).1

omit [DecidableEq Tid] in
/-- A key hashes to one of the buckets of its table. -/
theorem Kept.bin_lt (h : Kept c) {key : Addr} {T b : Nat} (hat : At c.sh key T b) :
    b < (c.sh.tab T).numBuckets := by
  rw [hat.bin]
  exact clhtLpHash_lt (h.sized T hat.table) key

/-- A step of a thread that neither gets a bucket lock nor copies. -/
theorem Kept.still (h : Kept c) (hexcl : Exclusive (c.put t r)) (hsame : SameChains c.sh r.1)
    (hreached : ∀ b, ¬ (c.loc t).pc.reached b)
    (hlocks : r.2.pc.locks = none ∨ r.2.pc.locks = (c.loc t).pc.locks)
    (hknown : Known r.1 r.2.call r.2.pc) (hproper : r.2.call.proper)
    (hheld : r.2.held = (c.loc t).held) : Kept (c.put t r) ∧ Effect c t r := by
  obtain ⟨hkept, hcontent⟩ := h.quiet hexcl hsame (fun b hb => absurd hb (hreached b)) hlocks
    hknown hproper
  exact ⟨hkept, .same hcontent hheld⟩

/-- A step of a thread that neither gets a bucket lock nor resizes. -/
theorem Kept.plain (h : Kept c) (hexcl : Exclusive (c.put t r)) (hsame : SameChains c.sh r.1)
    (hduty : (c.loc t).pc.duty = .none)
    (hlocks : r.2.pc.locks = none ∨ r.2.pc.locks = (c.loc t).pc.locks)
    (hknown : Known r.1 r.2.call r.2.pc) (hproper : r.2.call.proper)
    (hheld : r.2.held = (c.loc t).held) : Kept (c.put t r) ∧ Effect c t r :=
  h.still hexcl hsame (fun _ hb => Pc.duty_of_reached hb hduty) hlocks hknown hproper hheld

/-- A lock of a bucket. -/
theorem Kept.lockAcq (h : Kept c) {T b H : Nat}
    (hpc : (c.loc t).pc = .lockAcq T b H)
    (hexcl : Exclusive (c.put t r)) (hprop : (c.loc t).call.proper)
    (hs : go c.sh (c.loc t) (.lockAcq T b H) = some r) : Kept (c.put t r) ∧ Effect c t r := by
  have hduty : (c.loc t).pc.duty = .none := by rw [hpc]; rfl
  have hk := h.known t
  rw [hpc] at hk
  dsimp only [go] at hs
  split at hs
  · next hfree =>
    obtain rfl := Option.some.inj hs
    have hnr : (c.sh.tab T).lock b ≠ .resize := by rw [hfree]; nofun
    obtain rfl := h.cur_of_byte hk hnr
    have hmine : ∀ u, u ≠ t → (c.loc u).pc.locks ≠ some (c.sh.ht, b) := by
      intro u _ hu
      exact nomatch (h.byte_of_locks hu).symm.trans hfree
    have hframe : Frame c.sh (c.sh.setLock c.sh.ht b .update) .idle :=
      Frame.setLock (fun hl => (nomatch hl)) hnr
    have hlocked : Locked (c.sh.setLock c.sh.ht b .update) (c.loc t).call.key c.sh.ht b := by
      refine ⟨At.frame hk hframe, ?_⟩
      rw [setLock_tab_lock, if_pos ⟨rfl, rfl⟩]
    obtain ⟨hkept, hcontent⟩ := h.byte hexcl rfl hnr hmine
      (fun b' hb' => absurd hduty (Pc.duty_of_reached hb')) nofun (Or.inr rfl) hlocked hprop
    exact ⟨hkept, .same hcontent rfl⟩
  · obtain rfl := Option.some.inj hs
    rw [put_self]
    exact ⟨h, .same rfl rfl⟩
  · obtain rfl := Option.some.inj hs
    exact h.plain hexcl (.refl _) hduty (Or.inl rfl) hk.nonzero hprop rfl

/-- The search under the lock. -/
theorem Kept.seek (h : Kept c) {T b H : Nat}
    (hpc : (c.loc t).pc = .seek T b H)
    (hexcl : Exclusive (c.put t r)) (hprop : (c.loc t).call.proper)
    (hs : go c.sh (c.loc t) (.seek T b H) = some r) : Kept (c.put t r) ∧ Effect c t r := by
  have hduty : (c.loc t).pc.duty = .none := by rw [hpc]; rfl
  have hpre : (c.loc t).pc.locks = some (T, b) := by rw [hpc]; rfl
  have hspec := seek_spec (c.loc t).call.key ((c.sh.tab T).table b)
  have hk := h.known t
  rw [hpc] at hk
  dsimp only [go] at hs
  split at hs
  · next i hfound =>
    obtain rfl := Option.some.inj hs
    rw [hfound] at hspec
    exact h.plain hexcl (.refl _) hduty
      (Or.inr ((Call.present_locks ..).trans hpre.symm))
      (Known.present hprop hk ⟨hk.toAt, hspec⟩) hprop rfl
  · next e habsent =>
    obtain rfl := Option.some.inj hs
    rw [habsent] at hspec
    have hsame : SameChains c.sh ((c.loc t).call.create c.sh).1 :=
      (Call.create_sameTabs ..).chains
    refine h.plain hexcl hsame hduty (Or.inr ((Call.absent_locks ..).trans hpre.symm))
      ?_ hprop rfl
    have hframe : Frame c.sh ((c.loc t).call.create c.sh).1 (.seek T b H) := hsame.frame
    refine Known.absent hprop (Locked.frame hk rfl hframe)
      (hframe.absent T b _ hk.table rfl hspec.1) ?_ H _
    rw [hsame.table]
    exact hspec.2

/-- A new bucket for the chain. -/
theorem Kept.expand (h : Kept c) {T b H : Nat} {val : Val}
    (hpc : (c.loc t).pc = .expand T b H val)
    (hexcl : Exclusive (c.put t r)) (hprop : (c.loc t).call.proper)
    (hs : go c.sh (c.loc t) (.expand T b H val) = some r) : Kept (c.put t r) ∧ Effect c t r := by
  have hduty : (c.loc t).pc.duty = .none := by rw [hpc]; rfl
  have hpre : (c.loc t).pc.locks = some (T, b) := by rw [hpc]; rfl
  have hk := h.known t
  rw [hpc] at hk
  obtain rfl := Option.some.inj hs
  have hsame := setTab_chains c.sh H (clhtBucketCreateStats (c.sh.tab H)).1 rfl rfl rfl
  have hframe : Frame c.sh (c.sh.setTab H (clhtBucketCreateStats (c.sh.tab H)).1)
      (.seek T b H) := hsame.frame
  exact h.plain hexcl hsame hduty (Or.inr hpre.symm)
    ⟨hk.1.frame rfl hframe, hframe.absent T b _ hk.1.table rfl hk.2⟩ hprop rfl

/-- The new bucket is linked. -/
theorem Kept.link (h : Kept c) {T b : Nat} {val : Val} {resize : Bool}
    (hpc : (c.loc t).pc = .link T b val resize)
    (hexcl : Exclusive (c.put t r)) (hprop : (c.loc t).call.proper)
    (hs : go c.sh (c.loc t) (.link T b val resize) = some r) : Kept (c.put t r) ∧ Effect c t r := by
  have hduty : (c.loc t).pc.duty = .none := by rw [hpc]; rfl
  have hpre : (c.loc t).pc.locks = some (T, b) := by rw [hpc]; rfl
  have hval : (c.loc t).pc.value = some val := by rw [hpc]; rfl
  have hk := h.known t
  rw [hpc] at hk
  obtain rfl := Option.some.inj hs
  obtain ⟨hl, habsent⟩ := hk
  obtain rfl := h.cur_of_byte hl.toAt (by rw [hl.byte]; nofun)
  obtain rfl := hl.bin
  have hent : entries (c.sh.cur.table (clhtLpHash c.sh.cur (c.loc t).call.key)
        ++ bucketWith (c.loc t).call.key val)
      = ((c.loc t).call.key, val)
        ::ₘ entries (c.sh.cur.table (clhtLpHash c.sh.cur (c.loc t).call.key)) := by
    rw [entries_append, entries_bucketWith hl.nonzero, add_comm, Multiset.singleton_add]
  obtain ⟨hmapped, hcontent, hnew⟩ := h.mapped.insert hent habsent
  have hkeep : ∀ (i : Nat) (k : Addr) (v : Val), k ≠ 0 →
      (c.sh.cur.table (clhtLpHash c.sh.cur (c.loc t).call.key))[i]? = some ⟨k, v⟩ →
      ∃ w, (c.sh.cur.table (clhtLpHash c.sh.cur (c.loc t).call.key)
        ++ bucketWith (c.loc t).call.key val)[i]? = some ⟨k, w⟩ := by
    intro i k v _ hi
    refine ⟨v, ?_⟩
    rw [List.getElem?_append_left (List.getElem?_eq_some_iff.mp hi).1]
    exact hi
  refine ⟨h.write hexcl rfl (h.frame_locked hpre (h.bin_lt hl.toAt) hkeep) hmapped
    (fun b' hb' => absurd hduty (Pc.duty_of_reached hb')) (Or.inr hpre.symm) ?_ hprop,
    .adds val hval hnew ?_ rfl⟩
  · refine ⟨hl.write _, ?_⟩
    have hpoints : Points (c.sh.setTab c.sh.ht (c.sh.cur.setChain
        (clhtLpHash c.sh.cur (c.loc t).call.key)
        (c.sh.cur.table (clhtLpHash c.sh.cur (c.loc t).call.key)
          ++ bucketWith (c.loc t).call.key val))) (c.loc t).call.key
        ⟨c.sh.ht, clhtLpHash c.sh.cur (c.loc t).call.key,
          (c.sh.cur.table (clhtLpHash c.sh.cur (c.loc t).call.key)).length⟩ := by
      refine ⟨hl.toAt.write _ _ _, val, (slot_write ..).trans ?_⟩
      rw [List.getElem?_append_right le_rfl, Nat.sub_self]
      rfl
    show After.Known _ _ (if resize then _ else _)
    split
    · exact Known.inserted hpoints val
    · exact Known.inserted hpoints val
  · rw [← hcontent]
    exact congrArg Hashtable.content (setTab_cur ..)

/-- The value of a new entry. -/
theorem Kept.putVal (h : Kept c) {p : SlotPtr} {val : Val}
    (hpc : (c.loc t).pc = .putVal p val)
    (hexcl : Exclusive (c.put t r)) (hprop : (c.loc t).call.proper)
    (hs : go c.sh (c.loc t) (.putVal p val) = some r) : Kept (c.put t r) ∧ Effect c t r := by
  have hduty : (c.loc t).pc.duty = .none := by rw [hpc]; rfl
  have hpre : (c.loc t).pc.locks = some (p.tab, p.bin) := by rw [hpc]; rfl
  have hk := h.known t
  rw [hpc] at hk
  obtain rfl := Option.some.inj hs
  obtain ⟨T, b, i⟩ := p
  obtain ⟨hl, habsent, s, hslot, h0⟩ := hk
  obtain rfl : T = c.sh.ht := h.cur_of_byte hl.toAt (by rw [hl.byte]; nofun)
  obtain ⟨k, v⟩ := s
  obtain rfl : k = 0 := h0
  have hset : c.sh.setVal ⟨c.sh.ht, b, i⟩ val
      = c.sh.setTab c.sh.ht (c.sh.cur.setChain b ((c.sh.cur.table b).set i ⟨0, val⟩)) := by
    unfold Clht.setVal
    rw [hslot]
    rfl
  have hlen : i < (c.sh.cur.table b).length := (List.getElem?_eq_some_iff.mp hslot).1
  have hent : entries ((c.sh.cur.table b).set i ⟨0, val⟩) = entries (c.sh.cur.table b) := by
    have hsum := entries_set (⟨0, val⟩ : Slot Addr Val) hslot
    rwa [Slot.entry_of_vacant rfl, Slot.entry_of_vacant rfl, add_zero, add_zero] at hsum
  obtain ⟨hmapped, hcontent⟩ := h.mapped.touch (h.bin_lt hl.toAt) hent
  have hkeep : ∀ (j : Nat) (k : Addr) (w : Val), k ≠ 0 →
      (c.sh.cur.table b)[j]? = some ⟨k, w⟩ →
      ∃ x, ((c.sh.cur.table b).set i ⟨0, val⟩)[j]? = some ⟨k, x⟩ := by
    intro j k w hk hj
    refine ⟨w, ?_⟩
    rw [List.getElem?_set, if_neg]
    · exact hj
    · rintro rfl
      exact hk (Slot.mk.inj (Option.some.inj (hj.symm.trans hslot))).1
  have hframe := h.frame_locked hpre (h.bin_lt hl.toAt) hkeep
  rw [← hset] at hframe
  have hknown : Known (c.sh.setTab c.sh.ht (c.sh.cur.setChain b
      ((c.sh.cur.table b).set i ⟨0, val⟩))) (c.loc t).call (.putKey ⟨c.sh.ht, b, i⟩ val) := by
    refine ⟨hl.write _, Absent.write _ _ fun s hs => ?_, (slot_write ..).trans ?_⟩
    · rcases List.mem_or_eq_of_mem_set hs with hold | rfl
      · exact habsent s hold
      · exact fun h0 => hl.nonzero h0.symm
    · rw [List.getElem?_set, if_pos rfl, if_pos hlen]
  rw [← hset] at hknown
  refine ⟨h.write hexcl hset hframe hmapped
    (fun b' hb' => absurd hduty (Pc.duty_of_reached hb')) (Or.inr hpre.symm) hknown hprop,
    .same ?_ rfl⟩
  show (c.sh.setVal ⟨c.sh.ht, b, i⟩ val).cur.content = _
  rw [hset, ← hcontent]
  exact congrArg Hashtable.content (setTab_cur ..)

/-- The key of a new entry, with which it is there. -/
theorem Kept.putKey (h : Kept c) {p : SlotPtr} {val : Val}
    (hpc : (c.loc t).pc = .putKey p val)
    (hexcl : Exclusive (c.put t r)) (hprop : (c.loc t).call.proper)
    (hs : go c.sh (c.loc t) (.putKey p val) = some r) : Kept (c.put t r) ∧ Effect c t r := by
  have hduty : (c.loc t).pc.duty = .none := by rw [hpc]; rfl
  have hpre : (c.loc t).pc.locks = some (p.tab, p.bin) := by rw [hpc]; rfl
  have hval : (c.loc t).pc.value = some val := by rw [hpc]; rfl
  have hk := h.known t
  rw [hpc] at hk
  obtain rfl := Option.some.inj hs
  obtain ⟨T, b, i⟩ := p
  obtain ⟨hl, habsent, hslot⟩ := hk
  obtain rfl : T = c.sh.ht := h.cur_of_byte hl.toAt (by rw [hl.byte]; nofun)
  have hset : c.sh.setKey ⟨c.sh.ht, b, i⟩ (c.loc t).call.key
      = c.sh.setTab c.sh.ht (c.sh.cur.setChain b
        ((c.sh.cur.table b).set i ⟨(c.loc t).call.key, val⟩)) := by
    unfold Clht.setKey
    rw [hslot]
    rfl
  have hlen : i < (c.sh.cur.table b).length := (List.getElem?_eq_some_iff.mp hslot).1
  have hent : entries ((c.sh.cur.table b).set i ⟨(c.loc t).call.key, val⟩)
      = ((c.loc t).call.key, val) ::ₘ entries (c.sh.cur.table b) :=
    entries_fill val hl.nonzero hslot rfl
  have hbin : b = clhtLpHash c.sh.cur (c.loc t).call.key := hl.bin
  obtain ⟨hmapped, hcontent, hnew⟩ := h.mapped.insert (hbin ▸ hent) (hbin ▸ habsent)
  rw [← hbin] at hmapped hcontent
  have hkeep : ∀ (j : Nat) (k : Addr) (w : Val), k ≠ 0 →
      (c.sh.cur.table b)[j]? = some ⟨k, w⟩ →
      ∃ x, ((c.sh.cur.table b).set i ⟨(c.loc t).call.key, val⟩)[j]? = some ⟨k, x⟩ := by
    intro j k w hk hj
    refine ⟨w, ?_⟩
    rw [List.getElem?_set, if_neg]
    · exact hj
    · rintro rfl
      exact hk (Slot.mk.inj (Option.some.inj (hj.symm.trans hslot))).1
  have hframe := h.frame_locked hpre (h.bin_lt hl.toAt) hkeep
  have hknown : Known (c.sh.setTab c.sh.ht (c.sh.cur.setChain b
      ((c.sh.cur.table b).set i ⟨(c.loc t).call.key, val⟩))) (c.loc t).call
      (.lockRls c.sh.ht b (.ret ((c.loc t).call.inserted ⟨c.sh.ht, b, i⟩ val))) := by
    refine ⟨hl.write _, Known.inserted ⟨hl.toAt.write _ _ _, val, (slot_write ..).trans ?_⟩ val⟩
    rw [List.getElem?_set, if_pos rfl, if_pos hlen]
  rw [← hset] at hframe hknown
  refine ⟨h.write hexcl hset hframe hmapped
    (fun b' hb' => absurd hduty (Pc.duty_of_reached hb')) (Or.inr hpre.symm) hknown hprop,
    .adds val hval hnew ?_ rfl⟩
  show (c.sh.setKey ⟨c.sh.ht, b, i⟩ (c.loc t).call.key).cur.content = _
  rw [hset, ← hcontent]
  exact congrArg Hashtable.content (setTab_cur ..)

/-- The unlock of a bucket. -/
theorem Kept.lockRls (h : Kept c) {T b : Nat} {next : After}
    (hpc : (c.loc t).pc = .lockRls T b next)
    (hexcl : Exclusive (c.put t r)) (hprop : (c.loc t).call.proper)
    (hs : go c.sh (c.loc t) (.lockRls T b next) = some r) : Kept (c.put t r) ∧ Effect c t r := by
  have hduty : (c.loc t).pc.duty = .none := by rw [hpc]; rfl
  have hpre : (c.loc t).pc.locks = some (T, b) := by rw [hpc]; rfl
  have hk := h.known t
  rw [hpc] at hk
  obtain rfl := Option.some.inj hs
  obtain ⟨hl, hnext⟩ := hk
  have hnr : (c.sh.tab T).lock b ≠ .resize := by rw [hl.byte]; nofun
  obtain rfl := h.cur_of_byte hl.toAt hnr
  have hmine : ∀ u, u ≠ t → (c.loc u).pc.locks ≠ some (c.sh.ht, b) :=
    fun u hut hu => hut (h.single u t _ hu hpre)
  have hframe : Frame c.sh (c.sh.setLock c.sh.ht b .free) .idle :=
    Frame.setLock (fun hl => (nomatch hl)) hnr
  have hnext' : next.Known (c.sh.setLock c.sh.ht b .free) (c.loc t).call.key := by
    cases next with
    | retVal p => exact Points.frame hnext hframe
    | _ => exact Ret.Known.frame hnext hframe
  obtain ⟨hkept, hcontent⟩ := h.byte hexcl rfl hnr hmine
    (fun b' hb' => absurd hduty (Pc.duty_of_reached hb')) nofun (Or.inl (After.pc_locks _))
    (Known.next hnext') hprop
  exact ⟨hkept, .same hcontent rfl⟩

/-- A resize begins. -/
theorem Kept.resizeTry (h : Kept c) {inc : Bool} {by_ : Int} {htOld : Nat} {k : Cont}
    (hpc : (c.loc t).pc = .resizeTry inc by_ htOld k)
    (hexcl : Exclusive (c.put t r)) (hprop : (c.loc t).call.proper)
    (hok : Careful c t .go)
    (hs : go c.sh (c.loc t) (.resizeTry inc by_ htOld k) = some r) :
    Kept (c.put t r) ∧ Effect c t r := by
  have hduty : (c.loc t).pc.duty = .none := by rw [hpc]; rfl
  have hfresh : c.sh.resizeLock = false →
      htOld = c.sh.ht ∧ c.sh.cur.numBuckets ≤ 2 ^ 31 := by
    unfold Careful at hok
    rwa [hpc] at hok
  have hk := h.known t
  rw [hpc] at hk
  dsimp only [go] at hs
  split at hs
  · obtain rfl := Option.some.inj hs
    exact h.plain hexcl (.refl _) hduty (Or.inl (Cont.back_locks _)) (Known.back hk) hprop rfl
  · next hlock =>
    obtain rfl := Option.some.inj hs
    obtain ⟨rfl, hsmall⟩ := hfresh (by simpa using hlock)
    have hsame : SameChains c.sh { c.sh with resizeLock := true } :=
      SameTabs.chains ⟨rfl, rfl, rfl⟩
    exact h.plain hexcl hsame hduty (Or.inl rfl) ⟨hsame.known_ret (Known.won hk), hsmall⟩ hprop
      rfl

/-- The new table of a resize. -/
theorem Kept.resizeNew (h : Kept c) {inc : Bool} {by_ : Int} {htOld : Nat} {k : Cont}
    (hpc : (c.loc t).pc = .resizeNew inc by_ htOld k)
    (hexcl : Exclusive (c.put t r)) (hprop : (c.loc t).call.proper)
    (hs : go c.sh (c.loc t) (.resizeNew inc by_ htOld k) = some r) :
    Kept (c.put t r) ∧ Effect c t r := by
  have hreached : ∀ b, ¬ (c.loc t).pc.reached b := by
    intro b hb
    rw [hpc] at hb
    exact hb.elim
  have hsame : ∀ out, SameChains c.sh { c.sh with out := out } :=
    fun _ => SameTabs.chains ⟨rfl, rfl, rfl⟩
  have hk := h.known t
  rw [hpc] at hk
  obtain ⟨hret, hsmall⟩ := hk
  dsimp only [go] at hs
  split at hs
  · obtain rfl := Option.some.inj hs
    exact h.still hexcl (hsame _) hreached (Or.inl rfl) trivial hprop rfl
  · next T hT =>
    obtain rfl := Option.some.inj hs
    obtain ⟨hw, hp, hc0, -, -, hfree⟩ := clhtLpHashtableCreate_some hT
    -- the version number is no part of any of these facts
    have hbuilt : Built { T with version := (c.sh.tab htOld).version + 1 } 0 :=
      ⟨⟨hw.pos, hw.hashed, hw.distinct, hw.whole, hw.expands, hw.thresholdEq⟩, hp, hfree, hc0⟩
    exact h.still hexcl (hsame _) hreached (Or.inl rfl)
      ⟨(hsame _).known_ret hret, hsmall, Nat.zero_le _,
        fun b' hb' => absurd hb' (Nat.not_lt_zero b'), hbuilt⟩ hprop rfl

/-- The resizer locks a bucket for good. -/
theorem Kept.cpyLock (h : Kept c) {htOld b : Nat} {htNew : Hashtable} {k : Cont}
    (hpc : (c.loc t).pc = .cpyLock htOld htNew b k)
    (hexcl : Exclusive (c.put t r)) (hprop : (c.loc t).call.proper)
    (hs : go c.sh (c.loc t) (.cpyLock htOld htNew b k) = some r) :
    Kept (c.put t r) ∧ Effect c t r := by
  have hk := h.known t
  rw [hpc] at hk
  obtain ⟨hret, hsmall, hle, hbytes, hbuilt⟩ := hk
  obtain rfl := h.excl.copies t htOld (by rw [hpc]; rfl)
  have hreached : ∀ b', (c.loc t).pc.reached b' → b' < b := by
    rw [hpc]
    exact fun _ hb' => hb'
  dsimp only [go] at hs
  split at hs
  · next hlt =>
    have hlt' : b < c.sh.cur.numBuckets := hlt.trans_le (Nat.min_le_left ..)
    split at hs
    · next hfree =>
      obtain rfl := Option.some.inj hs
      have hnr : c.sh.cur.lock b ≠ .resize := by
        rw [Clht.cur, hfree]
        decide
      have hmine : ∀ u, u ≠ t → (c.loc u).pc.locks ≠ some (c.sh.ht, b) := by
        intro u _ hu
        cases (h.byte_of_locks hu).symm.trans hfree
      have hframe : Frame c.sh (c.sh.setLock c.sh.ht b .resize) .idle :=
        Frame.setLock (fun hl => absurd hl (Option.some_ne_none _).symm) hnr
      have htab := setLock_tab_table c.sh c.sh.ht b .resize c.sh.ht
      have hknown : Known (c.sh.setLock c.sh.ht b .resize) (c.loc t).call
          (.cpySlot c.sh.ht htNew b 0 k) := by
        refine ⟨hret.frame hframe, ?_, ?_, ?_, hbuilt.congr ?_⟩
        · rw [htab.2]
          exact hsmall
        · rw [htab.2]
          exact hlt'
        · intro b' hb'
          rw [setLock_tab_lock]
          split
          · rfl
          · next hne => exact hbytes b' (by omega)
        · rw [htab.1, List.take_zero, entries_nil, add_zero]
      obtain ⟨hkept, hcontent⟩ := h.byte hexcl rfl hnr hmine
        (fun b' hb' => (hreached b' hb').le) (fun _ => le_rfl) (Or.inl rfl) hknown hprop
      exact ⟨hkept, .same hcontent rfl⟩
    · obtain rfl := Option.some.inj hs
      rw [put_self]
      exact ⟨h, .same rfl rfl⟩
    · next hres =>
      -- nobody but this thread has put a bucket of the table into resize state
      obtain ⟨u, hu⟩ := h.moved b hres
      obtain rfl := h.excl.single u t (Pc.duty_of_reached hu) (by rw [hpc]; exact Duty.noConfusion)
      exact absurd (hreached b hu) (Nat.lt_irrefl b)
  · next hge =>
    obtain rfl := Option.some.inj hs
    have hvisit : bucketsVisited (c.sh.tab c.sh.ht).numBuckets
        = (c.sh.tab c.sh.ht).numBuckets := Nat.min_eq_left hsmall
    obtain rfl : b = (c.sh.tab c.sh.ht).numBuckets := by omega
    obtain ⟨hkept, hcontent⟩ := h.quiet hexcl (.refl _) (fun _ _ => trivial) (Or.inl rfl)
      ⟨hret, hbytes, hbuilt⟩ hprop
    exact ⟨hkept, .same hcontent rfl⟩

/-- The resizer copies a slot. -/
theorem Kept.cpySlot (h : Kept c) {htOld b i : Nat} {htNew : Hashtable} {k : Cont}
    (hpc : (c.loc t).pc = .cpySlot htOld htNew b i k)
    (hexcl : Exclusive (c.put t r)) (hprop : (c.loc t).call.proper)
    (hs : go c.sh (c.loc t) (.cpySlot htOld htNew b i k) = some r) :
    Kept (c.put t r) ∧ Effect c t r := by
  have hk := h.known t
  rw [hpc] at hk
  obtain ⟨hret, hsmall, hlt, hbytes, hbuilt⟩ := hk
  obtain rfl := h.excl.copies t htOld (by rw [hpc]; rfl)
  have hreached : ∀ b', (c.loc t).pc.reached b' → b' ≤ b := by
    rw [hpc]
    exact fun _ hb' => hb'
  dsimp only [go] at hs
  split at hs
  · next s hslot =>
    obtain rfl := Option.some.inj hs
    obtain ⟨hkept, hcontent⟩ := h.quiet hexcl (.refl _) hreached (Or.inl rfl)
      ⟨hret, hsmall, hlt, hbytes, Built.cpy h.mapped hlt hslot hbuilt⟩ hprop
    exact ⟨hkept, .same hcontent rfl⟩
  · next hend =>
    obtain rfl := Option.some.inj hs
    have hall : ((c.sh.tab c.sh.ht).table b).take i = (c.sh.tab c.sh.ht).table b :=
      List.take_of_length_le (List.getElem?_eq_none_iff.mp hend)
    rw [hall, ← content_succ] at hbuilt
    obtain ⟨hkept, hcontent⟩ := h.quiet hexcl (.refl _)
      (fun b' hb' => Nat.lt_succ_of_le (hreached b' hb')) (Or.inl rfl)
      ⟨hret, hsmall, hlt, fun b' hb' => hbytes b' (Nat.le_of_lt_succ hb'), hbuilt⟩ hprop
    exact ⟨hkept, .same hcontent rfl⟩

/-- Another value in a slot of the current table that nobody has copied. -/
theorem Kept.revalue (h : Kept c) (hduty : (c.loc t).pc.duty = .none)
    (hexcl : Exclusive (c.put t r)) {p : SlotPtr} {key : Addr} {v w : Val}
    (hun : Uncopied c p) (hat : At c.sh key p.tab p.bin) (hslot : c.sh.slot p = some ⟨key, v⟩)
    (hsh : r.1 = c.sh.setVal p w) (hidle : r.2.pc = .idle) (hprop : r.2.call.proper) :
    Kept (c.put t r) ∧ ∃ m, c.sh.cur.content = (key, v) ::ₘ m ∧
      r.1.cur.content = (key, w) ::ₘ m := by
  obtain ⟨T, b, i⟩ := p
  obtain rfl : T = c.sh.ht := hun.1
  have hset : c.sh.setVal ⟨c.sh.ht, b, i⟩ w
      = c.sh.setTab c.sh.ht (c.sh.cur.setChain b ((c.sh.cur.table b).set i ⟨key, w⟩)) := by
    unfold Clht.setVal
    rw [hslot]
    rfl
  have hbin : b = clhtLpHash c.sh.cur key := hat.bin
  obtain ⟨hmapped, m, hpre, hpost⟩ := h.mapped.revalue hat.nonzero w (hbin ▸ hslot)
  rw [← hbin] at hmapped hpost
  rw [hset] at hsh
  have hknown : Known r.1 r.2.call r.2.pc := by
    rw [hidle]
    trivial
  refine ⟨h.write hexcl hsh (fun u _ => hsh ▸ hun.frame hat.nonzero hslot u) hmapped
    (fun _ hb => Pc.duty_of_reached hb hduty) (Or.inl (by rw [hidle]; rfl)) hknown hprop,
    m, hpre, ?_⟩
  rw [hsh, ← hpost]
  exact congrArg Hashtable.content (setTab_cur ..)

/-- A lock of `tas_in`, in its slot. -/
theorem Kept.tasCas (h : Kept c) {p : SlotPtr} (hpc : (c.loc t).pc = .tasCas p)
    (hexcl : Exclusive (c.put t r)) (hprop : (c.loc t).call.proper) (hok : Careful c t .go)
    (hs : go c.sh (c.loc t) (.tasCas p) = some r) : Kept (c.put t r) ∧ Effect c t r := by
  have hduty : (c.loc t).pc.duty = .none := by rw [hpc]; rfl
  have hun : c.sh.read p = 0 → Uncopied c p := by
    unfold Careful at hok
    rwa [hpc] at hok
  have hk := h.known t
  rw [hpc] at hk
  obtain ⟨⟨hat, v, hslot⟩, htakes⟩ := hk
  dsimp only [go] at hs
  split at hs
  · next hread =>
    obtain rfl := Option.some.inj hs
    obtain rfl : v = 0 := (read_of_slot hslot).symm.trans hread
    obtain ⟨hkept, m, hpre, hpost⟩ := h.revalue hduty hexcl (hun hread) hat hslot rfl rfl hprop
    exact ⟨hkept, .takes m htakes hpre hpost rfl⟩
  · split at hs
    · obtain rfl := Option.some.inj hs
      exact h.plain hexcl (.refl _) hduty (Or.inl rfl) trivial hprop rfl
    · obtain rfl := Option.some.inj hs
      rw [put_self]
      exact ⟨h, .same rfl rfl⟩

/-- An unlock of `tas_in`, in its slot. -/
theorem Kept.tasStore (h : Kept c) {p : SlotPtr} (hpc : (c.loc t).pc = .tasStore p)
    (hexcl : Exclusive (c.put t r)) (hprop : (c.loc t).call.proper) (hok : Careful c t .go)
    (hs : go c.sh (c.loc t) (.tasStore p) = some r) : Kept (c.put t r) ∧ Effect c t r := by
  have hduty : (c.loc t).pc.duty = .none := by rw [hpc]; rfl
  have hun : Uncopied c p := by
    unfold Careful at hok
    rwa [hpc] at hok
  have hk := h.known t
  rw [hpc] at hk
  obtain ⟨⟨hat, v, hslot⟩, hgives⟩ := hk
  obtain rfl := Option.some.inj hs
  obtain ⟨hkept, m, hpre, hpost⟩ := h.revalue hduty hexcl hun hat hslot rfl rfl hprop
  exact ⟨hkept, .gives v m hgives hpre hpost rfl⟩

/-- **Every step keeps the invariant**, and has one of the effects. -/
theorem Kept.step (h : Kept c) (hok : Careful c t .go)
    (hs : go c.sh (c.loc t) (c.loc t).pc = some r) : Kept (c.put t r) ∧ Effect c t r := by
  have hexcl : Exclusive (c.put t r) := h.excl.step (.of_careful hok) hs
  have hk := h.known t
  have hprop : (c.loc t).pc ≠ .idle → (c.loc t).call.proper := (h.proper t).resolve_left
  cases hpc : (c.loc t).pc with
  | idle => rw [hpc] at hs; exact nomatch hs
  | crash => rw [hpc] at hs; exact nomatch hs
  | readHt =>
      have hprop' := hprop (by rw [hpc]; nofun)
      have hduty : (c.loc t).pc.duty = .none := by rw [hpc]; rfl
      rw [hpc] at hs hk
      obtain rfl := Option.some.inj hs
      exact h.plain hexcl (.refl _) hduty (Or.inl (Call.begun_locks ..))
        (Known.begun ⟨hk, h.excl.cur, rfl⟩) hprop' rfl
  | search T b i =>
      have hprop' := hprop (by rw [hpc]; nofun)
      have hduty : (c.loc t).pc.duty = .none := by rw [hpc]; rfl
      rw [hpc] at hs hk
      dsimp only [go] at hs
      split at hs
      · next s hs' =>
        split at hs
        · next hkey =>
          obtain rfl := Option.some.inj hs
          refine h.plain hexcl (.refl _) hduty (Or.inl (Call.hit_locks ..))
            (Known.hit ⟨hk, s.val, ?_⟩) hprop' rfl
          show c.sh.slot _ = some ⟨(c.loc t).call.key, s.val⟩
          rw [← hkey]
          exact hs'
        · obtain rfl := Option.some.inj hs
          exact h.plain hexcl (.refl _) hduty (Or.inl rfl) hk hprop' rfl
      · obtain rfl := Option.some.inj hs
        exact h.plain hexcl (.refl _) hduty (Or.inl (Call.missed_locks ..)) (Known.missed hk)
          hprop' rfl
  | searchVal p =>
      have hprop' := hprop (by rw [hpc]; nofun)
      have hduty : (c.loc t).pc.duty = .none := by rw [hpc]; rfl
      rw [hpc] at hs hk
      obtain rfl := Option.some.inj hs
      exact h.plain hexcl (.refl _) hduty (Or.inl (Call.gotVal_locks ..)) (Known.gotVal hk.1 _)
        hprop' rfl
  | implHt T b =>
      have hprop' := hprop (by rw [hpc]; nofun)
      have hduty : (c.loc t).pc.duty = .none := by rw [hpc]; rfl
      rw [hpc] at hs hk
      obtain rfl := Option.some.inj hs
      exact h.plain hexcl (.refl _) hduty (Or.inl rfl) hk hprop' rfl
  | lockAcq T b H =>
      exact h.lockAcq hpc hexcl (hprop (by rw [hpc]; nofun)) (hpc ▸ hs)
  | waitNew H =>
      have hprop' := hprop (by rw [hpc]; nofun)
      have hduty : (c.loc t).pc.duty = .none := by rw [hpc]; rfl
      rw [hpc] at hs hk
      dsimp only [go] at hs
      split at hs
      · obtain rfl := Option.some.inj hs
        rw [put_self]
        exact ⟨h, .same rfl rfl⟩
      · obtain rfl := Option.some.inj hs
        exact h.plain hexcl (.refl _) hduty (Or.inl rfl) hk hprop' rfl
  | retryHt =>
      have hprop' := hprop (by rw [hpc]; nofun)
      have hduty : (c.loc t).pc.duty = .none := by rw [hpc]; rfl
      rw [hpc] at hs hk
      obtain rfl := Option.some.inj hs
      exact h.plain hexcl (.refl _) hduty (Or.inl rfl) ⟨hk, h.excl.cur, rfl⟩ hprop' rfl
  | seek T b H =>
      exact h.seek hpc hexcl (hprop (by rw [hpc]; nofun)) (hpc ▸ hs)
  | expand T b H val =>
      exact h.expand hpc hexcl (hprop (by rw [hpc]; nofun)) (hpc ▸ hs)
  | link T b val resize =>
      exact h.link hpc hexcl (hprop (by rw [hpc]; nofun)) (hpc ▸ hs)
  | putVal p val =>
      exact h.putVal hpc hexcl (hprop (by rw [hpc]; nofun)) (hpc ▸ hs)
  | putKey p val =>
      exact h.putKey hpc hexcl (hprop (by rw [hpc]; nofun)) (hpc ▸ hs)
  -- nobody removes
  | rmVal p => rw [hpc] at hk; exact hk.elim
  | rmKey p val => rw [hpc] at hk; exact hk.elim
  | lockRls T b next =>
      exact h.lockRls hpc hexcl (hprop (by rw [hpc]; nofun)) (hpc ▸ hs)
  | retVal p =>
      have hprop' := hprop (by rw [hpc]; nofun)
      have hduty : (c.loc t).pc.duty = .none := by rw [hpc]; rfl
      rw [hpc] at hs
      obtain rfl := Option.some.inj hs
      exact h.plain hexcl (.refl _) hduty (Or.inl rfl) trivial hprop' rfl
  | statusTry inc k =>
      have hprop' := hprop (by rw [hpc]; nofun)
      have hduty : (c.loc t).pc.duty = .none := by rw [hpc]; rfl
      rw [hpc] at hs hk
      obtain rfl := Option.some.inj hs
      have hsame : SameChains c.sh { c.sh with statusLock := true } :=
        SameTabs.chains ⟨rfl, rfl, rfl⟩
      refine h.plain hexcl hsame hduty (Or.inl ?_) ?_ hprop' rfl
      · show Pc.locks (if _ then _ else _) = none
        split
        · exact k.back_locks
        · rfl
      · show Known _ _ (if _ then _ else _)
        split
        · exact Known.back (hsame.known_ret hk)
        · exact hsame.known_ret hk
  | statusHt inc k =>
      have hprop' := hprop (by rw [hpc]; nofun)
      have hduty : (c.loc t).pc.duty = .none := by rw [hpc]; rfl
      rw [hpc] at hs hk
      obtain rfl := Option.some.inj hs
      exact h.plain hexcl (.refl _) hduty (Or.inl rfl) hk hprop' rfl
  | statusScan inc T b i size em k =>
      have hprop' := hprop (by rw [hpc]; nofun)
      have hduty : (c.loc t).pc.duty = .none := by rw [hpc]; rfl
      rw [hpc] at hs hk
      dsimp only [go] at hs
      split at hs
      · split at hs <;> obtain rfl := Option.some.inj hs <;>
          exact h.plain hexcl (.refl _) hduty (Or.inl rfl) hk hprop' rfl
      · split at hs <;> obtain rfl := Option.some.inj hs <;>
          exact h.plain hexcl (.refl _) hduty (Or.inl rfl) (Known.sized hk size) hprop' rfl
  | statusRls k =>
      have hprop' := hprop (by rw [hpc]; nofun)
      have hduty : (c.loc t).pc.duty = .none := by rw [hpc]; rfl
      rw [hpc] at hs hk
      obtain rfl := Option.some.inj hs
      have hsame : SameChains c.sh { c.sh with statusLock := false } :=
        SameTabs.chains ⟨rfl, rfl, rfl⟩
      exact h.plain hexcl hsame hduty (Or.inl (Cont.back_locks _))
        (Known.back (hsame.known_ret hk)) hprop' rfl
  | resizeHt inc by_ k =>
      have hprop' := hprop (by rw [hpc]; nofun)
      have hduty : (c.loc t).pc.duty = .none := by rw [hpc]; rfl
      rw [hpc] at hs hk
      obtain rfl := Option.some.inj hs
      exact h.plain hexcl (.refl _) hduty (Or.inl rfl) hk hprop' rfl
  | resizeTry inc by_ htOld k =>
      exact h.resizeTry hpc hexcl (hprop (by rw [hpc]; nofun)) hok (hpc ▸ hs)
  | resizeNew inc by_ htOld k =>
      exact h.resizeNew hpc hexcl (hprop (by rw [hpc]; nofun)) (hpc ▸ hs)
  | cpyLock htOld htNew b k =>
      exact h.cpyLock hpc hexcl (hprop (by rw [hpc]; nofun)) (hpc ▸ hs)
  | cpySlot htOld htNew b i k =>
      exact h.cpySlot hpc hexcl (hprop (by rw [hpc]; nofun)) (hpc ▸ hs)
  | swap htOld htNew k =>
      have hprop' := hprop (by rw [hpc]; nofun)
      rw [hpc] at hs
      obtain rfl := Option.some.inj hs
      -- the new table has the content of the old one
      obtain ⟨hkept, hcontent⟩ := h.swap hpc hexcl hprop'
      refine ⟨hkept, .same ?_ rfl⟩
      show Hashtable.content ((c.sh.setTab _ _).tab c.sh.numTabs) = _
      rw [tab_setTab, if_pos rfl]
      exact hcontent
  | tableNew htOld htNew again k =>
      have hprop' := hprop (by rw [hpc]; nofun)
      have hreached : ∀ b, ¬ (c.loc t).pc.reached b := by rw [hpc]; exact fun _ hb => hb
      rw [hpc] at hs hk
      obtain rfl := Option.some.inj hs
      have hsame := setTab_chains c.sh htOld
        { c.sh.tab htOld with tableNew := some htNew } rfl rfl rfl
      exact h.still hexcl hsame hreached (Or.inl rfl) (hsame.known_ret hk) hprop' rfl
  | resizeRls again k =>
      have hprop' := hprop (by rw [hpc]; nofun)
      have hreached : ∀ b, ¬ (c.loc t).pc.reached b := by rw [hpc]; exact fun _ hb => hb
      rw [hpc] at hs hk
      obtain rfl := Option.some.inj hs
      have hsame : SameChains c.sh { c.sh with resizeLock := false } :=
        SameTabs.chains ⟨rfl, rfl, rfl⟩
      refine h.still hexcl hsame hreached (Or.inl ?_) ?_ hprop' rfl
      · show Pc.locks (if _ then _ else _) = none
        split
        · rfl
        · exact k.back_locks
      · show Known _ _ (if _ then _ else _)
        split
        · exact hsame.known_ret hk
        · exact Known.back (hsame.known_ret hk)
  | ret x =>
      have hprop' := hprop (by rw [hpc]; nofun)
      have hduty : (c.loc t).pc.duty = .none := by rw [hpc]; rfl
      rw [hpc] at hs hk
      obtain rfl := Option.some.inj hs
      exact h.plain hexcl (.refl _) hduty (Or.inl (Call.returned_locks ..)) (Known.returned rfl hk)
        (by rw [Call.returned_call]; exact hprop') (Call.returned_held ..)
  | tasCas p =>
      exact h.tasCas hpc hexcl (hprop (by rw [hpc]; nofun)) hok (hpc ▸ hs)
  | tasStore p =>
      exact h.tasStore hpc hexcl (hprop (by rw [hpc]; nofun)) hok (hpc ▸ hs)

/-! ## Every run -/

/-- A call begins. -/
theorem Kept.begin (h : Kept c) (hidle : (c.loc t).pc = .idle) {call : Call}
    (hprop : call.proper) :
    Kept (c.put t (c.sh, { c.loc t with pc := call.entry, call := call })) := by
  have hduty : (c.loc t).pc.duty = .none := by rw [hidle]; rfl
  have hexcl : Exclusive (c.put t (c.sh, { c.loc t with pc := call.entry, call := call })) := by
    refine h.excl.put h.excl.cur ?_ ?_ ?_
    · intro T hT
      exact nomatch call.entry_duty.symm.trans hT
    · intro hd
      exact absurd call.entry_duty hd
    · rintro ⟨u, -, hu⟩
      exact ⟨rfl, h.excl.locked u hu, call.entry_duty⟩
  exact (h.plain hexcl (.refl _) hduty (Or.inl call.entry_locks) (Known.entry hprop) hprop rfl).1

omit [DecidableEq Tid] in
/-- A new table. -/
theorem Init.kept {n : Nat} (h : Init n c) : Kept c := by
  obtain ⟨T, hT, hsh⟩ := Option.map_eq_some_iff.mp h.sh
  obtain ⟨hw, -, -, -, -, hfree⟩ := clhtLpHashtableCreate_some hT
  have htab : ∀ T', c.sh.tab T' = T := by
    rw [← hsh]
    exact fun _ => rfl
  have hht : c.sh.ht = 0 ∧ c.sh.numTabs = 1 := by
    rw [← hsh]
    exact ⟨rfl, rfl⟩
  have hcur : c.sh.cur = T := htab _
  refine ⟨h.exclusive, hcur.symm ▸ hw.mapped, fun T' _ => (htab T').symm ▸ hw.pos, ?_, ?_, ?_,
    ?_, fun u => Or.inl (h.loc u).1⟩
  · intro T' hlt hne
    omega
  · intro b hb
    rw [Clht.cur, htab, hfree] at hb
    cases hb
  · intro u v x hu
    rw [(h.loc u).1] at hu
    cases hu
  · intro u
    rw [(h.loc u).1]
    trivial

end ClhtLpConc
