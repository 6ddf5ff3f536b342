import Lockin.ClhtLpKept

/-! # The in-table TAS locks

    `gls_lock_tas_in`, `gls_trylock_tas_in` and `gls_unlock_tas_in`: the lock word of an address
    is the value of its slot.  In the runs that meet the conditions, the word in the current
    table is `GLS_TAS_LOCKED` exactly while some thread holds the lock (`Words`).

    A thread gets the pointer to a slot without any lock, so the slot may have been copied, or
    its table superseded, when it comes to the CAS or the store.  That is what the conditions
    exclude, and what goes wrong without them (`words_torn`). -/

namespace ClhtLpConc

open Interleaving SlotTable ClhtLp

variable {Tid : Type} {c : Conf Tid Clht Local} {t : Tid} {r : Clht × Local} {h h' : Clht}
  {l : Local} {pc : Pc}

/-! ## The calls -/

/-- The calls on in-table locks, on addresses. -/
def Call.words : Call → Prop
  | .lockTasIn key | .trylockTasIn key | .unlockTasIn key => key ≠ 0
  | _ => False

instance : (call : Call) → Decidable call.words
  | .lockTasIn key | .trylockTasIn key | .unlockTasIn key => (inferInstance : Decidable (key ≠ 0))
  | .putType _ _ | .putInit _ | .putIn _ | .remove _ | .get _ => isFalse not_false
  | .status _ | .resizePes _ _ => isFalse not_false

theorem Call.proper_of_words {call : Call} (hw : call.words) : call.proper := by
  cases call <;> first | exact hw | exact hw.elim

/-! ## What a put enters -/

/-- Who has a value to enter has locked the bucket. -/
theorem Pc.locks_of_value {v : Val} (hv : pc.value = some v) : pc.locks ≠ none := by
  cases pc <;> first | exact Option.some_ne_none _ | cases hv

theorem Call.present_value (p : SlotPtr) (call : Call) : (call.present p).value = none := by
  cases call <;> rfl

/-- The value to enter is the one that has been made. -/
theorem Call.absent_value {T b H : Nat} {e : Option Nat} {x : Val} {call : Call} {v : Val}
    (hv : (call.absent T b H e x).value = some v) : v = x := by
  cases call <;> cases e <;> first | exact (Option.some.inj hv).symm | cases hv

/-- The value is made by the search under the lock, and then stays. -/
theorem value_of_go (hl : l.pc = pc) (hs : go h l pc = some r) {v : Val}
    (hv : r.2.pc.value = some v) :
    pc.value = some v ∨ (∃ T b H, pc = .seek T b H) ∧ v = (l.call.create h).2 := by
  have hlocks : r.2.pc.locks ≠ none := Pc.locks_of_value hv
  cases pc with
  | idle => exact nomatch hs
  | crash => exact nomatch hs
  | readHt =>
      obtain rfl := Option.some.inj hs
      exact absurd (Call.begun_locks ..) hlocks
  | search T b i =>
      dsimp only [go] at hs
      split at hs
      · split at hs <;> obtain rfl := Option.some.inj hs
        · exact absurd (Call.hit_locks ..) hlocks
        · exact nomatch hv
      · obtain rfl := Option.some.inj hs
        exact absurd (Call.missed_locks ..) hlocks
  | searchVal p =>
      obtain rfl := Option.some.inj hs
      exact absurd (Call.gotVal_locks ..) hlocks
  | lockAcq T b H =>
      dsimp only [go] at hs
      split at hs <;> obtain rfl := Option.some.inj hs
      · exact nomatch hv
      · exact Or.inl (hl ▸ hv)
      · exact nomatch hv
  | waitNew H =>
      dsimp only [go] at hs
      split at hs <;> obtain rfl := Option.some.inj hs
      · exact Or.inl (hl ▸ hv)
      · exact nomatch hv
  | seek T b H =>
      dsimp only [go] at hs
      split at hs <;> obtain rfl := Option.some.inj hs
      · exact nomatch (Call.present_value _ _).symm.trans hv
      · exact Or.inr ⟨⟨T, b, H, rfl⟩, Call.absent_value hv⟩
  | expand T b H val =>
      obtain rfl := Option.some.inj hs
      exact Or.inl hv
  | putVal p val =>
      obtain rfl := Option.some.inj hs
      exact Or.inl hv
  | lockRls T b next =>
      obtain rfl := Option.some.inj hs
      exact absurd (After.pc_locks _) hlocks
  | statusTry inc k =>
      obtain rfl := Option.some.inj hs
      dsimp only [Local.goto] at hv
      split at hv
      · exact absurd k.back_locks (Pc.locks_of_value hv)
      · exact nomatch hv
  | statusScan inc T b i size em k =>
      dsimp only [go] at hs
      split at hs <;> split at hs <;> obtain rfl := Option.some.inj hs <;> exact nomatch hv
  | statusRls k =>
      obtain rfl := Option.some.inj hs
      exact absurd (Cont.back_locks _) hlocks
  | resizeTry inc by_ htOld k =>
      dsimp only [go] at hs
      split at hs <;> obtain rfl := Option.some.inj hs
      · exact absurd k.back_locks hlocks
      · exact nomatch hv
  | resizeNew inc by_ htOld k =>
      dsimp only [go] at hs
      split at hs <;> obtain rfl := Option.some.inj hs <;> exact nomatch hv
  | cpyLock htOld htNew b k =>
      dsimp only [go] at hs
      split at hs
      · split at hs <;> obtain rfl := Option.some.inj hs
        · exact nomatch hv
        · exact Or.inl (hl ▸ hv)
        · exact nomatch hv
      · obtain rfl := Option.some.inj hs
        exact nomatch hv
  | cpySlot htOld htNew b i k =>
      dsimp only [go] at hs
      split at hs <;> obtain rfl := Option.some.inj hs <;> exact nomatch hv
  | resizeRls again k =>
      obtain rfl := Option.some.inj hs
      dsimp only [Local.goto] at hv
      split at hv
      · exact nomatch hv
      · exact absurd k.back_locks (Pc.locks_of_value hv)
  | ret x =>
      obtain rfl := Option.some.inj hs
      exact absurd (Call.returned_locks ..) hlocks
  | tasCas p =>
      dsimp only [go] at hs
      split at hs
      · obtain rfl := Option.some.inj hs
        exact nomatch hv
      · split at hs <;> obtain rfl := Option.some.inj hs
        · exact nomatch hv
        · exact Or.inl (hl ▸ hv)
  | _ =>
      obtain rfl := Option.some.inj hs
      exact nomatch hv

/-- No unlock follows `ht_status`. -/
theorem Cont.back_ne_store (k : Cont) (p : SlotPtr) : k.back ≠ .tasStore p := by
  unfold Cont.back
  split <;> simp

/-- Only the search of an unlock leads to the store. -/
theorem store_of_go (hs : go h l pc = some r) {p : SlotPtr} (hstore : r.2.pc = .tasStore p) :
    (∃ key, l.call = .unlockTasIn key) ∨ l.pc = .tasStore p := by
  cases pc <;> dsimp only [go] at hs
  case idle | crash => cases hs
  case readHt =>
    obtain rfl := Option.some.inj hs
    dsimp only [Local.goto] at hstore
    cases hc : l.call <;> rw [hc] at hstore <;> cases hstore
  case search T b i =>
    split at hs
    · split at hs <;> obtain rfl := Option.some.inj hs <;> dsimp only [Local.goto] at hstore
      · cases hc : l.call <;> rw [hc] at hstore <;> cases hstore
        exact Or.inl ⟨_, rfl⟩
      · cases hstore
    · obtain rfl := Option.some.inj hs
      dsimp only [Local.goto] at hstore
      cases hc : l.call <;> rw [hc] at hstore <;> cases hstore
  case searchVal q =>
    obtain rfl := Option.some.inj hs
    dsimp only [Local.goto, Call.gotVal] at hstore
    split at hstore
    · split at hstore <;> cases hstore
    · cases hstore
  case lockAcq T b H =>
    split at hs <;> obtain rfl := Option.some.inj hs <;> first | cases hstore | exact Or.inr hstore
  case waitNew H =>
    split at hs <;> obtain rfl := Option.some.inj hs <;> first | cases hstore | exact Or.inr hstore
  case seek T b H =>
    split at hs <;> obtain rfl := Option.some.inj hs <;> dsimp only [Local.goto] at hstore
    · cases hc : l.call <;> rw [hc] at hstore <;> cases hstore
    · next e _ => cases hc : l.call <;> rw [hc] at hstore <;> cases e <;> cases hstore
  case lockRls T b next =>
    obtain rfl := Option.some.inj hs
    cases next <;> cases hstore
  case statusTry inc k =>
    obtain rfl := Option.some.inj hs
    dsimp only [Local.goto] at hstore
    split at hstore
    · exact absurd hstore (k.back_ne_store p)
    · cases hstore
  case statusScan inc T b i size em k =>
    split at hs <;> split at hs <;> obtain rfl := Option.some.inj hs <;> cases hstore
  case statusRls k =>
    obtain rfl := Option.some.inj hs
    exact absurd hstore (k.close.back_ne_store p)
  case resizeTry inc by_ htOld k =>
    split at hs <;> obtain rfl := Option.some.inj hs
    · exact absurd hstore (k.back_ne_store p)
    · cases hstore
  case resizeNew inc by_ htOld k =>
    split at hs <;> obtain rfl := Option.some.inj hs <;> cases hstore
  case cpyLock htOld htNew b k =>
    split at hs
    · split at hs <;> obtain rfl := Option.some.inj hs <;>
        first | cases hstore | exact Or.inr hstore
    · obtain rfl := Option.some.inj hs
      cases hstore
  case cpySlot htOld htNew b i k =>
    split at hs <;> obtain rfl := Option.some.inj hs <;> cases hstore
  case resizeRls again k =>
    obtain rfl := Option.some.inj hs
    dsimp only [Local.goto] at hstore
    split at hstore
    · cases hstore
    · exact absurd hstore (k.back_ne_store p)
  case ret x =>
    obtain rfl := Option.some.inj hs
    cases hc : l.call <;> rw [hc] at hstore <;> cases x <;> cases hstore
  case tasCas q =>
    split at hs
    · obtain rfl := Option.some.inj hs
      cases hstore
    · split at hs <;> obtain rfl := Option.some.inj hs
      · cases hstore
      · exact Or.inr hstore
  all_goals
    obtain rfl := Option.some.inj hs
    cases hstore

theorem Call.create_words {call : Call} (hw : call.words) (h : Clht) : (call.create h).2 = 0 := by
  cases call <;> first | rfl | exact hw.elim

/-! ## Words and holders -/

/-- The word of a lock is 1 if somebody holds it, and 0 otherwise. -/
structure Agree (m : Multiset (Addr × Val)) (held : Tid → List Addr) : Prop where
  locked : ∀ u a, a ∈ held u → (a, 1) ∈ m
  free : ∀ a v, (a, v) ∈ m → (∀ u, a ∉ held u) → v = 0
  single : ∀ u v a, a ∈ held u → a ∈ held v → u = v

section Agree

variable {m : Multiset (Addr × Val)} {held : Tid → List Addr} {key : Addr}

/-- A new word is 0. -/
theorem Agree.adds (h : Agree m held) : Agree ((key, 0) ::ₘ m) held where
  locked u a ha := Multiset.mem_cons_of_mem (h.locked u a ha)
  free a v hmem hno := by
    obtain heq | hold := Multiset.mem_cons.mp hmem
    · exact (Prod.mk.inj heq).2
    · exact h.free a v hold hno
  single := h.single

variable [DecidableEq Tid]

/-- A free lock is taken. -/
theorem Agree.takes (h : Agree ((key, 0) ::ₘ m) held) (hd : Distinct ((key, 0) ::ₘ m)) (t : Tid) :
    Agree ((key, 1) ::ₘ m) (Function.update held t (key :: held t)) := by
  have hno : ∀ u, key ∉ held u := by
    intro u hu
    exact Nat.one_ne_zero (hd.eq (h.locked u key hu) (Multiset.mem_cons_self ..))
  -- who holds what afterwards
  have hiff : ∀ u a, a ∈ Function.update held t (key :: held t) u ↔
      (u = t ∧ a = key) ∨ a ∈ held u := by
    intro u a
    rw [Function.update_apply]
    split
    · next hut =>
      subst hut
      simp
    · next hut => simp [hut]
  refine ⟨?_, ?_, ?_⟩
  · intro u a ha
    obtain ⟨-, rfl⟩ | hold := (hiff u a).mp ha
    · exact Multiset.mem_cons_self ..
    · refine Multiset.mem_cons_of_mem ((Multiset.mem_cons.mp (h.locked u a hold)).resolve_left ?_)
      intro heq
      exact Nat.one_ne_zero (Prod.mk.inj heq).2
  · intro a v hmem hfree
    obtain heq | hold := Multiset.mem_cons.mp hmem
    · obtain ⟨rfl, -⟩ := Prod.mk.inj heq
      exact absurd ((hiff t a).mpr (Or.inl ⟨rfl, rfl⟩)) (hfree t)
    · exact h.free a v (Multiset.mem_cons_of_mem hold)
        fun u hu => hfree u ((hiff u a).mpr (Or.inr hu))
  · intro u v a hu hv
    obtain ⟨rfl, rfl⟩ | hu' := (hiff u a).mp hu
    · obtain ⟨rfl, -⟩ | hv' := (hiff v a).mp hv
      · rfl
      · exact absurd hv' (hno v)
    · obtain ⟨-, rfl⟩ | hv' := (hiff v a).mp hv
      · exact absurd hu' (hno u)
      · exact h.single u v a hu' hv'

/-- Its holder gives a lock back. -/
theorem Agree.gives {v : Val} (h : Agree ((key, v) ::ₘ m) held) (hd : Distinct ((key, v) ::ₘ m))
    {t : Tid} (ht : key ∈ held t) :
    Agree ((key, 0) ::ₘ m) (Function.update held t ((held t).filter (· ≠ key))) := by
  -- who holds what afterwards
  have hiff : ∀ u a, a ∈ Function.update held t ((held t).filter (· ≠ key)) u ↔
      a ∈ held u ∧ a ≠ key := by
    intro u a
    rw [Function.update_apply]
    split
    · next hut =>
      subst hut
      simp
    · next hut =>
      refine ⟨fun ha => ⟨ha, ?_⟩, And.left⟩
      rintro rfl
      exact hut (h.single u t a ha ht)
  refine ⟨?_, ?_, ?_⟩
  · intro u a ha
    obtain ⟨hold, hne⟩ := (hiff u a).mp ha
    refine Multiset.mem_cons_of_mem ((Multiset.mem_cons.mp (h.locked u a hold)).resolve_left ?_)
    intro heq
    exact hne (Prod.mk.inj heq).1
  · intro a w hmem hfree
    obtain heq | hold := Multiset.mem_cons.mp hmem
    · exact (Prod.mk.inj heq).2
    · refine h.free a w (Multiset.mem_cons_of_mem hold) fun u hu =>
        hfree u ((hiff u a).mpr ⟨hu, ?_⟩)
      rintro rfl
      exact hd.not_mem w hold
  · intro u w a hu hw
    exact h.single u w a ((hiff u a).mp hu).1 ((hiff w a).mp hw).1

end Agree

/-! ## The invariant -/

/-- Where an unlock stands: its search does not miss the entry. -/
def Unlocking (h : Clht) (key : Addr) : Pc → Prop
  | .idle | .readHt | .tasStore _ => True
  | .search T b i => T < h.numTabs ∧ ∃ j ≥ i, ∃ v, h.slot ⟨T, b, j⟩ = some ⟨key, v⟩
  | _ => False

structure Words (c : Conf Tid Clht Local) : Prop where
  kept : Kept c
  calls : ∀ u, (c.loc u).pc = .idle ∨ (c.loc u).call.words
  value : ∀ u v, (c.loc u).pc.value = some v → v = 0
  unlocking : ∀ u, (c.loc u).call.gives = true → Unlocking c.sh (c.loc u).call.key (c.loc u).pc
  holds : ∀ u, (c.loc u).call.gives = true → (c.loc u).pc ≠ .idle →
    (c.loc u).call.key ∈ (c.loc u).held
  agree : Agree c.sh.cur.content fun u => (c.loc u).held

/-- The unlocks of the others do not miss their entries either. -/
theorem Unlocking.frame {key : Addr} (hu : Unlocking h key pc)
    (hnum : h.numTabs ≤ h'.numTabs) (hkeep : ∀ (p : SlotPtr) (v : Val), p.tab < h.numTabs →
      h.slot p = some ⟨key, v⟩ → ∃ w, h'.slot p = some ⟨key, w⟩) : Unlocking h' key pc := by
  cases pc with
  | search T b i =>
      obtain ⟨hT, j, hj, v, hv⟩ := hu
      exact ⟨hT.trans_le hnum, j, hj, hkeep ⟨T, b, j⟩ v hT hv⟩
  | _ => exact hu

/-- An unlock finds its entry, and keeps the lock until it returns. -/
theorem Words.unlocking_step (h : Words c) (hg : (c.loc t).call.gives = true)
    (hs : go c.sh (c.loc t) (c.loc t).pc = some r) :
    Unlocking r.1 (c.loc t).call.key r.2.pc ∧
      (r.2.pc = .idle ∨ r.2.held = (c.loc t).held) := by
  have hun := h.unlocking t hg
  have hhold := h.holds t hg
  obtain ⟨key, hcall⟩ : ∃ key, (c.loc t).call = .unlockTasIn key := by
    cases hc : (c.loc t).call with
    | unlockTasIn key => exact ⟨key, rfl⟩
    | _ =>
      rw [hc] at hg
      exact nomatch hg
  rw [hcall] at hun hhold ⊢
  cases hpc : (c.loc t).pc
  all_goals rw [hpc] at hs hun hhold
  case idle => exact nomatch hs
  case readHt =>
    obtain rfl := Option.some.inj hs
    have hmem := h.agree.locked t key (hhold nofun)
    obtain ⟨-, hslot⟩ := mem_entries.mp (h.kept.mapped.mem_content.mp hmem)
    obtain ⟨j, hj⟩ := List.getElem?_of_mem hslot
    rw [hcall]
    exact ⟨⟨h.kept.excl.cur, j, Nat.zero_le j, 1, hj⟩, Or.inr rfl⟩
  case search T b i =>
    obtain ⟨hT, j, hj, v, hv⟩ := hun
    dsimp only [go] at hs
    split at hs
    · next s hslot =>
      split at hs
      · obtain rfl := Option.some.inj hs
        rw [hcall]
        exact ⟨trivial, Or.inr rfl⟩
      · next hne =>
        obtain rfl := Option.some.inj hs
        refine ⟨⟨hT, j, Nat.lt_of_le_of_ne hj ?_, v, hv⟩, Or.inr rfl⟩
        rintro rfl
        obtain rfl := Option.some.inj (hslot.symm.trans hv)
        rw [hcall] at hne
        exact hne rfl
    · next hend =>
      have hlen : j < ((c.sh.tab T).table b).length := (List.getElem?_eq_some_iff.mp hv).1
      have := List.getElem?_eq_none_iff.mp hend
      omega
  case tasStore p =>
    obtain rfl := Option.some.inj hs
    exact ⟨trivial, Or.inl rfl⟩
  all_goals exact hun.elim

variable [DecidableEq Tid]

/-- The locks held after a step. -/
theorem held_put : (fun u => ((c.put t r).loc u).held)
    = Function.update (fun u => (c.loc u).held) t r.2.held := by
  funext u
  rw [Function.update_apply]
  split
  · next hut =>
    subst hut
    rw [put_loc_self]
  · next hut => rw [put_loc_ne c r hut]

/-- A step keeps words and holders in agreement. -/
theorem Words.agree_step (h : Words c) (heff : Effect c t r) (hpc : (c.loc t).pc ≠ .idle) :
    Agree r.1.cur.content fun u => ((c.put t r).loc u).held := by
  have hsame : r.2.held = (c.loc t).held →
      Function.update (fun u => (c.loc u).held) t r.2.held = fun u => (c.loc u).held := by
    intro heq
    rw [heq]
    exact Function.update_eq_self ..
  have hd := h.kept.mapped.distinct
  have hagree := h.agree
  rw [held_put]
  cases heff with
  | same hpost hheld =>
      rw [hpost, hsame hheld]
      exact hagree
  | adds v hv hnew hpost hheld =>
      obtain rfl := h.value t v hv
      rw [hpost, hsame hheld]
      exact hagree.adds
  | takes m hcall hpre hpost hheld =>
      rw [hpre] at hd hagree
      rw [hpost, hheld]
      exact hagree.takes hd t
  | gives v m hcall hpre hpost hheld =>
      rw [hpre] at hd hagree
      rw [hpost, hheld]
      exact hagree.gives hd (h.holds t hcall hpc)

/-- **Step lemma.** -/
theorem Words.step (h : Words c) (hok : Careful c t .go)
    (hs : go c.sh (c.loc t) (c.loc t).pc = some r) : Words (c.put t r) := by
  have hself : (c.put t r).loc t = r.2 := put_loc_self ..
  have hcall : r.2.call = (c.loc t).call := call_of_go hs
  have hpc : (c.loc t).pc ≠ .idle := by
    intro hidle
    rw [hidle] at hs
    exact nomatch hs
  have hwords := (h.calls t).resolve_left hpc
  obtain ⟨hkept, heff⟩ := h.kept.step hok hs
  refine ⟨hkept, ?_, ?_, ?_, ?_, h.agree_step heff hpc⟩
  · intro u
    by_cases hut : u = t
    · subst hut
      rw [hself, hcall]
      exact Or.inr hwords
    · rw [put_loc_ne c r hut]
      exact h.calls u
  · intro u v hv
    by_cases hut : u = t
    · subst hut
      rw [hself] at hv
      obtain hold | ⟨-, rfl⟩ := value_of_go rfl hs hv
      · exact h.value u v hold
      · exact Call.create_words hwords _
    · rw [put_loc_ne c r hut] at hv
      exact h.value u v hv
  · intro u hg
    by_cases hut : u = t
    · subst hut
      rw [hself, hcall] at hg ⊢
      exact (h.unlocking_step hg hs).1
    · rw [put_loc_ne c r hut] at hg ⊢
      obtain hidle | hw := h.calls u
      · rw [hidle]
        trivial
      · -- the slot with the word of another unlock stays where it is
        have hk : (c.loc u).call.key ≠ 0 := by
          cases hc : (c.loc u).call <;> rw [hc] at hg hw <;> first | exact hw | cases hg
        exact (h.unlocking u hg).frame (numTabs_of_go rfl hs) fun p v hp hslot =>
          persists_of_go (h.kept.known t) hs hp hk hslot
  · intro u hg hne
    by_cases hut : u = t
    · subst hut
      rw [hself] at hg hne ⊢
      rw [hcall] at hg ⊢
      rw [(h.unlocking_step hg hs).2.resolve_left hne]
      exact h.holds u hg hpc
    · rw [put_loc_ne c r hut] at hg hne ⊢
      exact h.holds u hg hne

/-! ## Every run -/

/-- A call begins. -/
theorem Words.begin (h : Words c) (hidle : (c.loc t).pc = .idle) {call : Call} (hw : call.words)
    (hen : call.enabled (c.loc t)) :
    Words (c.put t (c.sh, { c.loc t with pc := call.entry, call := call })) := by
  have hself := put_loc_self c t (c.sh, { c.loc t with pc := call.entry, call := call })
  have hentry : call.entry = .readHt := by
    cases call <;> first | rfl | exact hw.elim
  refine ⟨h.kept.begin hidle (Call.proper_of_words hw), ?_, ?_, ?_, ?_, ?_⟩
  · intro u
    by_cases hut : u = t
    · subst hut
      rw [hself]
      exact Or.inr hw
    · rw [put_loc_ne _ _ hut]
      exact h.calls u
  · intro u v hv
    by_cases hut : u = t
    · subst hut
      rw [hself] at hv
      rw [hentry] at hv
      exact nomatch hv
    · rw [put_loc_ne _ _ hut] at hv
      exact h.value u v hv
  · intro u hg
    by_cases hut : u = t
    · subst hut
      rw [hself, hentry]
      trivial
    · rw [put_loc_ne _ _ hut] at hg ⊢
      exact h.unlocking u hg
  · intro u hg hne
    by_cases hut : u = t
    · subst hut
      rw [hself] at hg ⊢
      cases call with
      | unlockTasIn key => exact hen
      | _ => exact nomatch hg
    · rw [put_loc_ne _ _ hut] at hg hne ⊢
      exact h.holds u hg hne
  · rw [held_put, show Function.update _ t _ = fun u => (c.loc u).held from
      Function.update_eq_self ..]
    exact h.agree

omit [DecidableEq Tid] in
/-- A new table. -/
theorem Init.words {n : Nat} (h : Init n c) : Words c := by
  have hheld : ∀ u a, a ∉ (c.loc u).held := by
    intro u a ha
    rw [(h.loc u).2.1] at ha
    exact absurd ha List.not_mem_nil
  have hempty : c.sh.cur.content = 0 := by
    obtain ⟨T, hT, hsh⟩ := Option.map_eq_some_iff.mp h.sh
    obtain ⟨-, -, hc0, -⟩ := clhtLpHashtableCreate_some hT
    rw [← hsh]
    exact hc0
  refine ⟨h.kept, fun u => Or.inl (h.loc u).1, ?_, ?_, ?_, ?_⟩
  · intro u v hv
    rw [(h.loc u).1] at hv
    exact nomatch hv
  · intro u _
    rw [(h.loc u).1]
    trivial
  · intro u _ hne
    exact absurd (h.loc u).1 hne
  · refine ⟨fun u a ha => absurd ha (hheld u a), fun a v hmem => ?_,
      fun u _ a ha => absurd ha (hheld u a)⟩
    rw [hempty] at hmem
    exact absurd hmem (Multiset.notMem_zero _)

/-- Threads call the three functions, on addresses. -/
def WordsOnly (_ : Conf Tid Clht Local) (_ : Tid) (a : Act) : Prop :=
  match a with
  | .start call => call.words
  | .go => True

/-- Who wins `resize_lock` has read the table that is still current, whose buckets the copy
    loop reaches; and a CAS that succeeds, and the store of an unlock, go to a slot of the
    current table that no resizer has copied yet. -/
def OwnSlot (c : Conf Tid Clht Local) (t : Tid) (a : Act) : Prop :=
  match a with
  | .start call => call.words
  | .go => Careful c t .go

instance (c : Conf Tid Clht Local) (t : Tid) : (a : Act) → Decidable (WordsOnly c t a)
  | .start call => instDecidableWords call
  | .go => isTrue trivial

instance [Fintype Tid] (c : Conf Tid Clht Local) (t : Tid) : (a : Act) → Decidable (OwnSlot c t a)
  | .start call => instDecidableWords call
  | .go => instDecidableCarefulOfFintype c t .go

/-- **Run lemma.** -/
theorem words_of_reach {init : Conf Tid Clht Local → Prop} (hinit : ∀ c, init c → Words c)
    (h : Reach prog OwnSlot init c) : Words c := by
  refine Reach.invariant hinit ?_ h
  intro c t a r hc hok hs
  obtain ⟨call, rfl, hidle, hen, rfl⟩ | ⟨rfl, hs⟩ := prog_cases hs
  · exact hc.begin hidle hok hen
  · exact hc.step hok hs

/-- The locks are exclusive, and what the current table says of them is true: the lock of an
    address is seen as held while somebody holds it, and as free otherwise; and no unlock
    follows `NULL`. -/
structure WordsKept (c : Conf Tid Clht Local) : Prop where
  exclusive : ∀ u v a, a ∈ (c.loc u).held → a ∈ (c.loc v).held → u = v
  held : ∀ u a, a ∈ (c.loc u).held → clhtLpGet c.sh.cur a = 1
  free : ∀ a, a ≠ 0 → (∀ u, a ∉ (c.loc u).held) → clhtLpGet c.sh.cur a = 0
  found : ∀ u, (c.loc u).call.gives = true → (c.loc u).pc ≠ .crash

/-- **The in-table locks survive the resizes**, in every run in which acquisitions and releases
    go to the current table, to slots that have not been copied. -/
theorem words_kept {n : Nat} (h : Reach prog OwnSlot (Init n) c) : WordsKept c := by
  have hw := words_of_reach (fun _ h0 => Init.words h0) h
  refine ⟨hw.agree.single, ?_, ?_, ?_⟩
  · intro u a ha
    exact hw.kept.mapped.clhtLpGet (hw.agree.locked u a ha)
  · intro a ha hno
    by_contra hne
    exact hne (hw.agree.free a _ (hw.kept.mapped.mem_of_get ha hne) hno)
  · intro u hg hcrash
    have hun := hw.unlocking u hg
    rw [hcrash] at hun
    exact hun

/-- A thread's fourth address leads to a resize, and the thread stops before its CAS; meanwhile
    another thread gives back the lock that it has held all the time, and takes it again. -/
def handedOver : List (Bool × Act) :=
  calls false (.lockTasIn 4) 12 ++ (calls true (.lockTasIn 8) 12 ++
    (calls true (.lockTasIn 12) 12 ++ (calls true (.lockTasIn 16) 37 ++
      (calls false (.unlockTasIn 4) 3 ++ calls false (.trylockTasIn 4) 4))))

/-- The conditions can be met, with a resize while locks are held. -/
theorem words_kept_resized : ∃ c : Conf Bool Clht Local, Reach prog OwnSlot (Init 1) c ∧
    WordsKept c ∧ (c.loc false).held = [4] ∧ (c.loc true).held = [12, 8] ∧ c.sh.ht = 1 := by
  have hrun : ((start 1).bind fun c => exec prog OwnSlot c handedOver).any
      (fun c => decide ((c.loc false).held = [4] ∧ (c.loc true).held = [12, 8] ∧
        c.sh.ht = 1)) = true := by
    decide +kernel
  obtain ⟨c, hc, hP⟩ := reach_of_start hrun
  exact ⟨c, hc, words_kept hc, of_decide_eq_true hP⟩

/-- The fourth address of a thread leads to a resize; its pointer is to the superseded table,
    and there it takes the lock.  Another thread takes the lock in the new table. -/
def tornSchedule : List (Bool × Act) :=
  calls true (.lockTasIn 4) 12 ++ (calls true (.lockTasIn 8) 12 ++
    (calls true (.lockTasIn 12) 12 ++ (calls true (.lockTasIn 16) 38 ++
      calls false (.lockTasIn 16) 4)))

/-- Without the conditions two threads hold one lock. -/
theorem words_torn : ∃ c : Conf Bool Clht Local, Reach prog WordsOnly (Init 1) c ∧
    16 ∈ (c.loc false).held ∧ 16 ∈ (c.loc true).held ∧ ¬ WordsKept c := by
  have hrun : ((start 1).bind fun c => exec prog WordsOnly c tornSchedule).any
      (fun c => decide (16 ∈ (c.loc false).held ∧ 16 ∈ (c.loc true).held)) = true := by
    decide +kernel
  obtain ⟨c, hc, hP⟩ := reach_of_start hrun
  obtain ⟨hfalse, htrue⟩ := of_decide_eq_true hP
  exact ⟨c, hc, hfalse, htrue, fun hkept => nomatch hkept.exclusive false true 16 hfalse htrue⟩

end ClhtLpConc
