import Lockin.ClhtLpOnce
import Lockin.ClhtLpTas

/-! # Every address has a lock object of its own

    In the runs in which no counter of expansions comes round: a put enters an object that it
    has just made, so the objects of the current table belong to one address each, and none of
    them is `NULL` (`Objects`).  A lookup of an address that the thread has put before finds its
    object, in whatever table it searches (`Finds`). -/

namespace ClhtLpConc

open Interleaving SlotTable ClhtLp

variable {Tid : Type} {c : Conf Tid Clht Local} {t : Tid} {r : Clht × Local} {h h' : Clht}
  {l : Local} {pc : Pc}

/-! ## The objects made so far -/

theorem setVal_objs (h : Clht) (p : SlotPtr) (val : Val) : (h.setVal p val).objs = h.objs := by
  unfold Clht.setVal
  split <;> rfl

theorem setKey_objs (h : Clht) (p : SlotPtr) (key : Addr) : (h.setKey p key).objs = h.objs := by
  unfold Clht.setKey
  split <;> rfl

/-- A call makes one object at most. -/
theorem Call.create_objs (h : Clht) (call : Call) :
    h.objs.length ≤ (call.create h).1.objs.length := by
  cases call <;> first | exact le_rfl | simp [Call.create, newLock]

/-- A step makes the object that its call makes, or none. -/
theorem objs_cases (hs : go h l pc = some r) :
    r.1.objs = h.objs ∨ r.1.objs = (l.call.create h).1.objs := by
  cases pc <;> dsimp only [go] at hs
  case idle | crash => cases hs
  case seek T b H =>
    split at hs <;> obtain rfl := Option.some.inj hs
    · exact Or.inl rfl
    · exact Or.inr rfl
  case putVal p val =>
    obtain rfl := Option.some.inj hs
    exact Or.inl (setVal_objs h p val)
  case putKey p val =>
    obtain rfl := Option.some.inj hs
    exact Or.inl (setKey_objs h p _)
  case rmKey p val =>
    obtain rfl := Option.some.inj hs
    exact Or.inl (setKey_objs h p _)
  case tasCas p =>
    split at hs
    · obtain rfl := Option.some.inj hs
      exact Or.inl (setVal_objs h p _)
    · split at hs <;> obtain rfl := Option.some.inj hs <;> exact Or.inl rfl
  case tasStore p =>
    obtain rfl := Option.some.inj hs
    exact Or.inl (setVal_objs h p _)
  all_goals first
    | (obtain rfl := Option.some.inj hs; exact Or.inl rfl)
    | (split at hs <;> first
        | (obtain rfl := Option.some.inj hs; exact Or.inl rfl)
        | (split at hs <;> obtain rfl := Option.some.inj hs <;> exact Or.inl rfl))

/-- No object is forgotten. -/
theorem objs_of_go (hs : go h l pc = some r) : h.objs.length ≤ r.1.objs.length := by
  obtain heq | heq := objs_cases hs
  · rw [heq]
  · rw [heq]
    exact Call.create_objs ..

/-- A put makes the object that it is about to enter. -/
theorem made_of_go {key : Addr} {type : PutType} (hcall : l.call = .putType key type)
    {T b H : Nat} (hs : go h l (.seek T b H) = some r) {v : Val} (hv : r.2.pc.value = some v) :
    v = h.objs.length + 1 ∧ r.1.objs = h.objs ++ [type] := by
  dsimp only [go] at hs
  split at hs <;> obtain rfl := Option.some.inj hs
  · exact absurd hv (by simp [Local.goto, Call.present_value])
  · rw [Call.absent_value hv, hcall]
    exact ⟨rfl, rfl⟩

/-- What a thread is about to enter is not there yet. -/
theorem Kept.absent_of_value (hk : Kept c) {u : Tid} {v : Val}
    (hv : (c.loc u).pc.value = some v) (w : Val) :
    ((c.loc u).call.key, w) ∉ c.sh.cur.content := by
  have hknown := hk.known u
  have hno : ∀ {T b : Nat}, Locked c.sh (c.loc u).call.key T b →
      Absent c.sh (c.loc u).call.key T b → ((c.loc u).call.key, w) ∉ c.sh.cur.content := by
    intro T b hl ha hmem
    obtain rfl := hk.cur_of_byte hl.toAt (by rw [hl.byte]; simp)
    have hslot := (mem_entries.mp (hk.mapped.mem_content.mp hmem)).2
    exact ha _ (hl.bin ▸ hslot) rfl
  cases hpc : (c.loc u).pc
  all_goals rw [hpc] at hv hknown
  case expand | link => exact hno hknown.1 hknown.2
  case putVal | putKey => exact hno hknown.1 hknown.2.1
  all_goals cases hv

/-! ## Lookups -/

/-- Where a lookup stands whose address is in the table. -/
def Finds (h : Clht) (key : Addr) : Pc → Prop
  | .idle | .searchVal _ => True
  | .readHt => ∃ v, (key, v) ∈ h.cur.content
  | .search T b i => T < h.numTabs ∧ ∃ j ≥ i, ∃ v, h.slot ⟨T, b, j⟩ = some ⟨key, v⟩
  | .ret x => Entered h.cur.content key x
  | _ => False

/-- The steps of the others do not take the address away. -/
theorem Finds.frame {key : Addr} (hf : Finds h key pc) (hle : h.cur.content ≤ h'.cur.content)
    (hnum : h.numTabs ≤ h'.numTabs)
    (hkeep : ∀ (p : SlotPtr) (v : Val), p.tab < h.numTabs → h.slot p = some ⟨key, v⟩ →
      ∃ w, h'.slot p = some ⟨key, w⟩) : Finds h' key pc := by
  cases pc with
  | readHt =>
      obtain ⟨v, hv⟩ := hf
      exact ⟨v, Multiset.mem_of_le hle hv⟩
  | search T b i =>
      obtain ⟨hT, j, hj, v, hv⟩ := hf
      exact ⟨hT.trans_le hnum, j, hj, hkeep ⟨T, b, j⟩ v hT hv⟩
  | ret x => exact Entered.mono hle hf
  | _ => exact hf

/-- **A lookup finds its address.** -/
theorem Puts.finds_step (hp : Puts c) {key : Addr} (hcall : (c.loc t).call = .get key)
    (hf : Finds c.sh key (c.loc t).pc) (hs : go c.sh (c.loc t) (c.loc t).pc = some r) :
    Finds r.1 key r.2.pc := by
  have hk := hp.kept.known t
  cases hpc : (c.loc t).pc
  all_goals rw [hpc] at hs hf hk
  case idle => cases hs
  case readHt =>
    obtain rfl := Option.some.inj hs
    obtain ⟨v, hv⟩ := hf
    obtain ⟨-, hslot⟩ := mem_entries.mp (hp.kept.mapped.mem_content.mp hv)
    obtain ⟨j, hj⟩ := List.getElem?_of_mem hslot
    rw [hcall]
    exact ⟨hp.kept.excl.cur, j, Nat.zero_le j, v, hj⟩
  case search T b i =>
    obtain ⟨hT, j, hj, v, hv⟩ := hf
    dsimp only [go] at hs
    rw [hcall] at hs
    split at hs
    · next s hslot =>
      split at hs <;> obtain rfl := Option.some.inj hs
      · trivial
      · next hne =>
        refine ⟨hT, j, Nat.lt_of_le_of_ne hj ?_, v, hv⟩
        rintro rfl
        obtain rfl := Option.some.inj (hslot.symm.trans hv)
        exact hne rfl
    · next hend =>
      have hlen : j < ((c.sh.tab T).table b).length := (List.getElem?_eq_some_iff.mp hv).1
      have := List.getElem?_eq_none_iff.mp hend
      omega
  case searchVal p =>
    obtain rfl := Option.some.inj hs
    have hmem := hp.mem_of_points hk
    rw [hcall] at hmem ⊢
    exact ⟨_, rfl, hmem⟩
  case ret x =>
    obtain rfl := Option.some.inj hs
    rw [hcall]
    trivial
  all_goals exact hf.elim

theorem Cont.back_ne_idle (k : Cont) : k.back ≠ .idle := by
  unfold Cont.back
  split <;> simp

/-- A put or a lookup is over when it has returned. -/
theorem idle_of_go (hl : l.pc = pc) (hs : go h l pc = some r)
    (hidle : r.2.pc = .idle) : (∃ x, pc = .ret x) ∨ ∃ p, pc = .tasCas p ∨ pc = .tasStore p := by
  cases pc <;> dsimp only [go] at hs
  case idle | crash => cases hs
  case ret x => exact Or.inl ⟨x, rfl⟩
  case tasCas p => exact Or.inr ⟨p, Or.inl rfl⟩
  case tasStore p => exact Or.inr ⟨p, Or.inr rfl⟩
  case readHt =>
    obtain rfl := Option.some.inj hs
    dsimp only [Local.goto] at hidle
    cases hc : l.call <;> rw [hc] at hidle <;> cases hidle
  case search T b i =>
    split at hs
    · split at hs <;> obtain rfl := Option.some.inj hs <;> dsimp only [Local.goto] at hidle
      · cases hc : l.call <;> rw [hc] at hidle <;> cases hidle
      · cases hidle
    · obtain rfl := Option.some.inj hs
      dsimp only [Local.goto] at hidle
      cases hc : l.call <;> rw [hc] at hidle <;> cases hidle
  case searchVal p =>
    obtain rfl := Option.some.inj hs
    dsimp only [Local.goto, Call.gotVal] at hidle
    split at hidle
    · split at hidle <;> cases hidle
    · cases hidle
  case seek T b H =>
    split at hs <;> obtain rfl := Option.some.inj hs <;> dsimp only [Local.goto] at hidle
    · cases hc : l.call <;> rw [hc] at hidle <;> cases hidle
    · next e _ => cases hc : l.call <;> rw [hc] at hidle <;> cases e <;> cases hidle
  case lockRls T b next =>
    obtain rfl := Option.some.inj hs
    cases next <;> cases hidle
  case statusTry inc k =>
    obtain rfl := Option.some.inj hs
    dsimp only [Local.goto] at hidle
    split at hidle
    · exact absurd hidle k.back_ne_idle
    · cases hidle
  case statusRls k =>
    obtain rfl := Option.some.inj hs
    exact absurd hidle k.close.back_ne_idle
  case resizeTry inc by_ htOld k =>
    split at hs <;> obtain rfl := Option.some.inj hs
    · exact absurd hidle k.back_ne_idle
    · cases hidle
  case resizeRls again k =>
    obtain rfl := Option.some.inj hs
    dsimp only [Local.goto] at hidle
    split at hidle
    · cases hidle
    · exact absurd hidle k.back_ne_idle
  all_goals first
    | (obtain rfl := Option.some.inj hs; cases hidle)
    | (split at hs <;> first
        | (obtain rfl := Option.some.inj hs; first | cases hidle | cases hl.symm.trans hidle)
        | (split at hs <;> obtain rfl := Option.some.inj hs <;> first
            | cases hidle
            | cases hl.symm.trans hidle))

/-! ## The invariant -/

structure Objects (c : Conf Tid Clht Local) : Prop where
  once : Once c
  puts : Puts c
  entry : ∀ k v, (k, v) ∈ c.sh.cur.content → v ≠ 0 ∧ v ≤ c.sh.objs.length
  own : ∀ k k' v, (k, v) ∈ c.sh.cur.content → (k', v) ∈ c.sh.cur.content → k = k'
  value : ∀ u v, (c.loc u).pc.value = some v →
    v ≠ 0 ∧ v ≤ c.sh.objs.length ∧ ∀ k, (k, v) ∉ c.sh.cur.content
  apart : ∀ u w v, (c.loc u).pc.value = some v → (c.loc w).pc.value = some v → u = w
  finds : ∀ u key, (c.loc u).call = .get key → Finds c.sh key (c.loc u).pc

/-- The object that a step makes is new, or the thread has had it before. -/
theorem Objects.value_step (h : Objects c) (hs : go c.sh (c.loc t) (c.loc t).pc = some r) {v : Val}
    (hv : r.2.pc.value = some v) :
    (c.loc t).pc.value = some v ∨
      (c.loc t).pc.value = none ∧ c.sh.objs.length < v ∧ v ≤ r.1.objs.length := by
  obtain hold | ⟨⟨T, b, H, hpc⟩, -⟩ := value_of_go rfl hs hv
  · exact Or.inl hold
  · refine Or.inr ⟨by rw [hpc]; rfl, ?_⟩
    have hcall := (h.once.calls t).resolve_left (by simp [hpc])
    rw [hpc] at hs
    cases hc : (c.loc t).call with
    | putType key type =>
        obtain ⟨hnew, hobjs⟩ := made_of_go hc hs hv
        rw [hnew, hobjs, List.length_append]
        exact ⟨Nat.lt_succ_self _, le_rfl⟩
    | get key =>
        have hf := h.finds t key hc
        rw [hpc] at hf
        exact hf.elim
    | _ =>
        rw [hc] at hcall
        exact hcall.elim

/-- What a call returns is the object of its address. -/
theorem Objects.answer (h : Objects c) {x : Ret} (hpc : (c.loc t).pc = .ret x) :
    Entered c.sh.cur.content (c.loc t).call.key x := by
  have hcall := (h.once.calls t).resolve_left (by simp [hpc])
  cases hc : (c.loc t).call with
  | putType key type =>
      have ha := h.puts.answers t key type hc
      rw [hpc] at ha
      exact ha
  | get key =>
      have hf := h.finds t key hc
      rw [hpc] at hf
      exact hf
  | _ =>
      rw [hc] at hcall
      exact hcall.elim

/-- A step that does not return leaves the thread in its call. -/
theorem Objects.inside (h : Objects c) (hs : go c.sh (c.loc t) (c.loc t).pc = some r)
    (hret : ∀ x, (c.loc t).pc ≠ .ret x) : r.2.pc ≠ .idle := by
  intro hidle
  have hk := h.puts.kept.known t
  obtain ⟨x, hx⟩ | ⟨p, hp⟩ := idle_of_go rfl hs hidle
  · exact hret x hx
  · have hcall := (h.once.calls t).resolve_left (by rcases hp with hp | hp <;> simp [hp])
    have hmaps := Call.maps_of_pointers hcall
    rcases hp with hp | hp <;> rw [hp] at hk
    · exact absurd hk.2 (by simp [Call.takes_of_maps hmaps])
    · exact absurd hk.2 (by simp [Call.gives_of_maps hmaps])

/-- The log only grows. -/
theorem log_subset (hs : go h l pc = some r) : l.log ⊆ r.2.log := by
  obtain hsame | ⟨x, hcons, -⟩ := log_of_go hs
  · exact hsame ▸ List.Subset.refl _
  · rw [hcons]
    exact List.subset_cons_self ..

variable [DecidableEq Tid]

/-- What the entry that a step adds is. -/
theorem Objects.content_step (h : Objects c) (hok : Counted c t .go)
    (hs : go c.sh (c.loc t) (c.loc t).pc = some r) :
    r.1.cur.content = c.sh.cur.content ∨ ∃ v, (c.loc t).pc.value = some v ∧
      r.2.pc.value = none ∧ r.1.cur.content = ((c.loc t).call.key, v) ::ₘ c.sh.cur.content := by
  have hcall := (h.once.calls t).resolve_left (by rintro hidle; rw [hidle] at hs; cases hs)
  have hmaps := Call.maps_of_pointers hcall
  obtain ⟨hkept, heff⟩ := h.puts.kept.step (h.puts.careful (h.once.fresh hok)) hs
  cases heff with
  | same hpost hheld => exact Or.inl hpost
  | adds v hv hnew hpost hheld =>
      refine Or.inr ⟨v, hv, ?_, hpost⟩
      -- a thread that still has something to enter has entered nothing
      by_contra hsome
      obtain ⟨w, hw⟩ := Option.ne_none_iff_exists'.mp hsome
      have hself : (c.put t r).loc t = r.2 := put_loc_self ..
      refine hkept.absent_of_value (u := t) (by rw [hself]; exact hw) v ?_
      rw [hself, call_of_go hs, put_sh, hpost]
      exact Multiset.mem_cons_self ..
  | takes m htakes hpre hpost hheld =>
      exact absurd htakes (by simp [Call.takes_of_maps hmaps])
  | gives v m hgives hpre hpost hheld =>
      exact absurd hgives (by simp [Call.gives_of_maps hmaps])

/-- No entry is lost. -/
theorem Objects.grows (h : Objects c) (hok : Counted c t .go)
    (hs : go c.sh (c.loc t) (c.loc t).pc = some r) : c.sh.cur.content ≤ r.1.cur.content := by
  obtain heq | ⟨v, -, -, hcons⟩ := h.content_step hok hs
  · exact heq.ge
  · rw [hcons]
    exact Multiset.le_cons_self ..

/-- **Every step keeps the invariant.** -/
theorem Objects.step (h : Objects c) (hok : Counted c t .go)
    (hs : go c.sh (c.loc t) (c.loc t).pc = some r) : Objects (c.put t r) := by
  have hself : (c.put t r).loc t = r.2 := put_loc_self ..
  have hputs := h.puts.step (h.once.fresh hok) hs
  have hlen : c.sh.objs.length ≤ r.1.objs.length := objs_of_go hs
  have hcontent := h.content_step hok hs
  have hle := h.grows hok hs
  -- an entry is an old one, or that of the thread
  have hmem : ∀ k v, (k, v) ∈ r.1.cur.content → (k, v) ∈ c.sh.cur.content ∨
      (c.loc t).pc.value = some v ∧ r.2.pc.value = none ∧ k = (c.loc t).call.key := by
    intro k v hkv
    obtain heq | ⟨w, hw, hnone, hcons⟩ := hcontent
    · exact Or.inl (heq ▸ hkv)
    · rw [hcons] at hkv
      obtain heq | hold := Multiset.mem_cons.mp hkv
      · obtain ⟨rfl, rfl⟩ := Prod.mk.inj heq
        exact Or.inr ⟨hw, hnone, rfl⟩
      · exact Or.inl hold
  refine ⟨h.once.step h.puts hok hs, hputs, ?_, ?_, ?_, ?_, ?_⟩
  · intro k v hkv
    obtain hold | ⟨hv, -, -⟩ := hmem k v hkv
    · exact ⟨(h.entry k v hold).1, (h.entry k v hold).2.trans hlen⟩
    · exact ⟨(h.value t v hv).1, (h.value t v hv).2.1.trans hlen⟩
  · intro k k' v hkv hkv'
    obtain hold | ⟨hv, -, rfl⟩ := hmem k v hkv
    · obtain hold' | ⟨hv', -, -⟩ := hmem k' v hkv'
      · exact h.own k k' v hold hold'
      · exact absurd hold ((h.value t v hv').2.2 k)
    · obtain hold' | ⟨-, -, rfl⟩ := hmem k' v hkv'
      · exact absurd hold' ((h.value t v hv).2.2 k')
      · rfl
  · intro u v hv
    by_cases hut : u = t
    · subst hut
      rw [hself] at hv
      obtain hold | ⟨hnone, hnew, hle'⟩ := h.value_step hs hv
      · obtain ⟨h0, hobj, hno⟩ := h.value u v hold
        refine ⟨h0, hobj.trans hlen, fun k hk => ?_⟩
        obtain hk | ⟨-, hnone, -⟩ := hmem k v hk
        · exact hno k hk
        · rw [hnone] at hv
          cases hv
      · refine ⟨Nat.ne_zero_of_lt hnew, hle', fun k hk => ?_⟩
        obtain hk | ⟨hsome, -, -⟩ := hmem k v hk
        · exact absurd (h.entry k v hk).2 (Nat.not_le.mpr hnew)
        · rw [hnone] at hsome
          cases hsome
    · rw [put_loc_ne c r hut] at hv
      obtain ⟨h0, hobj, hno⟩ := h.value u v hv
      refine ⟨h0, hobj.trans hlen, fun k hk => ?_⟩
      obtain hk | ⟨hsome, -, -⟩ := hmem k v hk
      · exact hno k hk
      · exact hut (h.apart u t v hv hsome)
  · intro u w v hu hw
    by_cases hut : u = t
    · by_cases hwt : w = t
      · exact hut.trans hwt.symm
      · subst hut
        rw [hself] at hu
        rw [put_loc_ne c r hwt] at hw
        obtain hold | ⟨-, hnew, -⟩ := h.value_step hs hu
        · exact h.apart u w v hold hw
        · exact absurd (h.value w v hw).2.1 (Nat.not_le.mpr hnew)
    · rw [put_loc_ne c r hut] at hu
      by_cases hwt : w = t
      · subst hwt
        rw [hself] at hw
        obtain hold | ⟨-, hnew, -⟩ := h.value_step hs hw
        · exact h.apart u w v hu hold
        · exact absurd (h.value u v hu).2.1 (Nat.not_le.mpr hnew)
      · rw [put_loc_ne c r hwt] at hw
        exact h.apart u w v hu hw
  · intro u key hcall
    by_cases hut : u = t
    · subst hut
      rw [hself] at hcall ⊢
      have hcall' := (call_of_go hs).symm.trans hcall
      exact h.puts.finds_step hcall' (h.finds u key hcall') hs
    · rw [put_loc_ne c r hut] at hcall ⊢
      obtain hidle | hpointers := h.once.calls u
      · rw [hidle]
        trivial
      · rw [hcall] at hpointers
        exact (h.finds u key hcall).frame hle (numTabs_of_go rfl hs) fun p v hp hslot =>
          persists_of_go (h.puts.kept.known t) hs hp hpointers hslot

/-! ## Every run -/

/-- A call begins; a lookup only of what the thread has put before. -/
theorem Objects.begin (h : Objects c) (hidle : (c.loc t).pc = .idle) {call : Call}
    (hcall : call.pointers) (hfollows : call.follows (c.loc t)) :
    Objects (c.put t (c.sh, { c.loc t with pc := call.entry, call := call })) := by
  have hself := put_loc_self c t (c.sh, { c.loc t with pc := call.entry, call := call })
  have hentry : call.entry = .readHt := by
    cases call <;> first | rfl | exact hcall.elim
  have hold : ∀ u v, ((c.put t (c.sh, { c.loc t with pc := call.entry, call := call })).loc
      u).pc.value = some v → (c.loc u).pc.value = some v := by
    intro u v hv
    by_cases hut : u = t
    · subst hut
      rw [hself, hentry] at hv
      cases hv
    · rwa [put_loc_ne _ _ hut] at hv
  refine ⟨h.once.begin hcall, h.puts.begin hidle (Call.maps_of_pointers hcall), h.entry, h.own,
    fun u v hv => h.value u v (hold u v hv),
    fun u w v hu hw => h.apart u w v (hold u v hu) (hold w v hw), ?_⟩
  intro u key hu
  by_cases hut : u = t
  · subst hut
    rw [hself] at hu ⊢
    rw [hentry]
    obtain rfl : call = .get key := hu
    obtain ⟨type, x, hlog⟩ := hfollows
    obtain ⟨v, -, hv⟩ := h.puts.log u key type x hlog
    exact ⟨v, hv⟩
  · rw [put_loc_ne _ _ hut] at hu ⊢
    exact h.finds u key hu

omit [DecidableEq Tid] in
/-- A new table. -/
theorem Init.objects {n : Nat} (h : Init n c) : Objects c := by
  have hempty : c.sh.cur.content = 0 := by
    obtain ⟨T, hT, hsh⟩ := Option.map_eq_some_iff.mp h.sh
    obtain ⟨-, -, hc0, -⟩ := clhtLpHashtableCreate_some hT
    rw [← hsh]
    exact hc0
  have hno : ∀ {k : Addr} {v : Val}, (k, v) ∉ c.sh.cur.content := by
    intro k v
    rw [hempty]
    exact Multiset.notMem_zero _
  have hvalue : ∀ u, (c.loc u).pc.value = none := by
    intro u
    rw [(h.loc u).1]
    rfl
  refine ⟨h.once, h.puts, fun k v hkv => absurd hkv hno, fun k k' v hkv => absurd hkv hno, ?_, ?_,
    ?_⟩
  · intro u v hv
    rw [hvalue] at hv
    cases hv
  · intro u w v hu
    rw [hvalue] at hu
    cases hu
  · intro u key _
    rw [(h.loc u).1]
    trivial

/-- **Run lemma.** -/
theorem objects_of_reach {n : Nat} (h : Reach prog Counted (Init n) c) : Objects c := by
  refine Reach.invariant (fun _ h0 => h0.objects) ?_ h
  intro c t a r hc hok hs
  obtain ⟨call, rfl, hidle, -, rfl⟩ | ⟨rfl, hs⟩ := prog_cases hs
  · exact hc.begin hidle hok.1 hok.2
  · exact hc.step hok hs

end ClhtLpConc
