import Lockin.ClhtLpAlone

/-! # The calls of a single thread

    The other modules about the table that many threads use are about what all interleavings
    have in common.  This one is about the runs in which one thread makes all the calls: in
    each of them the steps of `ClhtLpConc` amount to the functions of `ClhtLp`, one after the
    other, and so the calls return what they would return from a map (`alone_refines_map`).
    `clht_lp_put_type`, `clht_lp_put_init`, `clht_lp_put_in`, `clht_lp_get`, `clht_lp_remove`
    and `ht_resize_pes` can be called in any order. -/

namespace ClhtLpConc

open Interleaving SlotTable ClhtLp

variable {Tid : Type} {h h' : Clht} {l : Local}

/-- The call as a function of `ClhtLp`. -/
def Call.fn : Call → Option ClhtLp.Call
  | .putType key type => some (.putType key type)
  | .putInit key => some (.putInit key)
  | .putIn key => some (.putIn key)
  | .remove key => some (.remove key)
  | .get key => some (.get key)
  | .resizePes isIncrease by_ => some (.resize isIncrease by_)
  | _ => none

/-- What a function of `ClhtLp` returns, as the return of a call. -/
def Ret.of : ClhtLp.Ret → Ret
  | .val v => .val v
  | .int i => .num i.toNat
  | .ptr (some p) => .ptr p
  | .ptr none => .val 0

/-! ## One call -/

/-- The search under the lock finds what the search without it would find. -/
theorem seek_of_findSlot {key : Addr} {ch : Chain Addr Val} {i : Nat}
    (hfind : findSlot key ch = some i) : seek key ch 0 none = .found i := by
  suffices hgo : ∀ (ch : Chain Addr Val) (n : Nat) (e : Option Nat) (i : Nat),
      findSlot key ch = some i → seek key ch n e = .found (n + i) by
    have hfound := hgo ch 0 none i hfind
    rwa [Nat.zero_add] at hfound
  intro ch
  induction ch with
  | nil =>
      intro n e i hi
      cases hi
  | cons s rest ih =>
      intro n e i hi
      rw [findSlot, List.findIdx?_cons] at hi
      unfold seek
      split at hi
      · next hkey =>
        obtain rfl := Option.some.inj hi
        exact if_pos (by simpa using hkey)
      · next hkey =>
        obtain ⟨j, hj, rfl⟩ := Option.map_eq_some_iff.mp hi
        rw [if_neg (by simpa using hkey), ih _ _ j hj]
        exact congrArg Seek.found (by omega)

theorem seek_of_findSlot_none {key : Addr} {ch : Chain Addr Val}
    (hfind : findSlot key ch = none) : ∃ e, seek key ch 0 none = .absent e := by
  have hspec := seek_spec key ch
  cases hseek : seek key ch 0 none with
  | absent e => exact ⟨e, rfl⟩
  | found i =>
      rw [hseek] at hspec
      obtain ⟨v, hv⟩ := hspec
      exact absurd rfl (findSlot_none hfind _ (List.mem_of_getElem? hv))

/-- **`clht_lp_put_init`.** -/
theorem clhtLpPutInit_goes {fuel : Nat} (hi : Idle h) {key : Addr} (hcall : l.call = .putInit key)
    {i : Int} (hput : clhtLpPutInit fuel h key = (h', some i)) :
    Goes (h, l.goto .readHt) (h', l.goto (.ret (.num i.toNat))) := by
  obtain ⟨hh', hres⟩ := Prod.mk.inj hput
  obtain ⟨res, hrun, rfl⟩ := Option.map_eq_some_iff.mp hres
  have hlocked : putLocked fuel h l.call.key h.ht (clhtLpHash h.cur l.call.key) l.call.create
      = (h', some res) := by
    rw [hcall]
    exact Prod.ext hh' hrun
  have hgoes := putLocked_goes hi (by rw [hcall]; trivial) hlocked
  have hbegun : Goes (h, l.goto .readHt)
      (h, l.goto (.lockAcq h.ht (clhtLpHash h.cur l.call.key) h.ht)) := by
    refine .head rfl ?_ (.refl _)
    dsimp only [go, Local.goto]
    rw [hcall]
    rfl
  refine hbegun.trans ?_
  rw [hcall] at hgoes ⊢
  cases res <;> exact hgoes

/-- **`clht_lp_put_in`.** -/
theorem clhtLpPutIn_goes {fuel : Nat} (hi : Idle h) {key : Addr} (hcall : l.call = .putIn key)
    {p : SlotPtr} (hput : clhtLpPutIn fuel h key = (h', some p)) :
    Goes (h, l.goto .readHt) (h', l.goto (.ret (.ptr p))) := by
  have hlookup := lookup_goes (h := h) (l := l) (by rw [hcall]; exact fun _ _ => rfl)
  refine hlookup.trans ?_
  rw [hcall]
  dsimp only [Call.key]
  unfold clhtLpPutIn clhtLpGetIn at hput
  cases hfind : findSlot key (h.cur.table (clhtLpHash h.cur key)) with
  | some i =>
      rw [hfind] at hput
      obtain ⟨rfl, hp⟩ := Prod.mk.inj hput
      obtain rfl := Option.some.inj hp
      exact .refl _
  | none =>
      rw [hfind] at hput
      obtain ⟨hh', hres⟩ := Prod.mk.inj hput
      obtain ⟨res, hrun, rfl⟩ := Option.map_eq_some_iff.mp hres
      have hlocked : putLocked fuel h l.call.key h.ht (clhtLpHash h.cur l.call.key) l.call.create
          = (h', some res) := by
        rw [hcall]
        exact Prod.ext hh' hrun
      have hgoes := putLocked_goes hi (by rw [hcall]; trivial) hlocked
      rw [hcall] at hgoes
      cases res <;> exact hgoes

/-- **`clht_lp_remove`.** -/
theorem clhtLpRemove_goes (hi : Idle h) {key : Addr} (hcall : l.call = .remove key)
    {v : Val} (hremove : clhtLpRemove h key = (h', some v)) :
    Goes (h, l.goto .readHt) (h', l.goto (.ret (.val v))) := by
  have hbegun : Goes (h, l.goto .readHt)
      (h, l.goto (.lockAcq h.ht (clhtLpHash h.cur key) h.ht)) := by
    refine .head rfl ?_ (.refl _)
    dsimp only [go, Local.goto]
    rw [hcall]
    rfl
  refine hbegun.trans ((lock_goes hi _).trans ?_)
  unfold clhtLpRemove at hremove
  rw [lockAcq_ready hi] at hremove
  dsimp only at hremove
  generalize clhtLpHash h.cur key = b at hremove ⊢
  generalize hg : h.setLock h.ht b .update = g at hremove ⊢
  have hkey : l.call.key = key := by rw [hcall]; rfl
  cases hfind : findSlot key ((g.tab h.ht).table b) with
  | some i =>
      rw [hfind] at hremove
      obtain ⟨rfl, hv⟩ := Prod.mk.inj hremove
      obtain rfl := Option.some.inj hv
      obtain ⟨w, hw⟩ := findSlot_some hfind
      have hseek : seek (l.goto (.seek h.ht b h.ht)).call.key ((g.tab h.ht).table b) 0 none
          = .found i := by
        rw [← seek_of_findSlot hfind, ← hkey]
        rfl
      have hfound : go g (l.goto (.seek h.ht b h.ht)) (.seek h.ht b h.ht)
          = some (g, l.goto (.rmVal ⟨h.ht, b, i⟩)) := by
        dsimp only [go]
        rw [hseek]
        dsimp only [Local.goto]
        rw [hcall]
        rfl
      have hval : g.read ⟨h.ht, b, i⟩ = slotVal ((g.tab h.ht).table b) i := rfl
      have hclear : g.setKey ⟨h.ht, b, i⟩ 0 = g.setTab h.ht ((g.tab h.ht).setChain b
          (((g.tab h.ht).table b).set i ⟨0, slotVal ((g.tab h.ht).table b) i⟩)) := by
        have hslot : g.slot ⟨h.ht, b, i⟩ = some ⟨key, w⟩ := hw
        unfold Clht.setKey
        rw [hslot, slotVal_of hw]
        rfl
      rw [← hclear, ← hval]
      exact .head rfl hfound (.head (p := .rmVal _) rfl rfl (.head (p := .rmKey _ _) rfl rfl
        (.head (p := .lockRls _ _ _) rfl rfl (.refl _))))
  | none =>
      rw [hfind] at hremove
      obtain ⟨rfl, hv⟩ := Prod.mk.inj hremove
      obtain rfl := Option.some.inj hv
      obtain ⟨e, hseek⟩ := seek_of_findSlot_none hfind
      have hseek' : seek (l.goto (.seek h.ht b h.ht)).call.key ((g.tab h.ht).table b) 0 none
          = .absent e := by
        rw [← hseek, ← hkey]
        rfl
      have habsent : go g (l.goto (.seek h.ht b h.ht)) (.seek h.ht b h.ht)
          = some (g, l.goto (.lockRls h.ht b (.ret (.val 0)))) := by
        dsimp only [go]
        rw [hseek']
        dsimp only [Local.goto]
        rw [hcall]
        rfl
      exact .head rfl habsent (.head (p := .lockRls _ _ _) rfl rfl (.refl _))

/-- **`ht_resize_pes`**, called by the user. -/
theorem htResizePes_goes {fuel : Nat} (hi : Idle h) {isIncrease : Bool} {by_ : Int}
    (hcall : l.call = .resizePes isIncrease by_) {x : Int}
    (hres : htResizePes (htStatus fuel · true) h isIncrease by_ = (h', some x)) :
    Goes (h, l.goto (.resizeHt isIncrease by_ ⟨0, .num 0⟩)) (h', l.goto (.ret (.num x.toNat))) := by
  have hsized : ∀ size, (Cont.won ⟨0, .num 0⟩).sized l.call size = Cont.won ⟨0, .num 0⟩ := by
    intro size
    rw [hcall]
    rfl
  have hgoes := ((htStatus_goes fuel).resize hsized hi.next hres).2
  have hx : x = 0 ∨ x = 1 := by
    unfold htResizePes at hres
    split at hres
    · exact Or.inl (Option.some.inj (Prod.mk.inj hres).2).symm
    · refine Or.inr ?_
      dsimp only at hres
      split at hres
      · cases (Prod.mk.inj hres).2
      · split at hres
        · cases (Prod.mk.inj hres).2
        · split at hres
          · obtain ⟨-, -, hone⟩ := Option.map_eq_some_iff.mp (Prod.mk.inj hres).2
            exact hone.symm
          · exact (Option.some.inj (Prod.mk.inj hres).2).symm
  obtain rfl | rfl := hx
  · exact hgoes
  · exact hgoes

/-- **One call**, alone, does what its function does. -/
theorem call_goes {fuel : Nat} (hi : Idle h) {f : ClhtLp.Call} (hf : l.call.fn = some f)
    {r : ClhtLp.Ret} (hrun : call fuel h f = (h', some r)) :
    Goes (h, l.goto l.call.entry) (h', l.goto (.ret (Ret.of r))) := by
  cases hcall : l.call with
  | putType key type =>
      rw [hcall] at hf
      obtain rfl := Option.some.inj hf
      obtain ⟨hh', hres⟩ := Prod.mk.inj hrun
      obtain ⟨v, hv, rfl⟩ := Option.map_eq_some_iff.mp hres
      exact clhtLpPutType_goes hi hcall (Prod.ext hh' hv)
  | putInit key =>
      rw [hcall] at hf
      obtain rfl := Option.some.inj hf
      obtain ⟨hh', hres⟩ := Prod.mk.inj hrun
      obtain ⟨i, hv, rfl⟩ := Option.map_eq_some_iff.mp hres
      exact clhtLpPutInit_goes hi hcall (Prod.ext hh' hv)
  | putIn key =>
      rw [hcall] at hf
      obtain rfl := Option.some.inj hf
      obtain ⟨hh', hres⟩ := Prod.mk.inj hrun
      obtain ⟨p, hv, rfl⟩ := Option.map_eq_some_iff.mp hres
      exact clhtLpPutIn_goes hi hcall (Prod.ext hh' hv)
  | remove key =>
      rw [hcall] at hf
      obtain rfl := Option.some.inj hf
      obtain ⟨hh', hres⟩ := Prod.mk.inj hrun
      obtain ⟨v, hv, rfl⟩ := Option.map_eq_some_iff.mp hres
      exact clhtLpRemove_goes hi hcall (Prod.ext hh' hv)
  | get key =>
      rw [hcall] at hf
      obtain rfl := Option.some.inj hf
      obtain ⟨rfl, hv⟩ := Prod.mk.inj hrun
      obtain rfl := Option.some.inj hv
      exact clhtLpGet_goes hcall
  | resizePes isIncrease by_ =>
      rw [hcall] at hf
      obtain rfl := Option.some.inj hf
      obtain ⟨hh', hres⟩ := Prod.mk.inj hrun
      obtain ⟨x, hv, rfl⟩ := Option.map_eq_some_iff.mp hres
      exact htResizePes_goes hi hcall (Prod.ext hh' hv)
  | status _ | lockTasIn _ | trylockTasIn _ | unlockTasIn _ =>
      rw [hcall] at hf
      cases hf

/-! ## Every run of one thread -/

/-- What has returned, the last call first, is what the functions have returned. -/
def Logged (log : List (Call × Ret)) (tr : List (ClhtLp.Call × ClhtLp.Ret)) : Prop :=
  log.reverse.map (fun x => (x.1.fn, x.2)) = tr.map fun x => (some x.1, Ret.of x.2)

theorem Logged.snoc {log : List (Call × Ret)} {tr : List (ClhtLp.Call × ClhtLp.Ret)}
    (hlog : Logged log tr) {call : Call} {f : ClhtLp.Call} (hf : call.fn = some f)
    (r : ClhtLp.Ret) : Logged ((call, Ret.of r) :: log) (tr ++ [(f, r)]) := by
  unfold Logged at hlog ⊢
  rw [List.reverse_cons, List.map_append, List.map_append, hlog]
  simp [hf]

/-- The function may be called, and resizes no table of more than `2 ^ 31` buckets. -/
def Callable (fuel : Nat) (h : Clht) : Option ClhtLp.Call → Prop
  | some f => Allowed h f ∧ Fits (ClhtLp.call fuel h f).1
  | none => False

instance (h : Clht) : Decidable (Fits h) := inferInstanceAs (Decidable (∀ l ∈ h.out, l.1 ≤ 2 ^ 31))

instance (fuel : Nat) (h : Clht) : (f : Option ClhtLp.Call) → Decidable (Callable fuel h f)
  | some f => inferInstanceAs (Decidable (Allowed h f ∧ Fits (ClhtLp.call fuel h f).1))
  | none => isFalse id

/-- Only `t` moves. -/
def Alone (fuel : Nat) (t : Tid) (c : Conf Tid Clht Local) (u : Tid) : Act → Prop
  | .start call => u = t ∧ Callable fuel c.sh call.fn
  | .go => u = t

/-- Where the thread is: between two calls, or on its way to the return of one. -/
inductive Stand (fuel numBuckets : Nat) : Clht × Local → Prop where
  | between {tr h l} : l.pc = .idle → Calls fuel numBuckets tr h → Fits h → Logged l.log tr →
      Stand fuel numBuckets (h, l)
  | during {tr h f r h' l y} : Calls fuel numBuckets tr h → Allowed h f →
      ClhtLp.call fuel h f = (h', some r) → Fits h' → l.pc = .ret (Ret.of r) →
      l.call.fn = some f → Logged l.log tr → Goes y (h', l) → Stand fuel numBuckets y

/-- The return of a call that has a function. -/
theorem Call.returned_fn {f : ClhtLp.Call} (hf : l.call.fn = some f) (r : Ret) :
    l.call.returned l r = l.finish r := by
  cases hcall : l.call with
  | lockTasIn _ | trylockTasIn _ =>
      rw [hcall] at hf
      cases hf
  | _ => rfl

/-- A call begins. -/
theorem Stand.begin {fuel n : Nat} (hf : 40 ≤ fuel) (hat : Stand fuel n (h, l))
    (hidle : l.pc = .idle) {call : Call} {f : ClhtLp.Call} (hfn : call.fn = some f)
    (hallowed : Allowed h f) (hfits : Fits (ClhtLp.call fuel h f).1) :
    Stand fuel n (h, { l with pc := call.entry, call := call }) := by
  cases hat with
  | between _ hcalls hfits' hlog =>
      obtain ⟨d, -, hrep⟩ := hcalls.rep hf hfits'
      obtain ⟨r, -, hret, -⟩ := call_spec hf hrep hallowed hfits
      have hrun : ClhtLp.call fuel h f = ((ClhtLp.call fuel h f).1, some r) := Prod.ext rfl hret
      have hgoes := call_goes (l := { l with call := call }) hrep.toIdle hfn hrun
      exact .during (l := { l with pc := .ret (Ret.of r), call := call }) hcalls hallowed hrun
        hfits rfl hfn hlog hgoes
  | during hcalls hallowed' hrun hfits' hpc hfn' hlog hgoes =>
      -- no step leads on from a thread that is idle
      obtain heq | ⟨y, hstep, -⟩ := Relation.ReflTransGen.cases_head hgoes
      · obtain ⟨-, rfl⟩ := Prod.mk.inj heq
        rw [hidle] at hpc
        cases hpc
      · have hno := hstep.1
        dsimp only at hno
        rw [hidle] at hno
        cases hno

/-- **Step lemma.** -/
theorem Stand.go {fuel n : Nat} (hat : Stand fuel n (h, l)) {y : Clht × Local}
    (hs : ClhtLpConc.go h l l.pc = some y) : Stand fuel n y := by
  cases hat with
  | between hidle =>
      rw [hidle] at hs
      cases hs
  | during hcalls hallowed hrun hfits hpc hfn hlog hgoes =>
      obtain heq | ⟨z, hstep, hrest⟩ := Relation.ReflTransGen.cases_head hgoes
      · obtain ⟨rfl, rfl⟩ := Prod.mk.inj heq
        rw [hpc] at hs
        obtain rfl := Option.some.inj hs
        rw [Call.returned_fn hfn]
        exact .between rfl (hcalls.snoc hallowed hrun) hfits (hlog.snoc hfn _)
      · obtain rfl := Option.some.inj (hstep.1.symm.trans hs)
        exact .during hcalls hallowed hrun hfits hpc hfn hlog hrest

/-- Every step that a thread can take by itself is one of the program. -/
theorem Goes.solo {t : Tid} {x y : Clht × Local} (hgoes : Goes x y) : Solo prog t x y := by
  refine Relation.ReflTransGen.mono ?_ x y hgoes
  exact fun _ _ hstep => ⟨.go, hstep.1⟩

/-- The thread comes back from its call. -/
theorem Stand.returns {fuel n : Nat} {x : Clht × Local} (hat : Stand fuel n x) (t : Tid) :
    ∃ y, Solo prog t x y ∧ y.2.pc = .idle := by
  cases hat with
  | between hidle => exact ⟨_, .refl, hidle⟩
  | @during _ _ _ r h' l _ _ _ _ _ hpc hfn _ hgoes =>
      refine ⟨(h', l.finish (Ret.of r)), hgoes.solo.trans (.single .go ?_), rfl⟩
      show ClhtLpConc.go h' l l.pc = _
      rw [hpc, ← Call.returned_fn hfn]
      rfl

variable [DecidableEq Tid]

/-- **One thread sees a map.**  In every run in which one thread makes all the calls, every
    call comes back, and between two calls the calls have returned what they would have
    returned from a map, which is what the table stores. -/
theorem alone_refines_map {fuel n : Nat} (hf : 40 ≤ fuel) {t : Tid} {c : Conf Tid Clht Local}
    (hreach : Reach prog (Alone fuel t) (Init n) c) :
    (∃ y, Solo prog t (c.sh, c.loc t) y ∧ y.2.pc = .idle) ∧
      ((c.loc t).pc = .idle → ∃ tr d, Logged (c.loc t).log tr ∧ SpecRun tr d ∧
        Represents c.sh d) := by
  have hat : Stand fuel n (c.sh, c.loc t) := by
    refine hreach.invariant (I := fun c => Stand fuel n (c.sh, c.loc t)) ?_ ?_
    · intro c hinit
      obtain ⟨hidle, -, hlog⟩ := hinit.loc t
      have hout : c.sh.out = [] := by
        obtain ⟨T, -, hT⟩ := Option.map_eq_some_iff.mp hinit.sh
        rw [← hT]
      refine .between hidle (.create hinit.sh) ?_ (by rw [hlog]; rfl)
      intro line hline
      rw [hout] at hline
      cases hline
    · intro c u a r hat hok hs
      obtain ⟨call, rfl, hidle, -, rfl⟩ | ⟨rfl, hgo⟩ := prog_cases hs
      · obtain ⟨rfl, hcall⟩ := hok
        rw [put_sh, put_loc_self]
        cases hfn : call.fn with
        | none =>
            rw [hfn] at hcall
            exact hcall.elim
        | some f =>
            rw [hfn] at hcall
            exact hat.begin hf hidle hfn hcall.1 hcall.2
      · obtain rfl : u = t := hok
        rw [put_sh, put_loc_self]
        exact hat.go hgo
  refine ⟨hat.returns t, fun hidle => ?_⟩
  generalize c.sh = h at hat ⊢
  generalize c.loc t = l at hat hidle ⊢
  cases hat with
  | between _ hcalls hfits hlog =>
      obtain ⟨d, hrun, hrep⟩ := hcalls.rep hf hfits
      exact ⟨_, d, hlog, hrun, hrep.represents⟩
  | during _ _ _ _ hpc _ _ hgoes =>
      obtain heq | ⟨y, hstep, -⟩ := Relation.ReflTransGen.cases_head hgoes
      · obtain ⟨-, rfl⟩ := Prod.mk.inj heq
        rw [hidle] at hpc
        cases hpc
      · have hno := hstep.1
        dsimp only at hno
        rw [hidle] at hno
        cases hno

instance (fuel : Nat) (t : Bool) (c : Conf Bool Clht Local) (u : Bool) :
    (a : Act) → Decidable (Alone fuel t c u a)
  | .start call => inferInstanceAs (Decidable (u = t ∧ Callable fuel c.sh call.fn))
  | .go => inferInstanceAs (Decidable (u = t))

/-- Outside all calls. -/
def Pc.isIdle : Pc → Bool
  | .idle => true
  | _ => false

theorem Pc.idle_of_isIdle {p : Pc} (hp : p.isIdle = true) : p = .idle := by
  cases p <;> first | rfl | cases hp

/-- Two puts, a resize, a removal and a lookup. -/
def history : List (Bool × Act) :=
  calls true (.putType 4 .ticket) 12 ++ calls true (.putIn 8) 11 ++
    calls true (.resizePes true 2) 13 ++ calls true (.remove 4) 7 ++ calls true (.get 4) 6

theorem alone_refines_map_history : ∃ c : Conf Bool Clht Local,
    Reach prog (Alone 40 true) (Init 1) c ∧ (c.loc true).pc = .idle ∧ c.sh.ht = 1 ∧
      (c.loc true).log.map Prod.snd = [.val 0, .val 1, .num 1, .ptr ⟨0, 0, 1⟩, .val 1] ∧
      ∃ tr d, Logged (c.loc true).log tr ∧ SpecRun tr d ∧ Represents c.sh d := by
  have hrun : ((start 1).bind fun c => exec prog (Alone 40 true) c history).any
      (fun c => decide ((c.loc true).pc.isIdle = true ∧ c.sh.ht = 1 ∧
        (c.loc true).log.map Prod.snd = [.val 0, .val 1, .num 1, .ptr ⟨0, 0, 1⟩, .val 1]))
          = true := by
    decide +kernel
  obtain ⟨c, hc, hP⟩ := reach_of_start hrun
  obtain ⟨hidle, hht, hlog⟩ := of_decide_eq_true hP
  have hout := Pc.idle_of_isIdle hidle
  exact ⟨c, hc, hout, hht, hlog, (alone_refines_map le_rfl hc).2 hout⟩

end ClhtLpConc
