import Lockin.ClhtLpPuts

/-! # A thread that runs alone

    While the others stand still, the steps of a thread come to what the functions of `ClhtLp`
    say: `clhtLpPutType_goes`, `clhtLpGet_goes` and `htStatus_goes`, and for a part of a call
    `insert_goes`, `status_goes` and `resize_goes`.  The last one is also about a resizer that
    has read a table which has been superseded since; where all its bytes are in resize state,
    `copyBuckets_resized` says that nothing is copied. -/

namespace ClhtLpConc

open Interleaving SlotTable ClhtLp

variable {h : Clht} {l : Local}

/-- About to return. -/
def Pc.returns : Pc → Bool
  | .ret _ => true
  | _ => false

/-- A step of a thread that has not returned. -/
def Advances (x y : Clht × Local) : Prop :=
  go x.1 x.2 x.2.pc = some y ∧ x.2.pc.returns = false

/-- A thread goes from `x` to `y` by itself. -/
def Goes : Clht × Local → Clht × Local → Prop := Relation.ReflTransGen Advances

theorem Goes.trans {x y z : Clht × Local} (hxy : Goes x y) (hyz : Goes y z) : Goes x z :=
  Relation.ReflTransGen.trans hxy hyz

/-- The first step. -/
theorem Goes.head {p : Pc} {y z : Clht × Local} (hret : p.returns = false)
    (hs : go h (l.goto p) p = some y) (hyz : Goes y z) : Goes (h, l.goto p) z :=
  Relation.ReflTransGen.head ⟨hs, hret⟩ hyz

theorem Goes.refl (x : Clht × Local) : Goes x x := Relation.ReflTransGen.refl

/-! ## The search without the lock -/

/-- The search without the lock, of a key that is not there. -/
theorem search_missed {T b : Nat} (habs : ∀ s ∈ (h.tab T).table b, s.key ≠ l.call.key) (i : Nat) :
    Goes (h, l.goto (.search T b i)) (h, l.goto (l.call.missed T b)) := by
  -- on the slots that are left
  induction hn : ((h.tab T).table b).length - i generalizing i with
  | zero =>
      have hend : ((h.tab T).table b)[i]? = none := List.getElem?_eq_none_iff.mpr (by omega)
      refine .head rfl ?_ (.refl _)
      dsimp only [go]
      rw [hend]
      rfl
  | succ n ih =>
      have hlt : i < ((h.tab T).table b).length := by omega
      have hslot := List.getElem?_eq_getElem hlt
      have hne := habs _ (List.getElem_mem hlt)
      refine .head rfl ?_ (ih (i + 1) (by omega))
      dsimp only [go]
      rw [hslot]
      exact if_neg hne

/-- The search without the lock, of a key that is there. -/
theorem search_found {T b i : Nat}
    (hfind : findSlot l.call.key ((h.tab T).table b) = some i) :
    Goes (h, l.goto (.search T b 0)) (h, l.goto (l.call.hit ⟨T, b, i⟩)) := by
  obtain ⟨hlt, hkey, hbefore⟩ := List.findIdx?_eq_some_iff_getElem.mp hfind
  suffices hreach : ∀ j ≤ i, Goes (h, l.goto (.search T b 0)) (h, l.goto (.search T b j)) by
    refine (hreach i (le_refl i)).trans (.head rfl ?_ (.refl _))
    dsimp only [go]
    rw [List.getElem?_eq_getElem hlt]
    have hkey' : ((h.tab T).table b)[i].key = l.call.key := by simpa using hkey
    exact if_pos hkey'
  intro j
  induction j with
  | zero => exact fun _ => .refl _
  | succ j ih =>
      intro hle
      refine (ih (by omega)).trans (.head rfl ?_ (.refl _))
      dsimp only [go]
      rw [List.getElem?_eq_getElem (by omega)]
      have hne : ((h.tab T).table b)[j].key ≠ l.call.key := by simpa using hbefore j hle
      exact if_neg hne

/-- Where a put or a lookup comes to without a lock. -/
theorem lookup_goes (hbegun : ∀ T b, l.call.begun T b = .search T b 0) :
    Goes (h, l.goto .readHt) (h, l.goto
      (match findSlot l.call.key (h.cur.table (clhtLpHash h.cur l.call.key)) with
      | some i => l.call.hit ⟨h.ht, clhtLpHash h.cur l.call.key, i⟩
      | none => l.call.missed h.ht (clhtLpHash h.cur l.call.key))) := by
  refine .head (y := (h, l.goto (.search h.ht (clhtLpHash h.cur l.call.key) 0))) rfl ?_ ?_
  · exact congrArg (fun p => some (h, l.goto p)) (hbegun ..)
  · cases hfind : findSlot l.call.key (h.cur.table (clhtLpHash h.cur l.call.key)) with
    | some i => exact search_found hfind
    | none =>
        refine search_missed (fun s hs => ?_) 0
        simpa using List.findIdx?_eq_none_iff.mp hfind s hs

/-! ## A put -/

/-- The two stores of a put. -/
theorem setVal_setKey {p : SlotPtr} {s : Slot Addr Val} (hp : h.slot p = some s) (key : Addr)
    (val : Val) : (h.setVal p val).setKey p key = h.setSlot p ⟨key, val⟩ := by
  have hlen := (List.getElem?_eq_some_iff.mp hp).1
  have hval : h.setVal p val = h.setSlot p { s with val := val } := by
    unfold Clht.setVal
    rw [hp]
  have hslot : (h.setSlot p { s with val := val }).slot p = some { s with val := val } := by
    refine (setChain_slot h p p _).trans ?_
    rw [if_pos ⟨rfl, rfl⟩, List.getElem?_set_self hlen]
  rw [hval, Clht.setKey, hslot]
  unfold Clht.setSlot Clht.setTab Hashtable.setChain
  simp only [Function.update_idem, Function.update_self, List.set_set]

/-- The two stores of an expansion. -/
theorem expand_link (g : Clht) (t b : Nat) (key : Addr) (val : Val) :
    (g.setTab t (clhtBucketCreateStats (g.tab t)).1).setTab t
        (((g.setTab t (clhtBucketCreateStats (g.tab t)).1).tab t).setChain b
          (((g.setTab t (clhtBucketCreateStats (g.tab t)).1).tab t).table b
            ++ bucketWith key val))
      = g.setTab t (insertSlot (g.tab t) b key val none).1 := by
  unfold Clht.setTab
  simp only [Function.update_idem, Function.update_self]
  rfl

/-- `LOCK_ACQ` of a bucket of the current table. -/
theorem lock_goes (hi : Idle h) (b : Nat) :
    Goes (h, l.goto (.lockAcq h.ht b h.ht))
      (h.setLock h.ht b .update, l.goto (.seek h.ht b h.ht)) := by
  refine .head rfl ?_ (.refl _)
  dsimp only [go]
  rw [show (h.tab h.ht).lock b = .free from hi.free b]
  rfl

theorem Call.absent_put {call : Call} (hput : ∀ key, call ≠ .remove key) (T b H : Nat)
    (e : Option Nat) (val : Val) : call.absent T b H e val =
      match e with
      | some i => .putVal ⟨T, b, i⟩ val
      | none => .expand T b H val := by
  cases call with
  | remove key => exact absurd rfl (hput key)
  | _ => rfl

/-- Under the lock, a key that is not there: the put enters what it makes, and goes on with
    `ht_status` if the `resize` flag is set. -/
theorem insert_goes (hi : Idle h) {b : Nat} {os : List PutType} {val : Val}
    (hput : ∀ key, l.call ≠ .remove key)
    (hcreate : ∀ g : Clht, g.objs = h.objs → l.call.create g = ({ g with objs := os }, val))
    {e : Option Nat} (hseek : seek l.call.key (h.cur.table b) 0 none = .absent e) :
    Goes (h.setLock h.ht b .update, l.goto (.seek h.ht b h.ht))
      ({ h.setTab h.ht (insertSlot h.cur b l.call.key val e).1 with objs := os },
        l.goto (if (insertSlot h.cur b l.call.key val e).2.2
          then .statusTry true
            ⟨0, l.call.inserted ⟨h.ht, b, (insertSlot h.cur b l.call.key val e).2.1⟩ val⟩
          else .ret (l.call.inserted
            ⟨h.ht, b, (insertSlot h.cur b l.call.key val e).2.1⟩ val))) := by
  have hspec := seek_spec l.call.key (h.cur.table b)
  rw [hseek] at hspec
  obtain ⟨-, hvac⟩ := hspec
  generalize hg : h.setLock h.ht b .update = g
  have htab : g.tab h.ht = { h.cur with lock := Function.update h.cur.lock b .update } := by
    rw [← hg]
    exact setLock_tab ..
  have hmake : l.call.create g = ({ g with objs := os }, val) := hcreate g (by rw [← hg]; rfl)
  have hmade : Goes (g, l.goto (.seek h.ht b h.ht)) ({ g with objs := os },
      l.goto (l.call.absent h.ht b h.ht e val)) := by
    have habsent : ClhtLp.seek (l.goto (.seek h.ht b h.ht)).call.key ((g.tab h.ht).table b) 0 none
        = .absent e := by
      rw [htab]
      exact hseek
    refine .head rfl ?_ (.refl _)
    dsimp only [go]
    rw [habsent]
    dsimp only [Local.goto]
    rw [hmake]
  refine hmade.trans ?_
  have hround := setLock_around hi b os
    (T := (insertSlot h.cur b l.call.key val e).1) (by cases e <;> rfl)
  rw [hg] at hround
  rw [Call.absent_put hput]
  cases e with
  | some i =>
      obtain ⟨s, hs, -⟩ := hvac
      have hslot : ({ g with objs := os } : Clht).slot ⟨h.ht, b, i⟩ = some s := by
        show ((g.tab h.ht).table b)[i]? = _
        rw [htab]
        exact hs
      rw [← hround]
      refine .head (p := .putVal _ _) rfl rfl (.head (p := .putKey _ _) rfl rfl
        (.head (p := .lockRls _ _ _) rfl ?_ (.refl _)))
      show some (Clht.setLock (Clht.setKey (Clht.setVal _ _ _) _ _) _ _ _, _) = _
      rw [setVal_setKey hslot]
      unfold Clht.setSlot
      dsimp only
      rw [htab]
      rfl
  | none =>
      generalize hg' : ({ g with objs := os } : Clht) = g' at hround ⊢
      have htab' : g'.tab h.ht
          = { h.cur with lock := Function.update h.cur.lock b .update } := by
        rw [← hg']
        exact htab
      have hadded := expand_link g' h.ht b l.call.key val
      have hflag : (clhtBucketCreateStats (g'.tab h.ht)).2
          = (insertSlot h.cur b l.call.key val none).2.2 := by
        rw [htab']
        rfl
      have hlast : ((g'.setTab h.ht (clhtBucketCreateStats (g'.tab h.ht)).1).tab h.ht).table b
          = h.cur.table b := by
        rw [tab_setTab, if_pos rfl, htab']
        rfl
      have hnext : (if (clhtBucketCreateStats (g'.tab h.ht)).2
            then After.status (l.call.inserted ⟨h.ht, b, (h.cur.table b).length⟩ val)
            else .ret (l.call.inserted ⟨h.ht, b, (h.cur.table b).length⟩ val)).pc
          = if (insertSlot h.cur b l.call.key val none).2.2
            then .statusTry true ⟨0, l.call.inserted ⟨h.ht, b, (h.cur.table b).length⟩ val⟩
            else .ret (l.call.inserted ⟨h.ht, b, (h.cur.table b).length⟩ val) := by
        rw [hflag]
        split <;> rfl
      rw [htab', insertSlot_lock] at hadded
      have hunlock := (congrArg (·.setLock h.ht b .free) hadded).trans hround
      have hplace : (insertSlot h.cur b l.call.key val none).2.1 = (h.cur.table b).length := rfl
      rw [hplace, ← hunlock, ← hnext, ← htab', ← hlast]
      exact .head (p := .expand _ _ _ _) rfl rfl (.head (p := .link _ _ _ _) rfl rfl
        (.head (p := .lockRls _ _ _) rfl rfl (.refl _)))

/-- A put of a key that is not there. -/
theorem put_goes (hi : Idle h) {key : Addr} {type : PutType} (hcall : l.call = .putType key type)
    {e : Option Nat} (hseek : seek key (h.cur.table (clhtLpHash h.cur key)) 0 none = .absent e) :
    Goes (h, l.goto .readHt)
      ({ h.setTab h.ht (insertSlot h.cur (clhtLpHash h.cur key) key (h.objs.length + 1) e).1 with
          objs := h.objs ++ [type] },
        l.goto (if (insertSlot h.cur (clhtLpHash h.cur key) key (h.objs.length + 1) e).2.2
          then .statusTry true ⟨0, .val (h.objs.length + 1)⟩
          else .ret (.val (h.objs.length + 1)))) := by
  have hspec := seek_spec key (h.cur.table (clhtLpHash h.cur key))
  rw [hseek] at hspec
  have hnone : findSlot key (h.cur.table (clhtLpHash h.cur key)) = none :=
    List.findIdx?_eq_none_iff.mpr (by simpa using hspec.1)
  have hlookup := lookup_goes (h := h) (l := l) (by rw [hcall]; exact fun _ _ => rfl)
  rw [hcall] at hlookup
  dsimp only [Call.key] at hlookup
  rw [hnone] at hlookup
  have hcreate : ∀ g : Clht, g.objs = h.objs →
      l.call.create g = ({ g with objs := h.objs ++ [type] }, h.objs.length + 1) := by
    intro g hg
    rw [hcall, ← hg]
    rfl
  have hinsert := insert_goes hi (b := clhtLpHash h.cur key) (by simp [hcall]) hcreate
    (by rw [hcall]; exact hseek)
  rw [hcall] at hinsert
  exact hlookup.trans (.head rfl rfl ((lock_goes hi _).trans hinsert))

/-- **A put of a new key**, alone: the table gains the entry, and the expansion that brings the
    counter to the threshold asks for a resize. -/
theorem put_grown (hi : Idle h) {key : Addr} {type : PutType} (hcall : l.call = .putType key type)
    (hkey : key ≠ 0) (hnew : ∀ w, (key, w) ∉ h.cur.content) :
    ∃ (T' : Hashtable) (e : Option Nat), Grown h.cur T' key (h.objs.length + 1) (e = none) ∧
      Goes (h, l.goto .readHt) ({ h.setTab h.ht T' with objs := h.objs ++ [type] },
        l.goto (if e = none ∧ T'.numExpands = T'.numExpandsThreshold
          then .statusTry true ⟨0, .val (h.objs.length + 1)⟩
          else .ret (.val (h.objs.length + 1)))) := by
  have hspec := seek_spec key (h.cur.table (clhtLpHash h.cur key))
  cases hseek : seek key (h.cur.table (clhtLpHash h.cur key)) 0 none with
  | found i =>
      rw [hseek] at hspec
      obtain ⟨v, hv⟩ := hspec
      exact absurd ((hi.wf.mem_content_iff hkey).mpr ⟨i, hv⟩) (hnew v)
  | absent e =>
      rw [hseek] at hspec
      have hgoes := put_goes hi hcall hseek
      refine ⟨_, e, insertSlot_grown hi.wf _ hkey hnew hspec.2, ?_⟩
      have hflag : (insertSlot h.cur (clhtLpHash h.cur key) key (h.objs.length + 1) e).2.2 = true ↔
          e = none ∧
            (insertSlot h.cur (clhtLpHash h.cur key) key (h.objs.length + 1) e).1.numExpands
              = (insertSlot h.cur (clhtLpHash h.cur key) key
                (h.objs.length + 1) e).1.numExpandsThreshold := by
        cases e with
        | some i => simp [insertSlot]
        | none => simp [insertSlot, clhtBucketCreateStats, Hashtable.setChain]
      simp only [hflag] at hgoes
      exact hgoes

/-! ## `ht_status` -/

/-- The slots that are left of one bucket. -/
theorem scan_bucket {r : Bool} {T b : Nat} {k : Cont} (hb : b < (h.tab T).numBuckets)
    {i : Nat} (hi : i ≤ ((h.tab T).table b).length) (size m : Nat) :
    Goes (h, l.goto (.statusScan r T b i size m k))
      (h, l.goto (.statusScan r T (b + 1) 0
        (size + (((h.tab T).table b).drop i).countP fun s => s.key ≠ 0)
        (max m (((h.tab T).table b).length / entriesPerBucket - 1)) k)) := by
  induction hn : ((h.tab T).table b).length - i generalizing i size with
  | zero =>
      obtain rfl : i = ((h.tab T).table b).length := by omega
      have hend : ((h.tab T).table b)[((h.tab T).table b).length]? = none :=
        List.getElem?_eq_none_iff.mpr (le_refl _)
      refine .head rfl ?_ (.refl _)
      dsimp only [go]
      rw [if_pos hb, hend, List.drop_length, List.countP_nil]
      rfl
  | succ n ih =>
      have hlt : i < ((h.tab T).table b).length := by omega
      have hslot := List.getElem?_eq_getElem hlt
      have hrest := ih hlt
        (if ((h.tab T).table b)[i].key ≠ 0 then size + 1 else size) (by omega)
      have hcount : size + (((h.tab T).table b).drop i).countP (fun s => s.key ≠ 0)
          = (if ((h.tab T).table b)[i].key ≠ 0 then size + 1 else size)
            + (((h.tab T).table b).drop (i + 1)).countP fun s => s.key ≠ 0 := by
        rw [List.drop_eq_getElem_cons hlt, List.countP_cons]
        by_cases hkey : ((h.tab T).table b)[i].key = 0
        · simp [hkey]
        · simp [hkey]
          omega
      rw [hcount]
      refine .head rfl ?_ hrest
      dsimp only [go]
      rw [if_pos hb, hslot]
      rfl

/-- The scan has come to what `clht_lp_size` and the longest chain are. -/
theorem scan_goes (r : Bool) (T : Nat) (k : Cont) :
    Goes (h, l.goto (.statusScan r T 0 0 0 0 k))
      (h, l.goto (.statusScan r T (h.tab T).numBuckets 0 (clhtLpSize (h.tab T))
        (expandsMax (h.tab T)) k)) := by
  suffices hscan : ∀ n ≤ (h.tab T).numBuckets, Goes (h, l.goto (.statusScan r T 0 0 0 0 k))
      (h, l.goto (.statusScan r T n 0
        ((List.range n).map fun b => ((h.tab T).table b).countP fun s => s.key ≠ 0).sum
        (((List.range n).map fun b => ((h.tab T).table b).length / entriesPerBucket - 1).foldl
          max 0) k)) from hscan _ (le_refl _)
  intro n
  induction n with
  | zero => exact fun _ => .refl _
  | succ n ih =>
      intro hle
      rw [List.range_succ, List.map_append, List.map_append, List.sum_append, List.foldl_append]
      exact (ih (by omega)).trans (scan_bucket (by omega) (Nat.zero_le _) _ _)

/-- **`ht_status`**, up to its call of `ht_resize_pes`. -/
theorem status_goes {r : Bool} {k : Cont} (hfree : ¬ (h.statusLock ∧ !r)) :
    Goes (h, l.goto (.statusTry r k))
      ({ h with statusLock := true },
        l.goto (match statusResize h.cur.numBuckets (clhtLpSize h.cur) (expandsMax h.cur) r with
          | some (isIncrease, by_) =>
              .resizeHt isIncrease by_ (k.sized l.call (clhtLpSize h.cur)).open
          | none => .statusRls (k.sized l.call (clhtLpSize h.cur)).open)) := by
  have htry : go h (l.goto (.statusTry r k)) (.statusTry r k)
      = some ({ h with statusLock := true }, l.goto (.statusHt r k)) := by
    show some (_, l.goto (if _ then _ else _)) = _
    rw [if_neg hfree]
  refine .head rfl htry (.head (p := .statusHt r k) rfl rfl ((scan_goes r h.ht k).trans ?_))
  refine .head rfl ?_ (.refl _)
  dsimp only [go, Clht.cur]
  rw [if_neg (lt_irrefl _)]
  cases statusResize (h.tab h.ht).numBuckets (clhtLpSize (h.tab h.ht)) (expandsMax (h.tab h.ht)) r
    with
  | some d => rfl
  | none => rfl

/-! ## `ht_resize_pes` -/

/-- The copy loop leaves the old table as it was, with all the bytes that it has visited in
    resize state. -/
theorem copyBuckets_old {n : Nat} {T N T' N' : Hashtable}
    (hcpy : copyBuckets n T N = some (T', N')) :
    T' = { T with lock := T'.lock } ∧
      ∀ b, T'.lock b = if b < n then .resize else T.lock b := by
  induction n generalizing T' N' with
  | zero =>
      obtain ⟨rfl, rfl⟩ := Prod.mk.inj (Option.some.inj hcpy)
      exact ⟨rfl, fun b => rfl⟩
  | succ n ih =>
      obtain ⟨⟨T₀, N₀⟩, hfirst, hlast⟩ := Option.bind_eq_some_iff.mp hcpy
      obtain ⟨hT₀, hlock₀⟩ := ih hfirst
      have hrest : T' = { T₀ with lock := T'.lock } ∧
          ∀ b, T'.lock b = if b = n then .resize else T₀.lock b := by
        dsimp only [bucketCpy] at hlast
        split at hlast
        · obtain ⟨rfl, rfl⟩ := Prod.mk.inj (Option.some.inj hlast)
          exact ⟨rfl, fun b => Function.update_apply ..⟩
        · cases hlast
        · next hres =>
          obtain ⟨rfl, rfl⟩ := Prod.mk.inj (Option.some.inj hlast)
          refine ⟨rfl, fun b => ?_⟩
          split
          · next hb => rw [hb, hres]
          · rfl
      obtain ⟨hT', hlock'⟩ := hrest
      refine ⟨?_, fun b => ?_⟩
      · rw [hT'.trans (congrArg (fun X : Hashtable => { X with lock := T'.lock }) hT₀)]
      · rw [hlock', hlock₀]
        split_ifs <;> first | rfl | omega

/-- A table whose bytes are all in resize state is skipped. -/
theorem copyBuckets_resized {n : Nat} {T : Hashtable} (N : Hashtable)
    (hres : ∀ b < n, T.lock b = .resize) : copyBuckets n T N = some (T, N) := by
  induction n with
  | zero => rfl
  | succ n ih =>
      rw [copyBuckets, ih fun b hb => hres b (by omega), Option.bind_some]
      dsimp only [bucketCpy]
      rw [hres n (by omega)]

/-- The slots that are left of one bucket. -/
theorem cpySlots_goes {t b : Nat} {k : Cont} (N : Hashtable) {i : Nat}
    (hi : i ≤ ((h.tab t).table b).length) :
    Goes (h, l.goto (.cpySlot t N b i k))
      (h, l.goto (.cpyLock t ((((h.tab t).table b).drop i).foldl cpySlot N) (b + 1) k)) := by
  induction hn : ((h.tab t).table b).length - i generalizing i N with
  | zero =>
      obtain rfl : i = ((h.tab t).table b).length := by omega
      have hend : ((h.tab t).table b)[((h.tab t).table b).length]? = none :=
        List.getElem?_eq_none_iff.mpr (le_refl _)
      refine .head rfl ?_ (.refl _)
      dsimp only [go]
      rw [hend, List.drop_length, List.foldl_nil]
      rfl
  | succ n ih =>
      have hlt : i < ((h.tab t).table b).length := by omega
      have hslot := List.getElem?_eq_getElem hlt
      rw [List.drop_eq_getElem_cons hlt, List.foldl_cons]
      refine .head rfl ?_ (ih (cpySlot N _) hlt (by omega))
      dsimp only [go]
      rw [hslot]
      rfl

/-- The copy loop. -/
theorem copy_goes {t : Nat} {k : Cont} {n : Nat} {N T' N' : Hashtable}
    (hn : n ≤ bucketsVisited (h.tab t).numBuckets)
    (hcpy : copyBuckets n (h.tab t) N = some (T', N')) :
    Goes (h, l.goto (.cpyLock t N 0 k)) (h.setTab t T', l.goto (.cpyLock t N' n k)) := by
  induction n generalizing T' N' with
  | zero =>
      obtain ⟨rfl, rfl⟩ := Prod.mk.inj (Option.some.inj hcpy)
      rw [Clht.setTab, Function.update_eq_self]
      exact .refl _
  | succ n ih =>
      obtain ⟨⟨T₀, N₀⟩, hfirst, hlast⟩ := Option.bind_eq_some_iff.mp hcpy
      refine (ih (by omega) hfirst).trans ?_
      generalize hg : h.setTab t T₀ = g
      have htab : g.tab t = T₀ := by
        rw [← hg]
        exact Function.update_self ..
      have hlt : n < bucketsVisited (g.tab t).numBuckets := by
        rw [htab, (copyBuckets_old hfirst).1]
        exact hn
      dsimp only [bucketCpy] at hlast
      split at hlast
      · next hfree =>
        obtain ⟨rfl, rfl⟩ := Prod.mk.inj (Option.some.inj hlast)
        have hset : g.setLock t n .resize
            = h.setTab t { T₀ with lock := Function.update T₀.lock n .resize } := by
          unfold Clht.setLock
          rw [htab, ← hg]
          unfold Clht.setTab
          dsimp only
          rw [Function.update_idem]
        have hlock : go g (l.goto (.cpyLock t N₀ n k)) (.cpyLock t N₀ n k)
            = some (g.setLock t n .resize, l.goto (.cpySlot t N₀ n 0 k)) := by
          dsimp only [go]
          rw [if_pos hlt, htab, hfree]
          rfl
        have hslots := cpySlots_goes (h := g.setLock t n .resize) (l := l) (t := t) (b := n)
          (k := k) N₀ (Nat.zero_le _)
        rw [(setLock_tab_table g t n .resize t).1, htab, List.drop_zero] at hslots
        rw [← hset]
        exact .head rfl hlock hslots
      · cases hlast
      · next hres =>
        obtain ⟨rfl, rfl⟩ := Prod.mk.inj (Option.some.inj hlast)
        rw [hg]
        refine .head rfl ?_ (.refl _)
        dsimp only [go]
        rw [if_pos hlt, htab, hres]
        rfl

/-- What a resize leaves that has read the table `t`, superseded or not, and has allocated `n`
    buckets. -/
def resized (h : Clht) (t n : Nat) (htOld htNew : Hashtable) : Clht :=
  { (h.setTab t { htOld with tableNew := some h.numTabs }).setTab h.numTabs
      { htNew with tablePrev := some t } with
    numTabs := h.numTabs + 1
    ht := h.numTabs
    resizeLock := false
    out := h.out ++ [((h.tab t).numBuckets, n)] }

theorem resized_tab {t : Nat} (ht : t < h.numTabs) (n : Nat) (htOld htNew : Hashtable) :
    (resized h t n htOld htNew).tab t = { htOld with tableNew := some h.numTabs } :=
  (Function.update_of_ne ht.ne ..).trans (Function.update_self ..)

theorem resized_cur (h : Clht) (t n : Nat) (htOld htNew : Hashtable) :
    (resized h t n htOld htNew).cur = { htNew with tablePrev := some t } :=
  Function.update_self ..

/-- **`ht_resize_pes`** of table `t`, which the thread has read before it has tried the lock. -/
theorem resize_goes {r : Bool} {by_ : Int} {t : Nat} {k : Cont} {htNew T' N' : Hashtable}
    (hfree : h.resizeLock = false) (ht : t < h.numTabs)
    (hnew : clhtLpHashtableCreate (numBucketsNew (h.tab t).numBuckets r by_) = some htNew)
    (hcpy : copyBuckets (bucketsVisited (h.tab t).numBuckets) (h.tab t)
      { htNew with version := (h.tab t).version + 1 } = some (T', N')) :
    Goes (h, l.goto (.resizeTry r by_ t k))
      (resized h t (numBucketsNew (h.tab t).numBuckets r by_) T' N',
        l.goto (if N'.numExpandsThreshold ≤ N'.numExpands then .statusTry true k.won
          else k.won.back)) := by
  have htry : go h (l.goto (.resizeTry r by_ t k)) (.resizeTry r by_ t k)
      = some ({ h with resizeLock := true }, l.goto (.resizeNew r by_ t k.won)) := by
    dsimp only [go]
    rw [if_neg (by simp [hfree])]
    rfl
  refine .head rfl htry ?_
  generalize hg : ({ h with
    resizeLock := true
    out := h.out ++ [((h.tab t).numBuckets, numBucketsNew (h.tab t).numBuckets r by_)] } : Clht)
      = g
  have hmade : Goes ({ h with resizeLock := true }, l.goto (.resizeNew r by_ t k.won))
      (g, l.goto (.cpyLock t { htNew with version := (h.tab t).version + 1 } 0 k.won)) := by
    refine .head rfl ?_ (.refl _)
    dsimp only [go]
    rw [hnew, ← hg]
    rfl
  refine hmade.trans ?_
  have htab : g.tab t = h.tab t := by rw [← hg]
  refine (copy_goes (by rw [htab]) (by rw [htab]; exact hcpy)).trans ?_
  have hend : go (g.setTab t T')
        (l.goto (.cpyLock t N' (bucketsVisited (h.tab t).numBuckets) k.won))
        (.cpyLock t N' (bucketsVisited (h.tab t).numBuckets) k.won)
      = some (g.setTab t T', l.goto (.swap t N' k.won)) := by
    have hnum : ((g.setTab t T').tab t).numBuckets = (h.tab t).numBuckets := by
      rw [tab_setTab, if_pos rfl, (copyBuckets_old hcpy).1]
    dsimp only [go]
    rw [hnum, if_neg (lt_irrefl _)]
    rfl
  refine .head rfl hend (.head (p := .swap _ _ _) rfl rfl (.head (p := .tableNew _ _ _ _) rfl rfl
    (.head (p := .resizeRls _ _) rfl ?_ (.refl _))))
  have htables : Function.update (Function.update (Function.update h.tab t T') h.numTabs
        { N' with tablePrev := some t }) t { T' with tableNew := some h.numTabs }
      = Function.update (Function.update h.tab t { T' with tableNew := some h.numTabs })
        h.numTabs { N' with tablePrev := some t } := by
    rw [Function.update_comm ht.ne, Function.update_idem]
    exact Function.update_comm ht.ne' ..
  refine congrArg some (Prod.ext ?_ ?_)
  · rw [← hg]
    unfold resized Clht.setTab
    dsimp only
    rw [Function.update_of_ne ht.ne, Function.update_self, htables]
  · simp only [decide_eq_true_eq]
    rfl

/-! ## The functions of one thread -/

theorem Cont.sized_of_open {k : Cont} (hk : k.depth ≠ 0) (call : Call) (size : Nat) :
    k.sized call size = k := by
  unfold Cont.sized
  split
  · exact if_neg hk
  · rfl

/-- What a call of `ht_status` does that comes back, if its steps do it. -/
def StatusGoes (fuel : Nat) : Prop :=
  ∀ (h h' : Clht) (l : Local) (r : Bool) (size : Nat) (k : Cont), h.ht < h.numTabs →
    ¬ (h.statusLock ∧ !r) → htStatus fuel h r = (h', some size) →
    h'.ht < h'.numTabs ∧
      Goes (h, l.goto (.statusTry r k)) (h', l.goto (k.sized l.call size).back)

/-- A call of `ht_resize_pes` that comes back. -/
theorem StatusGoes.resize {fuel : Nat} (hs : StatusGoes fuel) {h' : Clht} {r : Bool} {by_ : Int}
    {x : Int} {k : Cont} (hsized : ∀ size, k.won.sized l.call size = k.won)
    (hnext : h.ht < h.numTabs) (hres : htResizePes (htStatus fuel · true) h r by_ = (h', some x)) :
    h'.ht < h'.numTabs ∧
      Goes (h, l.goto (.resizeHt r by_ k)) (h', l.goto (if x = 0 then k.back else k.won.back)) := by
  have hread : Goes (h, l.goto (.resizeHt r by_ k)) (h, l.goto (.resizeTry r by_ h.ht k)) :=
    .head rfl rfl (.refl _)
  unfold htResizePes at hres
  split at hres
  · next hbusy =>
    obtain ⟨rfl, hx⟩ := Prod.mk.inj hres
    obtain rfl := Option.some.inj hx
    refine ⟨hnext, hread.trans (.head rfl ?_ (.refl _))⟩
    dsimp only [go]
    rw [if_pos hbusy]
    rfl
  · next hfree =>
    dsimp only at hres
    split at hres
    · cases (Prod.mk.inj hres).2
    · next htNew hnew =>
      split at hres
      · cases (Prod.mk.inj hres).2
      · next T' N' hcpy =>
        have hgoes := resize_goes (h := h) (l := l) (k := k) (by simpa using hfree) hnext hnew hcpy
        split at hres
        · next hagain =>
          obtain ⟨y, hy, rfl⟩ := Option.map_eq_some_iff.mp (Prod.mk.inj hres).2
          have hagains := hs _ h' l true y k.won (Nat.lt_succ_self _) (by simp)
            (Prod.ext (Prod.mk.inj hres).1 hy)
          rw [hsized] at hagains
          rw [if_pos hagain] at hgoes
          exact ⟨hagains.1, hread.trans (hgoes.trans hagains.2)⟩
        · next hagain =>
          obtain ⟨rfl, hx⟩ := Prod.mk.inj hres
          obtain rfl := Option.some.inj hx
          rw [if_neg (by simpa using hagain)] at hgoes
          exact ⟨Nat.lt_succ_self _, hread.trans hgoes⟩

/-- **`ht_status`** and all the resizes that it leads to. -/
theorem htStatus_goes (fuel : Nat) : StatusGoes fuel := by
  induction fuel with
  | zero =>
      intro h h' l r size k _ _ hst
      cases (Prod.mk.inj hst).2
  | succ fuel ih =>
      intro h h' l r size k hnext hfree hst
      have hgoes := status_goes (l := l) (k := k) hfree
      unfold htStatus at hst
      rw [if_neg hfree] at hst
      dsimp only at hst
      split at hst
      · next hnone =>
        obtain ⟨rfl, hsize⟩ := Prod.mk.inj hst
        obtain rfl := Option.some.inj hsize
        rw [hnone] at hgoes
        exact ⟨hnext, hgoes.trans (.head (p := .statusRls _) rfl rfl (.refl _))⟩
      · next isIncrease by_ hsome =>
        rw [hsome] at hgoes
        split at hst
        · next g x hres =>
          obtain ⟨rfl, hsize⟩ := Prod.mk.inj hst
          obtain rfl := Option.some.inj hsize
          have hopen : (k.sized l.call (clhtLpSize h.cur)).open.depth ≠ 0 := Nat.succ_ne_zero _
          have hwon := Cont.won_of_open hopen
          obtain ⟨hlt, hresize⟩ := ih.resize (h := { h with statusLock := true }) (l := l)
            (fun size => by rw [hwon]; exact Cont.sized_of_open hopen ..) hnext hres
          have hback : (k.sized l.call (clhtLpSize h.cur)).open.back
              = .statusRls (k.sized l.call (clhtLpSize h.cur)).open := if_neg hopen
          rw [hwon, ite_self, hback] at hresize
          exact ⟨hlt, hgoes.trans (hresize.trans (.head (p := .statusRls _) rfl rfl (.refl _)))⟩
        · cases (Prod.mk.inj hst).2

/-- The calls that put. -/
def Call.puts : Call → Prop
  | .putType _ _ | .putInit _ | .putIn _ => True
  | _ => False

/-- Where a put goes on from its locked part. -/
def Call.left : PutResult → Call → Pc
  | .present p, .putType _ _ => .retVal p
  | .present _, .putInit _ => .ret (.num 1)
  | .present p, _ => .ret (.ptr p)
  | .inserted p val, call => .ret (call.inserted p val)

/-- What a call makes depends on the objects that there are. -/
theorem Call.create_spec (h : Clht) (call : Call) : ∃ os val, ∀ g : Clht, g.objs = h.objs →
    call.create g = ({ g with objs := os }, val) := by
  have hnew : ∀ type, ∃ os val, ∀ g : Clht, g.objs = h.objs →
      newLock type g = ({ g with objs := os }, val) :=
    fun type => ⟨h.objs ++ [type], h.objs.length + 1, fun g hg => by rw [newLock, hg]⟩
  cases call with
  | putType key type => exact hnew type
  | putInit key => exact hnew .adaptive
  | _ => exact ⟨h.objs, 0, fun g hg => by rw [← hg]; rfl⟩

/-- The locked part of a put of a key that is not there. -/
theorem putLocked_inserted (fuel : Nat) {key : Addr} {create : Clht → Clht × Val}
    {os : List PutType} {val : Val} (hi : Idle h) {b : Nat} {e : Option Nat}
    (hseek : seek key (h.cur.table b) 0 none = .absent e)
    (hcreate : ∀ g, g.objs = h.objs → create g = ({ g with objs := os }, val)) {g : Clht}
    (hg : g = { h.setTab h.ht (insertSlot h.cur b key val e).1 with objs := os }) :
    putLocked fuel h key h.ht b create =
      if (insertSlot h.cur b key val e).2.2 then
        ((htStatus fuel g true).1, (htStatus fuel g true).2.map fun _ =>
          .inserted ⟨h.ht, b, (insertSlot h.cur b key val e).2.1⟩ val)
      else (g, some (.inserted ⟨h.ht, b, (insertSlot h.cur b key val e).2.1⟩ val)) := by
  have hcur : (h.setLock h.ht b .update).tab h.ht
      = { h.cur with lock := Function.update h.cur.lock b .update } := setLock_tab ..
  have hlock : (insertSlot h.cur b key val e).1.lock = h.cur.lock := by cases e <;> rfl
  unfold putLocked
  simp only [lockAcq_ready hi, hcur, hseek, hcreate (h.setLock h.ht b .update) rfl,
    insertSlot_lock]
  rw [hg, ← setLock_around hi b os hlock, hlock]

/-- **The locked part of a put.** -/
theorem putLocked_goes {fuel : Nat} (hi : Idle h) (hput : l.call.puts) {res : PutResult}
    {h' : Clht} (hrun : putLocked fuel h l.call.key h.ht (clhtLpHash h.cur l.call.key)
      l.call.create = (h', some res)) :
    Goes (h, l.goto (.lockAcq h.ht (clhtLpHash h.cur l.call.key) h.ht))
      (h', l.goto (l.call.left res)) := by
  have hnot : ∀ key, l.call ≠ .remove key := by
    intro key hcall
    rw [hcall] at hput
    exact hput
  refine (lock_goes hi _).trans ?_
  cases hseek : seek l.call.key (h.cur.table (clhtLpHash h.cur l.call.key)) 0 none with
  | found i =>
      rw [putLocked_found hi hseek] at hrun
      obtain ⟨rfl, hres⟩ := Prod.mk.inj hrun
      obtain rfl := Option.some.inj hres
      generalize clhtLpHash h.cur l.call.key = b at hseek ⊢
      have hchain : ((h.setLock h.ht b .update).tab h.ht).table = h.cur.table :=
        (setLock_tab_table ..).1
      have hfound : go (h.setLock h.ht b .update) (l.goto (.seek h.ht b h.ht))
            (.seek h.ht b h.ht)
          = some (h.setLock h.ht b .update, l.goto (l.call.present ⟨h.ht, b, i⟩)) := by
        have hseek' : seek (l.goto (.seek h.ht b h.ht)).call.key (h.cur.table b) 0 none
            = .found i := hseek
        dsimp only [go]
        rw [hchain, hseek']
        rfl
      have hunlock := setLock_twice hi b
      refine .head rfl hfound ?_
      cases hcall : l.call with
      | putType key type | putInit key | putIn key =>
          refine .head (p := .lockRls _ _ _) rfl rfl ?_
          rw [hunlock]
          exact .refl _
      | _ =>
          rw [hcall] at hput
          exact hput.elim
  | absent e =>
      obtain ⟨os, val, hcreate⟩ := Call.create_spec h l.call
      generalize hg : ({ h.setTab h.ht (insertSlot h.cur (clhtLpHash h.cur l.call.key)
        l.call.key val e).1 with objs := os } : Clht) = g
      have hgoes := insert_goes hi hnot hcreate hseek
      rw [hg] at hgoes
      rw [putLocked_inserted fuel hi hseek hcreate hg.symm] at hrun
      refine hgoes.trans ?_
      split at hrun
      · next hflag =>
        obtain ⟨hh', hval⟩ := Prod.mk.inj hrun
        obtain ⟨size, hsize, rfl⟩ := Option.map_eq_some_iff.mp hval
        have hnext : g.ht < g.numTabs := by
          rw [← hg]
          exact hi.next
        obtain ⟨-, hstatus⟩ := htStatus_goes fuel g h' l true size _ hnext (by simp)
          (Prod.ext hh' hsize)
        have hsized : ∀ k : Cont, k.sized l.call size = k := by
          intro k
          cases hcall : l.call with
          | status r =>
              rw [hcall] at hput
              exact hput.elim
          | _ => rfl
        rw [hsized] at hstatus
        rw [if_pos hflag]
        exact hstatus
      · next hflag =>
        obtain ⟨rfl, hval⟩ := Prod.mk.inj hrun
        obtain rfl := Option.some.inj hval
        rw [if_neg hflag]
        exact .refl _

/-- **`clht_lp_put_impl`.** -/
theorem clhtLpPutImpl_goes {fuel : Nat} (hi : Idle h) {key : Addr} {type : PutType}
    (hcall : l.call = .putType key type) {v : Val} {h' : Clht}
    (hput : clhtLpPutImpl fuel h h.ht (clhtLpHash h.cur key) key type = (h', some v)) :
    Goes (h, l.goto (.implHt h.ht (clhtLpHash h.cur key))) (h', l.goto (.ret (.val v))) := by
  obtain ⟨hh', hres⟩ := Prod.mk.inj hput
  obtain ⟨res, hrun, rfl⟩ := Option.map_eq_some_iff.mp hres
  have hlocked : putLocked fuel h l.call.key h.ht (clhtLpHash h.cur l.call.key) l.call.create
      = (h', some res) := by
    rw [hcall]
    exact Prod.ext hh' hrun
  have hgoes := putLocked_goes hi (by rw [hcall]; trivial) hlocked
  rw [hcall] at hgoes
  refine .head rfl rfl (hgoes.trans ?_)
  cases res with
  | inserted p val => exact .refl _
  | present p =>
      rw [← hh']
      exact .head (p := .retVal _) rfl rfl (.refl _)

/-- **`clht_lp_put_type`**, alone, does what the function of one thread does. -/
theorem clhtLpPutType_goes {fuel : Nat} (hi : Idle h) {key : Addr} {type : PutType}
    (hcall : l.call = .putType key type) {v : Val} {h' : Clht}
    (hput : clhtLpPutType fuel h key type = (h', some v)) :
    Goes (h, l.goto .readHt) (h', l.goto (.ret (.val v))) := by
  have hlookup := lookup_goes (h := h) (l := l) (by rw [hcall]; exact fun _ _ => rfl)
  rw [hcall] at hlookup
  dsimp only [Call.key] at hlookup
  refine hlookup.trans ?_
  unfold clhtLpPutType bucketExists at hput
  dsimp only at hput
  cases hfind : findSlot key (h.cur.table (clhtLpHash h.cur key)) with
  | none =>
      rw [hfind] at hput
      exact clhtLpPutImpl_goes hi hcall hput
  | some i =>
      rw [hfind] at hput
      have hval : Goes (h, l.goto (.searchVal ⟨h.ht, clhtLpHash h.cur key, i⟩))
          (h, l.goto (l.call.gotVal ⟨h.ht, clhtLpHash h.cur key, i⟩
            (h.read ⟨h.ht, clhtLpHash h.cur key, i⟩))) := .head rfl rfl (.refl _)
      rw [hcall] at hval
      refine hval.trans ?_
      have hput' : (if h.read ⟨h.ht, clhtLpHash h.cur key, i⟩ ≠ 0
          then (h, some (h.read ⟨h.ht, clhtLpHash h.cur key, i⟩))
          else clhtLpPutImpl fuel h h.ht (clhtLpHash h.cur key) key type) = (h', some v) := hput
      unfold Call.gotVal
      dsimp only
      by_cases h0 : h.read ⟨h.ht, clhtLpHash h.cur key, i⟩ ≠ 0
      · rw [if_pos h0] at hput' ⊢
        obtain ⟨rfl, hv⟩ := Prod.mk.inj hput'
        rw [Option.some.inj hv]
        exact .refl _
      · rw [if_neg h0] at hput' ⊢
        exact clhtLpPutImpl_goes hi hcall hput'

/-- **`clht_lp_get`**, alone. -/
theorem clhtLpGet_goes {key : Addr} (hcall : l.call = .get key) :
    Goes (h, l.goto .readHt) (h, l.goto (.ret (.val (clhtLpGet h.cur key)))) := by
  have hlookup := lookup_goes (h := h) (l := l) (by rw [hcall]; exact fun _ _ => rfl)
  rw [hcall] at hlookup
  dsimp only [Call.key] at hlookup
  refine hlookup.trans ?_
  unfold clhtLpGet bucketExists
  cases hfind : findSlot key (h.cur.table (clhtLpHash h.cur key)) with
  | none => exact .refl _
  | some i =>
      have hval : Goes (h, l.goto (.searchVal ⟨h.ht, clhtLpHash h.cur key, i⟩))
          (h, l.goto (l.call.gotVal ⟨h.ht, clhtLpHash h.cur key, i⟩
            (h.read ⟨h.ht, clhtLpHash h.cur key, i⟩))) := .head rfl rfl (.refl _)
      rw [hcall] at hval
      exact hval

end ClhtLpConc
