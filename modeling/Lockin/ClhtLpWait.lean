import Lockin.ClhtLpConc
import Lockin.ClhtLpResize

/-! # Waiting for a resize

    A thread that finds a bucket in resize state waits for the successor of a table.  A
    byte gets into resize state in one way only, and the resizer that put it there stays
    with its table until the successor is known (`Moving`), so the wait has an end,
    provided the thread waits for the table it found the byte in.

    `clht_lp_put_init`, `clht_lp_put_in` and `clht_lp_remove` read `h->ht` once for both.
    `clht_lp_put_type` reads it for the bucket and `clht_lp_put_impl` once more for the
    table to wait for; in between the table may have been exchanged, and the thread then
    waits for a table that nobody resizes, `lockAcq_stranded`. -/

namespace ClhtLp

open SlotTable

/-- The one table that is replaced. -/
theorem tab_setTab (h : Clht) (t : Nat) (T : Hashtable) (u : Nat) :
    (h.setTab t T).tab u = if u = t then T else h.tab u :=
  Function.update_apply ..

/-- Writing a slot is writing chains. -/
theorem setVal_eq (h : Clht) (p : SlotPtr) (val : Val) :
    ∃ f, h.setVal p val = h.setTab p.tab { h.tab p.tab with table := f } := by
  unfold Clht.setVal
  split
  · exact ⟨_, rfl⟩
  · exact ⟨(h.tab p.tab).table, by rw [Clht.setTab, Function.update_eq_self]⟩

/-- A store of a key rewrites one chain. -/
theorem setKey_eq (h : Clht) (p : SlotPtr) (key : Addr) :
    ∃ f, h.setKey p key = h.setTab p.tab { h.tab p.tab with table := f } := by
  unfold Clht.setKey
  split
  · exact ⟨_, rfl⟩
  · exact ⟨(h.tab p.tab).table, by rw [Clht.setTab, Function.update_eq_self]⟩

/-- An insertion leaves the lock bytes and the number of buckets. -/
theorem insertSlot_fixed (T : Hashtable) (bin : Nat) (key : Addr) (val : Val) (e : Option Nat) :
    (insertSlot T bin key val e).1.lock = T.lock ∧
      (insertSlot T bin key val e).1.numBuckets = T.numBuckets := by
  cases e <;> exact ⟨rfl, rfl⟩

/-- A copy leaves the lock bytes and the size of the new table alone. -/
theorem cpySlot_fixed (T : Hashtable) (s : Slot Addr Val) :
    (cpySlot T s).lock = T.lock ∧ (cpySlot T s).numBuckets = T.numBuckets := by
  unfold cpySlot
  split
  · exact ⟨rfl, rfl⟩
  · exact insertSlot_fixed ..

end ClhtLp

namespace ClhtLpConc

open Interleaving SlotTable ClhtLp

variable {Tid : Type} {c : Conf Tid Clht Local} {t : Tid} {r : Clht × Local}

/-! ## The invariant -/

/-- The table that a resizer moves: from its first bucket until the successor is known. -/
def Pc.moves : Pc → Option Nat
  | .cpyLock htOld _ _ _ | .cpySlot htOld _ _ _ _ | .swap htOld _ _ | .tableNew htOld _ _ _ =>
      some htOld
  | _ => none

/-- The table that a resizer fills. -/
def Pc.builds : Pc → Option Hashtable
  | .cpyLock _ htNew _ _ | .cpySlot _ htNew _ _ _ | .swap _ htNew _ => some htNew
  | _ => none

/-- The bucket a put has chosen. -/
def Pc.bucket : Pc → Option (Nat × Nat)
  | .search t b _ | .implHt t b | .lockAcq t b _ => some (t, b)
  | .searchVal p => some (p.tab, p.bin)
  | _ => none

/-- The table has a successor, or a resizer is about to give it one. -/
def Moving (c : Conf Tid Clht Local) (T : Nat) : Prop :=
  (c.sh.tab T).tableNew ≠ none ∨ ∃ u, (c.loc u).pc.moves = some T

/-- Every bucket is one of its table, and who waits, waits for a table that moves. -/
structure Placed (c : Conf Tid Clht Local) : Prop where
  cur : c.sh.ht < c.sh.numTabs
  pos : ∀ T < c.sh.numTabs, 0 < (c.sh.tab T).numBuckets
  bytes : ∀ T < c.sh.numTabs, ∀ b, (c.sh.tab T).lock b = .resize → Moving c T
  builds : ∀ t htNew, (c.loc t).pc.builds = some htNew →
    (∀ b, htNew.lock b = .free) ∧ 0 < htNew.numBuckets
  bucket : ∀ t T b, (c.loc t).pc.bucket = some (T, b) →
    T < c.sh.numTabs ∧ b < (c.sh.tab T).numBuckets
  own : ∀ t T b H, (c.loc t).pc = .lockAcq T b H → T = H
  waits : ∀ t H, (c.loc t).pc = .waitNew H → H < c.sh.numTabs ∧ Moving c H

/-- `clht_lp_put_impl` finds the table that `clht_lp_put_type` has hashed the key for. -/
def HashedOnce (c : Conf Tid Clht Local) (t : Tid) (_ : Act) : Prop :=
  match (c.loc t).pc with
  | .implHt T _ => c.sh.ht = T
  | _ => True

instance (c : Conf Tid Clht Local) (t : Tid) (a : Act) : Decidable (HashedOnce c t a) := by
  unfold HashedOnce
  split <;> infer_instance

variable [DecidableEq Tid]

/-! ## One step -/

/-- **What a step may do**, seen from the tables there are: a table keeps its size and
    its successor, and the thread does not leave a table that it moves. -/
structure Steady (c : Conf Tid Clht Local) (t : Tid) (r : Clht × Local) : Prop where
  numTabs : c.sh.numTabs ≤ r.1.numTabs
  numBuckets : ∀ T < c.sh.numTabs, (r.1.tab T).numBuckets = (c.sh.tab T).numBuckets
  successor : ∀ T < c.sh.numTabs, (c.sh.tab T).tableNew ≠ none → (r.1.tab T).tableNew ≠ none
  moves : ∀ T, (c.loc t).pc.moves = some T →
    r.2.pc.moves = some T ∨ (r.1.tab T).tableNew ≠ none

/-- A resize stays under way until its thread ends it. -/
theorem Moving.put {T : Nat} (hs : Steady c t r) (hT : T < c.sh.numTabs) (h : Moving c T) :
    Moving (c.put t r) T := by
  obtain h | ⟨u, hu⟩ := h
  · exact Or.inl (hs.successor T hT h)
  · by_cases hut : u = t
    · subst hut
      obtain hm | hn := hs.moves T hu
      · exact Or.inr ⟨u, by rw [put_loc_self]; exact hm⟩
      · exact Or.inl hn
    · exact Or.inr ⟨u, by rw [put_loc_ne c r hut]; exact hu⟩

/-- Where a step may lead to. -/
structure Lands (c : Conf Tid Clht Local) (t : Tid) (r : Clht × Local) : Prop where
  bucket : ∀ T b, r.2.pc.bucket = some (T, b) →
    T < r.1.numTabs ∧ b < (r.1.tab T).numBuckets
  own : ∀ T b H, r.2.pc = .lockAcq T b H → T = H
  waits : ∀ H, r.2.pc = .waitNew H →
    (c.loc t).pc = .waitNew H ∨ H < c.sh.numTabs ∧ Moving c H
  builds : ∀ htNew, r.2.pc.builds = some htNew →
    (∀ b, htNew.lock b = .free) ∧ 0 < htNew.numBuckets

/-- **Step lemma.** -/
theorem Placed.put (h : Placed c) (hs : Steady c t r) (hl : Lands c t r)
    (hcur : r.1.ht < r.1.numTabs) (hpos : ∀ T < r.1.numTabs, 0 < (r.1.tab T).numBuckets)
    (hbytes : ∀ T < r.1.numTabs, ∀ b, (r.1.tab T).lock b = .resize →
      T < c.sh.numTabs ∧ (c.sh.tab T).lock b = .resize ∨ r.2.pc.moves = some T) :
    Placed (c.put t r) := by
  refine ⟨hcur, hpos, ?_, ?_, ?_, ?_, ?_⟩
  · intro T hT b hb
    obtain ⟨hlt, hold⟩ | hm := hbytes T hT b hb
    · exact (h.bytes T hlt b hold).put hs hlt
    · exact Or.inr ⟨t, by rw [put_loc_self]; exact hm⟩
  · intro u htNew hu
    by_cases hut : u = t
    · subst hut
      rw [put_loc_self] at hu
      exact hl.builds htNew hu
    · rw [put_loc_ne c r hut] at hu
      exact h.builds u htNew hu
  · intro u T b hu
    by_cases hut : u = t
    · subst hut
      rw [put_loc_self] at hu
      exact hl.bucket T b hu
    · rw [put_loc_ne c r hut] at hu
      obtain ⟨hT, hb⟩ := h.bucket u T b hu
      exact ⟨hT.trans_le hs.numTabs, by rw [put_sh, hs.numBuckets T hT]; exact hb⟩
  · intro u T b H hu
    by_cases hut : u = t
    · subst hut
      rw [put_loc_self] at hu
      exact hl.own T b H hu
    · rw [put_loc_ne c r hut] at hu
      exact h.own u T b H hu
  · intro u H hu
    have hold : H < c.sh.numTabs ∧ Moving c H := by
      by_cases hut : u = t
      · subst hut
        rw [put_loc_self] at hu
        exact (hl.waits H hu).elim (h.waits u H) id
      · rw [put_loc_ne c r hut] at hu
        exact h.waits u H hu
    exact ⟨hold.1.trans_le hs.numTabs, hold.2.put hs hold.1⟩

/-- The tables there are, unchanged. -/
structure SameTabs (h h' : Clht) : Prop where
  tab : h'.tab = h.tab
  numTabs : h'.numTabs = h.numTabs
  ht : h'.ht = h.ht

/-- A step that leaves the tables alone. -/
theorem Placed.quiet (h : Placed c) (hsame : SameTabs c.sh r.1) (hl : Lands c t r)
    (hmoves : r.2.pc.moves = (c.loc t).pc.moves ∨ (c.loc t).pc.moves = none) :
    Placed (c.put t r) := by
  obtain ⟨htab, hnum, hht⟩ := hsame
  refine h.put ⟨hnum.ge, fun T _ => by rw [htab], fun T _ => by rw [htab]; exact id, ?_⟩ hl
    (by rw [hht, hnum]; exact h.cur) (by rw [htab, hnum]; exact h.pos) ?_
  · intro T hT
    rcases hmoves with heq | hnone
    · exact Or.inl (heq.trans hT)
    · rw [hnone] at hT
      exact nomatch hT
  · intro T hT b hb
    rw [htab] at hb
    exact Or.inl ⟨hnum ▸ hT, hb⟩

/-- A step that writes to a table; only who moves it may put bytes into resize state. -/
theorem Placed.edit (h : Placed c) {T : Nat} {X : Hashtable} (hsh : r.1 = c.sh.setTab T X)
    (hnum : X.numBuckets = (c.sh.tab T).numBuckets)
    (hlock : ∀ b, X.lock b = .resize → (c.sh.tab T).lock b = .resize ∨ r.2.pc.moves = some T)
    (hnew : (c.sh.tab T).tableNew ≠ none → X.tableNew ≠ none) (hl : Lands c t r)
    (hmoves : ∀ T', (c.loc t).pc.moves = some T' →
      r.2.pc.moves = some T' ∨ (r.1.tab T').tableNew ≠ none) :
    Placed (c.put t r) := by
  have hfix : ∀ T', (r.1.tab T').numBuckets = (c.sh.tab T').numBuckets ∧
      (∀ b, (r.1.tab T').lock b = .resize →
        (c.sh.tab T').lock b = .resize ∨ r.2.pc.moves = some T') ∧
      ((c.sh.tab T').tableNew ≠ none → (r.1.tab T').tableNew ≠ none) := by
    intro T'
    rw [hsh, tab_setTab]
    split
    · next heq =>
      subst heq
      exact ⟨hnum, hlock, hnew⟩
    · exact ⟨rfl, fun _ => Or.inl, id⟩
  have htabs : r.1.numTabs = c.sh.numTabs ∧ r.1.ht = c.sh.ht := by
    rw [hsh]
    exact ⟨rfl, rfl⟩
  refine h.put ⟨htabs.1.ge, fun T' _ => (hfix T').1, fun T' _ => (hfix T').2.2, hmoves⟩ hl
    (by rw [htabs.1, htabs.2]; exact h.cur) ?_ ?_
  · intro T' hT'
    rw [(hfix T').1]
    exact h.pos T' (htabs.1 ▸ hT')
  · intro T' hT' b hb
    exact ((hfix T').2.1 b hb).imp_left fun hold => ⟨htabs.1 ▸ hT', hold⟩

/-! ## Where the steps lead to -/

/-- A place without a bucket, a wait and a table in the making. -/
def Pc.Plain (pc : Pc) : Prop :=
  pc.bucket = none ∧ (∀ H, pc ≠ .waitNew H) ∧ pc.builds = none

/-- A plain place, or one at the bucket `(T, b)` where a wait would be for `T`. -/
def Pc.Within (T b : Nat) (pc : Pc) : Prop :=
  (pc.bucket = none ∨ pc.bucket = some (T, b)) ∧ (∀ T' b' H, pc = .lockAcq T' b' H → T' = H) ∧
    (∀ H, pc ≠ .waitNew H) ∧ pc.builds = none

/-- A call begins without a bucket. -/
theorem Call.entry_plain (call : Call) : call.entry.Plain := by
  cases call <;> simp [Call.entry, Pc.Plain, Pc.bucket, Pc.builds]

/-- After the hash, the thread is at the bucket that it has read. -/
theorem Call.begun_within (T b : Nat) (call : Call) : (call.begun T b).Within T b := by
  cases call <;> simp [Call.begun, Pc.Within, Pc.bucket, Pc.builds]

/-- It stays there when it has found the key. -/
theorem Call.hit_within (p : SlotPtr) (call : Call) : (call.hit p).Within p.tab p.bin := by
  cases call <;> simp [Call.hit, Pc.Within, Pc.bucket, Pc.builds]

/-- So it does when it has not. -/
theorem Call.missed_within (T b : Nat) (call : Call) : (call.missed T b).Within T b := by
  cases call <;> simp [Call.missed, Pc.Within, Pc.bucket, Pc.builds]

theorem Call.gotVal_within (p : SlotPtr) (v : Val) (call : Call) :
    (call.gotVal p v).Within p.tab p.bin := by
  cases call with
  | putType key type =>
      unfold Call.gotVal
      split_ifs <;> simp [Pc.Within, Pc.bucket, Pc.builds]
  | _ => simp [Call.gotVal, Pc.Within, Pc.bucket, Pc.builds]

theorem Call.present_plain (p : SlotPtr) (call : Call) : (call.present p).Plain := by
  cases call <;> simp [Call.present, Pc.Plain, Pc.bucket, Pc.builds]

theorem Call.absent_plain (T b H : Nat) (e : Option Nat) (v : Val) (call : Call) :
    (call.absent T b H e v).Plain := by
  cases call <;> cases e <;> simp [Call.absent, Pc.Plain, Pc.bucket, Pc.builds]

theorem After.pc_plain (next : After) : next.pc.Plain := by
  cases next <;> simp [After.pc, Pc.Plain, Pc.bucket, Pc.builds]

theorem Cont.back_plain (k : Cont) : k.back.Plain := by
  unfold Cont.back
  split <;> simp [Pc.Plain, Pc.bucket, Pc.builds]

theorem Call.returned_plain (l : Local) (r : Ret) (call : Call) :
    (call.returned l r).pc.Plain := by
  cases call <;> cases r <;>
    simp [Call.returned, Local.goto, Local.finish, Pc.Plain, Pc.bucket, Pc.builds]

omit [DecidableEq Tid] in
/-- A thread that goes to a place without a bucket. -/
theorem Lands.plain (h : r.2.pc.Plain) : Lands c t r where
  bucket T b hb := by rw [h.1] at hb; exact nomatch hb
  own T b H hl := by have := h.1; rw [hl] at this; exact nomatch this
  waits H hw := absurd hw (h.2.1 H)
  builds htNew hb := by rw [h.2.2] at hb; exact nomatch hb

omit [DecidableEq Tid] in
/-- A thread that stays at a bucket. -/
theorem Lands.within {T b : Nat} (hlt : T < r.1.numTabs ∧ b < (r.1.tab T).numBuckets)
    (h : r.2.pc.Within T b) : Lands c t r where
  bucket T' b' hb := by
    rcases h.1 with hnone | hsome
    · rw [hnone] at hb
      exact nomatch hb
    · obtain ⟨rfl, rfl⟩ := Prod.mk.inj (Option.some.inj (hsome.symm.trans hb))
      exact hlt
  own := h.2.1
  waits H hw := absurd hw (h.2.2.1 H)
  builds htNew hb := by rw [h.2.2.2] at hb; exact nomatch hb

omit [DecidableEq Tid] in
/-- A step of a resizer that goes on filling its table. -/
theorem Lands.building {htNew : Hashtable} (hbucket : r.2.pc.bucket = none)
    (hwait : ∀ H, r.2.pc ≠ .waitNew H) (hbuilds : r.2.pc.builds = some htNew)
    (hnew : (∀ b, htNew.lock b = .free) ∧ 0 < htNew.numBuckets) : Lands c t r where
  bucket T b hb := by rw [hbucket] at hb; exact nomatch hb
  own T b H hl := by rw [hl] at hbucket; exact nomatch hbucket
  waits H hw := absurd hw (hwait H)
  builds X hX := by
    obtain rfl := Option.some.inj (hbuilds.symm.trans hX)
    exact hnew

theorem SameTabs.refl (h : Clht) : SameTabs h h := ⟨rfl, rfl, rfl⟩

/-- A new object is no matter to the tables. -/
theorem Call.create_sameTabs (h : Clht) (call : Call) : SameTabs h (call.create h).1 := by
  cases call <;> exact ⟨rfl, rfl, rfl⟩

/-- Another byte than the one written keeps its state. -/
theorem setLock_resize {T : Hashtable} {b : Nat} {l : BucketLock} {P : Prop}
    (hl : l = .resize → P) (b' : Nat) (hb : Function.update T.lock b l b' = .resize) :
    T.lock b' = .resize ∨ P := by
  rw [Function.update_apply] at hb
  split at hb
  · exact Or.inr (hl hb)
  · exact Or.inl hb

/-- **Every step keeps the invariant.** -/
theorem Placed.step (h : Placed c) (hok : HashedOnce c t .go)
    (hs : go c.sh (c.loc t) (c.loc t).pc = some r) : Placed (c.put t r) := by
  have hbin : clhtLpHash c.sh.cur (c.loc t).call.key < (c.sh.tab c.sh.ht).numBuckets :=
    clhtLpHash_lt (h.pos _ h.cur) _
  cases hpc : (c.loc t).pc with
  | idle => rw [hpc] at hs; exact nomatch hs
  | crash => rw [hpc] at hs; exact nomatch hs
  | readHt =>
      rw [hpc] at hs
      obtain rfl := Option.some.inj hs
      exact h.quiet (.refl _) (.within ⟨h.cur, hbin⟩ (Call.begun_within ..))
        (Or.inr (by rw [hpc]; rfl))
  | search T b i =>
      rw [hpc] at hs
      have hbucket := h.bucket t T b (by rw [hpc]; rfl)
      have hmoves : (c.loc t).pc.moves = none := by rw [hpc]; rfl
      dsimp only [go] at hs
      split at hs
      · split at hs
        · obtain rfl := Option.some.inj hs
          exact h.quiet (.refl _) (.within hbucket (Call.hit_within ..)) (Or.inr hmoves)
        · obtain rfl := Option.some.inj hs
          exact h.quiet (.refl _) (.within hbucket
            ⟨Or.inr rfl, fun _ _ _ h => (nomatch h), fun _ h => (nomatch h), rfl⟩) (Or.inr hmoves)
      · obtain rfl := Option.some.inj hs
        exact h.quiet (.refl _) (.within hbucket (Call.missed_within ..)) (Or.inr hmoves)
  | searchVal p =>
      rw [hpc] at hs
      obtain rfl := Option.some.inj hs
      exact h.quiet (.refl _) (.within (h.bucket t _ _ (by rw [hpc]; rfl))
        (Call.gotVal_within ..)) (Or.inr (by rw [hpc]; rfl))
  | implHt T b =>
      rw [hpc] at hs
      obtain rfl := Option.some.inj hs
      have hht : c.sh.ht = T := by
        unfold HashedOnce at hok
        rwa [hpc] at hok
      refine h.quiet (.refl _) (.within (h.bucket t T b (by rw [hpc]; rfl))
        ⟨Or.inr rfl, ?_, fun _ h => (nomatch h), rfl⟩) (Or.inr (by rw [hpc]; rfl))
      intro T' b' H heq
      injection heq with h1 _ h3
      rw [← h1, ← h3, hht]
  | lockAcq T b H =>
      rw [hpc] at hs
      have hbucket := h.bucket t T b (by rw [hpc]; rfl)
      have hmoves : (c.loc t).pc.moves = none := by rw [hpc]; rfl
      dsimp only [go] at hs
      split at hs
      · obtain rfl := Option.some.inj hs
        exact h.edit rfl rfl (setLock_resize nofun) id
          (.plain ⟨rfl, fun _ h => (nomatch h), rfl⟩) (by rw [hmoves]; simp)
      · obtain rfl := Option.some.inj hs
        rw [put_self]
        exact h
      · next hbyte =>
        obtain rfl := Option.some.inj hs
        obtain rfl := h.own t T b H hpc
        refine h.quiet (.refl _) ⟨fun _ _ h => (nomatch h), fun _ _ _ h => (nomatch h), ?_,
          fun _ h => (nomatch h)⟩ (Or.inr hmoves)
        intro H' heq
        injection heq with heq
        subst heq
        exact Or.inr ⟨hbucket.1, h.bytes T hbucket.1 b hbyte⟩
  | waitNew H =>
      rw [hpc] at hs
      dsimp only [go] at hs
      split at hs
      · obtain rfl := Option.some.inj hs
        rw [put_self]
        exact h
      · obtain rfl := Option.some.inj hs
        exact h.quiet (.refl _) (.plain ⟨rfl, fun _ h => (nomatch h), rfl⟩)
          (Or.inr (by rw [hpc]; rfl))
  | retryHt =>
      rw [hpc] at hs
      obtain rfl := Option.some.inj hs
      refine h.quiet (.refl _) (.within ⟨h.cur, hbin⟩
        ⟨Or.inr rfl, ?_, fun _ h => (nomatch h), rfl⟩) (Or.inr (by rw [hpc]; rfl))
      intro T' b' H heq
      injection heq with h1 _ h3
      rw [← h1, ← h3]
  | seek T b H =>
      rw [hpc] at hs
      have hmoves : (c.loc t).pc.moves = none := by rw [hpc]; rfl
      dsimp only [go] at hs
      split at hs
      · obtain rfl := Option.some.inj hs
        exact h.quiet (.refl _) (.plain (Call.present_plain ..)) (Or.inr hmoves)
      · obtain rfl := Option.some.inj hs
        exact h.quiet (Call.create_sameTabs ..) (.plain (Call.absent_plain ..)) (Or.inr hmoves)
  | expand T b H val =>
      rw [hpc] at hs
      obtain rfl := Option.some.inj hs
      exact h.edit rfl rfl (fun _ => Or.inl) id (.plain ⟨rfl, fun _ h => (nomatch h), rfl⟩)
        (by rw [hpc]; simp [Pc.moves])
  | link T b val resize =>
      rw [hpc] at hs
      obtain rfl := Option.some.inj hs
      exact h.edit rfl rfl (fun _ => Or.inl) id (.plain ⟨rfl, fun _ h => (nomatch h), rfl⟩)
        (by rw [hpc]; simp [Pc.moves])
  | putVal p val =>
      rw [hpc] at hs
      obtain rfl := Option.some.inj hs
      obtain ⟨f, hf⟩ := setVal_eq c.sh p val
      exact h.edit hf rfl (fun _ => Or.inl) id (.plain ⟨rfl, fun _ h => (nomatch h), rfl⟩)
        (by rw [hpc]; simp [Pc.moves])
  | putKey p val =>
      rw [hpc] at hs
      obtain rfl := Option.some.inj hs
      obtain ⟨f, hf⟩ := setKey_eq c.sh p (c.loc t).call.key
      exact h.edit hf rfl (fun _ => Or.inl) id (.plain ⟨rfl, fun _ h => (nomatch h), rfl⟩)
        (by rw [hpc]; simp [Pc.moves])
  | rmVal p =>
      rw [hpc] at hs
      obtain rfl := Option.some.inj hs
      exact h.quiet (.refl _) (.plain ⟨rfl, fun _ h => (nomatch h), rfl⟩)
        (Or.inr (by rw [hpc]; rfl))
  | rmKey p val =>
      rw [hpc] at hs
      obtain rfl := Option.some.inj hs
      obtain ⟨f, hf⟩ := setKey_eq c.sh p 0
      exact h.edit hf rfl (fun _ => Or.inl) id (.plain ⟨rfl, fun _ h => (nomatch h), rfl⟩)
        (by rw [hpc]; simp [Pc.moves])
  | lockRls T b next =>
      rw [hpc] at hs
      obtain rfl := Option.some.inj hs
      exact h.edit rfl rfl (setLock_resize nofun) id (.plain (After.pc_plain _))
        (by rw [hpc]; simp [Pc.moves])
  | retVal p =>
      rw [hpc] at hs
      obtain rfl := Option.some.inj hs
      exact h.quiet (.refl _) (.plain ⟨rfl, fun _ h => (nomatch h), rfl⟩)
        (Or.inr (by rw [hpc]; rfl))
  | statusTry inc k =>
      rw [hpc] at hs
      obtain rfl := Option.some.inj hs
      refine h.quiet ⟨rfl, rfl, rfl⟩ (.plain ?_) (Or.inr (by rw [hpc]; rfl))
      show Pc.Plain (if _ then _ else _)
      split
      · exact k.back_plain
      · exact ⟨rfl, fun _ h => (nomatch h), rfl⟩
  | statusHt inc k =>
      rw [hpc] at hs
      obtain rfl := Option.some.inj hs
      exact h.quiet (.refl _) (.plain ⟨rfl, fun _ h => (nomatch h), rfl⟩)
        (Or.inr (by rw [hpc]; rfl))
  | statusScan inc T b i size em k =>
      rw [hpc] at hs
      have hmoves : (c.loc t).pc.moves = none := by rw [hpc]; rfl
      dsimp only [go] at hs
      split at hs
      · split at hs <;> obtain rfl := Option.some.inj hs <;>
          exact h.quiet (.refl _) (.plain ⟨rfl, fun _ h => (nomatch h), rfl⟩) (Or.inr hmoves)
      · split at hs <;> obtain rfl := Option.some.inj hs <;>
          exact h.quiet (.refl _) (.plain ⟨rfl, fun _ h => (nomatch h), rfl⟩) (Or.inr hmoves)
  | statusRls k =>
      rw [hpc] at hs
      obtain rfl := Option.some.inj hs
      exact h.quiet ⟨rfl, rfl, rfl⟩ (.plain (Cont.back_plain _)) (Or.inr (by rw [hpc]; rfl))
  | resizeHt inc by_ k =>
      rw [hpc] at hs
      obtain rfl := Option.some.inj hs
      exact h.quiet (.refl _) (.plain ⟨rfl, fun _ h => (nomatch h), rfl⟩)
        (Or.inr (by rw [hpc]; rfl))
  | resizeTry inc by_ htOld k =>
      rw [hpc] at hs
      have hmoves : (c.loc t).pc.moves = none := by rw [hpc]; rfl
      dsimp only [go] at hs
      split at hs
      · obtain rfl := Option.some.inj hs
        exact h.quiet (.refl _) (.plain (Cont.back_plain _)) (Or.inr hmoves)
      · obtain rfl := Option.some.inj hs
        exact h.quiet ⟨rfl, rfl, rfl⟩ (.plain ⟨rfl, fun _ h => (nomatch h), rfl⟩) (Or.inr hmoves)
  | resizeNew inc by_ htOld k =>
      rw [hpc] at hs
      have hmoves : (c.loc t).pc.moves = none := by rw [hpc]; rfl
      dsimp only [go] at hs
      split at hs
      · obtain rfl := Option.some.inj hs
        exact h.quiet ⟨rfl, rfl, rfl⟩ (.plain ⟨rfl, fun _ h => (nomatch h), rfl⟩) (Or.inr hmoves)
      · next htNew hcreate =>
        obtain rfl := Option.some.inj hs
        obtain ⟨hw, -, -, -, -, hfree⟩ := clhtLpHashtableCreate_some hcreate
        refine h.quiet ⟨rfl, rfl, rfl⟩ ⟨fun _ _ h => (nomatch h), fun _ _ _ h => (nomatch h),
          fun _ h => (nomatch h), ?_⟩ (Or.inr hmoves)
        intro X hX
        obtain rfl := Option.some.inj hX
        exact ⟨hfree, hw.pos⟩
  | cpyLock htOld htNew b k =>
      rw [hpc] at hs
      have hbuilds := h.builds t htNew (by rw [hpc]; rfl)
      have hmoves : (c.loc t).pc.moves = some htOld := by rw [hpc]; rfl
      dsimp only [go] at hs
      split at hs
      · split at hs
        · obtain rfl := Option.some.inj hs
          exact h.edit rfl rfl (setLock_resize fun _ => rfl) id
            (.building rfl (fun _ h => (nomatch h)) rfl hbuilds)
            fun T' hT' => Or.inl (hmoves.symm.trans hT')
        · obtain rfl := Option.some.inj hs
          rw [put_self]
          exact h
        · obtain rfl := Option.some.inj hs
          exact h.quiet (.refl _) (.building rfl (fun _ h => (nomatch h)) rfl hbuilds)
            (Or.inl hmoves.symm)
      · obtain rfl := Option.some.inj hs
        exact h.quiet (.refl _) (.building rfl (fun _ h => (nomatch h)) rfl hbuilds)
          (Or.inl hmoves.symm)
  | cpySlot htOld htNew b i k =>
      rw [hpc] at hs
      have hbuilds := h.builds t htNew (by rw [hpc]; rfl)
      have hmoves : (c.loc t).pc.moves = some htOld := by rw [hpc]; rfl
      dsimp only [go] at hs
      split at hs
      · next s _ =>
        obtain rfl := Option.some.inj hs
        obtain ⟨hlock, hnum⟩ := cpySlot_fixed htNew s
        exact h.quiet (.refl _) (.building rfl (fun _ h => (nomatch h)) rfl
          ⟨by rw [hlock]; exact hbuilds.1, by rw [hnum]; exact hbuilds.2⟩) (Or.inl hmoves.symm)
      · obtain rfl := Option.some.inj hs
        exact h.quiet (.refl _) (.building rfl (fun _ h => (nomatch h)) rfl hbuilds)
          (Or.inl hmoves.symm)
  | swap htOld htNew k =>
      rw [hpc] at hs
      obtain ⟨hfree, hpos⟩ := h.builds t htNew (by rw [hpc]; rfl)
      have hmoves : (c.loc t).pc.moves = some htOld := by rw [hpc]; rfl
      obtain rfl := Option.some.inj hs
      -- the tables that were there are not touched
      have htab : ∀ T < c.sh.numTabs,
          (c.sh.setTab c.sh.numTabs { htNew with tablePrev := some htOld }).tab T
            = c.sh.tab T := by
        intro T hT
        rw [tab_setTab, if_neg hT.ne]
      have hnew : (c.sh.setTab c.sh.numTabs { htNew with tablePrev := some htOld }).tab
          c.sh.numTabs = { htNew with tablePrev := some htOld } := by
        rw [tab_setTab, if_pos rfl]
      refine h.put ⟨Nat.le_succ _, fun T hT => congrArg Hashtable.numBuckets (htab T hT),
        fun T hT => (congrArg Hashtable.tableNew (htab T hT)).symm ▸ id,
        fun T' hT' => Or.inl (hmoves.symm.trans hT')⟩ (.plain ⟨rfl, fun _ h => (nomatch h), rfl⟩)
        (Nat.lt_succ_self _) ?_ ?_
      · intro T hT
        rcases Nat.lt_succ_iff_lt_or_eq.mp hT with hlt | rfl
        · exact (congrArg Hashtable.numBuckets (htab T hlt)).symm ▸ h.pos T hlt
        · exact (congrArg Hashtable.numBuckets hnew).symm ▸ hpos
      · intro T hT b hb
        rcases Nat.lt_succ_iff_lt_or_eq.mp hT with hlt | rfl
        · exact Or.inl ⟨hlt, (congrArg (Hashtable.lock · b) (htab T hlt)).symm.trans hb⟩
        · exact nomatch (hfree b).symm.trans
            ((congrArg (Hashtable.lock · b) hnew).symm.trans hb)
  | tableNew htOld htNew again k =>
      rw [hpc] at hs
      have hmoves : (c.loc t).pc.moves = some htOld := by rw [hpc]; rfl
      obtain rfl := Option.some.inj hs
      refine h.edit rfl rfl (fun _ => Or.inl) (fun _ => Option.some_ne_none _)
        (.plain ⟨rfl, fun _ h => (nomatch h), rfl⟩) fun T' hT' => Or.inr ?_
      obtain rfl := Option.some.inj (hmoves.symm.trans hT')
      rw [tab_setTab, if_pos rfl]
      exact Option.some_ne_none _
  | resizeRls again k =>
      rw [hpc] at hs
      obtain rfl := Option.some.inj hs
      refine h.quiet ⟨rfl, rfl, rfl⟩ (.plain ?_) (Or.inr (by rw [hpc]; rfl))
      show Pc.Plain (if _ then _ else _)
      split
      · exact ⟨rfl, fun _ h => (nomatch h), rfl⟩
      · exact k.back_plain
  | ret x =>
      rw [hpc] at hs
      obtain rfl := Option.some.inj hs
      exact h.quiet (.refl _) (.plain (Call.returned_plain ..)) (Or.inr (by rw [hpc]; rfl))
  | tasCas p =>
      rw [hpc] at hs
      have hmoves : (c.loc t).pc.moves = none := by rw [hpc]; rfl
      dsimp only [go] at hs
      split at hs
      · obtain rfl := Option.some.inj hs
        obtain ⟨f, hf⟩ := setVal_eq c.sh p 1
        exact h.edit hf rfl (fun _ => Or.inl) id (.plain ⟨rfl, fun _ h => (nomatch h), rfl⟩)
          (by rw [hmoves]; simp)
      · split at hs
        · obtain rfl := Option.some.inj hs
          exact h.quiet (.refl _) (.plain ⟨rfl, fun _ h => (nomatch h), rfl⟩) (Or.inr hmoves)
        · obtain rfl := Option.some.inj hs
          rw [put_self]
          exact h
  | tasStore p =>
      rw [hpc] at hs
      obtain rfl := Option.some.inj hs
      obtain ⟨f, hf⟩ := setVal_eq c.sh p 0
      exact h.edit hf rfl (fun _ => Or.inl) id (.plain ⟨rfl, fun _ h => (nomatch h), rfl⟩)
        (by rw [hpc]; simp [Pc.moves])

/-! ## Every run -/

omit [DecidableEq Tid] in
/-- A new table. -/
theorem Init.placed {n : Nat} (h : Init n c) : Placed c := by
  obtain ⟨T, hT, hsh⟩ := Option.map_eq_some_iff.mp h.sh
  obtain ⟨hw, -, -, -, -, hfree⟩ := clhtLpHashtableCreate_some hT
  have hidle : ∀ t, (c.loc t).pc = .idle := fun t => (h.loc t).1
  have htab : c.sh.tab = fun _ => T := by rw [← hsh]
  refine ⟨by rw [← hsh]; exact Nat.one_pos, fun _ _ => by rw [htab]; exact hw.pos, ?_, ?_, ?_, ?_,
    ?_⟩
  · intro T' _ b hb
    rw [htab, hfree] at hb
    exact nomatch hb
  all_goals
    intro t
    rw [hidle]
    intros
    contradiction

/-- **Run lemma.** -/
theorem placed_of_reach {n : Nat} (h : Reach prog HashedOnce (Init n) c) : Placed c := by
  refine Reach.invariant (fun _ h0 => h0.placed) ?_ h
  intro c t a r hc hok hs
  cases a with
  | go => exact hc.step hok hs
  | start call =>
      dsimp only [prog] at hs
      split at hs
      · next hidle =>
        obtain ⟨-, heq⟩ := Option.ite_none_right_eq_some.mp hs
        obtain rfl := Option.some.inj heq
        exact hc.quiet (.refl _) (.plain call.entry_plain) (Or.inr (by rw [hidle]; rfl))
      · exact nomatch hs

/-- **Every put locks a bucket of the table it would wait for**, in every run in which
    `clht_lp_put_impl` finds the table that the key was hashed for; so who waits, waits for
    a table that is being resized or has a successor. -/
theorem lockAcq_own_bucket {n : Nat} (h : Reach prog HashedOnce (Init n) c) :
    (∀ t T b H, (c.loc t).pc = .lockAcq T b H → T = H ∧ b < (c.sh.tab H).numBuckets) ∧
      ∀ t H, (c.loc t).pc = .waitNew H → Moving c H := by
  have hp := placed_of_reach h
  refine ⟨fun t T b H hl => ?_, fun t H hw => (hp.waits t H hw).2⟩
  obtain rfl := hp.own t T b H hl
  exact ⟨rfl, (hp.bucket t T b (by rw [hl]; rfl)).2⟩

/-- A put hashes its key and asks for the bucket lock while a resizer copies the bucket. -/
def resizedSchedule : List (Bool × Act) :=
  calls false (.putType 4 .ticket) 6 ++ (calls true (.putInit 8) 7 ++
    (calls true (.putInit 12) 7 ++ (calls true (.putInit 16) 7 ++
      (calls true (.putInit 20) 22 ++ [(false, .go)]))))

/-- The condition can be met, and the put then waits for the table that is being resized. -/
theorem lockAcq_own_bucket_resized : ∃ c : Conf Bool Clht Local,
    Reach prog HashedOnce (Init 1) c ∧ (c.loc false).pc = .waitNew 0 ∧ Moving c 0 := by
  have hrun : ((start 1).bind fun c => exec prog HashedOnce c resizedSchedule).any
      (fun c => match (c.loc false).pc with
        | .waitNew H => H = 0
        | _ => false) = true := by
    decide +kernel
  obtain ⟨c, hc, hP⟩ := reach_of_start hrun
  split at hP
  · next H hpc =>
    obtain rfl := of_decide_eq_true hP
    exact ⟨c, hc, hpc, (lockAcq_own_bucket hc).2 false 0 hpc⟩
  · exact nomatch hP

/-- A put hashes its key; before it reads `h->ht` again, the table is resized. -/
def strandedSchedule : List (Bool × Act) :=
  calls false (.putType 4 .ticket) 5 ++ (calls true (.putInit 8) 7 ++
    (calls true (.putInit 12) 7 ++ (calls true (.putInit 16) 7 ++
      (calls true (.putInit 20) 33 ++ [(false, .go), (false, .go)]))))

/-- Puts only. -/
def PutsOnly (_ : Conf Tid Clht Local) (_ : Tid) (a : Act) : Prop :=
  match a with
  | .start (.putType _ _) | .start (.putInit _) | .go => True
  | _ => False

instance (c : Conf Tid Clht Local) (t : Tid) (a : Act) : Decidable (PutsOnly c t a) := by
  unfold PutsOnly
  split <;> infer_instance

/-- A thread waits for the current table to be replaced, and the other one is outside. -/
def stranded (c : Conf Bool Clht Local) : Bool :=
  match (c.loc false).pc, (c.loc true).pc with
  | .waitNew H, .idle => H = c.sh.ht ∧ c.sh.cur.tableNew = none
  | _, _ => false

/-- Without the condition a put locks a bucket of one table and waits for another, which is
    the current one and which nobody resizes. -/
theorem lockAcq_stranded : ∃ c : Conf Bool Clht Local, Reach prog PutsOnly (Init 1) c ∧
    (c.loc false).pc = .waitNew c.sh.ht ∧ ¬ Moving c c.sh.ht ∧ (c.loc true).pc = .idle := by
  have hrun : ((start 1).bind fun c => exec prog PutsOnly c strandedSchedule).any
      stranded = true := by
    decide +kernel
  obtain ⟨c, hc, hP⟩ := reach_of_start hrun
  unfold stranded at hP
  split at hP
  · next H hpc hidle =>
    obtain ⟨rfl, hnone⟩ := of_decide_eq_true hP
    refine ⟨c, hc, hpc, ?_, hidle⟩
    rintro (hnew | ⟨u, hu⟩)
    · exact hnew hnone
    · cases u with
      | false =>
          rw [hpc] at hu
          cases hu
      | true =>
          rw [hidle] at hu
          cases hu
  · cases hP

end ClhtLpConc
