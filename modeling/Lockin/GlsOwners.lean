import Lockin.GlsIds

/-! # The owner fields

    Whether the current table records who has a lock.  The lock call writes the owner after
    it has taken the lock, and the unlock call clears it before it releases the lock; both
    write to the slot without the lock of its bucket, in the table that they have loaded
    before.  When a resizer has already read the slot, or the table has been replaced, the
    new table does not get to know.

    `timely` excludes these writes, and `fresh` the resizes that are known to lose entries:
    of a table that is not the current one, or that has more than `2 ^ 31` buckets.  Then the
    current table records for every address what it should (`expected`), and so does the part
    of the new table that has been copied. -/

namespace GlsDeadlock

open Interleaving

variable {Tid : Type}

/-- The current table. -/
def Shared.cur (sh : Shared Tid) : Table := sh.tab sh.ht

/-- The thread has the lock of its key without being on record: it has yet to write the
    owner, or has cleared it already. -/
def Pc.unrecorded : Pc → Bool
  | .unsetLoad acquired => acquired
  | .unsetStore acquired => acquired
  | .ownHt => true
  | .own _ => true
  | .release => true
  | _ => false

def Local.unrecorded (l : Local) (key : Addr) : Bool :=
  decide (l.key = key) && l.pc.unrecorded

theorem Local.unrecorded_of {l : Local} (h : l.pc.unrecorded = false) (key : Addr) :
    l.unrecorded key = false := by
  unfold unrecorded
  rw [h, Bool.and_false]

/-- A lock is unlocked by its holder. -/
def proper (c : Conf Tid (Shared Tid) Local) (t : Tid) (a : Act) : Prop :=
  match a with
  | .call .unlock key => c.sh.holder key = some t
  | _ => True

/-- Who wins `resize_lock` has loaded the current table, and it has at most `2 ^ 31` buckets. -/
def fresh (c : Conf Tid (Shared Tid) Local) (t : Tid) : Prop :=
  match (c.loc t).pc with
  | .resizeTry _ _ htOld =>
      c.sh.resizeLock = false → htOld = c.sh.ht ∧ c.sh.cur.numBuckets ≤ 2 ^ 31
  | _ => True

/-- An owner is written to the current table, to a slot that no resizer has read. -/
def timely (c : Conf Tid (Shared Tid) Local) (t : Tid) : Prop :=
  match (c.loc t).pc with
  | .own v => v = c.sh.ht ∧ c.sh.cur.copied (c.loc t).key = false
  | .clear v => v = c.sh.ht ∧ c.sh.cur.copied (c.loc t).key = false
  | _ => True

/-- Correct use, fewer than `2 ^ 64` ids, and no write or resize that loses an owner. -/
def kept (c : Conf Tid (Shared Tid) Local) (t : Tid) (a : Act) : Prop :=
  proper c t a ∧ few (2 ^ 64 - 1) c t a ∧ fresh c t ∧ timely c t

/-! ## Tables -/

namespace Table

variable {T T' : Table} {key k : Addr} {owner : Id}

/-- A key hashes to one of the buckets. -/
theorem bin_lt (h : 0 < T.numBuckets) (key : Addr) : T.bin key < T.numBuckets := by
  have hle : T.bin key ≤ T.numBuckets - 1 := Nat.and_le_right
  omega

/-- Every key is in its bucket. -/
def Placed (T : Table) : Prop := ∀ b, ∀ key ∈ T.keys b, T.bin key = b

/-- A new entry goes to the bucket of its key. -/
theorem Placed.insert (h : T.Placed) : (T.insert key owner).Placed := by
  intro b k hk
  have hk' : k ∈ Function.update T.keys (T.bin key) (T.keys (T.bin key) ++ [key]) b := hk
  rw [Function.update_apply] at hk'
  split at hk' <;> rename_i hb
  · rcases List.mem_append.mp hk' with hk' | hk'
    · rw [hb]
      exact h _ k hk'
    · rw [hb, List.mem_singleton.mp hk']
      rfl
  · exact h b k hk'

/-- A key of a bucket is one of the table. -/
theorem Placed.has (h : T.Placed) {b : Nat} (hk : key ∈ T.keys b) : T.Has key := by
  show key ∈ T.keys (T.bin key)
  rwa [h b key hk]

/-- The keys after an insertion. -/
theorem has_insert : (T.insert key owner).Has k ↔ T.Has k ∨ k = key := by
  show k ∈ Function.update T.keys (T.bin key) _ (T.bin k) ↔ _
  rw [Function.update_apply]
  split <;> rename_i hbin
  · rw [List.mem_append, List.mem_singleton, ← hbin]
    exact Iff.rfl
  · refine (or_iff_left ?_).symm
    rintro rfl
    exact hbin rfl

/-- The one owner that is written. -/
theorem setOwner_owner : (T.setOwner key owner).owner k = if k = key then owner else T.owner k :=
  Function.update_apply ..

/-- The owners after an insertion. -/
theorem insert_owner : (T.insert key owner).owner k = if k = key then owner else T.owner k :=
  Function.update_apply ..

/-- What `T'` has been given of `T`: the slots that are `done`, all of which have been read. -/
structure Copied (T T' : Table) (done : Addr → Prop) : Prop where
  has : ∀ key, T'.Has key ↔ T.Has key ∧ done key
  owner : ∀ key, T'.Has key → T'.owner key = T.owner key
  vacant : ∀ key, ¬ T'.Has key → T'.owner key = 0
  read : ∀ key, T'.Has key → T.copied key = true
  placed : T'.Placed
  unlocked : ∀ b, T'.resized b = false
  pos : 0 < T'.numBuckets

namespace Copied

variable {done done' : Addr → Prop}

/-- Nothing has been copied into a new table. -/
theorem create {n : Nat} (hn : 0 < n) (hdone : ∀ key, ¬ done key) : Copied T (.create n) done where
  has := fun key => iff_of_false List.not_mem_nil fun h => hdone key h.2
  owner := fun _ h => absurd h List.not_mem_nil
  vacant := fun _ _ => rfl
  read := fun _ h => absurd h List.not_mem_nil
  placed := fun _ _ h => absurd h List.not_mem_nil
  unlocked := fun _ => rfl
  pos := hn

/-- The keys that have been copied. -/
theorem congr (h : Copied T T' done) (hdone : ∀ key, T.Has key → (done' key ↔ done key)) :
    Copied T T' done' where
  has := fun key => (h.has key).trans (and_congr_right fun hkey => (hdone key hkey).symm)
  owner := h.owner
  vacant := h.vacant
  read := h.read
  placed := h.placed
  unlocked := h.unlocked
  pos := h.pos

/-- One more slot. -/
theorem insert (h : Copied T T' done) (hhas : T.Has key) (hread : T.copied key = true) :
    Copied T (T'.insert key (T.owner key)) fun k => done k ∨ k = key where
  has := by
    intro k
    rw [has_insert, h.has k, and_or_left]
    refine or_congr_right ⟨?_, And.right⟩
    rintro rfl
    exact ⟨hhas, rfl⟩
  owner := by
    intro k hk
    rw [insert_owner]
    split <;> rename_i heq
    · rw [heq]
    · exact h.owner k ((has_insert.mp hk).resolve_right heq)
  vacant := by
    intro k hk
    rw [has_insert, not_or] at hk
    rw [insert_owner, if_neg hk.2]
    exact h.vacant k hk.1
  read := by
    intro k hk
    rcases has_insert.mp hk with hk | rfl
    · exact h.read k hk
    · exact hread
  placed := h.placed.insert
  unlocked := h.unlocked
  pos := h.pos

/-- The old table changes, but not in the slots that have been copied. -/
theorem old {S : Table} (h : Copied T T' done)
    (hhas : ∀ key, done key → (S.Has key ↔ T.Has key))
    (howner : ∀ key, T.Has key → T.copied key = true → S.owner key = T.owner key)
    (hread : ∀ key, T.copied key = true → S.copied key = true) : Copied S T' done where
  has := by
    intro key
    rw [h.has key]
    exact ⟨fun hk => ⟨(hhas key hk.2).mpr hk.1, hk.2⟩, fun hk => ⟨(hhas key hk.2).mp hk.1, hk.2⟩⟩
  owner := fun key hk =>
    (h.owner key hk).trans (howner key ((h.has key).mp hk).1 (h.read key hk)).symm
  vacant := h.vacant
  read := fun key hk => hread key (h.read key hk)
  placed := h.placed
  unlocked := h.unlocked
  pos := h.pos

end Copied

end Table

/-! ## Resizers -/

/-- The tables of a resizer. -/
def Pc.copying : Pc → Option (Nat × Table)
  | .cpyLock htOld htNew _ => some (htOld, htNew)
  | .cpySlot htOld htNew _ _ => some (htOld, htNew)
  | .cpyPut htOld htNew _ _ _ _ => some (htOld, htNew)
  | .swap htOld htNew => some (htOld, htNew)
  | _ => none

/-- The thread has `resize_lock`. -/
def Pc.resizes : Pc → Bool
  | .cpyLock _ _ _ => true
  | .cpySlot _ _ _ _ => true
  | .cpyPut _ _ _ _ _ _ => true
  | .swap _ _ => true
  | .resizeRls _ => true
  | _ => false

/-- Who copies a table resizes. -/
theorem Pc.resizes_of_copying {pc : Pc} {p : Nat × Table} (h : pc.copying = some p) :
    pc.resizes = true := by
  cases pc <;> first | rfl | cases h

/-- The slots of `T` that a resizer has copied. -/
def Pc.done (T : Table) (pc : Pc) (key : Addr) : Prop :=
  match pc with
  | .cpyLock _ _ b => T.bin key < b
  | .cpySlot _ _ b i => T.bin key < b ∨ T.bin key = b ∧ key ∈ (T.keys b).take i
  | .cpyPut _ _ b i _ _ => T.bin key < b ∨ T.bin key = b ∧ key ∈ (T.keys b).take i
  | _ => True

/-- How many buckets a resizer has locked. -/
def Pc.locks (T : Table) : Pc → Nat
  | .cpyLock _ _ b => b
  | .cpySlot _ _ b _ => b + 1
  | .cpyPut _ _ b _ _ _ => b + 1
  | _ => T.numBuckets

/-- A resizer in its copying loops. -/
structure Copying (sh : Shared Tid) (pc : Pc) (htOld : Nat) (htNew : Table) : Prop where
  old : htOld = sh.ht
  small : sh.cur.numBuckets ≤ 2 ^ 31
  copied : sh.cur.Copied htNew (pc.done sh.cur)
  locked : ∀ b, sh.cur.resized b = true ↔ b < pc.locks sh.cur
  le : pc.locks sh.cur ≤ sh.cur.numBuckets
  register : ∀ b i key owner, pc = .cpyPut htOld htNew b i key owner →
    (sh.cur.keys b)[i]? = some key ∧ sh.cur.bin key = b ∧ sh.cur.copied key = true ∧
      owner = sh.cur.owner key

/-- A step that leaves the current table alone. -/
theorem Copying.of_cur {sh sh' : Shared Tid} {pc : Pc} {htOld : Nat} {htNew : Table}
    (h : Copying sh pc htOld htNew) (hht : sh'.ht = sh.ht) (hcur : sh'.cur = sh.cur) :
    Copying sh' pc htOld htNew := by
  constructor
  · rw [hht]
    exact h.old
  · rw [hcur]
    exact h.small
  · rw [hcur]
    exact h.copied
  · rw [hcur]
    exact h.locked
  · rw [hcur]
    exact h.le
  · rw [hcur]
    exact h.register

/-! ## The invariant -/

/-- The id that should be on record for `key`. -/
def expected (c : Conf Tid (Shared Tid) Local) (key : Addr) : Id :=
  match c.sh.holder key with
  | none => 0
  | some t => if (c.loc t).unrecorded key then 0 else (c.loc t).glsId

/-- What thread `t` relies on where it is. -/
def Local.At (sh : Shared Tid) (t : Tid) (l : Local) : Prop :=
  match l.pc with
  | .outside => True
  | .setId => l.call ≠ .unlock
  | .set => l.call ≠ .unlock
  | .putHt => l.call ≠ .unlock
  | .search v => l.call ≠ .unlock ∧ v < sh.numTabs
  | .implHt v => l.call ≠ .unlock ∧ v < sh.numTabs
  | .retryHt => l.call ≠ .unlock
  | .lockAcq v _ => l.call ≠ .unlock ∧ v < sh.numTabs
  | .unsetLoad acquired => acquired = true → sh.holder l.key = some t
  | .unsetStore acquired => acquired = true → sh.holder l.key = some t
  | .ownHt => sh.holder l.key = some t
  | .own _ => sh.holder l.key = some t
  | .getHt => sh.holder l.key = some t
  | .get v =>
      sh.holder l.key = some t ∧ v < sh.numTabs ∧ (sh.tab v).Has l.key ∧
        (sh.tab v).owner l.key = l.glsId
  | .clear _ => sh.holder l.key = some t
  | .release => sh.holder l.key = some t
  | .exited => True
  | _ => l.call ≠ .unlock ∧ sh.cur.Has l.key

/-- The tables: the current one has every key of the older ones, which are locked for good. -/
structure Tabs (sh : Shared Tid) : Prop where
  ht : sh.ht < sh.numTabs
  pos : ∀ v, 0 < (sh.tab v).numBuckets
  placed : ∀ v, (sh.tab v).Placed
  sub : ∀ v < sh.numTabs, ∀ key, (sh.tab v).Has key → sh.cur.Has key
  retired : ∀ v < sh.numTabs, v ≠ sh.ht → ∀ b < (sh.tab v).numBuckets,
    (sh.tab v).resized b = true

structure Owners (c : Conf Tid (Shared Tid) Local) : Prop where
  ids : Ids (2 ^ 64 - 1) c
  tabs : Tabs c.sh
  held : ∀ key t, c.sh.holder key = some t → c.sh.cur.Has key ∧ (c.loc t).glsId ≠ 0
  record : ∀ key, c.sh.cur.owner key = expected c key
  lock : ∀ t, (c.loc t).pc.resizes = true → c.sh.resizeLock = true
  alone : ∀ t u, (c.loc t).pc.resizes = true → (c.loc u).pc.resizes = true → t = u
  place : ∀ t, (c.loc t).At c.sh t
  quiet : (∀ t, (c.loc t).pc.copying = none) → ∀ b, c.sh.cur.resized b = false
  copy : ∀ t htOld htNew, (c.loc t).pc.copying = some (htOld, htNew) →
    Copying c.sh (c.loc t).pc htOld htNew

/-- Before the first call. -/
theorem Init.owners {c : Conf Tid (Shared Tid) Local} (h : Init c) : Owners c := by
  obtain ⟨n, hn, htab⟩ := h.tab
  have hout : ∀ t, (c.loc t).pc = .outside := fun t => (h.outside t).1
  refine ⟨h.ids _, ⟨?_, ?_, ?_, ?_, ?_⟩, ?_, ?_, ?_, ?_, ?_, ?_, ?_⟩
  · rw [h.ht, h.numTabs]
    exact Nat.one_pos
  · intro v
    rw [htab v]
    exact hn
  · intro v b key hkey
    rw [htab v] at hkey
    exact absurd hkey List.not_mem_nil
  · intro v _ key hkey
    rw [htab v] at hkey
    exact absurd hkey List.not_mem_nil
  · intro v hv hne
    rw [h.numTabs] at hv
    rw [h.ht] at hne
    exact absurd (Nat.lt_one_iff.mp hv) hne
  · intro key t ht
    rw [h.holder key] at ht
    exact nomatch ht
  · intro key
    unfold expected Shared.cur
    rw [h.holder key, htab c.sh.ht]
    rfl
  · intro t ht
    rw [hout t] at ht
    exact nomatch ht
  · intro t u ht
    rw [hout t] at ht
    exact nomatch ht
  · intro t
    unfold Local.At
    rw [hout t]
    trivial
  · intro _ b
    unfold Shared.cur
    rw [htab c.sh.ht]
    rfl
  · intro t htOld htNew ht
    rw [hout t] at ht
    exact nomatch ht

/-- What a thread relies on survives steps of the others. -/
theorem Local.At.mono {sh sh' : Shared Tid} {t : Tid} {l : Local} (h : l.At sh t)
    (hnum : sh.numTabs ≤ sh'.numTabs)
    (hholder : ∀ key, sh.holder key = some t → sh'.holder key = some t)
    (htab : ∀ v < sh.numTabs, ∀ key, (sh.tab v).Has key → (sh'.tab v).Has key)
    (hcur : ∀ key, sh.cur.Has key → sh'.cur.Has key)
    (howner : ∀ v < sh.numTabs, ∀ key, sh.holder key = some t →
      (sh'.tab v).owner key = (sh.tab v).owner key) : l.At sh' t := by
  unfold Local.At at h ⊢
  split <;> rename_i hpc <;> simp only [hpc] at h
  all_goals first
    | exact h
    | exact ⟨h.1, h.2.trans_le hnum⟩
    | exact fun hacq => hholder _ (h hacq)
    | exact hholder _ h
    | exact ⟨hholder _ h.1, h.2.1.trans_le hnum, htab _ h.2.1 _ h.2.2.1,
        (howner _ h.2.1 _ h.1).trans h.2.2.2⟩
    | exact ⟨h.1, hcur _ h.2⟩

variable [DecidableEq Tid]

/-- What should be on record changes only for the thread that takes the step. -/
theorem expected_put {c : Conf Tid (Shared Tid) Local} {t : Tid} {sh' : Shared Tid} {l' : Local}
    {key : Addr} (hholder : sh'.holder key = c.sh.holder key)
    (hl : c.sh.holder key = some t →
      l'.unrecorded key = (c.loc t).unrecorded key ∧ l'.glsId = (c.loc t).glsId) :
    expected (c.put t (sh', l')) key = expected c key := by
  unfold expected
  rw [put_sh, hholder]
  cases hown : c.sh.holder key with
  | none => rfl
  | some u =>
      dsimp only
      rw [put_loc]
      split <;> rename_i hut
      · rw [hut] at hown ⊢
        rw [(hl hown).1, (hl hown).2]
      · rfl

/-- A step that neither takes a lock nor records an owner. -/
theorem expected_goto {c : Conf Tid (Shared Tid) Local} {t : Tid} {sh' : Shared Tid} {pc' : Pc}
    {key : Addr} (hholder : sh'.holder key = c.sh.holder key)
    (hrec : ((c.loc t).goto pc').unrecorded key = (c.loc t).unrecorded key) :
    expected (c.put t (sh', (c.loc t).goto pc')) key = expected c key :=
  expected_put hholder fun _ => ⟨hrec, rfl⟩

namespace Owners

variable {c : Conf Tid (Shared Tid) Local} {t : Tid}

/-- A step of a thread that is on record, or has no lock, before and after. -/
theorem expected_quiet {c : Conf Tid (Shared Tid) Local} {t : Tid} {sh' : Shared Tid} {pc pc' : Pc}
    (hpc : (c.loc t).pc = pc) (hrec : pc.unrecorded = false) (hrec' : pc'.unrecorded = false)
    {key : Addr} (hholder : sh'.holder key = c.sh.holder key) :
    expected (c.put t (sh', (c.loc t).goto pc')) key = expected c key :=
  expected_goto hholder ((Local.unrecorded_of hrec' key).trans
    (Local.unrecorded_of (by rw [hpc]; exact hrec) key).symm)

theorem all_of {P : Tid → Prop} (ht : P t) (hothers : ∀ u, u ≠ t → P u) (u : Tid) : P u := by
  by_cases hut : u = t
  · rw [hut]
    exact ht
  · exact hothers u hut

/-- A step, by its effects on the shared memory, on the thread and on the others. -/
theorem put (h : Owners c) {sh' : Shared Tid} {l' : Local}
    (hids : Ids (2 ^ 64 - 1) (c.put t (sh', l'))) (htabs : Tabs sh')
    (hheld : ∀ key u, sh'.holder key = some u →
      sh'.cur.Has key ∧ ((c.put t (sh', l')).loc u).glsId ≠ 0)
    (hrecord : ∀ key, sh'.cur.owner key = expected (c.put t (sh', l')) key)
    (hlock : l'.pc.resizes = true →
      sh'.resizeLock = true ∧ ∀ u, u ≠ t → (c.loc u).pc.resizes = false)
    (hlocks : ∀ u, u ≠ t → (c.loc u).pc.resizes = true → sh'.resizeLock = true)
    (hplace : l'.At sh' t) (hplaces : ∀ u, u ≠ t → (c.loc u).At sh' u)
    (hquiet : l'.pc.copying = none → (∀ u, u ≠ t → (c.loc u).pc.copying = none) →
      ∀ b, sh'.cur.resized b = false)
    (hcopy : ∀ htOld htNew, l'.pc.copying = some (htOld, htNew) →
      Copying sh' l'.pc htOld htNew)
    (hcopies : ∀ u, u ≠ t → ∀ htOld htNew, (c.loc u).pc.copying = some (htOld, htNew) →
      Copying sh' (c.loc u).pc htOld htNew) : Owners (c.put t (sh', l')) where
  ids := hids
  tabs := htabs
  held := hheld
  record := hrecord
  lock := by
    intro u
    rw [put_loc, put_sh]
    split <;> rename_i hut
    · exact fun hl => (hlock hl).1
    · exact hlocks u hut
  alone := by
    intro u w
    rw [put_loc, put_loc]
    split <;> split <;> rename_i hut hwt
    · exact fun _ _ => hut.trans hwt.symm
    · intro hl hw
      rw [(hlock hl).2 w hwt] at hw
      exact nomatch hw
    · intro hu hl
      rw [(hlock hl).2 u hut] at hu
      exact nomatch hu
    · exact h.alone u w
  place := by
    intro u
    rw [put_loc, put_sh]
    split <;> rename_i hut
    · rw [hut]
      exact hplace
    · exact hplaces u hut
  quiet := by
    intro hall
    refine hquiet ?_ fun u hut => ?_
    · have := hall t
      rwa [put_loc_self] at this
    · have := hall u
      rwa [put_loc_ne c _ hut] at this
  copy := by
    intro u
    rw [put_loc, put_sh]
    split <;> rename_i hut
    · exact hcopy
    · exact hcopies u hut

omit [DecidableEq Tid] in
/-- A resizer is the only one. -/
theorem others (h : Owners c) (ht : (c.loc t).pc.resizes = true) (u : Tid) (hut : u ≠ t) :
    (c.loc u).pc.resizes = false := by
  cases hu : (c.loc u).pc.resizes with
  | false => rfl
  | true => exact absurd (h.alone u t hu ht) hut

omit [DecidableEq Tid] in
/-- Nobody copies while another thread resizes. -/
theorem no_other (h : Owners c) (ht : (c.loc t).pc.resizes = true) {u : Tid} (hut : u ≠ t)
    {p : Nat × Table} : (c.loc u).pc.copying ≠ some p := by
  intro hu
  have hres := Pc.resizes_of_copying hu
  rw [h.others ht u hut] at hres
  exact nomatch hres

/-- A thread that has a lock has an id, also after a step. -/
theorem holder_id (h : Owners c) {sh' : Shared Tid} {l' : Local} {key : Addr} {u : Tid}
    (hu : c.sh.holder key = some u) (hid : u = t → l'.glsId = (c.loc t).glsId) :
    ((c.put t (sh', l')).loc u).glsId ≠ 0 := by
  rw [put_loc]
  split <;> rename_i hut
  · rw [hid hut, ← hut]
    exact (h.held key u hu).2
  · exact (h.held key u hu).2

/-- A step that changes no table, no lock object and not `resize_lock`. -/
theorem keep (h : Owners c) {sh' : Shared Tid} {l' : Local}
    (hids : Ids (2 ^ 64 - 1) (c.put t (sh', l'))) (htab : sh'.tab = c.sh.tab)
    (hnum : sh'.numTabs = c.sh.numTabs) (hht : sh'.ht = c.sh.ht)
    (hlock : sh'.resizeLock = c.sh.resizeLock) (hholder : sh'.holder = c.sh.holder)
    (hid : l'.glsId = (c.loc t).glsId ∨ (c.loc t).glsId = 0)
    (hrec : ∀ key, c.sh.holder key = some t →
      l'.unrecorded key = (c.loc t).unrecorded key)
    (hres : l'.pc.resizes = true → (c.loc t).pc.resizes = true)
    (hleave : l'.pc.copying = none → (c.loc t).pc.copying = none)
    (hplace : l'.At c.sh t)
    (hcopy : ∀ htOld htNew, l'.pc.copying = some (htOld, htNew) →
      Copying c.sh l'.pc htOld htNew) : Owners (c.put t (sh', l')) := by
  have hcur : sh'.cur = c.sh.cur := by
    unfold Shared.cur
    rw [htab, hht]
  have hmono : ∀ {u : Tid} {l : Local}, l.At c.sh u → l.At sh' u := by
    intro u l hl
    refine hl.mono hnum.ge (fun key hkey => by rwa [hholder]) (fun v _ key hkey => by rwa [htab])
      (fun key hkey => by rwa [hcur]) fun v _ key _ => by rw [htab]
  have hcopying : ∀ {pc : Pc} {htOld : Nat} {htNew : Table}, Copying c.sh pc htOld htNew →
      Copying sh' pc htOld htNew := fun hc => hc.of_cur hht hcur
  have hsame : ∀ key, c.sh.holder key = some t → l'.glsId = (c.loc t).glsId :=
    fun key hkey => hid.resolve_right (h.held key t hkey).2
  refine h.put hids ⟨?_, ?_, ?_, ?_, ?_⟩ (fun key u hu => ?_) (fun key => ?_)
    (fun hl => ⟨?_, h.others (hres hl)⟩) (fun u _ hu => ?_) (hmono hplace)
    (fun u _ => hmono (h.place u)) (fun hl hothers => ?_)
    (fun htOld htNew hl => hcopying (hcopy htOld htNew hl))
    fun u _ htOld htNew hu => hcopying (h.copy u htOld htNew hu)
  · rw [hht, hnum]
    exact h.tabs.ht
  · rw [htab]
    exact h.tabs.pos
  · rw [htab]
    exact h.tabs.placed
  · rw [htab, hnum, hcur]
    exact h.tabs.sub
  · rw [htab, hnum, hht]
    exact h.tabs.retired
  · rw [hholder] at hu
    rw [hcur]
    exact ⟨(h.held key u hu).1, h.holder_id hu fun hut => hsame key (hut ▸ hu)⟩
  · rw [hcur, h.record key]
    exact (expected_put (by rw [hholder]) fun hkey => ⟨hrec key hkey, hsame key hkey⟩).symm
  · rw [hlock]
    exact h.lock t (hres hl)
  · rw [hlock]
    exact h.lock u hu
  · rw [hcur]
    exact h.quiet (all_of (hleave hl) hothers)

/-- A step that leaves the shared memory alone. -/
theorem goto (h : Owners c) {pc pc' : Pc} (hpc : (c.loc t).pc = pc)
    (hids : Ids (2 ^ 64 - 1) (c.put t (c.sh, (c.loc t).goto pc')))
    (hrec : pc'.unrecorded = pc.unrecorded) (hres : pc'.resizes = true → pc.resizes = true)
    (hleave : pc'.copying = none → pc.copying = none)
    (hplace : ((c.loc t).goto pc').At c.sh t)
    (hcopy : ∀ htOld htNew, pc'.copying = some (htOld, htNew) → Copying c.sh pc' htOld htNew) :
    Owners (c.put t (c.sh, (c.loc t).goto pc')) := by
  refine h.keep hids rfl rfl rfl rfl rfl (Or.inl rfl) (fun key _ => ?_) ?_ ?_ hplace hcopy
  · unfold Local.unrecorded
    rw [hpc, ← hrec]
    rfl
  · rw [hpc]
    exact hres
  · rw [hpc]
    exact hleave

/-- A step that writes to the current table. -/
theorem setCur (h : Owners c) {T : Table} {l' : Local}
    (hids : Ids (2 ^ 64 - 1) (c.put t (c.sh.setTab c.sh.ht T, l')))
    (hpos : 0 < T.numBuckets) (hplaced : T.Placed)
    (hhas : ∀ key, c.sh.cur.Has key → T.Has key)
    (hid : l'.glsId = (c.loc t).glsId)
    (hrecord : ∀ key, T.owner key = expected (c.put t (c.sh.setTab c.sh.ht T, l')) key)
    (howner : ∀ u, u ≠ t → ∀ key, c.sh.holder key = some u → T.owner key = c.sh.cur.owner key)
    (hres : l'.pc.resizes = true → (c.loc t).pc.resizes = true)
    (hquiet : l'.pc.copying = none → (c.loc t).pc.copying = none ∧ T.resized = c.sh.cur.resized)
    (hplace : l'.At (c.sh.setTab c.sh.ht T) t)
    (hcopy : ∀ htOld htNew, l'.pc.copying = some (htOld, htNew) →
      Copying (c.sh.setTab c.sh.ht T) l'.pc htOld htNew)
    (hcopies : ∀ u, u ≠ t → ∀ htOld htNew, (c.loc u).pc.copying = some (htOld, htNew) →
      Copying (c.sh.setTab c.sh.ht T) (c.loc u).pc htOld htNew) :
    Owners (c.put t (c.sh.setTab c.sh.ht T, l')) := by
  have htab : ∀ v, (c.sh.setTab c.sh.ht T).tab v = if v = c.sh.ht then T else c.sh.tab v :=
    Function.update_apply c.sh.tab c.sh.ht T
  have hcur : (c.sh.setTab c.sh.ht T).cur = T := Function.update_self ..
  have hmono : ∀ v key, (c.sh.tab v).Has key → ((c.sh.setTab c.sh.ht T).tab v).Has key := by
    intro v key hkey
    rw [htab v]
    split <;> rename_i hv
    · rw [hv] at hkey
      exact hhas key hkey
    · exact hkey
  refine h.put hids ⟨h.tabs.ht, fun v => ?_, fun v => ?_, fun v hv key hkey => ?_,
    fun v hv hne => ?_⟩ (fun key u hu => ?_) (fun key => ?_)
    (fun hl => ⟨h.lock t (hres hl), h.others (hres hl)⟩) (fun u _ hu => h.lock u hu) hplace
    (fun u hut => ?_) (fun hl hothers => ?_) hcopy hcopies
  · rw [htab v]
    split
    · exact hpos
    · exact h.tabs.pos v
  · rw [htab v]
    split
    · exact hplaced
    · exact h.tabs.placed v
  · rw [hcur]
    rw [htab v] at hkey
    split at hkey
    · exact hkey
    · exact hhas key (h.tabs.sub v hv key hkey)
  · have hne' : v ≠ c.sh.ht := hne
    rw [htab v, if_neg hne']
    exact h.tabs.retired v hv hne
  · rw [hcur]
    exact ⟨hhas key (h.held key u hu).1, h.holder_id hu fun _ => hid⟩
  · rw [hcur]
    exact hrecord key
  · refine (h.place u).mono le_rfl (fun _ hkey => hkey) (fun v _ => hmono v) (fun key hkey => ?_)
      fun v _ key hkey => ?_
    · rw [hcur]
      exact hhas key hkey
    · rw [htab v]
      split <;> rename_i hv
      · rw [hv]
        exact howner u hut key hkey
      · rfl
  · rw [hcur, (hquiet hl).2]
    exact h.quiet (all_of (hquiet hl).1 hothers)

end Owners

/-! ## What a write to the current table does to a resizer -/

section

variable {sh : Shared Tid} {pc : Pc} {htOld : Nat} {htNew : Table} {key : Addr}

omit [DecidableEq Tid]

/-- The current table is replaced. -/
theorem cur_setTab (T : Table) : (sh.setTab sh.ht T).cur = T := Function.update_self ..

/-- What is done is in buckets that are locked. -/
theorem Copying.resized_of_done (h : Copying sh pc htOld htNew) (hpos : 0 < sh.cur.numBuckets)
    (hpc : pc.copying = some (htOld, htNew)) (hdone : pc.done sh.cur key) :
    sh.cur.resized (sh.cur.bin key) = true := by
  refine (h.locked _).mpr ?_
  cases pc with
  | cpyLock _ _ b => exact hdone
  | cpySlot _ _ b i | cpyPut _ _ b i _ _ =>
      show sh.cur.bin key < b + 1
      have : sh.cur.bin key < b ∨ sh.cur.bin key = b := hdone.imp id And.left
      omega
  | swap _ _ => exact Table.bin_lt hpos key
  | _ => cases hpc

/-- A put in a bucket that is not locked. -/
theorem Copying.insert (h : Copying sh pc htOld htNew) (hpos : 0 < sh.cur.numBuckets)
    (hpc : pc.copying = some (htOld, htNew)) (hkey : ¬ sh.cur.Has key)
    (hbin : sh.cur.resized (sh.cur.bin key) = false) :
    Copying (sh.setTab sh.ht (sh.cur.insert key 0)) pc htOld htNew := by
  have hkeys : ∀ b, sh.cur.resized b = true → (sh.cur.insert key 0).keys b = sh.cur.keys b := by
    intro b hb
    refine Function.update_of_ne ?_ ..
    rintro rfl
    rw [hbin] at hb
    exact nomatch hb
  have hdone : ∀ k, pc.done (sh.cur.insert key 0) k ↔ pc.done sh.cur k := by
    intro k
    cases pc with
    | cpySlot _ _ b i | cpyPut _ _ b i _ _ =>
        show sh.cur.bin k < b ∨ sh.cur.bin k = b ∧ k ∈ ((sh.cur.insert key 0).keys b).take i ↔ _
        rw [hkeys b ((h.locked b).mpr (Nat.lt_succ_self b))]
        exact Iff.rfl
    | _ => exact Iff.rfl
  have hne : ∀ k, sh.cur.Has k → k ≠ key := by
    rintro k hk rfl
    exact hkey hk
  constructor
  · exact h.old
  · rw [cur_setTab]
    exact h.small
  · -- what is done was locked before the put
    rw [cur_setTab]
    refine Table.Copied.congr (h.copied.old (fun k hk => ?_) (fun k hk _ => ?_) fun _ hk => hk)
      fun k _ => hdone k
    · refine Table.has_insert.trans (or_iff_left ?_)
      rintro rfl
      rw [h.resized_of_done hpos hpc hk] at hbin
      exact nomatch hbin
    · rw [Table.insert_owner, if_neg (hne k hk)]
  · rw [cur_setTab]
    exact h.locked
  · rw [cur_setTab]
    exact h.le
  · intro b i k o hk
    obtain ⟨hget, hb, hread, ho⟩ := h.register b i k o hk
    have hhas : sh.cur.Has k := by
      show k ∈ sh.cur.keys (sh.cur.bin k)
      rw [hb]
      exact List.mem_of_getElem? hget
    have hlocked : sh.cur.resized b = true :=
      (h.locked b).mpr (by rw [hk]; exact Nat.lt_succ_self b)
    rw [cur_setTab, hkeys b hlocked, Table.insert_owner, if_neg (hne k hhas)]
    exact ⟨hget, hb, hread, ho⟩

/-- A write of an owner to a slot that has not been read. -/
theorem Copying.setOwner (h : Copying sh pc htOld htNew) {owner : Id}
    (hkey : sh.cur.copied key = false) :
    Copying (sh.setTab sh.ht (sh.cur.setOwner key owner)) pc htOld htNew := by
  have hne : ∀ k, sh.cur.copied k = true → k ≠ key := by
    rintro k hk rfl
    rw [hkey] at hk
    exact nomatch hk
  have howner : ∀ k, sh.cur.copied k = true →
      (sh.cur.setOwner key owner).owner k = sh.cur.owner k :=
    fun k hk => by rw [Table.setOwner_owner, if_neg (hne k hk)]
  constructor
  · exact h.old
  · rw [cur_setTab]
    exact h.small
  · rw [cur_setTab]
    exact h.copied.old (fun _ _ => Iff.rfl) (fun k _ => howner k) fun _ hk => hk
  · rw [cur_setTab]
    exact h.locked
  · rw [cur_setTab]
    exact h.le
  · intro b i k o hk
    obtain ⟨hget, hbin, hread, ho⟩ := h.register b i k o hk
    rw [cur_setTab]
    exact ⟨hget, hbin, hread, ho.trans (howner k hread).symm⟩

/-- A resizer has seen all the buckets. -/
theorem Copying.finish {b : Nat} (h : Copying sh (.cpyLock htOld htNew b) htOld htNew)
    (hpos : 0 < sh.cur.numBuckets) (hb : ¬ b < bucketsVisited sh.cur.numBuckets) :
    Copying sh (.swap htOld htNew) htOld htNew := by
  have hvisited : bucketsVisited sh.cur.numBuckets = sh.cur.numBuckets := min_eq_left h.small
  have hle : b ≤ sh.cur.numBuckets := h.le
  obtain rfl : b = sh.cur.numBuckets := by omega
  exact ⟨h.old, h.small, h.copied.congr fun key _ => iff_of_true trivial (Table.bin_lt hpos key),
    h.locked, h.le, nofun⟩

/-- A resizer has seen all the slots of a bucket. -/
theorem Copying.next {b i : Nat} (h : Copying sh (.cpySlot htOld htNew b i) htOld htNew)
    (hi : (sh.cur.keys b)[i]? = none) : Copying sh (.cpyLock htOld htNew (b + 1)) htOld htNew := by
  refine ⟨h.old, h.small, h.copied.congr fun key hkey => ?_, h.locked, h.le, nofun⟩
  show sh.cur.bin key < b + 1 ↔ sh.cur.bin key < b ∨ sh.cur.bin key = b ∧ _
  rw [List.take_of_length_le (List.getElem?_eq_none_iff.mp hi)]
  refine ⟨fun hlt => ?_, ?_⟩
  · rcases Nat.lt_succ_iff_lt_or_eq.mp hlt with hlt | heq
    · exact Or.inl hlt
    · refine Or.inr ⟨heq, ?_⟩
      rw [← heq]
      exact hkey
  · omega

/-- A resizer has copied a slot. -/
theorem Copying.putSeq {b i : Nat} {owner : Id}
    (h : Copying sh (.cpyPut htOld htNew b i key owner) htOld htNew) :
    Copying sh (.cpySlot htOld (htNew.insert key owner) b (i + 1)) htOld
      (htNew.insert key owner) := by
  obtain ⟨hget, hbin, hread, rfl⟩ := h.register b i key owner rfl
  have hhas : sh.cur.Has key := by
    show key ∈ sh.cur.keys (sh.cur.bin key)
    rw [hbin]
    exact List.mem_of_getElem? hget
  refine ⟨h.old, h.small, (h.copied.insert hhas hread).congr fun k _ => ?_, h.locked, h.le, nofun⟩
  show sh.cur.bin k < b ∨ sh.cur.bin k = b ∧ k ∈ (sh.cur.keys b).take (i + 1) ↔
    (sh.cur.bin k < b ∨ sh.cur.bin k = b ∧ k ∈ (sh.cur.keys b).take i) ∨ k = key
  rw [List.take_add_one, hget, List.mem_append, Option.toList_some, List.mem_singleton,
    and_or_left, or_assoc]
  refine or_congr_right (or_congr_right (and_iff_right_of_imp ?_))
  rintro rfl
  exact hbin

end

/-! ## One step -/

namespace Owners

variable {c : Conf Tid (Shared Tid) Local} {t : Tid}

omit [DecidableEq Tid] in
/-- The thread has the slot of its lock. -/
theorem at_ready {sh : Shared Tid} {l : Local} (hcall : l.call ≠ .unlock)
    (hhas : sh.cur.Has l.key) : (l.goto l.call.ready).At sh t := by
  cases hc : l.call with
  | unlock => exact absurd hc hcall
  | init => trivial
  | _ => exact ⟨hcall, hhas⟩

theorem ready_unrecorded {call : Call} (hcall : call ≠ .unlock) :
    call.ready.unrecorded = false ∧ call.ready.resizes = false ∧ call.ready.copying = none := by
  cases call with
  | unlock => exact absurd rfl hcall
  | _ => exact ⟨rfl, rfl, rfl⟩

/-- The put has returned. -/
theorem ready (h : Owners c) {pc : Pc} (hpc : (c.loc t).pc = pc)
    (hrec : pc.unrecorded = false) (hleave : pc.copying = none)
    (hids : Ids (2 ^ 64 - 1) (c.put t (c.sh, (c.loc t).goto (c.loc t).call.ready)))
    (hcall : (c.loc t).call ≠ .unlock) (hhas : c.sh.cur.Has (c.loc t).key) :
    Owners (c.put t (c.sh, (c.loc t).goto (c.loc t).call.ready)) := by
  obtain ⟨hrec', hres', hcopy'⟩ := ready_unrecorded hcall
  refine h.goto hpc hids (hrec'.trans hrec.symm) (fun hr => ?_) (fun _ => hleave)
    (at_ready hcall hhas) fun _ _ hc => ?_
  · rw [hres'] at hr
    exact nomatch hr
  · rw [hcopy'] at hc
    exact nomatch hc

/-- After a step of the walk over the owners. -/
theorem walked_quiet (myid : Id) (waitCycle : List Entry) (owner : Id) (addr : Addr) :
    (walked myid waitCycle owner addr).unrecorded = false ∧
      (walked myid waitCycle owner addr).resizes = false ∧
      (walked myid waitCycle owner addr).copying = none := by
  unfold walked
  dsimp only
  split
  · exact ⟨rfl, rfl, rfl⟩
  · split <;> exact ⟨rfl, rfl, rfl⟩

/-- An owner is written to a slot that no resizer has read. -/
theorem setOwner (h : Owners c) {owner : Id} {pc' : Pc}
    (hids : Ids (2 ^ 64 - 1) (c.put t (c.sh.setTab c.sh.ht
      (c.sh.cur.setOwner (c.loc t).key owner), (c.loc t).goto pc')))
    (hholder : c.sh.holder (c.loc t).key = some t)
    (hcopied : c.sh.cur.copied (c.loc t).key = false)
    (hrec : owner = if pc'.unrecorded then 0 else (c.loc t).glsId)
    (hres : pc'.resizes = false) (hleave : (c.loc t).pc.copying = none)
    (hplace : ((c.loc t).goto pc').At
      (c.sh.setTab c.sh.ht (c.sh.cur.setOwner (c.loc t).key owner)) t) :
    Owners (c.put t (c.sh.setTab c.sh.ht (c.sh.cur.setOwner (c.loc t).key owner),
      (c.loc t).goto pc')) := by
  refine h.setCur hids (h.tabs.pos _) (h.tabs.placed _) (fun _ hk => hk) rfl (fun key => ?_)
    (fun u hut key hkey => ?_) (fun hr => ?_) (fun _ => ⟨hleave, rfl⟩) hplace
    (fun htOld htNew hc => ?_) fun u _ htOld htNew hu => (h.copy u htOld htNew hu).setOwner hcopied
  · rw [Table.setOwner_owner]
    split <;> rename_i heq
    · -- this lock is the thread's, which is on record now or not any more
      subst heq
      unfold expected
      have hholder' : (c.sh.setTab c.sh.ht (c.sh.cur.setOwner (c.loc t).key owner)).holder
          (c.loc t).key = some t := hholder
      rw [put_sh, hholder']
      dsimp only
      rw [put_loc_self]
      unfold Local.unrecorded
      rw [hrec, decide_eq_true (show ((c.loc t).goto pc').key = (c.loc t).key from rfl),
        Bool.true_and]
      rfl
    · have hne : ∀ l : Local, l.key = (c.loc t).key → l.unrecorded key = false := by
        intro l hl
        unfold Local.unrecorded
        rw [hl, decide_eq_false (Ne.symm heq), Bool.false_and]
      rw [h.record key, expected_goto]
      · rfl
      · exact (hne ((c.loc t).goto pc') rfl).trans (hne _ rfl).symm
  · refine Table.setOwner_owner.trans (if_neg ?_)
    rintro rfl
    exact hut (Option.some.inj (hkey.symm.trans hholder))
  · rw [show ((c.loc t).goto pc').pc.resizes = pc'.resizes from rfl, hres] at hr
    exact nomatch hr
  · have hnone := Pc.resizes_of_copying hc
    rw [show ((c.loc t).goto pc').pc.resizes = pc'.resizes from rfl, hres] at hnone
    exact nomatch hnone

/-- A round of the detector ends. -/
theorem walked (h : Owners c) {pc : Pc} (hpc : (c.loc t).pc = pc)
    (hrec : pc.unrecorded = false) (hleave : pc.copying = none) {waitCycle : List Entry}
    {owner : Id} {addr : Addr}
    (hids : Ids (2 ^ 64 - 1) (c.put t (c.sh,
      (c.loc t).goto (GlsDeadlock.walked (c.loc t).glsId waitCycle owner addr))))
    (hat : (c.loc t).call ≠ .unlock ∧ c.sh.cur.Has (c.loc t).key) :
    Owners (c.put t (c.sh,
      (c.loc t).goto (GlsDeadlock.walked (c.loc t).glsId waitCycle owner addr))) := by
  obtain ⟨hrec', hres', hcopy'⟩ := walked_quiet (c.loc t).glsId waitCycle owner addr
  refine h.goto hpc hids (hrec'.trans hrec.symm) (fun hr => ?_) (fun _ => hleave) ?_
    fun _ _ hc => ?_
  · rw [hres'] at hr
    exact nomatch hr
  · unfold GlsDeadlock.walked
    dsimp only
    split
    · trivial
    · split <;> exact hat
  · rw [hcopy'] at hc
    exact nomatch hc

/-- A put makes a slot, and goes on to `ht_status` or returns. -/
theorem insert (h : Owners c) {v hashtable : Nat} (hpc : (c.loc t).pc = .lockAcq v hashtable)
    {pc' : Pc} (hpc' : pc' = .status ∨ pc' = (c.loc t).call.ready)
    (hids : Ids (2 ^ 64 - 1) (c.put t
      (c.sh.setTab c.sh.ht (c.sh.cur.insert (c.loc t).key 0), (c.loc t).goto pc')))
    (hcall : (c.loc t).call ≠ .unlock) (hhas : ¬ c.sh.cur.Has (c.loc t).key)
    (hlock : c.sh.cur.resized (c.sh.cur.bin (c.loc t).key) = false) :
    Owners (c.put t
      (c.sh.setTab c.sh.ht (c.sh.cur.insert (c.loc t).key 0), (c.loc t).goto pc')) := by
  -- nobody has a lock that is not in the table
  have hfree : c.sh.holder (c.loc t).key = none := by
    cases hown : c.sh.holder (c.loc t).key with
    | none => rfl
    | some u => exact absurd (h.held _ u hown).1 hhas
  have hzero : c.sh.cur.owner (c.loc t).key = 0 := by
    rw [h.record]
    unfold expected
    rw [hfree]
  have hsame : ∀ key, (c.sh.cur.insert (c.loc t).key 0).owner key = c.sh.cur.owner key := by
    intro key
    rw [Table.insert_owner]
    split <;> rename_i heq
    · rw [heq, hzero]
    · rfl
  have hhas' : (c.sh.setTab c.sh.ht (c.sh.cur.insert (c.loc t).key 0)).cur.Has (c.loc t).key := by
    rw [cur_setTab]
    exact Table.has_insert.mpr (Or.inr rfl)
  obtain ⟨hrec, hres, hcopy⟩ : pc'.unrecorded = false ∧ pc'.resizes = false ∧
      pc'.copying = none := by
    rcases hpc' with rfl | rfl
    · exact ⟨rfl, rfl, rfl⟩
    · exact ready_unrecorded hcall
  refine h.setCur hids (h.tabs.pos _) (h.tabs.placed _).insert
    (fun key hkey => Table.has_insert.mpr (Or.inl hkey)) rfl (fun key => ?_)
    (fun _ _ key _ => hsame key) (fun hr => ?_) (fun _ => ⟨by rw [hpc]; rfl, rfl⟩)
    ?_ (fun o T hc => ?_)
    fun u _ htOld htNew hu => (h.copy u htOld htNew hu).insert (h.tabs.pos _) hu hhas hlock
  · rw [hsame key, h.record key]
    exact (expected_quiet hpc rfl hrec rfl).symm
  · rw [show ((c.loc t).goto pc').pc.resizes = pc'.resizes from rfl, hres] at hr
    exact nomatch hr
  · rcases hpc' with rfl | rfl
    · exact ⟨hcall, hhas'⟩
    · exact at_ready hcall hhas'
  · rw [show ((c.loc t).goto pc').pc.copying = pc'.copying from rfl, hcopy] at hc
    exact nomatch hc

/-- The lock object changes hands: the thread that takes it, or releases it, is not on record
    for it. -/
theorem setHolder (h : Owners c) {holder : Option Tid} {pc' : Pc}
    (hids : Ids (2 ^ 64 - 1) (c.put t
      ({ c.sh with holder := Function.update c.sh.holder (c.loc t).key holder },
        (c.loc t).goto pc')))
    (hbefore : ∀ u, c.sh.holder (c.loc t).key = some u →
      u = t ∧ (c.loc t).unrecorded (c.loc t).key = true)
    (hafter : ∀ u, holder = some u →
      u = t ∧ pc'.unrecorded = true ∧ c.sh.cur.Has (c.loc t).key ∧ (c.loc t).glsId ≠ 0)
    (hrec : ∀ key, key ≠ (c.loc t).key →
      ((c.loc t).goto pc').unrecorded key = (c.loc t).unrecorded key)
    (hres : pc'.resizes = false) (hleave : (c.loc t).pc.copying = none)
    (hplace : ((c.loc t).goto pc').At
      { c.sh with holder := Function.update c.sh.holder (c.loc t).key holder } t) :
    Owners (c.put t
      ({ c.sh with holder := Function.update c.sh.holder (c.loc t).key holder },
        (c.loc t).goto pc')) := by
  have hother : ∀ u, u ≠ t → ∀ key, c.sh.holder key = some u →
      Function.update c.sh.holder (c.loc t).key holder key = some u := by
    intro u hut key hkey
    rw [Function.update_of_ne]
    · exact hkey
    · rintro rfl
      exact hut (hbefore u hkey).1
  have hquiet : pc'.copying = none := by
    cases hc : pc'.copying with
    | none => rfl
    | some p =>
        rw [Pc.resizes_of_copying hc] at hres
        exact nomatch hres
  -- the tables are what they were
  refine h.put hids ⟨h.tabs.ht, h.tabs.pos, h.tabs.placed, h.tabs.sub, h.tabs.retired⟩
    (fun key u hu => ?_) (fun key => ?_) (fun hr => ?_) (fun u _ hu => h.lock u hu) hplace
    (fun u hut => (h.place u).mono le_rfl (hother u hut) (fun _ _ _ hk => hk) (fun _ hk => hk)
      fun _ _ _ _ => rfl)
    (fun _ hothers => h.quiet (all_of hleave hothers)) (fun htOld htNew hc => ?_)
    fun u _ htOld htNew hu => ?_
  · have hkey : Function.update c.sh.holder (c.loc t).key holder key = some u := hu
    rw [Function.update_apply] at hkey
    split at hkey <;> rename_i heq
    · obtain ⟨rfl, -, hhas, hid⟩ := hafter u hkey
      rw [heq, put_loc_self]
      exact ⟨hhas, hid⟩
    · exact ⟨(h.held key u hkey).1, h.holder_id hkey fun _ => rfl⟩
  · have hcur : c.sh.cur.owner key = expected c key := h.record key
    by_cases heq : key = (c.loc t).key
    · -- nobody is on record, before and after
      have hzero : expected c key = 0 := by
        unfold expected
        cases hown : c.sh.holder key with
        | none => rfl
        | some u =>
            rw [heq] at hown ⊢
            obtain ⟨rfl, hu⟩ := hbefore u hown
            dsimp only
            rw [if_pos hu]
      refine hcur.trans (hzero.trans ?_)
      unfold expected
      rw [put_sh]
      dsimp only
      rw [heq, Function.update_self]
      cases hown : holder with
      | none => rfl
      | some u =>
          obtain ⟨rfl, hu, -, -⟩ := hafter u hown
          dsimp only
          rw [put_loc_self, if_pos]
          unfold Local.unrecorded
          rw [Bool.and_eq_true]
          exact ⟨decide_eq_true rfl, hu⟩
    · refine hcur.trans (expected_goto ?_ (hrec key heq)).symm
      exact Function.update_of_ne heq ..
  · rw [show ((c.loc t).goto pc').pc.resizes = pc'.resizes from rfl, hres] at hr
    exact nomatch hr
  · rw [show ((c.loc t).goto pc').pc.copying = pc'.copying from rfl, hquiet] at hc
    exact nomatch hc
  · exact (h.copy u htOld htNew hu).of_cur rfl rfl

/-- `resize_lock` is taken or released. -/
theorem setResizeLock (h : Owners c) {resizeLock : Bool} {pc pc' : Pc} (hpc : (c.loc t).pc = pc)
    (hids : Ids (2 ^ 64 - 1) (c.put t
      ({ c.sh with resizeLock := resizeLock }, (c.loc t).goto pc')))
    (hrec : pc'.unrecorded = pc.unrecorded)
    (hothers : ∀ u, u ≠ t → (c.loc u).pc.resizes = false)
    (hlock : pc'.resizes = true → resizeLock = true) (hleave : pc.copying = none)
    (hplace : ((c.loc t).goto pc').At c.sh t)
    (hcopy : ∀ htOld htNew, pc'.copying = some (htOld, htNew) → Copying c.sh pc' htOld htNew) :
    Owners (c.put t ({ c.sh with resizeLock := resizeLock }, (c.loc t).goto pc')) := by
  refine h.put hids ⟨h.tabs.ht, h.tabs.pos, h.tabs.placed, h.tabs.sub, h.tabs.retired⟩
    (fun key u hu => ?_) (fun key => (h.record key).trans (expected_goto ?_ ?_).symm)
    (fun hr => ⟨hlock hr, hothers⟩) (fun u hut hu => ?_) hplace (fun u _ => h.place u)
    (fun _ hall => h.quiet (all_of ?_ hall))
    (fun htOld htNew hc => (hcopy htOld htNew hc).of_cur rfl rfl)
    fun u _ htOld htNew hu => (h.copy u htOld htNew hu).of_cur rfl rfl
  · exact ⟨(h.held key u hu).1, h.holder_id hu fun _ => rfl⟩
  · rfl
  · unfold Local.unrecorded
    rw [hpc, ← hrec]
    rfl
  · rw [hothers u hut] at hu
    exact nomatch hu
  · rw [hpc]
    exact hleave

omit [DecidableEq Tid] in
/-- A resizer starts. -/
theorem copying_start (h : Owners c) (hnone : ∀ u, (c.loc u).pc.resizes = false)
    (hsmall : c.sh.cur.numBuckets ≤ 2 ^ 31) {n : Nat} (hn : 0 < n) :
    Copying c.sh (.cpyLock c.sh.ht (.create n) 0) c.sh.ht (.create n) where
  old := rfl
  small := hsmall
  copied := .create hn fun _ => Nat.not_lt_zero _
  locked := by
    have hquiet := h.quiet fun u => by
      cases hc : (c.loc u).pc.copying with
      | none => rfl
      | some p =>
          have := Pc.resizes_of_copying hc
          rw [hnone u] at this
          exact nomatch this
    intro b
    rw [hquiet b]
    exact iff_of_false nofun (Nat.not_lt_zero b)
  le := Nat.zero_le _
  register := nofun

/-- A resizer locks a bucket. -/
theorem lockResize (h : Owners c) {htNew : Table} {b : Nat}
    (hpc : (c.loc t).pc = .cpyLock c.sh.ht htNew b)
    (hids : Ids (2 ^ 64 - 1) (c.put t
      (c.sh.setTab c.sh.ht (c.sh.cur.lockResize b), (c.loc t).goto (.cpySlot c.sh.ht htNew b 0))))
    (hat : (c.loc t).call ≠ .unlock ∧ c.sh.cur.Has (c.loc t).key)
    (hb : b < bucketsVisited c.sh.cur.numBuckets) :
    Owners (c.put t
      (c.sh.setTab c.sh.ht (c.sh.cur.lockResize b),
        (c.loc t).goto (.cpySlot c.sh.ht htNew b 0))) := by
  have hcopy := h.copy t c.sh.ht htNew (by rw [hpc]; rfl)
  rw [hpc] at hcopy
  have hres : (c.loc t).pc.resizes = true := by rw [hpc]; rfl
  refine h.setCur hids (h.tabs.pos _) (h.tabs.placed _) (fun _ hk => hk) rfl (fun key => ?_)
    (fun _ _ _ _ => rfl) (fun _ => hres) nofun ?_ (fun o T hc => ?_) fun u hut o T hu => ?_
  · exact (h.record key).trans (expected_quiet hpc rfl rfl rfl).symm
  · refine ⟨hat.1, ?_⟩
    rw [cur_setTab]
    exact hat.2
  · obtain ⟨rfl, rfl⟩ := Prod.mk.inj (Option.some.inj hc)
    refine ⟨rfl, ?_, ?_, ?_, ?_, nofun⟩ <;> rw [cur_setTab]
    · exact hcopy.small
    · -- nothing of this bucket is copied yet
      refine (hcopy.copied.old (S := c.sh.cur.lockResize b) (fun _ _ => Iff.rfl)
        (fun _ _ _ => rfl) fun _ hk => hk).congr fun key _ => ?_
      refine or_iff_left ?_
      rintro ⟨-, hmem⟩
      exact absurd hmem List.not_mem_nil
    · intro b'
      show Function.update c.sh.cur.resized b true b' = true ↔ b' < b + 1
      rw [Function.update_apply]
      split <;> rename_i hb'
      · exact iff_of_true rfl (by omega)
      · refine (hcopy.locked b').trans ?_
        show b' < b ↔ _
        omega
    · exact hb.trans_le (min_le_left ..)
  · exact absurd hu (h.no_other hres hut)

/-- `bucket_cpy` reads a slot. -/
theorem setCopied (h : Owners c) {htNew : Table} {b i : Nat} {key : Addr}
    (hpc : (c.loc t).pc = .cpySlot c.sh.ht htNew b i)
    (hids : Ids (2 ^ 64 - 1) (c.put t (c.sh.setTab c.sh.ht (c.sh.cur.setCopied key),
      (c.loc t).goto (.cpyPut c.sh.ht htNew b i key (c.sh.cur.owner key)))))
    (hat : (c.loc t).call ≠ .unlock ∧ c.sh.cur.Has (c.loc t).key)
    (hkey : (c.sh.cur.keys b)[i]? = some key) :
    Owners (c.put t (c.sh.setTab c.sh.ht (c.sh.cur.setCopied key),
      (c.loc t).goto (.cpyPut c.sh.ht htNew b i key (c.sh.cur.owner key)))) := by
  have hcopy := h.copy t c.sh.ht htNew (by rw [hpc]; rfl)
  rw [hpc] at hcopy
  have hres : (c.loc t).pc.resizes = true := by rw [hpc]; rfl
  have hread : ∀ k, c.sh.cur.copied k = true ∨ k = key →
      (c.sh.cur.setCopied key).copied k = true := by
    intro k hk
    show Function.update c.sh.cur.copied key true k = true
    rw [Function.update_apply]
    split <;> rename_i heq
    · rfl
    · exact hk.resolve_right heq
  refine h.setCur hids (h.tabs.pos _) (h.tabs.placed _) (fun _ hk => hk) rfl (fun k => ?_)
    (fun _ _ _ _ => rfl) (fun _ => hres) nofun ?_ (fun o T hc => ?_) fun u hut o T hu => ?_
  · exact (h.record k).trans (expected_quiet hpc rfl rfl rfl).symm
  · refine ⟨hat.1, ?_⟩
    rw [cur_setTab]
    exact hat.2
  · obtain ⟨rfl, rfl⟩ := Prod.mk.inj (Option.some.inj hc)
    refine ⟨rfl, ?_, ?_, ?_, ?_, ?_⟩ <;> rw [cur_setTab]
    · exact hcopy.small
    · exact hcopy.copied.old (fun _ _ => Iff.rfl) (fun _ _ _ => rfl)
        fun k hk => hread k (Or.inl hk)
    · exact hcopy.locked
    · exact hcopy.le
    · intro b' i' k o heq
      injection heq with _ _ hb hi hk ho
      subst hb hi hk ho
      exact ⟨hkey, h.tabs.placed _ b key (List.mem_of_getElem? hkey), hread key (Or.inr rfl), rfl⟩
  · exact absurd hu (h.no_other hres hut)

/-- The new table is published. -/
theorem swap (h : Owners c) {htNew : Table} {again : Bool}
    (hpc : (c.loc t).pc = .swap c.sh.ht htNew)
    (hids : Ids (2 ^ 64 - 1) (c.put t
      ({ c.sh.setTab c.sh.numTabs htNew with numTabs := c.sh.numTabs + 1, ht := c.sh.numTabs },
        (c.loc t).goto (.resizeRls again))))
    (hat : (c.loc t).call ≠ .unlock ∧ c.sh.cur.Has (c.loc t).key) :
    Owners (c.put t
      ({ c.sh.setTab c.sh.numTabs htNew with numTabs := c.sh.numTabs + 1, ht := c.sh.numTabs },
        (c.loc t).goto (.resizeRls again))) := by
  have hcopy := h.copy t c.sh.ht htNew (by rw [hpc]; rfl)
  rw [hpc] at hcopy
  have hres : (c.loc t).pc.resizes = true := by rw [hpc]; rfl
  have hhas : ∀ key, c.sh.cur.Has key → htNew.Has key :=
    fun key hkey => (hcopy.copied.has key).mpr ⟨hkey, trivial⟩
  have htab : ∀ v, (c.sh.setTab c.sh.numTabs htNew).tab v =
      if v = c.sh.numTabs then htNew else c.sh.tab v :=
    Function.update_apply c.sh.tab c.sh.numTabs htNew
  have hcur : Shared.cur { c.sh.setTab c.sh.numTabs htNew with
      numTabs := c.sh.numTabs + 1, ht := c.sh.numTabs } = htNew := Function.update_self ..
  refine h.put hids ⟨Nat.lt_succ_self _, fun v => ?_, fun v => ?_, fun v hv key hkey => ?_,
    fun v hv hne b hb => ?_⟩ (fun key u hu => ?_) (fun key => ?_)
    (fun _ => ⟨h.lock t hres, h.others hres⟩) (fun u _ hu => h.lock u hu) ⟨hat.1, ?_⟩
    (fun u _ => ?_) (fun _ _ b => ?_) nofun fun u hut o T hu => ?_
  · dsimp only
    rw [htab v]
    split
    · exact hcopy.copied.pos
    · exact h.tabs.pos v
  · dsimp only
    rw [htab v]
    split
    · exact hcopy.copied.placed
    · exact h.tabs.placed v
  · dsimp only at hv hkey
    rw [hcur]
    rw [htab v] at hkey
    split at hkey <;> rename_i heq
    · exact hkey
    · exact hhas key (h.tabs.sub v (by omega) key hkey)
  · dsimp only at hv hne hb ⊢
    rw [htab v, if_neg hne] at hb ⊢
    by_cases hold : v = c.sh.ht
    · subst hold
      exact (hcopy.locked b).mpr hb
    · exact h.tabs.retired v (by omega) hold b hb
  · rw [hcur]
    exact ⟨hhas key (h.held key u hu).1, h.holder_id hu fun _ => rfl⟩
  · have hexp : expected c key = expected (c.put t
        ({ c.sh.setTab c.sh.numTabs htNew with
          numTabs := c.sh.numTabs + 1, ht := c.sh.numTabs },
          (c.loc t).goto (.resizeRls again))) key := (expected_quiet hpc rfl rfl rfl).symm
    rw [hcur, ← hexp]
    by_cases hkey : htNew.Has key
    · exact (hcopy.copied.owner key hkey).trans (h.record key)
    · -- the old table had no slot for it either, so that nobody has this lock
      rw [hcopy.copied.vacant key hkey]
      unfold expected
      cases hown : c.sh.holder key with
      | none => rfl
      | some u => exact absurd (hhas key (h.held key u hown).1) hkey
  · rw [hcur]
    exact hhas _ hat.2
  · have hsame : ∀ v < c.sh.numTabs, (c.sh.setTab c.sh.numTabs htNew).tab v = c.sh.tab v := by
      intro v hv
      rw [htab v, if_neg hv.ne]
    refine (h.place u).mono (Nat.le_succ _) (fun _ hk => hk) (fun v hv key hk => ?_)
      (fun key hk => ?_) fun v hv key _ => ?_
    · dsimp only
      rwa [hsame v hv]
    · rw [hcur]
      exact hhas key hk
    · dsimp only
      rw [hsame v hv]
  · rw [hcur]
    exact hcopy.copied.unlocked b
  · exact absurd hu (h.no_other hres hut)

omit [DecidableEq Tid] in
/-- The counters of the tables are nobody's concern here. -/
theorem setNumExpands (h : Owners c) (numExpands : Nat → BitVec 32) :
    Owners { c with sh := { c.sh with numExpands := numExpands } } where
  ids := ⟨h.ids.le, h.ids.mine, h.ids.apart, h.ids.tab, h.ids.knows⟩
  tabs := ⟨h.tabs.ht, h.tabs.pos, h.tabs.placed, h.tabs.sub, h.tabs.retired⟩
  held := h.held
  record := h.record
  lock := h.lock
  alone := h.alone
  place := h.place
  quiet := h.quiet
  copy := fun t htOld htNew ht => (h.copy t htOld htNew ht).of_cur rfl rfl

/-- **Every step keeps the owners.** -/
theorem go_step (h : Owners c) {r : Shared Tid × Local} (hids : Ids (2 ^ 64 - 1) (c.put t r))
    (hfresh : fresh c t) (htimely : timely c t)
    (hs : go t c.sh (c.loc t) (c.loc t).pc = some r) : Owners (c.put t r) := by
  have hat := h.place t
  unfold Local.At at hat
  unfold fresh at hfresh
  unfold timely at htimely
  have hloc : (c.loc t).pc.unrecorded = false → ∀ key, (c.loc t).unrecorded key = false :=
    Local.unrecorded_of
  generalize hpc : (c.loc t).pc = pc at hs hat hfresh htimely hloc
  cases pc with
  | outside | exited | crash => cases hs
  | putHt =>
      obtain rfl := Option.some.inj hs
      exact h.goto hpc hids rfl nofun (fun _ => rfl) ⟨hat, h.tabs.ht⟩ nofun
  | retryHt =>
      obtain rfl := Option.some.inj hs
      exact h.goto hpc hids rfl nofun (fun _ => rfl) ⟨hat, h.tabs.ht⟩ nofun
  | implHt v =>
      obtain rfl := Option.some.inj hs
      exact h.goto hpc hids rfl nofun (fun _ => rfl) hat nofun
  | search v =>
      obtain rfl := Option.some.inj hs
      split at hids <;> rename_i hhas
      · rw [if_pos hhas]
        exact h.ready hpc rfl rfl hids hat.1 (h.tabs.sub v hat.2 _ hhas)
      · rw [if_neg hhas]
        exact h.goto hpc hids rfl nofun (fun _ => rfl) hat nofun
  | setId =>
      obtain rfl := Option.some.inj hs
      unfold glsGetId at hids ⊢
      split at hids <;> rename_i hzero
      · -- a thread without an id has no lock
        rw [if_pos hzero]
        refine h.keep hids rfl rfl rfl rfl rfl (Or.inr hzero) (fun key _ => ?_) nofun
          (fun _ => by rw [hpc]; rfl) hat nofun
        exact (Local.unrecorded_of rfl key).trans (hloc rfl key).symm
      · rw [if_neg hzero]
        exact h.goto hpc hids rfl nofun (fun _ => rfl) hat nofun
  | set =>
      obtain rfl := Option.some.inj hs
      refine h.keep hids rfl rfl rfl rfl rfl (Or.inl rfl) (fun key _ => ?_) nofun
        (fun _ => by rw [hpc]; rfl) hat nofun
      exact (Local.unrecorded_of rfl key).trans (hloc rfl key).symm
  | get v =>
      obtain ⟨hholder, hv, hhas, howner⟩ := hat
      obtain rfl := Option.some.inj hs
      have hget : glsGetId c.sh (c.loc t) (.clear v) = (c.sh, (c.loc t).goto (.clear v)) :=
        if_neg (h.held _ t hholder).2
      rw [if_pos hhas, hget] at hids ⊢
      exact h.goto hpc hids rfl nofun (fun _ => rfl) hholder nofun
  | clear v =>
      -- `timely`: the slot is in the current table, and no resizer has read it
      obtain ⟨rfl, hcopied⟩ := htimely
      obtain rfl := Option.some.inj hs
      exact h.setOwner hids hat hcopied rfl rfl (by rw [hpc]; rfl) hat
  | own v =>
      obtain ⟨rfl, hcopied⟩ := htimely
      have hhas : (c.sh.tab c.sh.ht).Has (c.loc t).key := (h.held _ t hat).1
      dsimp only [go] at hs
      rw [if_pos hhas] at hs
      obtain rfl := Option.some.inj hs
      exact h.setOwner hids hat hcopied rfl rfl (by rw [hpc]; rfl) trivial
  | ownHt =>
      obtain rfl := Option.some.inj hs
      exact h.goto hpc hids rfl nofun (fun _ => rfl) hat nofun
  | getHt =>
      obtain rfl := Option.some.inj hs
      have hrec : c.sh.cur.owner (c.loc t).key = (c.loc t).glsId := by
        rw [h.record]
        unfold expected
        rw [hat]
        dsimp only
        rw [hloc rfl]
        rfl
      exact h.goto hpc hids rfl nofun (fun _ => rfl) ⟨hat, h.tabs.ht, (h.held _ t hat).1, hrec⟩
        nofun
  | lockAcq v hashtable =>
      obtain ⟨hcall, hv⟩ := hat
      dsimp only [go] at hs
      split at hs <;> rename_i hlock
      · obtain rfl := Option.some.inj hs
        exact h.goto hpc hids rfl nofun (fun _ => rfl) hcall nofun
      · -- the older tables are locked for good
        obtain rfl : v = c.sh.ht := by
          by_contra hne
          exact hlock (h.tabs.retired v hv hne _ (Table.bin_lt (h.tabs.pos v) _))
        split at hs <;> rename_i hhas
        · obtain rfl := Option.some.inj hs
          exact h.ready hpc rfl rfl hids hcall hhas
        · have hfree := Bool.eq_false_of_not_eq_true hlock
          split at hs
          · obtain rfl := Option.some.inj hs
            exact h.insert hpc (Or.inr rfl) hids hcall hhas hfree
          · obtain rfl := Option.some.inj hs
            refine (h.insert hpc ?_ ⟨hids.le, hids.mine, hids.apart, hids.tab, hids.knows⟩ hcall
              hhas hfree).setNumExpands (Function.update c.sh.numExpands hashtable _)
            split
            · exact Or.inl rfl
            · exact Or.inr rfl
  | status | resizeHt _ _ =>
      obtain rfl := Option.some.inj hs
      exact h.goto hpc hids rfl nofun (fun _ => rfl) hat nofun
  | statusScan v b i size =>
      dsimp only [go] at hs
      split at hs
      · split at hs <;> obtain rfl := Option.some.inj hs <;>
          exact h.goto hpc hids rfl nofun (fun _ => rfl) hat nofun
      · obtain rfl := Option.some.inj hs
        exact h.goto hpc hids rfl nofun (fun _ => rfl) hat nofun
  | resizeTry isIncrease by_ htOld =>
      dsimp only [go] at hs
      split at hs <;> rename_i hlock
      · obtain rfl := Option.some.inj hs
        exact h.ready hpc rfl rfl hids hat.1 hat.2
      · obtain rfl := Option.some.inj hs
        have hnone : ∀ u, (c.loc u).pc.resizes = false := by
          intro u
          cases hu : (c.loc u).pc.resizes with
          | false => rfl
          | true => exact absurd (h.lock u hu) hlock
        obtain ⟨rfl, hsmall⟩ := hfresh (Bool.eq_false_of_not_eq_true hlock)
        split at hids <;> rename_i hzero
        · rw [if_pos hzero]
          exact h.setResizeLock hpc hids rfl (fun u _ => hnone u) nofun rfl hat nofun
        · rw [if_neg hzero]
          refine h.setResizeLock hpc hids rfl (fun u _ => hnone u) (fun _ => rfl) rfl hat
            fun o T hc => ?_
          obtain ⟨rfl, rfl⟩ := Prod.mk.inj (Option.some.inj hc)
          exact h.copying_start hnone hsmall (Nat.pos_of_ne_zero hzero)
  | cpyLock htOld htNew b =>
      have hcopy := h.copy t htOld htNew (by rw [hpc]; rfl)
      rw [hpc] at hcopy
      obtain rfl := hcopy.old
      dsimp only [go] at hs
      split at hs <;> rename_i hb
      · split at hs <;> rename_i hlock
        · -- buckets are locked one after the other, and `b` is the next one
          exact absurd ((hcopy.locked b).mp hlock) (lt_irrefl b)
        · obtain rfl := Option.some.inj hs
          exact h.lockResize hpc hids hat hb
      · obtain rfl := Option.some.inj hs
        refine h.goto hpc hids rfl (fun _ => rfl) nofun hat fun o T hc => ?_
        obtain ⟨rfl, rfl⟩ := Prod.mk.inj (Option.some.inj hc)
        exact hcopy.finish (h.tabs.pos _) hb
  | cpySlot htOld htNew b i =>
      have hcopy := h.copy t htOld htNew (by rw [hpc]; rfl)
      rw [hpc] at hcopy
      obtain rfl := hcopy.old
      dsimp only [go] at hs
      split at hs <;> rename_i hkey
      · obtain rfl := Option.some.inj hs
        exact h.setCopied hpc hids hat hkey
      · obtain rfl := Option.some.inj hs
        refine h.goto hpc hids rfl (fun _ => rfl) nofun hat fun o T hc => ?_
        obtain ⟨rfl, rfl⟩ := Prod.mk.inj (Option.some.inj hc)
        exact hcopy.next hkey
  | cpyPut htOld htNew b i key owner =>
      have hcopy := h.copy t htOld htNew (by rw [hpc]; rfl)
      rw [hpc] at hcopy
      obtain rfl := Option.some.inj hs
      refine h.goto hpc hids rfl (fun _ => rfl) nofun hat fun o T hc => ?_
      obtain ⟨rfl, rfl⟩ := Prod.mk.inj (Option.some.inj hc)
      exact hcopy.putSeq
  | swap htOld htNew =>
      obtain rfl := (h.copy t htOld htNew (by rw [hpc]; rfl)).old
      obtain rfl := Option.some.inj hs
      exact (h.swap hpc ⟨hids.le, hids.mine, hids.apart, hids.tab, hids.knows⟩ hat).setNumExpands _
  | resizeRls again =>
      obtain rfl := Option.some.inj hs
      have hothers := h.others (by rw [hpc]; rfl)
      split at hids <;> rename_i hagain
      · rw [if_pos hagain]
        exact h.setResizeLock hpc hids rfl hothers nofun rfl hat nofun
      · rw [if_neg hagain]
        obtain ⟨hrec, hres, hcopy⟩ := ready_unrecorded hat.1
        refine h.setResizeLock hpc hids hrec hothers (fun hr => ?_) rfl (at_ready hat.1 hat.2)
          fun _ _ hc => ?_
        · rw [hres] at hr
          exact nomatch hr
        · rw [hcopy] at hc
          exact nomatch hc
  | acquire =>
      dsimp only [go] at hs
      split at hs <;> rename_i hfree
      · obtain rfl := Option.some.inj hs
        have hknows := h.ids.knows t
        unfold Local.Knows at hknows
        rw [hpc] at hknows
        refine h.setHolder hids (fun u hu => ?_) (fun u hu => ?_) (fun key hkey => ?_) rfl
          (by rw [hpc]; rfl) fun _ => Function.update_self ..
        · rw [hfree] at hu
          exact nomatch hu
        · obtain rfl := Option.some.inj hu
          exact ⟨rfl, rfl, hat.2, hknows⟩
        · rw [hloc rfl key]
          unfold Local.unrecorded
          rw [show ((c.loc t).goto (.unsetLoad true)).key = (c.loc t).key from rfl,
            decide_eq_false (Ne.symm hkey), Bool.false_and]
      · obtain ⟨-, hr⟩ := Option.ite_none_right_eq_some.mp hs
        obtain rfl := Option.some.inj hr
        exact h.goto hpc hids rfl nofun (fun _ => rfl) nofun nofun
  | release =>
      obtain rfl := Option.some.inj hs
      refine h.setHolder hids (fun u hu => ?_) nofun (fun key hkey => ?_) rfl
        (by rw [hpc]; rfl) trivial
      · obtain rfl := Option.some.inj (hat.symm.trans hu)
        refine ⟨rfl, ?_⟩
        unfold Local.unrecorded
        rw [hpc, decide_eq_true rfl]
        rfl
      · rw [Local.unrecorded_of (l := (c.loc t).goto .outside) rfl key]
        unfold Local.unrecorded
        rw [decide_eq_false (Ne.symm hkey), Bool.false_and]
  | checkTry =>
      obtain rfl := Option.some.inj hs
      refine h.keep hids rfl rfl rfl rfl rfl (Or.inl rfl) (fun key _ => ?_) ?_
        (fun _ => by rw [hpc]; rfl) ?_ ?_
      · rw [hloc rfl key]
        exact Local.unrecorded_of (by split <;> rfl) key
      · split <;> exact nofun
      · split <;> exact hat
      · split <;> exact nofun
  | checkRls =>
      obtain rfl := Option.some.inj hs
      refine h.keep hids rfl rfl rfl rfl rfl (Or.inl rfl) (fun key _ => ?_) nofun
        (fun _ => by rw [hpc]; rfl) hat nofun
      exact (Local.unrecorded_of rfl key).trans (hloc rfl key).symm
  | checkOwn =>
      obtain rfl := Option.some.inj hs
      exact h.goto hpc hids rfl nofun (fun _ => rfl) hat nofun
  | walkHt waitCycle waitOn owner =>
      obtain rfl := Option.some.inj hs
      exact h.goto hpc hids rfl nofun (fun _ => rfl) hat nofun
  | walk waitCycle waitOn owner v =>
      obtain rfl := Option.some.inj hs
      split at hids <;> rename_i howner
      · rw [if_pos howner]
        exact h.goto hpc hids rfl nofun (fun _ => rfl) hat nofun
      · rw [if_neg howner]
        exact h.walked hpc rfl rfl hids hat
  | walkWaiting waitCycle owner =>
      obtain rfl := Option.some.inj hs
      exact h.walked hpc rfl rfl hids hat
  | unsetLoad acquired =>
      obtain rfl := Option.some.inj hs
      split at hids <;> rename_i hwait
      · rw [if_pos hwait]
        exact h.goto hpc hids rfl nofun (fun _ => rfl) hat nofun
      · rw [if_neg hwait]
        cases acquired
        · exact h.goto hpc hids rfl nofun (fun _ => rfl) trivial nofun
        · exact h.goto hpc hids rfl nofun (fun _ => rfl) (hat rfl) nofun
  | unsetStore acquired =>
      obtain rfl := Option.some.inj hs
      refine h.keep hids rfl rfl rfl rfl rfl (Or.inl rfl) (fun key _ => ?_) ?_
        (fun _ => by rw [hpc]; rfl) ?_ ?_
      · unfold Local.unrecorded
        rw [hpc]
        cases acquired <;> rfl
      · cases acquired <;> exact nofun
      · cases acquired
        · trivial
        · exact hat rfl
      · cases acquired <;> exact nofun

/-- **Step lemma.** A step that keeps to the condition keeps the invariant. -/
theorem step (h : Owners c) {a : Act} {r : Shared Tid × Local} (hok : kept c t a)
    (hs : prog t c.sh (c.loc t) a = some r) : Owners (c.put t r) := by
  obtain ⟨hproper, hfew, hfresh, htimely⟩ := hok
  have hids := h.ids.step (by decide) hfew hs
  have hat := h.place t
  unfold Local.At at hat
  unfold prog at hs
  split at hs
  · -- a call
    rename_i call key hpc
    obtain rfl := Option.some.inj hs
    refine h.keep hids rfl rfl rfl rfl rfl (Or.inl rfl) (fun k _ => ?_) ?_
      (fun _ => by rw [hpc]; rfl) ?_ ?_
    · refine (Local.unrecorded_of ?_ k).trans (Local.unrecorded_of ?_ k).symm
      · cases call <;> rfl
      · rw [hpc]
        rfl
    · cases call <;> exact nofun
    · cases call with
      | unlock => exact hproper
      | _ => exact nofun
    · cases call <;> exact nofun
  · -- the detector
    rename_i hpc
    rw [hpc] at hat
    obtain ⟨-, hr⟩ := Option.ite_none_right_eq_some.mp hs
    obtain rfl := Option.some.inj hr
    exact h.goto hpc hids rfl nofun (fun _ => rfl) hat nofun
  · exact h.go_step hids hfresh htimely hs
  · cases hs

/-- **Run lemma.** -/
theorem reach (hc : Reach prog kept Init c) : Owners c :=
  hc.invariant (fun _ h0 => h0.owners) fun _ _ _ _ h hok hs => h.step hok hs

end Owners

instance (c : Conf Tid (Shared Tid) Local) (t : Tid) (a : Act) : Decidable (proper c t a) := by
  unfold proper
  split <;> infer_instance

instance (c : Conf Tid (Shared Tid) Local) (t : Tid) : Decidable (fresh c t) := by
  unfold fresh
  split <;> infer_instance

instance (c : Conf Tid (Shared Tid) Local) (t : Tid) : Decidable (timely c t) := by
  unfold timely
  split <;> infer_instance

instance (c : Conf Tid (Shared Tid) Local) (t : Tid) (a : Act) : Decidable (kept c t a) :=
  inferInstanceAs (Decidable (_ ∧ _ ∧ _ ∧ _))

/-- Two puts of addresses into the table of one bucket with two slots, one of which is taken:
    the second one makes an overflow bucket, and the table grows to four buckets. -/
def grow (t : Fin 2) (key key' : Addr) : List (Fin 2 × Act) :=
  (t, .call .init key) :: List.replicate 2 (t, .go) ++
    (t, .call .init key') :: List.replicate 22 (t, .go)

end GlsDeadlock
