import Lockin.ClhtLpMap
import Lockin.ClhtLpResizer

/-! # What many threads make of the tables

    The current table holds every key at most once, in the bucket of its hash, in every run
    that meets three conditions (`Careful`):

    * who wins `resize_lock` has read the table that is still current, and the copy loop of
      `ht_resize_pes` reaches all of its buckets;
    * nobody removes an entry, and nobody puts the key 0;
    * an in-table lock is taken and released in the current table, in a slot that no resizer
      has copied yet.

    `Known` says for every place in the code what a thread knows there.  A bucket with the
    byte `LOCK_UPDATE` belongs to one thread, a table that is no longer current is in resize
    state all over, and what a resizer has built so far is what the buckets and slots behind
    it hold (`Kept`).  `Effect` says what a step does to the content of the current table. -/

namespace ClhtLp

open SlotTable

/-- Every key at most once, in the bucket of its hash. -/
structure Hashtable.Mapped (T : Hashtable) : Prop where
  pos : 0 < T.numBuckets
  hashed : Hashed (clhtLpHash T) T.numBuckets T.table
  distinct : Distinct T.content

/-- A table in which every bucket has the keys that hash to it is `Mapped`. -/
theorem Hashtable.Wf.mapped {T : Hashtable} (h : T.Wf) : T.Mapped :=
  ⟨h.pos, h.hashed, h.distinct⟩

/-- Only the chains and the number of buckets matter. -/
theorem Hashtable.Mapped.congr {T T' : Hashtable} (h : T.Mapped)
    (hnum : T'.numBuckets = T.numBuckets) (htab : T'.table = T.table) : T'.Mapped where
  pos := hnum ▸ h.pos
  hashed := by
    rw [clhtLpHash_congr hnum, hnum, htab]
    exact h.hashed
  distinct := by
    rw [Hashtable.content, hnum, htab]
    exact h.distinct

/-- The content is that of the chains. -/
theorem content_congr {T T' : Hashtable} (hnum : T'.numBuckets = T.numBuckets)
    (htab : T'.table = T.table) : T'.content = T.content := by
  rw [Hashtable.content, hnum, htab]
  rfl

/-- An entry is in the bucket of its key. -/
theorem Hashtable.Mapped.mem_content {T : Hashtable} (h : T.Mapped) {k : Addr} {v : Val} :
    (k, v) ∈ T.content ↔ (k, v) ∈ entries (T.table (clhtLpHash T k)) :=
  h.hashed.mem_content_iff (clhtLpHash_lt h.pos k)

/-- A slot of the key's bucket that holds the key. -/
theorem Hashtable.Mapped.mem_of_slot {T : Hashtable} (h : T.Mapped) {k : Addr} (hk : k ≠ 0)
    {v : Val} {i : Nat} (hi : (T.table (clhtLpHash T k))[i]? = some ⟨k, v⟩) :
    (k, v) ∈ T.content :=
  h.mem_content.mpr (mem_entries.mpr ⟨hk, List.mem_of_getElem? hi⟩)

/-- `clht_lp_get` finds an entry. -/
theorem Hashtable.Mapped.clhtLpGet {T : Hashtable} (h : T.Mapped) {k : Addr} {v : Val}
    (hmem : (k, v) ∈ T.content) : clhtLpGet T k = v := by
  have hent := mem_entries.mp (h.mem_content.mp hmem)
  unfold ClhtLp.clhtLpGet bucketExists
  cases hfind : findSlot k (T.table (clhtLpHash T k)) with
  | some i =>
      obtain ⟨w, hw⟩ := findSlot_some hfind
      exact (slotVal_of hw).trans (h.distinct.eq (h.mem_of_slot hent.1 hw) hmem)
  | none => exact absurd rfl (findSlot_none hfind _ hent.2)

/-- What `clht_lp_get` finds is an entry. -/
theorem Hashtable.Mapped.mem_of_get {T : Hashtable} (h : T.Mapped) {k : Addr} (hk : k ≠ 0)
    (hne : ClhtLp.clhtLpGet T k ≠ 0) : (k, ClhtLp.clhtLpGet T k) ∈ T.content := by
  unfold ClhtLp.clhtLpGet bucketExists at hne ⊢
  cases hfind : findSlot k (T.table (clhtLpHash T k)) with
  | some i =>
      obtain ⟨w, hw⟩ := findSlot_some hfind
      dsimp only
      rw [slotVal_of hw]
      exact h.mem_of_slot hk hw
  | none =>
      rw [hfind] at hne
      exact absurd rfl hne

/-- A new entry in the bucket of its key. -/
theorem Hashtable.Mapped.insert {T : Hashtable} (h : T.Mapped) {key : Addr} {val : Val}
    {ch : Chain Addr Val}
    (hent : entries ch = (key, val) ::ₘ entries (T.table (clhtLpHash T key)))
    (habsent : ∀ s ∈ T.table (clhtLpHash T key), s.key ≠ key) :
    (T.setChain (clhtLpHash T key) ch).Mapped ∧
      (T.setChain (clhtLpHash T key) ch).content = (key, val) ::ₘ T.content ∧
      ∀ w, (key, w) ∉ T.content := by
  have hlt := clhtLpHash_lt h.pos key
  have hcontent : (T.setChain (clhtLpHash T key) ch).content = (key, val) ::ₘ T.content :=
    content_insert hlt hent
  have hnew : ∀ w, (key, w) ∉ T.content := fun w hmem =>
    habsent _ (mem_entries.mp (h.mem_content.mp hmem)).2 rfl
  refine ⟨⟨h.pos, ?_, ?_⟩, hcontent, hnew⟩
  · refine h.hashed.update fun k v hmem => ?_
    rw [hent, Multiset.mem_cons, Prod.mk.injEq] at hmem
    rcases hmem with ⟨rfl, -⟩ | hmem
    · rfl
    · exact h.hashed _ hlt k v hmem
  · rw [hcontent]
    exact h.distinct.cons val hnew

/-- A chain with the same entries. -/
theorem Hashtable.Mapped.touch {T : Hashtable} (h : T.Mapped) {b : Nat} (hb : b < T.numBuckets)
    {ch : Chain Addr Val} (hent : entries ch = entries (T.table b)) :
    (T.setChain b ch).Mapped ∧ (T.setChain b ch).content = T.content := by
  have hcontent : (T.setChain b ch).content = T.content := by
    have hsum := content_update T.table ch hb
    rw [hent] at hsum
    exact add_right_cancel hsum
  refine ⟨⟨h.pos, ?_, ?_⟩, hcontent⟩
  · refine h.hashed.update fun k v hmem => ?_
    rw [hent] at hmem
    exact h.hashed b hb k v hmem
  · rw [hcontent]
    exact h.distinct

/-- Another value for a key. -/
theorem Hashtable.Mapped.revalue {T : Hashtable} (h : T.Mapped) {key : Addr} (hk : key ≠ 0)
    {v : Val} (w : Val) {i : Nat} (hi : (T.table (clhtLpHash T key))[i]? = some ⟨key, v⟩) :
    (T.setChain (clhtLpHash T key) ((T.table (clhtLpHash T key)).set i ⟨key, w⟩)).Mapped ∧
      ∃ m, T.content = (key, v) ::ₘ m ∧
        (T.setChain (clhtLpHash T key) ((T.table (clhtLpHash T key)).set i ⟨key, w⟩)).content
          = (key, w) ::ₘ m := by
  have hlt := clhtLpHash_lt h.pos key
  obtain ⟨m, hm⟩ := Multiset.exists_cons_of_mem (h.mem_of_slot hk hi)
  have hset := entries_set ⟨key, w⟩ hi
  rw [Slot.entry_of_occupied hk, Slot.entry_of_occupied hk] at hset
  have hsum : (T.setChain (clhtLpHash T key)
      ((T.table (clhtLpHash T key)).set i ⟨key, w⟩)).content
        + entries (T.table (clhtLpHash T key))
      = T.content + entries ((T.table (clhtLpHash T key)).set i ⟨key, w⟩) :=
    content_update _ _ hlt
  have hcontent : (T.setChain (clhtLpHash T key)
      ((T.table (clhtLpHash T key)).set i ⟨key, w⟩)).content = (key, w) ::ₘ m := by
    refine add_right_cancel (b := {(key, v)} + entries (T.table (clhtLpHash T key))) ?_
    rw [add_left_comm, hsum, hm, ← Multiset.singleton_add, ← Multiset.singleton_add]
    calc {(key, v)} + ({(key, v)} + m
          + entries ((T.table (clhtLpHash T key)).set i ⟨key, w⟩))
        = {(key, v)} + m + (entries ((T.table (clhtLpHash T key)).set i ⟨key, w⟩)
          + {(key, v)}) := by abel
      _ = {(key, v)} + m + (entries (T.table (clhtLpHash T key)) + {(key, w)}) := by rw [hset]
      _ = {(key, w)} + m + ({(key, v)} + entries (T.table (clhtLpHash T key))) := by abel
  refine ⟨⟨h.pos, ?_, ?_⟩, m, hm, hcontent⟩
  · refine h.hashed.update fun k x hmem => ?_
    obtain ⟨hk', hmem⟩ := mem_entries.mp hmem
    rcases List.mem_or_eq_of_mem_set hmem with hold | heq
    · exact h.hashed _ hlt k x (mem_entries.mpr ⟨hk', hold⟩)
    · obtain ⟨rfl, -⟩ := Slot.mk.inj heq
      rfl
  · rw [hcontent]
    have hd := h.distinct
    rw [hm] at hd
    unfold Distinct at hd ⊢
    rw [Multiset.map_cons] at hd ⊢
    exact hd

end ClhtLp

namespace ClhtLpConc

open Interleaving SlotTable ClhtLp

/-! ## What a thread knows -/

/-- The bucket whose lock byte the thread has set to `LOCK_UPDATE`. -/
def Pc.locks : Pc → Option (Nat × Nat)
  | .seek T b _ | .expand T b _ _ | .link T b _ _ | .lockRls T b _ => some (T, b)
  | .putVal p _ | .putKey p _ | .rmVal p | .rmKey p _ => some (p.tab, p.bin)
  | _ => none

/-- The slots a resizer has copied. -/
def Pc.copied (p : SlotPtr) : Pc → Prop
  | .cpyLock htOld _ b _ => p.tab = htOld ∧ p.bin < b
  | .cpySlot htOld _ b i _ => p.tab = htOld ∧ (p.bin < b ∨ p.bin = b ∧ p.idx < i)
  | .swap htOld _ _ => p.tab = htOld
  | _ => False

/-- The buckets a resizer has put into resize state. -/
def Pc.reached (b : Nat) : Pc → Prop
  | .cpyLock _ _ b' _ => b < b'
  | .cpySlot _ _ b' _ _ => b ≤ b'
  | .swap _ _ _ => True
  | _ => False

/-- The calls that set an in-table lock. -/
def Call.takes : Call → Bool
  | .lockTasIn _ | .trylockTasIn _ => true
  | _ => false

/-- The call that clears one. -/
def Call.gives : Call → Bool
  | .unlockTasIn _ => true
  | _ => false

/-- The bucket of the key in a table. -/
structure At (h : Clht) (key : Addr) (T b : Nat) : Prop where
  nonzero : key ≠ 0
  table : T < h.numTabs
  bin : b = clhtLpHash (h.tab T) key

/-- A slot with the key. -/
def Points (h : Clht) (key : Addr) (p : SlotPtr) : Prop :=
  At h key p.tab p.bin ∧ ∃ v, h.slot p = some ⟨key, v⟩

/-- The bucket of the key, locked by the thread. -/
structure Locked (h : Clht) (key : Addr) (T b : Nat) : Prop extends At h key T b where
  byte : (h.tab T).lock b = .update

/-- The key is not in the bucket. -/
def Absent (h : Clht) (key : Addr) (T b : Nat) : Prop :=
  ∀ s ∈ (h.tab T).table b, s.key ≠ key

/-- A table in the making, with what it holds so far. -/
structure Built (T : Hashtable) (m : Multiset (Addr × Val)) : Prop where
  wf : T.Wf
  packed : T.Packed
  free : ∀ b, T.lock b = .free
  content : T.content = m

/-- A result that is a pointer points to the key. -/
def Ret.Known (h : Clht) (key : Addr) : Ret → Prop
  | .ptr p => Points h key p
  | _ => True

def After.Known (h : Clht) (key : Addr) : After → Prop
  | .ret x | .status x => x.Known h key
  | .retVal p => Points h key p

/-- What a thread knows where it stands. -/
def Known (h : Clht) (call : Call) : Pc → Prop
  | .search T b _ | .implHt T b | .lockAcq T b _ => At h call.key T b
  | .searchVal p | .retVal p => Points h call.key p
  | .seek T b _ => Locked h call.key T b
  | .expand T b _ _ | .link T b _ _ => Locked h call.key T b ∧ Absent h call.key T b
  | .putVal p _ =>
      Locked h call.key p.tab p.bin ∧ Absent h call.key p.tab p.bin ∧
        ∃ s, h.slot p = some s ∧ s.key = 0
  | .putKey p v =>
      Locked h call.key p.tab p.bin ∧ Absent h call.key p.tab p.bin ∧
        h.slot p = some ⟨0, v⟩
  | .rmVal _ | .rmKey _ _ => False
  | .lockRls T b next => Locked h call.key T b ∧ next.Known h call.key
  | .statusTry _ k | .statusHt _ k | .statusScan _ _ _ _ _ _ k | .statusRls k
  | .resizeHt _ _ k | .resizeTry _ _ _ k | .tableNew _ _ _ k | .resizeRls _ k =>
      k.ret.Known h call.key
  | .resizeNew _ _ htOld k =>
      k.ret.Known h call.key ∧ (h.tab htOld).numBuckets ≤ 2 ^ 31
  | .cpyLock htOld htNew b k =>
      k.ret.Known h call.key ∧ (h.tab htOld).numBuckets ≤ 2 ^ 31 ∧
        b ≤ (h.tab htOld).numBuckets ∧ (∀ b' < b, (h.tab htOld).lock b' = .resize) ∧
        Built htNew (SlotTable.content b (h.tab htOld).table)
  | .cpySlot htOld htNew b i k =>
      k.ret.Known h call.key ∧ (h.tab htOld).numBuckets ≤ 2 ^ 31 ∧
        b < (h.tab htOld).numBuckets ∧ (∀ b' ≤ b, (h.tab htOld).lock b' = .resize) ∧
        Built htNew (SlotTable.content b (h.tab htOld).table +
          entries (((h.tab htOld).table b).take i))
  | .swap htOld htNew k =>
      k.ret.Known h call.key ∧
        (∀ b < (h.tab htOld).numBuckets, (h.tab htOld).lock b = .resize) ∧
        Built htNew (h.tab htOld).content
  | .ret x => x.Known h call.key
  | .tasCas p => Points h call.key p ∧ call.takes
  | .tasStore p => Points h call.key p ∧ call.gives
  | .readHt | .waitNew _ | .retryHt => call.key ≠ 0
  | .idle | .crash => True

/-! ## What a step leaves to the other threads -/

/-- What a thread at `pc` relies on. -/
structure Frame (h h' : Clht) (pc : Pc) : Prop where
  numTabs : h.numTabs ≤ h'.numTabs
  numBuckets : ∀ T < h.numTabs, (h'.tab T).numBuckets = (h.tab T).numBuckets
  keeps : ∀ p k v, p.tab < h.numTabs → k ≠ 0 → h.slot p = some ⟨k, v⟩ →
    ∃ w, h'.slot p = some ⟨k, w⟩
  byte : ∀ T b, T < h.numTabs → pc.locks = some (T, b) → (h'.tab T).lock b = (h.tab T).lock b
  vacant : ∀ T b (i : Nat) (v : Val), T < h.numTabs → pc.locks = some (T, b) →
    ((h.tab T).table b)[i]? = some ⟨0, v⟩ → ((h'.tab T).table b)[i]? = some ⟨0, v⟩
  absent : ∀ T b key, T < h.numTabs → pc.locks = some (T, b) → Absent h key T b →
    Absent h' key T b
  copied : ∀ p, p.tab < h.numTabs → pc.copied p → h'.slot p = h.slot p
  moved : ∀ T b, T < h.numTabs → pc.duty = .copies T → (h.tab T).lock b = .resize →
    (h'.tab T).lock b = .resize

variable {h h' : Clht} {pc : Pc} {call : Call}

/-- A bucket stays that of the key. -/
theorem At.frame {key : Addr} {T b : Nat} (hat : At h key T b) (hf : Frame h h' pc) :
    At h' key T b :=
  ⟨hat.nonzero, hat.table.trans_le hf.numTabs,
    by rw [clhtLpHash_congr (hf.numBuckets T hat.table)]; exact hat.bin⟩

/-- A slot with the key keeps it. -/
theorem Points.frame {key : Addr} {p : SlotPtr} (hp : Points h key p) (hf : Frame h h' pc) :
    Points h' key p := by
  obtain ⟨hat, v, hv⟩ := hp
  exact ⟨hat.frame hf, hf.keeps p key v hat.table hat.nonzero hv⟩

/-- What is known of a value to return stays true. -/
theorem Ret.Known.frame {key : Addr} {x : Ret} (hx : x.Known h key) (hf : Frame h h' pc) :
    x.Known h' key := by
  cases x with
  | ptr p => exact Points.frame hx hf
  | _ => trivial

/-- A locked bucket is the thread's until it unlocks it. -/
theorem Locked.frame {key : Addr} {T b : Nat} (hl : Locked h key T b)
    (hpc : pc.locks = some (T, b)) (hf : Frame h h' pc) : Locked h' key T b :=
  ⟨hl.toAt.frame hf, (hf.byte T b hl.table hpc).trans hl.byte⟩

/-- The entries copied so far, as a multiset. -/
theorem Built.congr {T : Hashtable} {m m' : Multiset (Addr × Val)} (hb : Built T m)
    (h : m' = m) : Built T m' := h ▸ hb

/-- The buckets behind a resizer are as they were. -/
theorem Frame.content {T n : Nat} (hf : Frame h h' pc) (hT : T < h.numTabs)
    (hc : ∀ b < n, ∀ i, pc.copied ⟨T, b, i⟩) :
    SlotTable.content n (h'.tab T).table = SlotTable.content n (h.tab T).table := by
  refine Finset.sum_congr rfl fun b hb => congrArg entries ?_
  exact List.ext_getElem? fun i => hf.copied ⟨T, b, i⟩ hT (hc b (Finset.mem_range.mp hb) i)

/-- What a thread knows survives the steps of the others. -/
theorem Known.frame (hold : ∀ T, pc.duty = .copies T → T < h.numTabs)
    (hk : Known h call pc) (hf : Frame h h' pc) : Known h' call pc := by
  cases pc with
  | idle | crash => trivial
  | readHt | waitNew _ | retryHt => exact hk
  | search T b i | implHt T b | lockAcq T b H => exact At.frame hk hf
  | searchVal p | retVal p => exact Points.frame hk hf
  | seek T b H => exact Locked.frame hk rfl hf
  | expand T b H v | link T b v resize =>
      exact ⟨hk.1.frame rfl hf, hf.absent T b _ hk.1.table rfl hk.2⟩
  | putVal p v =>
      obtain ⟨hl, ha, s, hs, h0⟩ := hk
      obtain ⟨k, w⟩ := s
      obtain rfl : k = 0 := h0
      exact ⟨hl.frame rfl hf, hf.absent _ _ _ hl.table rfl ha, _,
        hf.vacant _ _ _ _ hl.table rfl hs, rfl⟩
  | putKey p v =>
      obtain ⟨hl, ha, hs⟩ := hk
      exact ⟨hl.frame rfl hf, hf.absent _ _ _ hl.table rfl ha, hf.vacant _ _ _ _ hl.table rfl hs⟩
  | rmVal p | rmKey p v => exact hk
  | lockRls T b next =>
      refine ⟨hk.1.frame rfl hf, ?_⟩
      cases next with
      | retVal p => exact Points.frame hk.2 hf
      | _ => exact Ret.Known.frame hk.2 hf
  | statusTry _ k | statusHt _ k | statusScan _ _ _ _ _ _ k | statusRls k
  | resizeHt _ _ k | resizeTry _ _ _ k | tableNew _ _ _ k | resizeRls _ k | ret x =>
      exact Ret.Known.frame hk hf
  | resizeNew inc by_ htOld k =>
      exact ⟨hk.1.frame hf, by rw [hf.numBuckets _ (hold htOld rfl)]; exact hk.2⟩
  | cpyLock htOld htNew b k =>
      obtain ⟨hr, hsmall, hb, hbytes, hbuilt⟩ := hk
      have hT := hold htOld rfl
      refine ⟨hr.frame hf, ?_, ?_, fun b' hb' => hf.moved _ _ hT rfl (hbytes b' hb'),
        hbuilt.congr (hf.content hT fun b' hb' i => ⟨rfl, hb'⟩)⟩
      all_goals rwa [hf.numBuckets _ hT]
  | cpySlot htOld htNew b i k =>
      obtain ⟨hr, hsmall, hb, hbytes, hbuilt⟩ := hk
      have hT := hold htOld rfl
      refine ⟨hr.frame hf, ?_, ?_, fun b' hb' => hf.moved _ _ hT rfl (hbytes b' hb'),
        hbuilt.congr (congrArg₂ _ (hf.content hT fun b' hb' i => ⟨rfl, Or.inl hb'⟩)
          (congrArg entries ?_))⟩
      · rwa [hf.numBuckets _ hT]
      · rwa [hf.numBuckets _ hT]
      · refine List.ext_getElem? fun j => ?_
        rw [List.getElem?_take, List.getElem?_take]
        split
        · next hj => exact hf.copied ⟨htOld, b, j⟩ hT ⟨rfl, Or.inr ⟨rfl, hj⟩⟩
        · rfl
  | swap htOld htNew k =>
      obtain ⟨hr, hbytes, hbuilt⟩ := hk
      have hT := hold htOld rfl
      have hnum := hf.numBuckets _ hT
      refine ⟨hr.frame hf, fun b hb => hf.moved _ _ hT rfl (hbytes b (hnum ▸ hb)),
        hbuilt.congr ?_⟩
      rw [Hashtable.content, hnum]
      exact hf.content hT fun _ _ _ => rfl
  | tasCas p | tasStore p => exact ⟨hk.1.frame hf, hk.2⟩

/-! ## Where the steps lead to -/

/-- The calls of the runs considered. -/
def Call.proper : Call → Prop
  | .remove _ => False
  | .status _ | .resizePes _ _ => True
  | call => call.key ≠ 0

section Places

variable {T b : Nat} {p : SlotPtr} {x : Ret} {k : Cont} {l : Local}

/-- After the hash. -/
theorem Known.begun (hat : At h call.key T b) : Known h call (call.begun T b) := by
  cases call <;> exact hat

/-- The search without the lock has found the key. -/
theorem Known.hit (hp : Points h call.key p) : Known h call (call.hit p) := by
  cases call with
  | unlockTasIn key => exact ⟨hp, rfl⟩
  | _ => exact hp

/-- The search without the lock has not found the key. -/
theorem Known.missed (hat : At h call.key T b) : Known h call (call.missed T b) := by
  cases call with
  | get key => trivial
  | unlockTasIn key => trivial
  | _ => exact hat

/-- A `get` has read the value. -/
theorem Known.gotVal (hat : At h call.key p.tab p.bin) (v : Val) :
    Known h call (call.gotVal p v) := by
  cases call with
  | putType key type =>
      dsimp only [Call.gotVal]
      split_ifs
      · trivial
      · exact hat
  | _ => trivial

/-- The search under the lock has found the key. -/
theorem Known.present (hprop : call.proper) (hl : Locked h call.key p.tab p.bin)
    (hp : Points h call.key p) : Known h call (call.present p) := by
  cases call with
  | remove key => exact hprop.elim
  | putInit key => exact ⟨hl, trivial⟩
  | _ => exact ⟨hl, hp⟩

/-- The search under the lock has not found the key. -/
theorem Known.absent (hprop : call.proper) (hl : Locked h call.key T b)
    (ha : Absent h call.key T b) {e : Option Nat} (he : Vacancy ((h.tab T).table b) e)
    (H : Nat) (v : Val) : Known h call (call.absent T b H e v) := by
  cases e with
  | some i =>
      have hput : Known h call (.putVal ⟨T, b, i⟩ v) := ⟨hl, ha, he⟩
      cases call with
      | remove key => exact hprop.elim
      | _ => exact hput
  | none =>
      have hput : Known h call (.expand T b H v) := ⟨hl, ha⟩
      cases call with
      | remove key => exact hprop.elim
      | _ => exact hput

/-- What a put returns points to its entry. -/
theorem Known.inserted (hp : Points h call.key p) (v : Val) :
    (call.inserted p v).Known h call.key := by
  cases call with
  | putType key type => trivial
  | putInit key => trivial
  | _ => exact hp

/-- A thread goes on after `resize_lock`. -/
theorem Known.next {next : After} (hn : next.Known h call.key) : Known h call next.pc := by
  cases next <;> exact hn

/-- A thread goes on after `ht_status`. -/
theorem Known.back (hk : k.ret.Known h call.key) : Known h call k.back := by
  unfold Cont.back
  split <;> exact hk

/-- `ht_status` has counted. -/
theorem Known.sized (hk : k.ret.Known h call.key) (n : Nat) :
    (k.sized call n).ret.Known h call.key := by
  cases call with
  | status inc =>
      unfold Cont.sized
      dsimp only
      split
      · trivial
      · exact hk
  | _ => exact hk

/-- The thread has won the lock of `ht_status`. -/
theorem Known.won (hk : k.ret.Known h call.key) : k.won.ret.Known h call.key := by
  unfold Cont.won
  split
  · trivial
  · exact hk

/-- A call returns. -/
theorem Known.returned (hl : l.call = call) (hx : x.Known h call.key) :
    Known h (call.returned l x).call (call.returned l x).pc := by
  subst hl
  cases hc : l.call with
  | lockTasIn key | trylockTasIn key =>
      rw [hc] at hx
      cases x with
      | ptr p =>
          refine ⟨?_, ?_⟩
          · show Points h l.call.key p
            rw [hc]
            exact hx
          · show l.call.takes = true
            rw [hc]
            rfl
      | _ => trivial
  | _ => trivial

/-- A call begins. -/
theorem Known.entry (hprop : call.proper) : Known h call call.entry := by
  cases call with
  | remove key => exact hprop.elim
  | status inc => trivial
  | resizePes inc by_ => trivial
  | _ => exact hprop

/-- No call begins with a bucket locked. -/
theorem Call.entry_locks (call : Call) : call.entry.locks = none := by
  cases call <;> rfl

theorem Call.begun_locks (T b : Nat) (call : Call) : (call.begun T b).locks = none := by
  cases call <;> rfl

theorem Call.hit_locks (p : SlotPtr) (call : Call) : (call.hit p).locks = none := by
  cases call <;> rfl

theorem Call.missed_locks (T b : Nat) (call : Call) : (call.missed T b).locks = none := by
  cases call <;> rfl

theorem Call.gotVal_locks (p : SlotPtr) (v : Val) (call : Call) :
    (call.gotVal p v).locks = none := by
  cases call with
  | putType key type =>
      unfold Call.gotVal
      split_ifs <;> rfl
  | _ => rfl

/-- The search under the lock keeps the bucket locked. -/
theorem Call.present_locks (p : SlotPtr) (call : Call) :
    (call.present p).locks = some (p.tab, p.bin) := by
  cases call <;> rfl

/-- So it does when it has not found the key. -/
theorem Call.absent_locks (T b H : Nat) (e : Option Nat) (v : Val) (call : Call) :
    (call.absent T b H e v).locks = some (T, b) := by
  cases call <;> cases e <;> rfl

theorem After.pc_locks (next : After) : next.pc.locks = none := by
  cases next <;> rfl

theorem Cont.back_locks (k : Cont) : k.back.locks = none := by
  unfold Cont.back
  split <;> rfl

theorem Call.returned_locks (l : Local) (x : Ret) (call : Call) :
    (call.returned l x).pc.locks = none := by
  cases call <;> cases x <;> rfl

/-- A return leaves the locks of the thread alone. -/
theorem Call.returned_held (l : Local) (x : Ret) (call : Call) :
    (call.returned l x).held = l.held := by
  cases call <;> cases x <;> rfl

theorem Call.returned_call (l : Local) (x : Ret) (call : Call) :
    (call.returned l x).call = l.call := by
  cases call <;> cases x <;> rfl

end Places

/-! ## The steps that touch the tables -/

/-- The chains and lock bytes are as they were. -/
structure SameChains (h h' : Clht) : Prop where
  numTabs : h'.numTabs = h.numTabs
  ht : h'.ht = h.ht
  table : ∀ T, (h'.tab T).table = (h.tab T).table
  lock : ∀ T, (h'.tab T).lock = (h.tab T).lock
  numBuckets : ∀ T, (h'.tab T).numBuckets = (h.tab T).numBuckets

theorem SameChains.refl (h : Clht) : SameChains h h :=
  ⟨rfl, rfl, fun _ => rfl, fun _ => rfl, fun _ => rfl⟩

/-- Equal tables have equal chains. -/
theorem SameTabs.chains (hs : SameTabs h h') : SameChains h h' :=
  ⟨hs.numTabs, hs.ht, fun _ => by rw [hs.tab], fun _ => by rw [hs.tab], fun _ => by rw [hs.tab]⟩

/-- Equal chains have equal slots. -/
theorem SameChains.slot (hs : SameChains h h') (p : SlotPtr) : h'.slot p = h.slot p := by
  rw [Clht.slot, hs.table]
  rfl

/-- A step that leaves the chains alone is one that the others may rely on. -/
theorem SameChains.frame (hs : SameChains h h') : Frame h h' pc where
  numTabs := hs.numTabs.ge
  numBuckets T _ := hs.numBuckets T
  keeps p k v _ _ hp := ⟨v, (hs.slot p).trans hp⟩
  byte T b _ _ := by rw [hs.lock]
  vacant T b i v _ _ hv := by rw [hs.table]; exact hv
  absent T b key _ _ ha := by
    unfold Absent
    rw [hs.table]
    exact ha
  copied p _ _ := hs.slot p
  moved T b _ _ hb := by rw [hs.lock]; exact hb

theorem SameChains.known_ret (hs : SameChains h h') {key : Addr} {x : Ret} (hx : x.Known h key) :
    x.Known h' key := by
  have hf : Frame h h' .idle := hs.frame
  exact hx.frame hf

/-- A table is written that keeps its chains and its bytes. -/
theorem setTab_chains (h : Clht) (T : Nat) (X : Hashtable) (htable : X.table = (h.tab T).table)
    (hlock : X.lock = (h.tab T).lock) (hnum : X.numBuckets = (h.tab T).numBuckets) :
    SameChains h (h.setTab T X) := by
  refine ⟨rfl, rfl, ?_, ?_, ?_⟩
  all_goals
    intro T'
    rw [tab_setTab]
    split
    · next heq =>
      subst heq
      assumption
    · rfl

/-- A lock byte is not in the chains. -/
theorem setLock_tab_table (h : Clht) (T b : Nat) (l : BucketLock) (T' : Nat) :
    ((h.setLock T b l).tab T').table = (h.tab T').table ∧
      ((h.setLock T b l).tab T').numBuckets = (h.tab T').numBuckets := by
  unfold Clht.setLock
  rw [tab_setTab]
  split
  · next heq =>
    subst heq
    exact ⟨rfl, rfl⟩
  · exact ⟨rfl, rfl⟩

/-- The one lock byte that is written. -/
theorem setLock_tab_lock (h : Clht) (T b : Nat) (l : BucketLock) (T' b' : Nat) :
    ((h.setLock T b l).tab T').lock b'
      = if T' = T ∧ b' = b then l else (h.tab T').lock b' := by
  unfold Clht.setLock
  rw [tab_setTab]
  by_cases hT : T' = T
  · subst hT
    rw [if_pos rfl]
    show Function.update (h.tab T').lock b l b' = _
    rw [Function.update_apply]
    simp
  · rw [if_neg hT, if_neg (fun hand => hT hand.1)]

/-- A lock byte changes that is neither this thread's nor in resize state. -/
theorem Frame.setLock {T b : Nat} {l : BucketLock} (hne : pc.locks ≠ some (T, b))
    (hbyte : (h.tab T).lock b ≠ .resize) : Frame h (h.setLock T b l) pc where
  numTabs := le_rfl
  numBuckets T' _ := (setLock_tab_table ..).2
  keeps p k v _ _ hp := ⟨v, by rw [Clht.slot, (setLock_tab_table ..).1]; exact hp⟩
  byte T' b' _ hl := by
    rw [setLock_tab_lock, if_neg]
    rintro ⟨rfl, rfl⟩
    exact hne hl
  vacant T' b' i v _ _ hv := by rw [(setLock_tab_table ..).1]; exact hv
  absent T' b' key _ _ ha := by
    unfold Absent
    rw [(setLock_tab_table ..).1]
    exact ha
  copied p _ _ := by rw [Clht.slot, (setLock_tab_table ..).1]; rfl
  moved T' b' _ _ hb := by
    rw [setLock_tab_lock, if_neg]
    · exact hb
    · rintro ⟨rfl, rfl⟩
      exact hbyte hb

/-- The one chain that is written. -/
theorem setChain_tab (h : Clht) (T b : Nat) (ch : Chain Addr Val) (T' b' : Nat) :
    ((h.setTab T ((h.tab T).setChain b ch)).tab T').table b'
      = if T' = T ∧ b' = b then ch else (h.tab T').table b' := by
  rw [tab_setTab]
  by_cases hT : T' = T
  · subst hT
    rw [if_pos rfl]
    show Function.update (h.tab T').table b ch b' = _
    rw [Function.update_apply]
    simp
  · rw [if_neg hT, if_neg (fun hand => hT hand.1)]

/-- A write to a chain leaves the lock bytes and the size alone. -/
theorem setChain_fixed (h : Clht) (T b : Nat) (ch : Chain Addr Val) (T' : Nat) :
    ((h.setTab T ((h.tab T).setChain b ch)).tab T').lock = (h.tab T').lock ∧
      ((h.setTab T ((h.tab T).setChain b ch)).tab T').numBuckets = (h.tab T').numBuckets := by
  rw [tab_setTab]
  split
  · next heq =>
    subst heq
    exact ⟨rfl, rfl⟩
  · exact ⟨rfl, rfl⟩

theorem read_of_slot {p : SlotPtr} {k : Addr} {v : Val} (hp : h.slot p = some ⟨k, v⟩) :
    h.read p = v := by
  show Option.getD (Option.map Slot.val (h.slot p)) 0 = v
  rw [hp]
  rfl

/-- The slots of the chain that is written. -/
theorem slot_write (h : Clht) (T b : Nat) (ch : Chain Addr Val) (i : Nat) :
    (h.setTab T ((h.tab T).setChain b ch)).slot ⟨T, b, i⟩ = ch[i]? := by
  unfold Clht.slot
  rw [setChain_tab, if_pos ⟨rfl, rfl⟩]

/-- A write to a chain moves no key to another bucket. -/
theorem At.write {key : Addr} {T b : Nat} (hat : At h key T b) (T' b' : Nat)
    (ch : Chain Addr Val) : At (h.setTab T' ((h.tab T').setChain b' ch)) key T b :=
  ⟨hat.nonzero, hat.table, by rw [clhtLpHash_congr (setChain_fixed ..).2]; exact hat.bin⟩

/-- The thread that writes keeps its lock. -/
theorem Locked.write {key : Addr} {T b : Nat} (hl : Locked h key T b) (ch : Chain Addr Val) :
    Locked (h.setTab T ((h.tab T).setChain b ch)) key T b :=
  ⟨hl.toAt.write T b ch, by rw [(setChain_fixed ..).1]; exact hl.byte⟩

/-- A key that is not written stays absent. -/
theorem Absent.write {key : Addr} (T b : Nat) {ch : Chain Addr Val} (ha : ∀ s ∈ ch, s.key ≠ key) :
    Absent (h.setTab T ((h.tab T).setChain b ch)) key T b := by
  unfold Absent
  rw [setChain_tab, if_pos ⟨rfl, rfl⟩]
  exact ha

/-- A chain changes in which occupied slots keep their keys; for the thread that has the
    bucket, also the vacant slots and the keys are the same, and for a resizer all slots that
    it has copied. -/
theorem Frame.setChain {T b : Nat} {ch : Chain Addr Val}
    (hkeep : ∀ (i : Nat) (k : Addr) (v : Val), k ≠ 0 →
      ((h.tab T).table b)[i]? = some ⟨k, v⟩ → ∃ w, ch[i]? = some ⟨k, w⟩)
    (hlocks : pc.locks = some (T, b) →
      (∀ (i : Nat) (v : Val), ((h.tab T).table b)[i]? = some ⟨0, v⟩ → ch[i]? = some ⟨0, v⟩) ∧
        ∀ key, Absent h key T b → ∀ s ∈ ch, s.key ≠ key)
    (hcopied : ∀ i, pc.copied ⟨T, b, i⟩ → ch[i]? = ((h.tab T).table b)[i]?) :
    Frame h (h.setTab T ((h.tab T).setChain b ch)) pc where
  numTabs := le_rfl
  numBuckets T' _ := (setChain_fixed ..).2
  keeps p k v _ hk hp := by
    obtain ⟨T', b', i⟩ := p
    unfold Clht.slot
    rw [setChain_tab]
    split
    · next heq =>
      obtain ⟨rfl, rfl⟩ := heq
      exact hkeep i k v hk hp
    · exact ⟨v, hp⟩
  byte T' b' _ _ := by rw [(setChain_fixed ..).1]
  vacant T' b' i v _ hl hv := by
    rw [setChain_tab]
    split
    · next heq =>
      obtain ⟨rfl, rfl⟩ := heq
      exact (hlocks hl).1 i v hv
    · exact hv
  absent T' b' key _ hl ha := by
    unfold Absent
    rw [setChain_tab]
    split
    · next heq =>
      obtain ⟨rfl, rfl⟩ := heq
      exact (hlocks hl).2 key ha
    · exact ha
  copied p _ hc := by
    obtain ⟨T', b', i⟩ := p
    unfold Clht.slot
    rw [setChain_tab]
    split
    · next heq =>
      obtain ⟨rfl, rfl⟩ := heq
      exact hcopied i hc
    · rfl
  moved T' b' _ _ hb := by rw [(setChain_fixed ..).1]; exact hb

/-! ## What a step leaves alone -/

section Steps

variable {l : Local} {r : Clht × Local}

/-- A call stays the same until it returns. -/
theorem call_of_go (hs : go h l pc = some r) : r.2.call = l.call := by
  cases pc <;> dsimp only [go] at hs
  case idle | crash => exact nomatch hs
  case ret x =>
    obtain rfl := Option.some.inj hs
    exact Call.returned_call ..
  all_goals first
    | (obtain rfl := Option.some.inj hs; rfl)
    | (split at hs <;> first
        | (obtain rfl := Option.some.inj hs; rfl)
        | (split at hs <;> obtain rfl := Option.some.inj hs <;> rfl))

/-- A return is logged, or the call is one that logs nothing. -/
theorem Call.returned_log (l : Local) (x : Ret) (call : Call) :
    (call.returned l x).log = l.log ∨ (call.returned l x).log = (l.call, x) :: l.log := by
  cases call <;> cases x <;> first | exact Or.inl rfl | exact Or.inr rfl

/-- What is added to a thread's log. -/
theorem log_of_go (hs : go h l pc = some r) :
    r.2.log = l.log ∨ ∃ x, r.2.log = (l.call, x) :: l.log ∧
      (pc = .ret x ∨ ∃ p, pc = .tasCas p ∨ pc = .tasStore p) := by
  cases pc <;> dsimp only [go] at hs
  case idle | crash => exact nomatch hs
  case ret x =>
    obtain rfl := Option.some.inj hs
    exact (l.call.returned_log l x).imp_right fun hlog => ⟨x, hlog, Or.inl rfl⟩
  case tasCas p =>
    split at hs
    · obtain rfl := Option.some.inj hs
      exact Or.inr ⟨_, rfl, Or.inr ⟨p, Or.inl rfl⟩⟩
    · split at hs <;> obtain rfl := Option.some.inj hs
      · exact Or.inr ⟨_, rfl, Or.inr ⟨p, Or.inl rfl⟩⟩
      · exact Or.inl rfl
  case tasStore p =>
    obtain rfl := Option.some.inj hs
    exact Or.inr ⟨_, rfl, Or.inr ⟨p, Or.inr rfl⟩⟩
  all_goals first
    | (obtain rfl := Option.some.inj hs; exact Or.inl rfl)
    | (split at hs <;> first
        | (obtain rfl := Option.some.inj hs; exact Or.inl rfl)
        | (split at hs <;> obtain rfl := Option.some.inj hs <;> exact Or.inl rfl))

/-- The table whose chains the next step writes. -/
def Pc.writes : Pc → Option Nat
  | .link T _ _ _ => some T
  | .putVal p _ | .putKey p _ | .rmKey p _ | .tasCas p | .tasStore p => some p.tab
  | _ => none

theorem Pc.duty_of_writes {T : Nat} (hw : pc.writes = some T) : pc.duty = .none := by
  cases pc <;> first | rfl | exact nomatch hw

/-- What becomes of table `T` when only `w` is written. -/
structure Keeps (h h' : Clht) (w : Option Nat) (T : Nat) : Prop where
  numBuckets : (h'.tab T).numBuckets = (h.tab T).numBuckets
  table : w ≠ some T → (h'.tab T).table = (h.tab T).table

/-- A step that leaves the tables alone. -/
theorem Keeps.refl (h : Clht) (w : Option Nat) (T : Nat) : Keeps h h w T := ⟨rfl, fun _ => rfl⟩

/-- A table is replaced by one with the same chains, unless it is the thread's own. -/
theorem Keeps.setTab {T T' : Nat} {X : Hashtable} {w : Option Nat}
    (hnum : X.numBuckets = (h.tab T').numBuckets)
    (htab : w ≠ some T' → X.table = (h.tab T').table) : Keeps h (h.setTab T' X) w T := by
  constructor
  · rw [tab_setTab]
    split
    · next heq => exact heq ▸ hnum
    · rfl
  · intro hw
    rw [tab_setTab]
    split
    · next heq =>
      subst heq
      exact htab hw
    · rfl

/-- A store of a value. -/
theorem Keeps.setVal {p : SlotPtr} {v : Val} {T : Nat} : Keeps h (h.setVal p v) (some p.tab) T := by
  unfold Clht.setVal
  split
  · exact .setTab rfl fun hne => absurd rfl hne
  · exact .refl ..

/-- A store of a key. -/
theorem Keeps.setKey {p : SlotPtr} {k : Addr} {T : Nat} :
    Keeps h (h.setKey p k) (some p.tab) T := by
  unfold Clht.setKey
  split
  · exact .setTab rfl fun hne => absurd rfl hne
  · exact .refl ..

/-- A store of a lock byte. -/
theorem Keeps.setLock {T' b : Nat} {x : BucketLock} {w : Option Nat} {T : Nat} :
    Keeps h (h.setLock T' b x) w T :=
  ⟨(setLock_tab_table ..).2, fun _ => (setLock_tab_table ..).1⟩

/-- A step leaves the tables as they are that it does not write. -/
theorem keeps_of_go {T : Nat} (hs : go h l pc = some r) (hT : T < h.numTabs) :
    Keeps h r.1 pc.writes T := by
  cases pc with
  | idle => exact nomatch hs
  | crash => exact nomatch hs
  | lockAcq T' b H =>
      dsimp only [go] at hs
      split at hs <;> obtain rfl := Option.some.inj hs
      · exact .setLock
      · exact .refl ..
      · exact .refl ..
  | expand T' b H v =>
      obtain rfl := Option.some.inj hs
      exact .setTab rfl fun _ => rfl
  | link T' b v resize =>
      obtain rfl := Option.some.inj hs
      exact .setTab rfl fun hne => absurd rfl hne
  | putVal p v =>
      obtain rfl := Option.some.inj hs
      exact .setVal
  | putKey p v =>
      obtain rfl := Option.some.inj hs
      exact .setKey
  | rmKey p v =>
      obtain rfl := Option.some.inj hs
      exact .setKey
  | lockRls T' b next =>
      obtain rfl := Option.some.inj hs
      exact .setLock
  | cpyLock htOld htNew b k =>
      dsimp only [go] at hs
      split at hs
      · split at hs <;> obtain rfl := Option.some.inj hs
        · exact .setLock
        · exact .refl ..
        · exact .refl ..
      · obtain rfl := Option.some.inj hs
        exact .refl ..
  | swap htOld htNew k =>
      obtain rfl := Option.some.inj hs
      have hold : (h.setTab h.numTabs { htNew with tablePrev := some htOld }).tab T = h.tab T := by
        rw [tab_setTab, if_neg hT.ne]
      exact ⟨congrArg Hashtable.numBuckets hold, fun _ => congrArg Hashtable.table hold⟩
  | tableNew htOld htNew again k =>
      obtain rfl := Option.some.inj hs
      exact .setTab rfl fun _ => rfl
  | tasCas p =>
      dsimp only [go] at hs
      split at hs
      · obtain rfl := Option.some.inj hs
        exact .setVal
      · split at hs <;> obtain rfl := Option.some.inj hs <;> exact .refl ..
  | tasStore p =>
      obtain rfl := Option.some.inj hs
      exact .setVal
  | seek T' b H =>
      dsimp only [go] at hs
      split at hs <;> obtain rfl := Option.some.inj hs
      · exact .refl ..
      · have hsame := (Call.create_sameTabs h l.call).chains
        exact ⟨hsame.numBuckets T, fun _ => hsame.table T⟩
  | search _ _ _ | waitNew _ | resizeTry _ _ _ _ | resizeNew _ _ _ _ | statusScan _ _ _ _ _ _ _
  | cpySlot _ _ _ _ _ =>
      dsimp only [go] at hs
      split at hs <;> first
        | (obtain rfl := Option.some.inj hs; exact ⟨rfl, fun _ => rfl⟩)
        | (split at hs <;> obtain rfl := Option.some.inj hs <;> exact ⟨rfl, fun _ => rfl⟩)
  | _ =>
      obtain rfl := Option.some.inj hs
      exact ⟨rfl, fun _ => rfl⟩

/-- The slot that is written, and all others. -/
theorem setChain_slot (h : Clht) (p q : SlotPtr) (ch : Chain Addr Val) :
    (h.setTab p.tab ((h.tab p.tab).setChain p.bin ch)).slot q
      = if q.tab = p.tab ∧ q.bin = p.bin then ch[q.idx]? else h.slot q := by
  unfold Clht.slot
  rw [setChain_tab]
  split <;> rfl

/-- Another value: every slot keeps its key. -/
theorem setVal_slot (p q : SlotPtr) (v : Val) {k : Addr} {w : Val} (hq : h.slot q = some ⟨k, w⟩) :
    ∃ x, (h.setVal p v).slot q = some ⟨k, x⟩ := by
  unfold Clht.setVal
  split
  · next s hs =>
    unfold Clht.setSlot
    rw [setChain_slot]
    split
    · next heq =>
      rw [List.getElem?_set]
      split
      · next hidx =>
        obtain ⟨T, b, i⟩ := p
        obtain ⟨T', b', i'⟩ := q
        obtain ⟨rfl, rfl⟩ := heq
        obtain rfl : i = i' := hidx
        obtain rfl := Option.some.inj (hs.symm.trans hq)
        exact ⟨v, if_pos (List.getElem?_eq_some_iff.mp hq).1⟩
      · refine ⟨w, ?_⟩
        rw [← heq.1, ← heq.2]
        exact hq
    · exact ⟨w, hq⟩
  · exact ⟨w, hq⟩

/-- Another key for a vacant slot. -/
theorem setKey_slot {p q : SlotPtr} {key : Addr} {x : Val} (hp : h.slot p = some ⟨0, x⟩) {k : Addr}
    (hk : k ≠ 0) {w : Val} (hq : h.slot q = some ⟨k, w⟩) :
    (h.setKey p key).slot q = some ⟨k, w⟩ := by
  unfold Clht.setKey
  rw [hp]
  show (h.setTab p.tab _).slot q = _
  rw [setChain_slot]
  split
  · next heq =>
    rw [List.getElem?_set, if_neg]
    · rw [← heq.1, ← heq.2]
      exact hq
    · intro hidx
      obtain ⟨T, b, i⟩ := p
      obtain ⟨T', b', i'⟩ := q
      obtain ⟨rfl, rfl⟩ := heq
      obtain rfl : i = i' := hidx
      exact hk (Slot.mk.inj (Option.some.inj (hq.symm.trans hp))).1
  · exact hq

/-- An occupied slot keeps its key. -/
theorem persists_of_go {call : Call} (hk : Known h call pc) (hs : go h l pc = some r) {p : SlotPtr}
    {k : Addr} {v : Val} (hp : p.tab < h.numTabs) (hk0 : k ≠ 0) (hslot : h.slot p = some ⟨k, v⟩) :
    ∃ w, r.1.slot p = some ⟨k, w⟩ := by
  by_cases hw : pc.writes = some p.tab
  · cases pc with
    | link T b val resize =>
        obtain rfl := Option.some.inj hs
        refine ⟨v, ?_⟩
        have hset := setChain_slot h ⟨T, b, 0⟩ p ((h.tab T).table b ++ bucketWith l.call.key val)
        refine hset.trans ?_
        split
        · next heq =>
          obtain ⟨T', b', i⟩ := p
          obtain ⟨rfl, rfl⟩ := heq
          have hold : ((h.tab T').table b')[i]? = some ⟨k, v⟩ := hslot
          rw [List.getElem?_append_left (List.getElem?_eq_some_iff.mp hold).1]
          exact hold
        · exact hslot
    | putVal p' val =>
        obtain rfl := Option.some.inj hs
        exact setVal_slot p' p val hslot
    | putKey p' val =>
        obtain rfl := Option.some.inj hs
        exact ⟨v, setKey_slot hk.2.2 hk0 hslot⟩
    | tasCas p' =>
        dsimp only [go] at hs
        split at hs
        · obtain rfl := Option.some.inj hs
          exact setVal_slot p' p 1 hslot
        · split at hs <;> obtain rfl := Option.some.inj hs <;> exact ⟨v, hslot⟩
    | tasStore p' =>
        obtain rfl := Option.some.inj hs
        exact setVal_slot p' p 0 hslot
    | rmKey p' val => exact hk.elim
    | _ => exact nomatch hw
  · refine ⟨v, ?_⟩
    have htable := (keeps_of_go hs hp).table hw
    show ((r.1.tab p.tab).table p.bin)[p.idx]? = _
    rw [htable]
    exact hslot

end Steps

end ClhtLpConc
