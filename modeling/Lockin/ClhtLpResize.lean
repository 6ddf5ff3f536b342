import Mathlib.Algebra.BigOperators.Ring.Finset
import Mathlib.Algebra.Group.Action.Defs
import Mathlib.Tactic.Linarith
import Mathlib.Tactic.Ring
import Lockin.ClhtLp

/-! # Resizing the hash table

    What a table holds is read as the multiset `content` of its entries; inserting into
    a table and copying one are described once by what they do to the content, to the
    shape of the chains and to the count of expansions.  A resize moves the content from
    one table to the next, provided the copy loop reaches every bucket.

    Whether `ht_status` comes back depends on the count of expansions: a resize that
    finds the new table already over its threshold resizes again, and each time the
    table at least doubles while the number of entries stays. -/

namespace ClhtLp

open SlotTable

/-! ## What a table holds -/

/-- All entries of a table. -/
def Hashtable.content (T : Hashtable) : Multiset (Addr × Val) :=
  SlotTable.content T.numBuckets T.table

/-- The overflow buckets of a table. -/
def Hashtable.overflow (T : Hashtable) : Nat :=
  ∑ b ∈ Finset.range T.numBuckets, ((T.table b).length / 3 - 1)

/-- What every table satisfies at every moment. -/
structure Hashtable.Wf (T : Hashtable) : Prop where
  pos : 0 < T.numBuckets
  hashed : Hashed (clhtLpHash T) T.numBuckets T.table
  distinct : Distinct T.content
  whole : ∀ b < T.numBuckets, ∃ n, (T.table b).length = 3 * (n + 1)
  expands : T.numExpands = T.overflow % 2 ^ 32
  thresholdEq : T.numExpandsThreshold = threshold T.numBuckets

/-- A table filled by copying only: an overflow bucket was opened because the chain was
    full, and has at most two vacancies. -/
def Hashtable.Packed (T : Hashtable) : Prop :=
  ∀ b < T.numBuckets, (T.table b).length ≤ 3 ∨
    (T.table b).length ≤ (entries (T.table b)).card + 2

/-- A key hashes to one of the buckets. -/
theorem clhtLpHash_lt {T : Hashtable} (h : 0 < T.numBuckets) (key : Addr) :
    clhtLpHash T key < T.numBuckets := by
  have hle : clhtLpHash T key ≤ T.numBuckets - 1 := Nat.and_le_right
  omega

@[simp] theorem entries_emptyBucket : entries emptyBucket = 0 := rfl

/-- A new bucket has the one entry. -/
theorem entries_bucketWith {key : Addr} (hk : key ≠ 0) (val : Val) :
    entries (bucketWith key val) = {(key, val)} := by
  have hold : emptyBucket[0]? = some ⟨0, 0⟩ := rfl
  rw [bucketWith, entries_fill val hk hold rfl, entries_emptyBucket]
  rfl

theorem length_bucketWith (key : Addr) (val : Val) : (bucketWith key val).length = 3 := rfl

theorem threshold_pos (n : Nat) : 0 < threshold n := by
  unfold threshold
  split <;> omega

theorem threshold_lt (n : Nat) : threshold n < 2 ^ 32 := by
  unfold threshold
  split <;> omega

theorem threshold_le {n : Nat} (h : 0 < n) : threshold n ≤ n := by
  unfold threshold
  split <;> omega

theorem threshold_of_lt {n : Nat} (h : 0 < n) (hn : n < 2 ^ 32) : threshold n = n := by
  unfold threshold
  rw [Nat.mod_eq_of_lt hn, if_neg (by omega)]

/-- The hash depends on the size only. -/
theorem clhtLpHash_congr {T T' : Hashtable} (h : T'.numBuckets = T.numBuckets) :
    clhtLpHash T' = clhtLpHash T := by
  funext key
  simp only [clhtLpHash, h]

/-- An entry sits in the chain its hash selects. -/
theorem Hashtable.Wf.mem_content {T : Hashtable} (hw : T.Wf) {k : Addr} {v : Val} :
    (k, v) ∈ T.content ↔ (k, v) ∈ entries (T.table (clhtLpHash T k)) :=
  hw.hashed.mem_content_iff (clhtLpHash_lt hw.pos k)

/-- `clht_lp_size` counts the entries. -/
theorem clhtLpSize_eq (T : Hashtable) : clhtLpSize T = T.content.card := by
  have hcount : ∀ c : Chain Addr Val, (c.countP fun s => s.key ≠ 0) = (entries c).card := by
    intro c
    induction c with
    | nil => rfl
    | cons s rest ih =>
        rw [List.countP_cons, entries_cons, Multiset.card_add, ih, Slot.entry]
        by_cases h0 : s.key = 0
        · simp [h0]
        · simp [h0, add_comm]
  have hsum : ∀ n, ((List.range n).map fun b =>
      (T.table b).countP fun s => s.key ≠ 0).sum
        = (SlotTable.content n T.table).card := by
    intro n
    induction n with
    | zero => rfl
    | succ n ih =>
        rw [List.range_succ, List.map_append, List.sum_append, ih, content_succ,
          Multiset.card_add]
        simp only [List.map_cons, List.map_nil, List.sum_cons, List.sum_nil, hcount,
          add_zero]
  exact hsum T.numBuckets

/-- All slots together bound the entries. -/
theorem Hashtable.Wf.card_content_le {T : Hashtable} (hw : T.Wf) :
    T.content.card ≤ 3 * (T.numBuckets + T.overflow) := by
  have hchain : ∀ b ∈ Finset.range T.numBuckets,
      (entries (T.table b)).card ≤ 3 * (1 + ((T.table b).length / 3 - 1)) := by
    intro b hb
    obtain ⟨n, hn⟩ := hw.whole b (Finset.mem_range.mp hb)
    have := card_entries_le (T.table b)
    omega
  calc T.content.card
      = ∑ b ∈ Finset.range T.numBuckets, (entries (T.table b)).card := by
        rw [Hashtable.content, SlotTable.content, Multiset.card_sum]
    _ ≤ ∑ b ∈ Finset.range T.numBuckets, 3 * (1 + ((T.table b).length / 3 - 1)) :=
        Finset.sum_le_sum hchain
    _ = 3 * (T.numBuckets + T.overflow) := by
        rw [← Finset.mul_sum, Finset.sum_add_distrib, Finset.sum_const,
          Finset.card_range, smul_eq_mul, mul_one, Hashtable.overflow]

/-- In a packed table the overflow buckets are paid for by entries. -/
theorem Hashtable.Packed.overflow_lt {T : Hashtable} (hw : T.Wf) (hp : T.Packed)
    (hpos : 0 < T.overflow) : 3 * T.overflow < T.content.card := by
  have hchain : ∀ b ∈ Finset.range T.numBuckets,
      3 * ((T.table b).length / 3 - 1) ≤ (entries (T.table b)).card ∧
      (0 < (T.table b).length / 3 - 1 →
        3 * ((T.table b).length / 3 - 1) < (entries (T.table b)).card) := by
    intro b hb
    obtain ⟨n, hn⟩ := hw.whole b (Finset.mem_range.mp hb)
    have := hp b (Finset.mem_range.mp hb)
    omega
  obtain ⟨b, hb, hb0⟩ := Finset.exists_ne_zero_of_sum_ne_zero hpos.ne'
  calc 3 * T.overflow
      = ∑ b ∈ Finset.range T.numBuckets, 3 * ((T.table b).length / 3 - 1) := by
        rw [Hashtable.overflow, Finset.mul_sum]
    _ < ∑ b ∈ Finset.range T.numBuckets, (entries (T.table b)).card :=
        Finset.sum_lt_sum (fun x hx => (hchain x hx).1)
          ⟨b, hb, (hchain b hb).2 (Nat.pos_of_ne_zero hb0)⟩
    _ = T.content.card := by
        rw [Hashtable.content, SlotTable.content, Multiset.card_sum]

/-! ## A new table -/

/-- A new table is empty, and its buckets are free. -/
theorem clhtLpHashtableCreate_some {n : Nat} {T : Hashtable}
    (h : clhtLpHashtableCreate n = some T) :
    T.Wf ∧ T.Packed ∧ T.content = 0 ∧ T.overflow = 0 ∧ T.numBuckets = n ∧
      ∀ b, T.lock b = .free := by
  unfold clhtLpHashtableCreate at h
  split at h
  · cases h
  · next hn =>
    obtain rfl := Option.some.inj h
    have hc : SlotTable.content n (fun _ => emptyBucket) = 0 :=
      Finset.sum_eq_zero fun _ _ => entries_emptyBucket
    have ho : ∑ b ∈ Finset.range n, (emptyBucket.length / 3 - 1) = 0 :=
      Finset.sum_eq_zero fun _ _ => rfl
    refine ⟨⟨Nat.pos_of_ne_zero hn, ?_, ?_, ?_, ?_, rfl⟩, ?_, hc, ho, rfl, fun _ => rfl⟩
    · intro b _ k v hmem
      exact absurd hmem (Multiset.notMem_zero _)
    · show Distinct (SlotTable.content n fun _ => emptyBucket)
      rw [hc]
      exact Multiset.nodup_zero
    · exact fun _ _ => ⟨0, rfl⟩
    · show 0 = (∑ b ∈ Finset.range n, (emptyBucket.length / 3 - 1)) % 2 ^ 32
      rw [ho, Nat.zero_mod]
    · intro b _
      left
      show emptyBucket.length ≤ 3
      decide

/-! ## Inserting into a table -/

/-- `empty` is what a search of the chain may report: a vacant slot, or that there is
    none. -/
def Vacancy (ch : Chain Addr Val) : Option Nat → Prop
  | some i => ∃ s, ch[i]? = some s ∧ s.key = 0
  | none => ∀ s ∈ ch, s.key ≠ 0

/-- The chain after an insertion. -/
def filled (c : Chain Addr Val) (key : Addr) (val : Val) : Option Nat → Chain Addr Val
  | some i => c.set i ⟨key, val⟩
  | none => c ++ bucketWith key val

/-- A chain with one more entry. -/
theorem entries_filled {c : Chain Addr Val} {key : Addr} (val : Val) {e : Option Nat}
    (hk : key ≠ 0) (he : Vacancy c e) :
    entries (filled c key val e) = (key, val) ::ₘ entries c := by
  cases e with
  | some i =>
      obtain ⟨s, hs, h0⟩ := he
      exact entries_fill val hk hs h0
  | none =>
      show entries (c ++ bucketWith key val) = _
      rw [entries_append, entries_bucketWith hk, add_comm, Multiset.singleton_add]

/-- A chain grows by a bucket when it has no vacant slot. -/
theorem length_filled (c : Chain Addr Val) (key : Addr) (val : Val) (e : Option Nat) :
    (filled c key val e).length = c.length + if e = none then 3 else 0 := by
  cases e with
  | some i => simp [filled]
  | none => simp [filled, length_bucketWith]

/-- An insertion writes one chain. -/
theorem insertSlot_table (T : Hashtable) (bin : Nat) (key : Addr) (val : Val)
    (e : Option Nat) : (insertSlot T bin key val e).1.table
      = Function.update T.table bin (filled (T.table bin) key val e) := by
  cases e <;> rfl

/-- An insertion is counted when it has made a bucket. -/
theorem insertSlot_numExpands (T : Hashtable) (bin : Nat) (key : Addr) (val : Val)
    (e : Option Nat) : (insertSlot T bin key val e).1.numExpands
      = if e = none then (T.numExpands + 1) % 2 ^ 32 else T.numExpands := by
  cases e <;> rfl

/-- **What an insertion does to a table.** -/
structure Grown (T T' : Hashtable) (key : Addr) (val : Val) (opened : Prop)
    [Decidable opened] : Prop where
  wf : T'.Wf
  content : T'.content = (key, val) ::ₘ T.content
  numBuckets : T'.numBuckets = T.numBuckets
  lock : T'.lock = T.lock
  overflow : T'.overflow = T.overflow + if opened then 1 else 0

/-- **An insertion of a new key** into a table that is well formed. -/
theorem insertSlot_grown {T : Hashtable} (hw : T.Wf) {key : Addr} (val : Val)
    (hk : key ≠ 0) (hnew : ∀ w, (key, w) ∉ T.content) {e : Option Nat}
    (he : Vacancy (T.table (clhtLpHash T key)) e) :
    Grown T (insertSlot T (clhtLpHash T key) key val e).1 key val (e = none) := by
  have hlt := clhtLpHash_lt hw.pos key
  have hent := entries_filled val hk he
  have hlen := length_filled (T.table (clhtLpHash T key)) key val e
  have htab := insertSlot_table T (clhtLpHash T key) key val e
  have hexp := insertSlot_numExpands T (clhtLpHash T key) key val e
  have hsame : (insertSlot T (clhtLpHash T key) key val e).1.numBuckets = T.numBuckets ∧
      (insertSlot T (clhtLpHash T key) key val e).1.lock = T.lock ∧
      (insertSlot T (clhtLpHash T key) key val e).1.numExpandsThreshold
        = T.numExpandsThreshold := by
    cases e <;> exact ⟨rfl, rfl, rfl⟩
  generalize (insertSlot T (clhtLpHash T key) key val e).1 = T' at htab hexp hsame ⊢
  obtain ⟨hnum, hlock, hthr⟩ := hsame
  obtain ⟨n, hn⟩ := hw.whole _ hlt
  have hcontent : T'.content = (key, val) ::ₘ T.content := by
    rw [Hashtable.content, hnum, htab]
    exact content_insert hlt hent
  have hover : T'.overflow = T.overflow + if e = none then 1 else 0 := by
    have hsum := sum_update (fun c => c.length / 3 - 1) T.table
      (filled (T.table (clhtLpHash T key)) key val e) hlt
    rw [Hashtable.overflow, hnum, htab, Hashtable.overflow]
    split_ifs at hlen ⊢ <;> omega
  refine ⟨⟨hnum ▸ hw.pos, ?_, ?_, ?_, ?_, ?_⟩, hcontent, hnum, hlock, hover⟩
  · rw [clhtLpHash_congr hnum, hnum, htab]
    refine hw.hashed.update fun k v hmem => ?_
    rw [hent, Multiset.mem_cons, Prod.mk.injEq] at hmem
    rcases hmem with ⟨rfl, -⟩ | hmem
    · rfl
    · exact hw.hashed _ hlt k v hmem
  · rw [hcontent]
    exact hw.distinct.cons val hnew
  · intro b hb
    rw [hnum] at hb
    rw [htab]
    by_cases hbin : b = clhtLpHash T key
    · rw [hbin, Function.update_self, hlen, hn]
      split
      · exact ⟨n + 1, by omega⟩
      · exact ⟨n, rfl⟩
    · rw [Function.update_of_ne hbin]
      exact hw.whole b hb
  · rw [hexp, hover, hw.expands]
    split <;> omega
  · rw [hthr, hnum]
    exact hw.thresholdEq

/-- An insertion that opens an overflow bucket only for a full chain keeps a table
    packed. -/
theorem insertSlot_packed {T : Hashtable} (hw : T.Wf) (hp : T.Packed) {key : Addr}
    (val : Val) (hk : key ≠ 0) {e : Option Nat}
    (he : Vacancy (T.table (clhtLpHash T key)) e) :
    (insertSlot T (clhtLpHash T key) key val e).1.Packed := by
  have hlt := clhtLpHash_lt hw.pos key
  have hnum : (insertSlot T (clhtLpHash T key) key val e).1.numBuckets = T.numBuckets := by
    cases e <;> rfl
  intro b hb
  rw [hnum] at hb
  rw [insertSlot_table]
  by_cases hbin : b = clhtLpHash T key
  · rw [hbin, Function.update_self, length_filled, entries_filled val hk he,
      Multiset.card_cons]
    cases e with
    | some i =>
        have := hp _ hlt
        simp only [reduceCtorEq, if_false]
        omega
    | none =>
        have := card_entries_of_full he
        simp only [if_true]
        omega
  · rw [Function.update_of_ne hbin]
    exact hp b hb

/-! ## Copying a table -/

/-- The search for a vacant slot. -/
theorem findSlot_vacancy (ch : Chain Addr Val) : Vacancy ch (findSlot 0 ch) := by
  cases h : findSlot 0 ch with
  | some i =>
      obtain ⟨hi, h0, -⟩ := List.findIdx?_eq_some_iff_getElem.mp h
      exact ⟨ch[i], List.getElem?_eq_getElem hi, by simpa using h0⟩
  | none =>
      intro s hs
      simpa using List.findIdx?_eq_none_iff.mp h s hs

/-- **What copying does to the table that is built**: it gains the entries `m`. -/
structure Copied (T T' : Hashtable) (m : Multiset (Addr × Val)) : Prop where
  wf : T'.Wf
  packed : T'.Packed
  content : T'.content = T.content + m
  numBuckets : T'.numBuckets = T.numBuckets
  lock : T'.lock = T.lock

/-- Nothing has been copied. -/
theorem Copied.refl {T : Hashtable} (hw : T.Wf) (hp : T.Packed) : Copied T T 0 :=
  ⟨hw, hp, (add_zero _).symm, rfl, rfl⟩

/-- Two copies, one after the other. -/
theorem Copied.trans {T T' T'' : Hashtable} {m m' : Multiset (Addr × Val)}
    (h : Copied T T' m) (h' : Copied T' T'' m') : Copied T T'' (m + m') where
  wf := h'.wf
  packed := h'.packed
  content := by rw [h'.content, h.content, add_assoc]
  numBuckets := h'.numBuckets.trans h.numBuckets
  lock := h'.lock.trans h.lock

/-- One slot is copied. -/
theorem cpySlot_copied {T : Hashtable} (hw : T.Wf) (hp : T.Packed) (s : Slot Addr Val)
    (hd : Distinct (T.content + s.entry)) : Copied T (cpySlot T s) s.entry := by
  obtain ⟨key, val⟩ := s
  unfold cpySlot
  split
  · next h0 =>
    rw [Slot.entry_of_vacant h0]
    exact .refl hw hp
  · next hk =>
    rw [Slot.entry_of_occupied hk] at hd ⊢
    have he := findSlot_vacancy (T.table (clhtLpHash T key))
    have hnew : ∀ w, (key, w) ∉ T.content := by
      intro w hmem
      rw [Distinct, Multiset.map_add] at hd
      exact Multiset.disjoint_left.mp (Multiset.nodup_add.mp hd).2.2
        (Multiset.mem_map_of_mem _ hmem) (by simp)
    have hg := insertSlot_grown hw val hk hnew he
    refine ⟨hg.wf, insertSlot_packed hw hp val hk he, ?_, hg.numBuckets, hg.lock⟩
    rw [add_comm, Multiset.singleton_add]
    exact hg.content

/-- A chain is copied. -/
theorem foldl_cpySlot_copied (c : Chain Addr Val) {T : Hashtable} (hw : T.Wf)
    (hp : T.Packed) (hd : Distinct (T.content + entries c)) :
    Copied T (c.foldl cpySlot T) (entries c) := by
  induction c generalizing T with
  | nil => exact .refl hw hp
  | cons s rest ih =>
      rw [entries_cons, ← add_assoc] at hd
      have hs := cpySlot_copied hw hp s (hd.of_le (Multiset.le_add_right ..))
      rw [← hs.content] at hd
      rw [entries_cons]
      exact hs.trans (ih hs.wf hs.packed hd)

/-- **The copy loop**, over buckets that nobody has locked. -/
theorem copyBuckets_copied {T htNew : Hashtable} (hw : htNew.Wf) (hp : htNew.Packed)
    (hfree : ∀ b, T.lock b = .free) {n : Nat}
    (hd : Distinct (htNew.content + SlotTable.content n T.table)) :
    ∃ T' htNew', copyBuckets n T htNew = some (T', htNew') ∧ T'.table = T.table ∧
      (∀ b, n ≤ b → T'.lock b = .free) ∧
      Copied htNew htNew' (SlotTable.content n T.table) := by
  induction n with
  | zero => exact ⟨T, htNew, rfl, rfl, fun b _ => hfree b, .refl hw hp⟩
  | succ n ih =>
      rw [content_succ, ← add_assoc] at hd
      obtain ⟨T', new', hcopy, htab, hlock, hcop⟩ :=
        ih (hd.of_le (Multiset.le_add_right ..))
      rw [← hcop.content] at hd
      refine ⟨{ T' with lock := Function.update T'.lock n .resize },
        (T.table n).foldl cpySlot new', ?_, htab, ?_, ?_⟩
      · rw [copyBuckets, hcopy, Option.bind_some]
        dsimp only [bucketCpy]
        rw [hlock n le_rfl, htab]
      · intro b hb
        show Function.update T'.lock n .resize b = .free
        rw [Function.update_of_ne (by omega)]
        exact hlock b (by omega)
      · rw [content_succ]
        exact hcop.trans (foldl_cpySlot_copied _ hcop.wf hcop.packed hd)

/-! ## Resizing -/

/-- Nobody is inside a call. -/
structure Idle (h : Clht) : Prop where
  wf : h.cur.Wf
  free : ∀ b, h.cur.lock b = .free
  resizeLock : h.resizeLock = false
  next : h.ht < h.numTabs

/-- The map and the lock objects are as before. -/
structure Kept (h h' : Clht) : Prop where
  content : h'.cur.content = h.cur.content
  objs : h'.objs = h.objs

/-- No table of more than `2 ^ 31` buckets has been resized. -/
def Fits (h : Clht) : Prop := ∀ l ∈ h.out, l.1 ≤ 2 ^ 31

/-- **What a resize does**: it builds a packed table from the buckets that the copy loop
    visits, makes it the current one, and returns or goes on with `ht_status`. -/
theorem htResizePes_swap {h : Clht} (hi : Idle h) {isIncrease : Bool} {by_ : Int}
    (hnew : 0 < numBucketsNew h.cur.numBuckets isIncrease by_) :
    ∃ h', Idle h' ∧ h'.objs = h.objs ∧ h'.cur.Packed ∧
      h'.cur.content = SlotTable.content (bucketsVisited h.cur.numBuckets) h.cur.table ∧
      h'.cur.numBuckets = numBucketsNew h.cur.numBuckets isIncrease by_ ∧
      ∀ st : Clht → Clht × Option Nat, htResizePes st h isIncrease by_ =
        if h'.cur.numExpandsThreshold ≤ h'.cur.numExpands then
          ((st h').1, (st h').2.map fun _ => 1)
        else (h', some 1) := by
  obtain ⟨new, hcreate⟩ : ∃ new,
      clhtLpHashtableCreate (numBucketsNew h.cur.numBuckets isIncrease by_) = some new := by
    unfold clhtLpHashtableCreate
    rw [if_neg hnew.ne']
    exact ⟨_, rfl⟩
  obtain ⟨hw, hp, hc0, -, hnum, hfree⟩ := clhtLpHashtableCreate_some hcreate
  -- the version number is no part of any of these facts
  have hw' : ({ new with version := h.cur.version + 1 } : Hashtable).Wf :=
    ⟨hw.pos, hw.hashed, hw.distinct, hw.whole, hw.expands, hw.thresholdEq⟩
  have hd : Distinct (new.content +
      SlotTable.content (bucketsVisited h.cur.numBuckets) h.cur.table) := by
    rw [hc0, zero_add]
    exact hi.wf.distinct.of_le (content_mono _ (Nat.min_le_left _ _))
  obtain ⟨old', new', hcopy, -, -, hcop⟩ := copyBuckets_copied hw' hp hi.free hd
  have hcur : ∀ g : Clht, (g.publish old' new').cur = { new' with tablePrev := some g.ht } :=
    fun g => Function.update_self ..
  refine ⟨({ h with
      resizeLock := true
      out := h.out ++
        [(h.cur.numBuckets, numBucketsNew h.cur.numBuckets isIncrease by_)] } : Clht).publish
    old' new', ?_, rfl, ?_, ?_, ?_, ?_⟩
  · refine ⟨?_, ?_, rfl, Nat.lt_succ_self _⟩
    · rw [hcur]
      have := hcop.wf
      exact ⟨this.pos, this.hashed, this.distinct, this.whole, this.expands,
        this.thresholdEq⟩
    · rw [hcur]
      intro b
      show new'.lock b = .free
      rw [hcop.lock]
      exact hfree b
  · rw [hcur]
    exact hcop.packed
  · rw [hcur]
    show new'.content = _
    rw [hcop.content]
    show new.content + _ = _
    rw [hc0, zero_add]
  · rw [hcur]
    show new'.numBuckets = _
    rw [hcop.numBuckets]
    exact hnum
  · intro st
    rw [hcur]
    unfold htResizePes
    simp only [hi.resizeLock, Bool.false_eq_true, if_false, hcreate, hcopy]

/-- The content survives if the copy loop visits every bucket. -/
theorem content_bucketsVisited {T : Hashtable} (hn : T.numBuckets ≤ 2 ^ 31) :
    SlotTable.content (bucketsVisited T.numBuckets) T.table = T.content := by
  rw [bucketsVisited, Nat.min_eq_left hn]
  rfl

@[simp] theorem publish_out (h : Clht) (htOld htNew : Hashtable) :
    (h.publish htOld htNew).out = h.out := rfl

/-- What a resize has printed: all there was, and its own line. -/
theorem htResizePes_out {st : Clht → Clht × Option Nat}
    (hst : ∀ g, ∀ l ∈ g.out, l ∈ (st g).1.out) (h : Clht) (isIncrease : Bool) (by_ : Int) :
    (∀ l ∈ h.out, l ∈ (htResizePes st h isIncrease by_).1.out) ∧
    (h.resizeLock = false → (h.cur.numBuckets, numBucketsNew h.cur.numBuckets isIncrease by_)
      ∈ (htResizePes st h isIncrease by_).1.out) := by
  unfold htResizePes
  dsimp only
  split
  · next hl => exact ⟨fun _ => id, fun h0 => absurd (h0.symm.trans hl) Bool.false_ne_true⟩
  · split
    · exact ⟨fun l hl => by simp [hl], fun _ => by simp⟩
    · split
      · exact ⟨fun l hl => by simp [hl], fun _ => by simp⟩
      · next htOld htNew _ =>
        split
        · generalize hg : Clht.publish _ htOld htNew = g
          have hout : g.out = h.out ++ [(h.cur.numBuckets,
              numBucketsNew h.cur.numBuckets isIncrease by_)] := by
            rw [← hg, publish_out]
          exact ⟨fun l hl => hst g l (by simp [hout, hl]), fun _ => hst g _ (by simp [hout])⟩
        · exact ⟨fun l hl => by simp [hl], fun _ => by simp⟩

/-- `ht_status` leaves the state of its resize, but for its own lock. -/
theorem htStatus_resize (fuel : Nat) {h : Clht} {r : Bool} (hs : h.statusLock = false ∨ r = true)
    {isIncrease : Bool} {by_ : Int}
    (hres : statusResize h.cur.numBuckets (clhtLpSize h.cur) (expandsMax h.cur) r
      = some (isIncrease, by_)) :
    ∃ s, htStatus (fuel + 1) h r =
      ({ (htResizePes (htStatus fuel · true) { h with statusLock := true }
          isIncrease by_).1 with statusLock := s },
        (htResizePes (htStatus fuel · true) { h with statusLock := true }
          isIncrease by_).2.map fun _ => clhtLpSize h.cur) := by
  have hgo : ¬ (h.statusLock = true ∧ (!r) = true) := by
    rintro ⟨hl, hr⟩
    rcases hs with hs | rfl
    · exact Bool.false_ne_true (hs.symm.trans hl)
    · exact Bool.false_ne_true hr
  rw [htStatus]
  simp only [if_neg hgo, hres]
  generalize htResizePes _ _ _ _ = res
  obtain ⟨g, _ | _⟩ := res
  · exact ⟨g.statusLock, rfl⟩
  · exact ⟨false, rfl⟩

/-- `ht_status` forgets no output. -/
theorem htStatus_out (fuel : Nat) (h : Clht) (r : Bool) :
    ∀ l ∈ h.out, l ∈ (htStatus fuel h r).1.out := by
  induction fuel generalizing h r with
  | zero => exact fun _ hl => hl
  | succ fuel ih =>
      intro l hl
      unfold htStatus
      dsimp only
      split
      · exact hl
      · split
        · exact hl
        · next isIncrease by_ _ =>
          have hres := (htResizePes_out (fun g => ih g true)
            { h with statusLock := true } isIncrease by_).1 l hl
          generalize htResizePes _ _ _ _ = r at hres ⊢
          obtain ⟨g, _ | _⟩ := r <;> exact hres

/-! ## Whether a resize comes back -/

/-- The factor of a resize. -/
theorem incByPow2_range {n : Nat} (h : n ≤ 80) : 2 ≤ incByPow2 n ∧ incByPow2 n ≤ 128 := by
  have hall : ∀ i : Fin 81, 2 ≤ incByPow2 i ∧ incByPow2 i ≤ 128 := by decide +kernel
  exact hall ⟨n, by omega⟩

/-- A resize request always leads to a resize. -/
theorem statusResize_ne_none (n size em : Nat) : statusResize n size em true ≠ none := by
  unfold statusResize
  dsimp only
  split
  · simp
  · simp

/-- A nearly empty table shrinks. -/
theorem statusResize_shrink {n size : Nat} (em : Nat) (h0 : 0 < size)
    (h : 100 * size < 15 * n) : statusResize n size em true = some (false, 33) := by
  unfold statusResize entriesPerBucket
  dsimp only
  rw [if_pos ⟨h0, by omega⟩]

/-- Otherwise the table at least doubles. -/
theorem statusResize_grow {n size : Nat} (em : Nat) (hn' : n ≤ 2 ^ 31)
    (h : ¬ (0 < size ∧ 100 * size < 15 * n)) (hsize : size ≤ 96 * n) :
    ∃ by_, statusResize n size em true = some (true, by_) ∧
      2 * n ≤ numBucketsNew n true by_ := by
  have hquot : 100 * size / (40 * (n * entriesPerBucket)) ≤ 80 := by
    refine Nat.div_le_of_le_mul ?_
    unfold entriesPerBucket
    omega
  obtain ⟨hlo, hhi⟩ := incByPow2_range hquot
  refine ⟨incByPow2 (100 * size / (40 * (n * entriesPerBucket))), ?_, ?_⟩
  · unfold statusResize
    dsimp only
    rw [if_neg (by unfold entriesPerBucket; omega), if_pos (by simp)]
  · generalize incByPow2 _ = p at hlo hhi
    unfold numBucketsNew
    rw [if_pos rfl]
    have hlo' : 2 * (n : Int) ≤ p * n := by nlinarith
    have hhi' : p * (n : Int) < 2 ^ 64 := by nlinarith
    rw [Int.emod_eq_of_lt (by omega) hhi']
    omega

/-- **A call of the resize machinery came back**: the map is as before, and the table
    has not reached its threshold. -/
def Returned {α : Type} (h : Clht) (r : Clht × Option α) : Prop :=
  r.2.isSome ∧ Idle r.1 ∧ Kept h r.1 ∧ r.1.cur.overflow < threshold r.1.cur.numBuckets

/-- Enough fuel for a table of `n` buckets: it runs out only after the table has passed
    `2 ^ 32` buckets. -/
def Enough (fuel n : Nat) : Prop := 1 ≤ fuel ∧ 2 ^ 33 ≤ n * 2 ^ fuel

/-- Two steps, one after the other. -/
theorem Kept.trans {h h' h'' : Clht} (h1 : Kept h h') (h2 : Kept h' h'') : Kept h h'' :=
  ⟨h2.content.trans h1.content, h2.objs.trans h1.objs⟩

/-- A resize of a table that is too large leaves its line behind. -/
theorem htStatus_not_fits {fuel : Nat} {h : Clht} (hi : Idle h) (hfuel : 1 ≤ fuel)
    (hn : 2 ^ 31 < h.cur.numBuckets) : ¬ Fits (htStatus fuel h true).1 := by
  obtain ⟨fuel, rfl⟩ : ∃ f, fuel = f + 1 := ⟨fuel - 1, by omega⟩
  obtain ⟨⟨isIncrease, by_⟩, hres⟩ := Option.ne_none_iff_exists'.mp
    (statusResize_ne_none h.cur.numBuckets (clhtLpSize h.cur) (expandsMax h.cur))
  obtain ⟨s, hrun⟩ := htStatus_resize fuel (Or.inr rfl) hres
  intro hfits
  rw [hrun] at hfits
  have hle := hfits _ ((htResizePes_out (fun g => htStatus_out fuel g true)
    { h with statusLock := true } isIncrease by_).2 hi.resizeLock)
  exact absurd hn (Nat.not_lt.mpr hle)

/-- What `ht_status` decides leads to a table that the remaining fuel is enough for. -/
theorem statusResize_spec {n size fuel : Nat} (em : Nat) (hn : n ≤ 2 ^ 31)
    (h2 : 2 ≤ size) (hsize : size ≤ 96 * n) (hfuel : Enough (fuel + 1) n)
    (hbig : 15 * n ≤ 100 * size ∨ 40 ≤ fuel + 1) :
    ∃ isIncrease by_, statusResize n size em true = some (isIncrease, by_) ∧
      0 < numBucketsNew n isIncrease by_ ∧ size ≤ 96 * numBucketsNew n isIncrease by_ ∧
      Enough fuel (numBucketsNew n isIncrease by_) := by
  by_cases hfew : 0 < size ∧ 100 * size < 15 * n
  · have hnew : numBucketsNew n false 33 = n / 8 := rfl
    have hpow : 2 ^ 33 ≤ 2 ^ fuel := Nat.pow_le_pow_right (by omega) (by omega)
    refine ⟨false, 33, statusResize_shrink em hfew.1 hfew.2, ?_, ?_, ?_, ?_⟩
    · omega
    · omega
    · omega
    · rw [hnew]
      calc 2 ^ 33 ≤ 1 * 2 ^ fuel := by omega
        _ ≤ n / 8 * 2 ^ fuel := Nat.mul_le_mul_right _ (by omega)
  · obtain ⟨by_, hres, hdouble⟩ := statusResize_grow em hn hfew hsize
    have hroom : 2 ^ 33 ≤ 2 * n * 2 ^ fuel :=
      calc 2 ^ 33 ≤ n * 2 ^ (fuel + 1) := hfuel.2
        _ = 2 * n * 2 ^ fuel := by ring
    refine ⟨true, by_, hres, by omega, by omega, ?_, ?_⟩
    · by_contra h0
      obtain rfl : fuel = 0 := by omega
      omega
    · exact hroom.trans (Nat.mul_le_mul_right _ hdouble)

/-- With this much fuel, a resize request comes back from every table that is not nearly
    empty, and with still more from every table. -/
def StatusReturns (fuel : Nat) : Prop :=
  ∀ h, Idle h → 2 ≤ h.cur.content.card → h.cur.content.card ≤ 96 * h.cur.numBuckets →
    h.cur.content.card ≤ 6 * 2 ^ 31 → Enough fuel h.cur.numBuckets →
    (15 * h.cur.numBuckets ≤ 100 * h.cur.content.card ∨ 40 ≤ fuel) →
    Fits (htStatus fuel h true).1 → Returned h (htStatus fuel h true)

/-- The request made right after a resize: a packed table over its threshold has more
    entries than buckets. -/
theorem StatusReturns.again {fuel : Nat} (hret : StatusReturns fuel) {g : Clht} (hg : Idle g)
    (hp : g.cur.Packed) (hthr : g.cur.numExpandsThreshold ≤ g.cur.numExpands)
    (h96 : g.cur.content.card ≤ 96 * g.cur.numBuckets)
    (h6 : g.cur.content.card ≤ 6 * 2 ^ 31) (hfuel : Enough fuel g.cur.numBuckets)
    (hfits : Fits (htStatus fuel g true).1) : Returned g (htStatus fuel g true) := by
  have hn : g.cur.numBuckets ≤ 2 ^ 31 := by
    by_contra hlt
    exact htStatus_not_fits hg hfuel.1 (by omega) hfits
  have hpos := hg.wf.pos
  have hover : g.cur.numBuckets ≤ g.cur.overflow := by
    rw [hg.wf.thresholdEq, threshold_of_lt hpos (by omega), hg.wf.expands] at hthr
    exact hthr.trans (Nat.mod_le _ _)
  have hcard := hp.overflow_lt hg.wf (by omega)
  exact hret g hg (by omega) h96 h6 hfuel (.inl (by omega)) hfits

/-- One resize, and the requests it leads to. -/
theorem StatusReturns.resize {fuel : Nat} (hret : StatusReturns fuel) {h : Clht}
    (hi : Idle h) (hn : h.cur.numBuckets ≤ 2 ^ 31) {isIncrease : Bool} {by_ : Int}
    (hnew : 0 < numBucketsNew h.cur.numBuckets isIncrease by_)
    (h96 : h.cur.content.card ≤ 96 * numBucketsNew h.cur.numBuckets isIncrease by_)
    (h6 : h.cur.content.card ≤ 6 * 2 ^ 31)
    (hfuel : Enough fuel (numBucketsNew h.cur.numBuckets isIncrease by_))
    (hfits : Fits (htResizePes (htStatus fuel · true) h isIncrease by_).1) :
    Returned h (htResizePes (htStatus fuel · true) h isIncrease by_) ∧
      ∀ r ∈ (htResizePes (htStatus fuel · true) h isIncrease by_).2, r = 1 := by
  obtain ⟨h', hi', hobjs, hpacked, hcontent, hnum, hrun⟩ := htResizePes_swap hi hnew
  have hkept : Kept h h' := ⟨hcontent.trans (content_bucketsVisited hn), hobjs⟩
  rw [hrun] at hfits ⊢
  by_cases hagain : h'.cur.numExpandsThreshold ≤ h'.cur.numExpands
  · rw [if_pos hagain] at hfits ⊢
    obtain ⟨hsome, hidle, hkept', hlt⟩ := hret.again hi' hpacked hagain
      (by rw [hkept.content, hnum]; exact h96) (by rw [hkept.content]; exact h6)
      (by rw [hnum]; exact hfuel) hfits
    refine ⟨⟨by simpa using hsome, hidle, hkept.trans hkept', hlt⟩, fun r hr => ?_⟩
    obtain ⟨_, -, rfl⟩ := Option.map_eq_some_iff.mp hr
    rfl
  · rw [if_neg hagain]
    refine ⟨⟨rfl, hi', hkept, ?_⟩, fun r hr => (Option.some.inj hr).symm⟩
    -- the count has not wrapped: every expansion of a packed table is paid for
    have hexp := hi'.wf.expands
    have hthr := hi'.wf.thresholdEq
    have hover : h'.cur.overflow < 2 ^ 32 := by
      by_contra hge
      have := hpacked.overflow_lt hi'.wf (by omega)
      rw [hkept.content] at this
      omega
    rw [Nat.mod_eq_of_lt hover] at hexp
    show h'.cur.overflow < threshold h'.cur.numBuckets
    omega

/-- **A resize request comes back.** -/
theorem htStatus_returns (fuel : Nat) : StatusReturns fuel := by
  induction fuel with
  | zero => exact fun h _ _ _ _ hfuel => absurd hfuel.1 (by omega)
  | succ fuel ih =>
      intro h hi h2 h96 h6 hfuel hbig hfits
      have hn : h.cur.numBuckets ≤ 2 ^ 31 := by
        by_contra hlt
        exact htStatus_not_fits hi hfuel.1 (by omega) hfits
      obtain ⟨isIncrease, by_, hres, hnew, h96', hfuel'⟩ :=
        statusResize_spec (expandsMax h.cur) hn h2 h96 hfuel hbig
      obtain ⟨s, hrun⟩ := htStatus_resize fuel (Or.inr rfl) (clhtLpSize_eq h.cur ▸ hres)
      rw [hrun] at hfits ⊢
      have hi' : Idle { h with statusLock := true } := ⟨hi.wf, hi.free, hi.resizeLock, hi.next⟩
      obtain ⟨⟨hsome, hidle, hkept, hlt⟩, -⟩ := ih.resize hi' hn hnew h96' h6 hfuel' hfits
      exact ⟨by simpa using hsome, ⟨hidle.wf, hidle.free, hidle.resizeLock, hidle.next⟩,
        ⟨hkept.content, hkept.objs⟩, hlt⟩

end ClhtLp
