import Mathlib.Data.Set.Card
import Lockin.ClhtLpResize

/-! # The hash table as a map

    One thread, any sequence of calls.  A call is described by what it does to the
    content of the current table, and the content is read as a finite map from addresses
    to values: `Represents`.  Every call that the caller may make comes back and does to
    the map what `Spec` says, as long as no table of more than `2 ^ 31` buckets is
    resized; the copy loop of such a resize would not reach the buckets behind. -/

namespace ClhtLp

open SlotTable

/-! ## Searching -/

/-- The search finds a slot with the key. -/
theorem findSlot_some {key : Addr} {ch : Chain Addr Val} {i : Nat}
    (h : findSlot key ch = some i) : ∃ v, ch[i]? = some ⟨key, v⟩ := by
  obtain ⟨hi, hkey, -⟩ := List.findIdx?_eq_some_iff_getElem.mp h
  have hkey' : ch[i].key = key := by simpa using hkey
  exact ⟨ch[i].val, by rw [List.getElem?_eq_getElem hi, ← hkey']⟩

/-- The search has looked at the whole chain. -/
theorem findSlot_none {key : Addr} {c : Chain Addr Val} (h : findSlot key c = none) :
    ∀ s ∈ c, s.key ≠ key := by
  intro s hs
  simpa using List.findIdx?_eq_none_iff.mp h s hs

/-- The search of a put, started behind `pre`. -/
theorem seek_spec_from {key : Addr} (rest pre : Chain Addr Val) (empty : Option Nat)
    (hpre : ∀ s ∈ pre, s.key ≠ key) (he : Vacancy pre empty) :
    match seek key rest pre.length empty with
    | .found i => ∃ v, (pre ++ rest)[i]? = some ⟨key, v⟩
    | .absent e => (∀ s ∈ pre ++ rest, s.key ≠ key) ∧ Vacancy (pre ++ rest) e := by
  induction rest generalizing pre empty with
  | nil =>
      rw [List.append_nil]
      exact ⟨hpre, he⟩
  | cons s rest ih =>
      rw [seek]
      by_cases hkey : s.key = key
      · rw [if_pos hkey]
        exact ⟨s.val, by simp [← hkey]⟩
      · rw [if_neg hkey]
        have hsplit : pre ++ s :: rest = (pre ++ [s]) ++ rest := by simp
        have hlen : pre.length + 1 = (pre ++ [s]).length := by simp
        rw [hsplit, hlen]
        refine ih _ _ ?_ ?_
        · intro x hx
          rcases List.mem_append.mp hx with hx | hx
          · exact hpre x hx
          · rwa [List.mem_singleton.mp hx]
        · cases empty with
          | some i =>
              obtain ⟨x, hx, hx0⟩ := he
              have hi := (List.getElem?_eq_some_iff.mp hx).1
              rw [if_neg (by simp)]
              exact ⟨x, by rw [List.getElem?_append_left hi]; exact hx, hx0⟩
          | none =>
              by_cases h0 : s.key = 0
              · rw [if_pos ⟨rfl, h0⟩]
                exact ⟨s, by simp, h0⟩
              · rw [if_neg (by simp [h0])]
                intro x hx
                rcases List.mem_append.mp hx with hx | hx
                · exact he x hx
                · rwa [List.mem_singleton.mp hx]

/-- The search of a put finds the key, or a vacancy if there is one. -/
theorem seek_spec (key : Addr) (ch : Chain Addr Val) :
    match seek key ch 0 none with
    | .found i => ∃ v, ch[i]? = some ⟨key, v⟩
    | .absent e => (∀ s ∈ ch, s.key ≠ key) ∧ Vacancy ch e :=
  seek_spec_from ch [] none (by simp) (by simp [Vacancy])

theorem slotVal_of {ch : Chain Addr Val} {i : Nat} {s : Slot Addr Val}
    (h : ch[i]? = some s) : slotVal ch i = s.val := by
  rw [slotVal, h]
  rfl

/-- A key is in the table exactly if the chain of its bucket has it. -/
theorem Hashtable.Wf.mem_content_iff {T : Hashtable} (hw : T.Wf) {key : Addr}
    (hk : key ≠ 0) {v : Val} :
    (key, v) ∈ T.content ↔ ∃ i : Nat, (T.table (clhtLpHash T key))[i]? = some ⟨key, v⟩ := by
  rw [hw.mem_content, mem_entries, List.mem_iff_getElem?]
  exact ⟨fun h => h.2, fun h => ⟨hk, h⟩⟩

/-- A chain without the key shows that the table is without it. -/
theorem Hashtable.Wf.not_mem_content {T : Hashtable} (hw : T.Wf) {key : Addr}
    (h : ∀ s ∈ T.table (clhtLpHash T key), s.key ≠ key) (v : Val) :
    (key, v) ∉ T.content := by
  intro hmem
  exact h _ (mem_entries.mp (hw.mem_content.mp hmem)).2 rfl

/-! ## What each call does to the content -/

/-- Between two calls: nobody is inside one, and no resize is due. -/
structure Ready (h : Clht) : Prop extends Idle h where
  due : h.cur.overflow < threshold h.cur.numBuckets

/-- A thread that runs alone locks its bucket. -/
theorem lockAcq_ready {h : Clht} (hi : Idle h) (key : Addr) (b : Nat) :
    lockAcq h key h.ht b h.ht = some (h.ht, b, h.ht) := by
  unfold lockAcq
  have hfree : (h.tab h.ht).lock b = .free := hi.free b
  rw [hfree]

/-- The current table is replaced. -/
theorem setTab_cur (h : Clht) (T : Hashtable) : (h.setTab h.ht T).cur = T :=
  Function.update_self ..

theorem setTab_self (h : Clht) : h.setTab h.ht h.cur = h := by
  rw [Clht.setTab, Clht.cur, Function.update_eq_self]

theorem setLock_tab (h : Clht) (t b : Nat) (l : BucketLock) :
    (h.setLock t b l).tab t
      = { h.tab t with lock := Function.update (h.tab t).lock b l } :=
  Function.update_self ..

/-- Unlocking a bucket of the current table after it was locked and the table was
    changed. -/
theorem setLock_around {h : Clht} (hi : Idle h) (b : Nat) (os : List PutType)
    {T : Hashtable} (hT : T.lock = h.cur.lock) :
    (({ h.setLock h.ht b .update with objs := os } : Clht).setTab h.ht
      { T with lock := Function.update T.lock b .update }).setLock h.ht b .free
        = { h.setTab h.ht T with objs := os } := by
  have hlock : Function.update (Function.update T.lock b .update) b .free = T.lock := by
    rw [Function.update_idem, hT, ← hi.free b, Function.update_eq_self]
  unfold Clht.setLock Clht.setTab
  simp only [Function.update_idem, Function.update_self, hlock]

/-- Locking a bucket and unlocking it again changes nothing. -/
theorem setLock_twice {h : Clht} (hi : Idle h) (b : Nat) :
    (h.setLock h.ht b .update).setLock h.ht b .free = h := by
  have hround := setLock_around hi b h.objs (T := h.cur) rfl
  rw [setTab_self] at hround
  refine Eq.trans ?_ hround
  unfold Clht.setLock Clht.setTab Clht.cur
  simp only [Function.update_idem, Function.update_self]

theorem insertSlot_lock (T : Hashtable) (l : Nat → BucketLock) (b : Nat) (key : Addr)
    (val : Val) (e : Option Nat) :
    insertSlot { T with lock := l } b key val e =
      ({ (insertSlot T b key val e).1 with lock := l }, (insertSlot T b key val e).2) := by
  cases e <;> rfl

/-- What is due after an insertion: the flag says whether the expansion has reached the
    threshold. -/
theorem insertSlot_resize {T : Hashtable} (hw : T.Wf) (hdue : T.overflow < threshold T.numBuckets)
    (b : Nat) (key : Addr) (val : Val) (e : Option Nat) :
    (insertSlot T b key val e).2.2 = true ↔
      e = none ∧ T.overflow + 1 = threshold T.numBuckets := by
  have hlt := threshold_lt T.numBuckets
  cases e with
  | some i => simp [insertSlot]
  | none =>
      have hexp : T.numExpands = T.overflow := by
        rw [hw.expands, Nat.mod_eq_of_lt (by omega)]
      simp only [insertSlot, clhtBucketCreateStats, hexp, hw.thresholdEq, decide_eq_true_eq,
        true_and]
      rw [Nat.mod_eq_of_lt (by omega)]

/-- A put that finds the key. -/
theorem putLocked_found {fuel : Nat} {h : Clht} {key : Addr} {create : Clht → Clht × Val}
    (hi : Idle h) {i : Nat}
    (hseek : seek key (h.cur.table (clhtLpHash h.cur key)) 0 none = .found i) :
    putLocked fuel h key h.ht (clhtLpHash h.cur key) create
      = (h, some (.present ⟨h.ht, clhtLpHash h.cur key, i⟩)) := by
  have hcur : ((h.setLock h.ht (clhtLpHash h.cur key) .update).tab h.ht).table
      = h.cur.table := by
    rw [setLock_tab]
    rfl
  unfold putLocked
  simp only [lockAcq_ready hi, hcur, hseek, setLock_twice hi]

/-- A put that does not: what it leaves before it looks at the `resize` flag. -/
theorem putLocked_absent (fuel : Nat) {h : Clht} {key : Addr} {create : Clht → Clht × Val}
    {os : List PutType} {val : Val} (hi : Idle h) {e : Option Nat}
    (hseek : seek key (h.cur.table (clhtLpHash h.cur key)) 0 none = .absent e)
    (hcreate : ∀ g, g.objs = h.objs → create g = ({ g with objs := os }, val)) :
    ∃ g p, g = { h.setTab h.ht (insertSlot h.cur (clhtLpHash h.cur key) key val e).1 with
        objs := os } ∧
      putLocked fuel h key h.ht (clhtLpHash h.cur key) create =
        if (insertSlot h.cur (clhtLpHash h.cur key) key val e).2.2 then
          ((htStatus fuel g true).1, (htStatus fuel g true).2.map fun _ => .inserted p val)
        else (g, some (.inserted p val)) := by
  have hcur : (h.setLock h.ht (clhtLpHash h.cur key) .update).tab h.ht
      = { h.cur with lock := Function.update h.cur.lock (clhtLpHash h.cur key) .update } :=
    setLock_tab ..
  have hlock : (insertSlot h.cur (clhtLpHash h.cur key) key val e).1.lock = h.cur.lock := by
    cases e <;> rfl
  refine ⟨_, ⟨h.ht, clhtLpHash h.cur key,
    (insertSlot h.cur (clhtLpHash h.cur key) key val e).2.1⟩, rfl, ?_⟩
  unfold putLocked
  simp only [lockAcq_ready hi, hcur, hseek,
    hcreate (h.setLock h.ht (clhtLpHash h.cur key) .update) rfl, insertSlot_lock]
  rw [← setLock_around hi (clhtLpHash h.cur key) os hlock, hlock]

/-- **A put under the lock.** It either finds the key and changes nothing, or inserts
    what `create` makes and comes back, maybe after resizes. -/
theorem putLocked_spec {fuel : Nat} {h : Clht} {key : Addr} {create : Clht → Clht × Val}
    {os : List PutType} {val : Val} (hf : 40 ≤ fuel) (hr : Ready h) (hk : key ≠ 0)
    (hcreate : ∀ g, g.objs = h.objs → create g = ({ g with objs := os }, val))
    (hfits : Fits (putLocked fuel h key h.ht (clhtLpHash h.cur key) create).1) :
    (∃ p v, putLocked fuel h key h.ht (clhtLpHash h.cur key) create = (h, some (.present p)) ∧
      h.read p = v ∧ (key, v) ∈ h.cur.content) ∨
    (∃ h' p, putLocked fuel h key h.ht (clhtLpHash h.cur key) create
        = (h', some (.inserted p val)) ∧ Ready h' ∧ (∀ v, (key, v) ∉ h.cur.content) ∧
      h'.cur.content = (key, val) ::ₘ h.cur.content ∧ h'.objs = os) := by
  have hi := hr.toIdle
  have hspec := seek_spec key (h.cur.table (clhtLpHash h.cur key))
  cases hseek : seek key (h.cur.table (clhtLpHash h.cur key)) 0 none with
  | found i =>
      rw [hseek] at hspec
      obtain ⟨v, hv⟩ := hspec
      exact .inl ⟨_, v, putLocked_found hi hseek, slotVal_of hv,
        (hi.wf.mem_content_iff hk).mpr ⟨i, hv⟩⟩
  | absent e =>
      rw [hseek] at hspec
      obtain ⟨habsent, hvac⟩ := hspec
      have hnew := hi.wf.not_mem_content habsent
      have hg := insertSlot_grown hi.wf val hk hnew hvac
      have hflag := insertSlot_resize hi.wf hr.due (clhtLpHash h.cur key) key val e
      obtain ⟨g, p, hgdef, hrun⟩ := putLocked_absent fuel hi hseek hcreate
      rw [hrun] at hfits ⊢
      have hcur : g.cur = (insertSlot h.cur (clhtLpHash h.cur key) key val e).1 := by
        rw [hgdef]
        exact Function.update_self ..
      rw [← hcur] at hg
      have hidle : Idle g := by
        refine ⟨hg.wf, fun b => ?_, by rw [hgdef]; exact hi.resizeLock,
          by rw [hgdef]; exact hi.next⟩
        rw [hg.lock]
        exact hi.free b
      have hobjs : g.objs = os := by rw [hgdef]
      by_cases hresize : (insertSlot h.cur (clhtLpHash h.cur key) key val e).2.2 = true
      · rw [if_pos hresize] at hfits ⊢
        obtain ⟨rfl, hthr⟩ := hflag.mp hresize
        have hn : g.cur.numBuckets ≤ 2 ^ 31 := by
          by_contra hlt
          exact htStatus_not_fits hidle (by omega) (by omega) hfits
        -- the chain was full, and the table has as many overflow buckets as buckets
        have hfull : 2 ≤ g.cur.content.card := by
          obtain ⟨n, hn⟩ := hi.wf.whole _ (clhtLpHash_lt hi.wf.pos key)
          have hle := Multiset.card_le_card
            (entries_le_content h.cur.table (clhtLpHash_lt hi.wf.pos key))
          rw [card_entries_of_full hvac] at hle
          rw [hg.content, Multiset.card_cons, Hashtable.content]
          omega
        have hmany : g.cur.content.card ≤ 6 * g.cur.numBuckets := by
          have hle := hidle.wf.card_content_le
          have := threshold_le hi.wf.pos
          rw [hg.overflow, if_pos rfl, hthr] at hle
          rw [hg.numBuckets] at hle ⊢
          omega
        have henough : Enough fuel g.cur.numBuckets := by
          refine ⟨by omega, ?_⟩
          calc 2 ^ 33 ≤ 1 * 2 ^ fuel := by
                rw [one_mul]
                exact Nat.pow_le_pow_right (by omega) (by omega)
            _ ≤ g.cur.numBuckets * 2 ^ fuel := Nat.mul_le_mul_right _ hidle.wf.pos
        obtain ⟨hsome, hidle', hkept, hdue⟩ := htStatus_returns fuel g hidle hfull
          (by omega) (by omega) henough (.inr hf) hfits
        obtain ⟨s, hs⟩ := Option.isSome_iff_exists.mp hsome
        refine .inr ⟨_, p, by rw [hs]; rfl, ⟨hidle', hdue⟩, hnew, ?_, ?_⟩
        · rw [hkept.content, hg.content]
        · rw [hkept.objs, hobjs]
      · rw [if_neg hresize]
        refine .inr ⟨g, p, rfl, ⟨hidle, ?_⟩, hnew, hg.content, hobjs⟩
        rw [hg.overflow, hg.numBuckets]
        have := hr.due
        split
        · next he =>
          have : h.cur.overflow + 1 ≠ threshold h.cur.numBuckets :=
            fun heq => hresize (hflag.mpr ⟨he, heq⟩)
          omega
        · omega

/-- `bucket_exists` and `clht_lp_get`: the value of the key, or 0. -/
theorem bucketExists_spec {T : Hashtable} (hw : T.Wf) {key : Addr} (hk : key ≠ 0) :
    (∃ v, (key, v) ∈ T.content ∧ bucketExists key (T.table (clhtLpHash T key)) = v) ∨
    (∀ v, (key, v) ∉ T.content) ∧ bucketExists key (T.table (clhtLpHash T key)) = 0 := by
  unfold bucketExists
  cases hfind : findSlot key (T.table (clhtLpHash T key)) with
  | some i =>
      obtain ⟨v, hv⟩ := findSlot_some hfind
      exact .inl ⟨v, (hw.mem_content_iff hk).mpr ⟨i, hv⟩, slotVal_of hv⟩
  | none => exact .inr ⟨hw.not_mem_content (findSlot_none hfind), rfl⟩

/-- `clht_lp_get_in`: the slot of the key, or `NULL`. -/
theorem clhtLpGetIn_spec {T : Hashtable} (hw : T.Wf) {key : Addr} (hk : key ≠ 0) :
    (∃ v i, (key, v) ∈ T.content ∧ clhtLpGetIn T key = some (clhtLpHash T key, i) ∧
      (T.table (clhtLpHash T key))[i]? = some ⟨key, v⟩) ∨
    (∀ v, (key, v) ∉ T.content) ∧ clhtLpGetIn T key = none := by
  unfold clhtLpGetIn
  cases hfind : findSlot key (T.table (clhtLpHash T key)) with
  | some i =>
      obtain ⟨v, hv⟩ := findSlot_some hfind
      exact .inl ⟨v, i, (hw.mem_content_iff hk).mpr ⟨i, hv⟩, rfl, hv⟩
  | none => exact .inr ⟨hw.not_mem_content (findSlot_none hfind), rfl⟩

/-- Overwriting a slot with another of the same vacancy leaves the shape alone. -/
theorem Hashtable.Wf.vacate {T : Hashtable} (hw : T.Wf) {key : Addr} (hk : key ≠ 0)
    {v w : Val} {i : Nat} (hi : (T.table (clhtLpHash T key))[i]? = some ⟨key, v⟩) :
    let T' := T.setChain (clhtLpHash T key) ((T.table (clhtLpHash T key)).set i ⟨0, w⟩)
    T'.Wf ∧ (key, v) ::ₘ T'.content = T.content ∧ T'.overflow = T.overflow := by
  intro T'
  have hlt := clhtLpHash_lt hw.pos key
  have hent := entries_vacate w hk hi
  have hcontent : (key, v) ::ₘ T'.content = T.content := content_remove hlt hent
  have hlen : ∀ b, (T'.table b).length = (T.table b).length := by
    intro b
    show (Function.update T.table _ _ b).length = _
    by_cases hb : b = clhtLpHash T key
    · rw [hb, Function.update_self, List.length_set]
    · rw [Function.update_of_ne hb]
  have hover : T'.overflow = T.overflow := by
    unfold Hashtable.overflow
    simp only [hlen]
    rfl
  refine ⟨⟨hw.pos, ?_, ?_, ?_, ?_, hw.thresholdEq⟩, hcontent, hover⟩
  · refine hw.hashed.update fun k x hmem => hw.hashed _ hlt k x ?_
    rw [← hent]
    exact Multiset.mem_cons_of_mem hmem
  · exact hw.distinct.of_le (hcontent ▸ Multiset.le_cons_self _ _)
  · intro b hb
    rw [hlen]
    exact hw.whole b hb
  · rw [hover]
    exact hw.expands

/-- `clht_lp_remove`. -/
theorem clhtLpRemove_spec {h : Clht} (hr : Ready h) {key : Addr} (hk : key ≠ 0) :
    ∃ h', Ready h' ∧ h'.objs = h.objs ∧ h'.out = h.out ∧
      ((∃ v, (key, v) ::ₘ h'.cur.content = h.cur.content ∧
        clhtLpRemove h key = (h', some v)) ∨
      (∀ v, (key, v) ∉ h.cur.content) ∧ h' = h ∧ clhtLpRemove h key = (h', some 0)) := by
  have hi := hr.toIdle
  have hcur : (h.setLock h.ht (clhtLpHash h.cur key) .update).tab h.ht
      = { h.cur with lock := Function.update h.cur.lock (clhtLpHash h.cur key) .update } :=
    setLock_tab ..
  unfold clhtLpRemove
  simp only [lockAcq_ready hi, hcur]
  cases hfind : findSlot key (h.cur.table (clhtLpHash h.cur key)) with
  | some i =>
      obtain ⟨v, hv⟩ := findSlot_some hfind
      obtain ⟨hw, hcontent, hover⟩ := hi.wf.vacate (w := v) hk hv
      have hround := setLock_around hi (clhtLpHash h.cur key) h.objs
        (T := h.cur.setChain (clhtLpHash h.cur key)
          ((h.cur.table (clhtLpHash h.cur key)).set i ⟨0, v⟩)) rfl
      refine ⟨h.setTab h.ht (h.cur.setChain (clhtLpHash h.cur key)
        ((h.cur.table (clhtLpHash h.cur key)).set i ⟨0, v⟩)), ?_, rfl, rfl,
        .inl ⟨v, ?_, ?_⟩⟩
      · refine ⟨⟨?_, ?_, hi.resizeLock, hi.next⟩, ?_⟩
        · rw [setTab_cur]
          exact hw
        · rw [setTab_cur]
          exact hi.free
        · rw [setTab_cur, hover]
          exact hr.due
      · rw [setTab_cur]
        exact hcontent
      · simp only [slotVal_of hv]
        exact Prod.ext hround rfl
  | none =>
      refine ⟨h, hr, rfl, rfl, .inr ⟨hi.wf.not_mem_content (findSlot_none hfind), rfl, ?_⟩⟩
      rw [setLock_twice hi]

/-! ## The map -/

/-- What the table is for: a map from addresses to values, and the lock objects that
    exist. -/
structure Dict where
  map : Addr → Option Val
  obj : Val → Option PutType

/-- Nothing is bound, and there are no lock objects. -/
def Dict.empty : Dict := ⟨fun _ => none, fun _ => none⟩

def Dict.bind (d : Dict) (key : Addr) (val : Val) : Dict :=
  { d with map := Function.update d.map key (some val) }

def Dict.unbind (d : Dict) (key : Addr) : Dict :=
  { d with map := Function.update d.map key none }

/-- Create a lock object and bind it. -/
def Dict.bindNew (d : Dict) (key : Addr) (val : Val) (type : PutType) : Dict :=
  { d.bind key val with obj := Function.update d.obj val (some type) }

/-- The calls of a user. -/
inductive Call where
  | putType (key : Addr) (type : PutType)
  | putInit (key : Addr)
  | putIn (key : Addr)
  | get (key : Addr)
  | getIn (key : Addr)
  | remove (key : Addr)
  | resize (isIncrease : Bool) (by_ : Int)

/-- What they return. -/
inductive Ret where
  | val (v : Val)
  | int (i : Int)
  | ptr (p : Option SlotPtr)
  deriving DecidableEq

/-- Make a call. -/
def call (fuel : Nat) (h : Clht) : Call → Clht × Option Ret
  | .putType key type =>
      let (h, r) := clhtLpPutType fuel h key type
      (h, r.map .val)
  | .putInit key =>
      let (h, r) := clhtLpPutInit fuel h key
      (h, r.map .int)
  | .putIn key =>
      let (h, r) := clhtLpPutIn fuel h key
      (h, r.map fun p => .ptr (some p))
  | .get key => (h, some (.val (clhtLpGet h.cur key)))
  | .getIn key => (h, some (.ptr ((clhtLpGetIn h.cur key).map fun (b, i) => ⟨h.ht, b, i⟩)))
  | .remove key =>
      let (h, r) := clhtLpRemove h key
      (h, r.map .val)
  | .resize isIncrease by_ =>
      let (h, r) := htResizePes (htStatus fuel · true) h isIncrease by_
      (h, r.map .int)

/-- The calls a user may make: keys are not 0, `by` is an `int`, and a resize asks for at
    least one bucket. -/
def Allowed (h : Clht) : Call → Prop
  | .putType key _ | .putInit key | .putIn key | .get key | .getIn key | .remove key =>
      key ≠ 0
  | .resize isIncrease by_ =>
      -2 ^ 31 ≤ by_ ∧ by_ < 2 ^ 31 ∧ 0 < numBucketsNew h.cur.numBuckets isIncrease by_

/-- **What each call does to the map**, and what it returns. -/
inductive Spec (d : Dict) : Call → Ret → Dict → Prop where
  | putTypeOld {key type v} : d.map key = some v → Spec d (.putType key type) (.val v) d
  | putTypeNew {key type v} : d.map key = none → v ≠ 0 → d.obj v = none →
      Spec d (.putType key type) (.val v) (d.bindNew key v type)
  | putInitOld {key v} : d.map key = some v → Spec d (.putInit key) (.int 1) d
  | putInitNew {key v} : d.map key = none → v ≠ 0 → d.obj v = none →
      Spec d (.putInit key) (.int 0) (d.bindNew key v .adaptive)
  | putInOld {key v p} : d.map key = some v → Spec d (.putIn key) (.ptr (some p)) d
  | putInNew {key p} : d.map key = none →
      Spec d (.putIn key) (.ptr (some p)) (d.bind key 0)
  | getOld {key v} : d.map key = some v → Spec d (.get key) (.val v) d
  | getNone {key} : d.map key = none → Spec d (.get key) (.val 0) d
  | getInOld {key v p} : d.map key = some v → Spec d (.getIn key) (.ptr (some p)) d
  | getInNone {key} : d.map key = none → Spec d (.getIn key) (.ptr none) d
  | removeOld {key v} : d.map key = some v →
      Spec d (.remove key) (.val v) (d.unbind key)
  | removeNone {key} : d.map key = none → Spec d (.remove key) (.val 0) d
  | resize {isIncrease by_} : Spec d (.resize isIncrease by_) (.int 1) d

/-- The map that a sequence of calls leaves. -/
inductive SpecRun : List (Call × Ret) → Dict → Prop where
  | nil : SpecRun [] .empty
  | snoc {tr d c r d'} : SpecRun tr d → Spec d c r d' → SpecRun (tr ++ [(c, r)]) d'

/-- The last call of a sequence. -/
theorem SpecRun.last (tr : List (Call × Ret)) {tr' : List (Call × Ret)} {c : Call} {r : Ret}
    {d : Dict} (h : SpecRun tr' d) (htr : tr' = tr ++ [(c, r)]) :
    ∃ d', SpecRun tr d' ∧ Spec d' c r d := by
  cases h with
  | nil => simp at htr
  | snoc hprev hspec =>
      obtain ⟨rfl, heq⟩ := List.append_inj' htr rfl
      obtain ⟨rfl, rfl⟩ : _ ∧ _ := by simpa using heq
      exact ⟨_, hprev, hspec⟩

/-- **How the table stores the map**: a key sits in at most one slot, in the chain of the
    bucket its hash selects; the searches and the size agree with the map. -/
structure Represents (h : Clht) (d : Dict) : Prop where
  bucket : ∀ (b i : Nat) key v, b < h.cur.numBuckets → key ≠ 0 →
    (h.cur.table b)[i]? = some ⟨key, v⟩ → b = clhtLpHash h.cur key
  slot : ∀ (b i j : Nat) key v w, b < h.cur.numBuckets → key ≠ 0 →
    (h.cur.table b)[i]? = some ⟨key, v⟩ → (h.cur.table b)[j]? = some ⟨key, w⟩ → i = j
  map : ∀ key, key ≠ 0 → ∀ v, d.map key = some v ↔
    ∃ i : Nat, (h.cur.table (clhtLpHash h.cur key))[i]? = some ⟨key, v⟩
  get : ∀ key, key ≠ 0 → clhtLpGet h.cur key = (d.map key).getD 0
  getIn : ∀ key, key ≠ 0 →
    (clhtLpGetIn h.cur key = none ↔ d.map key = none) ∧
    ∀ b i : Nat, clhtLpGetIn h.cur key = some (b, i) → b = clhtLpHash h.cur key ∧
      ∃ v, d.map key = some v ∧ (h.cur.table b)[i]? = some ⟨key, v⟩
  finite : {key | d.map key ≠ none}.Finite
  size : clhtLpSize h.cur = {key | d.map key ≠ none}.ncard
  obj : ∀ v, d.obj v = if v = 0 then none else h.objs[v - 1]?

/-- The map of a state between two calls. -/
structure Rep (h : Clht) (d : Dict) : Prop extends Ready h where
  map : ∀ key v, d.map key = some v ↔ (key, v) ∈ h.cur.content
  obj : ∀ v, d.obj v = if v = 0 then none else h.objs[v - 1]?

/-- An absent key. -/
theorem Rep.map_none {h : Clht} {d : Dict} (hr : Rep h d) {key : Addr}
    (hno : ∀ v, (key, v) ∉ h.cur.content) : d.map key = none := by
  cases hd : d.map key with
  | none => rfl
  | some v => exact absurd ((hr.map key v).mp hd) (hno v)

/-- The bound keys are the keys of the content. -/
theorem Rep.keys_eq {h : Clht} {d : Dict} (hr : Rep h d) :
    {key | d.map key ≠ none} = ((h.cur.content.map Prod.fst).toFinset : Set Addr) := by
  ext key
  simp only [Set.mem_ofPred_eq, Finset.mem_coe, Multiset.mem_toFinset, Multiset.mem_map]
  constructor
  · intro hd
    obtain ⟨v, hv⟩ := Option.ne_none_iff_exists'.mp hd
    exact ⟨(key, v), (hr.map key v).mp hv, rfl⟩
  · rintro ⟨⟨k, v⟩, hmem, rfl⟩
    rw [(hr.map k v).mpr hmem]
    simp

/-- The table has the entries of the map. -/
theorem Rep.represents {h : Clht} {d : Dict} (hr : Rep h d) : Represents h d where
  bucket b i key v hb hk hs :=
    (hr.wf.hashed b hb key v (mem_entries.mpr ⟨hk, List.mem_of_getElem? hs⟩)).symm
  slot b i j key v w hb hk hi hj :=
    slot_unique (hr.wf.distinct.of_le (entries_le_content _ hb)) hk hi hj
  map key hk v := (hr.map key v).trans (hr.wf.mem_content_iff hk)
  get key hk := by
    rcases bucketExists_spec hr.wf hk with ⟨v, hmem, hget⟩ | ⟨hno, hget⟩
    · rw [(hr.map key v).mpr hmem]
      exact hget
    · rw [hr.map_none hno]
      exact hget
  getIn key hk := by
    rcases clhtLpGetIn_spec hr.wf hk with ⟨v, i, hmem, hget, hs⟩ | ⟨hno, hget⟩
    · have hd := (hr.map key v).mpr hmem
      rw [hget, hd]
      refine ⟨by simp, fun b j heq => ?_⟩
      obtain ⟨rfl, rfl⟩ := Prod.mk.inj (Option.some.inj heq)
      exact ⟨rfl, v, rfl, hs⟩
    · rw [hget, hr.map_none hno]
      exact ⟨by simp, fun b j heq => nomatch heq⟩
  finite := hr.keys_eq ▸ Finset.finite_toSet _
  size := by
    rw [hr.keys_eq, Set.ncard_coe_finset, Multiset.toFinset_card_of_nodup hr.wf.distinct,
      Multiset.card_map, clhtLpSize_eq]
  obj := hr.obj

/-! ## Runs -/

/-- Sequences of calls that have come back, with what they returned, from a new table of
    `numBuckets` buckets. -/
inductive Calls (fuel numBuckets : Nat) : List (Call × Ret) → Clht → Prop where
  | create {h} : clhtLpCreate numBuckets = some h → Calls fuel numBuckets [] h
  | snoc {tr h c r h'} : Calls fuel numBuckets tr h → Allowed h c →
      call fuel h c = (h', some r) → Calls fuel numBuckets (tr ++ [(c, r)]) h'

/-- A new table is the empty map. -/
theorem create_rep {numBuckets : Nat} {h : Clht} (hc : clhtLpCreate numBuckets = some h) :
    Rep h .empty := by
  obtain ⟨T, hT, rfl⟩ := Option.map_eq_some_iff.mp hc
  obtain ⟨hw, -, hcontent, hover, -, hfree⟩ := clhtLpHashtableCreate_some hT
  refine ⟨⟨⟨hw, hfree, rfl, Nat.zero_lt_one⟩, ?_⟩, fun key v => ?_, fun v => ?_⟩
  · show T.overflow < _
    rw [hover]
    exact threshold_pos _
  · show none = some v ↔ (key, v) ∈ T.content
    simp [hcontent]
  · show none = _
    simp

/-- One more entry in the table is one more binding. -/
theorem Rep.map_bind {h h' : Clht} {d : Dict} (hr : Rep h d) {key : Addr} {val : Val}
    (hno : ∀ v, (key, v) ∉ h.cur.content)
    (hcontent : h'.cur.content = (key, val) ::ₘ h.cur.content) (k : Addr) (v : Val) :
    (d.bind key val).map k = some v ↔ (k, v) ∈ h'.cur.content := by
  rw [hcontent, Multiset.mem_cons, Prod.mk.injEq, ← hr.map]
  show Function.update d.map key (some val) k = some v ↔ _
  by_cases hk : k = key
  · subst hk
    rw [Function.update_self, hr.map_none hno]
    simp [eq_comm]
  · rw [Function.update_of_ne hk]
    simp [hk]

/-- A put of an absent key binds it to a new lock object. -/
theorem Rep.bindNew {h h' : Clht} {d : Dict} (hr : Rep h d) (hready : Ready h')
    {key : Addr} {type : PutType} (hno : ∀ v, (key, v) ∉ h.cur.content)
    (hcontent : h'.cur.content = (key, h.objs.length + 1) ::ₘ h.cur.content)
    (hobjs : h'.objs = h.objs ++ [type]) :
    d.obj (h.objs.length + 1) = none ∧ Rep h' (d.bindNew key (h.objs.length + 1) type) := by
  refine ⟨?_, hready, hr.map_bind hno hcontent, fun (v : Nat) => ?_⟩
  · rw [hr.obj]
    simp
  · rw [hobjs]
    show Function.update d.obj (h.objs.length + 1) (some type) v = _
    by_cases hv : v = h.objs.length + 1
    · rw [hv, Function.update_self]
      simp
    · rw [Function.update_of_ne hv, hr.obj, List.getElem?_append]
      split_ifs with h0 hlt
      · rfl
      · rfl
      · have hlong : h.objs.length + 1 ≤ v - 1 := by
          change ¬ @Eq Nat v 0 at h0
          change ¬ @LT.lt Nat _ (v - 1) h.objs.length at hlt
          change ¬ @Eq Nat v (h.objs.length + 1) at hv
          omega
        rw [List.getElem?_eq_none (Nat.le_of_succ_le hlong),
          List.getElem?_eq_none (Nat.le_sub_of_add_le' hlong)]

/-- A resize that is asked for does not shrink the table to less than a sixteenth. -/
theorem numBucketsNew_large {n : Nat} {isIncrease : Bool} {by_ : Int} (hn : n ≤ 2 ^ 31)
    (hlo : -2 ^ 31 ≤ by_) (hhi : by_ < 2 ^ 31)
    (hpos : 0 < numBucketsNew n isIncrease by_) :
    n ≤ 16 * numBucketsNew n isIncrease by_ := by
  unfold numBucketsNew at hpos ⊢
  split_ifs at hpos ⊢
  · -- the product does not wrap, or wraps from a negative number to a huge one
    have hup : by_ * (n : Int) < 2 ^ 64 := by nlinarith
    have hdown : -2 ^ 62 ≤ by_ * (n : Int) := by nlinarith
    rcases lt_trichotomy by_ 0 with hneg | rfl | hpos'
    · have : by_ * (n : Int) ≤ 0 := by nlinarith
      omega
    · simp at hpos
    · have : (n : Int) ≤ by_ * n := by nlinarith
      omega
  · omega

/-- **One call**: it comes back, and does to the map what it should. -/
theorem call_spec {fuel : Nat} (hf : 40 ≤ fuel) {h : Clht} {d : Dict} (hr : Rep h d)
    {c : Call} (hc : Allowed h c) (hfits : Fits (call fuel h c).1) :
    ∃ r d', (call fuel h c).2 = some r ∧ Spec d c r d' ∧ Rep (call fuel h c).1 d' := by
  have hnew : ∀ type g, g.objs = h.objs →
      newLock type g = ({ g with objs := h.objs ++ [type] }, h.objs.length + 1) := by
    intro type g hg
    rw [newLock, hg]
  cases c with
  | putType key type =>
      have hput : bucketExists key (h.cur.table (clhtLpHash h.cur key)) = 0 →
          call fuel h (.putType key type) =
            ((clhtLpPutImpl fuel h h.ht (clhtLpHash h.cur key) key type).1,
              (clhtLpPutImpl fuel h h.ht (clhtLpHash h.cur key) key type).2.map .val) := by
        intro h0
        simp only [call, clhtLpPutType, h0, ne_eq, not_true_eq_false, if_false]
      by_cases h0 : bucketExists key (h.cur.table (clhtLpHash h.cur key)) = 0
      · rw [hput h0] at hfits ⊢
        rcases putLocked_spec hf hr.toReady hc (hnew type) hfits with
          ⟨p, v, hrun, hread, hmem⟩ | ⟨h', p, hrun, hready, hno, hcontent, hobjs⟩
        · simp only [clhtLpPutImpl, hrun]
          refine ⟨_, d, rfl, ?_, hr⟩
          show Spec d _ (.val (h.read p)) d
          rw [hread]
          exact .putTypeOld ((hr.map key v).mpr hmem)
        · obtain ⟨hobj, hrep⟩ := hr.bindNew hready hno hcontent hobjs
          simp only [clhtLpPutImpl, hrun]
          exact ⟨_, _, rfl, .putTypeNew (hr.map_none hno) (Nat.succ_ne_zero _) hobj, hrep⟩
      · simp only [call, clhtLpPutType, h0, ne_eq, not_false_eq_true, if_true]
        rcases bucketExists_spec hr.wf hc with ⟨v, hmem, hget⟩ | ⟨-, hget⟩
        · rw [hget]
          exact ⟨_, d, rfl, .putTypeOld ((hr.map key v).mpr hmem), hr⟩
        · exact absurd hget h0
  | putInit key =>
      rcases putLocked_spec hf hr.toReady hc (hnew .adaptive) hfits with
        ⟨p, v, hrun, hread, hmem⟩ | ⟨h', p, hrun, hready, hno, hcontent, hobjs⟩
      · simp only [call, clhtLpPutInit, hrun]
        exact ⟨_, d, rfl, .putInitOld ((hr.map key v).mpr hmem), hr⟩
      · obtain ⟨hobj, hrep⟩ := hr.bindNew hready hno hcontent hobjs
        simp only [call, clhtLpPutInit, hrun]
        exact ⟨_, _, rfl, .putInitNew (hr.map_none hno) (Nat.succ_ne_zero _) hobj, hrep⟩
  | putIn key =>
      rcases clhtLpGetIn_spec hr.wf hc with ⟨v, i, hmem, hget, -⟩ | ⟨-, hget⟩
      · simp only [call, clhtLpPutIn, hget]
        exact ⟨_, d, rfl, .putInOld ((hr.map key v).mpr hmem), hr⟩
      · simp only [call, clhtLpPutIn, hget] at hfits ⊢
        have hnone : ∀ g, g.objs = h.objs → noLock g = ({ g with objs := h.objs }, 0) := by
          intro g hg
          rw [noLock, ← hg]
        rcases putLocked_spec hf hr.toReady hc hnone hfits with
          ⟨p, v, hrun, hread, hmem⟩ | ⟨h', p, hrun, hready, hno, hcontent, hobjs⟩
        · simp only [hrun]
          exact ⟨_, d, rfl, .putInOld ((hr.map key v).mpr hmem), hr⟩
        · simp only [hrun]
          refine ⟨_, _, rfl, .putInNew (hr.map_none hno), hready,
            hr.map_bind hno hcontent, fun v => ?_⟩
          rw [hobjs]
          exact hr.obj v
  | get key =>
      rcases bucketExists_spec hr.wf hc with ⟨v, hmem, hget⟩ | ⟨hno, hget⟩
      · refine ⟨_, d, rfl, ?_, hr⟩
        rw [clhtLpGet, hget]
        exact .getOld ((hr.map key v).mpr hmem)
      · refine ⟨_, d, rfl, ?_, hr⟩
        rw [clhtLpGet, hget]
        exact .getNone (hr.map_none hno)
  | getIn key =>
      rcases clhtLpGetIn_spec hr.wf hc with ⟨v, i, hmem, hget, -⟩ | ⟨hno, hget⟩
      · simp only [call, hget]
        exact ⟨_, d, rfl, .getInOld ((hr.map key v).mpr hmem), hr⟩
      · simp only [call, hget]
        exact ⟨_, d, rfl, .getInNone (hr.map_none hno), hr⟩
  | remove key =>
      obtain ⟨h', hready, hobjs, -, ⟨v, hcontent, hrun⟩ | ⟨hno, rfl, hrun⟩⟩ :=
        clhtLpRemove_spec hr.toReady hc
      · have hmem : (key, v) ∈ h.cur.content := hcontent ▸ Multiset.mem_cons_self _ _
        simp only [call, hrun]
        refine ⟨_, _, rfl, .removeOld ((hr.map key v).mpr hmem), hready, fun k w => ?_,
          fun v => by rw [hobjs]; exact hr.obj v⟩
        have hgone : ∀ w, (key, w) ∉ h'.cur.content := by
          intro w hw
          have hd := hr.wf.distinct
          rw [← hcontent, Distinct, Multiset.map_cons, Multiset.nodup_cons] at hd
          exact hd.1 (Multiset.mem_map.mpr ⟨_, hw, rfl⟩)
        show Function.update d.map key none k = some w ↔ _
        by_cases hk : k = key
        · subst hk
          rw [Function.update_self]
          constructor
          · intro hnone
            cases hnone
          · intro hw
            exact absurd hw (hgone w)
        · rw [Function.update_of_ne hk, hr.map, ← hcontent, Multiset.mem_cons]
          simp [hk]
      · simp only [call, hrun]
        exact ⟨_, d, rfl, .removeNone (hr.map_none hno), hr⟩
  | resize isIncrease by_ =>
      have hn : h.cur.numBuckets ≤ 2 ^ 31 :=
        hfits _ ((htResizePes_out (fun g => htStatus_out fuel g true) h isIncrease by_).2
          hr.resizeLock)
      obtain ⟨hlo, hhi, hpos⟩ := hc
      have hcard := hr.wf.card_content_le
      have hdue := hr.due
      have hthr := threshold_le hr.wf.pos
      have hlarge : h.cur.numBuckets ≤ 16 * numBucketsNew h.cur.numBuckets isIncrease by_ :=
        numBucketsNew_large hn hlo hhi hpos
      have henough : Enough fuel (numBucketsNew h.cur.numBuckets isIncrease by_) := by
        refine ⟨by omega, ?_⟩
        calc 2 ^ 33 ≤ 1 * 2 ^ fuel := by
              rw [one_mul]
              exact Nat.pow_le_pow_right (by omega) (by omega)
          _ ≤ _ := Nat.mul_le_mul_right _ hpos
      obtain ⟨⟨hsome, hidle, hkept, hdue'⟩, hone⟩ := (htStatus_returns fuel).resize hr.toIdle hn
        hpos (by omega) (by omega) henough hfits
      obtain ⟨r, hrun⟩ := Option.isSome_iff_exists.mp hsome
      obtain rfl : r = 1 := hone r hrun
      refine ⟨.int 1, d, ?_, .resize, ⟨hidle, hdue'⟩, fun key v => ?_, fun v => ?_⟩
      · simp only [call, hrun]
        rfl
      · exact (hr.map key v).trans (by rw [← hkept.content]; rfl)
      · exact (hr.obj v).trans (by rw [← hkept.objs]; rfl)

/-- A put forgets no output. -/
theorem putLocked_out {fuel : Nat} (create : Clht → Clht × Val)
    (hcreate : ∀ g, (create g).1.out = g.out) (h : Clht) (key : Addr) (t b : Nat) :
    ∀ l ∈ h.out, l ∈ (putLocked fuel h key t b create).1.out := by
  intro l hl
  unfold putLocked
  dsimp only
  split
  · exact hl
  · split
    · exact hl
    · next t' b' _ _ _ _ _ =>
      have hl' : l ∈ (create (h.setLock t' b' .update)).1.out := by
        rw [hcreate]
        exact hl
      split
      · exact htStatus_out _ _ _ _ hl'
      · exact hl'

/-- What has been printed stays printed. -/
theorem call_out (fuel : Nat) (h : Clht) (c : Call) :
    ∀ l ∈ h.out, l ∈ (call fuel h c).1.out := by
  intro l hl
  cases c with
  | putType key type =>
      simp only [call, clhtLpPutType]
      split
      · exact hl
      · exact putLocked_out (newLock type) (fun _ => rfl) h key _ _ l hl
  | putInit key => exact putLocked_out (newLock .adaptive) (fun _ => rfl) h key _ _ l hl
  | putIn key =>
      simp only [call, clhtLpPutIn]
      split
      · exact hl
      · exact putLocked_out noLock (fun _ => rfl) h key _ _ l hl
  | get key => exact hl
  | getIn key => exact hl
  | remove key =>
      simp only [call, clhtLpRemove]
      split
      · exact hl
      · split <;> exact hl
  | resize isIncrease by_ =>
      exact (htResizePes_out (fun g => htStatus_out fuel g true) h isIncrease by_).1 l hl

/-- A run leaves the map that its calls and results describe. -/
theorem Calls.rep {fuel numBuckets : Nat} (hf : 40 ≤ fuel) {tr : List (Call × Ret)} {h : Clht}
    (hrun : Calls fuel numBuckets tr h) (hfits : Fits h) : ∃ d, SpecRun tr d ∧ Rep h d := by
  induction hrun with
  | create hc => exact ⟨.empty, .nil, create_rep hc⟩
  | @snoc tr h c r h' hprev hc hcall ih =>
      have hout := call_out fuel h c
      rw [hcall] at hout
      obtain ⟨d, hd, hrep⟩ := ih fun l hl => hfits l (hout l hl)
      obtain ⟨r', d', hret, hspec, hrep'⟩ := call_spec hf hrep hc (by rw [hcall]; exact hfits)
      rw [hcall] at hret hrep'
      obtain rfl : r = r' := Option.some.inj hret
      exact ⟨d', hd.snoc hspec, hrep'⟩

/-- **The hash table refines a map.** As long as no table of more than `2 ^ 31` buckets is
    resized, every run of calls leaves what the same calls leave of a map, with the same
    results; every further call comes back, and a resize changes neither map nor size. -/
theorem clhtLp_refines_map {fuel numBuckets : Nat} (hf : 40 ≤ fuel)
    {tr : List (Call × Ret)} {h : Clht} (hrun : Calls fuel numBuckets tr h)
    (hfits : Fits h) :
    ∃ d, SpecRun tr d ∧ Represents h d ∧
      ∀ c, Allowed h c → Fits (call fuel h c).1 →
        ∃ r d', (call fuel h c).2 = some r ∧ Spec d c r d' ∧
          Represents (call fuel h c).1 d' ∧
          ∀ isIncrease by_, c = .resize isIncrease by_ →
            d' = d ∧ clhtLpSize (call fuel h c).1.cur = clhtLpSize h.cur := by
  obtain ⟨d, hd, hrep⟩ := hrun.rep hf hfits
  refine ⟨d, hd, hrep.represents, fun c hc hfits' => ?_⟩
  obtain ⟨r, d', hret, hspec, hrep'⟩ := call_spec hf hrep hc hfits'
  refine ⟨r, d', hret, hspec, hrep'.represents, ?_⟩
  rintro isIncrease by_ rfl
  cases hspec
  exact ⟨rfl, by rw [hrep'.represents.size, hrep.represents.size]⟩

instance (h : Clht) : ∀ c, Decidable (Allowed h c)
  | .putType key _ | .putInit key | .putIn key | .get key | .getIn key | .remove key =>
      inferInstanceAs (Decidable (key ≠ 0))
  | .resize _ _ => inferInstanceAs (Decidable (_ ∧ _ ∧ _))

/-- Make the calls of a list, as far as they are allowed and come back. -/
def callAll (fuel : Nat) : Clht → List Call → Option (List (Call × Ret) × Clht)
  | h, [] => some ([], h)
  | h, c :: rest =>
      if Allowed h c then
        match call fuel h c with
        | (h', some r) => (callAll fuel h' rest).map fun (tr, h'') => ((c, r) :: tr, h'')
        | (_, none) => none
      else none

/-- More calls, after a run of calls. -/
theorem Calls.callAll {fuel numBuckets : Nat} {tr tr' : List (Call × Ret)} {h h' : Clht}
    {cs : List Call} (hrun : Calls fuel numBuckets tr h)
    (hcs : callAll fuel h cs = some (tr', h')) : Calls fuel numBuckets (tr ++ tr') h' := by
  induction cs generalizing tr tr' h with
  | nil =>
      obtain ⟨rfl, rfl⟩ := Prod.mk.inj (Option.some.inj hcs)
      rwa [List.append_nil]
  | cons c rest ih =>
      rw [ClhtLp.callAll] at hcs
      split at hcs
      · next hc =>
        split at hcs
        · next g r hcall =>
          obtain ⟨⟨tr'', g'⟩, hrest, heq⟩ := Option.map_eq_some_iff.mp hcs
          obtain ⟨rfl, rfl⟩ := Prod.mk.inj heq
          have hsplit : tr ++ (c, r) :: tr'' = (tr ++ [(c, r)]) ++ tr'' := by simp
          rw [hsplit]
          exact ih (hrun.snoc hc hcall) hrest
        · cases hcs
      · cases hcs

/-- A table of one bucket that is put into until it grows, then emptied a little. -/
theorem clhtLp_refines_map_grown : ∃ tr h, Calls 40 1 tr h ∧ h.out = [(1, 4)] ∧
    tr.map Prod.snd = [.val 1, .int 0, .int 1, .ptr (some ⟨0, 0, 2⟩), .val 3, .val 1,
      .val 0, .val 3] ∧
    ∃ d, SpecRun tr d ∧ Represents h d := by
  have hrun : ((clhtLpCreate 1).bind fun h => callAll 40 h [.putType 4 .tas, .putInit 8,
      .putInit 8, .putIn 12, .putType 16 .mcs, .remove 4, .get 4, .get 16]).map
        (fun x => (x.1.map Prod.snd, x.2.out))
      = some ([.val 1, .int 0, .int 1, .ptr (some ⟨0, 0, 2⟩), .val 3, .val 1, .val 0,
          .val 3], [(1, 4)]) := by
    decide +kernel
  obtain ⟨⟨tr, h⟩, hx, heq⟩ := Option.map_eq_some_iff.mp hrun
  obtain ⟨h0, hcreate, hcalls⟩ := Option.bind_eq_some_iff.mp hx
  obtain ⟨htr, hout⟩ := Prod.mk.inj heq
  have hreach : Calls 40 1 tr h := (Calls.create hcreate).callAll hcalls
  have hfits : Fits h := by
    show ∀ l ∈ h.out, l.1 ≤ 2 ^ 31
    rw [show h.out = [(1, 4)] from hout]
    decide
  obtain ⟨d, hd, hrep, -⟩ := clhtLp_refines_map le_rfl hreach hfits
  exact ⟨tr, h, hreach, hout, htr, d, hd, hrep⟩

/-- The first put into a new table. -/
theorem call_putType_new (fuel : Nat) {numBuckets : Nat} {h : Clht}
    (hc : clhtLpCreate numBuckets = some h) {key : Addr} (hk : key ≠ 0) (type : PutType) :
    ∃ g, call fuel h (.putType key type) = (g, some (.val 1)) ∧ g.out = [] ∧
      g.cur.numBuckets = numBuckets ∧ g.cur.content = {(key, 1)} := by
  have hrep := create_rep hc
  obtain ⟨T, hT, heq⟩ := Option.map_eq_some_iff.mp hc
  have hcur : h.cur = T := by rw [← heq]; rfl
  have hobjs : h.objs = [] := by rw [← heq]
  have hout : h.out = [] := by rw [← heq]
  obtain ⟨-, -, hcontent, -, hnum, -⟩ := clhtLpHashtableCreate_some hT
  have htable : h.cur.table (clhtLpHash h.cur key) = emptyBucket := by
    rw [hcur]
    unfold clhtLpHashtableCreate at hT
    split at hT
    · cases hT
    · obtain rfl := Option.some.inj hT
      rfl
  have hmiss : findSlot key emptyBucket = none := by
    simp [findSlot, emptyBucket, hk.symm]
  have hseek : seek key emptyBucket 0 none = .absent (some 0) := by
    simp [seek, emptyBucket, entriesPerBucket, List.replicate, hk.symm]
  have hnew : ∀ g, g.objs = h.objs → newLock type g = ({ g with objs := [type] }, 1) := by
    intro g hg
    rw [newLock, hg, hobjs]
    rfl
  rw [← htable] at hseek hmiss
  obtain ⟨g, p, hg, hrun⟩ := putLocked_absent fuel hrep.toIdle hseek hnew
  have hgcur : g.cur = (insertSlot h.cur (clhtLpHash h.cur key) key 1 (some 0)).1 := by
    rw [hg]
    exact Function.update_self ..
  have hgrown := insertSlot_grown hrep.wf 1 hk (e := some 0)
    (fun w hw => by rw [hcur, hcontent] at hw; exact Multiset.notMem_zero _ hw)
    (by rw [htable]; exact ⟨⟨0, 0⟩, rfl, rfl⟩)
  rw [← hgcur] at hgrown
  have hflag : (insertSlot h.cur (clhtLpHash h.cur key) key 1 (some 0)).2.2 = false := rfl
  rw [hflag, if_neg Bool.false_ne_true] at hrun
  refine ⟨g, ?_, ?_, ?_, ?_⟩
  · simp only [call, clhtLpPutType, bucketExists, hmiss, ne_eq, not_true_eq_false, if_false,
      clhtLpPutImpl, hrun]
    rfl
  · rw [hg]
    exact hout
  · rw [hgrown.numBuckets, hcur, hnum]
  · rw [hgrown.content, hcur, hcontent]
    rfl

/-- **A table of more than `2 ^ 31` buckets loses a key when it is resized**: what is bound
    in bucket `2 ^ 31` is not copied. -/
theorem clhtLp_forgets : ∃ tr h, Calls 40 (2 ^ 31 + 1) tr h ∧
    tr = [(.putType (2 ^ 33) .tas, .val 1), (.resize true 1, .int 1),
      (.get (2 ^ 33), .val 0)] ∧
    ¬ ∃ d, SpecRun tr d := by
  have hkey : (2 ^ 33 : Nat) ≠ 0 := by decide
  obtain ⟨h0, hcreate⟩ : ∃ h, clhtLpCreate (2 ^ 31 + 1) = some h := ⟨_, rfl⟩
  obtain ⟨g, hput, hout, hnum, hcontent⟩ := call_putType_new 40 hcreate hkey .tas
  have hrep : ∃ d, Rep g d := by
    obtain ⟨r, d, -, -, hrep⟩ := call_spec (c := .putType (2 ^ 33) .tas) le_rfl
      (create_rep hcreate) hkey (by rw [hput]; show ∀ l ∈ g.out, _; rw [hout]; simp)
    rw [hput] at hrep
    exact ⟨d, hrep⟩
  obtain ⟨d, hrep⟩ := hrep
  -- the key is in the last bucket, so the buckets before it are empty
  have hhash : clhtLpHash g.cur (2 ^ 33) = 2 ^ 31 := by
    rw [clhtLpHash, hnum]
    decide
  have hlost : SlotTable.content (bucketsVisited g.cur.numBuckets) g.cur.table = 0 := by
    have hmem : (2 ^ 33, 1) ∈ entries (g.cur.table (2 ^ 31)) := by
      rw [← hhash, ← hrep.wf.mem_content, hcontent]
      exact Multiset.mem_singleton_self _
    have hall : SlotTable.content (2 ^ 31 + 1) g.cur.table = {(2 ^ 33, 1)} := by
      rw [← hnum]
      exact hcontent
    rw [content_succ] at hall
    have hcard := congrArg Multiset.card hall
    rw [Multiset.card_add, Multiset.card_singleton] at hcard
    have hpos := Multiset.card_pos_iff_exists_mem.mpr ⟨_, hmem⟩
    have hvisit : bucketsVisited (2 ^ 31 + 1) = 2 ^ 31 := by decide
    rw [hnum, hvisit, ← Multiset.card_eq_zero]
    omega
  have hsize : 0 < numBucketsNew g.cur.numBuckets true 1 := by
    rw [hnum]
    decide
  obtain ⟨h, hi, -, hpacked, hempty, -, hresize⟩ := htResizePes_swap hrep.toIdle hsize
  rw [hlost] at hempty
  have hdone : ¬ h.cur.numExpandsThreshold ≤ h.cur.numExpands := by
    have hover : h.cur.overflow = 0 := by
      by_contra h0
      have hcard := hpacked.overflow_lt hi.wf (Nat.pos_of_ne_zero h0)
      rw [hempty, Multiset.card_zero] at hcard
      exact Nat.not_lt_zero _ hcard
    rw [hi.wf.thresholdEq, hi.wf.expands, hover]
    exact Nat.not_le.mpr (threshold_pos _)
  have hget : clhtLpGet h.cur (2 ^ 33) = 0 := by
    rcases bucketExists_spec hi.wf hkey with ⟨v, hmem, -⟩ | ⟨-, hget⟩
    · rw [hempty] at hmem
      exact absurd hmem (Multiset.notMem_zero _)
    · exact hget
  refine ⟨[(.putType (2 ^ 33) .tas, .val 1), (.resize true 1, .int 1),
    (.get (2 ^ 33), .val 0)], h, ?_, rfl, ?_⟩
  · have h1 : Calls 40 (2 ^ 31 + 1) [(.putType (2 ^ 33) .tas, .val 1)] g :=
      (Calls.create hcreate).snoc hkey hput
    have h2 : call 40 g (.resize true 1) = (h, some (.int 1)) := by
      simp only [call, hresize, if_neg hdone]
      rfl
    have h3 : call 40 h (.get (2 ^ 33)) = (h, some (.val 0)) := by
      simp only [call, hget]
    have hallowed : Allowed g (.resize true 1) := ⟨by decide, by decide, hsize⟩
    exact (h1.snoc hallowed h2).snoc hkey h3
  · -- of a map, the same calls would have returned 1
    rintro ⟨d, hspec⟩
    obtain ⟨d2, hspec, hget⟩ := SpecRun.last [_, _] hspec rfl
    obtain ⟨d1, hspec, hresize⟩ := SpecRun.last [_] hspec rfl
    obtain ⟨d0, -, hput⟩ := SpecRun.last [] hspec rfl
    have hbound : d2.map (2 ^ 33) = some 1 := by
      cases hresize
      cases hput with
      | putTypeOld hold => exact hold
      | putTypeNew _ _ _ =>
          show Function.update d0.map (2 ^ 33) (some 1) (2 ^ 33) = some 1
          rw [Function.update_self]
    cases hget with
    | getOld hold => cases hbound.symm.trans hold
    | getNone hnone => cases hbound.symm.trans hnone

end ClhtLp
