import Lockin.ClhtLpTables

/-! # A resize with a helper

    `clht_lock_pointer.c` built with `CLHT_HELP_RESIZE`: one growing `ht_resize_pes` that has
    made the new table and stored it to `table_tmp`, and threads that find a bucket in resize
    state and enter `ht_resize_help`.  The resizer copies the buckets upwards and the helper
    downwards, one access to shared memory a step, until they meet.  Both insert into the new
    table without locks.

    They keep out of each other's way if no two buckets of the old table have entries for one
    bucket of the new table.  The numbers of buckets being powers of two is enough for that. -/

namespace ClhtLpHelp

open Interleaving SlotTable ClhtLp

variable {Tid : Type}

/-- Who runs the copy loop. -/
inductive Role where
  | resizer
  | helper
  deriving DecidableEq

/-- Where a thread is. -/
inductive Pc where
  | outside
  /-- The loop of the resizer is at bucket `b`; that of the helper is at `b - 1`. -/
  | cpyLock (role : Role) (b : Nat)
  /-- Slot `i` of bucket `b`, locked by `bucket_cpy`. -/
  | cpySlot (role : Role) (b i : Nat)
  /-- `bucket->key[j] == 0` of `clht_lp_put_seq`. -/
  | putSeek (role : Role) (b i : Nat) (key : Addr) (val : Val) (j : Nat)
  /-- `bucket->val[j] = val`. -/
  | putVal (role : Role) (b i : Nat) (key : Addr) (val : Val) (j : Nat)
  /-- `bucket->key[j] = key`. -/
  | putKey (role : Role) (b i : Nat) (key : Addr) (val : Val) (j : Nat)
  /-- `ht_old->is_helper != 1`. -/
  | checkHelper
  /-- `while (ht_old->helper_done != 1)`. -/
  | waitHelper
  /-- `SWAP_U64(h, ht_new)`. -/
  | swap
  | resized
  /-- `FAD_U32(&h->is_helper)`. -/
  | fad
  /-- `h->helper_done = 1`. -/
  | setDone
  /-- Back from `ht_resize_help`. -/
  | helped
  deriving DecidableEq

structure Shared (Tid : Type) where
  old : Hashtable
  new : Hashtable
  isHelper : BitVec 32
  helperDone : Bool
  /-- The new table is the current one. -/
  published : Bool
  /-- History: how many threads have entered `ht_resize_help`. -/
  arrivals : Nat
  /-- History: who has locked a bucket of the old table, to copy it. -/
  copiers : Nat → List Tid
  /-- History: who has inserted into a bucket of the new table. -/
  fed : Nat → List Tid
  /-- History: how many slots of a bucket have been copied. -/
  copied : Nat → Nat

inductive Act where
  /-- The lock of bucket `b` is `LOCK_RESIZE`. -/
  | help (b : Nat)
  | go
  deriving DecidableEq

/-- The bucket at which the copy loop is.  That of `ht_resize_help` starts at
    `int32_t b = h->hash`, and `b` counts from there. -/
def bucketAt (T : Hashtable) : Role → Nat → Option Nat
  | .resizer, b => if b < bucketsVisited T.numBuckets then some b else none
  | .helper, 0 => none
  | .helper, b + 1 => some b

/-- `int32_t b = h->hash`, one more than the bucket; 0 if it is negative. -/
def helpFrom (T : Hashtable) : Nat :=
  if (T.numBuckets - 1) % 2 ^ 32 < 2 ^ 31 then (T.numBuckets - 1) % 2 ^ 32 + 1 else 0

/-- `b++`, and `b--`. -/
def Role.next : Role → Nat → Nat
  | .resizer, b => b + 1
  | .helper, b => b

/-- The end of the loop. -/
def Role.stop : Role → Pc
  | .resizer => .checkHelper
  | .helper => .setDone

/-- Write back a chain of the new table. -/
def Shared.setNew (sh : Shared Tid) (b : Nat) (ch : Chain Addr Val) : Shared Tid :=
  { sh with new := sh.new.setChain b ch }

/-- The CAS of `lock_acq_resize` succeeds. -/
def Shared.lockBucket (sh : Shared Tid) (t : Tid) (b : Nat) : Shared Tid :=
  { sh with
    old := { sh.old with lock := Function.update sh.old.lock b .resize }
    copiers := Function.update sh.copiers b (t :: sh.copiers b) }

/-- A slot of bucket `b` has been copied. -/
def Shared.count (sh : Shared Tid) (b : Nat) : Shared Tid :=
  { sh with copied := Function.update sh.copied b (sh.copied b + 1) }

/-- The bucket of a key in the new table. -/
def Shared.bin (sh : Shared Tid) (key : Addr) : Nat := clhtLpHash sh.new key

/-- Its slots. -/
def Shared.chain (sh : Shared Tid) (key : Addr) : Chain Addr Val := sh.new.table (sh.bin key)

/-- The next step of a thread. -/
def go (t : Tid) (sh : Shared Tid) : Pc → Option (Shared Tid × Pc)
  | .outside | .resized | .helped => none
  | .cpyLock role b =>
      match bucketAt sh.old role b with
      | none => some (sh, role.stop)
      | some b' =>
          match sh.old.lock b' with
          | .free => some (sh.lockBucket t b', .cpySlot role b' 0)
          | .update => some (sh, .cpyLock role b)
          | .resize => some (sh, role.stop)
  | .cpySlot role b i =>
      match (sh.old.table b)[i]? with
      | some s =>
          if s.key = 0 then some (sh.count b, .cpySlot role b (i + 1))
          else some (sh, .putSeek role b i s.key s.val 0)
      | none => some (sh, .cpyLock role (role.next b))
  | .putSeek role b i key val j =>
      match (sh.chain key)[j]? with
      | some s =>
          some (sh, if s.key = 0 then .putVal role b i key val j
            else .putSeek role b i key val (j + 1))
      | none =>
          some (({ sh with new := (clhtBucketCreateStats sh.new).1 } : Shared Tid).setNew
              (sh.bin key) (sh.chain key ++ emptyBucket),
            .putVal role b i key val j)
  | .putVal role b i key val j =>
      match (sh.chain key)[j]? with
      | some s =>
          some (sh.setNew (sh.bin key) ((sh.chain key).set j { s with val := val }),
            .putKey role b i key val j)
      | none => none
  | .putKey role b i key _ j =>
      match (sh.chain key)[j]? with
      | some s =>
          some ({ (sh.setNew (sh.bin key) ((sh.chain key).set j { s with key := key })).count b with
              fed := Function.update sh.fed (sh.bin key) (t :: sh.fed (sh.bin key)) },
            .cpySlot role b (i + 1))
      | none => none
  | .checkHelper => some (sh, if sh.isHelper ≠ 1 then .waitHelper else .swap)
  | .waitHelper => some (sh, if sh.helperDone then .swap else .waitHelper)
  | .swap => some ({ sh with published := true }, .resized)
  | .fad =>
      some ({ sh with isHelper := sh.isHelper - 1, arrivals := sh.arrivals + 1 },
        if sh.isHelper.toInt ≤ 0 then .helped else .cpyLock .helper (helpFrom sh.old))
  | .setDone => some ({ sh with helperDone := true }, .helped)

/-- One step of a thread. -/
def prog : Prog Tid (Shared Tid) Pc Act := fun t sh pc a =>
  match a, pc with
  | .help b, .outside => if sh.old.lock b = .resize then some (sh, .fad) else none
  | .go, pc => go t sh pc
  | _, _ => none

/-- Thread `r` is about to copy the first bucket to an empty table with `by` times as many
    buckets, and nobody has entered `ht_resize_help`. -/
structure Init (r : Tid) (c : Conf Tid (Shared Tid) Pc) : Prop where
  lock : ∀ b, c.sh.old.lock b = .free
  new : ∃ by_ T, clhtLpHashtableCreate (numBucketsNew c.sh.old.numBuckets true by_) = some T ∧
    c.sh.new = { T with version := c.sh.old.version + 1 }
  isHelper : c.sh.isHelper = 1
  helperDone : c.sh.helperDone = false
  published : c.sh.published = false
  arrivals : c.sh.arrivals = 0
  copiers : ∀ b, c.sh.copiers b = []
  fed : ∀ b, c.sh.fed b = []
  copied : ∀ b, c.sh.copied b = 0
  resizer : c.loc r = .cpyLock .resizer 0
  outside : ∀ t, t ≠ r → c.loc t = .outside

/-- The entries of two buckets of the old table go to different buckets of the new one. -/
def Apart (sh : Shared Tid) : Prop :=
  ∀ b < sh.old.numBuckets, ∀ b' < sh.old.numBuckets, ∀ s ∈ sh.old.table b, ∀ s' ∈ sh.old.table b',
    s.key ≠ 0 → s'.key ≠ 0 → sh.bin s.key = sh.bin s'.key → b = b'

/-- Fewer than `2 ^ 31 + 2` threads have entered `ht_resize_help` before this one, and the
    helper finds that the buckets are apart. -/
def sound (c : Conf Tid (Shared Tid) Pc) (t : Tid) (_ : Act) : Prop :=
  match c.loc t with
  | .fad => c.sh.arrivals < 2 ^ 31 + 2 ∧ (0 < c.sh.isHelper.toInt → Apart c.sh)
  | _ => True

/-! ## How the buckets are shared -/

/-- In whose part of the resize a thread is. -/
def Pc.role : Pc → Option Role
  | .cpyLock role _ => some role
  | .cpySlot role _ _ => some role
  | .putSeek role _ _ _ _ _ => some role
  | .putVal role _ _ _ _ _ => some role
  | .putKey role _ _ _ _ _ => some role
  | .checkHelper => some .resizer
  | .waitHelper => some .resizer
  | .swap => some .resizer
  | .resized => some .resizer
  | .setDone => some .helper
  | _ => none

/-- The slot that a thread copies. -/
def Pc.slot : Pc → Option (Nat × Nat)
  | .cpySlot _ b i => some (b, i)
  | .putSeek _ b i _ _ _ => some (b, i)
  | .putVal _ b i _ _ _ => some (b, i)
  | .putKey _ b i _ _ _ => some (b, i)
  | _ => none

/-- The loop, being at `b`, has passed bucket `x`. -/
def Role.covers : Role → Nat → Nat → Prop
  | .resizer, b, x => x < b
  | .helper, b, x => b ≤ x

/-- The thread has passed bucket `x`; after its loop, the resizer has passed all of them. -/
def Pc.passed : Pc → Nat → Prop
  | .cpyLock role b, x => role.covers b x
  | .cpySlot role b _, x => role.covers (role.next b) x
  | .putSeek role b _ _ _ _, x => role.covers (role.next b) x
  | .putVal role b _ _ _ _, x => role.covers (role.next b) x
  | .putKey role b _ _ _ _, x => role.covers (role.next b) x
  | .checkHelper, _ => True
  | .waitHelper, _ => True
  | .swap, _ => True
  | .resized, _ => True
  | _, _ => False

/-- The resizer does not wait for a helper any more. -/
def Pc.swaps : Pc → Bool
  | .swap => true
  | .resized => true
  | _ => false

/-- Who has locked what, and how far the loops are. -/
structure Shares (r : Tid) (c : Conf Tid (Shared Tid) Pc) : Prop where
  small : c.sh.old.numBuckets ≤ 2 ^ 31
  resizer : ∀ t, (c.loc t).role = some .resizer ↔ t = r
  helper : ∀ t u, (c.loc t).role = some .helper → (c.loc u).role = some .helper → t = u
  arrived : ∀ t, (c.loc t).role = some .helper → 0 < c.sh.arrivals ∧ c.sh.helperDone = false
  helped : c.sh.helperDone = true → 0 < c.sh.arrivals
  isHelper : c.sh.isHelper = 1 - BitVec.ofNat 32 c.sh.arrivals ∧ c.sh.arrivals ≤ 2 ^ 31 + 2
  lock : ∀ b, c.sh.old.lock b = if c.sh.copiers b = [] then .free else .resize
  one : ∀ b, (c.sh.copiers b).length ≤ 1
  copying : ∀ t b i, (c.loc t).slot = some (b, i) →
    c.sh.copiers b = [t] ∧ b < c.sh.old.numBuckets
  inside : ∀ t b, c.loc t = .cpyLock .helper b → b ≤ c.sh.old.numBuckets
  passed : ∀ t b, b < c.sh.old.numBuckets → (c.loc t).passed b → c.sh.copiers b ≠ []
  mine : ∀ b, r ∈ c.sh.copiers b → (c.loc r).passed b
  others : ∀ b t, t ∈ c.sh.copiers b → t ≠ r → ∀ x, b ≤ x → x < c.sh.old.numBuckets →
    c.sh.copiers x ≠ []
  alone : (c.loc r).swaps = true → ∀ t, (c.loc t).slot = none
  published : c.sh.published = true → c.loc r = .resized

/-- Before the resize. -/
theorem Init.shares {r : Tid} {c : Conf Tid (Shared Tid) Pc} (h : Init r c)
    (hsmall : c.sh.old.numBuckets ≤ 2 ^ 31) : Shares r c := by
  have hloc : ∀ t, c.loc t = .cpyLock .resizer 0 ∧ t = r ∨ c.loc t = .outside ∧ t ≠ r := by
    intro t
    by_cases ht : t = r
    · exact Or.inl ⟨ht ▸ h.resizer, ht⟩
    · exact Or.inr ⟨h.outside t ht, ht⟩
  have hslot : ∀ t, (c.loc t).slot = none := by
    intro t
    rcases hloc t with ⟨hl, -⟩ | ⟨hl, -⟩ <;> rw [hl] <;> rfl
  have hrole : ∀ t, (c.loc t).role ≠ some .helper := by
    intro t
    rcases hloc t with ⟨hl, -⟩ | ⟨hl, -⟩ <;> rw [hl] <;> exact nofun
  refine ⟨hsmall, fun t => ?_, fun t _ ht => absurd ht (hrole t), fun t ht => absurd ht (hrole t),
    fun hd => ?_, ?_, fun b => ?_, fun b => ?_, fun t b i ht => ?_, fun t b ht => ?_,
    fun t b _ hp => ?_, fun b hb => ?_, fun b t hb => ?_, fun _ => hslot, fun hp => ?_⟩
  · rcases hloc t with ⟨hl, ht⟩ | ⟨hl, ht⟩ <;> rw [hl]
    · exact iff_of_true rfl ht
    · exact iff_of_false nofun ht
  · rw [h.helperDone] at hd
    cases hd
  · rw [h.isHelper, h.arrivals]
    exact ⟨rfl, by decide⟩
  · rw [h.lock, h.copiers, if_pos rfl]
  · rw [h.copiers]
    exact Nat.zero_le _
  · rw [hslot t] at ht
    cases ht
  · rcases hloc t with ⟨hl, -⟩ | ⟨hl, -⟩ <;> rw [hl] at ht <;> cases ht
  · rcases hloc t with ⟨hl, -⟩ | ⟨hl, -⟩ <;> rw [hl] at hp
    · exact absurd hp (Nat.not_lt_zero b)
    · exact hp.elim
  · rw [h.copiers] at hb
    cases hb
  · rw [h.copiers] at hb
    cases hb
  · rw [h.published] at hp
    cases hp

namespace Shares

variable [DecidableEq Tid] {r t : Tid} {c : Conf Tid (Shared Tid) Pc}

omit [DecidableEq Tid] in
/-- Who takes a bucket is at no slot. -/
theorem slot_of_swaps {pc : Pc} (h : pc.swaps = true) : pc.slot = none := by
  cases pc <;> first | rfl | cases h

omit [DecidableEq Tid] in
/-- The buckets that are not free are in resize state, locked by one thread. -/
theorem copier (h : Shares r c) {b : Nat} (hb : c.sh.copiers b ≠ []) :
    ∃ u, c.sh.copiers b = [u] := by
  have hone := h.one b
  match hc : c.sh.copiers b with
  | [] => exact absurd hc hb
  | [u] => exact ⟨u, rfl⟩
  | _ :: _ :: _ =>
      rw [hc] at hone
      exact absurd hone (by simp)

/-- The resizer has published the table, and is done. -/
theorem stays_published (h : Shares r c) (hne : c.loc t ≠ .resized) {x : Shared Tid × Pc}
    (hpub : c.sh.published = true) : (c.put t x).loc r = .resized := by
  have hr := h.published hpub
  have hrt : r ≠ t := fun heq => hne (heq ▸ hr)
  rw [put_loc_ne c x hrt]
  exact hr

/-- A step that locks no bucket, in the same part of the resize. -/
theorem keep (h : Shares r c) {sh' : Shared Tid} {pc' : Pc} (hold : sh'.old = c.sh.old)
    (hcopiers : sh'.copiers = c.sh.copiers) (hhelper : sh'.isHelper = c.sh.isHelper)
    (harrivals : sh'.arrivals = c.sh.arrivals) (hdone : sh'.helperDone = c.sh.helperDone)
    (hrole : pc'.role = (c.loc t).role)
    (hslot : ∀ b i, pc'.slot = some (b, i) → ∃ i', (c.loc t).slot = some (b, i'))
    (hinside : ∀ b, pc' = .cpyLock .helper b → b ≤ c.sh.old.numBuckets)
    (hpassed : ∀ x < c.sh.old.numBuckets, pc'.passed x → c.sh.copiers x ≠ [])
    (hmine : t = r → ∀ x, r ∈ c.sh.copiers x → pc'.passed x)
    (halone : pc'.swaps = true → t = r → ∀ u, u ≠ r → (c.loc u).slot = none)
    (hpub : sh'.published = true → (c.put t (sh', pc')).loc r = .resized) :
    Shares r (c.put t (sh', pc')) := by
  have hroles : ∀ u, ((c.put t (sh', pc')).loc u).role = (c.loc u).role := by
    intro u
    rw [put_loc]
    split
    · next hut => rw [hrole, hut]
    · rfl
  refine ⟨?_, fun u => ?_, fun u v => ?_, fun u => ?_, ?_, ?_, fun b => ?_, fun b => ?_,
    fun u b i => ?_, fun u b => ?_, fun u b => ?_, fun b => ?_, fun b u => ?_, fun hsw u => ?_,
    hpub⟩
  · rw [put_sh, hold]
    exact h.small
  · rw [hroles]
    exact h.resizer u
  · rw [hroles, hroles]
    exact h.helper u v
  · rw [hroles, put_sh, harrivals, hdone]
    exact h.arrived u
  · rw [put_sh, harrivals, hdone]
    exact h.helped
  · rw [put_sh, harrivals, hhelper]
    exact h.isHelper
  · rw [put_sh, hold, hcopiers]
    exact h.lock b
  · rw [put_sh, hcopiers]
    exact h.one b
  · rw [put_sh, hold, hcopiers, put_loc]
    split
    · next hut =>
      subst hut
      intro hs
      obtain ⟨i', hi'⟩ := hslot b i hs
      exact h.copying u b i' hi'
    · exact h.copying u b i
  · rw [put_sh, hold, put_loc]
    split
    · exact hinside b
    · exact h.inside u b
  · rw [put_sh, hold, hcopiers, put_loc]
    split
    · exact hpassed b
    · exact h.passed u b
  · rw [put_sh, hcopiers, put_loc]
    split
    · next hrt => exact hmine hrt.symm b
    · exact h.mine b
  · rw [put_sh, hold, hcopiers]
    exact h.others b u
  · rw [put_loc] at hsw ⊢
    split at hsw <;> rename_i hrt
    · split
      · exact slot_of_swaps hsw
      · next hut => exact halone hsw hrt.symm u (fun hur => hut (hur.trans hrt))
    · have hall := h.alone hsw
      split
      · cases hs : pc'.slot with
        | none => rfl
        | some bi =>
            obtain ⟨i', hi'⟩ := hslot bi.1 bi.2 hs
            rw [hall t] at hi'
            cases hi'
      · exact hall u

/-- A step inside `bucket_cpy`. -/
theorem copy (h : Shares r c) {sh' : Shared Tid} {pc' : Pc} (hold : sh'.old = c.sh.old)
    (hcopiers : sh'.copiers = c.sh.copiers) (hhelper : sh'.isHelper = c.sh.isHelper)
    (harrivals : sh'.arrivals = c.sh.arrivals) (hdone : sh'.helperDone = c.sh.helperDone)
    (hpublished : sh'.published = c.sh.published) {b i i' : Nat}
    (hslot : (c.loc t).slot = some (b, i)) (hslot' : pc'.slot = some (b, i'))
    (hrole : pc'.role = (c.loc t).role) (hpassed : pc'.passed = (c.loc t).passed) :
    Shares r (c.put t (sh', pc')) := by
  have hne : c.loc t ≠ .resized := by
    intro heq
    rw [heq] at hslot
    cases hslot
  refine h.keep hold hcopiers hhelper harrivals hdone hrole (fun b₁ i₁ hs => ?_) (fun b₁ heq => ?_)
    (fun x hx hp => ?_) (fun htr x hx => ?_) (fun hsw => ?_) (fun hp => ?_)
  · rw [hslot'] at hs
    cases hs
    exact ⟨i, hslot⟩
  · rw [heq] at hslot'
    cases hslot'
  · exact h.passed t x hx (hpassed ▸ hp)
  · rw [hpassed, htr]
    exact h.mine x hx
  · rw [slot_of_swaps hsw] at hslot'
    cases hslot'
  · exact h.stays_published hne (hpublished ▸ hp)

omit [DecidableEq Tid] in
/-- The buckets that a thread looks at. -/
theorem bucketAt_lt {role : Role} {b x : Nat} (hx : bucketAt c.sh.old role b = some x)
    (hin : role = .helper → b ≤ c.sh.old.numBuckets) :
    x < c.sh.old.numBuckets ∧ (role = .resizer → x = b) := by
  cases role with
  | resizer =>
      dsimp only [bucketAt] at hx
      split at hx
      · next hlt =>
        obtain rfl := Option.some.inj hx
        exact ⟨Nat.lt_of_lt_of_le hlt (Nat.min_le_left ..), fun _ => rfl⟩
      · cases hx
  | helper =>
      cases b with
      | zero => cases hx
      | succ b =>
          obtain rfl := Option.some.inj hx
          exact ⟨hin rfl, nofun⟩

omit [DecidableEq Tid] in
/-- With the bucket that it is at, a loop has passed what it has passed before. -/
theorem covers_next {role : Role} {b x y : Nat} (hx : bucketAt c.sh.old role b = some x) :
    role.covers (role.next x) y ↔ role.covers b y ∨ y = x := by
  cases role with
  | resizer =>
      dsimp only [bucketAt] at hx
      split at hx
      · obtain rfl := Option.some.inj hx
        exact Nat.lt_succ_iff_lt_or_eq
      · cases hx
  | helper =>
      cases b with
      | zero => cases hx
      | succ b =>
          obtain rfl := Option.some.inj hx
          show b ≤ y ↔ b + 1 ≤ y ∨ y = b
          omega

/-- The CAS on a bucket succeeds. -/
theorem lockBucket (h : Shares r c) {role : Role} {b x : Nat} (hpc : c.loc t = .cpyLock role b)
    (hx : bucketAt c.sh.old role b = some x) (hfree : c.sh.old.lock x = .free) :
    Shares r (c.put t (c.sh.lockBucket t x, .cpySlot role x 0)) := by
  -- a bucket that is free has no copier
  have hnil : c.sh.copiers x = [] := by
    by_contra hne
    rw [h.lock x, if_neg hne] at hfree
    cases hfree
  have hlt : x < c.sh.old.numBuckets := by
    refine (bucketAt_lt hx ?_).1
    rintro rfl
    exact h.inside t b hpc
  have hroles : ∀ u, ((c.put t (c.sh.lockBucket t x, .cpySlot role x 0)).loc u).role
      = (c.loc u).role := by
    intro u
    rw [put_loc]
    split
    · next hut =>
      rw [hut, hpc]
      rfl
    · rfl
  have hcop : ∀ y, (c.sh.lockBucket t x).copiers y = if y = x then [t] else c.sh.copiers y := by
    intro y
    show Function.update c.sh.copiers x (t :: c.sh.copiers x) y = _
    rw [Function.update_apply, hnil]
  have hgrow : ∀ y, c.sh.copiers y ≠ [] → (c.sh.lockBucket t x).copiers y ≠ [] := by
    intro y hy
    rw [hcop]
    split
    · exact List.cons_ne_nil _ _
    · exact hy
  have hpassed : ∀ y < c.sh.old.numBuckets, role.covers (role.next x) y →
      (c.sh.lockBucket t x).copiers y ≠ [] := by
    intro y hy hcov
    rcases (covers_next hx).mp hcov with hcov | rfl
    · exact hgrow y (h.passed t y hy (hpc ▸ hcov))
    · rw [hcop, if_pos rfl]
      exact List.cons_ne_nil _ _
  refine ⟨h.small, fun u => ?_, fun u v => ?_, fun u => ?_, h.helped, h.isHelper, fun y => ?_,
    fun y => ?_, fun u y i => ?_, fun u y => ?_, fun u y hy => ?_, fun y => ?_,
    fun y u hu hur z hyz hz => ?_, fun hsw => ?_, fun hp => ?_⟩
  · rw [hroles]
    exact h.resizer u
  · rw [hroles, hroles]
    exact h.helper u v
  · rw [hroles]
    exact h.arrived u
  · rw [put_sh, hcop]
    show Function.update c.sh.old.lock x .resize y = _
    rw [Function.update_apply]
    split
    · exact (if_neg (List.cons_ne_nil _ _)).symm
    · exact h.lock y
  · rw [put_sh, hcop]
    split
    · exact le_rfl
    · exact h.one y
  · rw [put_sh, hcop, put_loc]
    split
    · next hut =>
      intro hs
      cases hs
      rw [if_pos rfl, hut]
      exact ⟨rfl, hlt⟩
    · intro hs
      obtain ⟨hc, hy⟩ := h.copying u y i hs
      refine ⟨?_, hy⟩
      rw [if_neg]
      · exact hc
      · rintro rfl
        rw [hnil] at hc
        cases hc
  · rw [put_loc]
    split
    · exact nofun
    · exact h.inside u y
  · rw [put_loc]
    split
    · exact hpassed y hy
    · exact fun hp => hgrow y (h.passed u y hy hp)
  · rw [put_sh, hcop, put_loc]
    split <;> rename_i hyx <;> split <;> rename_i hrt <;> intro hr
    · exact (covers_next hx).mpr (Or.inr hyx)
    · exact absurd (List.mem_singleton.mp hr) hrt
    · refine (covers_next hx).mpr (Or.inl ?_)
      have hm := h.mine y hr
      rw [hrt, hpc] at hm
      exact hm
    · exact h.mine y hr
  · rw [put_sh, hcop] at hu
    split at hu <;> rename_i hyx
    · -- it is the helper that locks the bucket
      obtain rfl := List.mem_singleton.mp hu
      have hrole : role = .helper := by
        cases role with
        | resizer => exact absurd ((h.resizer u).mp (by rw [hpc]; rfl)) hur
        | helper => rfl
      subst hrole
      exact hpassed z hz (hyx ▸ hyz)
    · exact hgrow z (h.others y u hu hur z hyz hz)
  · -- all buckets are locked
    rw [put_loc] at hsw
    split at hsw
    · cases hsw
    · refine absurd hnil (h.passed r x hlt ?_)
      generalize c.loc r = pc at hsw
      cases pc with
      | swap | resized => trivial
      | _ => cases hsw
  · exact h.stays_published (by rw [hpc]; exact nofun) hp

/-- The loop ends: at the end of its range, or at a bucket that the other one has locked. -/
theorem stop (h : Shares r c) {role : Role} {b : Nat} (hpc : c.loc t = .cpyLock role b)
    (hend : bucketAt c.sh.old role b = none ∨
      ∃ x, bucketAt c.sh.old role b = some x ∧ c.sh.old.lock x = .resize) :
    Shares r (c.put t (c.sh, role.stop)) := by
  have hrole : role.stop.role = (c.loc t).role := by
    rw [hpc]
    cases role <;> rfl
  refine h.keep rfl rfl rfl rfl rfl hrole (fun b' i hs => ?_) (fun b' heq => ?_)
    (fun x hx hp => ?_) (fun htr x hx => ?_) (fun hsw => ?_)
    (h.stays_published (by rw [hpc]; exact nofun))
  · cases role <;> cases hs
  · cases role <;> cases heq
  · cases role with
    | helper => exact hp.elim
    | resizer =>
        have hbelow : x < b → c.sh.copiers x ≠ [] :=
          fun hxb => h.passed t x hx (by rw [hpc]; exact hxb)
        rcases hend with hnone | ⟨y, hy, hres⟩
        · dsimp only [bucketAt] at hnone
          split at hnone
          · cases hnone
          · next hge =>
            refine hbelow (Nat.lt_of_lt_of_le hx (Nat.le_trans ?_ (Nat.not_lt.mp hge)))
            exact Nat.le_min.mpr ⟨le_rfl, h.small⟩
        · obtain rfl : y = b := (bucketAt_lt hy nofun).2 rfl
          rcases Nat.lt_or_ge x y with hxy | hyx
          · exact hbelow hxy
          · -- the resizer has not locked this bucket
            have hne : c.sh.copiers y ≠ [] := by
              intro hnil
              rw [h.lock y, if_pos hnil] at hres
              cases hres
            obtain ⟨u, hu⟩ := h.copier hne
            have htr : t = r := (h.resizer t).mp (by rw [hpc]; rfl)
            have hur : u ≠ r := by
              rintro rfl
              have hm := h.mine y (by rw [hu]; exact List.mem_singleton_self _)
              rw [← htr, hpc] at hm
              exact Nat.lt_irrefl y hm
            exact h.others y u (by rw [hu]; exact List.mem_singleton_self _) hur x hyx hx
  · cases role with
    | helper =>
        have hres := (h.resizer t).mpr htr
        rw [hpc] at hres
        cases hres
    | resizer => trivial
  · cases role <;> cases hsw

/-- To the next bucket. -/
theorem loop (h : Shares r c) {role : Role} {b i : Nat} (hpc : c.loc t = .cpySlot role b i) :
    Shares r (c.put t (c.sh, .cpyLock role (role.next b))) := by
  refine h.keep rfl rfl rfl rfl rfl (by rw [hpc]; rfl) nofun (fun b' heq => ?_) (fun x hx hp => ?_)
    (fun htr x hx => ?_) nofun (h.stays_published (by rw [hpc]; exact nofun))
  · cases heq
    exact Nat.le_of_lt (h.copying t b i (by rw [hpc]; rfl)).2
  · exact h.passed t x hx (by rw [hpc]; exact hp)
  · have hm := h.mine x hx
    rw [← htr, hpc] at hm
    exact hm

omit [DecidableEq Tid] in
/-- With no helper, no other thread copies. -/
theorem slot_of_alone (h : Shares r c) (hno : ∀ u, (c.loc u).role ≠ some .helper) :
    ∀ u, u ≠ r → (c.loc u).slot = none := by
  intro u hur
  have hres : (c.loc u).role ≠ some .resizer := fun hrole => hur ((h.resizer u).mp hrole)
  have hhelp := hno u
  generalize c.loc u = pc at hres hhelp
  cases pc with
  | cpySlot role b i => cases role <;> first | exact absurd rfl hres | exact absurd rfl hhelp
  | putSeek role _ _ _ _ _ => cases role <;> first | exact absurd rfl hres | exact absurd rfl hhelp
  | putVal role _ _ _ _ _ => cases role <;> first | exact absurd rfl hres | exact absurd rfl hhelp
  | putKey role _ _ _ _ _ => cases role <;> first | exact absurd rfl hres | exact absurd rfl hhelp
  | _ => rfl

/-- A step of the resizer after its loop. -/
theorem finish (h : Shares r c) {sh' : Shared Tid} {pc' : Pc} (hold : sh'.old = c.sh.old)
    (hcopiers : sh'.copiers = c.sh.copiers) (hhelper : sh'.isHelper = c.sh.isHelper)
    (harrivals : sh'.arrivals = c.sh.arrivals) (hdone : sh'.helperDone = c.sh.helperDone)
    (hrole : (c.loc t).role = some .resizer) (hrole' : pc'.role = some .resizer)
    (hall : ∀ x, (c.loc t).passed x) (hall' : ∀ x, pc'.passed x) (hslot : pc'.slot = none)
    (halone : pc'.swaps = true → ∀ u, u ≠ r → (c.loc u).slot = none)
    (hpub : sh'.published = true → (c.put t (sh', pc')).loc r = .resized) :
    Shares r (c.put t (sh', pc')) := by
  refine h.keep hold hcopiers hhelper harrivals hdone (hrole'.trans hrole.symm)
    (fun b i hs => ?_) (fun b heq => ?_) (fun x hx _ => h.passed t x hx (hall x))
    (fun _ x _ => hall' x) (fun hsw _ => halone hsw) hpub
  · rw [hslot] at hs
    cases hs
  · rw [heq] at hrole'
    cases hrole'

omit [DecidableEq Tid] in
/-- The counter of the helpers. -/
theorem arrivals_eq_zero (h : Shares r c) :
    (c.sh.isHelper = 1 → c.sh.arrivals = 0) ∧
      (c.sh.arrivals < 2 ^ 31 + 2 → 0 < c.sh.isHelper.toInt → c.sh.arrivals = 0) := by
  obtain ⟨heq, hle⟩ := h.isHelper
  generalize c.sh.arrivals = n at *
  rw [heq]
  constructor
  · intro hone
    bv_omega
  · intro hlt hpos
    rw [BitVec.toInt_eq_toNat_cond] at hpos
    split at hpos <;> bv_omega

omit [DecidableEq Tid] in
/-- The helpers begin at the last bucket. -/
theorem helpFrom_eq (h : Shares r c) (hpos : 0 < c.sh.old.numBuckets) :
    helpFrom c.sh.old = c.sh.old.numBuckets := by
  have hsmall := h.small
  unfold helpFrom
  rw [if_pos (by omega)]
  omega

/-- A thread outside, or at the `FAD`, copies nothing and has locked nothing. -/
theorem enter (h : Shares r c) {sh' : Shared Tid} {pc' : Pc} (hold : sh'.old = c.sh.old)
    (hcopiers : sh'.copiers = c.sh.copiers) (hdone : sh'.helperDone = c.sh.helperDone)
    (hpublished : sh'.published = c.sh.published)
    (hcount : sh'.isHelper = 1 - BitVec.ofNat 32 sh'.arrivals ∧ sh'.arrivals ≤ 2 ^ 31 + 2)
    (hle : c.sh.arrivals ≤ sh'.arrivals) (hrole : (c.loc t).role = none)
    (hrole' : pc'.role = none ∨ pc' = .cpyLock .helper c.sh.old.numBuckets ∧
      c.sh.arrivals = 0 ∧ 0 < sh'.arrivals) (hslot : pc'.slot = none) :
    Shares r (c.put t (sh', pc')) := by
  have htr : t ≠ r := by
    intro heq
    rw [(h.resizer t).mpr heq] at hrole
    cases hrole
  have hr : (c.put t (sh', pc')).loc r = c.loc r := put_loc_ne c _ htr.symm
  -- the thread is a helper now only if there was none
  have hnew : pc'.role = some .helper → c.sh.arrivals = 0 ∧ 0 < sh'.arrivals := by
    intro hh
    rcases hrole' with hnone | ⟨-, hz⟩
    · rw [hnone] at hh
      cases hh
    · exact hz
  have hnone : c.sh.arrivals = 0 → ∀ u, (c.loc u).role ≠ some .helper := by
    intro hz u hu
    exact absurd (h.arrived u hu).1 (by omega)
  refine ⟨?_, fun u => ?_, fun u v => ?_, fun u => ?_, fun hd => ?_, hcount, fun b => ?_,
    fun b => ?_, fun u b i => ?_, fun u b => ?_, fun u b hb => ?_, fun b hb => ?_,
    fun b u hu => ?_, fun hsw u => ?_, fun hp => ?_⟩
  · rw [put_sh, hold]
    exact h.small
  · rw [put_loc]
    split
    · next hut =>
      refine iff_of_false (fun hu => ?_) (hut ▸ htr)
      rcases hrole' with hn | ⟨rfl, -⟩
      · rw [hn] at hu
        cases hu
      · cases hu
    · exact h.resizer u
  · rw [put_loc, put_loc]
    split <;> rename_i hut <;> split <;> rename_i hvt <;> intro hu hv
    · rw [hut, hvt]
    · exact absurd hv (hnone (hnew hu).1 v)
    · exact absurd hu (hnone (hnew hv).1 u)
    · exact h.helper u v hu hv
  · rw [put_sh, hdone, put_loc]
    split
    · intro hu
      obtain ⟨hz, hpos⟩ := hnew hu
      refine ⟨hpos, ?_⟩
      cases hd : c.sh.helperDone with
      | false => rfl
      | true => exact absurd (h.helped hd) (by omega)
    · exact fun hu => ⟨Nat.lt_of_lt_of_le (h.arrived u hu).1 hle, (h.arrived u hu).2⟩
  · rw [put_sh, hdone] at hd
    exact Nat.lt_of_lt_of_le (h.helped hd) hle
  · rw [put_sh, hold, hcopiers]
    exact h.lock b
  · rw [put_sh, hcopiers]
    exact h.one b
  · rw [put_sh, hold, hcopiers, put_loc]
    split
    · rw [hslot]
      exact nofun
    · exact h.copying u b i
  · rw [put_sh, hold, put_loc]
    split
    · intro heq
      rcases hrole' with hn | ⟨rfl, -⟩
      · change pc' = _ at heq
        rw [heq] at hn
        cases hn
      · cases heq
        exact le_rfl
    · exact h.inside u b
  · rw [put_sh, hcopiers, put_loc]
    rw [put_sh, hold] at hb
    split
    · intro hp
      rcases hrole' with hn | ⟨rfl, -⟩
      · generalize pc' = pc at hn hp
        cases pc with
        | outside | fad | helped => exact hp.elim
        | _ => cases hn
      · exact absurd hb (Nat.not_lt.mpr hp)
    · exact h.passed u b hb
  · rw [put_sh, hcopiers] at hb
    rw [hr]
    exact h.mine b hb
  · rw [put_sh, hcopiers] at hu ⊢
    rw [hold]
    exact h.others b u hu
  · rw [hr] at hsw
    rw [put_loc]
    split
    · exact hslot
    · exact h.alone hsw u
  · rw [put_sh, hpublished] at hp
    rw [hr]
    exact h.published hp

/-- `h->helper_done = 1`. -/
theorem setDone (h : Shares r c) (hpc : c.loc t = .setDone) :
    Shares r (c.put t ({ c.sh with helperDone := true }, .helped)) := by
  have hrole : (c.loc t).role = some .helper := by rw [hpc]; rfl
  have htr : t ≠ r := by
    intro heq
    rw [(h.resizer t).mpr heq] at hrole
    cases hrole
  have hr : (c.put t ({ c.sh with helperDone := true }, Pc.helped)).loc r = c.loc r :=
    put_loc_ne c _ htr.symm
  refine ⟨h.small, fun u => ?_, fun u v => ?_, fun u => ?_, fun _ => (h.arrived t hrole).1,
    h.isHelper, h.lock, h.one, fun u b i => ?_, fun u b => ?_, fun u b hb => ?_, fun b hb => ?_,
    h.others, fun hsw u => ?_, fun hp => ?_⟩
  · rw [put_loc]
    split
    · next hut => exact iff_of_false nofun (hut ▸ htr)
    · exact h.resizer u
  · rw [put_loc, put_loc]
    split
    · exact nofun
    · split
      · exact nofun
      · exact h.helper u v
  · -- this was the only helper
    rw [put_loc]
    split
    · exact nofun
    · next hut => exact fun hu => absurd (h.helper u t hu hrole) hut
  · rw [put_loc]
    split
    · exact nofun
    · exact h.copying u b i
  · rw [put_loc]
    split
    · exact nofun
    · exact h.inside u b
  · rw [put_loc]
    split
    · exact fun hp => hp.elim
    · exact h.passed u b hb
  · rw [hr]
    exact h.mine b hb
  · rw [hr] at hsw
    rw [put_loc]
    split
    · rfl
    · exact h.alone hsw u
  · rw [hr]
    exact h.published hp

/-- **Step lemma.** -/
theorem step (h : Shares r c) (hpos : 0 < c.sh.old.numBuckets) {a : Act} {x : Shared Tid × Pc}
    (hok : sound c t a) (hs : prog t c.sh (c.loc t) a = some x) : Shares r (c.put t x) := by
  unfold prog at hs
  split at hs
  · -- a thread finds a bucket in resize state
    rename_i b hpc
    obtain ⟨-, hx⟩ := Option.ite_none_right_eq_some.mp hs
    obtain rfl := Option.some.inj hx
    exact h.enter rfl rfl rfl rfl h.isHelper le_rfl (by rw [hpc]; rfl) (Or.inl rfl) rfl
  · generalize hpc : c.loc t = pc at hs
    have hslot : ∀ {b i}, pc.slot = some (b, i) → (c.loc t).slot = some (b, i) :=
      fun hsl => hpc ▸ hsl
    cases pc with
    | outside | resized | helped => cases hs
    | cpyLock role b =>
        dsimp only [go] at hs
        split at hs
        · next hnone =>
          obtain rfl := Option.some.inj hs
          exact h.stop hpc (Or.inl hnone)
        · next b' hb' =>
          split at hs <;> rename_i hlock <;> obtain rfl := Option.some.inj hs
          · exact h.lockBucket hpc hb' hlock
          · rw [h.lock b'] at hlock
            split at hlock <;> cases hlock
          · exact h.stop hpc (Or.inr ⟨b', hb', hlock⟩)
    | cpySlot role b i =>
        dsimp only [go] at hs
        split at hs
        · split at hs <;> obtain rfl := Option.some.inj hs
          · exact h.copy rfl rfl rfl rfl rfl rfl (hslot rfl) rfl (by rw [hpc]; rfl)
              (by rw [hpc]; rfl)
          · exact h.copy rfl rfl rfl rfl rfl rfl (hslot rfl) rfl (by rw [hpc]; rfl)
              (by rw [hpc]; rfl)
        · obtain rfl := Option.some.inj hs
          exact h.loop hpc
    | putSeek role b i key val j =>
        dsimp only [go] at hs
        split at hs <;> obtain rfl := Option.some.inj hs
        · split
          · exact h.copy rfl rfl rfl rfl rfl rfl (hslot rfl) rfl (by rw [hpc]; rfl)
              (by rw [hpc]; rfl)
          · exact h.copy rfl rfl rfl rfl rfl rfl (hslot rfl) rfl (by rw [hpc]; rfl)
              (by rw [hpc]; rfl)
        · exact h.copy rfl rfl rfl rfl rfl rfl (hslot rfl) rfl (by rw [hpc]; rfl)
            (by rw [hpc]; rfl)
    | putVal role b i key val j =>
        dsimp only [go] at hs
        split at hs
        · obtain rfl := Option.some.inj hs
          exact h.copy rfl rfl rfl rfl rfl rfl (hslot rfl) rfl (by rw [hpc]; rfl)
            (by rw [hpc]; rfl)
        · cases hs
    | putKey role b i key val j =>
        dsimp only [go] at hs
        split at hs
        · obtain rfl := Option.some.inj hs
          exact h.copy rfl rfl rfl rfl rfl rfl (hslot rfl) rfl (by rw [hpc]; rfl)
            (by rw [hpc]; rfl)
        · cases hs
    | checkHelper =>
        obtain rfl := Option.some.inj hs
        have hne : c.loc t ≠ .resized := by rw [hpc]; exact nofun
        split
        · exact h.finish rfl rfl rfl rfl rfl (by rw [hpc]; rfl) rfl (fun _ => by rw [hpc]; trivial)
            (fun _ => trivial) rfl nofun (h.stays_published hne)
        · -- no helper has come, and the resizer has seen every bucket
          next hone =>
          have hzero := h.arrivals_eq_zero.1 (not_not.mp hone)
          refine h.finish rfl rfl rfl rfl rfl (by rw [hpc]; rfl) rfl (fun _ => by rw [hpc]; trivial)
            (fun _ => trivial) rfl (fun _ => h.slot_of_alone fun u hu => ?_)
              (h.stays_published hne)
          exact absurd (h.arrived u hu).1 (by omega)
    | waitHelper =>
        obtain rfl := Option.some.inj hs
        have hne : c.loc t ≠ .resized := by rw [hpc]; exact nofun
        split
        · -- the helper is done
          next hdone =>
          refine h.finish rfl rfl rfl rfl rfl (by rw [hpc]; rfl) rfl (fun _ => by rw [hpc]; trivial)
            (fun _ => trivial) rfl (fun _ => h.slot_of_alone fun u hu => ?_)
              (h.stays_published hne)
          exact absurd ((h.arrived u hu).2.symm.trans hdone) nofun
        · exact h.finish rfl rfl rfl rfl rfl (by rw [hpc]; rfl) rfl (fun _ => by rw [hpc]; trivial)
            (fun _ => trivial) rfl nofun (h.stays_published hne)
    | swap =>
        obtain rfl := Option.some.inj hs
        have htr : t = r := (h.resizer t).mp (by rw [hpc]; rfl)
        subst htr
        refine h.finish rfl rfl rfl rfl rfl (by rw [hpc]; rfl) rfl (fun _ => by rw [hpc]; trivial)
          (fun _ => trivial) rfl (fun _ u _ => h.alone (by rw [hpc]; rfl) u) (fun _ => ?_)
        rw [put_loc_self]
    | fad =>
        obtain rfl := Option.some.inj hs
        unfold sound at hok
        rw [hpc] at hok
        obtain ⟨hcount, hle⟩ := h.isHelper
        have hcount' : c.sh.isHelper - 1 = 1 - BitVec.ofNat 32 (c.sh.arrivals + 1) := by
          rw [hcount, BitVec.ofNat_add]
          generalize BitVec.ofNat 32 c.sh.arrivals = k
          bv_omega
        refine h.enter rfl rfl rfl rfl ⟨hcount', hok.1⟩ (Nat.le_succ _) (by rw [hpc]; rfl) ?_ ?_
        · split
          · exact Or.inl rfl
          · next hlt =>
            rw [h.helpFrom_eq hpos]
            exact Or.inr ⟨rfl, h.arrivals_eq_zero.2 hok.1 (by omega), Nat.succ_pos _⟩
        · split <;> rfl
    | setDone =>
        obtain rfl := Option.some.inj hs
        exact h.setDone hpc
  · cases hs

end Shares

/-! ## What is copied -/

/-- The entry that a thread inserts: its place in the old table, key and value. -/
def Pc.entry : Pc → Option (Nat × Nat × Addr × Val)
  | .putSeek _ b i key val _ => some (b, i, key, val)
  | .putVal _ b i key val _ => some (b, i, key, val)
  | .putKey _ b i key val _ => some (b, i, key, val)
  | _ => none

/-- The slot that a thread fills is vacant. -/
def Vacant (sh : Shared Tid) : Pc → Prop
  | .putSeek _ _ _ key _ j => j ≤ (sh.chain key).length
  | .putVal _ _ _ key _ j => ∃ v, (sh.chain key)[j]? = some ⟨0, v⟩
  | .putKey _ _ _ key val j => (sh.chain key)[j]? = some ⟨0, val⟩
  | _ => True

/-- The new table has what has been copied. -/
structure Fills (r : Tid) (c : Conf Tid (Shared Tid) Pc) : Prop where
  shares : Shares r c
  oldPos : 0 < c.sh.old.numBuckets
  newPos : 0 < c.sh.new.numBuckets
  apart : ∀ t, (c.loc t).role = some .helper → Apart c.sh
  apart' : ∀ b t, t ∈ c.sh.copiers b → t ≠ r → Apart c.sh
  index : ∀ t b i, (c.loc t).slot = some (b, i) → c.sh.copied b = i
  whole : ∀ b, c.sh.copiers b ≠ [] → (∀ t i, (c.loc t).slot ≠ some (b, i)) →
    (c.sh.old.table b).length ≤ c.sh.copied b
  none : ∀ b, c.sh.copiers b = [] → c.sh.copied b = 0
  entry : ∀ t b i key val, (c.loc t).entry = some (b, i, key, val) →
    key ≠ 0 ∧ (c.sh.old.table b)[i]? = some ⟨key, val⟩
  vacant : ∀ t, Vacant c.sh (c.loc t)
  content : content c.sh.new.numBuckets c.sh.new.table =
    content c.sh.old.numBuckets fun b => (c.sh.old.table b).take (c.sh.copied b)
  hashed : Hashed (clhtLpHash c.sh.new) c.sh.new.numBuckets c.sh.new.table
  fed : ∀ B t, t ∈ c.sh.fed B → ∃ b < c.sh.old.numBuckets, c.sh.copiers b = [t] ∧
    ∃ s ∈ c.sh.old.table b, s.key ≠ 0 ∧ c.sh.bin s.key = B

/-- The chains and the sizes decide whether the buckets are apart. -/
theorem Apart.congr {sh sh' : Shared Tid} (h : Apart sh) (htable : sh'.old.table = sh.old.table)
    (hold : sh'.old.numBuckets = sh.old.numBuckets)
    (hnew : sh'.new.numBuckets = sh.new.numBuckets) : Apart sh' := by
  unfold Apart Shared.bin at h ⊢
  rw [htable, hold, clhtLpHash_congr hnew]
  exact h

/-- Who enters an entry is at its slot. -/
theorem slot_of_entry {pc : Pc} {b i : Nat} {key : Addr} {val : Val}
    (h : pc.entry = some (b, i, key, val)) : pc.slot = some (b, i) := by
  cases pc <;> cases h <;> rfl

/-- The key of the entry is not there yet. -/
theorem vacant_congr {sh sh' : Shared Tid} {pc : Pc} (h : Vacant sh pc)
    (hchain : ∀ b i key val, pc.entry = some (b, i, key, val) → sh'.chain key = sh.chain key) :
    Vacant sh' pc := by
  cases pc with
  | putSeek role b i key val j =>
      show j ≤ (sh'.chain key).length
      rw [hchain b i key val rfl]
      exact h
  | putVal role b i key val j =>
      obtain ⟨v, hv⟩ := h
      exact ⟨v, by rw [hchain b i key val rfl]; exact hv⟩
  | putKey role b i key val j =>
      show (sh'.chain key)[j]? = _
      rw [hchain b i key val rfl]
      exact h
  | _ => trivial

/-- Before the resize. -/
theorem Init.fills {r : Tid} {c : Conf Tid (Shared Tid) Pc} (h : Init r c)
    (hsmall : c.sh.old.numBuckets ≤ 2 ^ 31) : Fills r c := by
  have hshares := h.shares hsmall
  obtain ⟨by_, T, hT, hnew⟩ := h.new
  obtain ⟨hwf, -, hempty, -, hnum, -⟩ := clhtLpHashtableCreate_some hT
  have hpos : 0 < T.numBuckets := hwf.pos
  have hold : 0 < c.sh.old.numBuckets := by
    refine Nat.pos_of_ne_zero fun hzero => ?_
    rw [hzero] at hT
    have hby : numBucketsNew 0 true by_ = 0 := by
      unfold numBucketsNew
      rw [if_pos rfl, Nat.cast_zero, mul_zero]
      rfl
    rw [hby] at hT
    cases hT
  have hslot : ∀ t, (c.loc t).slot = none ∧ (c.loc t).role ≠ some .helper ∧
      (c.loc t).entry = none ∧ Vacant c.sh (c.loc t) := by
    intro t
    by_cases ht : t = r
    · rw [ht, h.resizer]
      exact ⟨rfl, nofun, rfl, trivial⟩
    · rw [h.outside t ht]
      exact ⟨rfl, nofun, rfl, trivial⟩
  have hnil : ∀ (b : Nat) (t : Tid), t ∉ c.sh.copiers b := by
    intro b t hb
    rw [h.copiers] at hb
    cases hb
  refine ⟨hshares, hold, by rw [hnew]; exact hpos, fun t ht => absurd ht (hslot t).2.1,
    fun b t hb => absurd hb (hnil b t), fun t b i ht => ?_, fun b hb => absurd (h.copiers b) hb,
    fun b _ => h.copied b, fun t b i key val ht => ?_, fun t => (hslot t).2.2.2, ?_,
    by rw [hnew]; exact hwf.hashed, fun B t ht => ?_⟩
  · rw [(hslot t).1] at ht
    cases ht
  · rw [(hslot t).2.2.1] at ht
    cases ht
  · have hzero : (fun b => (c.sh.old.table b).take (c.sh.copied b)) = fun _ => [] :=
      funext fun b => by rw [h.copied, List.take_zero]
    rw [hzero, hnew]
    exact hempty.trans (Finset.sum_const_zero).symm
  · rw [h.fed] at ht
    cases ht

namespace Fills

variable [DecidableEq Tid] {r t : Tid} {c : Conf Tid (Shared Tid) Pc}

omit [DecidableEq Tid] in
/-- Two threads copy only if one of them is the helper. -/
theorem apart_of_two (h : Fills r c) {u : Tid} (hut : u ≠ t) {b i b' i' : Nat}
    (ht : (c.loc t).slot = some (b, i)) (hu : (c.loc u).slot = some (b', i')) :
    b ≠ b' ∧ Apart c.sh := by
  have hcop := (h.shares.copying t b i ht).1
  have hcop' := (h.shares.copying u b' i' hu).1
  constructor
  · rintro rfl
    rw [hcop] at hcop'
    exact hut (List.singleton_injective hcop').symm
  · by_cases htr : t = r
    · exact h.apart' b' u (by rw [hcop']; exact List.mem_singleton_self _) (htr ▸ hut)
    · exact h.apart' b t (by rw [hcop]; exact List.mem_singleton_self _) htr

omit [DecidableEq Tid] in
/-- The entries that two threads insert go to different buckets. -/
theorem bin_ne (h : Fills r c) {u : Tid} (hut : u ≠ t) {b i b' i' : Nat} {key key' : Addr}
    {val val' : Val} (ht : (c.loc t).entry = some (b, i, key, val))
    (hu : (c.loc u).entry = some (b', i', key', val')) : c.sh.bin key' ≠ c.sh.bin key := by
  have hts := slot_of_entry ht
  have hus := slot_of_entry hu
  obtain ⟨hne, hapart⟩ := h.apart_of_two hut hts hus
  obtain ⟨hkey, hslot⟩ := h.entry t b i key val ht
  obtain ⟨hkey', hslot'⟩ := h.entry u b' i' key' val' hu
  intro heq
  exact hne (hapart b (h.shares.copying t b i hts).2 b' (h.shares.copying u b' i' hus).2 _
    (List.mem_of_getElem? hslot) _ (List.mem_of_getElem? hslot') hkey hkey' heq.symm)

/-- A step that locks no bucket. -/
theorem put (h : Fills r c) {sh' : Shared Tid} {pc' : Pc}
    (hshares : Shares r (c.put t (sh', pc'))) (htable : sh'.old.table = c.sh.old.table)
    (hold : sh'.old.numBuckets = c.sh.old.numBuckets)
    (hnew : sh'.new.numBuckets = c.sh.new.numBuckets) (hcopiers : sh'.copiers = c.sh.copiers)
    (hrole : pc'.role = some .helper → Apart c.sh)
    (hcopied : ∀ b, (∀ i, (c.loc t).slot ≠ some (b, i)) → sh'.copied b = c.sh.copied b)
    (hindex : ∀ b i, pc'.slot = some (b, i) →
      sh'.copied b = i ∧ ∃ i', (c.loc t).slot = some (b, i'))
    (hwhole : ∀ b i, (c.loc t).slot = some (b, i) → pc'.slot = Option.none →
      (c.sh.old.table b).length ≤ sh'.copied b)
    (hentry : ∀ b i key val, pc'.entry = some (b, i, key, val) →
      key ≠ 0 ∧ (c.sh.old.table b)[i]? = some ⟨key, val⟩)
    (hvacant : Vacant sh' pc')
    (hframe : ∀ u, u ≠ t → ∀ b i key val, (c.loc u).entry = some (b, i, key, val) →
      sh'.chain key = c.sh.chain key)
    (hcontent : SlotTable.content sh'.new.numBuckets sh'.new.table =
      SlotTable.content c.sh.old.numBuckets fun b => (c.sh.old.table b).take (sh'.copied b))
    (hhashed : Hashed (clhtLpHash c.sh.new) sh'.new.numBuckets sh'.new.table)
    (hfed : ∀ B u, u ∈ sh'.fed B → u ∈ c.sh.fed B ∨ ∃ b < c.sh.old.numBuckets,
      c.sh.copiers b = [u] ∧ ∃ s ∈ c.sh.old.table b, s.key ≠ 0 ∧ c.sh.bin s.key = B) :
    Fills r (c.put t (sh', pc')) := by
  have hhash : clhtLpHash sh'.new = clhtLpHash c.sh.new := clhtLpHash_congr hnew
  have hbin : ∀ key, sh'.bin key = c.sh.bin key := fun key => congrFun hhash key
  -- whoever copies a bucket is the one that has locked it
  have hother : ∀ u b i, u ≠ t → (c.loc u).slot = some (b, i) →
      ∀ i', (c.loc t).slot ≠ some (b, i') :=
    fun u b i hut hu i' ht => (h.apart_of_two hut ht hu).1 rfl
  refine ⟨hshares, ?_, ?_, fun u => ?_, fun b u hb hur => ?_, fun u b i => ?_, fun b hb hno => ?_,
    fun b hb => ?_, fun u b i key val => ?_, fun u => ?_, ?_, ?_, fun B u hu => ?_⟩
  · rw [put_sh, hold]
    exact h.oldPos
  · rw [put_sh, hnew]
    exact h.newPos
  · rw [put_loc]
    split
    · exact fun hr => (hrole hr).congr htable hold hnew
    · exact fun hr => (h.apart u hr).congr htable hold hnew
  · rw [put_sh, hcopiers] at hb
    exact (h.apart' b u hb hur).congr htable hold hnew
  · rw [put_loc]
    split
    · exact fun hs => (hindex b i hs).1
    · next hut =>
      intro hs
      exact (hcopied b (hother u b i hut hs)).trans (h.index u b i hs)
  · rw [put_sh, hcopiers] at hb
    show (sh'.old.table b).length ≤ sh'.copied b
    rw [htable]
    by_cases hmine : ∃ i, (c.loc t).slot = some (b, i)
    · obtain ⟨i, hi⟩ := hmine
      refine hwhole b i hi ?_
      cases hs : pc'.slot with
      | none => rfl
      | some bi =>
          obtain ⟨-, i', hi'⟩ := hindex bi.1 bi.2 hs
          rw [hi] at hi'
          have hb' : b = bi.1 := congrArg Prod.fst (Option.some.inj hi')
          have hnot := hno t bi.2
          rw [put_loc_self, hb'] at hnot
          exact absurd hs hnot
    · have hnot : ∀ i, (c.loc t).slot ≠ some (b, i) := fun i hi => hmine ⟨i, hi⟩
      rw [hcopied b hnot]
      refine h.whole b hb fun u i hu => ?_
      by_cases hut : u = t
      · exact hnot i (hut ▸ hu)
      · have hnot' := hno u i
        rw [put_loc_ne c _ hut] at hnot'
        exact hnot' hu
  · rw [put_sh, hcopiers] at hb
    refine (hcopied b fun i hi => ?_).trans (h.none b hb)
    rw [(h.shares.copying t b i hi).1] at hb
    cases hb
  · rw [put_sh, htable, put_loc]
    split
    · exact hentry b i key val
    · exact h.entry u b i key val
  · rw [put_sh, put_loc]
    split
    · exact hvacant
    · next hut => exact vacant_congr (h.vacant u) (hframe u hut)
  · rw [put_sh, hold, htable]
    exact hcontent
  · rw [put_sh, hhash]
    exact hhashed
  · rw [put_sh, hold, hcopiers, htable]
    simp only [hbin]
    rcases hfed B u hu with hu | hu
    · exact h.fed B u hu
    · exact hu

/-- A step between the buckets. -/
theorem quiet (h : Fills r c) {sh' : Shared Tid} {pc' : Pc}
    (hshares : Shares r (c.put t (sh', pc'))) (hold : sh'.old = c.sh.old)
    (hnew : sh'.new = c.sh.new) (hcopiers : sh'.copiers = c.sh.copiers)
    (hcopied : sh'.copied = c.sh.copied) (hfed : sh'.fed = c.sh.fed)
    (hrole : pc'.role = some .helper → Apart c.sh)
    (hslot : pc'.slot = Option.none)
    (hwhole : ∀ b i, (c.loc t).slot = some (b, i) → (c.sh.old.table b).length ≤ i) :
    Fills r (c.put t (sh', pc')) := by
  refine h.put hshares (by rw [hold]) (by rw [hold]) (by rw [hnew]) hcopiers hrole
    (fun b _ => by rw [hcopied]) (fun b i hs => ?_) (fun b i hs _ => ?_) (fun b i key val he => ?_)
    ?_ (fun u _ b i key val _ => ?_) ?_ ?_ (fun B u hu => Or.inl (by rw [hfed] at hu; exact hu))
  · rw [hslot] at hs
    cases hs
  · rw [hcopied, h.index t b i hs]
    exact hwhole b i hs
  · rw [slot_of_entry he] at hslot
    cases hslot
  · cases pc' <;> trivial
  · unfold Shared.chain Shared.bin
    rw [hnew]
  · rw [hnew, hcopied]
    exact h.content
  · rw [hnew]
    exact h.hashed

/-- The CAS on a bucket succeeds. -/
theorem lockBucket (h : Fills r c) {role : Role} {b x : Nat} (hpc : c.loc t = .cpyLock role b)
    (hshares : Shares r (c.put t (c.sh.lockBucket t x, .cpySlot role x 0)))
    (hfree : c.sh.copiers x = []) :
    Fills r (c.put t (c.sh.lockBucket t x, .cpySlot role x 0)) := by
  have hcop : ∀ y, (c.sh.lockBucket t x).copiers y = if y = x then [t] else c.sh.copiers y := by
    intro y
    show Function.update c.sh.copiers x (t :: c.sh.copiers x) y = _
    rw [Function.update_apply, hfree]
  have happ : t ≠ r → Apart c.sh := by
    intro htr
    refine h.apart t ?_
    rw [hpc]
    cases role with
    | helper => rfl
    | resizer => exact absurd ((h.shares.resizer t).mp (by rw [hpc]; rfl)) htr
  refine ⟨hshares, h.oldPos, h.newPos, fun u => ?_, fun y u hy hur => ?_, fun u y i => ?_,
    fun y hy hno => ?_, fun y hy => ?_, fun u y i key val => ?_, fun u => ?_, h.content, h.hashed,
    fun B u hu => ?_⟩
  · rw [put_loc]
    split
    · intro hr
      refine happ fun htr => ?_
      have hres := (h.shares.resizer t).mpr htr
      rw [hpc] at hres
      exact absurd (hr.symm.trans hres) nofun
    · exact h.apart u
  · rw [put_sh, hcop] at hy
    split at hy
    · obtain rfl := List.mem_singleton.mp hy
      exact happ hur
    · exact h.apart' y u hy hur
  · rw [put_loc]
    split
    · intro hs
      cases hs
      exact h.none x hfree
    · exact h.index u y i
  · by_cases hyx : y = x
    · have hnot := hno t 0
      rw [put_loc_self, hyx] at hnot
      exact absurd rfl hnot
    · rw [put_sh, hcop, if_neg hyx] at hy
      refine h.whole y hy fun u i hu => ?_
      have hut : u ≠ t := by
        rintro rfl
        rw [hpc] at hu
        cases hu
      have hnot := hno u i
      rw [put_loc_ne c _ hut] at hnot
      exact hnot hu
  · rw [put_sh, hcop] at hy
    split at hy
    · cases hy
    · exact h.none y hy
  · rw [put_loc]
    split
    · exact nofun
    · exact h.entry u y i key val
  · rw [put_loc]
    split
    · trivial
    · exact h.vacant u
  · obtain ⟨y, hy, hcu, hs⟩ := h.fed B u hu
    refine ⟨y, hy, ?_, hs⟩
    rw [put_sh, hcop, if_neg]
    · exact hcu
    · rintro rfl
      rw [hfree] at hcu
      cases hcu

omit [DecidableEq Tid] in
/-- A thread that helps does so in a table whose buckets are apart. -/
theorem role_apart (h : Fills r c) {pc' : Pc} (hrole : pc'.role = (c.loc t).role) :
    pc'.role = some .helper → Apart c.sh := fun hr => h.apart t (hrole ▸ hr)

omit [DecidableEq Tid] in
/-- The chains of the other threads, when a thread writes to its own one. -/
theorem frame (h : Fills r c) {sh' : Shared Tid} {b i : Nat} {key : Addr} {val : Val}
    {ch : Chain Addr Val} (ht : (c.loc t).entry = some (b, i, key, val))
    (htable : sh'.new.table = Function.update c.sh.new.table (c.sh.bin key) ch)
    (hnew : sh'.new.numBuckets = c.sh.new.numBuckets) {u : Tid} (hut : u ≠ t) {b' i' : Nat}
    {key' : Addr} {val' : Val} (hu : (c.loc u).entry = some (b', i', key', val')) :
    sh'.chain key' = c.sh.chain key' := by
  have hbin : sh'.bin key' = c.sh.bin key' := congrFun (clhtLpHash_congr hnew) key'
  unfold Shared.chain
  rw [hbin, htable, Function.update_of_ne (h.bin_ne hut ht hu)]

/-- A write to the chain of a thread that adds no entry. -/
theorem write (h : Fills r c) {sh' : Shared Tid} {pc' : Pc} {b i : Nat} {key : Addr} {val : Val}
    {ch : Chain Addr Val} (hshares : Shares r (c.put t (sh', pc')))
    (ht : (c.loc t).entry = some (b, i, key, val)) (ht' : pc'.entry = some (b, i, key, val))
    (hrole : pc'.role = (c.loc t).role) (hold : sh'.old = c.sh.old)
    (hcopiers : sh'.copiers = c.sh.copiers) (hcopied : sh'.copied = c.sh.copied)
    (hfed : sh'.fed = c.sh.fed)
    (htable : sh'.new.table = Function.update c.sh.new.table (c.sh.bin key) ch)
    (hnew : sh'.new.numBuckets = c.sh.new.numBuckets)
    (hentries : entries ch = entries (c.sh.chain key)) (hvacant : Vacant sh' pc') :
    Fills r (c.put t (sh', pc')) := by
  have hslot := slot_of_entry ht
  have hslot' := slot_of_entry ht'
  have hlt : c.sh.bin key < c.sh.new.numBuckets := clhtLpHash_lt h.newPos key
  refine h.put hshares (by rw [hold]) (by rw [hold]) hnew hcopiers (h.role_apart hrole)
    (fun b _ => by rw [hcopied]) (fun b₁ i₁ hs => ?_) (fun b₁ i₁ _ hs => ?_)
    (fun b₁ i₁ key₁ val₁ he => ?_) hvacant (fun u hut _ _ _ _ hu => h.frame ht htable hnew hut hu)
    ?_ ?_ (fun B u hu => Or.inl (by rw [hfed] at hu; exact hu))
  · rw [hslot'] at hs
    cases hs
    rw [hcopied]
    exact ⟨h.index t b i hslot, i, hslot⟩
  · rw [hslot'] at hs
    cases hs
  · rw [ht'] at he
    cases he
    exact h.entry t b i key val ht
  · rw [hnew, htable, hcopied]
    refine Eq.trans ?_ h.content
    have hupdate := content_update c.sh.new.table ch hlt
    rw [hentries] at hupdate
    exact add_right_cancel hupdate
  · rw [hnew, htable]
    refine h.hashed.update fun k v hmem => ?_
    rw [hentries] at hmem
    exact h.hashed _ hlt k v hmem

omit [DecidableEq Tid] in
/-- One more slot of a bucket. -/
theorem content_count (h : Fills r c) {b i : Nat} {s : Slot Addr Val}
    (hslot : (c.loc t).slot = some (b, i)) (hs : (c.sh.old.table b)[i]? = some s) :
    SlotTable.content c.sh.old.numBuckets
      (fun x => (c.sh.old.table x).take (Function.update c.sh.copied b (c.sh.copied b + 1) x))
      = SlotTable.content c.sh.old.numBuckets
        (fun x => (c.sh.old.table x).take (c.sh.copied x)) + s.entry := by
  have hlt := (h.shares.copying t b i hslot).2
  have hidx := h.index t b i hslot
  have hfun :
      (fun x => (c.sh.old.table x).take (Function.update c.sh.copied b (c.sh.copied b + 1) x))
      = Function.update (fun x => (c.sh.old.table x).take (c.sh.copied x)) b
        ((c.sh.old.table b).take (c.sh.copied b) ++ [s]) := by
    funext x
    by_cases hx : x = b
    · subst hx
      rw [Function.update_self, Function.update_self, hidx, List.take_add_one, hs]
      rfl
    · rw [Function.update_of_ne hx, Function.update_of_ne hx]
  rw [hfun]
  have hupdate := content_update (fun x => (c.sh.old.table x).take (c.sh.copied x))
    ((c.sh.old.table b).take (c.sh.copied b) ++ [s]) hlt
  rw [entries_append] at hupdate
  have hone : entries [s] = s.entry := by
    rw [entries_cons, entries_nil, add_zero]
  rw [hone, add_comm (entries _) s.entry, ← add_assoc] at hupdate
  exact add_right_cancel hupdate

/-- A vacant slot is passed over. -/
theorem skip (h : Fills r c) {role : Role} {b i : Nat} {s : Slot Addr Val}
    (hpc : c.loc t = .cpySlot role b i)
    (hshares : Shares r (c.put t (c.sh.count b, .cpySlot role b (i + 1))))
    (hs : (c.sh.old.table b)[i]? = some s) (hkey : s.key = 0) :
    Fills r (c.put t (c.sh.count b, .cpySlot role b (i + 1))) := by
  have hslot : (c.loc t).slot = some (b, i) := by rw [hpc]; rfl
  refine h.put hshares rfl rfl rfl rfl (h.role_apart (by rw [hpc]; rfl)) (fun x hx => ?_)
    (fun x k hk => ?_) nofun nofun trivial (fun _ _ _ _ _ _ _ => rfl) ?_ h.hashed
    (fun _ _ hu => Or.inl hu)
  · refine Function.update_of_ne ?_ ..
    rintro rfl
    exact hx i hslot
  · cases hk
    refine ⟨?_, i, hslot⟩
    show Function.update c.sh.copied b (c.sh.copied b + 1) b = i + 1
    rw [Function.update_self, h.index t b i hslot]
  · refine h.content.trans ?_
    have hcount := h.content_count hslot hs
    rw [Slot.entry_of_vacant hkey, add_zero] at hcount
    exact hcount.symm

/-- An entry is inserted: its key is stored. -/
theorem insert (h : Fills r c) {role : Role} {b i j : Nat} {key : Addr} {val : Val}
    (hpc : c.loc t = .putKey role b i key val j) {sh' : Shared Tid}
    (hsh : sh' = { (c.sh.setNew (c.sh.bin key) ((c.sh.chain key).set j ⟨key, val⟩)).count b with
      fed := Function.update c.sh.fed (c.sh.bin key) (t :: c.sh.fed (c.sh.bin key)) })
    (hshares : Shares r (c.put t (sh', .cpySlot role b (i + 1)))) :
    Fills r (c.put t (sh', .cpySlot role b (i + 1))) := by
  have hent : (c.loc t).entry = some (b, i, key, val) := by rw [hpc]; rfl
  have hslot := slot_of_entry hent
  obtain ⟨hkey, hs⟩ := h.entry t b i key val hent
  have hvac := h.vacant t
  rw [hpc] at hvac
  have hlt : c.sh.bin key < c.sh.new.numBuckets := clhtLpHash_lt h.newPos key
  have hfill := entries_fill val hkey hvac rfl
  have htable : sh'.new.table = Function.update c.sh.new.table (c.sh.bin key)
      ((c.sh.chain key).set j ⟨key, val⟩) := by rw [hsh]; rfl
  have hnum : sh'.new.numBuckets = c.sh.new.numBuckets := by rw [hsh]; rfl
  have hframe : ∀ u, u ≠ t → ∀ b i key' val, (c.loc u).entry = some (b, i, key', val) →
      sh'.chain key' = c.sh.chain key' :=
    fun u hut _ _ _ _ hu => h.frame hent htable hnum hut hu
  subst hsh
  refine h.put hshares rfl rfl rfl rfl (h.role_apart (by rw [hpc]; rfl)) (fun x hx => ?_)
    (fun x k hk => ?_) nofun nofun trivial hframe ?_ ?_ (fun B u hu => ?_)
  · refine Function.update_of_ne ?_ ..
    rintro rfl
    exact hx i hslot
  · cases hk
    refine ⟨?_, i, hslot⟩
    show Function.update c.sh.copied b (c.sh.copied b + 1) b = i + 1
    rw [Function.update_self, h.index t b i hslot]
  · refine (content_insert hlt hfill).trans ?_
    rw [h.content]
    refine Eq.trans ?_ (h.content_count hslot hs).symm
    rw [Slot.entry_of_occupied hkey, add_comm, Multiset.singleton_add]
  · refine h.hashed.update fun k v hmem => ?_
    rw [hfill] at hmem
    rcases Multiset.mem_cons.mp hmem with heq | hmem
    · cases heq
      rfl
    · exact h.hashed _ hlt k v hmem
  · change u ∈ Function.update c.sh.fed (c.sh.bin key) (t :: c.sh.fed (c.sh.bin key)) B at hu
    rw [Function.update_apply] at hu
    split at hu
    · next hB =>
      rcases List.mem_cons.mp hu with rfl | hu
      · obtain ⟨hcop, hb⟩ := h.shares.copying u b i hslot
        exact Or.inr ⟨b, hb, hcop, ⟨key, val⟩, List.mem_of_getElem? hs, hkey, hB.symm⟩
      · exact Or.inl (hB ▸ hu)
    · exact Or.inl hu

/-- **Step lemma.** -/
theorem step (h : Fills r c) {a : Act} {x : Shared Tid × Pc} (hok : sound c t a)
    (hs : prog t c.sh (c.loc t) a = some x) : Fills r (c.put t x) := by
  have hshares := h.shares.step h.oldPos hok hs
  unfold prog at hs
  split at hs
  · rename_i b hpc
    obtain ⟨-, hx⟩ := Option.ite_none_right_eq_some.mp hs
    obtain rfl := Option.some.inj hx
    exact h.quiet hshares rfl rfl rfl rfl rfl nofun rfl (by rw [hpc]; exact nofun)
  · generalize hpc : c.loc t = pc at hs
    cases pc with
    | outside | resized | helped => cases hs
    | cpyLock role b =>
        have hstop : Shares r (c.put t (c.sh, role.stop)) →
            Fills r (c.put t (c.sh, role.stop)) := by
          intro hsh
          refine h.quiet hsh rfl rfl rfl rfl rfl (fun hr => h.apart t ?_) ?_
            (by rw [hpc]; exact nofun)
          · rw [hpc]
            cases role with
            | helper => rfl
            | resizer => cases hr
          · cases role <;> rfl
        dsimp only [go] at hs
        split at hs
        · obtain rfl := Option.some.inj hs
          exact hstop hshares
        · next b' hb' =>
          split at hs <;> rename_i hlock <;> obtain rfl := Option.some.inj hs
          · -- the bucket was free, so nobody has locked it for copying
            refine h.lockBucket hpc hshares ?_
            by_contra hne
            rw [h.shares.lock b', if_neg hne] at hlock
            cases hlock
          · rw [h.shares.lock b'] at hlock
            split at hlock <;> cases hlock
          · exact hstop hshares
    | cpySlot role b i =>
        have hslot : (c.loc t).slot = some (b, i) := by rw [hpc]; rfl
        dsimp only [go] at hs
        split at hs
        · next s hget =>
          split at hs <;> rename_i hkey <;> obtain rfl := Option.some.inj hs
          · exact h.skip hpc hshares hget hkey
          · refine h.put hshares rfl rfl rfl rfl (h.role_apart (by rw [hpc]; rfl)) (fun _ _ => rfl)
              (fun b' i' hb' => ?_) nofun (fun b' i' key val he => ?_) (Nat.zero_le _)
              (fun _ _ _ _ _ _ _ => rfl) h.content h.hashed (fun _ _ hu => Or.inl hu)
            · cases hb'
              exact ⟨h.index t b i hslot, i, hslot⟩
            · cases he
              exact ⟨hkey, hget⟩
        · next hget =>
          obtain rfl := Option.some.inj hs
          refine h.quiet hshares rfl rfl rfl rfl rfl (h.role_apart (by rw [hpc]; rfl)) rfl
            (fun b' i' hb' => ?_)
          rw [hslot] at hb'
          cases hb'
          exact List.getElem?_eq_none_iff.mp hget
    | putSeek role b i key val j =>
        have hent : (c.loc t).entry = some (b, i, key, val) := by rw [hpc]; rfl
        have hvac := h.vacant t
        rw [hpc] at hvac
        dsimp only [go] at hs
        split at hs
        · next s hget =>
          obtain rfl := Option.some.inj hs
          have hsame : Function.update c.sh.new.table (c.sh.bin key) (c.sh.chain key)
              = c.sh.new.table := Function.update_eq_self ..
          split <;> rename_i hkey
          · rw [if_pos hkey] at hshares
            refine h.write hshares hent rfl (by rw [hpc]; rfl) rfl rfl rfl rfl hsame.symm rfl rfl
              ⟨s.val, ?_⟩
            rw [hget, ← hkey]
          · rw [if_neg hkey] at hshares
            exact h.write hshares hent rfl (by rw [hpc]; rfl) rfl rfl rfl rfl hsame.symm rfl rfl
              (List.getElem?_eq_some_iff.mp hget).1
        · next hget =>
          obtain rfl := Option.some.inj hs
          -- the chain is full: a bucket is appended, and its first slot is vacant
          have hlen : j = (c.sh.chain key).length :=
            Nat.le_antisymm hvac (List.getElem?_eq_none_iff.mp hget)
          refine h.write hshares hent rfl (by rw [hpc]; rfl) rfl rfl rfl rfl rfl rfl ?_ ⟨0, ?_⟩
          · rw [entries_append, entries_emptyBucket, add_zero]
          · have hfirst : (c.sh.chain key ++ emptyBucket)[j]? = some ⟨0, 0⟩ := by
              rw [hlen, List.getElem?_append_right le_rfl, Nat.sub_self]
              rfl
            show (Function.update c.sh.new.table (c.sh.bin key) (c.sh.chain key ++ emptyBucket)
              (c.sh.bin key))[j]? = _
            rw [Function.update_self]
            exact hfirst
    | putVal role b i key val j =>
        have hent : (c.loc t).entry = some (b, i, key, val) := by rw [hpc]; rfl
        have hvac := h.vacant t
        rw [hpc] at hvac
        obtain ⟨v, hv⟩ := hvac
        dsimp only [go] at hs
        rw [hv] at hs
        obtain rfl := Option.some.inj hs
        -- a value without a key is no entry yet
        refine h.write hshares hent rfl (by rw [hpc]; rfl) rfl rfl rfl rfl rfl rfl ?_ ?_
        · have hset := entries_set ⟨0, val⟩ hv
          rw [Slot.entry_of_vacant rfl, Slot.entry_of_vacant rfl] at hset
          exact add_right_cancel hset
        · show (Function.update c.sh.new.table (c.sh.bin key) _ (c.sh.bin key))[j]? = _
          rw [Function.update_self, List.getElem?_set_self (List.getElem?_eq_some_iff.mp hv).1]
    | putKey role b i key val j =>
        have hvac := h.vacant t
        rw [hpc] at hvac
        dsimp only [go] at hs
        rw [show (c.sh.chain key)[j]? = some ⟨0, val⟩ from hvac] at hs
        obtain rfl := Option.some.inj hs
        exact h.insert hpc rfl hshares
    | checkHelper | waitHelper =>
        obtain rfl := Option.some.inj hs
        refine h.quiet hshares rfl rfl rfl rfl rfl (fun hr => ?_) ?_ (by rw [hpc]; exact nofun)
        · split at hr <;> cases hr
        · split <;> rfl
    | swap | setDone =>
        obtain rfl := Option.some.inj hs
        exact h.quiet hshares rfl rfl rfl rfl rfl nofun rfl (by rw [hpc]; exact nofun)
    | fad =>
        obtain rfl := Option.some.inj hs
        unfold sound at hok
        rw [hpc] at hok
        refine h.quiet hshares rfl rfl rfl rfl rfl (fun hr => ?_) ?_ (by rw [hpc]; exact nofun)
        · split at hr
          · cases hr
          · next hlt => exact hok.2 (Int.not_le.mp hlt)
        · split <;> rfl
  · cases hs

/-- **Run lemma.** -/
theorem reach {c₀ : Conf Tid (Shared Tid) Pc} (h0 : Init r c₀)
    (hsmall : c₀.sh.old.numBuckets ≤ 2 ^ 31) (hc : Reach prog sound (· = c₀) c) : Fills r c :=
  hc.invariant (fun _ heq => heq ▸ h0.fills hsmall) fun _ _ _ _ h hok hs => h.step hok hs

end Fills

/-- The properties of a cooperative resize. -/
structure Cooperates (c : Conf Tid (Shared Tid) Pc) : Prop where
  /-- A bucket is copied by at most one thread. -/
  once : ∀ b, (c.sh.copiers b).length ≤ 1
  /-- Before the new table is published, every bucket is copied. -/
  all : c.sh.published = true → ∀ b < c.sh.old.numBuckets, ∃ t, c.sh.copiers b = [t]
  /-- Two threads do not insert into one bucket. -/
  apart : ∀ b, ∀ t ∈ c.sh.fed b, ∀ u ∈ c.sh.fed b, t = u
  /-- An entry is in the bucket of its key, and the new table has the entries of the old one,
      each as often. -/
  hashed : Hashed (clhtLpHash c.sh.new) c.sh.new.numBuckets c.sh.new.table
  content : c.sh.published = true → c.sh.new.content = c.sh.old.content
  /-- Nobody copies any more when the new table is published. -/
  done : c.sh.published = true → ∀ t, (c.loc t).slot = none

/-- The invariant gives the property of the resize. -/
theorem Fills.cooperates {r : Tid} {c : Conf Tid (Shared Tid) Pc} (h : Fills r c) :
    Cooperates c where
  once := h.shares.one
  all := by
    intro hp b hb
    refine h.shares.copier (h.shares.passed r b hb ?_)
    rw [h.shares.published hp]
    trivial
  apart := by
    intro B t ht u hu
    obtain ⟨b, hb, hcop, s, hs, hkey, hbin⟩ := h.fed B t ht
    obtain ⟨b', hb', hcop', s', hs', hkey', hbin'⟩ := h.fed B u hu
    by_contra hne
    -- one of the two is the helper
    have hapart : Apart c.sh := by
      by_cases htr : t = r
      · refine h.apart' b' u (by rw [hcop']; exact List.mem_singleton_self _) ?_
        rintro rfl
        exact hne htr
      · exact h.apart' b t (by rw [hcop]; exact List.mem_singleton_self _) htr
    obtain rfl := hapart b hb b' hb' s hs s' hs' hkey hkey' (hbin.trans hbin'.symm)
    rw [hcop] at hcop'
    exact hne (List.singleton_injective hcop')
  hashed := h.hashed
  content := by
    intro hp
    have hr := h.shares.published hp
    have hquiet := h.shares.alone (by rw [hr]; rfl)
    refine h.content.trans (Finset.sum_congr rfl fun b hb => ?_)
    have hcop := h.shares.passed r b (Finset.mem_range.mp hb) (by rw [hr]; trivial)
    have hlen := h.whole b hcop fun t i ht => by rw [hquiet t] at ht; cases ht
    exact congrArg entries (List.take_of_length_le hlen)
  done := fun hp => h.shares.alone (by rw [h.shares.published hp]; rfl)

/-- **The helper and the resizer cooperate**, for every table of at most `2 ^ 31` buckets and
    any number of threads that enter `ht_resize_help`: every bucket is copied by one of them,
    they do not insert into the same bucket, and the new table, with every entry of the old one
    in its bucket, is published when nobody copies any more; as long as the steps are `sound`. -/
theorem htResizeHelp_cooperates [DecidableEq Tid] {r : Tid} {c₀ c : Conf Tid (Shared Tid) Pc}
    (h0 : Init r c₀) (hsmall : c₀.sh.old.numBuckets ≤ 2 ^ 31)
    (hc : Reach prog sound (· = c₀) c) : Cooperates c := (Fills.reach h0 hsmall hc).cooperates

/-- With powers of two as numbers of buckets, a bucket of the new table has the entries of one
    bucket of the old one. -/
theorem apart_of_two_pow {sh : Shared Tid} {k m : Nat} (hold : sh.old.numBuckets = 2 ^ k)
    (hnew : sh.new.numBuckets = 2 ^ (k + m))
    (hhashed : ∀ b < sh.old.numBuckets, ∀ s ∈ sh.old.table b, s.key ≠ 0 →
      clhtLpHash sh.old s.key = b) : Apart sh := by
  have hbin : ∀ key, clhtLpHash sh.old key = sh.bin key % 2 ^ k := by
    intro key
    unfold Shared.bin clhtLpHash
    rw [hold, hnew, Nat.and_two_pow_sub_one_eq_mod, Nat.and_two_pow_sub_one_eq_mod,
      Nat.mod_mod_of_dvd _ (Nat.pow_dvd_pow 2 (Nat.le_add_right k m))]
  intro b hb b' hb' s hs s' hs' hkey hkey' heq
  rw [← hhashed b hb s hs hkey, ← hhashed b' hb' s' hs' hkey', hbin, hbin, heq]

/-! ### Schedules -/

instance (sh : Shared Tid) : Decidable (Apart sh) := by
  unfold Apart
  infer_instance

instance (c : Conf Tid (Shared Tid) Pc) (t : Tid) (a : Act) : Decidable (sound c t a) := by
  unfold sound
  split <;> infer_instance

/-- A table of `n` buckets, and thread 0 about to copy it to one of `2 * n` buckets. -/
def start (n : Nat) (table : Nat → Chain Addr Val) : Conf (Fin 2) (Shared (Fin 2)) Pc where
  sh := {
    old := ⟨n, table, fun _ => .free, 0, none, none, 0, threshold n⟩
    new := ⟨2 * n, fun _ => emptyBucket, fun _ => .free, 1, none, none, 0, threshold (2 * n)⟩
    isHelper := 1
    helperDone := false
    published := false
    arrivals := 0
    copiers := fun _ => []
    fed := fun _ => []
    copied := fun _ => 0 }
  loc t := if t = 0 then .cpyLock .resizer 0 else .outside

theorem start_init {n : Nat} {table : Nat → Chain Addr Val} (hpos : 0 < n) (hn : n < 2 ^ 31) :
    Init 0 (start n table) where
  lock _ := rfl
  new := by
    have hnum : numBucketsNew n true 2 = 2 * n := by
      unfold numBucketsNew
      rw [if_pos rfl]
      omega
    refine ⟨2, ⟨2 * n, fun _ => emptyBucket, fun _ => .free, 0, none, none, 0, threshold (2 * n)⟩,
      ?_, rfl⟩
    show clhtLpHashtableCreate (numBucketsNew n true 2) = _
    rw [hnum, clhtLpHashtableCreate, if_neg (by omega)]
  isHelper := rfl
  helperDone := rfl
  published := rfl
  arrivals := rfl
  copiers _ := rfl
  fed _ := rfl
  copied _ := rfl
  resizer := rfl
  outside _ ht := if_neg ht

/-- Two keys in different buckets. -/
def two (b b' : Nat) (key key' : Addr) : Nat → Chain Addr Val := fun x =>
  if x = b then [⟨key, 1⟩] else if x = b' then [⟨key', 2⟩] else []

/-- Thread 1 helps as soon as thread 0 has locked the first bucket, and locks the last one. -/
def meet : List (Fin 2 × Act) := [(0, .go), (1, .help 0), (1, .go), (1, .go)]

/-- They copy one entry each, and thread 0 publishes the table. -/
def shared : List (Fin 2 × Act) :=
  meet ++ List.replicate 6 (0, .go) ++ List.replicate 7 (1, .go) ++ List.replicate 3 (0, .go)

theorem htResizeHelp_cooperates_two : ∃ c : Conf (Fin 2) (Shared (Fin 2)) Pc,
    exec prog sound (start 2 (two 0 1 8 4)) shared = some c ∧ c.sh.published = true ∧
      c.sh.copiers 0 = [0] ∧ c.sh.copiers 1 = [1] ∧ Cooperates c := by
  have hrun : (exec prog sound (start 2 (two 0 1 8 4)) shared).map
      (fun c => (c.sh.published, c.sh.copiers 0, c.sh.copiers 1)) = some (true, [0], [1]) := by
    decide +kernel
  obtain ⟨c, hc, hval⟩ := Option.map_eq_some_iff.mp hrun
  obtain ⟨hp, h0, h1⟩ : c.sh.published = true ∧ c.sh.copiers 0 = [0] ∧ c.sh.copiers 1 = [1] := by
    simpa only [Prod.mk.injEq] using hval
  exact ⟨c, hc, hp, h0, h1, htResizeHelp_cooperates (start_init (by decide) (by decide))
    (by decide) (reach_of_exec rfl hc)⟩

/-- Both have seen that the first slot of a bucket of the new table is vacant, and fill it. -/
def clash : List (Fin 2 × Act) :=
  meet ++ List.replicate 2 (1, .go) ++ List.replicate 4 (0, .go) ++ List.replicate 2 (1, .go)

/-- **Both insert into one bucket**, and one of the two entries is lost, when the buckets of
    the old table are 3, of which 0 and 2 have an entry for bucket 0 of the new one. -/
theorem htResizeHelp_clash : ¬ ∀ c₀ c : Conf (Fin 2) (Shared (Fin 2)) Pc, Init 0 c₀ →
    Reach prog always (· = c₀) c → Cooperates c := by
  intro h
  have hrun : (exec prog always (start 3 (two 0 2 32 8)) clash).map (fun c => c.sh.fed 0)
      = some [1, 0] := by decide +kernel
  obtain ⟨c, hc, hfed⟩ := Option.map_eq_some_iff.mp hrun
  have hapart := (h _ c (start_init (by decide) (by decide)) (reach_of_exec rfl hc)).apart 0
  rw [hfed] at hapart
  exact absurd (hapart 1 (by decide) 0 (by decide)) (by decide)

end ClhtLpHelp
