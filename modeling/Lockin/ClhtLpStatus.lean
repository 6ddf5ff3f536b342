import Mathlib.Data.Nat.Size
import Lockin.ClhtLpMap

/-! # Resizes that follow one another

    `ht_resize_pes` calls `ht_status` again when the new table has reached its threshold, which
    counts the overflow buckets that the copying has opened.  Each of them is paid for by three
    entries, and from the second resize on the table at least doubles, so this comes to an end.

    The counters are 32 bits wide; the results are for tables that do not come near that. -/

namespace ClhtLp

open SlotTable

/-! ## `pow2roundup` -/

/-- `x |= x >> k`. -/
def smear (k x : Nat) : Nat := x ||| x >>> k

theorem testBit_smear (k x i : Nat) :
    (smear k x).testBit i = (x.testBit i || x.testBit (i + k)) := by
  rw [smear, Nat.testBit_or, Nat.testBit_shiftRight, Nat.add_comm k i]

/-- Every bit of `y` says whether one of the `w` bits of `x` from there on is set. -/
def Smeared (w x y : Nat) : Prop := ∀ i, y.testBit i = true ↔ ∃ j < w, x.testBit (i + j) = true

theorem Smeared.refl (x : Nat) : Smeared 1 x x := by
  intro i
  constructor
  · intro hi
    exact ⟨0, Nat.one_pos, hi⟩
  · rintro ⟨j, hj, hi⟩
    obtain rfl : j = 0 := by omega
    exact hi

theorem Smeared.double {w x y : Nat} (h : Smeared w x y) : Smeared (w + w) x (smear w y) := by
  intro i
  rw [testBit_smear, Bool.or_eq_true, h i, h (i + w)]
  constructor
  · rintro (⟨j, hj, hi⟩ | ⟨j, hj, hi⟩)
    · exact ⟨j, by omega, hi⟩
    · exact ⟨w + j, by omega, by rwa [← Nat.add_assoc]⟩
  · rintro ⟨j, hj, hi⟩
    by_cases hlt : j < w
    · exact Or.inl ⟨j, hlt, hi⟩
    · refine Or.inr ⟨j - w, by omega, ?_⟩
      rwa [Nat.add_assoc, Nat.add_sub_cancel' (Nat.le_of_not_lt hlt)]

/-- All bits from the highest one down are set. -/
theorem Smeared.eq {x y : Nat} (h : Smeared 32 x y) (hx : x < 2 ^ 32) : y = 2 ^ x.size - 1 := by
  refine Nat.eq_of_testBit_eq fun i => ?_
  rw [Nat.testBit_two_pow_sub_one, Bool.eq_iff_iff, h i, decide_eq_true_iff, Nat.lt_size]
  constructor
  · rintro ⟨j, -, hi⟩
    exact (Nat.pow_le_pow_right Nat.two_pos (Nat.le_add_right i j)).trans
      (Nat.ge_two_pow_of_testBit hi)
  · intro hle
    obtain ⟨j, hj, hbit⟩ := Nat.exists_ge_and_testBit_of_ge_two_pow hle
    have hlt : j < 32 := by
      by_contra hge
      have := (Nat.pow_le_pow_right Nat.two_pos (Nat.le_of_not_lt hge)).trans
        (Nat.ge_two_pow_of_testBit hbit)
      omega
    exact ⟨j - i, by omega, by rwa [Nat.add_sub_cancel' hj]⟩

theorem toNat_smear (x : UInt32) {k : UInt32} (hk : k.toNat < 32) :
    (x ||| x >>> k).toNat = smear k.toNat x.toNat := by
  rw [UInt32.toNat_or, UInt32.toNat_shiftRight, Nat.mod_eq_of_lt hk, smear]

/-- `pow2roundup` as long as it does not wrap. -/
theorem pow2roundup_toNat {x : UInt32} (hpos : x ≠ 0) (hx : x.toNat ≤ 2 ^ 31) :
    (pow2roundup x).toNat = 2 ^ (x.toNat - 1).size := by
  have hone : 1 ≤ x.toNat := by
    rw [Nat.one_le_iff_ne_zero]
    exact fun h0 => hpos (UInt32.toNat_inj.mp h0)
  have hpred : (x - 1).toNat = x.toNat - 1 := UInt32.toNat_sub_of_le _ _ hone
  have hsmear : smear 16 (smear 8 (smear 4 (smear 2 (smear 1 (x.toNat - 1)))))
      = 2 ^ (x.toNat - 1).size - 1 :=
    (Smeared.refl _).double.double.double.double.double.eq (by omega)
  have hsize : (x.toNat - 1).size ≤ 31 := Nat.size_le.mpr (by omega)
  have hle : 2 ^ (x.toNat - 1).size ≤ 2 ^ 31 := Nat.pow_le_pow_right Nat.two_pos hsize
  unfold pow2roundup
  rw [if_neg hpos]
  dsimp only
  rw [UInt32.toNat_add, toNat_smear _ (k := 16) (by decide), toNat_smear _ (k := 8) (by decide),
    toNat_smear _ (k := 4) (by decide), toNat_smear _ (k := 2) (by decide),
    toNat_smear _ (k := 1) (by decide), hpred]
  show (smear 16 (smear 8 (smear 4 (smear 2 (smear 1 (x.toNat - 1))))) + 1) % 2 ^ 32 = _
  rw [hsmear]
  have hpow : 0 < 2 ^ (x.toNat - 1).size := Nat.two_pow_pos _
  rw [Nat.sub_add_cancel hpow, Nat.mod_eq_of_lt (by omega)]

/-- The factor of a growing resize is at least 2, and at most twice the quotient. -/
theorem incByPow2_bounds {n : Nat} (hn : n ≤ 2 ^ 30) :
    2 ≤ incByPow2 n ∧ incByPow2 n ≤ 2 * max 1 n := by
  by_cases h0 : n = 0
  · subst h0
    decide
  · have hof : (UInt32.ofNat n).toNat = n := by
      rw [UInt32.toNat_ofNat', Nat.mod_eq_of_lt (by omega)]
    have hne : UInt32.ofNat n ≠ 0 := fun h => h0 (by rw [← hof, h]; rfl)
    have hround := pow2roundup_toNat hne (by omega)
    rw [hof] at hround
    have hsize : (n - 1).size ≤ 30 := Nat.size_le.mpr (by omega)
    have hsmall : 2 ^ (n - 1).size ≤ 2 ^ 30 := Nat.pow_le_pow_right Nat.two_pos hsize
    -- far below `INT_MAX`, so the `int` is the `uint32_t`
    have hint : (pow2roundup (UInt32.ofNat n)).toBitVec.toInt = (2 ^ (n - 1).size : Nat) := by
      rw [BitVec.toInt_eq_toNat_of_lt, UInt32.toNat_toBitVec, hround]
      rw [UInt32.toNat_toBitVec, hround]
      omega
    unfold incByPow2
    dsimp only
    rw [hint]
    by_cases h1 : n = 1
    · subst h1
      decide
    · have hpos : 0 < (n - 1).size := Nat.size_pos.mpr (by omega)
      have hhalf : 2 ^ ((n - 1).size - 1) ≤ n - 1 := Nat.lt_size.mp (by omega)
      have hdouble : 2 ^ (n - 1).size = 2 * 2 ^ ((n - 1).size - 1) := by
        rw [← Nat.pow_succ', Nat.succ_eq_add_one, Nat.sub_add_cancel hpos]
      have htwo : 0 < 2 ^ ((n - 1).size - 1) := Nat.two_pow_pos _
      split <;> omega

/-! ## Requests for a new table -/

/-- The resizes after `h` have only asked for tables with buckets. -/
def NoEmpty (h h' : Clht) : Prop := ∀ l ∈ h'.out, l ∈ h.out ∨ l.2 ≠ 0

/-- `ht_status` comes back, and every table it has asked for has buckets. -/
def StatusFine (h : Clht) (resizeIncrease : Bool) : Prop :=
  ∃ fuel, (htStatus fuel h resizeIncrease).2.isSome ∧ NoEmpty h (htStatus fuel h resizeIncrease).1

/-- A resize that comes back has not been given `NULL`. -/
theorem htResizePes_noEmpty {st : Clht → Clht × Option Nat}
    (hst : ∀ g, (st g).2.isSome → NoEmpty g (st g).1) (h : Clht) (isIncrease : Bool) (by_ : Int)
    (hsome : (htResizePes st h isIncrease by_).2.isSome) :
    NoEmpty h (htResizePes st h isIncrease by_).1 := by
  have hline : ∀ {n : Nat} {T : Hashtable}, clhtLpHashtableCreate n = some T →
      ∀ l ∈ h.out ++ [(h.cur.numBuckets, n)], l ∈ h.out ∨ l.2 ≠ 0 := by
    intro n T hcreate l hl
    rcases List.mem_append.mp hl with hl | hl
    · exact Or.inl hl
    · obtain rfl := List.mem_singleton.mp hl
      refine Or.inr fun (h0 : n = 0) => ?_
      rw [clhtLpHashtableCreate, if_pos h0] at hcreate
      cases hcreate
  revert hsome
  unfold htResizePes
  dsimp only
  split
  · exact fun _ l hl => Or.inl hl
  · split
    · exact fun hnone => absurd hnone Bool.false_ne_true
    · next _ hcreate =>
      split
      · exact fun hnone => absurd hnone Bool.false_ne_true
      · next htOld htNew _ =>
        split
        · intro hsome l hl
          rcases hst _ (by simpa using hsome) l hl with hl | hne
          · exact hline hcreate l hl
          · exact Or.inr hne
        · exact fun _ l hl => hline hcreate l hl

theorem htStatus_noEmpty (fuel : Nat) (h : Clht) (r : Bool) (hsome : (htStatus fuel h r).2.isSome) :
    NoEmpty h (htStatus fuel h r).1 := by
  induction fuel generalizing h r with
  | zero => exact absurd hsome Bool.false_ne_true
  | succ fuel ih =>
      revert hsome
      unfold htStatus
      dsimp only
      split
      · exact fun _ l hl => Or.inl hl
      · split
        · exact fun _ l hl => Or.inl hl
        · next isIncrease by_ _ =>
          have hres := htResizePes_noEmpty (fun g => ih g true) { h with statusLock := true }
            isIncrease by_
          generalize htResizePes _ _ _ _ = res at hres ⊢
          obtain ⟨g, _ | _⟩ := res
          · exact fun hnone => absurd hnone Bool.false_ne_true
          · exact fun _ l hl => hres rfl l hl

theorem statusFine_iff {h : Clht} {r : Bool} :
    StatusFine h r ↔ ∃ fuel, (htStatus fuel h r).2.isSome :=
  ⟨fun ⟨fuel, hsome, _⟩ => ⟨fuel, hsome⟩,
    fun ⟨fuel, hsome⟩ => ⟨fuel, hsome, htStatus_noEmpty fuel h r hsome⟩⟩

/-! ## The chain of resizes -/

/-- Whether `ht_status` comes back is up to its resize. -/
theorem htStatus_isSome (fuel : Nat) {h : Clht} {r : Bool} (hs : h.statusLock = false ∨ r = true)
    {isIncrease : Bool} {by_ : Int}
    (hres : statusResize h.cur.numBuckets (clhtLpSize h.cur) (expandsMax h.cur) r
      = some (isIncrease, by_)) :
    (htStatus (fuel + 1) h r).2.isSome = (htResizePes (htStatus fuel · true)
      { h with statusLock := true } isIncrease by_).2.isSome := by
  obtain ⟨s, hrun⟩ := htStatus_resize fuel hs hres
  rw [hrun, Option.isSome_map]

/-- One resize: it goes on only if the new table has fewer buckets than a third of the
    entries. -/
theorem htResizePes_isSome {fuel : Nat} {h : Clht} (hi : Idle h) (hn : h.cur.numBuckets ≤ 2 ^ 31)
    {isIncrease : Bool} {by_ : Int} (hpos : 0 < numBucketsNew h.cur.numBuckets isIncrease by_)
    (hlt : numBucketsNew h.cur.numBuckets isIncrease by_ < 2 ^ 32)
    (hagain : ∀ g, Idle g → g.cur.numBuckets = numBucketsNew h.cur.numBuckets isIncrease by_ →
      g.cur.content.card = h.cur.content.card →
      3 * g.cur.numBuckets < g.cur.content.card → (htStatus fuel g true).2.isSome) :
    (htResizePes (htStatus fuel · true) h isIncrease by_).2.isSome := by
  obtain ⟨h', hi', -, hpacked, hcontent, hnum, hrun⟩ := htResizePes_swap hi hpos
  rw [hrun]
  split
  · next hthr =>
    have hcard : h'.cur.content.card = h.cur.content.card := by
      rw [hcontent, content_bucketsVisited hn]
    rw [hi'.wf.thresholdEq, hi'.wf.expands, hnum, threshold_of_lt hpos hlt] at hthr
    have hover : numBucketsNew h.cur.numBuckets isIncrease by_ ≤ h'.cur.overflow :=
      hthr.trans (Nat.mod_le _ _)
    have hpaid := hpacked.overflow_lt hi'.wf (hpos.trans_le hover)
    have hsome := hagain h' hi' hnum hcard (by omega)
    simpa using hsome
  · rfl

/-- What a growing `ht_status` asks for, as long as the counters do not wrap. -/
theorem statusResize_of_not_few {n size : Nat} (em : Nat) (r : Bool) (hn : n < 2 ^ 31)
    (hpos : 0 < n) (hsize : size ≤ 2 ^ 30) (hfew : ¬ (0 < size ∧ 100 * size < 15 * n)) :
    statusResize n size em r = none ∨ ∃ by_, statusResize n size em r = some (true, by_) ∧
      2 * n ≤ numBucketsNew n true by_ ∧ numBucketsNew n true by_ < 2 ^ 32 := by
  have hquot : 100 * size / (40 * (n * entriesPerBucket)) ≤ 2 ^ 30 := by
    refine Nat.div_le_of_le_mul ?_
    unfold entriesPerBucket
    omega
  have hroom : 100 * size / (40 * (n * entriesPerBucket)) * n ≤ 2 ^ 30 := by
    have hmul := Nat.div_mul_le_self (100 * size) (40 * (n * entriesPerBucket))
    unfold entriesPerBucket at hmul ⊢
    rw [show 40 * (n * 3) = 120 * n by omega] at hmul ⊢
    nlinarith
  obtain ⟨hlo, hhi⟩ := incByPow2_bounds hquot
  have hres : statusResize n size em r = none ∨ statusResize n size em r
      = some (true, incByPow2 (100 * size / (40 * (n * entriesPerBucket)))) := by
    unfold statusResize
    dsimp only
    rw [if_neg (by unfold entriesPerBucket; omega)]
    split
    · exact Or.inr rfl
    · exact Or.inl rfl
  refine hres.imp_right fun hres => ⟨_, hres, ?_⟩
  generalize 100 * size / (40 * (n * entriesPerBucket)) = q at hlo hhi hroom
  generalize incByPow2 q = p at hlo hhi
  unfold numBucketsNew
  rw [if_pos rfl]
  have hlo' : 2 * (n : Int) ≤ p * n := by nlinarith
  have hhi' : p * (n : Int) < 2 ^ 32 := by
    have hmul := mul_le_mul_of_nonneg_right hhi (Int.natCast_nonneg n)
    rcases Nat.le_total q 1 with hq | hq
    · rw [max_eq_left (by exact_mod_cast hq)] at hmul
      omega
    · have hroom' : (q * n : Int) ≤ 2 ^ 30 := by exact_mod_cast hroom
      rw [max_eq_right (by exact_mod_cast hq), mul_assoc] at hmul
      omega
  rw [Int.emod_eq_of_lt (by omega) (by omega)]
  omega

/-- What `ht_status` asks for when a put has called it. -/
theorem statusResize_of_put {n size : Nat} (em : Nat) (hn : 64 ≤ n) (hn' : n < 2 ^ 31)
    (hsize : size ≤ 2 ^ 34) : ∃ r by_, statusResize n size em true = some (r, by_) ∧
      0 < numBucketsNew n r by_ := by
  by_cases hfew : 0 < size ∧ 100 * size < 5 * (n * entriesPerBucket)
  · refine ⟨false, 33, if_pos hfew, ?_⟩
    show 0 < n / 8
    omega
  · have hquot : 100 * size / (40 * (n * entriesPerBucket)) ≤ 2 ^ 30 := by
      refine Nat.div_le_of_le_mul ?_
      unfold entriesPerBucket
      omega
    obtain ⟨hlow, hhigh⟩ := incByPow2_bounds hquot
    refine ⟨true, incByPow2 (100 * size / (40 * (n * entriesPerBucket))), ?_, ?_⟩
    · unfold statusResize
      rw [if_neg hfew, if_pos (Or.inr (Or.inr rfl))]
    · generalize incByPow2 (100 * size / (40 * (n * entriesPerBucket))) = p at hlow hhigh ⊢
      unfold numBucketsNew
      rw [if_pos rfl]
      have hmul : 0 < p * (n : Int) := Int.mul_pos (by omega) (by omega)
      have hlt : p * (n : Int) < 2 ^ 64 := by
        calc p * (n : Int) ≤ 2 ^ 31 * n := by
              refine mul_le_mul_of_nonneg_right ?_ (by omega)
              omega
          _ < 2 ^ 64 := by omega
      rw [Int.emod_eq_of_lt hmul.le hlt]
      omega

/-- The requests made for a table that has over three entries in a bucket: each doubles
    the buckets at least. -/
theorem htStatus_isSome_of_full (fuel : Nat) {h : Clht} (hi : Idle h)
    (hcard : h.cur.content.card ≤ 2 ^ 30)
    (hfull : 3 * h.cur.numBuckets < h.cur.content.card)
    (hfuel : h.cur.content.card ≤ h.cur.numBuckets * 2 ^ fuel) :
    (htStatus fuel h true).2.isSome := by
  induction fuel generalizing h with
  | zero => omega
  | succ fuel ih =>
      have hpos := hi.wf.pos
      have hsize := clhtLpSize_eq h.cur
      have hgrow := statusResize_of_not_few (expandsMax h.cur) true (by omega) hpos hcard
        (by omega)
      obtain ⟨by_, hres, hdouble, hlt⟩ := hgrow.resolve_left (statusResize_ne_none _ _ _)
      rw [htStatus_isSome fuel (Or.inr rfl) (hsize ▸ hres)]
      have hi' : Idle { h with statusLock := true } := ⟨hi.wf, hi.free, hi.resizeLock, hi.next⟩
      have hnew : 0 < numBucketsNew h.cur.numBuckets true by_ := by omega
      refine htResizePes_isSome hi' (show h.cur.numBuckets ≤ 2 ^ 31 by omega) hnew hlt ?_
      intro g hg hnum hsame hfull'
      change g.cur.numBuckets = numBucketsNew h.cur.numBuckets true by_ at hnum
      change g.cur.content.card = h.cur.content.card at hsame
      refine ih hg (by omega) hfull' ?_
      calc g.cur.content.card
          ≤ h.cur.numBuckets * 2 ^ (fuel + 1) := hsame ▸ hfuel
        _ = 2 * h.cur.numBuckets * 2 ^ fuel := by ring
        _ ≤ g.cur.numBuckets * 2 ^ fuel := Nat.mul_le_mul_right _ (hnum ▸ hdouble)

/-- The smallest table that is nearly empty: an eighth of its 7 buckets is none. -/
theorem statusResize_seven (em : Nat) (r : Bool) :
    statusResize 7 1 em r = some (false, 33) ∧ numBucketsNew 7 false 33 = 0 := by
  refine ⟨?_, rfl⟩
  unfold statusResize
  dsimp only
  rw [if_pos (by decide)]

theorem htResizePes_null (st : Clht → Clht × Option Nat) {h : Clht} {isIncrease : Bool} {by_ : Int}
    (hl : h.resizeLock = false) (hzero : numBucketsNew h.cur.numBuckets isIncrease by_ = 0) :
    (htResizePes st h isIncrease by_).2 = none := by
  unfold htResizePes
  simp only [hl, Bool.false_eq_true, if_false, hzero]
  rfl

/-- Its resize asks for no bucket and follows `NULL`. -/
theorem htStatus_seven (fuel : Nat) {h : Clht} {r : Bool}
    (hs : h.statusLock = false ∨ r = true) (hl : h.resizeLock = false)
    (hn : h.cur.numBuckets = 7) (hcard : h.cur.content.card = 1) :
    (htStatus (fuel + 1) h r).2 = none ∧ (7, 0) ∈ (htStatus (fuel + 1) h r).1.out := by
  have hres : statusResize h.cur.numBuckets (clhtLpSize h.cur) (expandsMax h.cur) r
      = some (false, 33) := by
    rw [clhtLpSize_eq, hn, hcard]
    exact (statusResize_seven _ r).1
  have hzero : numBucketsNew h.cur.numBuckets false 33 = 0 := by
    rw [hn]
    rfl
  obtain ⟨s, hrun⟩ := htStatus_resize fuel hs hres
  have hline := (htResizePes_out (fun g => htStatus_out fuel g true)
    { h with statusLock := true } false 33).2 hl
  have hnull := htResizePes_null (htStatus fuel · true) (h := { h with statusLock := true })
    hl hzero
  rw [hrun, hnull]
  refine ⟨rfl, ?_⟩
  change (h.cur.numBuckets, numBucketsNew h.cur.numBuckets false 33) ∈ _ at hline
  rwa [hzero, hn] at hline

/-- A short run of calls without a resize leaves a table that `ht_status` may be called on. -/
theorem idle_of_calls (cs : List Call) (rs : List Ret) {numBuckets n m : Nat}
    (hcalls : ((clhtLpCreate numBuckets).bind fun h => callAll 40 h cs).map (fun x =>
      (x.1.map Prod.snd, x.2.out, x.2.statusLock, x.2.cur.numBuckets, clhtLpSize x.2.cur))
        = some (rs, [], false, n, m)) :
    ∃ tr h, Calls 40 numBuckets tr h ∧ tr.map Prod.snd = rs ∧ Idle h ∧ h.statusLock = false ∧
      h.cur.numBuckets = n ∧ h.cur.content.card = m := by
  obtain ⟨⟨tr, h⟩, hx, heq⟩ := Option.map_eq_some_iff.mp hcalls
  obtain ⟨h0, hcreate, hall⟩ := Option.bind_eq_some_iff.mp hx
  obtain ⟨hrs, heq⟩ := Prod.mk.inj heq
  obtain ⟨hout, heq⟩ := Prod.mk.inj heq
  obtain ⟨hs, heq⟩ := Prod.mk.inj heq
  obtain ⟨hn, hm⟩ := Prod.mk.inj heq
  have hreach : Calls 40 numBuckets tr h := (Calls.create hcreate).callAll hall
  have hfits : Fits h := by
    intro l hl
    rw [show h.out = [] from hout] at hl
    exact absurd hl List.not_mem_nil
  obtain ⟨d, -, hrep⟩ := hreach.rep le_rfl hfits
  exact ⟨tr, h, hreach, hrs, hrep.toIdle, hs, hn, (clhtLpSize_eq h.cur).symm.trans hm⟩

/-- What `ht_status` decides: the new number of buckets, or to leave the table. -/
def decision (h : Clht) (r : Bool) : Option (Bool × Int) :=
  statusResize h.cur.numBuckets h.cur.content.card (expandsMax h.cur) r

/-- A table with few entries is to shrink. -/
theorem decision_few {h : Clht} (hpos : 0 < h.cur.content.card)
    (hfew : 100 * h.cur.content.card < 15 * h.cur.numBuckets) (r : Bool) :
    decision h r = some (false, 33) := by
  unfold decision statusResize entriesPerBucket
  dsimp only
  rw [if_pos ⟨hpos, by omega⟩]

/-- A table that is left alone. -/
theorem htStatus_isSome_of_none {h : Clht} {r : Bool} (hs : h.statusLock = false)
    (hnone : decision h r = none) (fuel : Nat) : (htStatus (fuel + 1) h r).2.isSome := by
  have hgo : ¬ (h.statusLock = true ∧ (!r) = true) := by simp [hs]
  have hres : statusResize h.cur.numBuckets (clhtLpSize h.cur) (expandsMax h.cur) r = none := by
    rw [clhtLpSize_eq h.cur]
    exact hnone
  rw [htStatus]
  simp only [if_neg hgo, hres]
  rfl

/-- **`ht_status` comes back without asking for an empty table**, whatever the keys collide
    in, exactly if it does not find a single entry in 7 buckets.  The table is one on which no
    counter comes round, or one that `ht_status` leaves alone. -/
theorem htStatus_fine {h : Clht} (hi : Idle h) (hs : h.statusLock = false) (r : Bool)
    (hrange : h.cur.numBuckets < 2 ^ 31 ∧ h.cur.content.card ≤ 2 ^ 30 ∨ decision h r = none) :
    StatusFine h r ↔ ¬ (h.cur.numBuckets = 7 ∧ h.cur.content.card = 1) := by
  rw [statusFine_iff]
  constructor
  · rintro ⟨fuel, hsome⟩ ⟨h7, h1⟩
    cases fuel with
    | zero => exact Bool.false_ne_true hsome
    | succ fuel =>
        rw [(htStatus_seven fuel (Or.inl hs) hi.resizeLock h7 h1).1] at hsome
        exact Bool.false_ne_true hsome
  · intro hne
    have hpos := hi.wf.pos
    have hsize := clhtLpSize_eq h.cur
    have hi' : Idle { h with statusLock := true } := ⟨hi.wf, hi.free, hi.resizeLock, hi.next⟩
    refine ⟨31, ?_⟩
    obtain ⟨hn, hcard⟩ | hnone := hrange
    case inr => exact htStatus_isSome_of_none hs hnone 30
    by_cases hfew : 0 < h.cur.content.card ∧ 100 * h.cur.content.card < 15 * h.cur.numBuckets
    · have hres : statusResize h.cur.numBuckets h.cur.content.card (expandsMax h.cur) r
          = some (false, 33) := decision_few hfew.1 hfew.2 r
      have hnew : numBucketsNew h.cur.numBuckets false 33 = h.cur.numBuckets / 8 := rfl
      have hsome : 0 < numBucketsNew h.cur.numBuckets false 33 := by omega
      rw [htStatus_isSome 30 (Or.inl hs) (hsize ▸ hres)]
      refine htResizePes_isSome hi' (show h.cur.numBuckets ≤ 2 ^ 31 by omega) hsome
        (show numBucketsNew h.cur.numBuckets false 33 < 2 ^ 32 by omega) ?_
      intro g hg hnum hsame hfull
      change g.cur.numBuckets = numBucketsNew h.cur.numBuckets false 33 at hnum
      change g.cur.content.card = h.cur.content.card at hsame
      omega
    · rcases statusResize_of_not_few (expandsMax h.cur) r hn hpos hcard hfew with
        hres | ⟨by_, hres, hdouble, hlt⟩
      · exact htStatus_isSome_of_none hs hres 30
      · have hnew : 0 < numBucketsNew h.cur.numBuckets true by_ := by omega
        rw [htStatus_isSome 30 (Or.inl hs) (hsize ▸ hres)]
        refine htResizePes_isSome hi' (show h.cur.numBuckets ≤ 2 ^ 31 by omega) hnew hlt ?_
        intro g hg hnum hsame hfull
        change g.cur.numBuckets = numBucketsNew h.cur.numBuckets true by_ at hnum
        change g.cur.content.card = h.cur.content.card at hsame
        exact htStatus_isSome_of_full 30 hg (by omega) hfull
          (le_trans (by omega) (Nat.mul_le_mul_right _ (show 1 ≤ g.cur.numBuckets by omega)))

/-- One bucket that is full. -/
theorem htStatus_fine_full : ∃ tr h, Calls 40 1 tr h ∧ h.cur.content.card = 3 ∧
    StatusFine h true := by
  obtain ⟨tr, h, hreach, -, hi, hs, hn, hcard⟩ := idle_of_calls (n := 1) (m := 3)
    [.putType 4 .tas, .putInit 8, .putType 12 .mcs] [.val 1, .int 0, .val 3]
    (by decide +kernel : ((clhtLpCreate 1).bind _).map _ = _)
  refine ⟨tr, h, hreach, hcard, ?_⟩
  rw [htStatus_fine hi hs true (Or.inl ⟨by rw [hn]; decide, by rw [hcard]; decide⟩), hn]
  exact fun h7 => absurd h7.1 (by decide)

/-- One put into a table of 7 buckets, and a request for its status. -/
theorem htStatus_not_fine : ∃ tr h, Calls 40 7 tr h ∧ tr.map Prod.snd = [.val 1] ∧ Idle h ∧
    h.statusLock = false ∧ ∀ r, ¬ StatusFine h r ∧
      ∀ fuel, (7, 0) ∈ (htStatus (fuel + 1) h r).1.out := by
  obtain ⟨tr, h, hreach, hrs, hi, hs, hn, hcard⟩ := idle_of_calls (n := 7) (m := 1)
    [.putType 64 .ttas] [.val 1]
    (by decide +kernel : ((clhtLpCreate 7).bind _).map _ = _)
  refine ⟨tr, h, hreach, hrs, hi, hs, fun r => ⟨?_, fun fuel =>
    (htStatus_seven fuel (Or.inl hs) hi.resizeLock hn hcard).2⟩⟩
  rw [statusFine_iff]
  rintro ⟨fuel, hsome⟩
  cases fuel with
  | zero => exact Bool.false_ne_true hsome
  | succ fuel =>
      rw [(htStatus_seven fuel (Or.inl hs) hi.resizeLock hn hcard).1] at hsome
      exact Bool.false_ne_true hsome

end ClhtLp
