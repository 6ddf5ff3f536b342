import Mathlib.Data.List.Basic

/-! # The load monitor of GLK

    `glk_mp_check` of `glk.c`: a thread that reads the number of running threads again and
    again, sets and clears the flag `multiprogramming`, and sleeps in between, eight times
    longer while the flag is set.

    What the loop reads is given as a list.  The clock is read in milliseconds.  The
    quotient `n_adap / sec` of two doubles is a parameter, so that nothing depends on how
    it is rounded.  Counters that are only printed are left out. -/

namespace GlkMp

/-! ## The loop -/

/-- `GLK_MP_NUM_ZERO_REQ`. -/
def numZeroReq : BitVec 32 := 4

/-- `GLK_MP_NUM_ZERO_SHIFT`. -/
def numZeroShift : Nat := 2

/-- `GLK_MP_NUM_ZERO_MAX`. -/
def numZeroMax : BitVec 32 := 8192

/-- `GLK_MP_SLEEP_SHIFT`. -/
def sleepShift : Nat := 3

/-- `GLK_MP_CHECK_PERIOD_US`. -/
def checkPeriodUs : BitVec 64 := 100

/-- `GLK_MP_CHECK_THRESHOLD_HIGH`. -/
def checkThresholdHigh : Int := 2

/-- `GLK_MP_CHECK_THRESHOLD_LOW`. -/
def checkThresholdLow : Int := 5

/-- `GLK_MP_MAX_ADAP_PER_SEC`. -/
def maxAdapPerSec : BitVec 64 := 8

/-- `GLK_MP_LOW_ADAP_PER_SEC`. -/
def lowAdapPerSec : BitVec 64 := 2

/-- `GLK_MP_FIXED_SLEEP_MAX_LOG`. -/
def fixedSleepMaxLog : BitVec 64 := 5

/-- `struct timespec`, and what one call of `nanosleep` is given. -/
structure Timespec where
  tvSec : BitVec 64
  tvNsec : BitVec 64
  deriving DecidableEq

/-- The flag and the variables of the loop; the first two fields of the counters are those
    of `periodic_data_t`. -/
structure MpState where
  multiprogramming : Bool
  numZeroesRequired : BitVec 32
  numZeroesEncountered : BitVec 32
  timeout : Timespec
  nAdap : BitVec 64
  timeStartIsSet : Bool
  msStart : BitVec 64
  mpFixedTimes : BitVec 64
  deriving DecidableEq

/-- What one turn of the loop gets to see: that `/proc/loadavg` cannot be opened, that it
    does not have the six numbers, or the number of running threads and the clock, before
    and after the sleep. -/
inductive Reading where
  | unopened
  | unreadable
  | load (nrRunning : Int) (msStart msStop : BitVec 64)

/-- What `adaptive_lock_global_init` sets up, and the loop before its first turn. -/
def start (periodUs : BitVec 64) : MpState where
  multiprogramming := false
  numZeroesRequired := numZeroReq
  numZeroesEncountered := 0
  timeout := ⟨periodUs / 1000000, (periodUs - periodUs / 1000000 * 1000000) * 1000⟩
  nAdap := 0
  timeStartIsSet := false
  msStart := 0
  mpFixedTimes := 0

/-- `timeout.tv_nsec <<= GLK_MP_SLEEP_SHIFT` -/
def Timespec.longer (ts : Timespec) : Timespec := { ts with tvNsec := ts.tvNsec <<< sleepShift }

/-- `timeout.tv_nsec >>= GLK_MP_SLEEP_SHIFT`, of a signed number. -/
def Timespec.shorter (ts : Timespec) : Timespec :=
  { ts with tvNsec := ts.tvNsec.sshiftRight sleepShift }

/-- `num_zeroes_required` after a switch to multiprogramming. -/
def requireMore (required : BitVec 32) : BitVec 32 :=
  if required <<< numZeroShift > numZeroMax then numZeroMax else required <<< numZeroShift

/-- `num_zeroes_required` after a look that confirms the spinning mode. -/
def requireLess (required : BitVec 32) : BitVec 32 :=
  if required - 1 < numZeroReq then numZeroReq else required - 1

/-- The first half of a turn, which looks at the number of running threads. -/
def MpState.look (nrHwCtx nrRunning : Int) (s : MpState) : MpState :=
  let nrRunning := nrRunning - 1
  if nrRunning > nrHwCtx + checkThresholdHigh then
    let s := { s with numZeroesEncountered := 0 }
    if !s.multiprogramming then
      { s with
        numZeroesRequired := requireMore s.numZeroesRequired
        multiprogramming := true
        nAdap := s.nAdap + 1
        timeout := s.timeout.longer }
    else s
  else if nrRunning < nrHwCtx - checkThresholdLow then
    if s.multiprogramming then
      let s := { s with numZeroesEncountered := s.numZeroesEncountered + 1 }
      if s.numZeroesEncountered ≥ s.numZeroesRequired then
        { s with
          multiprogramming := false
          nAdap := s.nAdap + 1
          timeout := s.timeout.shorter }
      else s
    else { s with numZeroesRequired := requireLess s.numZeroesRequired }
  else s

/-- The seconds for which the mode is fixed. -/
def MpState.mpFixedSleep (s : MpState) : Timespec :=
  let sleepShift := if s.mpFixedTimes > fixedSleepMaxLog then fixedSleepMaxLog else s.mpFixedTimes
  ⟨1 <<< sleepShift.toNat, 0⟩

/-- `time_start`, if it is not set. -/
def MpState.startTime (s : MpState) (msStart : BitVec 64) : MpState :=
  if !s.timeStartIsSet then { s with timeStartIsSet := true, msStart := msStart } else s

/-- The second half of a turn, which sleeps and looks at the clock: the state and the
    sleeps. -/
def MpState.rest (adapPerSec : BitVec 64 → BitVec 64 → BitVec 64) (msStart msStop : BitVec 64)
    (s : MpState) : MpState × List Timespec :=
  let s := s.startTime msStart
  let msDiff := msStop - s.msStart
  if msDiff ≥ 1000 then
    let perSec := adapPerSec s.nAdap msDiff
    let s' := { s with timeStartIsSet := false, nAdap := 0 }
    if perSec > maxAdapPerSec then
      ({ s' with multiprogramming := true, mpFixedTimes := s.mpFixedTimes + 1 },
        [s.timeout, s.mpFixedSleep])
    else if perSec ≤ lowAdapPerSec then
      ({ s' with mpFixedTimes := s.mpFixedTimes >>> 1 }, [s.timeout])
    else (s', [s.timeout])
  else (s, [s.timeout])

variable (adapPerSec : BitVec 64 → BitVec 64 → BitVec 64) (nrHwCtx : Int)

/-- One turn of the loop of `glk_mp_check`; `none` is its `return`. -/
def turn (s : MpState) : Reading → Option (MpState × List Timespec)
  | .unopened => none
  | .unreadable => some (s, [])
  | .load nrRunning msStart msStop =>
      some ((s.look nrHwCtx nrRunning).rest adapPerSec msStart msStop)

/-- `glk_mp_check`: the state at the head of the loop after the readings of the list. -/
def glkMpCheck (s : MpState) : List Reading → Option MpState
  | [] => some s
  | r :: rest => (turn adapPerSec nrHwCtx s r).bind fun p => glkMpCheck p.1 rest

/-! ## The mode and the sleep -/

/-- The sleep that goes with a mode: the base period, or eight times that. -/
def periodOf (multiprogramming : Bool) : Timespec :=
  ⟨0, if multiprogramming then 800000 else 100000⟩

/-- The sleep is the one of the mode. -/
def InStep (s : MpState) : Prop := s.timeout = periodOf s.multiprogramming

/-- `num_zeroes_required` is within its bounds. -/
def Bounded (s : MpState) : Prop :=
  numZeroReq ≤ s.numZeroesRequired ∧ s.numZeroesRequired ≤ numZeroMax

/-- There have been too many adaptations, and the mode that gets fixed is not yet the
    mode. -/
def FixesSpinning (s : MpState) : Reading → Prop
  | .load nrRunning msStart msStop =>
      let s := (s.look nrHwCtx nrRunning).startTime msStart
      s.multiprogramming = false ∧ msStop - s.msStart ≥ 1000 ∧
        adapPerSec s.nAdap (msStop - s.msStart) > maxAdapPerSec
  | _ => False

instance (s : MpState) (r : Reading) : Decidable (FixesSpinning adapPerSec nrHwCtx s r) :=
  match r with
  | .load _ _ _ => inferInstanceAs (Decidable (_ ∧ _ ∧ _))
  | .unopened | .unreadable => inferInstanceAs (Decidable False)

variable {adapPerSec nrHwCtx} {s : MpState}

theorem longer_periodOf : (periodOf false).longer = periodOf true := by decide

theorem shorter_periodOf : (periodOf true).shorter = periodOf false := by decide

/-- The first half changes the sleep whenever it changes the mode. -/
theorem InStep.look (h : InStep s) (nrRunning : Int) : InStep (s.look nrHwCtx nrRunning) := by
  unfold InStep at h ⊢
  unfold MpState.look
  dsimp only
  split_ifs with hhigh hmp hlow hmp hdown
  · rw [Bool.not_eq_true'] at hmp
    rw [hmp] at h
    show s.timeout.longer = _
    rw [h, longer_periodOf]
  · exact h
  · rw [hmp] at h
    show s.timeout.shorter = _
    rw [h, shorter_periodOf]
  · exact h
  · exact h
  · exact h

theorem requireMore_bounded {required : BitVec 32} (hlo : numZeroReq ≤ required)
    (hhi : required ≤ numZeroMax) :
    numZeroReq ≤ requireMore required ∧ requireMore required ≤ numZeroMax := by
  unfold requireMore numZeroReq numZeroMax numZeroShift at *
  split <;> bv_omega

theorem requireLess_bounded {required : BitVec 32} (hlo : numZeroReq ≤ required)
    (hhi : required ≤ numZeroMax) :
    numZeroReq ≤ requireLess required ∧ requireLess required ≤ numZeroMax := by
  unfold requireLess numZeroReq numZeroMax at *
  split <;> bv_omega

/-- A reading keeps the bounds. -/
theorem Bounded.look (h : Bounded s) (nrRunning : Int) : Bounded (s.look nrHwCtx nrRunning) := by
  obtain ⟨hlo, hhi⟩ := h
  unfold MpState.look
  dsimp only
  split_ifs with hhigh hmp hlow hmp hdown
  · exact requireMore_bounded hlo hhi
  · exact ⟨hlo, hhi⟩
  · exact ⟨hlo, hhi⟩
  · exact ⟨hlo, hhi⟩
  · exact requireLess_bounded hlo hhi
  · exact ⟨hlo, hhi⟩

/-- A pause keeps the bounds. -/
theorem rest_bounded (h : Bounded s) (msStart msStop : BitVec 64) :
    Bounded (s.rest adapPerSec msStart msStop).1 := by
  unfold MpState.rest MpState.startTime
  dsimp only
  split_ifs <;> exact h

theorem periodOf_ne : periodOf false ≠ periodOf true := by decide

/-- The second half leaves the sleep and may set the mode. -/
theorem rest_inStep (h : InStep s) (msStart msStop : BitVec 64) :
    InStep (s.rest adapPerSec msStart msStop).1 ↔
      ¬ ((s.startTime msStart).multiprogramming = false ∧
        msStop - (s.startTime msStart).msStart ≥ 1000 ∧
        adapPerSec (s.startTime msStart).nAdap (msStop - (s.startTime msStart).msStart)
          > maxAdapPerSec) := by
  have hstart : InStep (s.startTime msStart) := by
    unfold MpState.startTime
    split <;> exact h
  unfold MpState.rest
  generalize s.startTime msStart = s at hstart ⊢
  dsimp only
  by_cases hsec : msStop - s.msStart ≥ 1000
  · rw [if_pos hsec]
    by_cases hmany : adapPerSec s.nAdap (msStop - s.msStart) > maxAdapPerSec
    · rw [if_pos hmany]
      show s.timeout = periodOf true ↔ _
      rw [show s.timeout = periodOf s.multiprogramming from hstart]
      cases hmp : s.multiprogramming with
      | true => exact iff_of_true rfl fun hfix => Bool.false_ne_true hfix.1.symm
      | false => exact iff_of_false periodOf_ne fun hfix => hfix ⟨rfl, hsec, hmany⟩
    · rw [if_neg hmany]
      refine iff_of_true ?_ fun hfix => hmany hfix.2.2
      split <;> exact hstart
  · rw [if_neg hsec]
    exact iff_of_true hstart fun hfix => hsec hfix.2.1

/-- What a turn sleeps: the period of a mode, or a power of two of seconds up to 32. -/
theorem rest_sleeps (h : InStep s) (msStart msStop : BitVec 64) :
    ∀ ts ∈ (s.rest adapPerSec msStart msStop).2,
      ts = periodOf s.multiprogramming ∨ ∃ k ≤ 5, ts = ⟨1 <<< k, 0⟩ := by
  have hstart : (s.startTime msStart).timeout = periodOf s.multiprogramming := by
    unfold MpState.startTime
    split <;> exact h
  have hfixed : ∀ s : MpState, ∃ k ≤ 5, s.mpFixedSleep = ⟨1 <<< k, 0⟩ := by
    intro s
    refine ⟨_, ?_, rfl⟩
    unfold fixedSleepMaxLog
    split <;> bv_omega
  unfold MpState.rest
  dsimp only
  intro ts hts
  split_ifs at hts <;> simp only [List.mem_cons, List.not_mem_nil, or_false] at hts
  · rcases hts with rfl | rfl
    · exact Or.inl hstart
    · exact Or.inr (hfixed _)
  all_goals exact Or.inl (hts ▸ hstart)

/-- **Step lemma.** A turn keeps the bounds; it keeps mode and sleep in step unless it fixes
    a mode that is not yet set. -/
theorem turn_spec {r : Reading} {s' : MpState} {sleeps : List Timespec}
    (ht : turn adapPerSec nrHwCtx s r = some (s', sleeps)) :
    (Bounded s → Bounded s') ∧
    (InStep s → (InStep s' ↔ ¬ FixesSpinning adapPerSec nrHwCtx s r) ∧
      ∀ ts ∈ sleeps, (∃ mp, ts = periodOf mp) ∨ ∃ k ≤ 5, ts = ⟨1 <<< k, 0⟩) := by
  cases r with
  | unopened => cases ht
  | unreadable =>
      obtain ⟨rfl, rfl⟩ := Prod.mk.inj (Option.some.inj ht)
      exact ⟨id, fun h => ⟨iff_of_true h id, fun ts hts => absurd hts List.not_mem_nil⟩⟩
  | load nrRunning msStart msStop =>
      obtain ⟨rfl, rfl⟩ := Prod.mk.inj (Option.some.inj ht)
      refine ⟨fun h => rest_bounded (h.look nrRunning) .., fun h => ⟨?_, ?_⟩⟩
      · exact rest_inStep (h.look nrRunning) ..
      · intro ts hts
        exact (rest_sleeps (h.look nrRunning) _ _ ts hts).imp_left fun heq => ⟨_, heq⟩

/-- A turn that fixes a mode does not return. -/
theorem turn_of_fixes {r : Reading} (h : FixesSpinning adapPerSec nrHwCtx s r) :
    ∃ p, turn adapPerSec nrHwCtx s r = some p := by
  cases r with
  | load nrRunning msStart msStop => exact ⟨_, rfl⟩
  | unopened => exact absurd h id
  | unreadable => exact absurd h id

/-! ## Runs -/

/-- The loop passes its head in state `s` after `k` of the readings. -/
def Head (adapPerSec : BitVec 64 → BitVec 64 → BitVec 64) (nrHwCtx : Int) (rs : List Reading)
    (k : Nat) (s : MpState) : Prop :=
  glkMpCheck adapPerSec nrHwCtx (start checkPeriodUs) (rs.take k) = some s

/-- One sequence of readings after the other. -/
theorem glkMpCheck_append (rs rs' : List Reading) :
    glkMpCheck adapPerSec nrHwCtx s (rs ++ rs')
      = (glkMpCheck adapPerSec nrHwCtx s rs).bind fun s' =>
          glkMpCheck adapPerSec nrHwCtx s' rs' := by
  induction rs generalizing s with
  | nil => rfl
  | cons r rs ih =>
      show (turn adapPerSec nrHwCtx s r).bind _ = ((turn adapPerSec nrHwCtx s r).bind _).bind _
      rw [Option.bind_assoc]
      exact congrArg _ (funext fun p => ih)

/-- The next head. -/
theorem head_succ {rs : List Reading} {k : Nat} {r : Reading} {s' : MpState}
    (hr : rs[k]? = some r) : Head adapPerSec nrHwCtx rs (k + 1) s' ↔
      ∃ s sleeps, Head adapPerSec nrHwCtx rs k s ∧
        turn adapPerSec nrHwCtx s r = some (s', sleeps) := by
  unfold Head
  rw [List.take_add_one, hr, Option.toList_some, glkMpCheck_append, Option.bind_eq_some_iff]
  simp only [glkMpCheck, Option.bind_eq_some_iff, Option.some.injEq]
  constructor
  · rintro ⟨s, hs, ⟨s'', sleeps⟩, ht, rfl⟩
    exact ⟨s, sleeps, hs, ht⟩
  · rintro ⟨s, sleeps, hs, ht⟩
    exact ⟨s, hs, (s', sleeps), ht, rfl⟩

/-- What holds at the start, and in a turn of the loop is kept, holds at every head. -/
theorem Head.invariant {P : MpState → Prop} {rs : List Reading}
    (hstart : P (start checkPeriodUs))
    (hturn : ∀ k s r s' sleeps, Head adapPerSec nrHwCtx rs k s → rs[k]? = some r → P s →
      turn adapPerSec nrHwCtx s r = some (s', sleeps) → P s')
    {k : Nat} {s : MpState} (h : Head adapPerSec nrHwCtx rs k s) : P s := by
  induction k generalizing s with
  | zero =>
      obtain rfl := Option.some.inj h
      exact hstart
  | succ k ih =>
      rcases hr : rs[k]? with _ | r
      · -- the readings have come to an end
        refine ih ?_
        have hend : rs.take (k + 1) = rs.take k := by
          rw [List.take_add_one, hr]
          exact List.append_nil _
        rwa [Head, hend] at h
      · obtain ⟨s₀, sleeps, h₀, ht⟩ := (head_succ hr).mp h
        exact hturn k s₀ r s sleeps h₀ hr (ih h₀) ht

/-- **The load monitor**: at every head of the loop `num_zeroes_required` is within its
    bounds; and the sleep is that of the mode at every head for exactly those readings with
    which the rule of too many adaptations never sets a mode that was not set. -/
theorem glkMpCheck_inStep (adapPerSec : BitVec 64 → BitVec 64 → BitVec 64) (nrHwCtx : Int)
    (rs : List Reading) :
    (∀ k s, Head adapPerSec nrHwCtx rs k s → Bounded s) ∧
    ((∀ k s, Head adapPerSec nrHwCtx rs k s → InStep s) ↔
      ∀ k s r, Head adapPerSec nrHwCtx rs k s → rs[k]? = some r →
        ¬ FixesSpinning adapPerSec nrHwCtx s r) := by
  refine ⟨fun k s hs => ?_, ?_, ?_⟩
  · exact hs.invariant (by unfold Bounded; decide) fun _ _ _ _ _ _ _ hb ht => (turn_spec ht).1 hb
  · intro hall k s r hs hr hfix
    obtain ⟨⟨s', sleeps⟩, ht⟩ := turn_of_fixes hfix
    have hstep := hall (k + 1) s' ((head_succ hr).mpr ⟨s, sleeps, hs, ht⟩)
    exact ((turn_spec ht).2 (hall k s hs)).1.mp hstep hfix
  · intro hnever k s hs
    refine hs.invariant (by unfold InStep; decide) fun k s r s' sleeps hs hr hstep ht => ?_
    exact ((turn_spec ht).2 hstep).1.mpr (hnever k s r hs hr)

/-- `n_adap` per second, if the quotient is not rounded. -/
def exactPerSec (nAdap msDiff : BitVec 64) : BitVec 64 := nAdap * 1000 / msDiff

/-- A second, on a machine of 8 contexts, in which the load comes and goes five times. -/
def flapping (ms : BitVec 64) : List Reading :=
  (List.replicate 5 (.load 20 ms ms :: List.replicate 28 (.load 1 ms ms))).flatten ++
    [.load 1 ms (ms + 1000)]

/-- Some turns without load. -/
def quiet (ms : BitVec 64) : List Reading := List.replicate 40 (.load 1 ms ms)

/-- A flapping load, and then none. -/
def second (n : Nat) : List Reading :=
  flapping (BitVec.ofNat 64 (1000 * n)) ++ quiet (BitVec.ofNat 64 (1000 * n + 1000))

/-- The monitor after the first `n + 1` such seconds. -/
def drifted (n : Nat) : MpState where
  multiprogramming := false
  numZeroesRequired := 4
  numZeroesEncountered := 17
  timeout := ⟨0, 100000 >>> (3 * (n + 1))⟩
  nAdap := 1
  timeStartIsSet := true
  msStart := BitVec.ofNat 64 (1000 * n + 1000)
  mpFixedTimes := BitVec.ofNat 64 (n + 1)

/-- **The sleep drifts to nothing**: after six such seconds the monitor is in the spinning
    mode and no longer sleeps. -/
theorem glkMpCheck_drifts : ∃ (rs : List Reading) (s : MpState),
    Head exactPerSec 8 rs rs.length s ∧ s.multiprogramming = false ∧ s.timeout = ⟨0, 0⟩ := by
  have hfirst : glkMpCheck exactPerSec 8 (start checkPeriodUs) (second 0) = some (drifted 0) := by
    decide +kernel
  have hnext : ∀ n < 5, glkMpCheck exactPerSec 8 (drifted n) (second (n + 1))
      = some (drifted (n + 1)) := by
    decide +kernel
  have hrun : ∀ n ≤ 5, glkMpCheck exactPerSec 8 (start checkPeriodUs)
      ((List.range (n + 1)).map second).flatten = some (drifted n) := by
    intro n hn
    induction n with
    | zero => simpa using hfirst
    | succ n ih =>
        rw [List.range_succ, List.map_append, List.flatten_append, glkMpCheck_append,
          ih (by omega), Option.bind_some]
        simpa using hnext n (by omega)
  refine ⟨((List.range 6).map second).flatten, drifted 5, ?_, rfl, by decide⟩
  rw [Head, List.take_length]
  exact hrun 5 (Nat.le_refl 5)

end GlkMp
