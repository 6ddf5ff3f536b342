import Lockin.Glk
import Mathlib.Tactic

/-! # When the adaptive lock changes its type

    The counters of one `glk_t` and the three adaptation functions of `glk.c`, for
    acquisitions that come one at a time: each by `glk_lock`, with an arbitrary number of
    threads queued at that moment, or by `glk_trylock`.  There is no multiprogramming,
    and the settings are those of `glk.h`.

    The decisions divide by the constant `GLK_SAMPLE_NUM`, as if every decision came
    after that many sampling points.  In MCS mode it does, the ones pre-credited by
    `GLK_NUM_ACQ_INIT` included.  In TICKET mode the decision belongs to the thread that
    takes a certain ticket, and `glk_trylock` takes tickets without looking at them: when
    it takes that one, no decision is made, and the next one divides the distances of
    twice as many sampling points by the same constant (`glkLock_not_documented`).  In a
    run where this does not happen and `queue_total` does not overflow, every switch is
    made on the average that it should be made on (`glkLock_documented`). -/

namespace GlkAdapt

open Glk

/-- The settings of `glk.h`. -/
def settings : Config := ⟨127, 4095⟩

/-- What the acquisitions do with tickets, samples and decisions. -/
inductive Event where
  /-- A ticket is taken: whether it is a multiple of `GLK_SAMPLE_LOCK_EVERY + 1`, and the
      queue distance that was added to `queue_total`. -/
  | ticket (point : Bool) (distance : Nat)
  /-- `glk_ticket_adap` decides to go to MCS, or to stay. -/
  | ticketAdap (toMcs : Bool)
  /-- A queue length is added to `queue_total` in MCS mode. -/
  | mcsSample (length : Nat)
  /-- `glk_mcs_adap` decides to go to TICKET, or to stay. -/
  | mcsAdap (toTicket : Bool)
  | mutexAdap

/-- The fields of a `glk_t` that the adaptation reads, and (history) the events, the
    latest first. -/
structure Lock where
  lockType : LockType
  tail : BitVec 32
  numAcquired : BitVec 32
  queueTotal : BitVec 32
  trace : List Event

/-- `glk_init`; `GLK_INIT_LOCK_TYPE` may be any type. -/
def glkInit (lockType : LockType) : Lock := ⟨lockType, 0, 0, 0, []⟩

/-- `glk_ticket_lock_lock`, with `queued` threads in front; the ticket is the new tail. -/
def glkTicketLockLock (l : Lock) (queued : Nat) : Lock :=
  let ticket := l.tail + 1
  let distance := BitVec.ofNat 32 queued
  if distance ≠ 0 ∧ settings.mustUpdateQueueLength ticket then
    { l with
      tail := ticket
      queueTotal := l.queueTotal + distance
      trace := .ticket true queued :: l.trace }
  else
    { l with
      tail := ticket
      trace := .ticket (settings.mustUpdateQueueLength ticket) 0 :: l.trace }

/-- `glk_ticket_adap`. -/
def glkTicketAdap (l : Lock) (ticket : BitVec 32) : Lock :=
  if settings.mustTryAdapt ticket then
    if settings.ratioHigh l.queueTotal then
      { l with
        queueTotal := l.queueTotal >>> 3
        numAcquired := settings.numAcqInit
        lockType := .mcs
        trace := .ticketAdap true :: l.trace }
    else
      { l with
        queueTotal := 0
        numAcquired := settings.numAcqInit
        trace := .ticketAdap false :: l.trace }
  else l

/-- `glk_mcs_lock_lock`. -/
def glkMcsLockLock (l : Lock) : Lock := { l with numAcquired := l.numAcquired + 1 }

/-- `glk_mcs_adap` by the `numAcq`-th owner, with `queued` threads behind it. -/
def glkMcsAdap (l : Lock) (queued : Nat) (numAcq : BitVec 32) : Lock :=
  if settings.mustUpdateQueueLength numAcq then
    let total := l.queueTotal + BitVec.ofNat 32 (1 + queued)
    let trace := .mcsSample (1 + queued) :: l.trace
    if settings.mustTryAdapt numAcq then
      if settings.ratioLow total then
        { l with
          queueTotal := 0
          numAcquired := settings.numAcqInit
          lockType := .ticket
          trace := .mcsAdap true :: trace }
      else
        { l with
          queueTotal := total.sshiftRight 3
          numAcquired := settings.numAcqInit
          trace := .mcsAdap false :: trace }
    else { l with queueTotal := total, trace := trace }
  else l

/-- `glk_mutex_adap`. -/
def glkMutexAdap (l : Lock) : Lock :=
  if l.lockType = .mutex then
    { l with
      queueTotal := 0
      numAcquired := 0
      lockType := .ticket
      trace := .mutexAdap :: l.trace }
  else l

/-- One round of the loop of `glk_lock`, up to the check of `lock_type`. -/
def glkLockRound (l : Lock) (queued : Nat) : Lock :=
  match l.lockType with
  | .ticket => glkTicketAdap (glkTicketLockLock l queued) (l.tail + 1)
  | .mcs => glkMcsAdap (glkMcsLockLock l) queued (l.numAcquired + 1)
  | .mutex => glkMutexAdap l

/-- `glk_lock`: rounds, with the number of threads queued in each, until `lock_type` is
    what it was. -/
def glkLock (l : Lock) : List Nat → Option Lock
  | [] => none
  | queued :: rest =>
      let l' := glkLockRound l queued
      if l'.lockType = l.lockType then if rest = [] then some l' else none
      else glkLock l' rest

/-- A `glk_trylock` that acquires: only a ticket is counted anywhere. -/
def glkTrylock (l : Lock) : Lock :=
  match l.lockType with
  | .ticket =>
      let ticket := l.tail + 1
      { l with
        tail := ticket
        trace := .ticket (settings.mustUpdateQueueLength ticket) 0 :: l.trace }
  | .mcs | .mutex => l

/-- An acquisition. -/
inductive Acq where
  | lock (queued : List Nat)
  | trylock

/-- One acquisition. -/
def acquire (l : Lock) : Acq → Option Lock
  | .lock queued => glkLock l queued
  | .trylock => some (glkTrylock l)

/-- The states that acquisitions lead to, all of which satisfy `ok`. -/
inductive Acquired (ok : Lock → Acq → Prop) : Lock → Prop where
  | init (lockType : LockType) : Acquired ok (glkInit lockType)
  | acquire {l l' : Lock} {a : Acq} :
      Acquired ok l → ok l a → acquire l a = some l' → Acquired ok l'

/-! ## What the decisions are about -/

/-- A decision in TICKET mode. -/
def Event.isTicketAdap : Event → Bool
  | .ticketAdap _ => true
  | _ => false

/-- A decision. -/
def Event.isAdap : Event → Bool
  | .ticketAdap _ => true
  | .mcsAdap _ => true
  | .mutexAdap => true
  | _ => false

/-- A sampling point is passed in TICKET mode. -/
def Event.isPoint : Event → Bool
  | .ticket point _ => point
  | _ => false

/-- A queue length is sampled. -/
def Event.isSample : Event → Bool
  | .mcsSample _ => true
  | _ => false

/-- The queue distance that is sampled. -/
def Event.distance : Event → Nat
  | .ticket _ distance => distance
  | _ => 0

/-- The queue length that is sampled. -/
def Event.length : Event → Nat
  | .mcsSample length => length
  | _ => 0

/-- The events since the last decision in TICKET mode. -/
def sinceTicketAdap (tr : List Event) : List Event := tr.takeWhile fun e => !e.isTicketAdap

/-- The events since the last decision. -/
def sinceAdap (tr : List Event) : List Event := tr.takeWhile fun e => !e.isAdap

/-- The sampling points passed since the last decision in TICKET mode. -/
def points (tr : List Event) : Nat := (sinceTicketAdap tr).countP Event.isPoint

/-- The sum of the distances sampled since the last decision in TICKET mode. -/
def distances (tr : List Event) : Nat := ((sinceTicketAdap tr).map Event.distance).sum

/-- How many queue lengths were sampled since the last decision. -/
def samples (tr : List Event) : Nat := (sinceAdap tr).countP Event.isSample

/-- The sum of the queue lengths sampled since the last decision. -/
def lengths (tr : List Event) : Nat := ((sinceAdap tr).map Event.length).sum

/-- What a decision is about: everything sampled since the last decision, and an eighth of
    the previous total if that one was to go to MCS or to stay there. -/
def total : List Event → Nat
  | [] => 0
  | .ticketAdap toMcs :: tr => if toMcs then total tr / 8 else 0
  | .mcsAdap toTicket :: tr => if toTicket then 0 else total tr / 8
  | .mutexAdap :: _ => 0
  | .ticket _ distance :: tr => total tr + distance
  | .mcsSample length :: tr => total tr + length

/-- The eighth of the previous total, when the last decision was to go to MCS or to stay
    there. -/
def carried : List Event → Option Nat
  | [] => none
  | .ticketAdap toMcs :: tr => if toMcs then some (total tr / 8) else none
  | .mcsAdap toTicket :: tr => if toTicket then none else some (total tr / 8)
  | .mutexAdap :: _ => none
  | .ticket _ _ :: tr => carried tr
  | .mcsSample _ :: tr => carried tr

/-- Every switch in the history was made on the average that it documents; the averages
    are compared without a division. -/
structure Documented (tr : List Event) : Prop where
  toMcs : ∀ tr', .ticketAdap true :: tr' <:+ tr →
    0 < points tr' ∧ 3 * points tr' ≤ distances tr'
  toTicket : ∀ tr' c, .mcsAdap true :: tr' <:+ tr → carried tr' = some c →
    8 * samples tr' = 7 * settings.sampleNum ∧
      c + lengths tr' < 2 * settings.sampleNum

/-- The ticket that `glk_trylock` takes is not one that decides. -/
def trylockDecides (l : Lock) : Prop :=
  l.lockType = .ticket ∧ settings.mustTryAdapt (l.tail + 1)

/-- `queue_total` does not overflow in the rounds of a `glk_lock`. -/
def Fits (l : Lock) : List Nat → Prop
  | [] => True
  | queued :: rest =>
      l.queueTotal.toNat + (1 + queued) < 2 ^ 31 ∧ Fits (glkLockRound l queued) rest

/-- No `glk_trylock` takes a ticket that decides, and `queue_total` does not overflow. -/
def counted (l : Lock) : Acq → Prop
  | .lock queued => Fits l queued
  | .trylock => ¬ trylockDecides l

/-! ## The history -/

section History

variable (tr : List Event) (p b : Bool) (n : Nat)

/-- A sample of the ticket lock adds its points. -/
@[simp] theorem points_ticket : points (.ticket p n :: tr) = points tr + p.toNat := by
  cases p with
  | false => exact List.countP_cons_of_neg Bool.false_ne_true
  | true => exact List.countP_cons_of_pos rfl

/-- An adaptation starts the count again. -/
@[simp] theorem points_ticketAdap : points (.ticketAdap b :: tr) = 0 := rfl

@[simp] theorem points_mcsSample : points (.mcsSample n :: tr) = points tr := rfl

@[simp] theorem points_mcsAdap : points (.mcsAdap b :: tr) = points tr := rfl

@[simp] theorem points_mutexAdap : points (.mutexAdap :: tr) = points tr := rfl

/-- A sample of the ticket lock adds its distance. -/
@[simp] theorem distances_ticket :
    distances (.ticket p n :: tr) = n + distances tr := rfl

/-- An adaptation starts the sum again. -/
@[simp] theorem distances_ticketAdap : distances (.ticketAdap b :: tr) = 0 := rfl

@[simp] theorem distances_mcsSample : distances (.mcsSample n :: tr) = distances tr :=
  Nat.zero_add _

@[simp] theorem distances_mcsAdap : distances (.mcsAdap b :: tr) = distances tr :=
  Nat.zero_add _

@[simp] theorem distances_mutexAdap : distances (.mutexAdap :: tr) = distances tr :=
  Nat.zero_add _

/-- A sample of the MCS lock is counted. -/
@[simp] theorem samples_mcsSample : samples (.mcsSample n :: tr) = samples tr + 1 :=
  List.countP_cons_of_pos rfl

@[simp] theorem samples_ticketAdap : samples (.ticketAdap b :: tr) = 0 := rfl

/-- An adaptation starts the count again. -/
@[simp] theorem samples_mcsAdap : samples (.mcsAdap b :: tr) = 0 := rfl

/-- A sample of the MCS lock adds its length. -/
@[simp] theorem lengths_mcsSample : lengths (.mcsSample n :: tr) = n + lengths tr := rfl

@[simp] theorem lengths_ticketAdap : lengths (.ticketAdap b :: tr) = 0 := rfl

/-- An adaptation starts the sum again. -/
@[simp] theorem lengths_mcsAdap : lengths (.mcsAdap b :: tr) = 0 := rfl

end History

/-- No decision has been taken. -/
theorem Documented.nil : Documented [] := by
  constructor
  · intro tr' h
    exact absurd (List.suffix_nil.mp h) (List.cons_ne_nil _ _)
  · intro tr' c h
    exact absurd (List.suffix_nil.mp h) (List.cons_ne_nil _ _)

/-- Only a switch has to be made on the right average. -/
theorem Documented.push {tr : List Event} {e : Event} (h : Documented tr)
    (hmcs : e = .ticketAdap true → 0 < points tr ∧ 3 * points tr ≤ distances tr)
    (hticket : e = .mcsAdap true → ∀ c, carried tr = some c →
      8 * samples tr = 7 * settings.sampleNum ∧ c + lengths tr < 2 * settings.sampleNum) :
    Documented (e :: tr) := by
  constructor
  · intro tr' hsuf
    rcases List.suffix_cons_iff.mp hsuf with heq | hsuf
    · obtain ⟨rfl, rfl⟩ := List.cons.inj heq
      exact hmcs rfl
    · exact h.toMcs tr' hsuf
  · intro tr' c hsuf hc
    rcases List.suffix_cons_iff.mp hsuf with heq | hsuf
    · obtain ⟨rfl, rfl⟩ := List.cons.inj heq
      exact hticket rfl c hc
    · exact h.toTicket tr' c hsuf hc

/-! ## The masks -/

/-- A mask of ones takes the remainder. -/
theorem and_mask (x : BitVec 32) (k : Nat) (hk : k < 32) :
    x &&& BitVec.ofNat 32 (2 ^ k - 1) = 0 ↔ x.toNat % 2 ^ k = 0 := by
  have hlt : 2 ^ k - 1 < 2 ^ 32 :=
    lt_of_le_of_lt (Nat.sub_le _ _) (Nat.pow_lt_pow_right (by decide) hk)
  rw [← BitVec.toNat_inj, BitVec.toNat_and, BitVec.toNat_ofNat, Nat.mod_eq_of_lt hlt,
    Nat.and_two_pow_sub_one_eq_mod]
  rfl

/-- The queue is sampled at every 128th acquisition. -/
theorem mustUpdateQueueLength_iff (x : BitVec 32) :
    settings.mustUpdateQueueLength x = true ↔ x.toNat % 128 = 0 :=
  decide_eq_true_iff.trans (and_mask x 7 (by decide))

/-- The lock is adapted at every 4096th acquisition. -/
theorem mustTryAdapt_iff (x : BitVec 32) :
    settings.mustTryAdapt x = true ↔ x.toNat % 4096 = 0 :=
  decide_eq_true_iff.trans (and_mask x 12 (by decide))

/-- The samples of one period. -/
theorem sampleNum_settings : settings.sampleNum = 32 := by decide

/-- The credit of a decision stands for the 4 sampling points that it leaves out. -/
theorem numAcqInit_settings : 512 ≤ settings.numAcqInit.toNat ∧
    settings.numAcqInit.toNat < 4096 ∧ 0 = (settings.numAcqInit.toNat - 512) / 128 := by
  decide

/-- Between two sampling points the number of samples stays. -/
theorem credit_succ {n : Nat} (hlo : 512 ≤ n) (hmod : (n + 1) % 128 ≠ 0) :
    (n + 1 - 512) / 128 = (n - 512) / 128 := by
  obtain ⟨k, rfl⟩ := Nat.exists_eq_add_of_le hlo
  omega

/-- The bound above which the ticket lock becomes an MCS lock. -/
theorem ratioHigh_iff (x : BitVec 32) : settings.ratioHigh x = true ↔ 96 ≤ x.toNat := by
  simp [Config.ratioHigh, sampleNum_settings]

/-- The bound below which the MCS lock becomes a ticket lock. -/
theorem ratioLow_iff {x : BitVec 32} (hx : x.toNat < 2 ^ 31) :
    settings.ratioLow x = true ↔ x.toNat < 64 := by
  have hint : x.toInt = x.toNat := BitVec.toInt_eq_toNat_of_lt (by omega)
  simp [Config.ratioLow, sampleNum_settings, hint]

/-! ## What an acquisition does -/

/-- The invariant: the counters say what the history says. -/
structure Inv (l : Lock) : Prop where
  fits : l.queueTotal.toNat < 2 ^ 31
  total_eq : total l.trace = l.queueTotal.toNat
  points_eq : points l.trace = l.tail.toNat % 4096 / 128
  distances_eq : distances l.trace = if l.lockType = .ticket then l.queueTotal.toNat else 0
  mcs : l.lockType = .mcs → ∀ c, carried l.trace = some c →
    512 ≤ l.numAcquired.toNat ∧ l.numAcquired.toNat < 4096 ∧
      samples l.trace = (l.numAcquired.toNat - 512) / 128 ∧
      c + lengths l.trace = l.queueTotal.toNat
  documented : Documented l.trace

/-- A new lock. -/
theorem glkInit_inv (lockType : LockType) : Inv (glkInit lockType) where
  fits := by
    show (0 : BitVec 32).toNat < 2 ^ 31
    decide
  total_eq := rfl
  points_eq := by
    show 0 = (0 : BitVec 32).toNat % 4096 / 128
    decide
  distances_eq := by
    show (0 : Nat) = if lockType = .ticket then 0 else 0
    split <;> rfl
  mcs := fun _ _ hc => nomatch hc
  documented := .nil

theorem tail_succ (x : BitVec 32) : (x + 1).toNat % 4096 = (x.toNat + 1) % 4096 := by
  have hlt := x.isLt
  rw [BitVec.toNat_add, show (1 : BitVec 32).toNat = 1 from rfl]
  omega

/-- `m` is `l` after a ticket was taken and the distance `d` sampled. -/
structure Taken (l m : Lock) (d : Nat) : Prop where
  lockType : m.lockType = l.lockType
  tail : m.tail = l.tail + 1
  queueTotal : m.queueTotal.toNat = l.queueTotal.toNat + d
  fits : m.queueTotal.toNat < 2 ^ 31
  trace : m.trace = .ticket (settings.mustUpdateQueueLength (l.tail + 1)) d :: l.trace

/-- What `glk_ticket_lock_lock` does to the samples. -/
theorem glkTicketLockLock_taken {l : Lock} {queued : Nat}
    (hfit : l.queueTotal.toNat + (1 + queued) < 2 ^ 31) :
    ∃ d, Taken l (glkTicketLockLock l queued) d := by
  unfold glkTicketLockLock
  dsimp only
  split
  · rename_i hsample
    have hsum : (l.queueTotal + BitVec.ofNat 32 queued).toNat = l.queueTotal.toNat + queued := by
      rw [BitVec.toNat_add, BitVec.toNat_ofNat]
      omega
    refine ⟨queued, rfl, rfl, hsum, ?_, ?_⟩
    · show (l.queueTotal + BitVec.ofNat 32 queued).toNat < 2 ^ 31
      omega
    · rw [hsample.2]
  · refine ⟨0, rfl, rfl, rfl, ?_, rfl⟩
    show l.queueTotal.toNat < 2 ^ 31
    omega

namespace Inv

variable {l m : Lock} {d : Nat}

/-- A sampling point is passed at every 128th ticket. -/
theorem points_taken (h : Inv l) (hm : Taken l m d) :
    points m.trace = l.tail.toNat % 4096 / 128
      + if (l.tail.toNat + 1) % 128 = 0 then 1 else 0 := by
  have hpoint : settings.mustUpdateQueueLength (l.tail + 1)
      = decide ((l.tail.toNat + 1) % 128 = 0) := by
    rw [Bool.eq_iff_iff, mustUpdateQueueLength_iff, decide_eq_true_iff]
    have := tail_succ l.tail
    omega
  rw [hm.trace, points_ticket, h.points_eq, hpoint]
  split <;> simp [*]

/-- A ticket that does not decide. -/
theorem taken (h : Inv l) (ht : l.lockType = .ticket) (hm : Taken l m d)
    (hno : ¬ settings.mustTryAdapt (l.tail + 1)) : Inv m where
  fits := hm.fits
  total_eq := by
    rw [hm.trace, hm.queueTotal, ← h.total_eq]
    rfl
  points_eq := by
    have htail := tail_succ l.tail
    rw [mustTryAdapt_iff] at hno
    rw [h.points_taken hm, hm.tail]
    split <;> omega
  distances_eq := by
    have hold := h.distances_eq
    rw [if_pos ht] at hold
    rw [hm.lockType, if_pos ht, hm.trace, hm.queueTotal, distances_ticket, hold, Nat.add_comm]
  mcs := by
    intro hmcs
    rw [hm.lockType, ht] at hmcs
    exact nomatch hmcs
  documented := by
    rw [hm.trace]
    exact h.documented.push nofun nofun

/-- The owner of a ticket tries to adapt. -/
theorem ticketAdap (h : Inv l) (ht : l.lockType = .ticket) (hm : Taken l m d) :
    Inv (glkTicketAdap m (l.tail + 1)) := by
  have htail := tail_succ l.tail
  have hmt : m.lockType = .ticket := hm.lockType.trans ht
  by_cases hadapt : settings.mustTryAdapt (l.tail + 1)
  swap
  · rw [glkTicketAdap, if_neg hadapt]
    exact h.taken ht hm hadapt
  -- all sampling points since the last decision have been passed
  have hpoints : points m.trace = 32 := by
    rw [mustTryAdapt_iff] at hadapt
    rw [h.points_taken hm]
    split <;> omega
  have haligned : m.tail.toNat % 4096 = 0 := by
    rw [hm.tail]
    exact (mustTryAdapt_iff _).mp hadapt
  have hdist : distances m.trace = m.queueTotal.toNat := by
    have hold := h.distances_eq
    rw [if_pos ht] at hold
    rw [hm.trace, hm.queueTotal, distances_ticket, hold, Nat.add_comm]
  have htotal : total m.trace = m.queueTotal.toNat := by
    rw [hm.trace, hm.queueTotal, ← h.total_eq]
    rfl
  have hdoc : Documented m.trace := by
    rw [hm.trace]
    exact h.documented.push nofun nofun
  have hfits := hm.fits
  rw [glkTicketAdap, if_pos hadapt]
  split
  · rename_i hhigh
    rw [ratioHigh_iff] at hhigh
    have hshift : (m.queueTotal >>> 3).toNat = m.queueTotal.toNat / 8 := by
      rw [BitVec.toNat_ushiftRight, Nat.shiftRight_eq_div_pow]
    refine ⟨?_, ?_, ?_, ?_, ?_, ?_⟩
    · show (m.queueTotal >>> 3).toNat < 2 ^ 31
      omega
    · show total m.trace / 8 = (m.queueTotal >>> 3).toNat
      rw [hshift, htotal]
    · show 0 = m.tail.toNat % 4096 / 128
      omega
    · rfl
    · intro _ c hc
      obtain rfl : total m.trace / 8 = c := Option.some.inj hc
      refine ⟨numAcqInit_settings.1, numAcqInit_settings.2.1, numAcqInit_settings.2.2, ?_⟩
      show total m.trace / 8 + 0 = (m.queueTotal >>> 3).toNat
      rw [hshift, htotal, Nat.add_zero]
    · refine hdoc.push (fun _ => ?_) nofun
      omega
  · refine ⟨?_, rfl, ?_, ?_, ?_, hdoc.push nofun nofun⟩
    · show (0 : BitVec 32).toNat < 2 ^ 31
      decide
    · show 0 = m.tail.toNat % 4096 / 128
      omega
    · show 0 = if m.lockType = .ticket then (0 : BitVec 32).toNat else 0
      rw [if_pos hmt]
      rfl
    · intro hmcs
      rw [show m.lockType = .mcs from hmcs] at hmt
      exact nomatch hmt

/-- The owner of the MCS lock tries to adapt. -/
theorem mcsAdap (h : Inv l) (ht : l.lockType = .mcs) {queued : Nat}
    (hfit : l.queueTotal.toNat + (1 + queued) < 2 ^ 31) :
    Inv (glkMcsAdap (glkMcsLockLock l) queued (l.numAcquired + 1)) := by
  have hne : ¬ l.lockType = .ticket := fun heq => nomatch heq.symm.trans ht
  have hold := h.distances_eq
  rw [if_neg hne] at hold
  -- in the count since a decision that went to MCS or stayed there
  have hcount : ∀ c, carried l.trace = some c →
      (l.numAcquired + 1).toNat = l.numAcquired.toNat + 1 := by
    intro c hc
    have := (h.mcs ht c hc).2.1
    rw [BitVec.toNat_add, show (1 : BitVec 32).toNat = 1 from rfl]
    omega
  have hsum : (l.queueTotal + BitVec.ofNat 32 (1 + queued)).toNat
      = l.queueTotal.toNat + (1 + queued) := by
    rw [BitVec.toNat_add, BitVec.toNat_ofNat]
    omega
  have htotal : total (.mcsSample (1 + queued) :: l.trace)
      = l.queueTotal.toNat + (1 + queued) := congrArg (· + (1 + queued)) h.total_eq
  have hdoc : Documented (.mcsSample (1 + queued) :: l.trace) := h.documented.push nofun nofun
  unfold glkMcsAdap glkMcsLockLock
  dsimp only
  by_cases hupdate : settings.mustUpdateQueueLength (l.numAcquired + 1)
  swap
  · rw [if_neg hupdate]
    refine ⟨h.fits, h.total_eq, h.points_eq, h.distances_eq, fun _ c hc => ?_, h.documented⟩
    obtain ⟨hlo, hhi, hsamples, hlengths⟩ := h.mcs ht c hc
    rw [mustUpdateQueueLength_iff, hcount c hc] at hupdate
    dsimp only at hc ⊢
    rw [hcount c hc]
    have hlt : l.numAcquired.toNat + 1 ≠ 4096 := fun heq => hupdate (by rw [heq])
    exact ⟨Nat.le_succ_of_le hlo, Nat.lt_of_le_of_ne hhi hlt,
      hsamples.trans (credit_succ hlo hupdate).symm, hlengths⟩
  rw [if_pos hupdate]
  rw [mustUpdateQueueLength_iff] at hupdate
  by_cases hadapt : settings.mustTryAdapt (l.numAcquired + 1)
  swap
  · -- a sample without a decision
    rw [if_neg hadapt]
    rw [mustTryAdapt_iff] at hadapt
    refine ⟨?_, htotal.trans hsum.symm, h.points_eq, ?_, ?_, hdoc⟩
    · show (l.queueTotal + BitVec.ofNat 32 (1 + queued)).toNat < 2 ^ 31
      omega
    · show distances (.mcsSample (1 + queued) :: l.trace) = if l.lockType = .ticket then _ else 0
      rw [if_neg hne, distances_mcsSample, hold]
    · intro _ c hc
      obtain ⟨hlo, hhi, hsamples, hlengths⟩ := h.mcs ht c hc
      rw [hcount c hc] at hupdate hadapt
      dsimp only
      rw [hcount c hc, hsum, samples_mcsSample, lengths_mcsSample]
      refine ⟨?_, ?_, ?_, ?_⟩ <;> omega
  rw [if_pos hadapt]
  rw [mustTryAdapt_iff] at hadapt
  -- the samples since the last decision, and what was carried over from it
  have hphase : ∀ c, carried l.trace = some c →
      samples (.mcsSample (1 + queued) :: l.trace) = 28 ∧
        c + lengths (.mcsSample (1 + queued) :: l.trace) = l.queueTotal.toNat + (1 + queued) := by
    intro c hc
    obtain ⟨hlo, hhi, hsamples, hlengths⟩ := h.mcs ht c hc
    rw [hcount c hc] at hadapt
    rw [samples_mcsSample, lengths_mcsSample]
    refine ⟨?_, ?_⟩ <;> omega
  split
  · rename_i hlow
    rw [ratioLow_iff (by omega), hsum] at hlow
    refine ⟨?_, rfl, h.points_eq, ?_, nofun, ?_⟩
    · show (0 : BitVec 32).toNat < 2 ^ 31
      decide
    · show distances (.mcsAdap true :: .mcsSample (1 + queued) :: l.trace)
        = if LockType.ticket = .ticket then (0 : BitVec 32).toNat else 0
      rw [distances_mcsAdap, distances_mcsSample, hold]
      rfl
    · refine hdoc.push nofun fun _ c hc => ?_
      obtain ⟨hsamples, hlengths⟩ := hphase c hc
      rw [hsamples, hlengths, sampleNum_settings]
      exact ⟨rfl, hlow⟩
  · have hshift : ((l.queueTotal + BitVec.ofNat 32 (1 + queued)).sshiftRight 3).toNat
        = (l.queueTotal.toNat + (1 + queued)) / 8 := by
      have hmsb : (l.queueTotal + BitVec.ofNat 32 (1 + queued)).msb = false := by
        rw [BitVec.msb_eq_false_iff_two_mul_lt]
        omega
      rw [BitVec.sshiftRight_eq_of_msb_false hmsb, BitVec.toNat_ushiftRight,
        Nat.shiftRight_eq_div_pow, hsum]
    refine ⟨?_, ?_, h.points_eq, ?_, ?_, hdoc.push nofun nofun⟩
    · show ((l.queueTotal + BitVec.ofNat 32 (1 + queued)).sshiftRight 3).toNat < 2 ^ 31
      omega
    · show total (.mcsSample (1 + queued) :: l.trace) / 8
        = ((l.queueTotal + BitVec.ofNat 32 (1 + queued)).sshiftRight 3).toNat
      rw [hshift, htotal]
    · show distances (.mcsAdap false :: .mcsSample (1 + queued) :: l.trace)
        = if l.lockType = .ticket then _ else 0
      rw [if_neg hne, distances_mcsAdap, distances_mcsSample, hold]
    · intro _ c hc
      obtain rfl : total (.mcsSample (1 + queued) :: l.trace) / 8 = c := Option.some.inj hc
      refine ⟨numAcqInit_settings.1, numAcqInit_settings.2.1, numAcqInit_settings.2.2, ?_⟩
      show total (.mcsSample (1 + queued) :: l.trace) / 8 + 0
        = ((l.queueTotal + BitVec.ofNat 32 (1 + queued)).sshiftRight 3).toNat
      rw [hshift, htotal, Nat.add_zero]

/-- The owner of the mutex goes back to the ticket lock. -/
theorem mutexAdap (h : Inv l) (ht : l.lockType = .mutex) : Inv (glkMutexAdap l) := by
  have hold := h.distances_eq
  rw [if_neg fun heq => nomatch heq.symm.trans ht] at hold
  rw [glkMutexAdap, if_pos ht]
  refine ⟨?_, rfl, h.points_eq, ?_, nofun, h.documented.push nofun nofun⟩
  · show (0 : BitVec 32).toNat < 2 ^ 31
    decide
  · show distances (.mutexAdap :: l.trace)
      = if LockType.ticket = .ticket then (0 : BitVec 32).toNat else 0
    rw [distances_mutexAdap, hold]
    rfl

/-- **Step lemma.** A round of `glk_lock` in which `queue_total` does not overflow. -/
theorem round (h : Inv l) {queued : Nat} (hfit : l.queueTotal.toNat + (1 + queued) < 2 ^ 31) :
    Inv (glkLockRound l queued) := by
  unfold glkLockRound
  split
  · rename_i ht
    obtain ⟨d, hm⟩ := glkTicketLockLock_taken hfit
    exact h.ticketAdap ht hm
  · rename_i ht
    exact h.mcsAdap ht hfit
  · rename_i ht
    exact h.mutexAdap ht

/-- A lock call keeps the invariant. -/
theorem lock (h : Inv l) {queued : List Nat} (hfit : Fits l queued)
    (hl : glkLock l queued = some m) : Inv m := by
  induction queued generalizing l with
  | nil => exact nomatch hl
  | cons n rest ih =>
      have hround := h.round hfit.1
      unfold glkLock at hl
      dsimp only at hl
      split at hl
      · obtain ⟨-, hl⟩ := Option.ite_none_right_eq_some.mp hl
        rwa [← Option.some.inj hl]
      · exact ih hround hfit.2 hl

/-- A trylock that does not decide keeps the invariant. -/
theorem trylock (h : Inv l) (hno : ¬ trylockDecides l) : Inv (glkTrylock l) := by
  unfold glkTrylock
  split
  · rename_i ht
    exact h.taken ht ⟨rfl, rfl, rfl, h.fits, rfl⟩ fun hadapt => hno ⟨ht, hadapt⟩
  · exact h
  · exact h

end Inv

/-- **The adaptive lock switches on the averages that it documents**, in every run in which
    no `glk_trylock` takes a ticket that decides and `queue_total` does not overflow: from
    TICKET to MCS when the average distance over the sampling points since the last
    decision in TICKET mode is at least 3, and from MCS, once it was decided to go or to
    stay there, to TICKET when the average with the eighth carried over is below 2. -/
theorem glkLock_documented {l : Lock} (h : Acquired counted l) : Documented l.trace := by
  suffices hinv : Inv l from hinv.documented
  induction h with
  | init lockType => exact glkInit_inv lockType
  | @acquire l l' a _ hok ha ih =>
      cases a with
      | lock queued => exact ih.lock hok ha
      | trylock =>
          obtain rfl : glkTrylock l = l' := Option.some.inj ha
          exact ih.trylock hok

/-! ## The steps of the adaptive lock

    The functions above are what the code of `Glk` does when it is run without a break:
    from the arrival in the queue of the ticket lock to the wait, and from the acquisition
    of one of the three locks to the check of `lock_type`. -/

section Steps

variable {Tid : Type} [DecidableEq Tid] {t : Tid} {sh : Shared Tid} {head : Heads} {l : Lock}

/-- Thread `t` goes from `x` to `y` by itself. -/
def Goes (t : Tid) : Shared Tid × Local Tid → Shared Tid × Local Tid → Prop :=
  Relation.ReflTransGen fun x y => Glk.go settings t x.1 x.2 = some y

/-- The counters of the adaptive lock. -/
structure Counts (sh : Shared Tid) (l : Lock) : Prop where
  lockType : l.lockType = sh.lockType
  tail : l.tail = sh.ticket.tail
  numAcquired : l.numAcquired = sh.numAcquired
  queueTotal : l.queueTotal = sh.queueTotal

/-- `queued` nodes from `n` on. -/
inductive Behind (next : Node Tid → Option (Node Tid)) : Option (Node Tid) → Nat → Prop where
  | none : Behind next none 0
  | some {n : Node Tid} {queued : Nat} :
      Behind next (next n) queued → Behind next (some n) (queued + 1)

/-- The stores at the end of an adaptation. -/
theorem adapStores_goes (sh : Shared Tid) (held : LockType) (total acquired : BitVec 32)
    (type : Option LockType) :
    Goes t (sh, ⟨head, .storeTotal held total acquired type⟩)
      ({ sh with
          queueTotal := total
          numAcquired := acquired
          lockType := type.getD sh.lockType }, ⟨head, .check false held⟩) := by
  cases type with
  | none => exact .head rfl (.head rfl .refl)
  | some ty => exact .head rfl (.head rfl (.head rfl .refl))

/-- A thread that arrives at the ticket lock. -/
theorem ticketAdd_goes (hl : Counts sh l) :
    ∃ sh', Goes t (sh, ⟨head, .ticketAdd⟩) (sh', ⟨head,
        if sh.ticket.tail + 1 - sh.ticket.head = 0 then
          Glk.glkTicketAdap settings (sh.ticket.tail + 1)
        else .ticketSpin (sh.ticket.tail + 1)⟩) ∧
      Counts sh' (glkTicketLockLock l (sh.ticket.tail + 1 - sh.ticket.head).toNat) := by
  obtain ⟨hltype, hltail, hlacq, hltotal⟩ := hl
  have hdist : BitVec.ofNat 32 (sh.ticket.tail + 1 - sh.ticket.head).toNat
      = sh.ticket.tail + 1 - sh.ticket.head := BitVec.ofNat_toNat ..
  have hadd : Glk.go settings t sh ⟨head, .ticketAdd⟩ = some
      ({ sh with ticket.tail := sh.ticket.tail + 1 },
        ⟨head, .ticketDistance (sh.ticket.tail + 1)⟩) := rfl
  unfold glkTicketLockLock
  dsimp only
  rw [hdist, hltail]
  by_cases hzero : sh.ticket.tail + 1 - sh.ticket.head = 0
  · rw [if_pos hzero, if_neg fun h => h.1 hzero]
    refine ⟨{ sh with ticket.tail := sh.ticket.tail + 1 }, .head hadd (.head ?_ .refl), hltype,
      rfl, hlacq, hltotal⟩
    simp only [Glk.go, Glk.glkTicketLockLock, hzero, if_true, Option.map_some]
  rw [if_neg hzero]
  by_cases hsample : settings.mustUpdateQueueLength (sh.ticket.tail + 1) = true
  · rw [if_pos ⟨hzero, hsample⟩]
    have hcount : Glk.go settings t { sh with ticket.tail := sh.ticket.tail + 1 }
        ⟨head, .ticketDistance (sh.ticket.tail + 1)⟩ = some
        ({ sh with ticket.tail := sh.ticket.tail + 1 }, ⟨head,
          .ticketCount (sh.ticket.tail + 1) (sh.ticket.tail + 1 - sh.ticket.head)⟩) := by
      simp only [Glk.go, Glk.glkTicketLockLock, if_neg hzero, if_pos hsample, Option.map_some]
    exact ⟨{ sh with
        ticket.tail := sh.ticket.tail + 1
        queueTotal := sh.queueTotal + (sh.ticket.tail + 1 - sh.ticket.head) },
      .head hadd (.head hcount (.head rfl .refl)), hltype, rfl, hlacq,
      congrArg (· + (sh.ticket.tail + 1 - sh.ticket.head)) hltotal⟩
  · rw [if_neg fun h => hsample h.2]
    refine ⟨{ sh with ticket.tail := sh.ticket.tail + 1 }, .head hadd (.head ?_ .refl), hltype,
      rfl, hlacq, hltotal⟩
    simp only [Glk.go, Glk.glkTicketLockLock, if_neg hzero, if_neg hsample, Option.map_some]

/-- The owner of a ticket. -/
theorem ticketAdap_goes (hl : Counts sh l) (hmp : sh.multiprogramming = false)
    (ticket : BitVec 32) :
    ∃ sh', Goes t (sh, ⟨head, Glk.glkTicketAdap settings ticket⟩)
        (sh', ⟨head, .check false .ticket⟩) ∧
      Counts sh' (glkTicketAdap l ticket) := by
  obtain ⟨hltype, hltail, hlacq, hltotal⟩ := hl
  unfold Glk.glkTicketAdap glkTicketAdap
  split
  · have hmp' : Glk.go settings t sh ⟨head, .ticketMp⟩ = some (sh, ⟨head, .ticketTotal⟩) := by
      simp [Glk.go, Glk.ticketAdap, hmp]
    rw [hltotal]
    split
    · rename_i hhigh
      have hgo : Glk.go settings t sh ⟨head, .ticketTotal⟩ = some (sh, ⟨head,
          .storeTotal .ticket (sh.queueTotal >>> 3) settings.numAcqInit (some .mcs)⟩) := by
        simp only [Glk.go, Glk.ticketAdap, if_pos hhigh, Option.map_some]
      have hgoes : Goes t (sh, ⟨head, .storeTotal .ticket (sh.queueTotal >>> 3)
          settings.numAcqInit (some .mcs)⟩) _ := adapStores_goes ..
      exact ⟨_, .head hmp' (.head hgo hgoes), rfl, hltail, rfl, rfl⟩
    · rename_i hhigh
      have hgo : Glk.go settings t sh ⟨head, .ticketTotal⟩ = some (sh, ⟨head,
          .storeTotal .ticket 0 settings.numAcqInit none⟩) := by
        simp only [Glk.go, Glk.ticketAdap, if_neg hhigh, Option.map_some]
      have hgoes : Goes t (sh, ⟨head, .storeTotal .ticket 0 settings.numAcqInit none⟩) _ :=
        adapStores_goes ..
      exact ⟨_, .head hmp' (.head hgo hgoes), hltype, hltail, rfl, rfl⟩
  · exact ⟨sh, .refl, hltype, hltail, hlacq, hltotal⟩

/-- The walk over the nodes behind the owner. -/
theorem mcsWalk_goes (sh : Shared Tid) (na res : BitVec 32) {n : Option (Node Tid)} {queued : Nat}
    (hq : Behind sh.mcs.next n queued) :
    Goes t (sh, ⟨head, walkFrom na n res⟩)
      (sh, ⟨head, .mcsAddTotal na (res + BitVec.ofNat 32 queued)⟩) := by
  induction hq generalizing res with
  | none =>
      rw [BitVec.add_zero]
      exact .refl
  | @some n queued _ ih =>
      refine .head rfl ?_
      have := ih (res + 1)
      rwa [BitVec.add_assoc, show (1 : BitVec 32) + BitVec.ofNat 32 queued
        = BitVec.ofNat 32 (queued + 1) by rw [Nat.add_comm, BitVec.ofNat_add]; rfl] at this

/-- The owner of the MCS lock, with `queued` threads linked behind it. -/
theorem mcsAdap_goes (hl : Counts sh l) (hmp : sh.multiprogramming = false) (na : BitVec 32)
    {i : Fin nestedLocksMax} (hi : glkMcsGetLocalNochange head = some i) {queued : Nat}
    (hq : Behind sh.mcs.next (sh.mcs.next (t, i)) queued) :
    ∃ sh', Goes t (sh, ⟨head, Glk.glkMcsAdap settings na⟩) (sh', ⟨head, .check false .mcs⟩) ∧
      Counts sh' (glkMcsAdap l queued na) := by
  obtain ⟨hltype, hltail, hlacq, hltotal⟩ := hl
  unfold Glk.glkMcsAdap glkMcsAdap
  split
  swap
  · exact ⟨sh, .refl, hltype, hltail, hlacq, hltotal⟩
  have hfirst : Glk.go settings t sh ⟨head, .mcsFirst na⟩
      = some (sh, ⟨head, walkFrom na (sh.mcs.next (t, i)) 1⟩) := by
    simp only [Glk.go, Glk.mcsAdap, hi, Option.map_some]
  have hwalk : Goes t (sh, ⟨head, .mcsFirst na⟩)
      (sh, ⟨head, .mcsAddTotal na (1 + BitVec.ofNat 32 queued)⟩) :=
    .head hfirst (mcsWalk_goes sh na 1 hq)
  rw [show (1 : BitVec 32) + BitVec.ofNat 32 queued = BitVec.ofNat 32 (1 + queued) from
    (BitVec.ofNat_add 1 queued).symm] at hwalk
  dsimp only
  rw [hltotal]
  by_cases hadapt : settings.mustTryAdapt na = true
  swap
  · rw [if_neg hadapt]
    refine ⟨{ sh with queueTotal := sh.queueTotal + BitVec.ofNat 32 (1 + queued) },
      hwalk.trans (.head ?_ .refl), hltype, hltail, hlacq, rfl⟩
    simp only [Glk.go, Glk.mcsAdap, if_neg hadapt, Option.map_some]
  rw [if_pos hadapt]
  generalize htotal : sh.queueTotal + BitVec.ofNat 32 (1 + queued) = total
  have hadd : Glk.go settings t sh ⟨head, .mcsAddTotal na (BitVec.ofNat 32 (1 + queued))⟩ = some
      ({ sh with queueTotal := total }, ⟨head, .mcsMp total⟩) := by
    simp only [Glk.go, Glk.mcsAdap, if_pos hadapt, htotal, Option.map_some]
  have hmp' : Glk.go settings t { sh with queueTotal := total } ⟨head, .mcsMp total⟩ = some
      ({ sh with queueTotal := total }, ⟨head,
        if settings.ratioLow total then .storeTotal .mcs 0 settings.numAcqInit (some .ticket)
        else .storeTotal .mcs (total.sshiftRight 3) settings.numAcqInit none⟩) := by
    simp only [Glk.go, Glk.mcsAdap, hmp, Bool.false_eq_true, if_false, Option.map_some]
  have hsteps := hwalk.trans (.head hadd (.head hmp' .refl))
  split
  · rename_i hlow
    rw [if_pos hlow] at hsteps
    exact ⟨_, hsteps.trans (adapStores_goes ..), rfl, hltail, rfl, rfl⟩
  · rename_i hlow
    rw [if_neg hlow] at hsteps
    exact ⟨_, hsteps.trans (adapStores_goes ..), hltype, hltail, rfl, rfl⟩

/-- The owner of the mutex. -/
theorem mutexAdap_goes (hl : Counts sh l) (hmp : sh.multiprogramming = false) :
    ∃ sh', Goes t (sh, ⟨head, .mutexMp⟩) (sh', ⟨head, .check false .mutex⟩) ∧
      Counts sh' (glkMutexAdap l) := by
  obtain ⟨hltype, hltail, hlacq, hltotal⟩ := hl
  have hmp' : Glk.go settings t sh ⟨head, .mutexMp⟩ = some (sh, ⟨head, .mutexType⟩) := by
    simp [Glk.go, Glk.mutexAdap, hmp]
  unfold glkMutexAdap
  rw [hltype]
  split
  · rename_i htype
    refine ⟨_, .head hmp' (.head ?_ (adapStores_goes sh .mutex _ _ (some .ticket))),
      rfl, hltail, rfl, rfl⟩
    simp only [Glk.go, Glk.mutexAdap, htype, if_true, Option.map_some]
  · rename_i htype
    refine ⟨sh, .head hmp' (.head ?_ .refl), hltype, hltail, hlacq, hltotal⟩
    simp only [Glk.go, Glk.mutexAdap, if_neg htype, Option.map_some]

end Steps

/-! ## A decision that is skipped -/

section Skipped

variable {l : Lock} {n : Nat}

/-- A ticket is taken with `n` threads in front. -/
def take (n : Nat) (l : Lock) : Lock :=
  if (l.tail.toNat + 1) % 128 = 0 then
    { l with
      tail := l.tail + 1
      queueTotal := l.queueTotal + BitVec.ofNat 32 n
      trace := .ticket true n :: l.trace }
  else { l with tail := l.tail + 1, trace := .ticket false 0 :: l.trace }

theorem glkTicketLockLock_take (hn : BitVec.ofNat 32 n ≠ 0) (l : Lock) :
    glkTicketLockLock l n = take n l := by
  have htail := tail_succ l.tail
  have hmust := mustUpdateQueueLength_iff (l.tail + 1)
  unfold glkTicketLockLock take
  by_cases hpoint : (l.tail.toNat + 1) % 128 = 0
  · have : settings.mustUpdateQueueLength (l.tail + 1) = true := hmust.mpr (by omega)
    rw [if_pos hpoint, if_pos ⟨hn, this⟩]
  · have : ¬ settings.mustUpdateQueueLength (l.tail + 1) = true := by
      rw [hmust]
      omega
    rw [if_neg hpoint, if_neg fun h => this h.2, Bool.eq_false_of_not_eq_true this]

theorem lock_take (hn : BitVec.ofNat 32 n ≠ 0) (ht : l.lockType = .ticket)
    (hno : (l.tail.toNat + 1) % 4096 ≠ 0) : acquire l (.lock [n]) = some (take n l) := by
  have htail := tail_succ l.tail
  have hadapt : ¬ settings.mustTryAdapt (l.tail + 1) = true := by
    rw [mustTryAdapt_iff]
    omega
  have hround : glkLockRound l n = take n l := by
    rw [glkLockRound, ht]
    show glkTicketAdap (glkTicketLockLock l n) (l.tail + 1) = take n l
    rw [glkTicketAdap, if_neg hadapt, glkTicketLockLock_take hn]
  have hsame : (take n l).lockType = l.lockType := by
    unfold take
    split <;> rfl
  show glkLock l [n] = some (take n l)
  simp only [glkLock, hround, hsame, if_true]

/-- What 4095 tickets after one that decides add up to. -/
structure Passed (n k : Nat) (l m : Lock) : Prop where
  lockType : m.lockType = .ticket
  tail : m.tail.toNat = l.tail.toNat + k
  queueTotal : m.queueTotal.toNat = l.queueTotal.toNat + n * (k / 128)
  points : points m.trace = points l.trace + k / 128
  distances : distances m.trace = distances l.trace + n * (k / 128)

/-- A number of tickets up to the next one that decides, each taken with `n` threads in
    front. -/
theorem locks_take {ok : Lock → Acq → Prop}
    (hok : ∀ l : Lock, l.queueTotal.toNat < 1000 → ok l (.lock [n]))
    (hn : 0 < n) (hn' : n < 10) (h : Acquired ok l) (ht : l.lockType = .ticket)
    (hb : l.tail.toNat % 4096 = 0) (hq : l.queueTotal.toNat < 100) (k : Nat) (hk : k < 4096) :
    ∃ m, Acquired ok m ∧ Passed n k l m := by
  have hne : BitVec.ofNat 32 n ≠ 0 := by
    rw [Ne, ← BitVec.toNat_inj, BitVec.toNat_ofNat, Nat.mod_eq_of_lt (by omega)]
    exact hn.ne'
  induction k with
  | zero => exact ⟨l, h, ht, rfl, rfl, rfl, rfl⟩
  | succ k ih =>
      obtain ⟨m, hm, hmt, htail, htotal, hpoints, hdist⟩ := ih (by omega)
      have hsum : n * (k / 128) ≤ 9 * 31 := Nat.mul_le_mul (by omega) (by omega)
      have htail' : (m.tail + 1).toNat = l.tail.toNat + (k + 1) := by
        rw [BitVec.toNat_add, htail, show (1 : BitVec 32).toNat = 1 from rfl]
        omega
      have hstep := lock_take hne hmt (by omega)
      refine ⟨take n m, hm.acquire (hok m (by omega)) hstep, ?_⟩
      unfold take
      by_cases hpoint : (m.tail.toNat + 1) % 128 = 0
      · have hdiv : (k + 1) / 128 = k / 128 + 1 := by omega
        have htotal' : (m.queueTotal + BitVec.ofNat 32 n).toNat = m.queueTotal.toNat + n := by
          rw [BitVec.toNat_add, BitVec.toNat_ofNat]
          omega
        rw [if_pos hpoint]
        refine ⟨hmt, htail', ?_, ?_, ?_⟩
        · show (m.queueTotal + BitVec.ofNat 32 n).toNat = _
          rw [htotal', htotal, hdiv, Nat.mul_succ, Nat.add_assoc]
        · rw [points_ticket, hpoints, Bool.toNat_true, hdiv, Nat.add_assoc]
        · rw [distances_ticket, hdist, hdiv, Nat.mul_succ]
          omega
      · have hdiv : (k + 1) / 128 = k / 128 := by omega
        rw [if_neg hpoint]
        refine ⟨hmt, htail', ?_, ?_, ?_⟩
        · show m.queueTotal.toNat = _
          rw [htotal, hdiv]
        · rw [points_ticket, hpoints, Bool.toNat_false, Nat.add_zero, hdiv]
        · rw [distances_ticket, hdist, Nat.zero_add, hdiv]

/-- The round that takes the ticket that decides, when it decides to go to MCS. -/
theorem round_decides (hn : BitVec.ofNat 32 n ≠ 0) (ht : l.lockType = .ticket)
    (hb : (l.tail.toNat + 1) % 4096 = 0) (hq : 96 ≤ l.queueTotal.toNat + n)
    (hq' : l.queueTotal.toNat + n < 1000) :
    glkLockRound l n =
      { l with
        tail := l.tail + 1
        queueTotal := (l.queueTotal + BitVec.ofNat 32 n) >>> 3
        numAcquired := settings.numAcqInit
        lockType := .mcs
        trace := .ticketAdap true :: .ticket true n :: l.trace } := by
  have htail := tail_succ l.tail
  have hpoint : (l.tail.toNat + 1) % 128 = 0 := by omega
  have hadapt : settings.mustTryAdapt (l.tail + 1) = true := by
    rw [mustTryAdapt_iff]
    omega
  have hhigh : settings.ratioHigh (l.queueTotal + BitVec.ofNat 32 n) = true := by
    rw [ratioHigh_iff, BitVec.toNat_add, BitVec.toNat_ofNat]
    omega
  rw [glkLockRound, ht]
  show glkTicketAdap (glkTicketLockLock l n) (l.tail + 1) = _
  rw [glkTicketAdap, if_pos hadapt, glkTicketLockLock_take hn, take, if_pos hpoint, if_pos hhigh]

/-- The second round acquires the MCS lock and does not sample. -/
theorem lock_decides (hn : BitVec.ofNat 32 n ≠ 0) (ht : l.lockType = .ticket)
    (hb : (l.tail.toNat + 1) % 4096 = 0) (hq : 96 ≤ l.queueTotal.toNat + n)
    (hq' : l.queueTotal.toNat + n < 1000) :
    ∃ m, acquire l (.lock [n, 0]) = some m ∧
      m.trace = .ticketAdap true :: .ticket true n :: l.trace := by
  have hround := round_decides hn ht hb hq hq'
  have hlock : acquire l (.lock [n, 0]) =
      some { glkLockRound l n with numAcquired := settings.numAcqInit + 1 } := by
    show glkLock l [n, 0] = _
    rw [glkLock]
    dsimp only
    rw [hround, ht, if_neg nofun]
    have hquiet : ¬ settings.mustUpdateQueueLength (settings.numAcqInit + 1) = true := by decide
    simp only [glkLock, glkLockRound, glkMcsLockLock, glkMcsAdap, if_neg hquiet, if_true]
  refine ⟨_, hlock, ?_⟩
  rw [hround]

/-- With 3 threads in front of every acquisition, ticket 4096 takes the lock to MCS. -/
theorem glkLock_documented_toMcs : ∃ (l : Lock) (tr : List Event), Acquired counted l ∧
    l.trace = .ticketAdap true :: tr ∧ points tr = 32 ∧ Documented l.trace := by
  obtain ⟨m, hm, hp⟩ : ∃ m, Acquired counted m ∧ Passed 3 4095 (glkInit .ticket) m :=
    locks_take (fun l hl => ⟨by omega, trivial⟩) (by decide) (by decide) (.init .ticket) rfl rfl
      (by decide) 4095 (by decide)
  have htail : m.tail.toNat = 4095 := hp.tail
  have htotal : m.queueTotal.toNat = 93 := hp.queueTotal
  have hpoints : points m.trace = 31 := hp.points
  have hround := round_decides (n := 3) (by decide) hp.lockType (by rw [htail])
    (by rw [htotal]) (by rw [htotal]; decide)
  have hfits : Fits m [3, 0] := by
    refine ⟨by omega, ?_, trivial⟩
    rw [hround]
    show ((m.queueTotal + BitVec.ofNat 32 3) >>> 3).toNat + 1 < 2 ^ 31
    rw [BitVec.toNat_ushiftRight, Nat.shiftRight_eq_div_pow]
    omega
  obtain ⟨l, hl, htrace⟩ := lock_decides (n := 3) (by decide) hp.lockType (by rw [htail])
    (by rw [htotal]) (by rw [htotal]; decide)
  have hacq : Acquired counted l := hm.acquire (a := .lock [3, 0]) hfits hl
  refine ⟨l, _, hacq, htrace, ?_, glkLock_documented hacq⟩
  rw [points_ticket, hpoints]
  rfl

/-- **A decision is skipped**: a `glk_trylock` takes ticket 4096, and at ticket 8192 the lock
    goes from TICKET to MCS with an average distance below 2 over 64 sampling points, while
    2 threads are in front of every other acquisition. -/
theorem glkLock_not_documented :
    ¬ ∀ l : Lock, Acquired (fun _ _ => True) l → Documented l.trace := by
  intro hclaim
  obtain ⟨m, hm, hp⟩ : ∃ m, Acquired (fun _ _ => True) m ∧ Passed 2 4095 (glkInit .ticket) m :=
    locks_take (fun _ _ => trivial) (by decide) (by decide) (.init .ticket) rfl rfl (by decide)
      4095 (by decide)
  have htail : m.tail.toNat = 4095 := hp.tail
  have htotal : m.queueTotal.toNat = 62 := hp.queueTotal
  have hpoints : points m.trace = 31 := hp.points
  have hdist : distances m.trace = 62 := hp.distances
  -- ticket 4096 goes to `glk_trylock`
  have htail' : (m.tail + 1).toNat = 4096 := by
    rw [BitVec.toNat_add, htail]
    rfl
  have hmust : settings.mustUpdateQueueLength (m.tail + 1) = true := by
    rw [mustUpdateQueueLength_iff, htail']
  have htry : glkTrylock m = { m with tail := m.tail + 1, trace := .ticket true 0 :: m.trace } := by
    rw [glkTrylock, hp.lockType]
    dsimp only
    rw [hmust]
  have hm' := hm.acquire (a := .trylock) trivial rfl
  rw [htry] at hm'
  obtain ⟨m', hm'', hp'⟩ := locks_take (n := 2) (fun _ _ => trivial) (by decide) (by decide) hm'
    hp.lockType (by rw [htail']) (by rw [htotal]; decide) 4095 (by decide)
  have htail'' : m'.tail.toNat = 4096 + 4095 := hp'.tail.trans (by rw [htail'])
  have htotal' : m'.queueTotal.toNat = 62 + 62 := hp'.queueTotal.trans (by rw [htotal])
  have hpoints' : points m'.trace = 32 + 31 :=
    hp'.points.trans (by rw [points_ticket, hpoints]; rfl)
  have hdist' : distances m'.trace = 62 + 62 :=
    hp'.distances.trans (by rw [distances_ticket, hdist])
  obtain ⟨last, hlast, htrace⟩ := lock_decides (n := 2) (by decide) hp'.lockType
    (by rw [htail'']) (by rw [htotal']; decide) (by rw [htotal']; decide)
  have hdoc := hclaim last (hm''.acquire trivial hlast)
  rw [htrace] at hdoc
  have havg := (hdoc.toMcs _ (List.suffix_refl _)).2
  rw [points_ticket, distances_ticket, hpoints', hdist'] at havg
  exact absurd havg (by decide)

end Skipped

end GlkAdapt
