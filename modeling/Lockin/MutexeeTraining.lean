import Mathlib.Tactic

/-! # How MUTEXEE chooses between spinning and sleeping

    `mutexee_lock_training` of `mutexee_in.h`, which every contended unlock calls.  Once
    every 2048 calls it looks at the number of misses and may switch the lock between its
    two modes: SPIN mode (long spinning, `is_futex = 0`) and FUTEX mode (short spinning).

    In futex mode `is_futex` counts the periods.  It is compared before it is incremented,
    with a bound that is doubled at the switch back, so the mode would never end if the
    count could pass the bound.  It cannot (`Trained`): what is left of the mode
    (`remaining`) goes down by one in every call and reaches 0 at the switch back. -/

namespace MutexeeTraining

/-- What the adaptation of a `mutexee_lock_t` reads and writes. -/
structure Training where
  nSpins : BitVec 32
  nSpinsUnlock : BitVec 32
  nAcq : BitVec 64
  nMiss : BitVec 32
  nMissLimit : BitVec 32
  isFutex : BitVec 32
  retrySpinEvery : BitVec 32
  deriving DecidableEq

def MUTEXEE_SPIN_TRIES_LOCK : BitVec 32 := 8192
def MUTEXEE_SPIN_TRIES_LOCK_MIN : BitVec 32 := 256
def MUTEXEE_SPIN_TRIES_UNLOCK : BitVec 32 := 384
def MUTEXEE_SPIN_TRIES_UNLOCK_MIN : BitVec 32 := 128
def MUTEXEE_ADAP_EVERY : BitVec 64 := 2047
def MUTEXEE_RETRY_SPIN_EVERY : BitVec 32 := 8
def MUTEXEE_RETRY_SPIN_EVERY_MAX : BitVec 32 := 32
def MUTEXEE_FUTEX_LIM : BitVec 32 := 128
def MUTEXEE_FUTEX_LIM_MAX : BitVec 32 := 256

/-- `mutexee_init`. -/
def mutexeeInit : Training where
  nSpins := MUTEXEE_SPIN_TRIES_LOCK
  nSpinsUnlock := MUTEXEE_SPIN_TRIES_UNLOCK
  nAcq := 0
  nMiss := 0
  nMissLimit := MUTEXEE_FUTEX_LIM
  isFutex := 0
  retrySpinEvery := MUTEXEE_RETRY_SPIN_EVERY

/-- The end of a period in spin mode. -/
def spinPeriod (m : Training) : Training :=
  if m.nMissLimit < m.nMiss then
    { m with
      nSpins := MUTEXEE_SPIN_TRIES_LOCK_MIN
      nSpinsUnlock := MUTEXEE_SPIN_TRIES_UNLOCK_MIN
      isFutex := 1 }
  else m

/-- The end of a period in futex mode. -/
def futexPeriod (m : Training) : Training :=
  let re := m.retrySpinEvery
  if m.isFutex = re then
    { m with
      retrySpinEvery := if re < MUTEXEE_RETRY_SPIN_EVERY_MAX then re <<< 1 else re
      nMissLimit := if m.nMissLimit < MUTEXEE_FUTEX_LIM_MAX then m.nMissLimit + 1
        else m.nMissLimit
      isFutex := 0
      nSpins := MUTEXEE_SPIN_TRIES_LOCK
      nSpinsUnlock := MUTEXEE_SPIN_TRIES_UNLOCK }
  else { m with isFutex := m.isFutex + 1 }

/-- `mutexee_lock_training`. -/
def mutexeeLockTraining (m : Training) : Training :=
  let m := { m with nAcq := m.nAcq + 1 }
  if m.nAcq &&& MUTEXEE_ADAP_EVERY = 0 then
    { (if m.isFutex = 0 then spinPeriod m else futexPeriod m) with nMiss := 0 }
  else m

/-- A contended unlock, before which `n_miss` has become `nMiss`. -/
def train (m : Training) (nMiss : BitVec 32) : Training :=
  mutexeeLockTraining { m with nMiss := nMiss }

/-- A sequence of contended unlocks. -/
def trains (m : Training) (ns : List (BitVec 32)) : Training := ns.foldl train m

/-- One sequence after the other. -/
theorem trains_append (m : Training) (ns ns' : List (BitVec 32)) :
    trains m (ns ++ ns') = trains (trains m ns) ns' := List.foldl_append

/-! ## What a call can do -/

/-- The last call of a period. -/
def Due (m : Training) : Prop := m.nAcq.toNat % 2048 = 2047

/-- The training is due at every 2048th acquisition. -/
theorem due_iff (m : Training) : (m.nAcq + 1) &&& MUTEXEE_ADAP_EVERY = 0 ↔ Due m := by
  have hmask : ((m.nAcq + 1) &&& MUTEXEE_ADAP_EVERY).toNat = (m.nAcq.toNat + 1) % 2048 := by
    rw [BitVec.toNat_and, BitVec.toNat_add]
    show (m.nAcq.toNat + 1) % 2 ^ 64 &&& (2 ^ 11 - 1) = _
    rw [Nat.and_two_pow_sub_one_eq_mod]
    omega
  rw [← BitVec.toNat_inj, hmask, Due]
  show _ = 0 ↔ _
  omega

theorem nAcq_succ (m : Training) : (m.nAcq + 1).toNat % 2048 = (m.nAcq.toNat + 1) % 2048 := by
  rw [BitVec.toNat_add]
  show (m.nAcq.toNat + 1) % 2 ^ 64 % 2048 = _
  omega

/-- **Inversion.** A call counts; at the end of a period it may also switch, or count the
    period. -/
theorem train_cases (m : Training) (n : BitVec 32) :
    (¬ Due m ∧ train m n = { m with nAcq := m.nAcq + 1, nMiss := n }) ∨
    (Due m ∧ m.isFutex = 0 ∧
      train m n = { spinPeriod { m with nAcq := m.nAcq + 1, nMiss := n } with nMiss := 0 }) ∨
    (Due m ∧ m.isFutex ≠ 0 ∧
      train m n = { futexPeriod { m with nAcq := m.nAcq + 1, nMiss := n } with nMiss := 0 }) := by
  unfold train mutexeeLockTraining
  dsimp only
  by_cases hdue : Due m
  · rw [if_pos ((due_iff m).mpr hdue)]
    by_cases hspin : m.isFutex = 0
    · rw [if_pos hspin]
      exact Or.inr (Or.inl ⟨hdue, hspin, rfl⟩)
    · rw [if_neg hspin]
      exact Or.inr (Or.inr ⟨hdue, hspin, rfl⟩)
  · rw [if_neg fun h => hdue ((due_iff m).mp h)]
    exact Or.inl ⟨hdue, rfl⟩

/-! ## The invariant -/

/-- The two modes. -/
def Spinning (m : Training) : Prop :=
  m.nSpins = MUTEXEE_SPIN_TRIES_LOCK ∧ m.nSpinsUnlock = MUTEXEE_SPIN_TRIES_UNLOCK

def Sleeping (m : Training) : Prop :=
  m.nSpins = MUTEXEE_SPIN_TRIES_LOCK_MIN ∧ m.nSpinsUnlock = MUTEXEE_SPIN_TRIES_UNLOCK_MIN

/-- The invariant of the adaptation. -/
structure Trained (m : Training) : Prop where
  count : m.isFutex ≤ m.retrySpinEvery
  retry : m.retrySpinEvery = 8 ∨ m.retrySpinEvery = 16 ∨ m.retrySpinEvery = 32
  limit : 128 ≤ m.nMissLimit ∧ m.nMissLimit ≤ 256
  spinning : m.isFutex = 0 → Spinning m
  sleeping : m.isFutex ≠ 0 → Sleeping m

theorem Spinning.not_sleeping {m : Training} (h : Spinning m) : ¬ Sleeping m := by
  intro h'
  exact absurd (h.1.symm.trans h'.1) (by decide)

namespace Trained

variable {m : Training}

/-- Outside its futex mode the lock spins. -/
theorem spinning_iff (h : Trained m) : m.isFutex = 0 ↔ Spinning m := by
  refine ⟨h.spinning, fun hspin => ?_⟩
  by_contra hne
  exact hspin.not_sleeping (h.sleeping hne)

/-- In its futex mode the lock sleeps. -/
theorem sleeping_iff (h : Trained m) : 0 < m.isFutex ↔ Sleeping m := by
  constructor
  · intro hpos
    refine h.sleeping fun h0 => ?_
    rw [h0] at hpos
    exact absurd hpos (by decide)
  · intro hsleep
    by_contra hne
    refine (h.spinning ?_).not_sleeping hsleep
    bv_omega

/-- A new lock. -/
theorem init : Trained mutexeeInit :=
  ⟨by decide, Or.inl rfl, by decide, fun _ => ⟨rfl, rfl⟩, fun h => absurd rfl h⟩

theorem retry_pos (h : Trained m) : 0 < m.retrySpinEvery := by
  rcases h.retry with hr | hr | hr <;> rw [hr] <;> decide

/-- The end of a period in spin mode. -/
theorem spin (h : Trained m) : Trained (spinPeriod m) := by
  unfold spinPeriod
  split
  · refine ⟨?_, h.retry, h.limit, fun h1 => ?_, fun _ => ⟨rfl, rfl⟩⟩
    · have hpos := h.retry_pos
      show (1 : BitVec 32) ≤ m.retrySpinEvery
      bv_omega
    · have h1' : (1 : BitVec 32) = 0 := h1
      exact absurd h1' (by decide)
  · exact h

/-- The end of a period in futex mode. -/
theorem futex (h : Trained m) (hne : m.isFutex ≠ 0) : Trained (futexPeriod m) := by
  have hlimit := h.limit
  unfold futexPeriod
  dsimp only
  split
  · refine ⟨Nat.zero_le _, ?_, ?_, fun _ => ⟨rfl, rfl⟩, fun h0 => absurd rfl h0⟩
    · -- the bound is doubled up to 32
      rcases h.retry with hr | hr | hr <;> dsimp only <;> rw [hr]
      · exact Or.inr (Or.inl (by decide))
      · exact Or.inr (Or.inr (by decide))
      · exact Or.inr (Or.inr (by decide))
    · show 128 ≤ (if m.nMissLimit < 256 then m.nMissLimit + 1 else m.nMissLimit) ∧
        (if m.nMissLimit < 256 then m.nMissLimit + 1 else m.nMissLimit) ≤ 256
      split <;> bv_omega
  · rename_i hcount
    have hle := h.count
    have hmax : m.retrySpinEvery ≤ 32 := by
      rcases h.retry with hr | hr | hr <;> rw [hr] <;> decide
    refine ⟨?_, h.retry, h.limit, fun h0 => ?_, fun _ => h.sleeping hne⟩
    · show m.isFutex + 1 ≤ m.retrySpinEvery
      bv_omega
    · have h0' : m.isFutex + 1 = 0 := h0
      exact absurd h0' (by bv_omega)

/-- **Step lemma.** -/
theorem step (h : Trained m) (n : BitVec 32) : Trained (train m n) := by
  have hcount : Trained { m with nAcq := m.nAcq + 1, nMiss := n } :=
    ⟨h.count, h.retry, h.limit, h.spinning, h.sleeping⟩
  rcases train_cases m n with ⟨-, heq⟩ | ⟨-, -, heq⟩ | ⟨-, hne, heq⟩ <;> rw [heq]
  · exact hcount
  · have hspin := hcount.spin
    exact ⟨hspin.count, hspin.retry, hspin.limit, hspin.spinning, hspin.sleeping⟩
  · have hfutex := hcount.futex hne
    exact ⟨hfutex.count, hfutex.retry, hfutex.limit, hfutex.spinning, hfutex.sleeping⟩

/-- **Run lemma.** -/
theorem run (h : Trained m) (ns : List (BitVec 32)) : Trained (trains m ns) := by
  induction ns generalizing m with
  | nil => exact h
  | cons n ns ih => exact ih (h.step n)

/-! ## The two bounds -/

theorem step_le (h : Trained m) (n : BitVec 32) :
    m.retrySpinEvery ≤ (train m n).retrySpinEvery ∧ m.nMissLimit ≤ (train m n).nMissLimit := by
  rcases train_cases m n with ⟨-, heq⟩ | ⟨-, -, heq⟩ | ⟨-, -, heq⟩ <;> rw [heq]
  · exact ⟨BitVec.le_refl _, BitVec.le_refl _⟩
  · unfold spinPeriod
    split <;> exact ⟨BitVec.le_refl _, BitVec.le_refl _⟩
  · unfold futexPeriod
    dsimp only
    split
    · constructor
      · rcases h.retry with hr | hr | hr <;> dsimp only <;> rw [hr] <;> decide
      · have hlimit := h.limit
        show m.nMissLimit ≤ (if m.nMissLimit < 256 then m.nMissLimit + 1 else m.nMissLimit)
        split <;> bv_omega
    · exact ⟨BitVec.le_refl _, BitVec.le_refl _⟩

/-- Neither bound ever goes down. -/
theorem run_le (h : Trained m) (ns : List (BitVec 32)) :
    m.retrySpinEvery ≤ (trains m ns).retrySpinEvery ∧ m.nMissLimit ≤ (trains m ns).nMissLimit := by
  induction ns generalizing m with
  | nil => exact ⟨BitVec.le_refl _, BitVec.le_refl _⟩
  | cons n ns ih =>
      have hstep := h.step_le n
      have hrun := ih (h.step n)
      exact ⟨BitVec.le_trans hstep.1 hrun.1, BitVec.le_trans hstep.2 hrun.2⟩

/-! ## The length of the futex mode -/

end Trained

/-- How many calls the futex mode still lasts. -/
def remaining (m : Training) : Nat :=
  2048 * (m.retrySpinEvery.toNat - m.isFutex.toNat + 1) - m.nAcq.toNat % 2048

namespace Trained

variable {m : Training}

/-- One call less. -/
theorem remaining_step (h : Trained m) (hne : m.isFutex ≠ 0) (n : BitVec 32) :
    if remaining m = 1 then (train m n).isFutex = 0
    else (train m n).isFutex ≠ 0 ∧ remaining (train m n) + 1 = remaining m := by
  have hcount : m.isFutex.toNat ≤ m.retrySpinEvery.toNat := BitVec.le_def.mp h.count
  have hacq := nAcq_succ m
  rcases train_cases m n with ⟨hdue, heq⟩ | ⟨-, h0, -⟩ | ⟨hdue, -, heq⟩
  · -- within a period
    unfold Due at hdue
    rw [heq, if_neg (by unfold remaining; omega)]
    refine ⟨hne, ?_⟩
    unfold remaining
    dsimp only
    omega
  · exact absurd h0 hne
  · unfold Due at hdue
    rw [heq]
    by_cases hlast : m.isFutex = m.retrySpinEvery
    · rw [if_pos (by unfold remaining; rw [hlast]; omega)]
      unfold futexPeriod
      dsimp only
      rw [if_pos hlast]
    · have hlt : m.isFutex.toNat < m.retrySpinEvery.toNat :=
        lt_of_le_of_ne hcount fun he => hlast (BitVec.toNat_inj.mp he)
      have hsucc : (m.isFutex + 1).toNat = m.isFutex.toNat + 1 := by bv_omega
      rw [if_neg (by unfold remaining; omega)]
      unfold futexPeriod
      dsimp only
      rw [if_neg hlast]
      refine ⟨?_, ?_⟩
      · show m.isFutex + 1 ≠ 0
        bv_omega
      · unfold remaining
        dsimp only
        rw [hsucc]
        omega

/-- The mode lasts as long as something of it remains. -/
theorem remaining_run (h : Trained m) (hne : m.isFutex ≠ 0) (ns : List (BitVec 32)) :
    (ns.length < remaining m → (trains m ns).isFutex ≠ 0) ∧
    (ns.length = remaining m → (trains m ns).isFutex = 0) := by
  have hcount : m.isFutex.toNat ≤ m.retrySpinEvery.toNat := BitVec.le_def.mp h.count
  induction ns generalizing m with
  | nil =>
      refine ⟨fun _ => hne, fun hlen => ?_⟩
      have : 0 = remaining m := hlen
      unfold remaining at this
      omega
  | cons n ns ih =>
      have hstep := h.remaining_step hne n
      have hrec := h.step n
      rw [List.length_cons]
      split at hstep <;> rename_i hlast
      · -- the last call of the mode
        refine ⟨fun hlt => absurd hlt (by omega), fun hlen => ?_⟩
        obtain rfl := List.length_eq_zero_iff.mp (by omega : ns.length = 0)
        exact hstep
      · obtain ⟨hlt, heq⟩ := ih hrec hstep.1 (BitVec.le_def.mp hrec.count)
        exact ⟨fun hlen => hlt (by omega), fun hlen => heq (by omega)⟩

/-- The switch to futex mode. -/
theorem remaining_switch (h : Trained m) (h0 : m.isFutex = 0) {n : BitVec 32}
    (hne : (train m n).isFutex ≠ 0) :
    remaining (train m n) = 2048 * (train m n).retrySpinEvery.toNat := by
  have hpos := h.retry_pos
  have hacq := nAcq_succ m
  rcases train_cases m n with ⟨-, heq⟩ | ⟨hdue, -, heq⟩ | ⟨-, hne', -⟩
  · rw [heq] at hne
    exact absurd h0 hne
  · unfold Due at hdue
    rw [heq] at hne ⊢
    unfold spinPeriod at hne ⊢
    split at hne <;> rename_i hmiss
    · rw [if_pos hmiss]
      unfold remaining
      dsimp only
      have hone : (1 : BitVec 32).toNat = 1 := rfl
      have : 0 < m.retrySpinEvery.toNat := BitVec.lt_def.mp hpos
      rw [hone]
      omega
    · exact absurd h0 hne
  · exact absurd h0 hne'

end Trained

/-- **The adaptation of MUTEXEE.**  Whatever `n_miss` becomes between the calls: `is_futex`
    stays within `retry_spin_every`, the two bounds stay in their ranges and never go down,
    `is_futex` says which of the two modes the lock is in, and the futex mode ends after
    exactly `retry_spin_every` periods of 2048 calls. -/
theorem mutexeeLockTraining_modes (ns : List (BitVec 32)) :
    (trains mutexeeInit ns).isFutex ≤ (trains mutexeeInit ns).retrySpinEvery ∧
    ((trains mutexeeInit ns).retrySpinEvery = 8 ∨ (trains mutexeeInit ns).retrySpinEvery = 16 ∨
      (trains mutexeeInit ns).retrySpinEvery = 32) ∧
    (128 ≤ (trains mutexeeInit ns).nMissLimit ∧ (trains mutexeeInit ns).nMissLimit ≤ 256) ∧
    ((trains mutexeeInit ns).isFutex = 0 ↔ Spinning (trains mutexeeInit ns)) ∧
    (0 < (trains mutexeeInit ns).isFutex ↔ Sleeping (trains mutexeeInit ns)) ∧
    (∀ ns', (trains mutexeeInit ns).retrySpinEvery
        ≤ (trains mutexeeInit (ns ++ ns')).retrySpinEvery ∧
      (trains mutexeeInit ns).nMissLimit ≤ (trains mutexeeInit (ns ++ ns')).nMissLimit) ∧
    ∀ n, (trains mutexeeInit ns).isFutex = 0 → (trains mutexeeInit (ns ++ [n])).isFutex ≠ 0 →
      ∀ ns', (ns'.length < 2048 * (trains mutexeeInit (ns ++ [n])).retrySpinEvery.toNat →
          (trains mutexeeInit (ns ++ [n] ++ ns')).isFutex ≠ 0) ∧
        (ns'.length = 2048 * (trains mutexeeInit (ns ++ [n])).retrySpinEvery.toNat →
          (trains mutexeeInit (ns ++ [n] ++ ns')).isFutex = 0) := by
  have h := Trained.init.run ns
  refine ⟨h.count, h.retry, h.limit, h.spinning_iff, h.sleeping_iff, ?_, ?_⟩
  · intro ns'
    rw [trains_append]
    exact h.run_le ns'
  · intro n h0 hne ns'
    have hswitch : trains mutexeeInit (ns ++ [n]) = train (trains mutexeeInit ns) n :=
      trains_append _ _ _
    rw [hswitch] at hne
    rw [trains_append _ (ns ++ [n]), hswitch]
    have hremaining := h.remaining_switch h0 hne
    rw [← hremaining]
    exact (h.step n).remaining_run hne ns'

/-! ## A lock that goes to futex mode and comes back -/

/-- Within a period the calls are only counted. -/
theorem trains_within (m : Training) (ns : List (BitVec 32))
    (h : m.nAcq.toNat % 2048 + ns.length < 2048) : ∃ miss,
      trains m ns = { m with nAcq := m.nAcq + BitVec.ofNat 64 ns.length, nMiss := miss } := by
  induction ns generalizing m with
  | nil => exact ⟨m.nMiss, by simp [trains]⟩
  | cons n ns ih =>
      rw [List.length_cons] at h
      have hdue : ¬ Due m := by
        unfold Due
        omega
      have heq : train m n = { m with nAcq := m.nAcq + 1, nMiss := n } := by
        obtain ⟨-, heq⟩ | ⟨hd, -⟩ | ⟨hd, -⟩ := train_cases m n
        · exact heq
        · exact absurd hd hdue
        · exact absurd hd hdue
      obtain ⟨miss, hrun⟩ := ih (train m n) (by
        rw [heq, nAcq_succ]
        omega)
      refine ⟨miss, hrun.trans ?_⟩
      rw [heq, List.length_cons]
      congr 1
      rw [BitVec.add_assoc, BitVec.ofNat_add, BitVec.add_comm 1]
      rfl

/-- A period of spinning with too many misses. -/
theorem train_misses {m : Training} (hdue : Due m) (h0 : m.isFutex = 0) {n : BitVec 32}
    (hn : m.nMissLimit < n) :
    (train m n).isFutex = 1 ∧ (train m n).retrySpinEvery = m.retrySpinEvery := by
  obtain ⟨hd, -⟩ | ⟨-, -, heq⟩ | ⟨-, hne, -⟩ := train_cases m n
  · exact absurd hdue hd
  · rw [heq]
    unfold spinPeriod
    rw [if_pos hn]
    exact ⟨rfl, rfl⟩
  · exact absurd h0 hne

/-- 129 misses in the first period, and the futex mode lasts for 8 periods. -/
theorem mutexeeLockTraining_modes_entered : ∃ ns n, (trains mutexeeInit ns).isFutex = 0 ∧
    (trains mutexeeInit (ns ++ [n])).isFutex = 1 ∧
    ∀ ns', (ns'.length < 2048 * 8 → (trains mutexeeInit (ns ++ [n] ++ ns')).isFutex ≠ 0) ∧
      (ns'.length = 2048 * 8 → (trains mutexeeInit (ns ++ [n] ++ ns')).isFutex = 0) := by
  obtain ⟨ns, miss, hns⟩ : ∃ ns miss,
      trains mutexeeInit ns = { mutexeeInit with nAcq := 2047, nMiss := miss } := by
    obtain ⟨miss, hns⟩ := trains_within mutexeeInit (List.replicate 2047 0) (by
      rw [List.length_replicate]
      decide)
    rw [List.length_replicate] at hns
    exact ⟨_, miss, hns⟩
  have h0 : (trains mutexeeInit ns).isFutex = 0 := by
    rw [hns]
    rfl
  have hswitch : trains mutexeeInit (ns ++ [129]) = train (trains mutexeeInit ns) 129 :=
    trains_append _ _ _
  obtain ⟨hone, hretry⟩ := train_misses (m := trains mutexeeInit ns) (n := 129)
    (by rw [hns]; exact (by decide : (2047 : BitVec 64).toNat % 2048 = 2047)) h0
    (by rw [hns]; exact (by decide : (128 : BitVec 32) < 129))
  rw [← hswitch] at hone hretry
  have hlasts := (mutexeeLockTraining_modes ns).2.2.2.2.2.2 129 h0 (by rw [hone]; decide)
  rw [hretry, hns] at hlasts
  exact ⟨ns, 129, h0, hone, hlasts⟩

end MutexeeTraining
