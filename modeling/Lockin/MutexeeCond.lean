import Lockin.Mutexee

/-! # The condition variable of `mutexee_in.h`

    A wait reads `c->seq`, releases `m`, and goes to sleep on `c->seq` if the variable
    still has the value it read.  A broadcast increments `c->seq`, then wakes one sleeper
    and moves the others to the lock word of `m`.

    The values of `c->seq` are the time stamps of the proof: a wait remembers the value
    at its release of `m`, and the history variable `flushed` is the value of the latest
    broadcast that has completed.  `SeqInv` orders them, under the one assumption that
    the 32-bit variable does not come round to the same value while a wait is between its
    read and its sleep (`seqFresh`). -/

namespace Mutexee

open Interleaving FutexMutex

variable {Tid : Type}

/-- A wait that holds `m` has read a value that `c->seq` had by `now`. -/
def Ret.Read (now : Nat) : Ret → Prop
  | .user => True
  | .wait _ seq _ => seq ≤ now

/-- A wait has read `c->seq`, and then released `m`, by `now`. -/
def Ret.Stamped (now : Nat) : Ret → Prop
  | .user => True
  | .wait _ seq rel => seq ≤ rel ∧ rel ≤ now

/-- The values of `c->seq` that a thread remembers are not later than `now`. -/
def Pc.Stamped (now : Nat) : Pc → Prop
  | .readM _ seq | .checkM _ seq | .casM _ seq | .readM' _ seq => seq ≤ now
  | .readWord k | .cas k | .clear k => k.Read now
  | .recheck _ k | .clearContended k | .wake k => k.Stamped now
  | .checkTime seq rel | .seqWait _ seq rel | .seqBlocked _ seq rel => seq ≤ rel ∧ rel ≤ now
  | .bcastRequeue _ seq => seq ≤ now
  | _ => True

/-- The invariant of the condition variable: whoever is asleep on `c->seq` released `m`
    after the increment of every broadcast that has completed. -/
structure SeqInv (c : Conf Tid (Shared Tid) Pc) : Prop where
  flushed : c.sh.flushed ≤ c.sh.seq
  stamped : ∀ t, (c.loc t).Stamped c.sh.seq
  parked : ∀ t, t ∈ c.sh.asleepSeq →
    ∃ timed seq rel, c.loc t = .seqBlocked timed seq rel ∧ c.sh.flushed ≤ rel

theorem Ret.Read.mono {k : Ret} {m n : Nat} (h : k.Read m) (hle : m ≤ n) : k.Read n := by
  cases k with
  | user => trivial
  | wait => exact Nat.le_trans h hle

theorem Ret.Stamped.mono {k : Ret} {m n : Nat} (h : k.Stamped m) (hle : m ≤ n) :
    k.Stamped n := by
  cases k with
  | user => trivial
  | wait => exact ⟨h.1, h.2.trans hle⟩

/-- A stamp is one of the past. -/
theorem Pc.Stamped.mono {pc : Pc} {m n : Nat} (h : pc.Stamped m) (hle : m ≤ n) :
    pc.Stamped n := by
  cases pc <;> first | trivial | exact Nat.le_trans h hle | exact Ret.Read.mono h hle |
    exact Ret.Stamped.mono h hle | exact ⟨h.1, h.2.trans hle⟩

/-- The release comes after the read. -/
theorem Ret.Read.released {k : Ret} {now : Nat} (h : k.Read now) :
    (k.released now).Stamped now := by
  cases k with
  | user => trivial
  | wait => exact ⟨h, le_rfl⟩

/-- What follows an unlock has the same stamp. -/
theorem Ret.Stamped.next {k : Ret} {now : Nat} (h : k.Stamped now) : k.next.Stamped now := by
  rcases k with _ | ⟨_ | _, _, _⟩ <;> exact h

theorem Ret.Stamped.recheckFrom {k : Ret} {now : Nat} (h : k.Stamped now) (n : Nat) :
    (recheckFrom n k).Stamped now := by
  cases n <;> exact h

theorem back_stamped (h : Bool) (now : Nat) : (back h).Stamped now := by cases h <;> trivial

/-- The value a wait has read has not come round again. -/
def Pc.freshAt (now : Nat) : Pc → Bool
  | .seqWait _ seq _ => now < seq + 2 ^ 32
  | _ => true

/-- Fewer than `2 ^ 32` signals and broadcasts come between a wait's read of `c->seq` and
    its going to sleep. -/
def seqFresh (c : Conf Tid (Shared Tid) Pc) (t : Tid) (_ : Act Tid) : Prop :=
  (c.loc t).freshAt c.sh.seq = true

instance (c : Conf Tid (Shared Tid) Pc) (t : Tid) (a : Act Tid) : Decidable (seqFresh c t a) :=
  inferInstanceAs (Decidable (_ = true))

variable [DecidableEq Tid]

namespace SeqInv

variable {c : Conf Tid (Shared Tid) Pc} {t : Tid} {sh' : Shared Tid} {pc' : Pc}

/-- What a step of `t` has to respect. -/
theorem put (h : SeqInv c) (hseq : c.sh.seq ≤ sh'.seq) (hflushed : sh'.flushed ≤ sh'.seq)
    (hstamped : pc'.Stamped sh'.seq)
    (hother : ∀ u, u ∈ sh'.asleepSeq → u ≠ t →
      u ∈ c.sh.asleepSeq ∧ sh'.flushed = c.sh.flushed)
    (hself : t ∈ sh'.asleepSeq →
      ∃ timed seq rel, pc' = .seqBlocked timed seq rel ∧ sh'.flushed ≤ rel) :
    SeqInv (c.put t (sh', pc')) := by
  refine ⟨hflushed, fun u => ?_, fun u hu => ?_⟩
  · rw [put_loc]
    split
    · exact hstamped
    · exact (h.stamped u).mono hseq
  · by_cases hut : u = t
    · subst hut
      rw [put_loc_self]
      exact hself hu
    · obtain ⟨hu', hfl⟩ := hother u hu hut
      rw [put_loc_ne _ _ hut, put_sh, hfl]
      exact h.parked u hu'

omit [DecidableEq Tid] in
/-- Only a parked thread is asleep on `c->seq`. -/
theorem awake (h : SeqInv c) (hpc : (c.loc t).role ≠ .parked) : t ∉ c.sh.asleepSeq := by
  intro ht
  obtain ⟨timed, seq, rel, hl, -⟩ := h.parked t ht
  simp [hl] at hpc

/-- A step that wakes nobody up from `c->seq`, unless by a signal. -/
theorem keep (h : SeqInv c) (hseq : c.sh.seq ≤ sh'.seq) (hflushed : sh'.flushed = c.sh.flushed)
    (hparked : ∀ u, u ∈ sh'.asleepSeq → u ∈ c.sh.asleepSeq) (hpc : (c.loc t).role ≠ .parked)
    (hstamped : pc'.Stamped sh'.seq) : SeqInv (c.put t (sh', pc')) :=
  h.put hseq (hflushed.trans_le (h.flushed.trans hseq)) hstamped
    (fun u hu _ => ⟨hparked u hu, hflushed⟩) fun ht => absurd (hparked t ht) (h.awake hpc)

/-- **Step lemma.** -/
theorem step {cfg : Config} (h : SeqInv c) {a : Act Tid}
    {r : Shared Tid × Pc} (hok : seqFresh c t a) (hs : prog cfg t c.sh (c.loc t) a = some r) :
    SeqInv (c.put t r) := by
  have hst := h.stamped t
  have hkeep := fun sh' pc' => @keep _ _ c t sh' pc' h
  have hput := fun sh' pc' => @put _ _ c t sh' pc' h
  unfold seqFresh at hok
  generalize hl : c.loc t = pc at hs hst hkeep hok
  cases pc with
  | idle | critical =>
      cases a <;> simp only [prog, call, Option.map_some, Option.map_none, Option.some.injEq,
        reduceCtorEq] at hs <;> subst hs <;>
        exact hkeep _ _ le_rfl rfl (fun _ => id) (by simp) trivial
  | try8 | xchg8 | spin | clock =>
      cases a <;> simp only [prog, mutexeeLock, mutexeeLockTrylock, Option.some.injEq,
        reduceCtorEq] at hs <;> subst hs <;> (try split) <;>
        exact hkeep _ _ le_rfl rfl (fun _ => id) (by simp) trivial
  | xchg32 s back =>
      cases a <;> simp only [prog, mutexeeLock, Option.some.injEq, reduceCtorEq] at hs
      subst hs
      have hrole : (Pc.xchg32 s back).role ≠ .parked := by
        cases back <;> simp
      split
      · split <;> exact hkeep _ _ le_rfl rfl (fun _ => id) hrole trivial
      · exact hkeep _ _ le_rfl rfl (fun _ => id) hrole trivial
  | futexWait s | blocked s =>
      cases a <;> simp only [prog, mutexeeLock, reduceCtorEq] at hs <;> split at hs <;>
        simp only [Option.some.injEq, reduceCtorEq] at hs <;> subst hs <;>
        exact hkeep _ _ le_rfl rfl (fun _ => id) (by simp) trivial
  | readWord k =>
      cases a <;> simp only [prog, mutexeeUnlock, Option.some.injEq, reduceCtorEq] at hs
      subst hs
      split <;> exact hkeep _ _ le_rfl rfl (fun _ => id) (by simp) hst
  | cas k =>
      cases a <;> simp only [prog, mutexeeUnlock, reduceCtorEq] at hs
      split at hs <;> obtain rfl := Option.some.inj hs
      · exact hkeep _ _ le_rfl rfl (fun _ => id) (by simp) (Ret.Read.released hst).next
      · exact hkeep _ _ le_rfl rfl (fun _ => id) (by simp) hst
  | clear k =>
      cases a <;> simp only [prog, mutexeeUnlock, Option.some.injEq, reduceCtorEq] at hs
      subst hs
      exact hkeep _ _ le_rfl rfl (fun _ => id) (by simp)
        ((Ret.Read.released hst).recheckFrom cfg.rechecks)
  | recheck n k =>
      cases a <;> simp only [prog, mutexeeUnlock, Option.some.injEq, reduceCtorEq] at hs
      subst hs
      split
      · exact hkeep _ _ le_rfl rfl (fun _ => id) (by simp) (Ret.Stamped.next hst)
      · exact hkeep _ _ le_rfl rfl (fun _ => id) (by simp) (Ret.Stamped.recheckFrom hst n)
  | clearContended k =>
      cases a <;> simp only [prog, mutexeeUnlock, Option.some.injEq, reduceCtorEq] at hs
      subst hs
      exact hkeep _ _ le_rfl rfl (fun _ => id) (by simp) hst
  | wake k =>
      cases a <;> simp only [prog, mutexeeUnlock, reduceCtorEq, Option.map_eq_some_iff] at hs
      obtain ⟨q, hq, rfl⟩ := hs
      exact hkeep _ _ le_rfl rfl (fun _ => id) (by simp) (Ret.Stamped.next hst)
  | readSeq timed =>
      cases a <;> simp only [prog, condWait, Option.some.injEq, reduceCtorEq] at hs
      subst hs
      exact hkeep _ _ le_rfl rfl (fun _ => id) (by simp) (le_refl c.sh.seq)
  | casM timed seq =>
      cases a <;> simp only [prog, condWait, Option.some.injEq, reduceCtorEq] at hs
      subst hs
      exact hkeep _ _ le_rfl rfl (fun _ => id) (by simp) hst
  | readM timed seq | checkM timed seq | readM' timed seq =>
      cases a <;> simp only [prog, condWait, Option.some.injEq, reduceCtorEq] at hs
      subst hs
      split
      · exact hkeep _ _ le_rfl rfl (fun _ => id) (by simp) (by first | exact hst | trivial)
      · exact hkeep _ _ le_rfl rfl (fun _ => id) (by simp) (by first | exact hst | trivial)
  | checkTime seq rel =>
      cases a <;> simp only [prog, condWait, Option.some.injEq, reduceCtorEq] at hs <;> subst hs
      · exact hkeep _ _ le_rfl rfl (fun _ => id) (by simp) hst
      · exact hkeep _ _ le_rfl rfl (fun _ => id) (by simp) trivial
  | seqWait timed seq rel =>
      cases a <;> simp only [prog, condWait, reduceCtorEq] at hs
      obtain ⟨h1, h2⟩ : seq ≤ rel ∧ rel ≤ c.sh.seq := hst
      split at hs <;> rename_i hmod <;> obtain rfl := Option.some.inj hs
      · -- no signal came since the read, so none came since the release
        have hlt : c.sh.seq < seq + 2 ^ 32 := of_decide_eq_true hok
        have heq : c.sh.seq = rel := by omega
        refine hput _ _ le_rfl h.flushed ⟨h1, h2⟩ (fun u hu hut => ?_) fun _ => ?_
        · exact ⟨(List.mem_cons.mp hu).resolve_left hut, rfl⟩
        · exact ⟨timed, seq, rel, rfl, heq ▸ h.flushed⟩
      · exact hkeep _ _ le_rfl rfl (fun _ => id) (by simp) trivial
  | seqBlocked timed seq rel =>
      -- it gets up, and goes on with a value that says nothing about `seq`
      have hleave : ∀ q p, (∀ u, u ∈ p → u ∈ c.sh.asleepSeq ∧ u ≠ t) →
          SeqInv (c.put t ({ c.sh with asleep := q, asleepSeq := p }, .xchg32 .plain true)) := by
        intro q p hp
        exact hput _ _ le_rfl h.flushed trivial (fun u hu _ => ⟨(hp u hu).1, rfl⟩)
          fun ht => absurd rfl (hp t ht).2
      cases a
      case go =>
          simp only [prog, condWait, Option.ite_none_left_eq_some, Option.some.injEq,
            not_or] at hs
          obtain ⟨⟨-, h2⟩, rfl⟩ := hs
          exact hleave _ _ fun u hu => ⟨hu, by rintro rfl; exact h2 hu⟩
      case spurious =>
          simp only [prog, condWait, Option.ite_none_right_eq_some, Option.some.injEq] at hs
          obtain ⟨-, rfl⟩ := hs
          exact hleave _ _ fun u hu => by simpa using hu
      case timeout =>
          cases timed
          · simp only [prog, condWait, reduceCtorEq] at hs
          · simp only [prog, condWait, Option.ite_none_right_eq_some, Option.some.injEq] at hs
            obtain ⟨-, rfl⟩ := hs
            exact hleave _ _ fun u hu => by simpa using hu
      all_goals simp only [prog, condWait, reduceCtorEq] at hs
  | sigAdd g =>
      cases a <;> simp only [prog, upmutexCond1Signal, Option.some.injEq, reduceCtorEq] at hs
      subst hs
      exact hkeep _ _ (Nat.le_succ _) rfl (fun _ => id) (by cases g <;> simp) trivial
  | bcastAdd g =>
      cases a <;> simp only [prog, upmutexCond1Broadcast, Option.some.injEq, reduceCtorEq] at hs
      subst hs
      exact hkeep _ _ (Nat.le_succ _) rfl (fun _ => id) (by cases g <;> simp)
        (le_refl (c.sh.seq + 1))
  | sigWake g =>
      cases a <;> simp only [prog, upmutexCond1Signal, reduceCtorEq, Option.map_eq_some_iff] at hs
      obtain ⟨q, hq, rfl⟩ := hs
      exact hkeep _ _ le_rfl rfl (wokeOne_of_futexWake hq).subset (by cases g <;> simp)
        (back_stamped g _)
  | bcastReadM g =>
      cases a <;> simp only [prog, upmutexCond1Broadcast, Option.some.injEq, reduceCtorEq] at hs
      subst hs
      split
      · exact hkeep _ _ le_rfl rfl (fun _ => id) (by cases g <;> simp) trivial
      · exact hkeep _ _ le_rfl rfl (fun _ => id) (by cases g <;> simp) (back_stamped g _)
  | bcastRequeue g seq =>
      cases a <;> simp only [prog, upmutexCond1Broadcast, reduceCtorEq,
        Option.map_eq_some_iff] at hs
      obtain ⟨q, hq, rfl⟩ := hs
      -- all the sleepers are requeued
      exact hput _ _ le_rfl (max_le h.flushed hst) (back_stamped g _) (by simp) (by simp)

end SeqInv

end Mutexee
