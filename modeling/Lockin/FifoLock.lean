import Lockin.Interleaving
import Mathlib.Tactic

/-! # First-come first-served locks

    What a FIFO lock is for, independently of how it is built: threads take
    PLACES in one line, and the lock is granted to the places in order.

    The line is a history, `log`, of all threads that ever took a place, with
    two counters: how many grants (`acq`) and how many releases (`rel`) there
    were.  The thread at place `rel` is the one that holds, or is next to hold.

    A lock algorithm shows only three phases of a thread (`Phase`).  If every
    atomic step of the algorithm moves the phases the way a line may move
    (`Fifo.Move`), then at every moment at most one thread is `holding`
    (`Fifo.Ok.holding_unique`), and in every run the threads acquire in the order
    in which they took their places (`FifoSim.acquires_in_order`). -/

namespace FifoLock

open Interleaving

/-- How far a thread is with one lock. -/
inductive Phase where
  | out
  | waiting
  | holding
  deriving DecidableEq, Repr

variable {Tid Sh Lc Act : Type}

/-- The line of one lock: every thread that ever took a place, and how many of
    the places have been granted and released. -/
structure Fifo (Tid : Type) where
  log : List Tid
  acq : Nat
  rel : Nat

namespace Fifo

/-- The line nobody has joined yet. -/
def empty : Fifo Tid := ⟨[], 0, 0⟩

/-- `t` has place `k` and has not released it. -/
def At (f : Fifo Tid) (k : Nat) (t : Tid) : Prop :=
  f.rel ≤ k ∧ f.log[k]? = some t

/-- Take the next place. -/
def enter (f : Fifo Tid) (t : Tid) : Fifo Tid := { f with log := f.log ++ [t] }

/-- Grant the lock to the place whose turn it is. -/
def acquire (f : Fifo Tid) : Fifo Tid := { f with acq := f.acq + 1 }

/-- Leave the first place. -/
def release (f : Fifo Tid) : Fifo Tid := { f with rel := f.rel + 1 }

@[simp, grind =] theorem enter_log (f : Fifo Tid) (t : Tid) :
    (f.enter t).log = f.log ++ [t] := rfl
@[simp, grind =] theorem enter_acq (f : Fifo Tid) (t : Tid) : (f.enter t).acq = f.acq := rfl
@[simp, grind =] theorem enter_rel (f : Fifo Tid) (t : Tid) : (f.enter t).rel = f.rel := rfl
@[simp, grind =] theorem acquire_log (f : Fifo Tid) : f.acquire.log = f.log := rfl
@[simp, grind =] theorem acquire_acq (f : Fifo Tid) : f.acquire.acq = f.acq + 1 := rfl
@[simp, grind =] theorem acquire_rel (f : Fifo Tid) : f.acquire.rel = f.rel := rfl
@[simp, grind =] theorem release_log (f : Fifo Tid) : f.release.log = f.log := rfl
@[simp, grind =] theorem release_acq (f : Fifo Tid) : f.release.acq = f.acq := rfl
@[simp, grind =] theorem release_rel (f : Fifo Tid) : f.release.rel = f.rel + 1 := rfl

/-- A grant moves nobody. -/
@[simp, grind =] theorem acquire_at (f : Fifo Tid) (k : Nat) (t : Tid) :
    f.acquire.At k t ↔ f.At k t := Iff.rfl

/-- A thread in line has not been passed. -/
@[grind →] theorem At.rel_le {f : Fifo Tid} {k : Nat} {t : Tid} (h : f.At k t) : f.rel ≤ k := h.1

/-- A thread in line has entered. -/
@[grind →] theorem At.lt_length {f : Fifo Tid} {k : Nat} {t : Tid} (h : f.At k t) :
    k < f.log.length := (List.getElem?_eq_some_iff.mp h.2).1

/-- A place is that of one thread. -/
@[grind →] theorem At.tid_unique {f : Fifo Tid} {k : Nat} {t u : Tid} (ht : f.At k t)
    (hu : f.At k u) : t = u := Option.some.inj (ht.2.symm.trans hu.2)

/-- Every place between the first one not released and the end is somebody's. -/
theorem exists_at {f : Fifo Tid} {k : Nat} (h1 : f.rel ≤ k) (h2 : k < f.log.length) :
    ∃ t, f.At k t := ⟨f.log[k], h1, List.getElem?_eq_getElem h2⟩

/-- After `t` entered, the places are the old ones and `t`'s at the end. -/
theorem enter_at {f : Fifo Tid} (hf : f.rel ≤ f.log.length) (t u : Tid) (k : Nat) :
    (f.enter t).At k u ↔ f.At k u ∨ (k = f.log.length ∧ u = t) := by
  simp only [At, enter_log, enter_rel, List.getElem?_append]
  rcases lt_trichotomy k f.log.length with hk | hk | hk
  · simp [hk, hk.ne]
  · subst hk
    simp [hf, eq_comm]
  · have hsub : k - f.log.length ≠ 0 := by omega
    simp [hk.not_gt, hk.ne', hsub]

/-- After a release, the places are the old ones but the first. -/
theorem release_at {f : Fifo Tid} (u : Tid) (k : Nat) :
    f.release.At k u ↔ f.At k u ∧ k ≠ f.rel := by
  simp only [At, release_log, release_rel]
  constructor
  · rintro ⟨h1, h2⟩
    exact ⟨⟨by omega, h2⟩, by omega⟩
  · rintro ⟨⟨h1, h2⟩, h3⟩
    exact ⟨by omega, h2⟩

/-- The threads in line, first come first. -/
def queue (f : Fifo Tid) : List Tid := f.log.drop f.rel

/-- The places of the queue. -/
theorem queue_getElem? (f : Fifo Tid) (i : Nat) (t : Tid) :
    f.queue[i]? = some t ↔ f.At (f.rel + i) t := by
  simp [queue, At, List.getElem?_drop]

/-- The queue is the threads in line. -/
theorem mem_queue (f : Fifo Tid) (t : Tid) : t ∈ f.queue ↔ ∃ k, f.At k t := by
  rw [List.mem_iff_getElem?]
  constructor
  · rintro ⟨i, hi⟩
    exact ⟨_, (f.queue_getElem? i t).mp hi⟩
  · rintro ⟨k, hk⟩
    have hle := hk.rel_le
    refine ⟨k - f.rel, (f.queue_getElem? _ t).mpr ?_⟩
    rwa [show f.rel + (k - f.rel) = k by omega]

/-- The number of threads in line. -/
@[simp] theorem queue_length (f : Fifo Tid) :
    f.queue.length = f.log.length - f.rel := List.length_drop ..

/-- The line agrees with the phases of the threads. -/
structure Ok (f : Fifo Tid) (ph : Tid → Phase) : Prop where
  rel_le_acq : f.rel ≤ f.acq
  acq_le_rel : f.acq ≤ f.rel + 1
  acq_le_len : f.acq ≤ f.log.length
  place : ∀ t, ph t ≠ .out ↔ ∃ k, f.At k t
  granted : ∀ t k, f.At k t → (ph t = .holding ↔ k < f.acq)
  unique : ∀ t k k', f.At k t → f.At k' t → k = k'

namespace Ok

variable {f : Fifo Tid} {ph : Tid → Phase}

/-- No more threads leave than have entered. -/
theorem rel_le_len (h : f.Ok ph) : f.rel ≤ f.log.length :=
  h.rel_le_acq.trans h.acq_le_len

/-- A holder has the first place, and the lock has been granted to it. -/
theorem holding_at (h : f.Ok ph) {t : Tid} (ht : ph t = .holding) :
    f.At f.rel t ∧ f.acq = f.rel + 1 := by
  obtain ⟨k, hk⟩ := (h.place t).mp (by simp [ht])
  have hlt := (h.granted t k hk).mp ht
  have h1 := hk.rel_le
  have h2 := h.acq_le_rel
  obtain rfl : k = f.rel := by omega
  exact ⟨hk, by omega⟩

/-- **Mutual exclusion.** -/
theorem holding_unique (h : f.Ok ph) {t u : Tid} (ht : ph t = .holding)
    (hu : ph u = .holding) : t = u :=
  (h.holding_at ht).1.tid_unique (h.holding_at hu).1

/-- A thread is in line once. -/
theorem queue_nodup (h : f.Ok ph) : f.queue.Nodup := by
  rw [List.nodup_iff_getElem?_ne_getElem?]
  intro i j hij hj heq
  have hu := (f.queue_getElem? j _).mp (List.getElem?_eq_getElem hj)
  rw [List.getElem?_eq_getElem hj] at heq
  have := h.unique _ _ _ ((f.queue_getElem? i _).mp heq) hu
  omega

/-- A waiting thread has a place that was not granted yet. -/
theorem waiting_at (h : f.Ok ph) {t : Tid} (ht : ph t = .waiting) :
    ∃ k, f.At k t ∧ f.acq ≤ k := by
  obtain ⟨k, hk⟩ := (h.place t).mp (by simp [ht])
  refine ⟨k, hk, ?_⟩
  by_contra hlt
  have := (h.granted t k hk).mpr (by omega)
  rw [ht] at this
  exact Phase.noConfusion this

/-- A thread outside is not in line. -/
theorem not_at_of_out (h : f.Ok ph) {t : Tid} (ht : ph t = .out) (k : Nat) :
    ¬ f.At k t := fun hk => (h.place t).mpr ⟨k, hk⟩ ht

/-- The places that are taken, counted in the line and among the threads. -/
theorem card_inLine [Fintype Tid] (h : f.Ok ph) :
    (Finset.univ.filter fun t => ph t ≠ .out).card = f.queue.length := by
  classical
  rw [← List.toFinset_card_of_nodup h.queue_nodup]
  refine congrArg Finset.card (Finset.ext fun t => ?_)
  rw [Finset.mem_filter_univ, List.mem_toFinset, h.place, f.mem_queue]

/-- A thread outside does not count. -/
theorem queue_length_lt [Fintype Tid] (h : f.Ok ph) {t : Tid} (ht : ph t = .out) :
    f.queue.length < Fintype.card Tid := by
  rw [← h.card_inLine]
  refine Finset.card_lt_card ⟨Finset.filter_subset _ _, fun hsub => ?_⟩
  have := (Finset.mem_filter.mp (hsub (Finset.mem_univ t))).2
  exact this ht

end Ok

/-- How a line may move when thread `t` goes from one phase to another. -/
inductive Move (t : Tid) : Phase → Phase → Fifo Tid → Fifo Tid → Prop where
  | stay (a : Phase) (f : Fifo Tid) : Move t a a f f
  | enter (f : Fifo Tid) : Move t .out .waiting f (f.enter t)
  /-- The line is empty: the place is granted at once. -/
  | enterFree (f : Fifo Tid) : f.rel = f.log.length →
      Move t .out .holding f (f.enter t).acquire
  | acquire (f : Fifo Tid) : f.At f.rel t → Move t .waiting .holding f f.acquire
  | release (f : Fifo Tid) : Move t .holding .out f f.release

variable [DecidableEq Tid]

/-- **Step lemma.** A move keeps the line in agreement with the phases. -/
theorem Move.ok {t : Tid} {a b : Phase} {f f' : Fifo Tid} {ph : Tid → Phase}
    (hm : Move t a b f f') (ha : ph t = a) (h : f.Ok ph) :
    f'.Ok (Function.update ph t b) := by
  have hlen := h.rel_le_len
  cases hm with
  | stay =>
      subst ha
      rwa [Function.update_eq_self]
  | enter =>
      -- the thread is at the end of the log, and nowhere else
      have hout := h.not_at_of_out ha
      refine ⟨h.rel_le_acq, h.acq_le_rel, ?_, ?_, ?_, ?_⟩
      · have := h.acq_le_len
        simp only [enter_acq, enter_log, List.length_append, List.length_singleton]
        omega
      · intro u
        simp only [enter_at hlen]
        by_cases hu : u = t
        · subst hu
          simp only [Function.update_self, ne_eq, reduceCtorEq, not_false_eq_true, true_iff]
          exact ⟨f.log.length, Or.inr ⟨rfl, trivial⟩⟩
        · simpa [Function.update_of_ne hu, hu] using h.place u
      · intro u k hk
        rcases (enter_at hlen t u k).mp hk with hk' | ⟨rfl, rfl⟩
        · have hu : u ≠ t := by rintro rfl; exact hout k hk'
          simpa [Function.update_of_ne hu] using h.granted u k hk'
        · have := h.acq_le_len
          simp only [Function.update_self, reduceCtorEq, enter_acq, false_iff]
          omega
      · intro u k k' hk hk'
        rcases (enter_at hlen t u k).mp hk with h1 | ⟨rfl, rfl⟩ <;>
          rcases (enter_at hlen _ u k').mp hk' with h2 | ⟨rfl, h2⟩
        · exact h.unique u k k' h1 h2
        · subst h2; exact absurd h1 (hout k)
        · exact absurd h2 (hout k')
        · rfl
  | enterFree _ hfree =>
      -- nobody is between `rel` and the end of the log
      have hout := h.not_at_of_out ha
      have hnone : ∀ k u, ¬ f.At k u := by
        intro k u hk
        have := hk.rel_le
        have := hk.lt_length
        omega
      have hacq : f.acq = f.log.length := by
        have := h.rel_le_acq
        have := h.acq_le_len
        omega
      have hat : ∀ u k, (f.enter t).acquire.At k u ↔ k = f.log.length ∧ u = t := by
        intro u k
        rw [acquire_at, enter_at hlen]
        simp [hnone]
      refine ⟨?_, ?_, ?_, ?_, ?_, ?_⟩
      · simp only [acquire_rel, enter_rel, acquire_acq, enter_acq]; omega
      · simp only [acquire_rel, enter_rel, acquire_acq, enter_acq]; omega
      · simp only [acquire_acq, enter_acq, acquire_log, enter_log, List.length_append,
          List.length_singleton]
        omega
      · intro u
        simp only [hat]
        by_cases hu : u = t
        · subst hu; simp
        · have : ph u = .out := by
            by_contra hne
            obtain ⟨k, hk⟩ := (h.place u).mp hne
            exact hnone k u hk
          simp [hu, this]
      · intro u k hk
        obtain ⟨rfl, rfl⟩ := (hat u k).mp hk
        simp only [Function.update_self, acquire_acq, enter_acq, true_iff]
        omega
      · intro u k k' hk hk'
        rw [((hat u k).mp hk).1, ((hat u k').mp hk').1]
  | acquire _ hturn =>
      -- it waits at `rel`, so that the entries up to `rel` were all granted and released
      obtain ⟨k, hplace, hle⟩ := h.waiting_at ha
      obtain rfl := h.unique t _ _ hplace hturn
      have hacq : f.acq = f.rel := le_antisymm hle h.rel_le_acq
      have hlt := hturn.lt_length
      refine ⟨?_, ?_, ?_, ?_, ?_, h.unique⟩
      · simp only [acquire_rel, acquire_acq]; omega
      · simp only [acquire_rel, acquire_acq]; omega
      · simp only [acquire_acq, acquire_log]; omega
      · intro u
        by_cases hu : u = t
        · subst hu
          simp only [Function.update_self, ne_eq, reduceCtorEq, not_false_eq_true, true_iff]
          exact ⟨_, hturn⟩
        · simpa [Function.update_of_ne hu] using h.place u
      · intro u k hk
        by_cases hu : u = t
        · rw [hu] at hk ⊢
          have := h.unique t k _ hk hturn
          simp only [Function.update_self, acquire_acq, true_iff]
          omega
        · have hne : k ≠ f.rel := by
            rintro rfl
            exact hu (hk.tid_unique hturn)
          have := h.granted u k hk
          rw [Function.update_of_ne hu, this, acquire_acq]
          have := hk.rel_le
          omega
  | release =>
      -- the entry at `rel` leaves the line
      obtain ⟨hat, hacq⟩ := h.holding_at ha
      have hlt := hat.lt_length
      refine ⟨?_, ?_, ?_, ?_, ?_, ?_⟩
      · simp only [release_rel, release_acq]; omega
      · simp only [release_rel, release_acq]; omega
      · simp only [release_acq, release_log]; omega
      · intro u
        simp only [release_at]
        by_cases hu : u = t
        · subst hu
          simp only [Function.update_self, ne_eq, not_true_eq_false, false_iff, not_exists]
          rintro k ⟨hk, hne⟩
          exact hne (h.unique u _ _ hk hat)
        · rw [Function.update_of_ne hu, h.place u]
          refine exists_congr fun k => ⟨fun hk => ⟨hk, ?_⟩, And.left⟩
          rintro rfl
          exact hu (hk.tid_unique hat)
      · intro u k hk
        obtain ⟨hk', hne⟩ := (release_at u k).mp hk
        have hu : u ≠ t := by
          rintro rfl
          exact hne (h.unique u _ _ hk' hat)
        simpa [Function.update_of_ne hu] using h.granted u k hk'
      · intro u k k' hk hk'
        exact h.unique u _ _ ((release_at u k).mp hk).1 ((release_at u k').mp hk').1

omit [DecidableEq Tid] in
/-- The lock before the first call. -/
theorem empty_ok : (empty : Fifo Tid).Ok fun _ => .out := by
  refine ⟨le_rfl, by simp [empty], le_rfl, ?_, ?_, ?_⟩ <;> simp [At, empty]

end Fifo

/-! ## The order of events in a run -/

/-- The threads that took a place, in order. -/
def enters (phase : Lc → Phase) (tr : List (Move Tid Lc)) : List Tid :=
  tr.filterMap fun m =>
    if phase m.before = .out ∧ phase m.after ≠ .out then some m.tid else none

/-- The threads that acquired, in order. -/
def acquires (phase : Lc → Phase) (tr : List (Move Tid Lc)) : List Tid :=
  tr.filterMap fun m =>
    if phase m.before ≠ .holding ∧ phase m.after = .holding then some m.tid else none

variable [DecidableEq Tid]

/-- The program `p` moves its threads through the phases the way a line may
    move; `R` says how the line is represented. -/
structure FifoSim (p : Prog Tid Sh Lc Act) (ok : Conf Tid Sh Lc → Tid → Act → Prop)
    (init : Conf Tid Sh Lc → Prop) (phase : Lc → Phase)
    (R : Conf Tid Sh Lc → Fifo Tid → Prop) : Prop where
  init_out : ∀ c, init c → ∀ t, phase (c.loc t) = .out
  init_rel : ∀ c, init c → R c Fifo.empty
  step : ∀ c f t a r, R c f → f.Ok (fun u => phase (c.loc u)) → ok c t a →
    p t c.sh (c.loc t) a = some r →
    ∃ f', Fifo.Move t (phase (c.loc t)) (phase r.2) f f' ∧ R (c.put t r) f'

namespace FifoSim

variable {p : Prog Tid Sh Lc Act} {ok : Conf Tid Sh Lc → Tid → Act → Prop}
  {init : Conf Tid Sh Lc → Prop} {phase : Lc → Phase}
  {R : Conf Tid Sh Lc → Fifo Tid → Prop}

/-- The phases after a step. -/
theorem phase_put (c : Conf Tid Sh Lc) (t : Tid) (r : Sh × Lc) :
    (fun u => phase ((c.put t r).loc u))
      = Function.update (fun u => phase (c.loc u)) t (phase r.2) := by
  funext u
  rw [put_loc, Function.update_apply]
  split <;> rfl

/-- Every configuration reached represents a line in agreement with its phases. -/
theorem reach (h : FifoSim p ok init phase R) {c : Conf Tid Sh Lc}
    (hc : Reach p ok init c) : ∃ f, R c f ∧ f.Ok fun u => phase (c.loc u) := by
  induction hc with
  | start h0 =>
      refine ⟨Fifo.empty, h.init_rel _ h0, ?_⟩
      rw [show (fun u => phase (_ : Lc)) = fun _ => Phase.out from
        funext fun u => h.init_out _ h0 u]
      exact Fifo.empty_ok
  | step _ hok hs ih =>
      obtain ⟨f, hR, hf⟩ := ih
      obtain ⟨f', hm, hR'⟩ := h.step _ _ _ _ _ hR hf hok hs
      refine ⟨f', hR', ?_⟩
      rw [phase_put]
      exact hm.ok rfl hf

/-- **Mutual exclusion** in every configuration reached. -/
theorem holding_unique (h : FifoSim p ok init phase R) {c : Conf Tid Sh Lc}
    (hc : Reach p ok init c) {t u : Tid} (ht : phase (c.loc t) = .holding)
    (hu : phase (c.loc u) = .holding) : t = u := by
  obtain ⟨f, -, hf⟩ := h.reach hc
  exact hf.holding_unique ht hu

omit [DecidableEq Tid] in
/-- One more move keeps the logs of the run and of the line equal. -/
theorem logs_snoc {tr : List (Move Tid Lc)} {t : Tid} {l l' : Lc} {f f' : Fifo Tid}
    {ph : Tid → Phase} (hm : Fifo.Move t (phase l) (phase l') f f')
    (hph : ph t = phase l) (hf : f.Ok ph)
    (he : enters phase tr = f.log) (ha : acquires phase tr = f.log.take f.acq) :
    enters phase (tr ++ [⟨t, l, l'⟩]) = f'.log ∧
      acquires phase (tr ++ [⟨t, l, l'⟩]) = f'.log.take f'.acq := by
  simp only [enters, acquires, List.filterMap_append] at he ha ⊢
  rw [he, ha]
  simp only [List.filterMap_cons, List.filterMap_nil]
  generalize hb : phase l = b at *
  generalize hb' : phase l' = b' at *
  cases hm with
  | stay => simp
  | enter => simp [List.take_append_of_le_length hf.acq_le_len]
  | enterFree _ hfree =>
      have : f.acq = f.log.length :=
        le_antisymm hf.acq_le_len (hfree ▸ hf.rel_le_acq)
      simp [this]
  | acquire _ hturn =>
      obtain ⟨k, hk, hle⟩ := hf.waiting_at hph
      have : f.rel = f.acq := le_antisymm hf.rel_le_acq
        ((hf.unique t _ _ hk hturn) ▸ hle)
      have hlog : f.log[f.acq]? = some t := this ▸ hturn.2
      simp [List.take_add_one, hlog]
  | release => simp

/-- **First come, first served.** In every run the threads acquire in the order
    in which they took their places. -/
theorem acquires_in_order (h : FifoSim p ok init phase R) {c₀ c : Conf Tid Sh Lc}
    {tr : List (Move Tid Lc)} (h0 : init c₀) (hrun : Run p ok c₀ tr c) :
    acquires phase tr <+: enters phase tr := by
  have hmain : ∃ f, R c f ∧ (f.Ok fun u => phase (c.loc u)) ∧
      enters phase tr = f.log ∧ acquires phase tr = f.log.take f.acq := by
    induction hrun with
    | nil =>
        refine ⟨Fifo.empty, h.init_rel _ h0, ?_, rfl, rfl⟩
        rw [show (fun u => phase (c₀.loc u)) = fun _ => Phase.out from
          funext fun u => h.init_out _ h0 u]
        exact Fifo.empty_ok
    | snoc _ hok hs ih =>
        obtain ⟨f, hR, hf, he, ha⟩ := ih
        obtain ⟨f', hm, hR'⟩ := h.step _ _ _ _ _ hR hf hok hs
        obtain ⟨he', ha'⟩ := logs_snoc hm rfl hf he ha
        refine ⟨f', hR', ?_, he', ha'⟩
        rw [phase_put]
        exact hm.ok rfl hf
  obtain ⟨f, -, -, he, ha⟩ := hmain
  rw [he, ha]
  exact List.take_prefix _ _

/-- **Pulling a simulation back.** If `g` maps the configurations of `p` to those
    of `q`, step by step and thread by thread, then `p` is a FIFO lock when `q`
    is.  `I` is an invariant of `p` that `g` may rely on; it may use in turn that the
    line is represented. -/
theorem pullback {Sh' Lc' Act' : Type} {q : Prog Tid Sh' Lc' Act'}
    {ok' : Conf Tid Sh' Lc' → Tid → Act' → Prop} {init' : Conf Tid Sh' Lc' → Prop}
    {phase' : Lc' → Phase} {R' : Conf Tid Sh' Lc' → Fifo Tid → Prop}
    (h : FifoSim q ok' init' phase' R') {init₀ : Conf Tid Sh Lc → Prop}
    (g : Conf Tid Sh Lc → Conf Tid Sh' Lc') (I : Conf Tid Sh Lc → Prop)
    (hphase : ∀ c t, I c → phase' ((g c).loc t) = phase (c.loc t))
    (hinit : ∀ c, init₀ c → I c ∧ init' (g c))
    (hinv : ∀ c f t a r, I c → R' (g c) f → (f.Ok fun u => phase' ((g c).loc u)) → ok c t a →
      p t c.sh (c.loc t) a = some r → I (c.put t r))
    (hstep : ∀ c f t a r, I c → R' (g c) f → (f.Ok fun u => phase' ((g c).loc u)) → ok c t a →
      p t c.sh (c.loc t) a = some r →
      g (c.put t r) = g c ∨ ∃ a' r', ok' (g c) t a' ∧
        q t (g c).sh ((g c).loc t) a' = some r' ∧ g (c.put t r) = (g c).put t r') :
    FifoSim p ok init₀ phase fun c f => I c ∧ R' (g c) f where
  init_out := fun c h0 t => by
    rw [← hphase c t (hinit c h0).1]
    exact h.init_out _ (hinit c h0).2 t
  init_rel := fun c h0 => ⟨(hinit c h0).1, h.init_rel _ (hinit c h0).2⟩
  step := by
    rintro c f t a r ⟨hI, hR⟩ hf hok hs
    have hfg : f.Ok fun u => phase' ((g c).loc u) := by
      simpa only [hphase c _ hI] using hf
    have hI' := hinv c f t a r hI hR hfg hok hs
    have hr : phase' ((g (c.put t r)).loc t) = phase r.2 := by
      rw [hphase _ t hI', put_loc_self]
    rcases hstep c f t a r hI hR hfg hok hs with heq | ⟨a', r', hok', hs', heq⟩
    · refine ⟨f, ?_, hI', heq ▸ hR⟩
      rw [← hr, heq, hphase c t hI]
      exact .stay _ _
    · obtain ⟨f', hm, hR''⟩ := h.step _ _ _ _ _ hR hfg hok' hs'
      refine ⟨f', ?_, hI', heq ▸ hR''⟩
      rw [← hr, heq, put_loc_self, ← hphase c t hI]
      exact hm

end FifoSim

end FifoLock
