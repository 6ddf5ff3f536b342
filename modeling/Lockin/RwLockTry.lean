import Lockin.RwLock

/-! # `tryrlock` when nobody else takes a step

    `tryrlock` computes the word that it expects as `lock.val & FREE`, which is 0 whatever the
    word is.  So its exchange succeeds on a free word only; and on a word with readers and
    without a writer the loop goes round for ever. -/

namespace RwLock

open Interleaving

variable {Tid : Type} [DecidableEq Tid] {lock : Impl} {c d : Conf Tid (BitVec 32) Pc} {t : Tid}
  {val : BitVec 32} {pc : Pc}

/-- Thread `t` calls `tryrlock`, and then `n` steps of it are taken, and no others. -/
def tryrlockAlone (lock : Impl) (c : Conf Tid (BitVec 32) Pc) (t : Tid) (n : Nat) :
    Option (Conf Tid (BitVec 32) Pc) :=
  exec lock.prog always c ((t, .tryrlock) :: List.replicate n (t, .go))

/-- `tryrlock` comes back: with 0 and one reader more when there is no writer, and with 1 and
    the word as it was when there is one. -/
def TryrlockExact (lock : Impl) (c : Conf Tid (BitVec 32) Pc) (t : Tid) : Prop :=
  ∃ n d, tryrlockAlone lock c t n = some d ∧
    ((∀ u, ¬ (c.loc u).Writes) ∧ d = c.put t (c.sh + 1, .critical .read) ∨
      (∃ u, (c.loc u).Writes) ∧ d = c.put t (c.sh, .idle))

/-! ## Where the loop can be -/

/-- In the loop of `tryrlock`. -/
def InLoop (pc : Pc) : Prop := pc = .tryrW ∨ pc = .tryrVal ∨ pc = .tryrCas free

/-- One step of the only thread that moves. -/
theorem exec_alone (a : Act) (rest : List (Tid × Act)) :
    exec lock.prog always (c.put t (val, pc)) ((t, a) :: rest) =
      (step lock.loop val pc a).bind fun r => exec lock.prog always (c.put t r) rest := by
  show (if True then ((step lock.loop val ((c.put t (val, pc)).loc t) a).bind fun r =>
    exec lock.prog always ((c.put t (val, pc)).put t r) rest) else none) = _
  rw [if_pos trivial, put_loc_self]
  simp only [put_put]

/-- Alone, `tryrlock` first comes to the test of `w`. -/
theorem tryrlockAlone_eq (hidle : c.loc t = .idle) (n : Nat) :
    tryrlockAlone lock c t n =
      exec lock.prog always (c.put t (c.sh, .tryrW)) (List.replicate n (t, .go)) := by
  have hself : c.put t (c.sh, .idle) = c := by
    rw [← hidle]
    exact put_self c t
  unfold tryrlockAlone
  conv_lhs => rw [← hself]
  rw [exec_alone]
  rfl

/-- Once it has come back, `tryrlock` takes no further step. -/
theorem exec_returned (hgo : step lock.loop val pc .go = none) {n : Nat}
    (hx : exec lock.prog always (c.put t (val, pc)) (List.replicate n (t, .go)) = some d) :
    d = c.put t (val, pc) := by
  cases n with
  | zero => exact (Option.some.inj hx).symm
  | succ n =>
      rw [List.replicate_succ, exec_alone, hgo] at hx
      exact nomatch hx

/-- The test of the exchange's result agrees with the test of the loop. -/
theorem and_wlocked_of_w (hw : w val = 0) : val &&& wlocked = 0 := by
  have hmask : ∀ i < 32, wlocked.getLsbD i = decide (24 ≤ i) := by decide
  refine BitVec.eq_of_getLsbD_eq fun i hi => ?_
  rw [BitVec.getLsbD_and, hmask i hi,
    show (0 : BitVec 32).getLsbD i = false from BitVec.getLsbD_zero]
  by_cases htop : 24 ≤ i
  · have hbit : (w val).getLsbD (i - 24) = val.getLsbD i := by
      rw [w, BitVec.getLsbD_extractLsb', Nat.add_sub_cancel' htop,
        decide_eq_true (show i - 24 < 8 by omega), Bool.true_and]
    rw [← hbit, hw]
    simp
  · simp [htop]

/-- The first step of `n + 1`. -/
theorem exec_go (n : Nat) :
    exec lock.prog always (c.put t (val, pc)) (List.replicate (n + 1) (t, .go)) =
      (step lock.loop val pc .go).bind fun r =>
        exec lock.prog always (c.put t r) (List.replicate n (t, .go)) := by
  rw [List.replicate_succ, exec_alone]

theorem step_tryrW_free (hw : w val = 0) :
    step lock.loop val .tryrW .go = some (val, .tryrVal) := by
  show some (val, if w val = 0 then Pc.tryrVal else .idle) = _
  rw [if_pos hw]

theorem step_tryrW_writer (hw : w val ≠ 0) :
    step lock.loop val .tryrW .go = some (val, .idle) := by
  show some (val, if w val = 0 then Pc.tryrVal else .idle) = _
  rw [if_neg hw]

/-- Whatever the word is, it is expected to be 0. -/
theorem step_tryrVal : step lock.loop val .tryrVal .go = some (val, .tryrCas free) := by
  show some (val, Pc.tryrCas (val &&& free)) = _
  rw [show val &&& free = free from BitVec.and_zero]

theorem step_tryrCas_free :
    step lock.loop free (.tryrCas free) .go = some (free + 1, .critical .read) := rfl

theorem step_tryrCas_readers (hw : w val = 0) (hval : val ≠ free) :
    step lock.loop val (.tryrCas free) .go = some (val, .tryrW) := by
  show (if val = free then _ else some (val, if val &&& wlocked ≠ 0 then _ else _)) = _
  rw [if_neg hval, if_neg (not_not.mpr (and_wlocked_of_w hw))]

/-- With readers and without a writer, every step stays in the loop. -/
theorem exec_inLoop (hw : w val = 0) (hval : val ≠ free) (n : Nat) (hpc : InLoop pc) :
    ∃ pc', InLoop pc' ∧
      exec lock.prog always (c.put t (val, pc)) (List.replicate n (t, .go))
        = some (c.put t (val, pc')) := by
  induction n generalizing pc with
  | zero => exact ⟨pc, hpc, rfl⟩
  | succ n ih =>
      obtain rfl | rfl | rfl := hpc
      · rw [exec_go, step_tryrW_free hw]
        exact ih (Or.inr (Or.inl rfl))
      · rw [exec_go, step_tryrVal]
        exact ih (Or.inr (Or.inr rfl))
      · rw [exec_go, step_tryrCas_readers hw hval]
        exact ih (Or.inl rfl)

/-! ## What it comes back with -/

/-- `tryrlock` has come back. -/
def Returned (c : Conf Tid (BitVec 32) Pc) (t : Tid) : Prop :=
  c.loc t = .idle ∨ c.loc t = .critical .read

omit [DecidableEq Tid] in
theorem w_free : w free = 0 := by decide

/-- **What `tryrlock` does alone**: it comes back with 1 if the top byte is set, with 0 if the
    word is free, and otherwise not at all. -/
theorem tryrlockAlone_returns (hidle : c.loc t = .idle) :
    (∃ n, tryrlockAlone lock c t n = some d ∧ Returned d t) ↔
      (w c.sh ≠ 0 ∧ d = c.put t (c.sh, .idle)) ∨
        (c.sh = free ∧ d = c.put t (c.sh + 1, .critical .read)) := by
  simp only [tryrlockAlone_eq hidle]
  have hinside : ∀ {pc : Pc} {val : BitVec 32}, InLoop pc → ¬ Returned (c.put t (val, pc)) t := by
    rintro pc val hpc hret
    rw [Returned, put_loc_self] at hret
    obtain rfl | rfl | rfl := hpc <;> simp at hret
  by_cases hw : w c.sh = 0
  · by_cases hfree : c.sh = free
    · -- the exchange is the third step
      have hthree : ∀ m, exec lock.prog always (c.put t (c.sh, .tryrW))
          (List.replicate (m + 3) (t, .go)) = exec lock.prog always
            (c.put t (c.sh + 1, .critical .read)) (List.replicate m (t, .go)) := by
        intro m
        rw [hfree, exec_go, step_tryrW_free w_free]
        show exec lock.prog always (c.put t (free, .tryrVal)) _ = _
        rw [exec_go, step_tryrVal]
        show exec lock.prog always (c.put t (free, .tryrCas free)) _ = _
        rw [exec_go, step_tryrCas_free]
        rfl
      constructor
      · rintro ⟨n, hx, hret⟩
        refine Or.inr ⟨hfree, ?_⟩
        match n with
        | 0 =>
            obtain rfl := Option.some.inj hx
            exact absurd hret (hinside (Or.inl rfl))
        | 1 =>
            rw [exec_go, step_tryrW_free hw] at hx
            obtain rfl := Option.some.inj hx
            exact absurd hret (hinside (Or.inr (Or.inl rfl)))
        | 2 =>
            rw [exec_go, step_tryrW_free hw] at hx
            replace hx : exec lock.prog always (c.put t (c.sh, .tryrVal)) _ = some d := hx
            rw [exec_go, step_tryrVal] at hx
            obtain rfl := Option.some.inj hx
            exact absurd hret (hinside (Or.inr (Or.inr rfl)))
        | m + 3 => exact exec_returned rfl (hthree m ▸ hx)
      · rintro (⟨hne, -⟩ | ⟨-, rfl⟩)
        · exact absurd hw hne
        · exact ⟨3, hthree 0, Or.inr (put_loc_self ..)⟩
    · -- the loop is never left
      constructor
      · rintro ⟨n, hx, hret⟩
        obtain ⟨pc, hpc, hx'⟩ : ∃ pc, InLoop pc ∧ exec lock.prog always (c.put t (c.sh, .tryrW))
            (List.replicate n (t, .go)) = some (c.put t (c.sh, pc)) :=
          exec_inLoop hw hfree n (Or.inl rfl)
        obtain rfl := Option.some.inj (hx'.symm.trans hx)
        exact absurd hret (hinside hpc)
      · rintro (⟨hne, -⟩ | ⟨heq, -⟩)
        · exact absurd hw hne
        · exact absurd heq hfree
  · constructor
    · rintro ⟨n, hx, hret⟩
      refine Or.inl ⟨hw, ?_⟩
      cases n with
      | zero =>
          obtain rfl := Option.some.inj hx
          exact absurd hret (hinside (Or.inl rfl))
      | succ n =>
          rw [exec_go, step_tryrW_writer hw] at hx
          exact exec_returned rfl hx
    · rintro (⟨-, rfl⟩ | ⟨heq, -⟩)
      · refine ⟨1, ?_, Or.inl (put_loc_self ..)⟩
        rw [exec_go, step_tryrW_writer hw]
        rfl
      · rw [heq] at hw
        exact absurd w_free hw

/-- **When `tryrlock` is exact**, in any state that is reached: when the word is free and there
    is no writer, or its top byte shows the writer that there is.  With at most 65535 threads
    this means that the word is free or that there is a writer: readers without a writer are
    what it never comes back from. -/
theorem tryrlock_exact (lock : Impl) (h : Reach lock.prog always Init c) (hidle : c.loc t = .idle) :
    (TryrlockExact lock c t ↔ (c.sh = free ∧ ∀ u, ¬ (c.loc u).Writes) ∨
      (w c.sh ≠ 0 ∧ ∃ u, (c.loc u).Writes)) ∧
    (∀ [Fintype Tid], Fintype.card Tid ≤ 65535 →
      (TryrlockExact lock c t ↔ c.sh = free ∨ ∃ u, (c.loc u).Writes)) := by
  have hexact : TryrlockExact lock c t ↔ (c.sh = free ∧ ∀ u, ¬ (c.loc u).Writes) ∨
      (w c.sh ≠ 0 ∧ ∃ u, (c.loc u).Writes) := by
    have hne : c.put t (c.sh + 1, .critical .read) ≠ c.put t (c.sh, .idle) := by
      intro heq
      have hloc := congrArg (fun d => d.loc t) heq
      simp only [put_loc_self] at hloc
      exact nomatch hloc
    constructor
    · rintro ⟨n, d, hx, ⟨hno, rfl⟩ | ⟨hwr, rfl⟩⟩
      · obtain ⟨-, heq⟩ | ⟨hfree, -⟩ :=
          (tryrlockAlone_returns hidle).mp ⟨n, hx, Or.inr (put_loc_self ..)⟩
        · exact absurd heq hne
        · exact Or.inl ⟨hfree, hno⟩
      · obtain ⟨hw, -⟩ | ⟨-, heq⟩ :=
          (tryrlockAlone_returns hidle).mp ⟨n, hx, Or.inl (put_loc_self ..)⟩
        · exact Or.inr ⟨hw, hwr⟩
        · exact absurd heq.symm hne
    · rintro (⟨hfree, hno⟩ | ⟨hw, hwr⟩)
      · obtain ⟨n, hx, -⟩ := (tryrlockAlone_returns hidle).mpr (Or.inr ⟨hfree, rfl⟩)
        exact ⟨n, _, hx, Or.inl ⟨hno, rfl⟩⟩
      · obtain ⟨n, hx, -⟩ := (tryrlockAlone_returns hidle).mpr (Or.inl ⟨hw, rfl⟩)
        exact ⟨n, _, hx, Or.inr ⟨hwr, rfl⟩⟩
  refine ⟨hexact, fun {_} hcard => hexact.trans ?_⟩
  have hbyte := (Tally.reach hcard h).w_eq_zero_iff hcard
  constructor
  · rintro (⟨hfree, -⟩ | ⟨-, hwr⟩)
    · exact Or.inl hfree
    · exact Or.inr hwr
  · rintro (hfree | hwr)
    · exact Or.inl ⟨hfree, hbyte.mp (hfree ▸ w_free)⟩
    · exact Or.inr ⟨fun hzero => hwr.elim (hbyte.mp hzero), hwr⟩

/-- A writer is inside: `tryrlock` comes back with 1. -/
theorem tryrlock_exact_writer : ∃ c : Conf (Fin 3) (BitVec 32) Pc,
    exec Impl.tasRwLock.prog always start [(1, .wlock), (1, .go)] = some c ∧
      c.loc 1 = .critical .write ∧ TryrlockExact .tasRwLock c 0 := by
  obtain ⟨c, hc, hsh, h0, h1⟩ : ∃ c : Conf (Fin 3) (BitVec 32) Pc,
      exec Impl.tasRwLock.prog always start [(1, .wlock), (1, .go)] = some c ∧
      c.sh = wlocked ∧ c.loc 0 = .idle ∧ c.loc 1 = .critical .write :=
    ⟨_, rfl, rfl, rfl, rfl⟩
  have hwr : ∃ u, (c.loc u).Writes := ⟨1, by rw [h1]; rfl⟩
  have hw : w c.sh ≠ 0 := by
    rw [hsh]
    decide
  exact ⟨c, hc, h1, (tryrlock_exact _ (reach_of_exec start_init hc) h0).1.mpr (Or.inr ⟨hw, hwr⟩)⟩

/-- A reader is inside and no writer: `tryrlock` does not come back. -/
theorem tryrlock_spins (lock : Impl) : ∃ c : Conf (Fin 3) (BitVec 32) Pc,
    exec lock.prog always start [(1, .rlock), (1, .go), (1, .go)] = some c ∧
      c.loc 1 = .critical .read ∧ (∀ u, ¬ (c.loc u).Writes) ∧
      (∀ n d, tryrlockAlone lock c 0 n = some d → ¬ Returned d 0) ∧ ¬ TryrlockExact lock c 0 := by
  obtain ⟨c, hc, hsh, h0, h1, hno⟩ : ∃ c : Conf (Fin 3) (BitVec 32) Pc,
      exec lock.prog always start [(1, .rlock), (1, .go), (1, .go)] = some c ∧
      c.sh = 1 ∧ c.loc 0 = .idle ∧ c.loc 1 = .critical .read ∧ ∀ u, ¬ (c.loc u).Writes := by
    cases lock <;> exact ⟨_, rfl, rfl, rfl, rfl, by decide⟩
  have hspins : ∀ n d, tryrlockAlone lock c 0 n = some d → ¬ Returned d 0 := by
    intro n d hx hret
    obtain ⟨hw, -⟩ | ⟨hfree, -⟩ := (tryrlockAlone_returns h0).mp ⟨n, hx, hret⟩
    · rw [hsh] at hw
      exact hw (by decide)
    · exact absurd (hsh.symm.trans hfree) (by decide)
  refine ⟨c, hc, h1, hno, hspins, ?_⟩
  rintro ⟨n, d, hx, ⟨-, rfl⟩ | ⟨-, rfl⟩⟩
  · exact hspins n _ hx (Or.inr (put_loc_self ..))
  · exact hspins n _ hx (Or.inl (put_loc_self ..))

/-- So it is not exact in every state that is reached. -/
theorem tryrlock_not_exact : ¬ ∀ (lock : Impl) (c : Conf (Fin 3) (BitVec 32) Pc) (t : Fin 3),
    Reach lock.prog always Init c → c.loc t = .idle → TryrlockExact lock c t := by
  intro hall
  obtain ⟨c, hc, h1, -, -, hno⟩ := tryrlock_spins .tasRwLock
  have h0 : c.loc 0 = .idle := by
    obtain rfl := Option.some.inj (hc.symm.trans rfl)
    rfl
  exact hno (hall .tasRwLock c 0 (reach_of_exec start_init hc) h0)

end RwLock
