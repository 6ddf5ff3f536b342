import Lockin.ClhtLpKept

/-! # Completed puts survive the resizes

    Threads that put, look up and resize.  No entry ever changes, so what a superseded table
    holds is in the current table as well (`Puts.old`), and a put that has found its key in an
    old table returns what the current table holds.  `Answers` says at which places a put has
    its result. -/

namespace ClhtLpConc

open Interleaving SlotTable ClhtLp

variable {Tid : Type} {c : Conf Tid Clht Local} {t : Tid} {r : Clht × Local} {pc : Pc}

/-! ## The calls and their results -/

/-- The calls that neither remove nor touch an in-table lock, on addresses. -/
def Call.maps : Call → Prop
  | .putType key _ | .get key => key ≠ 0
  | .status _ | .resizePes _ _ => True
  | _ => False

/-- A call of a map is on a proper key. -/
theorem Call.proper_of_maps {call : Call} (hm : call.maps) : call.proper := by
  cases call <;> first | exact hm | exact hm.elim

theorem Call.takes_of_maps {call : Call} (hm : call.maps) : call.takes = false := by
  cases call <;> first | rfl | exact hm.elim

theorem Call.gives_of_maps {call : Call} (hm : call.maps) : call.gives = false := by
  cases call <;> first | rfl | exact hm.elim

/-- The result is the value that the key has. -/
def Entered (m : Multiset (Addr × Val)) (key : Addr) (x : Ret) : Prop :=
  ∃ v, x = .val v ∧ (key, v) ∈ m

/-- Where a put has its result, it is the value that the key has. -/
def Answers (m : Multiset (Addr × Val)) (key : Addr) : Pc → Prop
  | .lockRls _ _ (.ret x) | .lockRls _ _ (.status x) | .ret x => Entered m key x
  | .statusTry _ k | .statusHt _ k | .statusScan _ _ _ _ _ _ k => Entered m key k.ret
  | .statusRls k | .resizeHt _ _ k | .resizeTry _ _ _ k | .resizeNew _ _ _ k | .cpyLock _ _ _ k
  | .cpySlot _ _ _ _ k | .swap _ _ k | .tableNew _ _ _ k | .resizeRls _ k =>
      k.depth ≠ 0 ∧ Entered m key k.ret
  | _ => True

/-- An entry stays in a table that grows. -/
theorem Entered.mono {m m' : Multiset (Addr × Val)} (hle : m ≤ m') {key : Addr} {x : Ret}
    (he : Entered m key x) : Entered m' key x := by
  obtain ⟨v, hx, hv⟩ := he
  exact ⟨v, hx, Multiset.mem_of_le hle hv⟩

/-- What a put is to return stays right in a table that grows. -/
theorem Answers.mono {m m' : Multiset (Addr × Val)} (hle : m ≤ m') {key : Addr}
    (ha : Answers m key pc) : Answers m' key pc := by
  cases pc with
  | ret x => exact Entered.mono hle ha
  | lockRls T b next =>
      cases next with
      | retVal p => trivial
      | ret x => exact Entered.mono hle ha
      | status x => exact Entered.mono hle ha
  | statusTry _ k | statusHt _ k | statusScan _ _ _ _ _ _ k => exact Entered.mono hle ha
  | statusRls k | resizeHt _ _ k | resizeTry _ _ _ k | resizeNew _ _ _ k | cpyLock _ _ _ k
  | cpySlot _ _ _ _ k | swap _ _ k | tableNew _ _ _ k | resizeRls _ k =>
      exact ⟨ha.1, ha.2.mono hle⟩
  | _ => trivial

/-- A put goes on after `ht_status`. -/
theorem Answers.back {m : Multiset (Addr × Val)} {key : Addr} {k : Cont}
    (he : Entered m key k.ret) : Answers m key k.back := by
  unfold Cont.back
  split
  · exact he
  · next hd => exact ⟨hd, he⟩

/-! ## The invariant -/

structure Puts (c : Conf Tid Clht Local) : Prop where
  kept : Kept c
  calls : ∀ u, (c.loc u).pc = .idle ∨ (c.loc u).call.maps
  old : ∀ T < c.sh.numTabs, T ≠ c.sh.ht → ∀ b < (c.sh.tab T).numBuckets,
    entries ((c.sh.tab T).table b) ≤ c.sh.cur.content
  answers : ∀ u key type, (c.loc u).call = .putType key type →
    Answers c.sh.cur.content key (c.loc u).pc
  log : ∀ u key type x, (.putType key type, x) ∈ (c.loc u).log →
    Entered c.sh.cur.content key x

/-- An entry of any table is one of the current table. -/
theorem Puts.mem_of_points (h : Puts c) {key : Addr} {p : SlotPtr} (hp : Points c.sh key p) :
    (key, c.sh.read p) ∈ c.sh.cur.content := by
  obtain ⟨hat, v, hv⟩ := hp
  have hlt := h.kept.bin_lt hat
  have hmem : (key, v) ∈ entries ((c.sh.tab p.tab).table p.bin) :=
    mem_entries.mpr ⟨hat.nonzero, List.mem_of_getElem? hv⟩
  rw [read_of_slot hv]
  by_cases hT : p.tab = c.sh.ht
  · rw [hT] at hlt hmem
    exact Multiset.mem_of_le (entries_le_content _ hlt) hmem
  · exact Multiset.mem_of_le (h.old p.tab hat.table hT p.bin hlt) hmem

/-- Only the chains of the current table are written. -/
theorem Puts.writes_cur (h : Puts c) {T : Nat} (hw : (c.loc t).pc.writes = some T) :
    T = c.sh.ht := by
  have hk := h.kept.known t
  have hcall : (c.loc t).call.takes = false ∧ (c.loc t).call.gives = false := by
    rcases h.calls t with hidle | hmaps
    · rw [hidle] at hw
      exact nomatch hw
    · exact ⟨Call.takes_of_maps hmaps, Call.gives_of_maps hmaps⟩
  have hcur : ∀ b, Locked c.sh (c.loc t).call.key T b → T = c.sh.ht := fun b hl =>
    h.kept.cur_of_byte hl.toAt (by rw [hl.byte]; nofun)
  cases hpc : (c.loc t).pc
  all_goals rw [hpc] at hw hk
  case link T' b v resize =>
    obtain rfl := Option.some.inj hw
    exact hcur b hk.1
  case putVal p v =>
    obtain rfl := Option.some.inj hw
    exact hcur _ hk.1
  case putKey p v =>
    obtain rfl := Option.some.inj hw
    exact hcur _ hk.1
  case rmKey p v => exact hk.elim
  case tasCas p => exact nomatch hcall.1.symm.trans hk.2
  case tasStore p => exact nomatch hcall.2.symm.trans hk.2
  all_goals exact nomatch hw

/-- The current content only grows. -/
theorem Puts.grows (h : Puts c) (heff : Effect c t r) (hpc : (c.loc t).pc ≠ .idle) :
    c.sh.cur.content ≤ r.1.cur.content := by
  have hmaps := (h.calls t).resolve_left hpc
  cases heff with
  | same hpost hheld => exact hpost.ge
  | adds v hv hnew hpost hheld =>
      rw [hpost]
      exact Multiset.le_cons_self ..
  | takes m hcall hpre hpost hheld => exact nomatch (Call.takes_of_maps hmaps).symm.trans hcall
  | gives v m hcall hpre hpost hheld => exact nomatch (Call.gives_of_maps hmaps).symm.trans hcall

/-- What is superseded is still below the current table. -/
theorem Puts.old_step (h : Puts c) (hs : go c.sh (c.loc t) (c.loc t).pc = some r)
    (hle : c.sh.cur.content ≤ r.1.cur.content) :
    ∀ T < r.1.numTabs, T ≠ r.1.ht → ∀ b < (r.1.tab T).numBuckets,
      entries ((r.1.tab T).table b) ≤ r.1.cur.content := by
  have hnum : ∀ T < c.sh.numTabs, (r.1.tab T).numBuckets = (c.sh.tab T).numBuckets :=
    fun T hT => (keeps_of_go hs hT).numBuckets
  -- a table that was not current is as it was
  have hother : ∀ T < c.sh.numTabs, T ≠ c.sh.ht → ∀ b < (r.1.tab T).numBuckets,
      entries ((r.1.tab T).table b) ≤ r.1.cur.content := by
    intro T hT hne b hb
    rw [(keeps_of_go hs hT).table fun hw => hne (h.writes_cur hw)]
    exact (h.old T hT hne b (hnum T hT ▸ hb)).trans hle
  intro T hT hne b hb
  cases dutyStep_of_go rfl hs with
  | same heq hsame => exact hother T (hsame.numTabs ▸ hT) (hsame.ht ▸ hne) b hb
  | wins isIncrease by_ htOld k hpc hfree hpost hlock hht hn =>
      exact hother T (hn ▸ hT) (hht ▸ hne) b hb
  | crashes hpre hpost hsame => exact hother T (hsame.numTabs ▸ hT) (hsame.ht ▸ hne) b hb
  | tells htOld hpre hpost hsame => exact hother T (hsame.numTabs ▸ hT) (hsame.ht ▸ hne) b hb
  | releases hpre hpost hht hn => exact hother T (hn ▸ hT) (hht ▸ hne) b hb
  | swaps htOld hpre hpost hlock hht hn =>
      rw [hn] at hT
      rw [hht] at hne
      have hlt : T < c.sh.numTabs := by omega
      by_cases hcur : T = c.sh.ht
      · subst hcur
        have hno : (c.loc t).pc.writes ≠ some c.sh.ht := by
          intro hw
          exact nomatch (Pc.duty_of_writes hw).symm.trans hpre
        rw [(keeps_of_go hs hlt).table hno]
        exact (entries_le_content _ (hnum _ hlt ▸ hb)).trans hle
      · exact hother T hlt hcur b hb

/-! ## The answers -/

section Answers

variable {m : Multiset (Addr × Val)} {key : Addr} {type : PutType}

/-- A put returns the value that it has found. -/
theorem Answers.gotVal {p : SlotPtr} {v : Val} (hv : (key, v) ∈ m) :
    Answers m key ((Call.putType key type).gotVal p v) := by
  dsimp only [Call.gotVal]
  split_ifs
  · exact ⟨v, rfl, hv⟩
  · trivial

/-- A put has nothing to return yet. -/
theorem Answers.absent (T b H : Nat) (e : Option Nat) (v : Val) :
    Answers m key ((Call.putType key type).absent T b H e v) := by
  cases e <;> trivial

/-- A put goes on after the unlock of the bucket. -/
theorem Answers.next {T b : Nat} {next : After} (ha : Answers m key (.lockRls T b next)) :
    Answers m key next.pc := by
  cases next with
  | ret x => exact ha
  | retVal p => trivial
  | status x => exact ha

theorem Cont.won_of_open {k : Cont} (hd : k.depth ≠ 0) : k.won = k := if_neg hd

end Answers

/-- What a put has written is an entry of the current table. -/
theorem Kept.mem_of_write (h : Kept c) {key : Addr} {b i : Nat} {v : Val}
    (hat : At c.sh key c.sh.ht b) {ch : Chain Addr Val} (hi : ch[i]? = some ⟨key, v⟩) :
    (key, v) ∈ (c.sh.setTab c.sh.ht (c.sh.cur.setChain b ch)).cur.content := by
  rw [setTab_cur]
  have hmem : (key, v) ∈ entries ((c.sh.cur.setChain b ch).table b) := by
    show (key, v) ∈ entries (Function.update c.sh.cur.table b ch b)
    rw [Function.update_self]
    exact mem_entries.mpr ⟨hat.nonzero, List.mem_of_getElem? hi⟩
  exact Multiset.mem_of_le (entries_le_content _ (h.bin_lt hat)) hmem

/-- A step of a put keeps its answer right. -/
theorem Puts.answers_step (h : Puts c) {key : Addr} {type : PutType}
    (hcall : (c.loc t).call = .putType key type) (hle : c.sh.cur.content ≤ r.1.cur.content)
    (hs : go c.sh (c.loc t) (c.loc t).pc = some r) : Answers r.1.cur.content key r.2.pc := by
  have hk := h.kept.known t
  have ha := (h.answers t key type hcall).mono hle
  cases hpc : (c.loc t).pc with
  | idle => rw [hpc] at hs; exact nomatch hs
  | crash => rw [hpc] at hs; exact nomatch hs
  | readHt =>
      rw [hpc] at hs
      obtain rfl := Option.some.inj hs
      show Answers _ _ ((c.loc t).call.begun _ _)
      rw [hcall]
      trivial
  | search T b i =>
      rw [hpc] at hs
      dsimp only [go] at hs
      split at hs
      · split at hs <;> obtain rfl := Option.some.inj hs
        · show Answers _ _ ((c.loc t).call.hit _)
          rw [hcall]
          trivial
        · trivial
      · obtain rfl := Option.some.inj hs
        show Answers _ _ ((c.loc t).call.missed _ _)
        rw [hcall]
        trivial
  | searchVal p =>
      rw [hpc] at hs hk
      obtain rfl := Option.some.inj hs
      -- the pointer of a search that hit is to a slot with the key
      have hmem := h.mem_of_points hk
      show Answers _ _ ((c.loc t).call.gotVal _ _)
      rw [hcall] at hmem ⊢
      exact .gotVal hmem
  | seek T b H =>
      rw [hpc] at hs
      dsimp only [go] at hs
      split at hs <;> obtain rfl := Option.some.inj hs
      · show Answers _ _ ((c.loc t).call.present _)
        rw [hcall]
        trivial
      · show Answers _ _ ((c.loc t).call.absent _ _ _ _ _)
        rw [hcall]
        exact .absent ..
  | link T b val resize =>
      have hw : (c.loc t).pc.writes = some T := by rw [hpc]; rfl
      obtain rfl := h.writes_cur hw
      rw [hpc] at hs hk
      obtain rfl := Option.some.inj hs
      -- the linked bucket has the key and the value in its first slot
      have hchain : (c.sh.cur.table b ++ bucketWith (c.loc t).call.key val)[
          (c.sh.cur.table b).length]? = some ⟨(c.loc t).call.key, val⟩ := by
        rw [List.getElem?_append_right le_rfl, Nat.sub_self]
        rfl
      have hmem := h.kept.mem_of_write hk.1.toAt hchain
      have hentered : Entered (c.sh.setTab c.sh.ht (c.sh.cur.setChain b
          (c.sh.cur.table b ++ bucketWith (c.loc t).call.key val))).cur.content key
          ((c.loc t).call.inserted ⟨c.sh.ht, b, (c.sh.cur.table b).length⟩ val) := by
        rw [hcall] at hmem ⊢
        exact ⟨val, rfl, hmem⟩
      show Answers _ _ (.lockRls _ _ (if resize then _ else _))
      split
      · exact hentered
      · exact hentered
  | putKey p val =>
      have hw : (c.loc t).pc.writes = some p.tab := by rw [hpc]; rfl
      obtain ⟨T, b, i⟩ := p
      obtain rfl : T = c.sh.ht := h.writes_cur hw
      rw [hpc] at hs hk
      obtain rfl := Option.some.inj hs
      -- the value is there already: the key makes the slot count
      obtain ⟨hl, -, hslot⟩ := hk
      have hset : c.sh.setKey ⟨c.sh.ht, b, i⟩ (c.loc t).call.key
          = c.sh.setTab c.sh.ht (c.sh.cur.setChain b
            ((c.sh.cur.table b).set i ⟨(c.loc t).call.key, val⟩)) := by
        unfold Clht.setKey
        rw [hslot]
        rfl
      have hlen : i < (c.sh.cur.table b).length := (List.getElem?_eq_some_iff.mp hslot).1
      have hchain : ((c.sh.cur.table b).set i ⟨(c.loc t).call.key, val⟩)[i]?
          = some ⟨(c.loc t).call.key, val⟩ := by
        rw [List.getElem?_set, if_pos rfl, if_pos hlen]
      have hmem := h.kept.mem_of_write hl.toAt hchain
      show Entered (c.sh.setKey ⟨c.sh.ht, b, i⟩ (c.loc t).call.key).cur.content key
        ((c.loc t).call.inserted ⟨c.sh.ht, b, i⟩ val)
      rw [hset]
      rw [hcall] at hmem ⊢
      exact ⟨val, rfl, hmem⟩
  | lockRls T b next =>
      rw [hpc] at hs ha
      obtain rfl := Option.some.inj hs
      exact ha.next
  | retVal p =>
      rw [hpc] at hs hk
      obtain rfl := Option.some.inj hs
      have hmem := h.mem_of_points hk
      rw [hcall] at hmem
      exact ⟨_, rfl, hmem⟩
  | statusTry inc k =>
      rw [hpc] at hs ha
      obtain rfl := Option.some.inj hs
      show Answers _ _ (if _ then _ else _)
      split
      · exact .back ha
      · exact ha
  | statusScan inc T b i size em k =>
      rw [hpc] at hs ha
      have hsized : k.sized (c.loc t).call size = k := by
        rw [hcall]
        rfl
      dsimp only [go] at hs
      split at hs
      · split at hs <;> obtain rfl := Option.some.inj hs <;> exact ha
      · rw [hsized] at hs
        split at hs <;> obtain rfl := Option.some.inj hs <;> exact ⟨Nat.succ_ne_zero _, ha⟩
  | statusRls k =>
      rw [hpc] at hs ha
      obtain rfl := Option.some.inj hs
      exact .back ha.2
  | resizeTry inc by_ htOld k =>
      rw [hpc] at hs ha
      dsimp only [go] at hs
      split at hs <;> obtain rfl := Option.some.inj hs
      · exact .back ha.2
      · show Answers _ _ (.resizeNew _ _ _ k.won)
        rw [Cont.won_of_open ha.1]
        exact ha
  | resizeNew inc by_ htOld k =>
      rw [hpc] at hs ha
      dsimp only [go] at hs
      split at hs <;> obtain rfl := Option.some.inj hs
      · trivial
      · exact ha
  | cpyLock htOld htNew b k =>
      rw [hpc] at hs
      have ha' := ha
      rw [hpc] at ha'
      dsimp only [go] at hs
      split at hs
      · split at hs <;> obtain rfl := Option.some.inj hs
        · exact ha'
        · exact ha
        · exact ha'
      · obtain rfl := Option.some.inj hs
        exact ha'
  | cpySlot htOld htNew b i k =>
      rw [hpc] at hs ha
      dsimp only [go] at hs
      split at hs <;> obtain rfl := Option.some.inj hs <;> exact ha
  | statusHt _ k | resizeHt _ _ k | swap _ _ k | tableNew _ _ _ k =>
      rw [hpc] at hs ha
      obtain rfl := Option.some.inj hs
      exact ha
  | resizeRls again k =>
      rw [hpc] at hs ha
      obtain rfl := Option.some.inj hs
      show Answers _ _ (if _ then _ else _)
      split
      · exact ha.2
      · exact .back ha.2
  | ret x =>
      rw [hpc] at hs
      obtain rfl := Option.some.inj hs
      rw [hcall]
      trivial
  | tasCas p =>
      -- a put has no CAS and no store of `tas_in`
      rw [hpc] at hk
      rw [hcall] at hk
      exact nomatch hk.2
  | tasStore p =>
      rw [hpc] at hk
      rw [hcall] at hk
      exact nomatch hk.2
  | rmVal p => rw [hpc] at hk; exact hk.elim
  | rmKey p v => rw [hpc] at hk; exact hk.elim
  | lockAcq T b H =>
      rw [hpc] at hs
      dsimp only [go] at hs
      split at hs <;> obtain rfl := Option.some.inj hs
      · trivial
      · exact ha
      · trivial
  | waitNew H =>
      rw [hpc] at hs
      dsimp only [go] at hs
      split at hs <;> obtain rfl := Option.some.inj hs
      · exact ha
      · trivial
  | _ =>
      rw [hpc] at hs
      obtain rfl := Option.some.inj hs
      trivial

/-! ## Every run -/

/-- Threads put, look up and resize. -/
def MapsOnly (_ : Conf Tid Clht Local) (_ : Tid) (a : Act) : Prop :=
  match a with
  | .start call => call.maps
  | .go => True

/-- Who wins `resize_lock` has read the table that is still current, whose buckets the copy
    loop reaches. -/
def FreshResizes (c : Conf Tid Clht Local) (t : Tid) (a : Act) : Prop :=
  match a with
  | .start call => call.maps
  | .go =>
      match (c.loc t).pc with
      | .resizeTry _ _ htOld _ =>
          c.sh.resizeLock = false → htOld = c.sh.ht ∧ c.sh.cur.numBuckets ≤ 2 ^ 31
      | _ => True

instance : (call : Call) → Decidable call.maps
  | .putType key _ | .get key => (inferInstance : Decidable (key ≠ 0))
  | .status _ | .resizePes _ _ => isTrue trivial
  | .putInit _ | .putIn _ | .remove _ => isFalse not_false
  | .lockTasIn _ | .trylockTasIn _ | .unlockTasIn _ => isFalse not_false

instance (c : Conf Tid Clht Local) (t : Tid) : (a : Act) → Decidable (MapsOnly c t a)
  | .start call => instDecidableMaps call
  | .go => isTrue trivial

theorem freshResizes_iff (c : Conf Tid Clht Local) (t : Tid) :
    (match (c.loc t).pc with
      | .resizeTry _ _ htOld _ =>
          decide (c.sh.resizeLock = false → htOld = c.sh.ht ∧ c.sh.cur.numBuckets ≤ 2 ^ 31)
      | _ => true) = true ↔ FreshResizes c t .go := by
  unfold FreshResizes
  dsimp only
  cases (c.loc t).pc with
  | resizeTry => exact decide_eq_true_iff
  | _ => exact iff_of_true rfl trivial

instance (c : Conf Tid Clht Local) (t : Tid) : (a : Act) → Decidable (FreshResizes c t a)
  | .start call => instDecidableMaps call
  | .go => decidable_of_iff _ (freshResizes_iff c t)

/-- A run of puts is careful. -/
theorem Puts.careful (h : Puts c) (hok : FreshResizes c t .go) : Careful c t .go := by
  have hk := h.kept.known t
  have hmaps : (c.loc t).pc ≠ .idle → (c.loc t).call.maps := (h.calls t).resolve_left
  unfold FreshResizes at hok
  unfold Careful
  dsimp only at hok ⊢
  split
  · next inc by_ htOld k hpc =>
    rw [hpc] at hok
    exact hok
  · next p hpc =>
    rw [hpc] at hk
    exact absurd hk.2 (Bool.eq_false_iff.mp (Call.takes_of_maps (hmaps (by simp [hpc]))))
  · next p hpc =>
    rw [hpc] at hk
    exact absurd hk.2 (Bool.eq_false_iff.mp (Call.gives_of_maps (hmaps (by simp [hpc]))))
  · trivial

variable [DecidableEq Tid]

/-- **Step lemma.** -/
theorem Puts.step (h : Puts c) (hok : FreshResizes c t .go)
    (hs : go c.sh (c.loc t) (c.loc t).pc = some r) : Puts (c.put t r) := by
  have hself : (c.put t r).loc t = r.2 := put_loc_self ..
  have hcall : r.2.call = (c.loc t).call := call_of_go hs
  have hpc : (c.loc t).pc ≠ .idle := by
    intro hidle
    rw [hidle] at hs
    exact nomatch hs
  obtain ⟨hkept, heff⟩ := h.kept.step (h.careful hok) hs
  have hle := h.grows heff hpc
  refine ⟨hkept, ?_, h.old_step hs hle, ?_, ?_⟩
  · intro u
    by_cases hut : u = t
    · subst hut
      rw [hself, hcall]
      exact Or.inr ((h.calls u).resolve_left hpc)
    · rw [put_loc_ne c r hut]
      exact h.calls u
  · intro u key type hu
    by_cases hut : u = t
    · subst hut
      rw [hself] at hu ⊢
      exact h.answers_step (hcall.symm.trans hu) hle hs
    · rw [put_loc_ne c r hut] at hu ⊢
      exact (h.answers u key type hu).mono hle
  · intro u key type x hmem
    by_cases hut : u = t
    · subst hut
      rw [hself] at hmem
      obtain hsame | ⟨y, hlog, hret⟩ := log_of_go hs
      · rw [hsame] at hmem
        exact (h.log u key type x hmem).mono hle
      · rw [hlog] at hmem
        obtain heq | hold := List.mem_cons.mp hmem
        · obtain ⟨hput, rfl⟩ := Prod.mk.inj heq
          have ha := (h.answers u key type hput.symm).mono hle
          have hk := h.kept.known u
          obtain hret | ⟨p, hcas | hstore⟩ := hret
          · rw [hret] at ha
            exact ha
          · rw [hcas, ← hput] at hk
            exact nomatch hk.2
          · rw [hstore, ← hput] at hk
            exact nomatch hk.2
        · exact (h.log u key type x hold).mono hle
    · rw [put_loc_ne c r hut] at hmem
      exact (h.log u key type x hmem).mono hle

/-- A call begins. -/
theorem Puts.begin (h : Puts c) (hidle : (c.loc t).pc = .idle) {call : Call} (hmaps : call.maps) :
    Puts (c.put t (c.sh, { c.loc t with pc := call.entry, call := call })) := by
  have hself := put_loc_self c t (c.sh, { c.loc t with pc := call.entry, call := call })
  refine ⟨h.kept.begin hidle (Call.proper_of_maps hmaps), ?_, h.old, ?_, ?_⟩
  · intro u
    by_cases hut : u = t
    · subst hut
      rw [hself]
      exact Or.inr hmaps
    · rw [put_loc_ne _ _ hut]
      exact h.calls u
  · intro u key type hu
    by_cases hut : u = t
    · subst hut
      rw [hself] at hu ⊢
      obtain rfl : call = .putType key type := hu
      trivial
    · rw [put_loc_ne _ _ hut] at hu ⊢
      exact h.answers u key type hu
  · intro u key type x hmem
    by_cases hut : u = t
    · subst hut
      rw [hself] at hmem
      exact h.log u key type x hmem
    · rw [put_loc_ne _ _ hut] at hmem
      exact h.log u key type x hmem

omit [DecidableEq Tid] in
/-- A new table. -/
theorem Init.puts {n : Nat} (h : Init n c) : Puts c := by
  have hone : c.sh.ht = 0 ∧ c.sh.numTabs = 1 := by
    obtain ⟨T, -, hsh⟩ := Option.map_eq_some_iff.mp h.sh
    rw [← hsh]
    exact ⟨rfl, rfl⟩
  refine ⟨h.kept, fun u => Or.inl (h.loc u).1, fun T hlt hne => by omega, ?_, ?_⟩
  · intro u key type _
    rw [(h.loc u).1]
    trivial
  · intro u key type x hmem
    rw [(h.loc u).2.2] at hmem
    exact absurd hmem List.not_mem_nil

/-- **Run lemma.** -/
theorem puts_of_reach {n : Nat} (h : Reach prog FreshResizes (Init n) c) : Puts c := by
  refine Reach.invariant (fun _ h0 => h0.puts) ?_ h
  intro c t a r hc hok hs
  obtain ⟨call, rfl, hidle, -, rfl⟩ | ⟨rfl, hs⟩ := prog_cases hs
  · exact hc.begin hidle hok
  · exact hc.step hok hs

/-- Every put that has completed is in the current table, with the value it has returned,
    and nobody is about to publish a table made from a superseded one. -/
structure PutsKept (c : Conf Tid Clht Local) : Prop where
  entries : ∀ u key type x, (.putType key type, x) ∈ (c.loc u).log →
    ∃ v, x = .val v ∧ (key, v) ∈ c.sh.cur.content ∧ clhtLpGet c.sh.cur key = v
  fresh : ∀ u htOld htNew k, (c.loc u).pc = .swap htOld htNew k → htOld = c.sh.ht

/-- **No resize loses an entry**, in every run in which whoever wins `resize_lock` has read
    the table that is still current. -/
theorem puts_kept {n : Nat} (h : Reach prog FreshResizes (Init n) c) : PutsKept c := by
  have hp := puts_of_reach h
  refine ⟨?_, fun u htOld htNew k hpc => hp.kept.excl.copies u htOld (by rw [hpc]; rfl)⟩
  intro u key type x hmem
  obtain ⟨v, rfl, hv⟩ := hp.log u key type x hmem
  exact ⟨v, rfl, hv, hp.kept.mapped.clhtLpGet hv⟩

/-- A put and a whole resize. -/
def putResize : List (Bool × Act) :=
  calls true (.putType 4 .ticket) 12 ++ calls true (.resizePes true 2) 13

/-- The condition can be met: the entry is in the second table. -/
theorem puts_kept_resized : ∃ c : Conf Bool Clht Local, Reach prog FreshResizes (Init 1) c ∧
    PutsKept c ∧ (.putType 4 .ticket, .val 1) ∈ (c.loc true).log ∧ c.sh.ht = 1 := by
  have hrun : ((start 1).bind fun c => exec prog FreshResizes c putResize).any
      (fun c => decide ((.putType 4 .ticket, .val 1) ∈ (c.loc true).log ∧ c.sh.ht = 1)) = true := by
    decide +kernel
  obtain ⟨c, hc, hP⟩ := reach_of_start hrun
  exact ⟨c, hc, puts_kept hc, of_decide_eq_true hP⟩

/-- A thread reads `h->ht`; another one puts and resizes; then the first one wins
    `resize_lock`, skips the only bucket, and publishes an empty table. -/
def staleSchedule : List (Bool × Act) :=
  calls false (.resizePes true 2) 1 ++ (putResize ++ List.replicate 5 (false, .go))

/-- Without the condition an entry is lost. -/
theorem puts_lost : ∃ c : Conf Bool Clht Local, Reach prog MapsOnly (Init 1) c ∧
    (.putType 4 .ticket, .val 1) ∈ (c.loc true).log ∧ clhtLpGet c.sh.cur 4 = 0 ∧
    ¬ PutsKept c := by
  have hrun : ((start 1).bind fun c => exec prog MapsOnly c staleSchedule).any
      (fun c => decide ((.putType 4 .ticket, .val 1) ∈ (c.loc true).log ∧
        clhtLpGet c.sh.cur 4 = 0)) = true := by
    decide +kernel
  obtain ⟨c, hc, hP⟩ := reach_of_start hrun
  obtain ⟨hmem, hget⟩ := of_decide_eq_true hP
  refine ⟨c, hc, hmem, hget, fun hkept => ?_⟩
  obtain ⟨v, hv, -, hget'⟩ := hkept.entries true 4 .ticket _ hmem
  exact nomatch hget.symm.trans (hget'.trans (Ret.val.inj hv).symm)

end ClhtLpConc
