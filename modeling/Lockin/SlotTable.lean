import Mathlib.Algebra.BigOperators.Group.Finset.Basic
import Mathlib.Algebra.Order.BigOperators.Group.Multiset
import Mathlib.Algebra.Order.BigOperators.Group.Finset
import Mathlib.Data.Multiset.AddSub
import Mathlib.Tactic.Abel

/-! # Tables of slots

    A chain is a list of slots, each a key with a value; the key `0` marks a
    vacant slot, whose value means nothing.  A table spreads its entries over
    chains, one for every value of a hash.

    What a chain holds is read as a multiset of entries, so that filling a
    vacancy, clearing a slot and appending slots are equations between
    multisets, and moving all entries to another table is an equation between
    contents. -/

namespace SlotTable

/-- A place for one entry. -/
structure Slot (K V : Type) where
  key : K
  val : V
  deriving DecidableEq

/-- Slots in the order in which a search looks at them. -/
abbrev Chain (K V : Type) := List (Slot K V)

variable {K V : Type} [DecidableEq K] [Zero K]

/-! ## One chain -/

/-- The entry of a slot, if it is occupied. -/
def Slot.entry (s : Slot K V) : Multiset (K × V) :=
  if s.key = 0 then 0 else {(s.key, s.val)}

/-- The entries of a chain. -/
def entries (c : Chain K V) : Multiset (K × V) :=
  (c.map Slot.entry).sum

/-- No two entries have the same key. -/
def Distinct (m : Multiset (K × V)) : Prop := (m.map Prod.fst).Nodup

theorem Slot.entry_of_vacant {s : Slot K V} (h : s.key = 0) : s.entry = 0 := by
  simp [Slot.entry, h]

theorem Slot.entry_of_occupied {k : K} {v : V} (h : k ≠ 0) :
    (⟨k, v⟩ : Slot K V).entry = {(k, v)} := by
  simp [Slot.entry, h]

@[simp] theorem entries_nil : entries ([] : Chain K V) = 0 := rfl

@[simp] theorem entries_cons (s : Slot K V) (c : Chain K V) :
    entries (s :: c) = s.entry + entries c := by
  simp [entries]

@[simp] theorem entries_append (c d : Chain K V) :
    entries (c ++ d) = entries c + entries d := by
  simp [entries]

/-- What a chain holds, slot by slot. -/
theorem mem_entries {c : Chain K V} {k : K} {v : V} :
    (k, v) ∈ entries c ↔ k ≠ 0 ∧ ⟨k, v⟩ ∈ c := by
  induction c with
  | nil => simp
  | cons s rest ih =>
      obtain ⟨k', v'⟩ := s
      simp only [entries_cons, Multiset.mem_add, ih, List.mem_cons, Slot.mk.injEq,
        Slot.entry]
      by_cases h0 : k' = 0
      · rw [if_pos h0]
        constructor
        · rintro (h | ⟨hk, hmem⟩)
          · exact absurd h (Multiset.notMem_zero _)
          · exact ⟨hk, .inr hmem⟩
        · rintro ⟨hk, ⟨rfl, -⟩ | hmem⟩
          · exact absurd h0 hk
          · exact .inr ⟨hk, hmem⟩
      · rw [if_neg h0, Multiset.mem_singleton, Prod.mk.injEq]
        constructor
        · rintro (⟨rfl, rfl⟩ | ⟨hk, hmem⟩)
          · exact ⟨h0, .inl ⟨rfl, rfl⟩⟩
          · exact ⟨hk, .inr hmem⟩
        · rintro ⟨hk, heq | hmem⟩
          · exact .inl heq
          · exact .inr ⟨hk, hmem⟩

/-- **Overwriting a slot** exchanges its entry for the new one. -/
theorem entries_set {ch : Chain K V} {i : Nat} {old : Slot K V} (s : Slot K V)
    (h : ch[i]? = some old) :
    entries (ch.set i s) + old.entry = entries ch + s.entry := by
  induction ch generalizing i with
  | nil => simp at h
  | cons a rest ih =>
      cases i with
      | zero =>
          obtain rfl : a = old := by simpa using h
          simp only [List.set_cons_zero, entries_cons]
          abel
      | succ i =>
          have hi : rest[i]? = some old := by simpa using h
          simp only [List.set_cons_succ, entries_cons, add_assoc, ih hi]

/-- Filling a vacancy adds one entry. -/
theorem entries_fill {ch : Chain K V} {i : Nat} {old : Slot K V} {k : K} (v : V)
    (hk : k ≠ 0) (h : ch[i]? = some old) (h0 : old.key = 0) :
    entries (ch.set i ⟨k, v⟩) = (k, v) ::ₘ entries ch := by
  have hset := entries_set ⟨k, v⟩ h
  rw [Slot.entry_of_vacant h0, Slot.entry_of_occupied hk, add_zero] at hset
  rw [hset, add_comm, Multiset.singleton_add]

/-- Vacating a slot takes one entry away. -/
theorem entries_vacate {ch : Chain K V} {i : Nat} {k : K} {v : V} (w : V)
    (hk : k ≠ 0) (h : ch[i]? = some ⟨k, v⟩) :
    (k, v) ::ₘ entries (ch.set i ⟨0, w⟩) = entries ch := by
  have hset := entries_set ⟨0, w⟩ h
  rw [Slot.entry_of_vacant (s := ⟨0, w⟩) rfl, Slot.entry_of_occupied hk, add_zero] at hset
  rw [← hset, add_comm, Multiset.singleton_add]

/-- There are at most as many entries as slots. -/
theorem card_entries_le (c : Chain K V) : (entries c).card ≤ c.length := by
  induction c with
  | nil => simp
  | cons s rest ih =>
      have hs : (Slot.entry s).card ≤ 1 := by
        unfold Slot.entry
        split <;> simp
      simp only [entries_cons, Multiset.card_add, List.length_cons]
      omega

/-- Without a vacancy there are exactly as many. -/
theorem card_entries_of_full {c : Chain K V} (h : ∀ s ∈ c, s.key ≠ 0) :
    (entries c).card = c.length := by
  induction c with
  | nil => rfl
  | cons s rest ih =>
      have hs : (Slot.entry s).card = 1 := by
        rw [Slot.entry, if_neg (h s (by simp)), Multiset.card_singleton]
      simp only [entries_cons, Multiset.card_add, List.length_cons, hs,
        ih fun x hx => h x (by simp [hx])]
      omega

/-- With distinct keys, a key occupies at most one slot. -/
theorem slot_unique {ch : Chain K V} (hd : Distinct (entries ch)) {i j : Nat} {k : K}
    {v w : V} (hk : k ≠ 0) (hi : ch[i]? = some ⟨k, v⟩) (hj : ch[j]? = some ⟨k, w⟩) :
    i = j := by
  induction ch generalizing i j with
  | nil => simp at hi
  | cons s rest ih =>
      have hd' : Distinct (entries rest) := by
        rw [Distinct, entries_cons, Multiset.map_add] at hd
        exact (Multiset.nodup_add.mp hd).2.1
      -- a key in the first slot does not occur behind it
      have hfirst : ∀ (n : Nat) (v' w' : V), s = ⟨k, v'⟩ → rest[n]? = some ⟨k, w'⟩ →
          False := by
        rintro n v' w' rfl hn
        rw [Distinct, entries_cons, Slot.entry_of_occupied hk, Multiset.map_add] at hd
        have hmem : (k, w') ∈ entries rest := mem_entries.mpr ⟨hk, List.mem_of_getElem? hn⟩
        have hk' : k ∈ ({(k, v')} : Multiset (K × V)).map Prod.fst := by simp
        exact Multiset.disjoint_left.mp (Multiset.nodup_add.mp hd).2.2 hk'
          (Multiset.mem_map.mpr ⟨_, hmem, rfl⟩)
      cases i with
      | zero =>
          cases j with
          | zero => rfl
          | succ j => exact (hfirst j v w (by simpa using hi) (by simpa using hj)).elim
      | succ i =>
          cases j with
          | zero => exact (hfirst i w v (by simpa using hj) (by simpa using hi)).elim
          | succ j =>
              have hij : i = j := ih hd' (by simpa using hi) (by simpa using hj)
              rw [hij]

omit [DecidableEq K] [Zero K] in
/-- Distinct entries under one key are one entry. -/
theorem Distinct.eq {m : Multiset (K × V)} (hd : Distinct m) {k : K} {v w : V}
    (hv : (k, v) ∈ m) (hw : (k, w) ∈ m) : v = w := by
  have := Multiset.inj_on_of_nodup_map hd (k, v) hv (k, w) hw rfl
  exact congrArg Prod.snd this

omit [DecidableEq K] [Zero K] in
theorem Distinct.of_le {m m' : Multiset (K × V)} (hd : Distinct m) (h : m' ≤ m) :
    Distinct m' :=
  Multiset.nodup_of_le (Multiset.map_le_map h) hd

omit [DecidableEq K] [Zero K] in
/-- A key that is added was not there. -/
theorem Distinct.not_mem {m : Multiset (K × V)} {k : K} {v : V} (hd : Distinct ((k, v) ::ₘ m))
    (w : V) : (k, w) ∉ m := by
  intro hmem
  unfold Distinct at hd
  rw [Multiset.map_cons, Multiset.nodup_cons] at hd
  exact hd.1 (Multiset.mem_map.mpr ⟨(k, w), hmem, rfl⟩)

omit [DecidableEq K] [Zero K] in
/-- A new key keeps the keys distinct. -/
theorem Distinct.cons {m : Multiset (K × V)} (hd : Distinct m) {k : K} (v : V)
    (hk : ∀ w, (k, w) ∉ m) : Distinct ((k, v) ::ₘ m) := by
  rw [Distinct, Multiset.map_cons, Multiset.nodup_cons]
  refine ⟨fun hmem => ?_, hd⟩
  obtain ⟨⟨k', w⟩, hw, rfl⟩ := Multiset.mem_map.mp hmem
  exact hk w hw

/-! ## A table -/

/-- Everything the first `n` chains hold. -/
def content (n : Nat) (f : Nat → Chain K V) : Multiset (K × V) :=
  ∑ b ∈ Finset.range n, entries (f b)

/-- Every entry is in the chain that its hash selects. -/
def Hashed (hash : K → Nat) (n : Nat) (f : Nat → Chain K V) : Prop :=
  ∀ b < n, ∀ k v, (k, v) ∈ entries (f b) → hash k = b

/-- An entry of the table is one of a bucket. -/
theorem mem_content {n : Nat} {f : Nat → Chain K V} {x : K × V} :
    x ∈ content n f ↔ ∃ b < n, x ∈ entries (f b) := by
  simp [content, Multiset.mem_sum]

/-- One bucket more. -/
theorem content_succ (n : Nat) (f : Nat → Chain K V) :
    content (n + 1) f = content n f + entries (f n) :=
  Finset.sum_range_succ ..

omit [DecidableEq K] [Zero K] in
/-- Exchanging one chain exchanges its share of a sum over the table. -/
theorem sum_update {M : Type} [AddCommMonoid M] (g : Chain K V → M) {n b : Nat}
    (f : Nat → Chain K V) (c : Chain K V) (hb : b < n) :
    ∑ x ∈ Finset.range n, g (Function.update f b c x) + g (f b)
      = ∑ x ∈ Finset.range n, g (f x) + g c := by
  have hmem : b ∈ Finset.range n := Finset.mem_range.mpr hb
  have hrest : ∑ x ∈ (Finset.range n).erase b, g (Function.update f b c x)
      = ∑ x ∈ (Finset.range n).erase b, g (f x) := by
    refine Finset.sum_congr rfl fun x hx => ?_
    rw [Function.update_of_ne (Finset.ne_of_mem_erase hx)]
  rw [← Finset.add_sum_erase _ _ hmem, ← Finset.add_sum_erase _ (fun x => g (f x)) hmem,
    hrest, Function.update_self]
  abel

/-- Exchanging one chain exchanges its entries. -/
theorem content_update {n b : Nat} (f : Nat → Chain K V) (c : Chain K V) (hb : b < n) :
    content n (Function.update f b c) + entries (f b) = content n f + entries c :=
  sum_update entries f c hb

/-- One more entry in one chain is one more entry in the table. -/
theorem content_insert {n b : Nat} {f : Nat → Chain K V} {c : Chain K V} {x : K × V}
    (hb : b < n) (hc : entries c = x ::ₘ entries (f b)) :
    content n (Function.update f b c) = x ::ₘ content n f := by
  have h := content_update f c hb
  rw [hc, Multiset.add_cons, ← Multiset.cons_add] at h
  exact add_right_cancel h

/-- One entry less in one chain is one entry less in the table. -/
theorem content_remove {n b : Nat} {f : Nat → Chain K V} {c : Chain K V} {x : K × V}
    (hb : b < n) (hc : x ::ₘ entries c = entries (f b)) :
    x ::ₘ content n (Function.update f b c) = content n f := by
  have h := content_update f c hb
  rw [← hc, Multiset.add_cons, ← Multiset.cons_add] at h
  exact add_right_cancel h

/-- An entry of the table is found in the chain its hash selects. -/
theorem Hashed.mem_content_iff {hash : K → Nat} {n : Nat} {f : Nat → Chain K V}
    (hh : Hashed hash n f) {k : K} {v : V} (hk : hash k < n) :
    (k, v) ∈ content n f ↔ (k, v) ∈ entries (f (hash k)) := by
  rw [mem_content]
  constructor
  · rintro ⟨b, hb, hmem⟩
    rwa [hh b hb k v hmem]
  · intro hmem
    exact ⟨_, hk, hmem⟩

/-- What one chain holds is part of the table. -/
theorem entries_le_content {n b : Nat} (f : Nat → Chain K V) (hb : b < n) :
    entries (f b) ≤ content n f :=
  Finset.single_le_sum (fun _ _ => Multiset.zero_le _) (Finset.mem_range.mpr hb)

/-- Fewer chains hold less. -/
theorem content_mono {n m : Nat} (f : Nat → Chain K V) (h : n ≤ m) :
    content n f ≤ content m f :=
  Finset.sum_le_sum_of_subset (Finset.range_subset_range.mpr h)

/-- Replacing one chain by one with hashed entries keeps the table hashed. -/
theorem Hashed.update {hash : K → Nat} {n : Nat} {f : Nat → Chain K V}
    (hh : Hashed hash n f) {b : Nat} {c : Chain K V}
    (hc : ∀ k v, (k, v) ∈ entries c → hash k = b) :
    Hashed hash n (Function.update f b c) := by
  intro x hx k v hmem
  by_cases hxb : x = b
  · subst hxb
    rw [Function.update_self] at hmem
    exact hc k v hmem
  · rw [Function.update_of_ne hxb] at hmem
    exact hh x hx k v hmem

end SlotTable
