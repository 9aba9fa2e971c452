import Mathlib

/-!
# Tables with open addressing

An entry of a table with `m` slots is in the slot that its hash value designates, or in
one of the slots after it, modulo `m`, with no empty slot between the two (`Placed`).  A
probe goes through these slots and stops at one that is empty or that has an entry which
passes a test: it finds an entry of the table (`Placed.probe_mem`), and where there is
none it finds a slot to put it in (`probe_absent`).  When the entries are put in a table
of another size, one after the other, no entry is lost (`rehash_ok`).
-/

namespace Lush.OpenAddressing

variable {ε : Type*}

/-- The entries of a table, by their slots. -/
abbrev Table (ε : Type*) := ℕ → Option ε

/-- A table without entries. -/
def empty : Table ε := fun _ => none

/-- The first of `n` slots, from the `p`th one on, that is empty or has an entry which
passes the test. -/
def probe (table : Table ε) (test : ε → Bool) (slot : ℕ → ℕ) : ℕ → ℕ → Option ℕ
  | 0, _ => none
  | n + 1, p =>
      match table (slot p) with
      | none => some (slot p)
      | some e => if test e then some (slot p) else probe table test slot n (p + 1)

/-- An entry is put in the first empty slot. -/
def reinsert (slot : ε → ℕ → ℕ) (n : ℕ) (table : Table ε) (e : ε) : Table ε :=
  match probe table (fun _ => false) (slot e) n 0 with
  | some i => Function.update table i (some e)
  | none => table

/-- The entries of the first `size` slots are put in an empty table. -/
def rehash (slot : ε → ℕ → ℕ) (n : ℕ) (old : Table ε) (size : ℕ) : Table ε :=
  (List.range size).foldl (fun new i => (old i).elim new (reinsert slot n new)) empty

/-! ## Probes -/

/-- A probe goes no further than a slot that is empty or has an entry which passes the
test. -/
def Stops (table : Table ε) (test : ε → Bool) (i : ℕ) : Prop :=
  ∀ e, table i = some e → test e = true

variable {table old : Table ε} {test : ε → Bool} {slot : ℕ → ℕ} {hash : ε → ℕ} {m n i : ℕ} {e : ε}

theorem probe_eq {p d : ℕ} (hd : d < n) (hstop : Stops table test (slot (p + d)))
    (hbefore : ∀ j < d, ¬Stops table test (slot (p + j))) :
    probe table test slot n p = some (slot (p + d)) := by
  induction n generalizing p d with
  | zero => exact absurd hd (Nat.not_lt_zero d)
  | succ n ih =>
      rw [probe]
      cases d with
      | zero =>
          cases hslot : table (slot p) with
          | none => rfl
          | some e => simp [hstop e hslot]
      | succ d =>
          have hgoes := hbefore 0 (Nat.succ_pos d)
          rw [Nat.add_zero] at hgoes
          cases hslot : table (slot p) with
          | none => exact absurd (fun e h => absurd (hslot.symm.trans h) (by simp)) hgoes
          | some e =>
              have hfails : test e = false := by
                by_contra htest
                refine hgoes fun e' h => ?_
                rw [hslot] at h
                exact Option.some.inj h ▸ Bool.eq_true_of_not_eq_false htest
              simp only [hfails, Bool.false_eq_true, if_false]
              rw [← Nat.add_assoc, Nat.add_right_comm] at hstop ⊢
              refine ih (Nat.lt_of_succ_lt_succ hd) hstop fun j hj => ?_
              have := hbefore (j + 1) (Nat.succ_lt_succ hj)
              rwa [← Nat.add_assoc, Nat.add_right_comm] at this

/-- The probe ends at the first slot that it does not go beyond. -/
theorem exists_probe {d : ℕ} (hd : d < n) (hstop : Stops table test (slot d)) :
    ∃ d0 ≤ d, probe table test slot n 0 = some (slot d0) ∧ Stops table test (slot d0) ∧
      ∀ j < d0, ¬Stops table test (slot j) := by
  classical
  have hex : ∃ d, Stops table test (slot d) := ⟨d, hstop⟩
  have hle : Nat.find hex ≤ d := Nat.find_min' hex hstop
  have hprobe := @probe_eq ε table test slot n 0 _ (hle.trans_lt hd)
    (by simpa using Nat.find_spec hex) fun j hj => by simpa using Nat.find_min hex hj
  rw [Nat.zero_add] at hprobe
  exact ⟨Nat.find hex, hle, hprobe, Nat.find_spec hex, fun j => Nat.find_min hex⟩

theorem not_stops (h : ¬Stops table test i) : table i ≠ none :=
  fun hnone => h fun e he => absurd (hnone.symm.trans he) (by simp)

/-! ## Tables -/

/-- No slot between the one that the hash value designates and the one of an entry is
empty. -/
def Placed (hash : ε → ℕ) (m : ℕ) (table : Table ε) : Prop :=
  ∀ i e, table i = some e →
    ∃ d < m, i = (hash e + d) % m ∧ ∀ j < d, table ((hash e + j) % m) ≠ none

/-- The number of slots that are in use. -/
def occupied (m : ℕ) (table : Table ε) : ℕ :=
  ((Finset.range m).filter fun i => (table i).isSome).card

theorem placed_empty : Placed hash m (empty : Table ε) :=
  fun _ _ h => absurd h (by simp [empty])

theorem occupied_empty : occupied m (empty : Table ε) = 0 := by
  simp [occupied, empty]

theorem Placed.lt (h : Placed hash m table) (hi : table i = some e) : i < m := by
  obtain ⟨d, hd, rfl, -⟩ := h i e hi
  exact Nat.mod_lt _ (Nat.zero_lt_of_lt hd)

/-- A probe finds an entry that passes the test, if there is one with this hash value. -/
theorem Placed.probe_mem (h : Placed hash m table) (hi : table i = some e)
    (htest : test e = true) :
    ∃ i' e', probe table test (fun p => (hash e + p) % m) m 0 = some i' ∧
      table i' = some e' ∧ test e' = true := by
  obtain ⟨d, hd, rfl, hbefore⟩ := h i e hi
  have hstop : Stops table test ((hash e + d) % m) := by
    intro e' he'
    rw [hi] at he'
    exact Option.some.inj he' ▸ htest
  obtain ⟨d0, hle, hprobe, hstop0, -⟩ :=
    @exists_probe ε table test (fun p => (hash e + p) % m) m d hd hstop
  cases hslot : table ((hash e + d0) % m) with
  | none =>
      rcases Nat.lt_or_eq_of_le hle with hlt | rfl
      · exact absurd hslot (hbefore d0 hlt)
      · exact absurd (hslot.symm.trans hi) (by simp)
  | some e' => exact ⟨_, e', hprobe, hslot, hstop0 e' hslot⟩

theorem exists_add_mod (h : ℕ) (hi : i < m) : ∃ d < m, i = (h + d) % m := by
  have hm : 0 < m := Nat.zero_lt_of_lt hi
  have hlt : h % m < m := Nat.mod_lt h hm
  refine ⟨(i + (m - h % m)) % m, Nat.mod_lt _ hm, ?_⟩
  have hsum : h % m + (i + (m - h % m)) = i + m := by omega
  rw [Nat.add_mod_mod, ← Nat.mod_add_mod, hsum, Nat.add_mod_right, Nat.mod_eq_of_lt hi]

/-- Where no entry passes the test a probe ends at an empty slot. -/
theorem probe_absent (habsent : ∀ i e, table i = some e → test e = false)
    (hempty : ∃ i < m, table i = none) (h : ℕ) :
    ∃ d < m, probe table test (fun p => (h + p) % m) m 0 = some ((h + d) % m) ∧
      table ((h + d) % m) = none ∧ ∀ j < d, table ((h + j) % m) ≠ none := by
  obtain ⟨i, hi, hnone⟩ := hempty
  obtain ⟨d, hd, heq⟩ := exists_add_mod h hi
  have hstop : Stops table test ((h + d) % m) := by
    intro e he
    rw [← heq, hnone] at he
    exact absurd he (by simp)
  obtain ⟨d0, hle, hprobe, hstop0, hbefore⟩ :=
    @exists_probe ε table test (fun p => (h + p) % m) m d hd hstop
  refine ⟨d0, hle.trans_lt hd, hprobe, ?_, fun j hj => not_stops (hbefore j hj)⟩
  cases hslot : table ((h + d0) % m) with
  | none => rfl
  | some e =>
      have htest := hstop0 e hslot
      rw [habsent _ e hslot] at htest
      exact absurd htest (by simp)

theorem Placed.update (h : Placed hash m table) {d : ℕ} (hd : d < m)
    (hbefore : ∀ j < d, table ((hash e + j) % m) ≠ none) :
    Placed hash m (Function.update table ((hash e + d) % m) (some e)) := by
  have hkept : ∀ i, table i ≠ none →
      Function.update table ((hash e + d) % m) (some e) i ≠ none := by
    intro i hi
    rw [Function.update_apply]
    split_ifs
    exacts [by simp, hi]
  intro i e' hi
  by_cases heq : i = (hash e + d) % m
  · subst heq
    rw [Function.update_self] at hi
    obtain rfl := Option.some.inj hi
    exact ⟨d, hd, rfl, fun j hj => hkept _ (hbefore j hj)⟩
  · rw [Function.update_of_ne heq] at hi
    obtain ⟨d', hd', hslot, hbefore'⟩ := h i e' hi
    exact ⟨d', hd', hslot, fun j hj => hkept _ (hbefore' j hj)⟩

/-- A table that is not full has an empty slot. -/
theorem exists_empty (h : occupied m table < m) : ∃ i < m, table i = none := by
  by_contra hnone
  push Not at hnone
  have hall : (Finset.range m).filter (fun i => (table i).isSome) = Finset.range m :=
    Finset.filter_true_of_mem fun i hi =>
      Option.isSome_iff_ne_none.mpr (hnone i (Finset.mem_range.mp hi))
  rw [occupied, hall, Finset.card_range] at h
  exact Nat.lt_irrefl m h

theorem occupied_update (hi : i < m) (hnone : table i = none) (e : ε) :
    occupied m (Function.update table i (some e)) = occupied m table + 1 := by
  have hinsert : ((Finset.range m).filter fun j => (Function.update table i (some e) j).isSome) =
      insert i ((Finset.range m).filter fun j => (table j).isSome) := by
    ext j
    by_cases hj : j = i
    · simp [hj, hi]
    · simp [hj]
  rw [occupied, hinsert, Finset.card_insert_of_notMem (by simp [hnone]), occupied]

theorem mem_update (hnone : table i = none) (e e' : ε) :
    (∃ j, Function.update table i (some e) j = some e') ↔ e' = e ∨ ∃ j, table j = some e' := by
  constructor
  · rintro ⟨j, hj⟩
    by_cases hji : j = i
    · subst hji
      rw [Function.update_self] at hj
      exact .inl (Option.some.inj hj).symm
    · rw [Function.update_of_ne hji] at hj
      exact .inr ⟨j, hj⟩
  · rintro (rfl | ⟨j, hj⟩)
    · exact ⟨i, Function.update_self ..⟩
    · have hji : j ≠ i := by
        rintro rfl
        exact absurd (hnone.symm.trans hj) (by simp)
      exact ⟨j, by rw [Function.update_of_ne hji, hj]⟩

/-! ## A table of another size -/

/-- The table has the entries of the first `k` slots of another one. -/
structure Rehashed (hash : ε → ℕ) (m : ℕ) (old : Table ε) (k : ℕ) (new : Table ε) : Prop where
  placed : Placed hash m new
  occupied : occupied m new = OpenAddressing.occupied k old
  mem : ∀ e, (∃ i, new i = some e) ↔ ∃ i < k, old i = some e

theorem occupied_mono (table : Table ε) {k : ℕ} (h : k ≤ m) : occupied k table ≤ occupied m table :=
  Finset.card_le_card (Finset.filter_subset_filter _ (Finset.range_mono h))

theorem occupied_succ (k : ℕ) (table : Table ε) :
    occupied (k + 1) table = occupied k table + if (table k).isSome then 1 else 0 := by
  rw [occupied, Finset.range_add_one, Finset.filter_insert]
  split_ifs with h
  · rw [Finset.card_insert_of_notMem (by simp), occupied]
  · rw [Nat.add_zero, occupied]

theorem Rehashed.none {new : Table ε} {k : ℕ} (h : Rehashed hash m old k new) (hk : old k = none) :
    Rehashed hash m old (k + 1) new := by
  refine ⟨h.placed, ?_, fun e => (h.mem e).trans ?_⟩
  · rw [occupied_succ, hk, h.occupied]
    rfl
  · refine ⟨fun ⟨i, hi, he⟩ => ⟨i, hi.trans (Nat.lt_succ_self k), he⟩, fun ⟨i, hi, he⟩ => ?_⟩
    refine ⟨i, lt_of_le_of_ne (Nat.le_of_lt_succ hi) ?_, he⟩
    rintro rfl
    exact absurd (hk.symm.trans he) (by simp)

theorem Rehashed.reinsert {new : Table ε} {k : ℕ} (h : Rehashed hash m old k new)
    (hk : old k = some e) (hroom : OpenAddressing.occupied k old < m) :
    Rehashed hash m old (k + 1)
      (reinsert (fun e p => (hash e + p) % m) m new e) := by
  have hfails : ∀ i e', new i = some e' → (fun _ : ε => false) e' = false := fun _ _ _ => rfl
  obtain ⟨d, hd, hprobe, hnone, hbefore⟩ :=
    probe_absent hfails (exists_empty (h.occupied ▸ hroom)) (hash e)
  rw [OpenAddressing.reinsert, hprobe]
  refine ⟨h.placed.update hd hbefore, ?_, fun e' => (mem_update hnone e e').trans ?_⟩
  · rw [occupied_update (Nat.mod_lt _ (Nat.zero_lt_of_lt hd)) hnone, occupied_succ, hk, h.occupied]
    rfl
  · rw [h.mem e']
    constructor
    · rintro (rfl | ⟨i, hi, he⟩)
      · exact ⟨k, Nat.lt_succ_self k, hk⟩
      · exact ⟨i, hi.trans (Nat.lt_succ_self k), he⟩
    · rintro ⟨i, hi, he⟩
      rcases Nat.lt_succ_iff_lt_or_eq.mp hi with hlt | rfl
      · exact .inr ⟨i, hlt, he⟩
      · exact .inl (Option.some.inj (he.symm.trans hk))

/-- **No entry is lost** when the entries are put in a table that has room for them. -/
theorem rehash_ok {size : ℕ} (hroom : occupied size old ≤ m) :
    Rehashed hash m old size (rehash (fun e p => (hash e + p) % m) m old size) := by
  have hloop : ∀ k ≤ size, Rehashed hash m old k
      ((List.range k).foldl (fun new i => (old i).elim new
        (reinsert (fun e p => (hash e + p) % m) m new)) empty) := by
    intro k hk
    induction k with
    | zero => exact ⟨placed_empty, occupied_empty, fun e => by simp [empty]⟩
    | succ k ih =>
        have h := ih (Nat.le_of_succ_le hk)
        rw [List.range_succ, List.foldl_append, List.foldl_cons, List.foldl_nil]
        cases hslot : old k with
        | none => exact h.none hslot
        | some e =>
            refine h.reinsert hslot ?_
            have hle := occupied_mono old hk
            rw [occupied_succ, hslot, Option.isSome_some, if_pos rfl] at hle
            omega
  exact hloop size le_rfl

end Lush.OpenAddressing
