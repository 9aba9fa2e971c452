import Mathlib

/-!
# Tables with a bounded number of probes

An entry of the table may be in the slot that its key hashes to or in one of the next
slots, `n` in all.  The first entry put in for a key stays (`findFrom_insertFrom`), and
an entry for which there is no slot left cannot be put in.  There is always a slot when
the hash function separates the keys (`insertAll_isSome`).
-/

namespace Lush.Probing

variable {κ υ : Type*}

abbrev Table (κ υ : Type*) := ℕ → Option (κ × υ)

/-- A table without entries. -/
def empty : Table κ υ := fun _ => none

section Operations

variable [DecidableEq κ]

/-- The value of a key, in the first of `n` slots that has one. -/
def findFrom (table : Table κ υ) (key : κ) : ℕ → ℕ → Option υ
  | 0, _ => none
  | n + 1, i =>
      match table i with
      | some (k, v) => if k = key then some v else findFrom table key n (i + 1)
      | none => findFrom table key n (i + 1)

/-- A value is put in the first of `n` slots that is empty, unless the key is met
before. -/
def insertFrom (table : Table κ υ) (key : κ) (value : υ) : ℕ → ℕ → Option (Table κ υ)
  | 0, _ => none
  | n + 1, i =>
      match table i with
      | none => some (Function.update table i (some (key, value)))
      | some (k, _) => if k = key then some table else insertFrom table key value n (i + 1)

/-- The values of a list are put in, one after the other. -/
def insertAll (hash : κ → ℕ) (n : ℕ) : List (κ × υ) → Table κ υ → Option (Table κ υ)
  | [], table => some table
  | (k, v) :: l, table => (insertFrom table k v n (hash k)).bind (insertAll hash n l)

end Operations

/-- All slots between the one that a key hashes to and the one where it is are in use. -/
def Placed (hash : κ → ℕ) (n : ℕ) (table : Table κ υ) : Prop :=
  ∀ i k v, table i = some (k, v) →
    hash k ≤ i ∧ i < hash k + n ∧ ∀ j, hash k ≤ j → j < i → table j ≠ none

variable {hash : κ → ℕ} {n : ℕ}

theorem placed_empty : Placed hash n (empty : Table κ υ) :=
  fun _ _ _ h => absurd h (by simp [empty])

variable [DecidableEq κ] {table table' : Table κ υ} {key key' : κ} {value : υ}

theorem findFrom_empty (i : ℕ) : findFrom (empty : Table κ υ) key n i = none := by
  induction n generalizing i with
  | zero => rfl
  | succ n ih =>
      rw [findFrom]
      exact ih (i + 1)

/-- Only the slots that hold the key matter. -/
theorem findFrom_eq_none_iff (i : ℕ) :
    findFrom table key n i = none ↔ ∀ j, i ≤ j → j < i + n → ∀ v, table j ≠ some (key, v) := by
  induction n generalizing i with
  | zero => exact iff_of_true rfl fun j h1 h2 => absurd h2 (by omega)
  | succ n ih =>
      have hsplit : (∀ j, i ≤ j → j < i + (n + 1) → ∀ v, table j ≠ some (key, v)) ↔
          (∀ v, table i ≠ some (key, v)) ∧
            ∀ j, i + 1 ≤ j → j < i + 1 + n → ∀ v, table j ≠ some (key, v) := by
        refine ⟨fun h => ⟨h i le_rfl (by omega), fun j h1 h2 => h j (by omega) (by omega)⟩, ?_⟩
        rintro ⟨h0, h⟩ j h1 h2
        rcases Nat.eq_or_lt_of_le h1 with rfl | hlt
        exacts [h0, h j hlt (by omega)]
      rw [hsplit, findFrom, ← ih (i + 1)]
      cases hi : table i with
      | none => simp
      | some e =>
          obtain ⟨k, v⟩ := e
          by_cases hk : k = key
          · simp [hk]
          · simp [hk]

/-- The slot that a value is put in, if there is one. -/
theorem insertFrom_cases {i : ℕ} (h : insertFrom table key value n i = some table') :
    (table' = table ∧ findFrom table key n i ≠ none) ∨
      ∃ j, i ≤ j ∧ j < i + n ∧ table j = none ∧
        (∀ l, i ≤ l → l < j → table l ≠ none ∧ ∀ v, table l ≠ some (key, v)) ∧
        table' = Function.update table j (some (key, value)) := by
  induction n generalizing i with
  | zero => exact absurd h (by simp [insertFrom])
  | succ n ih =>
      rw [insertFrom] at h
      rw [findFrom]
      cases hi : table i with
      | none =>
          rw [hi] at h
          refine .inr ⟨i, le_rfl, by omega, hi, fun l h1 h2 => absurd h2 (by omega), ?_⟩
          exact (Option.some.inj h).symm
      | some e =>
          obtain ⟨k, v⟩ := e
          simp only [hi] at h ⊢
          by_cases hk : k = key
          · rw [if_pos hk] at h ⊢
            exact .inl ⟨(Option.some.inj h).symm, by simp⟩
          · rw [if_neg hk] at h ⊢
            rcases ih h with hsame | ⟨j, h1, h2, hj, hbefore, hnew⟩
            · exact .inl hsame
            · refine .inr ⟨j, by omega, by omega, hj, fun l hl1 hl2 => ?_, hnew⟩
              rcases Nat.eq_or_lt_of_le hl1 with rfl | hlt
              · simp [hi, hk]
              · exact hbefore l hlt hl2

/-- A slot that held nothing and now holds another key changes nothing. -/
theorem findFrom_update_of_ne {j : ℕ} (hj : table j = none) (hne : key' ≠ key) (i : ℕ) :
    findFrom (Function.update table j (some (key', value))) key n i = findFrom table key n i := by
  induction n generalizing i with
  | zero => rfl
  | succ n ih =>
      rw [findFrom, findFrom, ih]
      by_cases hij : i = j
      · subst hij
        simp [hj, hne]
      · rw [Function.update_of_ne hij]

/-- The key is found in a slot when it is not in one before. -/
theorem findFrom_of_slot {i j : ℕ} (h1 : i ≤ j) (h2 : j < i + n)
    (hj : table j = some (key, value)) (hbefore : ∀ l, i ≤ l → l < j → ∀ v, table l ≠ some (key, v)) :
    findFrom table key n i = some value := by
  induction n generalizing i with
  | zero => omega
  | succ n ih =>
      rw [findFrom]
      rcases Nat.eq_or_lt_of_le h1 with rfl | hlt
      · simp [hj]
      · have hrest := ih hlt (by omega) fun l hl1 hl2 => hbefore l (by omega) hl2
        cases hi : table i with
        | none => exact hrest
        | some e =>
            obtain ⟨k, v⟩ := e
            have hk : k ≠ key := fun heq => hbefore i le_rfl hlt v (by rw [hi, heq])
            simp only [if_neg hk]
            exact hrest

/-- **The first value of a key stays.** -/
theorem findFrom_insertFrom (hplaced : Placed hash n table)
    (h : insertFrom table key value n (hash key) = some table') (key' : κ) :
    findFrom table' key' n (hash key') =
      (findFrom table key' n (hash key')).or (if key' = key then some value else none) := by
  rcases insertFrom_cases h with ⟨rfl, hfound⟩ | ⟨j, h1, h2, hj, hbefore, rfl⟩
  · split_ifs with hkey
    · subst hkey
      obtain ⟨v, hv⟩ := Option.ne_none_iff_exists'.mp hfound
      rw [hv]
      rfl
    · rw [Option.or_none]
  · split_ifs with hkey
    · subst hkey
      have hnone : findFrom table key' n (hash key') = none := by
        rw [findFrom_eq_none_iff]
        intro l hl1 hl2 v hl
        rcases lt_or_ge l j with hlt | hge
        · exact (hbefore l hl1 hlt).2 v hl
        · have hne : l ≠ j := fun heq => absurd (hl.symm.trans (heq ▸ hj)) (by simp)
          exact (hplaced l key' v hl).2.2 j h1 (by omega) hj
      rw [hnone, Option.none_or]
      refine findFrom_of_slot h1 h2 (Function.update_self ..) fun l hl1 hl2 v => ?_
      rw [Function.update_of_ne (by omega)]
      exact (hbefore l hl1 hl2).2 v
    · rw [Option.or_none]
      exact findFrom_update_of_ne hj (Ne.symm hkey) _

theorem insertAll_append (l l' : List (κ × υ)) (table : Table κ υ) :
    insertAll hash n (l ++ l') table = (insertAll hash n l table).bind (insertAll hash n l') := by
  induction l generalizing table with
  | nil => rfl
  | cons e l ih =>
      rw [List.cons_append, insertAll, insertAll, Option.bind_assoc]
      exact congrArg _ (funext ih)

theorem Placed.insertFrom (hplaced : Placed hash n table)
    (h : insertFrom table key value n (hash key) = some table') : Placed hash n table' := by
  rcases insertFrom_cases h with ⟨rfl, -⟩ | ⟨j, h1, h2, hj, hbefore, rfl⟩
  · exact hplaced
  · have hkept : ∀ l, table l ≠ none →
        Function.update table j (some (key, value)) l ≠ none := by
      intro l hl
      by_cases hlj : l = j
      · rw [hlj, Function.update_self]
        exact Option.some_ne_none _
      · rwa [Function.update_of_ne hlj]
    intro i k v hi
    by_cases hij : i = j
    · rw [hij, Function.update_self, Option.some.injEq, Prod.mk.injEq] at hi
      obtain ⟨rfl, -⟩ := hi
      rw [hij]
      exact ⟨h1, h2, fun l hl1 hl2 => hkept l (hbefore l hl1 hl2).1⟩
    · rw [Function.update_of_ne hij] at hi
      obtain ⟨hle, hlt, hused⟩ := hplaced i k v hi
      exact ⟨hle, hlt, fun l hl1 hl2 => hkept l (hused l hl1 hl2)⟩

/-- **The table of a list has the first value of every key.** -/
theorem findFrom_insertAll {l : List (κ × υ)} (hplaced : Placed hash n table)
    (h : insertAll hash n l table = some table') (key : κ) :
    findFrom table' key n (hash key) = (findFrom table key n (hash key)).or (l.lookup key) := by
  induction l generalizing table with
  | nil =>
      cases h
      rw [List.lookup_nil, Option.or_none]
  | cons e l ih =>
      obtain ⟨k, v⟩ := e
      rw [insertAll, Option.bind_eq_some_iff] at h
      obtain ⟨table1, h1, h2⟩ := h
      rw [ih (hplaced.insertFrom h1) h2, findFrom_insertFrom hplaced h1, Option.or_assoc,
        List.lookup_cons]
      congr 1
      by_cases hk : key = k
      · simp [hk]
      · have hb : (key == k) = false := beq_eq_false_iff_ne.mpr hk
        simp [hk, hb]

/-- **Keys that the hash function separates all find a slot.** -/
theorem insertAll_isSome {l : List (κ × υ)} (hn : 0 < n)
    (hdirect : ∀ i k v, table i = some (k, v) → i = hash k ∧ ∀ e ∈ l, hash e.1 = hash k → e.1 = k)
    (hsep : ∀ e ∈ l, ∀ e' ∈ l, hash e.1 = hash e'.1 → e.1 = e'.1) :
    ∃ table', insertAll hash n l table = some table' := by
  obtain ⟨n, rfl⟩ := Nat.exists_eq_add_one_of_ne_zero hn.ne'
  induction l generalizing table with
  | nil => exact ⟨table, rfl⟩
  | cons e l ih =>
      obtain ⟨k, v⟩ := e
      have hrest : ∀ e ∈ l, ∀ e' ∈ l, hash e.1 = hash e'.1 → e.1 = e'.1 := fun e he e' he' =>
        hsep e (List.mem_cons_of_mem _ he) e' (List.mem_cons_of_mem _ he')
      rw [insertAll, Probing.insertFrom]
      cases hk : table (hash k) with
      | none =>
          refine ih (fun i k' v' hi => ?_) hrest
          by_cases hik : i = hash k
          · rw [hik, Function.update_self, Option.some.injEq, Prod.mk.injEq] at hi
            obtain ⟨rfl, -⟩ := hi
            refine ⟨hik, fun e he heq => ?_⟩
            exact hsep e (List.mem_cons_of_mem _ he) (k, v) List.mem_cons_self heq
          · rw [Function.update_of_ne hik] at hi
            obtain ⟨hdir, hall⟩ := hdirect i k' v' hi
            exact ⟨hdir, fun e he => hall e (List.mem_cons_of_mem _ he)⟩
      | some e =>
          obtain ⟨k', v'⟩ := e
          obtain ⟨hdir, hall⟩ := hdirect _ k' v' hk
          have heq : k = k' := hall (k, v) List.mem_cons_self hdir
          simp only [if_pos heq.symm]
          refine ih (fun i k' v' hi => ?_) hrest
          obtain ⟨hdir, hall⟩ := hdirect i k' v' hi
          exact ⟨hdir, fun e he => hall e (List.mem_cons_of_mem _ he)⟩

end Lush.Probing
