import Lush.Datatable.StringColumn
import Lush.Library.Runs

/-!
# A vector of strings

A string column stands for the list of the strings of its rows.  `append` makes an index
invalid, but `build-from-codes` does not, and then `where-eq` goes on with the index of
the rows that were there before (`stale_index`).  As long as no column is built again
while it has a valid index, it is a faithful vector of strings
(`stringColumn_faithful`).
-/

namespace Lush.Datatable.StringColumn

open CompressedRows Runs

variable {σ : Type} {sc sc' : StringColumn σ} {strings rows : List σ}

/-! ## The pool -/

/-- The pool is in memory. -/
structure Loaded [DecidableEq σ] (sc : StringColumn σ) (strings : List σ) : Prop where
  codeToStr : sc.codeToStr = strings
  poolSize : sc.poolSize = strings.length
  strToCode : ∀ (s : σ) (c : ℕ), sc.strToCode s = some c ↔ strings[c]? = some s
  poolFname : strings = [] → sc.poolFname = none

/-- The pool is in a file. -/
def Deferred (sc : StringColumn σ) (strings : List σ) : Prop :=
  sc.codeToStr = [] ∧ sc.poolFname = some strings ∧ strings ≠ []

variable [DecidableEq σ]

theorem Loaded.not_deferred (h : Loaded sc strings) {pool : List σ} : ¬Deferred sc pool := by
  rintro ⟨hnil, hname, -⟩
  have hstrings : strings = [] := h.codeToStr.symm.trans hnil
  exact absurd (hname.symm.trans (h.poolFname hstrings)) (by simp)

theorem Loaded.loadPool (h : Loaded sc strings) : sc.loadPool = sc := by
  rw [StringColumn.loadPool.eq_def]
  cases hstr : sc.codeToStr with
  | cons s l => rfl
  | nil =>
      have hname := h.poolFname (h.codeToStr.symm.trans hstr)
      rw [hname]

/-- Strings that come once have the code of their place. -/
theorem register_eq (hnodup : strings.Nodup) (idx : ℕ) (table : σ → Option ℕ) (s : σ) :
    register strings idx table s =
      if s ∈ strings then some (idx + strings.idxOf s) else table s := by
  induction strings generalizing idx table with
  | nil => rfl
  | cons r strings ih =>
      obtain ⟨hr, hrest⟩ := List.nodup_cons.mp hnodup
      rw [register, ih hrest]
      by_cases hs : s = r
      · subst hs
        simp [hr]
      · rw [Function.update_of_ne hs, List.idxOf_cons_ne _ (Ne.symm hs)]
        simp only [List.mem_cons, hs, false_or]
        split_ifs
        · rw [Nat.succ_eq_add_one, Nat.add_right_comm, ← Nat.add_assoc]
        · rfl

theorem register_eq_some_iff (hnodup : strings.Nodup) (s : σ) (c : ℕ) :
    register strings 0 (fun _ => none) s = some c ↔ strings[c]? = some s := by
  rw [register_eq hnodup, Nat.zero_add]
  refine ⟨fun h => ?_, fun h => ?_⟩
  · split_ifs at h with hs
    cases h
    rw [List.getElem?_eq_getElem (List.idxOf_lt_length_of_mem hs), List.getElem_idxOf]
  · obtain ⟨hc, rfl⟩ := List.getElem?_eq_some_iff.mp h
    rw [if_pos (List.getElem_mem hc), hnodup.idxOf_getElem]

theorem Deferred.loadPool (h : Deferred sc strings) (hnodup : strings.Nodup) :
    Loaded sc.loadPool strings ∧ sc.loadPool = { sc with
      codeToStr := strings
      strToCode := register strings 0 fun _ => none
      poolSize := strings.length } := by
  obtain ⟨hnil, hname, hne⟩ := h
  have heq : sc.loadPool = { sc with
      codeToStr := strings
      strToCode := register strings 0 fun _ => none
      poolSize := strings.length } := by
    rw [StringColumn.loadPool.eq_def, hnil, hname]
  rw [heq]
  exact ⟨⟨rfl, rfl, register_eq_some_iff hnodup, fun hnil => absurd hnil hne⟩, rfl⟩

/-! ## The rows -/

/-- The column stands for these rows. -/
structure Holds (sc : StringColumn σ) (strings rows : List σ) : Prop where
  numRows : sc.numRows = rows.length
  capacity : sc.codes.length = sc.capacity
  pos : 0 < sc.capacity
  le : sc.numRows ≤ sc.capacity
  nodup : strings.Nodup
  pool : Loaded sc strings ∨ Deferred sc strings
  codes : ∀ (i : ℕ) (r : σ), rows[i]? = some r → ∃ c, sc.codes[i]? = some c ∧ strings[c]? = some r
  index : sc.hasIndex = true → Loaded sc strings ∧
    ∀ c < strings.length, sc.indexLookup c = .ok (rowsOf sc.codes c sc.numRows)

/-- The rows that hold a string, in ascending order. -/
def rowsWith (rows : List σ) (s : σ) : List ℕ :=
  (List.range rows.length).filter fun i => rows[i]? = some s

theorem Holds.loadPool (h : Holds sc strings rows) :
    Holds sc.loadPool strings rows ∧ Loaded sc.loadPool strings := by
  rcases h.pool with hloaded | hdeferred
  · rw [hloaded.loadPool]
    exact ⟨h, hloaded⟩
  · obtain ⟨hloaded, heq⟩ := hdeferred.loadPool h.nodup
    refine ⟨⟨?_, ?_, ?_, ?_, h.nodup, .inl hloaded, ?_, fun hindex => ?_⟩, hloaded⟩
    all_goals rw [heq]
    exacts [h.numRows, h.capacity, h.pos, h.le, h.codes,
      absurd hdeferred ((h.index (by rw [heq] at hindex; exact hindex)).1.not_deferred)]

/-- Every row has a code of the pool. -/
theorem Holds.code_lt (h : Holds sc strings rows) {i : ℕ} (hi : i < sc.numRows) :
    ∃ c < strings.length, sc.codes[i]? = some c := by
  have hlen : i < rows.length := h.numRows ▸ hi
  have hrow : rows[i]? = some rows[i] := List.getElem?_eq_getElem hlen
  obtain ⟨c, hc, hstr⟩ := h.codes i _ hrow
  exact ⟨c, (List.getElem?_eq_some_iff.mp hstr).1, hc⟩

/-- A row has the code of a string if and only if it holds the string. -/
theorem Holds.rowsOf_eq (h : Holds sc strings rows) {s : σ} {c : ℕ} (hc : strings[c]? = some s) :
    rowsOf sc.codes c sc.numRows = rowsWith rows s := by
  rw [rowsOf, rowsWith, h.numRows]
  refine List.filter_congr fun i hi => ?_
  have hlt : i < rows.length := List.mem_range.mp hi
  obtain ⟨b, hb, hstr⟩ := h.codes i _ (List.getElem?_eq_getElem hlt)
  rw [hb, List.getElem?_eq_getElem hlt]
  refine decide_eq_decide.mpr ⟨fun heq => ?_, fun heq => ?_⟩
  · rw [Option.some.inj heq] at hstr
    exact hstr.symm.trans hc
  · rw [heq] at hstr
    obtain ⟨hb', hbs⟩ := List.getElem?_eq_some_iff.mp hstr
    obtain ⟨hc', hcs⟩ := List.getElem?_eq_some_iff.mp hc
    exact congrArg some ((h.nodup.getElem_inj_iff).mp (hbs.trans hcs.symm))

/-- A string that is not in the pool is not in a row. -/
theorem Holds.rowsWith_eq_nil (h : Holds sc strings rows) {s : σ} (hs : s ∉ strings) :
    rowsWith rows s = [] := by
  rw [rowsWith, List.filter_eq_nil_iff]
  intro i _ hrow
  obtain ⟨c, -, hstr⟩ := h.codes i s (by simpa using hrow)
  exact hs (List.mem_of_getElem? hstr)

/-! ## Lookups -/

omit [DecidableEq σ] in
theorem scan_ok {target : ℕ} (h : ∀ i < sc.numRows, ∃ c, sc.codes[i]? = some c) :
    sc.scan target = .ok (rowsOf sc.codes target sc.numRows) := by
  rw [scan]
  generalize sc.numRows = n at h
  induction n with
  | zero => rfl
  | succ n ih =>
      obtain ⟨c, hc⟩ := h n (Nat.lt_succ_self n)
      rw [List.range_succ, List.foldlM_append, ih fun i hi => h i (hi.trans (Nat.lt_succ_self n)),
        rowsOf_succ]
      simp only [Bind.bind, Except.bind, List.foldlM_cons, List.foldlM_nil, hc, checked]
      by_cases hct : c = target
      · simp [hct, Pure.pure, Except.pure]
      · have hne : ¬(some c = some target) := fun heq => hct (Option.some.inj heq)
        simp [hct, Pure.pure, Except.pure]

theorem Holds.whereEq (h : Holds sc strings rows) (s : σ) :
    sc.whereEq s = .ok (sc.loadPool, rowsWith rows s) := by
  obtain ⟨hholds, hloaded⟩ := h.loadPool
  rw [StringColumn.whereEq]
  cases hcode : sc.loadPool.strToCode s with
  | none =>
      have hs : s ∉ strings := by
        intro hmem
        obtain ⟨c, hc⟩ := List.getElem?_of_mem hmem
        exact absurd (hcode.symm.trans ((hloaded.strToCode s c).mpr hc)) (by simp)
      simp only
      rw [hholds.rowsWith_eq_nil hs]
  | some target =>
      have htarget := (hloaded.strToCode s target).mp hcode
      have hlt := (List.getElem?_eq_some_iff.mp htarget).1
      have hrows : (if sc.loadPool.hasIndex = true then sc.loadPool.indexLookup target
          else sc.loadPool.scan target) = .ok (rowsWith rows s) := by
        rw [← hholds.rowsOf_eq htarget]
        split_ifs with hindex
        · exact (hholds.index hindex).2 target hlt
        · exact scan_ok fun i hi => (hholds.code_lt hi).imp fun c hc => hc.2
      simp only [hrows]
      rfl

theorem Holds.get (h : Holds sc strings rows) (i : ℤ) :
    ∃ sc', sc.get i = .ok (sc', if 0 ≤ i then rows[i.toNat]? else none) ∧
      (sc' = sc ∨ sc' = sc.loadPool) := by
  obtain ⟨hholds, hloaded⟩ := h.loadPool
  rw [StringColumn.get]
  by_cases hi : 0 ≤ i ∧ i < sc.numRows
  · have hlt : i.toNat < rows.length := by
      have := h.numRows
      omega
    obtain ⟨c, hc, hstr⟩ := hholds.codes i.toNat _ (List.getElem?_eq_getElem hlt)
    refine ⟨sc.loadPool, ?_, .inr rfl⟩
    rw [if_pos hi, if_pos hi.1]
    simp only [hc, checked, Bind.bind, Except.bind]
    rw [hloaded.codeToStr, hstr, List.getElem?_eq_getElem hlt]
  · refine ⟨sc, ?_, .inl rfl⟩
    rw [if_neg hi]
    split_ifs with h0
    · have hge : rows.length ≤ i.toNat := by
        have := h.numRows
        omega
      rw [List.getElem?_eq_none hge]
    · rfl

/-! ## Changes -/

/-- A string that is put in the pool has a code, and the others keep theirs. -/
theorem Loaded.internString (h : Loaded sc strings) (hnodup : strings.Nodup) (s : σ) :
    ∃ strings', Loaded (sc.internString s).1 strings' ∧ strings'.Nodup ∧
      strings'[(sc.internString s).2]? = some s ∧
      (∀ (c : ℕ) (r : σ), strings[c]? = some r → strings'[c]? = some r) ∧
      (sc.internString s).1 = { sc with
        strToCode := (sc.internString s).1.strToCode
        codeToStr := (sc.internString s).1.codeToStr
        poolSize := (sc.internString s).1.poolSize } := by
  rw [StringColumn.internString]
  cases hcode : sc.strToCode s with
  | some code => exact ⟨strings, h, hnodup, (h.strToCode s code).mp hcode, fun _ _ => id, rfl⟩
  | none =>
      have hs : s ∉ strings := by
        intro hmem
        obtain ⟨c, hc⟩ := List.getElem?_of_mem hmem
        exact absurd (hcode.symm.trans ((h.strToCode s c).mpr hc)) (by simp)
      refine ⟨strings ++ [s], ⟨?_, ?_, fun r c => ?_, by simp⟩, ?_, ?_, fun c r hc => ?_, rfl⟩
      · exact congrArg (· ++ [s]) h.codeToStr
      · simp [h.poolSize]
      · simp only
        by_cases hr : r = s
        · subst hr
          rw [Function.update_self, h.poolSize]
          refine ⟨fun heq => ?_, fun heq => ?_⟩
          · cases heq
            simp
          · obtain ⟨hlt, hget⟩ := List.getElem?_eq_some_iff.mp heq
            rw [List.length_append, List.length_singleton] at hlt
            rcases Nat.lt_succ_iff_lt_or_eq.mp hlt with hold | rfl
            · rw [List.getElem_append_left hold] at hget
              exact absurd (hget ▸ List.getElem_mem hold) hs
            · rfl
        · rw [Function.update_of_ne hr, h.strToCode, List.getElem?_append]
          split_ifs with hlt
          · rfl
          · have hnone : strings[c]? = none := List.getElem?_eq_none (not_lt.mp hlt)
            rw [hnone]
            refine iff_of_false (by simp) fun heq => ?_
            have := List.mem_of_getElem? heq
            exact hr (List.mem_singleton.mp this)
      · exact List.nodup_append.mpr ⟨hnodup, List.nodup_singleton s, fun a ha b hb heq =>
          hs (List.mem_singleton.mp hb ▸ heq ▸ ha)⟩
      · simp [h.poolSize]
      · rw [List.getElem?_append_left (List.getElem?_eq_some_iff.mp hc).1]
        exact hc

omit [DecidableEq σ] in
/-- The rows keep their codes when the column grows. -/
theorem grow_ok (hcap : sc.codes.length = sc.capacity) (hpos : 0 < sc.capacity)
    (hle : sc.numRows ≤ sc.capacity) :
    ∃ codes, sc.grow = .ok { sc with codes := codes, capacity := codes.length } ∧
      sc.numRows < codes.length ∧ ∀ i < sc.numRows, codes[i]? = sc.codes[i]? := by
  rw [grow]
  by_cases hfull : sc.capacity ≤ sc.numRows
  · have hne : ¬2 * sc.capacity = 0 := by omega
    have hroom : sc.numRows ≤ (List.replicate (2 * sc.capacity) 0).length := by
      rw [List.length_replicate]
      omega
    obtain ⟨codes, hcopy, hlen, heq⟩ := copy_ok (hle.trans hcap.ge) hroom
    rw [List.length_replicate] at hlen
    refine ⟨codes, ?_, by omega, heq⟩
    rw [if_pos hfull, intMatrix, if_neg hne]
    simp only [Bind.bind, Except.bind, hcopy, checked, hlen]
  · refine ⟨sc.codes, ?_, by omega, fun _ _ => rfl⟩
    rw [if_neg hfull, hcap]

theorem Holds.append (h : Holds sc strings rows) (s : σ) :
    ∃ sc' strings', sc.append s = .ok sc' ∧ Holds sc' strings' (rows ++ [s]) := by
  obtain ⟨hholds, hloaded⟩ := h.loadPool
  obtain ⟨strings', hloaded', hnodup', hcode, hkept, hsame⟩ :=
    hloaded.internString h.nodup s
  set r := sc.loadPool.internString s with hr
  have hcodes : r.1.codes = sc.loadPool.codes := by rw [hsame]
  have hcapacity : r.1.capacity = sc.loadPool.capacity := by rw [hsame]
  have hnum : r.1.numRows = rows.length := by rw [hsame]; exact hholds.numRows
  have hcap : r.1.codes.length = r.1.capacity := by
    rw [hcodes, hcapacity]
    exact hholds.capacity
  have hle : r.1.numRows ≤ r.1.capacity := by
    rw [hnum, hcapacity, ← hholds.numRows]
    exact hholds.le
  obtain ⟨codes, hgrow, hroom, hold⟩ := grow_ok hcap (hcapacity ▸ hholds.pos) hle
  rw [hnum, hcodes] at hold
  rw [hnum] at hroom
  refine ⟨{ r.1 with
    codes := codes.set rows.length r.2
    capacity := codes.length
    numRows := rows.length + 1
    idxValid := false }, strings', ?_, ?_⟩
  · rw [StringColumn.append]
    simp only [← hr, hgrow, Bind.bind, Except.bind, hnum, store_eq hroom, checked]
  · refine ⟨by simp, by simp, ?_, hroom, hnodup', .inl ⟨hloaded'.codeToStr, hloaded'.poolSize,
      hloaded'.strToCode, hloaded'.poolFname⟩, fun i b hi => ?_, fun hindex => ?_⟩
    · exact Nat.zero_lt_of_lt hroom
    · simp only [List.getElem?_set]
      rcases Nat.lt_or_ge i rows.length with hlt | hge
      · rw [List.getElem?_append_left hlt] at hi
        obtain ⟨c, hc, hstr⟩ := hholds.codes i b hi
        refine ⟨c, ?_, hkept c b hstr⟩
        rw [if_neg (by omega), hold i hlt, hc]
      · rw [List.getElem?_append_right hge] at hi
        obtain ⟨hlt, hb⟩ := List.getElem?_eq_some_iff.mp hi
        have hi0 : rows.length = i := by simp at hlt; omega
        subst hi0
        refine ⟨r.2, by simp [hroom], ?_⟩
        rw [hcode, ← hb]
        simp
    · simp [hasIndex] at hindex

theorem Holds.buildIndex (h : Holds sc strings rows) :
    ∃ sc', sc.buildIndex = .ok sc' ∧ Holds sc' strings rows := by
  obtain ⟨hholds, hloaded⟩ := h.loadPool
  rw [StringColumn.buildIndex]
  simp only
  set sl := sc.loadPool
  by_cases hpos : 0 < sl.numRows
  · rw [if_pos hpos]
    have hcodes : ∀ i < sl.numRows, ∃ c < sl.poolSize, sl.codes[i]? = some c := by
      rw [hloaded.poolSize]
      exact fun i hi => hholds.code_lt hi
    have hpool : 0 < sl.poolSize := by
      obtain ⟨c, hc, -⟩ := hcodes 0 hpos
      omega
    obtain ⟨counts, offsets0, offsets, pos, s, htally, hstore, hstarts, hcopy, hscatter, hslices⟩ :=
      index_ok hcodes
    refine ⟨{ sl with idxOffsets := some offsets, idxRows := some s.2, idxValid := true }, ?_, ?_⟩
    · have hn : ¬sl.numRows = 0 := hpos.ne'
      have hp : ¬sl.poolSize = 0 := hpool.ne'
      simp only [intMatrix, Nat.succ_ne_zero, hn, hp, if_false, Bind.bind, Except.bind, htally,
        checked, hstore, hstarts, hcopy, hscatter]
    · have hloaded' : Loaded { sl with
          idxOffsets := some offsets, idxRows := some s.2, idxValid := true } strings :=
        ⟨hloaded.codeToStr, hloaded.poolSize, hloaded.strToCode, hloaded.poolFname⟩
      refine ⟨hholds.numRows, hholds.capacity, hholds.pos, hholds.le, hholds.nodup, .inl hloaded',
        hholds.codes, fun _ => ⟨hloaded', fun c hc => ?_⟩⟩
      rw [← hloaded.poolSize] at hc
      obtain ⟨a, b, ha, hb, hslice⟩ := hslices c hc
      simp only [indexLookup, ha, hb, checked, Bind.bind, Except.bind, hslice]
  · rw [if_neg hpos]
    exact ⟨sl, rfl, hholds⟩

theorem holds_new (initCap : ℕ) : Holds (new initCap : StringColumn σ) [] [] where
  numRows := rfl
  capacity := List.length_replicate
  pos := lt_of_lt_of_le (by decide) (le_max_left 64 initCap)
  le := Nat.zero_le _
  nodup := List.nodup_nil
  pool := .inl ⟨rfl, rfl, fun _ _ => iff_of_false (by simp [new]) (by simp), fun _ => rfl⟩
  codes _ _ h := absurd h (by simp)
  index h := absurd h (by simp [new, hasIndex])

/-! ## Runs -/

/-- What a column is built from: codes, at least one, and strings that are all
different. -/
structure Bulk (σ : Type) where
  codes : List ℕ
  strings : List σ
  nonempty : codes ≠ []
  inRange : ∀ c ∈ codes, c < strings.length
  distinct : strings.Nodup

/-- The strings of the rows. -/
def Bulk.contents (b : Bulk σ) : List σ :=
  b.codes.pmap (fun c hc => b.strings.get ⟨c, hc⟩) b.inRange

omit [DecidableEq σ] in
theorem Bulk.row (b : Bulk σ) (i : ℕ) (r : σ) (h : b.contents[i]? = some r) :
    ∃ c, b.codes[i]? = some c ∧ b.strings[c]? = some r := by
  obtain ⟨hi, hr⟩ := List.getElem?_eq_some_iff.mp h
  have hlt : i < b.codes.length := by simpa [Bulk.contents] using hi
  refine ⟨b.codes[i], List.getElem?_eq_getElem hlt, ?_⟩
  rw [List.getElem?_eq_getElem (b.inRange _ (List.getElem_mem hlt)), ← hr]
  simp [Bulk.contents]

theorem Holds.build (h : hasIndex sc = false) (b : Bulk σ)
    (hpool : Loaded sc b.strings ∨ Deferred sc b.strings) (hcodes : sc.codes = b.codes)
    (hrows : sc.numRows = b.codes.length) (hcap : sc.capacity = b.codes.length) :
    Holds sc b.strings b.contents where
  numRows := by simp [hrows, Bulk.contents]
  capacity := by rw [hcodes, hcap]
  pos := by
    rw [hcap]
    exact List.length_pos_of_ne_nil b.nonempty
  le := by rw [hrows, hcap]
  nodup := b.distinct
  pool := hpool
  codes := by
    rw [hcodes]
    exact b.row
  index hindex := absurd hindex (by simp [h])

inductive Operation (σ : Type)
  | append (s : σ)
  | buildFromCodes (b : Bulk σ)
  | buildFromCodesLazy (b : Bulk σ)
  | buildIndex
  | dropIndex
  | get (i : ℤ)
  | whereEq (s : σ)

/-- The effect of an operation on a column. -/
def perform (sc : StringColumn σ) : Operation σ → Except Fault (StringColumn σ)
  | .append s => sc.append s
  | .buildFromCodes b => .ok (sc.buildFromCodes b.codes b.strings)
  | .buildFromCodesLazy b => .ok (sc.buildFromCodesLazy b.codes b.strings)
  | .buildIndex => sc.buildIndex
  | .dropIndex => .ok sc.dropIndex
  | .get i => Prod.fst <$> sc.get i
  | .whereEq s => Prod.fst <$> sc.whereEq s

def step (sc : StringColumn σ) (operation : Operation σ) : Option (StringColumn σ) :=
  (perform sc operation).toOption

/-- What an operation does to the sequence that a column represents. -/
def follow (rows : List σ) : Operation σ → List σ
  | .append s => rows ++ [s]
  | .buildFromCodes b => b.contents
  | .buildFromCodesLazy b => b.contents
  | _ => rows

/-- A column is not built again while it has a valid index. -/
def Fresh (sc : StringColumn σ) : Operation σ → Prop
  | .buildFromCodes _ => sc.hasIndex = false
  | .buildFromCodesLazy _ => sc.hasIndex = false
  | _ => True

/-- **What every operation keeps.** -/
theorem Holds.perform (h : Holds sc strings rows) {operation : Operation σ}
    (hfresh : Fresh sc operation) :
    ∃ sc' strings', perform sc operation = .ok sc' ∧ Holds sc' strings' (follow rows operation) := by
  cases operation with
  | append s => exact h.append s
  | buildFromCodes b =>
      have hne : b.strings ≠ [] := by
        intro hnil
        obtain ⟨c, hc⟩ := List.exists_mem_of_ne_nil _ b.nonempty
        exact absurd (b.inRange c hc) (by simp [hnil])
      have hindex : (sc.buildFromCodes b.codes b.strings).hasIndex = false := hfresh
      refine ⟨_, b.strings, rfl, Holds.build hindex b (.inl ?_) rfl rfl rfl⟩
      exact ⟨rfl, rfl, register_eq_some_iff b.distinct, fun hnil => absurd hnil hne⟩
  | buildFromCodesLazy b =>
      have hne : b.strings ≠ [] := by
        intro hnil
        obtain ⟨c, hc⟩ := List.exists_mem_of_ne_nil _ b.nonempty
        exact absurd (b.inRange c hc) (by simp [hnil])
      have hindex : (sc.buildFromCodesLazy b.codes b.strings).hasIndex = false := hfresh
      exact ⟨_, b.strings, rfl, Holds.build hindex b (.inr ⟨rfl, rfl, hne⟩) rfl rfl rfl⟩
  | buildIndex =>
      obtain ⟨sc', hrun, h'⟩ := h.buildIndex
      exact ⟨sc', strings, hrun, h'⟩
  | dropIndex =>
      have hpool : Loaded sc.dropIndex strings ∨ Deferred sc.dropIndex strings :=
        h.pool.imp (fun hl => ⟨hl.codeToStr, hl.poolSize, hl.strToCode, hl.poolFname⟩) id
      exact ⟨_, strings, rfl, h.numRows, h.capacity, h.pos, h.le, h.nodup, hpool, h.codes,
        fun hindex => absurd hindex (by simp [dropIndex, hasIndex])⟩
  | get i =>
      obtain ⟨sc', hget, hsame⟩ := h.get i
      refine ⟨sc', strings, by rw [StringColumn.perform, hget]; rfl, ?_⟩
      rcases hsame with rfl | rfl
      exacts [h, h.loadPool.1]
  | whereEq s =>
      refine ⟨sc.loadPool, strings, ?_, h.loadPool.1⟩
      rw [StringColumn.perform, h.whereEq s]
      rfl

theorem Holds.run (h : Holds sc strings rows) {operations : List (Operation σ)}
    (hfresh : Along step Fresh sc operations) :
    ∃ sc' strings', run step sc operations = some sc' ∧
      Holds sc' strings' (operations.foldl follow rows) := by
  induction operations generalizing sc strings rows with
  | nil => exact ⟨sc, strings, rfl, h⟩
  | cons operation operations ih =>
      obtain ⟨sc1, strings1, hperform, h1⟩ := h.perform hfresh.1
      have hstep : step sc operation = some sc1 := by
        rw [step, hperform]
        rfl
      have hrest : Along step Fresh sc1 operations := by
        have := hfresh.2
        rwa [hstep] at this
      obtain ⟨sc', strings', hrun, h'⟩ := ih h1 hrest
      exact ⟨sc', strings', run_cons.mpr ⟨sc1, hstep, hrun⟩, h'⟩

/-- The column is a vector of the strings `rows`: `get` returns them, the pool has each
string of a row once, its two maps are inverse to each other, and `where-eq` returns the
rows that hold a string. -/
structure Faithful (sc : StringColumn σ) (rows : List σ) : Prop where
  get : ∀ i : ℤ, ∃ sc', sc.get i = .ok (sc', if 0 ≤ i then rows[i.toNat]? else none)
  pool_nodup : sc.loadPool.codeToStr.Nodup
  pool_rows : ∀ r ∈ rows, r ∈ sc.loadPool.codeToStr
  pool_inverse : ∀ (s : σ) (c : ℕ),
    sc.loadPool.strToCode s = some c ↔ sc.loadPool.codeToStr[c]? = some s
  whereEq : ∀ s, ∃ sc', sc.whereEq s = .ok (sc', rowsWith rows s)

theorem Holds.faithful (h : Holds sc strings rows) : Faithful sc rows := by
  obtain ⟨hholds, hloaded⟩ := h.loadPool
  refine ⟨fun i => ?_, ?_, fun r hr => ?_, fun s c => ?_, fun s => ⟨_, h.whereEq s⟩⟩
  · obtain ⟨sc', hget, -⟩ := h.get i
    exact ⟨sc', hget⟩
  · rw [hloaded.codeToStr]
    exact h.nodup
  · obtain ⟨i, hi⟩ := List.getElem?_of_mem hr
    obtain ⟨c, -, hstr⟩ := h.codes i r hi
    rw [hloaded.codeToStr]
    exact List.mem_of_getElem? hstr
  · rw [hloaded.codeToStr]
    exact hloaded.strToCode s c

/-- **A string column is a faithful vector of strings**, after any operations, if it was
never built again while it had a valid index. -/
theorem stringColumn_faithful (initCap : ℕ) (operations : List (Operation σ))
    (hfresh : Along step Fresh (new initCap) operations) :
    ∃ sc, run step (new initCap) operations = some sc ∧
      Faithful sc (operations.foldl follow []) := by
  obtain ⟨sc, strings, hrun, h⟩ := (holds_new initCap).run hfresh
  exact ⟨sc, hrun, h.faithful⟩

theorem stringColumn_faithful_small : ∃ sc, run step (new 0 : StringColumn Bool)
    [.append true, .buildIndex, .append false, .append true, .buildIndex, .whereEq true] = some sc ∧
      Faithful sc [true, false, true] :=
  stringColumn_faithful 0 [.append true, .buildIndex, .append false, .append true, .buildIndex,
    .whereEq true] ⟨trivial, trivial, trivial, trivial, trivial, trivial, trivial⟩

/-- One row, with the string `false`. -/
def oneRow : Bulk Bool := ⟨[0], [false], by decide, by decide, by decide⟩

/-- Two rows are there when the index is built, and one after `build-from-codes`:
`where-eq` returns both. -/
theorem stale_index : ∃ sc, run step (new 0 : StringColumn Bool)
    [.append true, .append true, .buildIndex, .buildFromCodes oneRow] = some sc ∧
      sc.whereEq false = .ok (sc, [0, 1]) ∧ ¬Faithful sc [false] := by
  have hwhere : ∃ sc, run step (new 0 : StringColumn Bool)
      [.append true, .append true, .buildIndex, .buildFromCodes oneRow] = some sc ∧
        sc.whereEq false = .ok (sc, [0, 1]) := ⟨_, rfl, rfl⟩
  obtain ⟨sc, hrun, hwhere⟩ := hwhere
  refine ⟨sc, hrun, hwhere, fun hfaithful => ?_⟩
  obtain ⟨sc', hrows⟩ := hfaithful.whereEq false
  have hlist : [0, 1] = rowsWith [false] false :=
    congrArg Prod.snd (Except.ok.inj (hwhere.symm.trans hrows))
  exact absurd hlist (by decide)

end Lush.Datatable.StringColumn
