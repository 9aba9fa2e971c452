import Lush.Sized.DataTable
import Lush.Text.Numbers

/-!
# Tables stay rectangular

`Rectangular` says that every column has all rows, and room for as many as the capacity says.
Tables stay so if and only if nothing goes wrong that `Ok` excludes (`rectangular_iff`): a
selection gives an array with less room than the capacity of a new table, or strings only,
whose rows are not counted; and an error stops `append-row` after a string.
-/

namespace Lush.Sized

open Runs

variable {ν : Type} {numbers : Numbers ν}

/-! ## Rectangular tables -/

/-- A column has the rows, and room for them and for the capacity. -/
def Column.Fits (numRows capacity : ℕ) : Column ν → Prop
  | .num _ elements => max numRows capacity ≤ elements.length
  | .string rows => rows.length = numRows
  | .intcol rows => rows.length = numRows

instance (numRows capacity : ℕ) : ∀ col : Column ν, Decidable (col.Fits numRows capacity)
  | .num _ elements => inferInstanceAs (Decidable (max numRows capacity ≤ elements.length))
  | .string rows => inferInstanceAs (Decidable (rows.length = numRows))
  | .intcol rows => inferInstanceAs (Decidable (rows.length = numRows))

/-- All columns have the rows. -/
def Rectangular (dt : DataTable ν) : Prop := ∀ col ∈ dt.columns, col.Fits dt.numRows dt.capacity

/-- The capacity is not too small. -/
structure Roomy (dt : DataTable ν) : Prop where
  pos : 0 < dt.capacity
  le : dt.numRows ≤ dt.capacity

/-! ## Conditions -/

/-- A value can be put in a column of the type. -/
def ColType.converts (type : ColType) : Value ν → Bool
  | .nil => true
  | .number _ => true
  | .string _ => type = .string
  | .other => false

/-- Every value can be put in its column. -/
def Converts (values : List (Value ν)) (types : List ColType) : Prop :=
  List.Forall₂ (fun value type => ColType.converts type value) values types

/-- There is no error after a string or an integer has been appended. -/
def Clean : List (Value ν) → List ColType → Prop
  | value :: values, type :: types =>
      if type.converts value then
        if type.isNum then Clean values types else Converts values types
      else True
  | _, _ => True

theorem Converts.clean {values : List (Value ν)} {types : List ColType}
    (h : Converts values types) : Clean values types := by
  induction h with
  | nil => trivial
  | cons hconverts hrest ih =>
      rw [Clean, if_pos hconverts]
      split_ifs
      · exact ih
      · exact hrest

/-- The types of the columns. -/
def types (columns : List (Column ν)) : List ColType := columns.map Column.type

/-- Columns of which a number of rows may be chosen: arrays have as many elements as the
capacity of a new table, and the rows are counted by an array. -/
def Selectable (types : List ColType) (nr : ℕ) : Prop :=
  if types.any ColType.isNum then 64 ≤ nr else types = [] ∨ nr = 0

/-- The columns have the rows. -/
def Column.Reaches (indices : List ℕ) : Column ν → Prop
  | .num _ elements => ∀ i ∈ indices, i < elements.length
  | .string _ => True
  | .intcol rows => ∀ i ∈ indices, i < rows.length

/-- What must not go wrong. -/
def Ok (dt : DataTable ν) : Op ν → Prop
  | .appendRow values => values.length = dt.columns.length → Clean values (types dt.columns)
  | .selectColumns names => ∀ chosen, dt.named names = .ok chosen → names.Nodup →
      0 < dt.numRows → Selectable (types chosen) dt.numRows
  | .selectRows indices => indices ≠ [] → (∀ col ∈ dt.columns, col.Reaches indices) →
      Selectable (types dt.columns) indices.length
  | .whereRows test => ∀ indices, dt.whereIndices test = .ok indices → indices ≠ [] →
      Selectable (types dt.columns) indices.length
  | _ => True

/-! ## One column after the other -/

section

variable {col col' : Column ν} {cols : List (Column ν)} {numRows capacity : ℕ}
  {values : List (Value ν)} {value : Value ν}

/-- What can be seen of a column: its rows. -/
def Column.visible (numRows : ℕ) : Column ν → Column ν
  | .num t elements => .num t (elements.take numRows)
  | col => col

variable (numbers) in
/-- **A value is put in a column**, if it can be; then an array still has its old rows. -/
theorem put_ok (hfits : col.Fits numRows capacity) (hlt : numRows < capacity)
    (hconverts : col.type.converts value) :
    ∃ col', col.put numbers numRows value = .ok col' ∧ col'.type = col.type ∧
      col'.Fits (numRows + 1) capacity ∧
      if col.type.isNum then col'.Fits numRows capacity ∧
        col'.visible numRows = col.visible numRows
      else ¬col'.Fits numRows capacity := by
  cases col with
  | num t elements =>
      have hlen : max numRows capacity ≤ elements.length := hfits
      have hroom : numRows < elements.length := by omega
      have hset : ∀ x, (Column.num t (elements.set numRows x)).Fits (numRows + 1) capacity ∧
          (Column.num t (elements.set numRows x)).Fits numRows capacity ∧
          (Column.num t (elements.set numRows x)).visible numRows =
            (Column.num t elements).visible numRows := by
        intro x
        refine ⟨?_, ?_, ?_⟩
        · show max (numRows + 1) capacity ≤ (elements.set numRows x).length
          rw [List.length_set]
          omega
        · show max numRows capacity ≤ (elements.set numRows x).length
          rwa [List.length_set]
        · rw [Column.visible, Column.visible, List.take_set_of_le le_rfl]
      cases value with
      | nil =>
          obtain ⟨hfits', hold, hvisible⟩ := hset (numbers.null t)
          exact ⟨_, if_pos hroom, rfl, hfits', hold, hvisible⟩
      | number x =>
          obtain ⟨hfits', hold, hvisible⟩ := hset (numbers.store t x)
          exact ⟨_, if_pos hroom, rfl, hfits', hold, hvisible⟩
      | string s => simp [ColType.converts, Column.type] at hconverts
      | other => simp [ColType.converts] at hconverts
  | string rows =>
      have happend : ∀ s, (Column.string (rows ++ [s]) : Column ν).Fits (numRows + 1) capacity ∧
          ¬(Column.string (rows ++ [s]) : Column ν).Fits numRows capacity := by
        intro s
        have hlen : rows.length = numRows := hfits
        constructor
        · show (rows ++ [s]).length = numRows + 1
          simp [hlen]
        · show ¬(rows ++ [s]).length = numRows
          simp [hlen]
      cases value with
      | nil => exact ⟨_, rfl, rfl, happend _⟩
      | number x => exact ⟨_, rfl, rfl, happend _⟩
      | string s => exact ⟨_, rfl, rfl, happend _⟩
      | other => simp [ColType.converts] at hconverts
  | intcol rows =>
      have happend : ∀ x, (Column.intcol (rows ++ [x])).Fits (numRows + 1) capacity ∧
          ¬(Column.intcol (rows ++ [x])).Fits numRows capacity := by
        intro x
        have hlen : rows.length = numRows := hfits
        constructor
        · show (rows ++ [x]).length = numRows + 1
          simp [hlen]
        · show ¬(rows ++ [x]).length = numRows
          simp [hlen]
      cases value with
      | nil => exact ⟨_, rfl, rfl, happend _⟩
      | number x => exact ⟨_, rfl, rfl, happend _⟩
      | string s => simp [ColType.converts, Column.type] at hconverts
      | other => simp [ColType.converts] at hconverts

variable (numbers) in
theorem put_error (hconverts : ¬col.type.converts value) :
    ∃ e, col.put numbers numRows value = .error e := by
  cases col with
  | num t elements =>
      cases value with
      | nil => simp [ColType.converts] at hconverts
      | number x => simp [ColType.converts] at hconverts
      | string s => exact ⟨_, rfl⟩
      | other => exact ⟨_, rfl⟩
  | string rows =>
      cases value with
      | nil => simp [ColType.converts] at hconverts
      | number x => simp [ColType.converts] at hconverts
      | string s => simp [ColType.converts, Column.type] at hconverts
      | other => exact ⟨_, rfl⟩
  | intcol rows =>
      cases value with
      | nil => simp [ColType.converts] at hconverts
      | number x => simp [ColType.converts] at hconverts
      | string s => exact ⟨_, rfl⟩
      | other => exact ⟨_, rfl⟩

/-- Elements are read, if there are all of them. -/
theorem mapM_element_ok {elements : List ν} {l : List ℕ} (h : ∀ i ∈ l, i < elements.length) :
    ∃ xs, l.mapM (element elements) = .ok xs ∧ xs.map some = l.map (elements[·]?) := by
  induction l with
  | nil => exact ⟨[], rfl, rfl⟩
  | cons i l ih =>
      obtain ⟨hi, hl⟩ := List.forall_mem_cons.mp h
      obtain ⟨xs, hxs, hmap⟩ := ih hl
      have hget : elements[i]? = some elements[i] := List.getElem?_eq_getElem hi
      refine ⟨elements[i] :: xs, ?_, by rw [List.map_cons, List.map_cons, hmap, hget]⟩
      rw [List.mapM_cons, hxs, element, hget]
      rfl

theorem lt_of_mapM_element {elements xs : List ν} {l : List ℕ}
    (h : l.mapM (element elements) = .ok xs) : ∀ i ∈ l, i < elements.length := by
  induction l generalizing xs with
  | nil => simp
  | cons i l ih =>
      rw [List.mapM_cons] at h
      obtain ⟨x, hx, h⟩ := bind_ok.mp h
      obtain ⟨ys, hys, -⟩ := bind_ok.mp h
      refine List.forall_mem_cons.mpr ⟨?_, ih hys⟩
      by_contra hge
      rw [element, List.getElem?_eq_none_iff.mpr (by omega)] at hx
      simp at hx

/-- The first elements. -/
theorem mapM_element_range {elements : List ν} {n : ℕ} (h : n ≤ elements.length) :
    (List.range n).mapM (element elements) = .ok (elements.take n) := by
  have hlt : ∀ i ∈ List.range n, i < elements.length :=
    fun i hi => (List.mem_range.mp hi).trans_le h
  obtain ⟨xs, hxs, hmap⟩ := mapM_element_ok hlt
  rw [hxs]
  congr 1
  apply List.map_injective_iff.mpr (Option.some_injective ν)
  rw [hmap]
  apply List.ext_getElem
  · simp [h]
  · intro i hi hi'
    have hlt : i < n := by simpa using hi
    have hlt' : i < elements.length := hlt.trans_le h
    simp [hlt']

theorem matrix_ok {n : ℕ} (h : 0 < n) :
    matrix numbers n = .ok (List.replicate n numbers.fresh) := if_neg h.ne'

variable (numbers) in
/-- A column grows, and keeps its rows. -/
theorem grow_ok {newCap : ℕ} (hfits : col.Fits numRows capacity) (hpos : 0 < newCap)
    (hle : numRows ≤ newCap) :
    ∃ col', col.grow numbers newCap numRows = .ok col' ∧ col'.type = col.type ∧
      col'.Fits numRows newCap ∧ col'.visible numRows = col.visible numRows := by
  cases col with
  | num t elements =>
      have hlen : max numRows capacity ≤ elements.length := hfits
      have hread := mapM_element_range (show numRows ≤ elements.length by omega)
      refine ⟨.num t (elements.take numRows ++
        (List.replicate newCap numbers.fresh).drop numRows), ?_, rfl, ?_, ?_⟩
      · simp only [Column.grow, matrix_ok hpos, hread, Bind.bind, Except.bind]
      · show max numRows newCap ≤ (elements.take numRows ++
          (List.replicate newCap numbers.fresh).drop numRows).length
        rw [List.length_append, List.length_take, List.length_drop, List.length_replicate]
        omega
      · rw [Column.visible, Column.visible, List.take_append_of_le_length (by simp; omega),
          List.take_take, min_self]
  | string rows => exact ⟨_, rfl, rfl, hfits, rfl⟩
  | intcol rows => exact ⟨_, rfl, rfl, hfits, rfl⟩

variable (numbers) in
/-- What the loop of `append-row` does: all values are put in their columns; or there is an
error, and the columns are as they were if and only if the error is clean. -/
theorem eachColumn_put (hfits : ∀ col ∈ cols, col.Fits numRows capacity)
    (hlt : numRows < capacity) (hlen : values.length = cols.length) :
    (Converts values (types cols) ∧
      ∃ cols', eachColumn (values.map (Column.put numbers numRows)) cols = (cols', .ok ()) ∧
        types cols' = types cols ∧ ∀ col ∈ cols', col.Fits (numRows + 1) capacity) ∨
    (¬Converts values (types cols) ∧
      ∃ cols' e, eachColumn (values.map (Column.put numbers numRows)) cols = (cols', .error e) ∧
        types cols' = types cols ∧
        ((∀ col ∈ cols', col.Fits numRows capacity) ↔ Clean values (types cols)) ∧
        (Clean values (types cols) →
          cols'.map (Column.visible numRows) = cols.map (Column.visible numRows))) := by
  induction cols generalizing values with
  | nil =>
      obtain rfl : values = [] := List.length_eq_zero_iff.mp hlen
      exact Or.inl ⟨.nil, [], rfl, rfl, by simp⟩
  | cons col cols ih =>
      obtain ⟨value, values, rfl⟩ : ∃ value vs, values = value :: vs := by
        cases values with
        | nil => simp at hlen
        | cons value values => exact ⟨value, values, rfl⟩
      obtain ⟨hcol, hcols⟩ := List.forall_mem_cons.mp hfits
      simp only [types, Converts, List.map_cons, List.forall₂_cons, Clean, eachColumn] at ih ⊢
      by_cases hconverts : col.type.converts value
      · obtain ⟨col', hput, htype, hnext, hold⟩ := put_ok numbers hcol hlt hconverts
        rw [hput]
        rcases ih hcols (by simpa using hlen) with
          ⟨hall, cols', heq, htypes, hfits'⟩ | ⟨hnot, cols', e, heq, htypes, hiff, hvisible⟩
        · left
          refine ⟨⟨hconverts, hall⟩, col' :: cols', by simp only [heq], by simp [htype, htypes],
            List.forall_mem_cons.mpr ⟨hnext, hfits'⟩⟩
        · right
          refine ⟨fun h => hnot h.2, col' :: cols', e, by simp only [heq], by simp [htype, htypes],
            ?_⟩
          rw [if_pos hconverts, List.forall_mem_cons]
          by_cases hnum : col.type.isNum
          · rw [if_pos hnum] at hold ⊢
            refine ⟨⟨fun h => hiff.mp h.2, fun h => ⟨hold.1, hiff.mpr h⟩⟩, fun h => ?_⟩
            rw [List.map_cons, hold.2, hvisible h]
          · rw [if_neg hnum] at hold ⊢
            exact ⟨⟨fun h => absurd h.1 hold, fun h => absurd h hnot⟩, fun h => absurd h hnot⟩
      · right
        obtain ⟨e, hput⟩ : ∃ e, col.put numbers numRows value = .error e := put_error numbers hconverts
        rw [hput, if_neg hconverts]
        exact ⟨fun h => hconverts h.1, col :: cols, e, rfl, by simp,
          ⟨fun _ => trivial, fun _ => hfits⟩, fun _ => rfl⟩

variable (numbers) in
/-- The columns grow, and keep their rows. -/
theorem eachColumn_grow {newCap : ℕ} (hfits : ∀ col ∈ cols, col.Fits numRows capacity)
    (hpos : 0 < newCap) (hle : numRows ≤ newCap) :
    ∃ cols', eachColumn (cols.map fun _ => Column.grow numbers newCap numRows) cols =
        (cols', .ok ()) ∧ types cols' = types cols ∧
      (∀ col ∈ cols', col.Fits numRows newCap) ∧
      cols'.map (Column.visible numRows) = cols.map (Column.visible numRows) := by
  induction cols with
  | nil => exact ⟨[], rfl, rfl, by simp, rfl⟩
  | cons col cols ih =>
      obtain ⟨hcol, hcols⟩ := List.forall_mem_cons.mp hfits
      obtain ⟨col', hgrow, htype, hfits', hvisible⟩ := grow_ok numbers hcol hpos hle
      obtain ⟨cols', heq, htypes, hall, hvisibles⟩ := ih hcols
      refine ⟨col' :: cols', ?_, ?_, List.forall_mem_cons.mpr ⟨hfits', hall⟩, ?_⟩
      · simp only [List.map_cons, eachColumn, hgrow, heq]
      · rw [types] at htypes ⊢
        rw [List.map_cons, htype, htypes]
        rfl
      · rw [List.map_cons, List.map_cons, hvisible, hvisibles]

end

/-! ## `append-row` -/

section

variable {dt : DataTable ν} {values : List (Value ν)}

/-- The table has the same rows. -/
structure Unchanged (dt dt' : DataTable ν) : Prop where
  colNames : dt'.colNames = dt.colNames
  columns : dt'.columns.map (Column.visible dt.numRows) = dt.columns.map (Column.visible dt.numRows)
  numRows : dt'.numRows = dt.numRows

variable (numbers) in
/-- There is room for a row. -/
theorem grow_roomy (hrect : Rectangular dt) (hroomy : Roomy dt) :
    ∃ dt', dt.grow numbers = (dt', .ok ()) ∧ Rectangular dt' ∧ Unchanged dt dt' ∧
      types dt'.columns = types dt.columns ∧ dt.numRows < dt'.capacity := by
  obtain ⟨hpos, hle⟩ := hroomy
  unfold DataTable.grow
  by_cases hlt : dt.numRows < dt.capacity
  · rw [if_pos hlt]
    exact ⟨dt, rfl, hrect, ⟨rfl, rfl, rfl⟩, rfl, hlt⟩
  · rw [if_neg hlt]
    obtain ⟨cols', heq, htypes, hfits, hvisible⟩ := eachColumn_grow numbers
      hrect (show 0 < 2 * dt.capacity by omega) (by omega)
    refine ⟨⟨dt.colNames, cols', dt.numRows, 2 * dt.capacity⟩, ?_, hfits, ⟨rfl, hvisible, rfl⟩,
      htypes, ?_⟩
    · simp only [heq]
    · show dt.numRows < 2 * dt.capacity
      omega

variable (numbers) in
/-- **`append-row`**: the values are put in a new row; or there is an error, and the table
stays rectangular if and only if the error is clean. -/
theorem appendRow_cases (hrect : Rectangular dt) (hroomy : Roomy dt)
    (hlen : values.length = dt.columns.length) :
    (Converts values (types dt.columns) ∧ ∃ dt', dt.appendRow numbers values = (dt', .ok ()) ∧
      Rectangular dt' ∧ Roomy dt') ∨
    (¬Converts values (types dt.columns) ∧ ∃ dt' e,
      dt.appendRow numbers values = (dt', .error e) ∧ Roomy dt' ∧
      (Rectangular dt' ↔ Clean values (types dt.columns)) ∧
      (Clean values (types dt.columns) → Unchanged dt dt')) := by
  obtain ⟨dt1, hgrow, hrect1, hsame, htypes1, hlt⟩ := grow_roomy numbers hrect hroomy
  have hlen1 : values.length = dt1.columns.length := by
    rw [hlen]
    simpa [types] using (congrArg List.length htypes1).symm
  rw [← hsame.numRows] at hlt
  have hput := eachColumn_put numbers hrect1 hlt hlen1
  rw [htypes1, hsame.numRows] at hput
  unfold DataTable.appendRow
  rw [if_neg (by simpa using hlen), hgrow]
  rcases hput with ⟨hall, cols', heq, -, hfits⟩ | ⟨hnot, cols', e, heq, -, hiff, hvisible⟩
  · left
    refine ⟨hall, ⟨dt1.colNames, cols', dt.numRows + 1, dt1.capacity⟩, ?_, hfits, ?_⟩
    · simp only [heq]
    · rw [hsame.numRows] at hlt
      exact ⟨by show 0 < dt1.capacity; omega, hlt⟩
  · right
    refine ⟨hnot, ⟨dt1.colNames, cols', dt1.numRows, dt1.capacity⟩, e, ?_, ?_, ?_, fun h => ?_⟩
    · simp only [heq]
    · exact ⟨by show 0 < dt1.capacity; omega, hlt.le⟩
    · rw [← hiff, ← hsame.numRows]
      rfl
    · exact ⟨hsame.colNames, (hvisible h).trans hsame.columns, hsame.numRows⟩

end

/-! ## Selections -/

section

variable {col col' : Column ν} {cols cols' : List (Column ν)} {indices : List ℕ} {nr : ℕ}

/-- A column has a number of entries. -/
def Column.Entries (n : ℕ) : Column ν → Prop
  | .num _ elements => elements.length = n
  | .string rows => rows.length = n
  | .intcol rows => rows.length = n

theorem length_of_map_some {α : Type} {xs : List α} {l : List ℕ} {f : ℕ → Option α}
    (h : xs.map some = l.map f) : xs.length = l.length := by
  simpa using congrArg List.length h

/-- What is selected of a column. -/
theorem select_spec (h : col.select numbers indices = .ok col') :
    col.Reaches indices ∧ col'.type = col.type ∧ col'.Entries indices.length := by
  cases col with
  | num t elements =>
      obtain ⟨_, -, h⟩ := bind_ok.mp h
      obtain ⟨xs, hxs, h⟩ := bind_ok.mp h
      obtain rfl := Except.ok.inj h
      have hreach := lt_of_mapM_element hxs
      obtain ⟨ys, hys, hmap⟩ := mapM_element_ok hreach
      obtain rfl := Except.ok.inj (hxs.symm.trans hys)
      exact ⟨hreach, rfl, length_of_map_some hmap⟩
  | string rows =>
      obtain rfl := Except.ok.inj h
      exact ⟨trivial, rfl, by simp [Column.Entries]⟩
  | intcol rows =>
      obtain ⟨xs, hxs, h⟩ := bind_ok.mp h
      obtain rfl := Except.ok.inj h
      have hreach := lt_of_mapM_element hxs
      obtain ⟨ys, hys, hmap⟩ := mapM_element_ok hreach
      obtain rfl := Except.ok.inj (hxs.symm.trans hys)
      exact ⟨hreach, rfl, length_of_map_some hmap⟩

variable (numbers) in
theorem select_ok (hreach : col.Reaches indices) (hne : indices ≠ []) :
    ∃ col', col.select numbers indices = .ok col' := by
  have hpos : 0 < indices.length := List.length_pos_iff.mpr hne
  cases col with
  | num t elements =>
      obtain ⟨xs, hxs, -⟩ := mapM_element_ok hreach
      exact ⟨.num t xs, by simp only [Column.select, matrix_ok hpos, hxs, Bind.bind, Except.bind]⟩
  | string rows => exact ⟨_, rfl⟩
  | intcol rows =>
      obtain ⟨xs, hxs, -⟩ := mapM_element_ok hreach
      exact ⟨.intcol xs, by simp only [Column.select, hxs, Bind.bind, Except.bind]⟩

theorem selectAll_spec (h : cols.mapM (Column.select numbers indices) = .ok cols') :
    (∀ col ∈ cols, col.Reaches indices) ∧ types cols' = types cols ∧
      ∀ col ∈ cols', col.Entries indices.length := by
  have hall := mapM_ok_iff.mp h
  induction hall with
  | nil => exact ⟨by simp, rfl, by simp⟩
  | cons hcol _ ih =>
      obtain ⟨hreach, htype, hentries⟩ := select_spec hcol
      obtain ⟨hreaches, htypes, hall⟩ := ih (mapM_ok_iff.mpr ‹_›)
      refine ⟨List.forall_mem_cons.mpr ⟨hreach, hreaches⟩, ?_,
        List.forall_mem_cons.mpr ⟨hentries, hall⟩⟩
      rw [types] at htypes ⊢
      rw [List.map_cons, htype, htypes]
      rfl

variable (numbers) in
theorem selectAll_ok (hreach : ∀ col ∈ cols, col.Reaches indices) (hne : indices ≠ []) :
    ∃ cols', cols.mapM (Column.select numbers indices) = .ok cols' := by
  induction cols with
  | nil => exact ⟨[], rfl⟩
  | cons col cols ih =>
      obtain ⟨hcol, hcols⟩ := List.forall_mem_cons.mp hreach
      obtain ⟨col', hcol'⟩ := select_ok numbers hcol hne
      obtain ⟨cols', hcols'⟩ := ih hcols
      refine ⟨col' :: cols', ?_⟩
      rw [List.mapM_cons, hcol', hcols']
      rfl

/-- **A table of selected columns** is rectangular if and only if they are selectable. -/
theorem rectangular_ofSelected (colNames : List String) (h : ∀ col ∈ cols, col.Entries nr) :
    Rectangular (.ofSelected colNames cols nr) ↔ Selectable (types cols) nr := by
  have hcomp : (ColType.isNum ∘ Column.type : Column ν → Bool) = fun col => col.type.isNum := rfl
  unfold DataTable.ofSelected Selectable
  rw [types, List.any_map, hcomp]
  by_cases hany : cols.any fun col => col.type.isNum
  · rw [if_pos hany, if_pos hany]
    constructor
    · intro hrect
      obtain ⟨col, hcol, hnum⟩ := List.any_eq_true.mp hany
      have hfits := hrect col hcol
      have hentries := h col hcol
      cases col with
      | num t elements =>
          have hlen : max nr (max 64 nr) ≤ elements.length := hfits
          have hnr : elements.length = nr := hentries
          omega
      | string rows => simp [Column.type, ColType.isNum] at hnum
      | intcol rows => simp [Column.type, ColType.isNum] at hnum
    · intro h64 col hcol
      have hentries := h col hcol
      cases col with
      | num t elements =>
          have hnr : elements.length = nr := hentries
          show max nr (max 64 nr) ≤ elements.length
          omega
      | string rows => exact hentries
      | intcol rows => exact hentries
  · rw [if_neg hany, if_neg hany]
    have hnot : ∀ col ∈ cols, ¬col.type.isNum := fun col hcol hnum =>
      hany (List.any_eq_true.mpr ⟨col, hcol, hnum⟩)
    have hfits : ∀ col ∈ cols, (col.Fits 0 64 ↔ nr = 0) := by
      intro col hcol
      have hentries := h col hcol
      cases col with
      | num t elements => exact absurd rfl (hnot _ hcol)
      | string rows =>
          have hnr : rows.length = nr := hentries
          show rows.length = 0 ↔ nr = 0
          rw [hnr]
      | intcol rows =>
          have hnr : rows.length = nr := hentries
          show rows.length = 0 ↔ nr = 0
          rw [hnr]
    constructor
    · intro hrect
      rcases cols with _ | ⟨col, cols⟩
      · exact Or.inl rfl
      · exact Or.inr ((hfits col (by simp)).mp (hrect col (by simp)))
    · rintro (hnil | h0) col hcol
      · rw [List.map_eq_nil_iff] at hnil
        simp [hnil] at hcol
      · exact (hfits col hcol).mpr h0

theorem roomy_ofSelected (colNames : List String) (cols : List (Column ν)) (nr : ℕ) :
    Roomy (.ofSelected colNames cols nr) := by
  unfold DataTable.ofSelected
  split_ifs
  · exact ⟨by show 0 < max 64 nr; omega, le_max_right _ _⟩
  · exact ⟨by show 0 < 64; omega, Nat.zero_le _⟩

end

/-! ## Steps -/

section

variable {dt dt' : DataTable ν}

variable (numbers) in
theorem new_ok {capacity : ℕ} (hpos : 0 < capacity) (type : ColType) :
    ∃ col : Column ν, Column.new numbers capacity type = .ok col ∧ col.type = type ∧
      col.Fits 0 capacity := by
  cases type with
  | num t =>
      refine ⟨.num t (List.replicate capacity numbers.fresh), ?_, rfl, ?_⟩
      · simp only [Column.new, matrix_ok hpos, Bind.bind, Except.bind]
      · show max 0 capacity ≤ (List.replicate capacity numbers.fresh).length
        simp
  | string => exact ⟨_, rfl, rfl, rfl⟩
  | intcol => exact ⟨_, rfl, rfl, rfl⟩

theorem schema_ok (h : dt.schema numbers = .ok dt') : Rectangular dt' ∧ Roomy dt' := by
  obtain ⟨cols, hcols, h⟩ := bind_ok.mp h
  obtain rfl := Except.ok.inj h
  refine ⟨fun col hcol => ?_, ⟨by show 0 < 64; omega, Nat.zero_le _⟩⟩
  obtain ⟨col', -, hnew⟩ := exists_of_mapM hcols hcol
  obtain ⟨col'', hnew', -, hfits⟩ := new_ok numbers (show 0 < 64 by omega)
    col'.type
  obtain rfl := Except.ok.inj (hnew.symm.trans hnew')
  exact hfits

theorem addColumn_ok {name : String} {type : ColType} (hrect : Rectangular dt) (hroomy : Roomy dt)
    (h : dt.addColumn numbers name type = .ok dt') : Rectangular dt' ∧ Roomy dt' := by
  unfold DataTable.addColumn at h
  by_cases hrows : 0 < dt.numRows
  · rw [if_pos hrows] at h
    simp at h
  rw [if_neg hrows] at h
  by_cases hname : dt.colNames.contains name
  · rw [if_pos hname] at h
    simp at h
  rw [if_neg hname] at h
  obtain ⟨col, hcol, h⟩ := bind_ok.mp h
  obtain rfl := Except.ok.inj h
  obtain ⟨col', hcol', -, hfits⟩ := new_ok numbers hroomy.pos type
  obtain rfl := Except.ok.inj (hcol.symm.trans hcol')
  have h0 : dt.numRows = 0 := by omega
  refine ⟨fun col hmem => ?_, ⟨hroomy.pos, hroomy.le⟩⟩
  rcases List.mem_append.mp hmem with hmem | hmem
  · exact hrect col hmem
  · rw [List.mem_singleton.mp hmem, h0]
    exact hfits

theorem set_ok {row ci : ℕ} {value : Value ν} (hrect : Rectangular dt) (hroomy : Roomy dt)
    (h : dt.set numbers row ci value = .ok dt') : Rectangular dt' ∧ Roomy dt' := by
  unfold DataTable.set at h
  by_cases hrow : dt.numRows ≤ row
  · rw [if_pos hrow] at h
    simp at h
  rw [if_neg hrow] at h
  split at h
  · rename_i t elements x hcol
    by_cases hlt : row < elements.length
    · rw [if_pos hlt] at h
      obtain rfl := Except.ok.inj h
      refine ⟨fun col hmem => ?_, ⟨hroomy.pos, hroomy.le⟩⟩
      rcases List.mem_or_eq_of_mem_set hmem with hmem | rfl
      · exact hrect col hmem
      · have hfits : max dt.numRows dt.capacity ≤ elements.length :=
          hrect _ (List.mem_of_getElem? hcol)
        show max dt.numRows dt.capacity ≤ (elements.set row (numbers.store t x)).length
        rwa [List.length_set]
    · rw [if_neg hlt] at h
      simp at h
  all_goals simp at h

/-- The rows that a permutation chooses are as many as it has. -/
theorem selectRowsIdx_ok {perm : List ℕ} (h : dt.selectRowsIdx numbers perm = .ok dt') :
    Rectangular dt' ∧ Roomy dt' := by
  unfold DataTable.selectRowsIdx at h
  by_cases hnil : perm = []
  · rw [if_pos hnil] at h
    exact schema_ok h
  rw [if_neg hnil] at h
  obtain ⟨cols, hcols, h⟩ := bind_ok.mp h
  obtain rfl := Except.ok.inj h
  refine ⟨fun col hcol => ?_, ⟨List.length_pos_iff.mpr hnil, le_rfl⟩⟩
  obtain ⟨col', -, hgather⟩ := exists_of_mapM hcols hcol
  have hentries : col.Entries perm.length := by
    cases col' with
    | num t elements =>
        rw [Column.gather] at hgather
        split_ifs at hgather with hin
        · exact (select_spec hgather).2.2
    | string rows =>
        have hselect : Column.select numbers perm (.string rows) = .ok col := hgather
        exact (select_spec hselect).2.2
    | intcol rows =>
        have hselect : Column.select numbers perm (.intcol rows) = .ok col := hgather
        exact (select_spec hselect).2.2
  cases col with
  | num t elements =>
      have hlen : elements.length = perm.length := hentries
      show max perm.length perm.length ≤ elements.length
      omega
  | string rows => exact hentries
  | intcol rows => exact hentries

theorem sortBy_ok {ci : ℕ} {descending : Bool} (h : dt.sortBy numbers ci descending = .ok dt') :
    Rectangular dt' ∧ Roomy dt' := by
  unfold DataTable.sortBy at h
  by_cases h0 : dt.numRows = 0
  · rw [if_pos h0] at h
    exact schema_ok h
  · rw [if_neg h0] at h
    obtain ⟨perm, -, h⟩ := bind_ok.mp h
    exact selectRowsIdx_ok h

/-- **`select-rows`.** -/
theorem selectRows_iff {indices : List ℕ} (h : dt.selectRows numbers indices = .ok dt') :
    Roomy dt' ∧ (Rectangular dt' ↔ (indices ≠ [] → (∀ col ∈ dt.columns, col.Reaches indices) →
      Selectable (types dt.columns) indices.length)) := by
  unfold DataTable.selectRows at h
  by_cases hnil : indices = []
  · rw [if_pos hnil] at h
    obtain ⟨hrect, hroomy⟩ := schema_ok h
    exact ⟨hroomy, ⟨fun _ hne => absurd hnil hne, fun _ => hrect⟩⟩
  rw [if_neg hnil] at h
  obtain ⟨cols, hcols, h⟩ := bind_ok.mp h
  obtain rfl := Except.ok.inj h
  obtain ⟨hreach, htypes, hentries⟩ := selectAll_spec hcols
  refine ⟨roomy_ofSelected _ _ _, ?_⟩
  rw [rectangular_ofSelected _ hentries, htypes]
  exact ⟨fun h _ _ => h, fun h => h hnil hreach⟩

/-- A rectangular table has its rows. -/
theorem Rectangular.reaches (hrect : Rectangular dt) {indices : List ℕ}
    (h : ∀ i ∈ indices, i < dt.numRows) : ∀ col ∈ dt.columns, col.Reaches indices := by
  intro col hcol
  have hfits := hrect col hcol
  cases col with
  | num t elements =>
      have hlen : max dt.numRows dt.capacity ≤ elements.length := hfits
      exact fun i hi => (h i hi).trans_le ((le_max_left _ _).trans hlen)
  | string rows => trivial
  | intcol rows =>
      have hlen : rows.length = dt.numRows := hfits
      exact fun i hi => hlen ▸ h i hi

theorem mem_of_named {names : List String} {chosen : List (Column ν)}
    (h : dt.named names = .ok chosen) : ∀ col ∈ chosen, col ∈ dt.columns := by
  intro col hcol
  obtain ⟨name, -, hname⟩ := exists_of_mapM h hcol
  cases hfind : (dt.colNames.zip dt.columns).find? fun p => p.1 == name with
  | none =>
      simp only [hfind] at hname
      simp at hname
  | some p =>
      simp only [hfind] at hname
      rw [← Except.ok.inj hname]
      exact (List.of_mem_zip (a := p.1) (b := p.2) (List.mem_of_find?_eq_some hfind)).2

/-- **`select-columns`.** -/
theorem selectColumns_iff {names : List String}
    (h : dt.selectColumns numbers names = .ok dt') :
    Roomy dt' ∧ (Rectangular dt' ↔ Ok dt (.selectColumns names)) := by
  unfold DataTable.selectColumns at h
  by_cases hnodup : names.Nodup
  · rw [if_neg (not_not.mpr hnodup)] at h
    obtain ⟨chosen, hchosen, h⟩ := bind_ok.mp h
    obtain ⟨cols, hcols, h⟩ := bind_ok.mp h
    obtain rfl := Except.ok.inj h
    obtain ⟨-, htypes, hentries⟩ := selectAll_spec hcols
    rw [List.length_range] at hentries
    refine ⟨roomy_ofSelected _ _ _, ?_⟩
    rw [rectangular_ofSelected _ hentries, htypes]
    constructor
    · intro hselectable chosen' hchosen' _ _
      rwa [Except.ok.inj (hchosen'.symm.trans hchosen)]
    · intro hok
      rcases Nat.eq_zero_or_pos dt.numRows with h0 | hpos
      · -- there is no array without elements
        unfold Selectable
        rw [if_neg]
        · exact Or.inr h0
        · intro hany
          rw [← htypes, types, List.any_map] at hany
          obtain ⟨col, hcol, hnum⟩ := List.any_eq_true.mp hany
          obtain ⟨col', -, hselect⟩ := exists_of_mapM hcols hcol
          cases col' with
          | num t elements =>
              rw [h0] at hselect
              simp [Column.select, matrix, Bind.bind, Except.bind] at hselect
          | string rows =>
              rw [Function.comp_apply, (select_spec hselect).2.1] at hnum
              simp [Column.type, ColType.isNum] at hnum
          | intcol rows =>
              rw [Function.comp_apply, (select_spec hselect).2.1] at hnum
              simp [Column.type, ColType.isNum] at hnum
      · exact hok chosen hchosen hnodup hpos
  · rw [if_pos hnodup] at h
    simp at h

theorem lt_of_whereIndices {test : ℕ → Except Fault Bool} {indices : List ℕ}
    (h : dt.whereIndices test = .ok indices) : ∀ i ∈ indices, i < dt.numRows := by
  obtain ⟨holds, -, h⟩ := bind_ok.mp h
  intro i hi
  rw [← Except.ok.inj h] at hi
  obtain ⟨p, hp, rfl⟩ := List.mem_map.mp hi
  exact List.mem_range.mp (List.of_mem_zip (a := p.1) (b := p.2) (List.mem_filter.mp hp).1).1

variable (numbers) in
/-- A selection of rows is possible, if there are these rows. -/
theorem exists_selectRows {indices : List ℕ} (hne : indices ≠ [])
    (hreach : ∀ col ∈ dt.columns, col.Reaches indices) :
    ∃ dt', dt.selectRows numbers indices = .ok dt' := by
  obtain ⟨cols, hcols⟩ := selectAll_ok numbers hreach hne
  refine ⟨.ofSelected dt.colNames cols indices.length, ?_⟩
  rw [DataTable.selectRows, if_neg hne, hcols]
  rfl

variable (numbers) in
theorem exists_selectColumns (hrect : Rectangular dt) {names : List String}
    {chosen : List (Column ν)} (hchosen : dt.named names = .ok chosen) (hnodup : names.Nodup)
    (hpos : 0 < dt.numRows) : ∃ dt', dt.selectColumns numbers names = .ok dt' := by
  have hreach : ∀ col ∈ chosen, col.Reaches (List.range dt.numRows) := fun col hcol =>
    hrect.reaches (fun i => List.mem_range.mp) col (mem_of_named hchosen col hcol)
  obtain ⟨cols, hcols⟩ := selectAll_ok numbers hreach (by simpa using hpos.ne')
  refine ⟨.ofSelected names cols dt.numRows, ?_⟩
  rw [DataTable.selectColumns, if_neg (not_not.mpr hnodup), hchosen]
  simp only [Bind.bind, Except.bind, hcols]

theorem after_cases {r : Except Fault (DataTable ν)} (h : dt.after r = some dt') :
    r = .ok dt' ∨ (∃ e, r = .error e) ∧ dt' = dt := by
  cases r with
  | ok dt1 => exact Or.inl (congrArg Except.ok (Option.some.inj h))
  | error e =>
      right
      refine ⟨⟨e, rfl⟩, ?_⟩
      cases e with
      | undefined => simp [DataTable.after] at h
      | depth => exact (Option.some.inj h).symm
      | error text => exact (Option.some.inj h).symm
      | unmodelled => exact (Option.some.inj h).symm

/-- An operation after which the table is always rectangular. -/
theorem after_ok {r : Except Fault (DataTable ν)} (hrect : Rectangular dt) (hroomy : Roomy dt)
    (hok : r = .ok dt' → Rectangular dt' ∧ Roomy dt') (h : dt.after r = some dt') :
    Roomy dt' ∧ (Rectangular dt' ↔ True) := by
  rcases after_cases h with hr | ⟨-, rfl⟩
  · exact ⟨(hok hr).2, iff_of_true (hok hr).1 trivial⟩
  · exact ⟨hroomy, iff_of_true hrect trivial⟩

/-- **A step** keeps a table rectangular if and only if nothing goes wrong. -/
theorem step_iff (hroomy : Roomy dt) (hrect : Rectangular dt) {op : Op ν}
    (h : dt.step numbers op = some dt') : Roomy dt' ∧ (Rectangular dt' ↔ Ok dt op) := by
  cases op with
  | addColumn name type => exact after_ok hrect hroomy (addColumn_ok hrect hroomy) h
  | set row ci value => exact after_ok hrect hroomy (set_ok hrect hroomy) h
  | selectRowsIdx perm => exact after_ok hrect hroomy selectRowsIdx_ok h
  | sortBy ci descending => exact after_ok hrect hroomy sortBy_ok h
  | appendRow values =>
      obtain rfl := Option.some.inj h
      by_cases hlen : values.length = dt.columns.length
      · have hok : Ok dt (.appendRow values) ↔ Clean values (types dt.columns) :=
          ⟨fun h => h hlen, fun h _ => h⟩
        rw [hok]
        rcases appendRow_cases numbers hrect hroomy hlen with
          ⟨hall, dt1, heq, hrect1, hroomy1⟩ | ⟨-, dt1, e, heq, hroomy1, hiff, -⟩
        · rw [heq]
          exact ⟨hroomy1, iff_of_true hrect1 hall.clean⟩
        · rw [heq]
          exact ⟨hroomy1, hiff⟩
      · rw [DataTable.appendRow, if_pos hlen]
        exact ⟨hroomy, iff_of_true hrect fun h => absurd h hlen⟩
  | selectColumns names =>
      rcases after_cases h with hr | ⟨⟨e, he⟩, rfl⟩
      · exact selectColumns_iff hr
      · refine ⟨hroomy, iff_of_true hrect fun chosen hchosen hnodup hpos => ?_⟩
        obtain ⟨dt1, hdt1⟩ := exists_selectColumns numbers hrect hchosen hnodup hpos
        exact absurd (hdt1.symm.trans he) (by simp)
  | selectRows indices =>
      rcases after_cases h with hr | ⟨⟨e, he⟩, rfl⟩
      · exact selectRows_iff hr
      · refine ⟨hroomy, iff_of_true hrect fun hne hreach => ?_⟩
        obtain ⟨dt1, hdt1⟩ := exists_selectRows numbers hne hreach
        exact absurd (hdt1.symm.trans he) (by simp)
  | whereRows test =>
      rcases after_cases h with hr | ⟨⟨e, he⟩, rfl⟩
      · obtain ⟨indices, hindices, hr⟩ := bind_ok.mp hr
        obtain ⟨hroomy', hiff⟩ := selectRows_iff hr
        refine ⟨hroomy', hiff.trans ⟨fun h indices' hindices' hne => ?_, fun h hne _ =>
          h indices hindices hne⟩⟩
        obtain rfl := Except.ok.inj (hindices.symm.trans hindices')
        exact h hne (hrect.reaches (lt_of_whereIndices hindices))
      · refine ⟨hroomy, iff_of_true hrect fun indices hindices hne => ?_⟩
        obtain ⟨dt1, hdt1⟩ := exists_selectRows numbers hne
          (hrect.reaches (lt_of_whereIndices hindices))
        have hok : dt'.whereRows numbers test = .ok dt1 := by
          rw [DataTable.whereRows, hindices]
          exact hdt1
        exact absurd (hok.symm.trans he) (by simp)

end

/-! ## Runs -/

/-- `append-row` succeeds with values that can be put in their columns, and a failing
`append-row` leaves the rows as they are. -/
def Kept (numbers : Numbers ν) (dt : DataTable ν) : Op ν → Prop
  | .appendRow values =>
      (Converts values (types dt.columns) → (dt.appendRow numbers values).2 = .ok ()) ∧
      ∀ e, (dt.appendRow numbers values).2 = .error e →
        Unchanged dt (dt.appendRow numbers values).1
  | _ => True

section

variable {dt : DataTable ν}

theorem Unchanged.refl (dt : DataTable ν) : Unchanged dt dt := ⟨rfl, rfl, rfl⟩

theorem kept_of_ok (hrect : Rectangular dt) (hroomy : Roomy dt) {op : Op ν} (hok : Ok dt op) :
    Kept numbers dt op := by
  cases op with
  | appendRow values =>
      by_cases hlen : values.length = dt.columns.length
      · rcases appendRow_cases numbers hrect hroomy hlen with
          ⟨-, dt1, heq, -, -⟩ | ⟨hnot, dt1, e, heq, -, -, hunchanged⟩
        · rw [Kept, heq]
          exact ⟨fun _ => rfl, fun e he => by simp at he⟩
        · rw [Kept, heq]
          exact ⟨fun h => absurd h hnot, fun _ _ => hunchanged (hok hlen)⟩
      · rw [Kept, DataTable.appendRow, if_pos hlen]
        refine ⟨fun h => ?_, fun _ _ => .refl dt⟩
        have hlen' := h.length_eq
        rw [types, List.length_map] at hlen'
        exact absurd hlen' hlen
  | _ => trivial

theorem rectangular_new : Rectangular (DataTable.new : DataTable ν) := by
  intro col hcol
  simp [DataTable.new] at hcol

theorem roomy_new : Roomy (DataTable.new : DataTable ν) :=
  ⟨by show 0 < 64; omega, Nat.zero_le _⟩

variable (numbers) in
/-- **Tables stay rectangular**, and `append-row` does what it should, if and only if nothing
goes wrong in any step. -/
theorem rectangular_iff {ops : List (Op ν)} {dt : DataTable ν}
    (hrun : run (DataTable.step numbers) .new ops = some dt) :
    ((∀ (done : List (Op ν)) (t : DataTable ν), done <+: ops →
        run (DataTable.step numbers) .new done = some t → Rectangular t) ∧
      ∀ (done : List (Op ν)) (op : Op ν) (t : DataTable ν), done ++ [op] <+: ops →
        run (DataTable.step numbers) .new done = some t → Kept numbers t op) ↔
      Along (DataTable.step numbers) Ok .new ops := by
  have hiff := throughout_iff_along (I := Roomy) (P := Rectangular)
    (fun _ _ _ hroomy hrect => step_iff hroomy hrect) roomy_new rectangular_new hrun
  constructor
  · rintro ⟨hrect, -⟩
    exact hiff.mp hrect
  · intro halong
    refine ⟨hiff.mpr halong, fun done op t hdone ht => ?_⟩
    have hprefix : done <+: ops := (List.prefix_append done [op]).trans hdone
    obtain ⟨hroomy, hrect⟩ : Roomy t ∧ Rectangular t := by
      apply invariant_of_along (I := fun s => Roomy s ∧ Rectangular s) _ ⟨roomy_new, rectangular_new⟩
        (halong.take hprefix) ht
      intro s op s' hs hok hstep
      obtain ⟨hroomy', hiff'⟩ := step_iff hs.1 hs.2 hstep
      exact ⟨hroomy', hiff'.mpr hok⟩
    exact kept_of_ok hrect hroomy (halong.of_prefix hdone ht)

end

/-! ### A table of names -/

/-- Integers, for the examples. -/
def integers : Numbers ℤ where
  store := fun _ x => x
  null := fun _ => -2 ^ 31
  fresh := 0
  text := fun x => cstring (Text.integerText x)
  sortup := fun _ descending key => (List.range key.length).mergeSort fun i j =>
    if descending then key.getD j 0 ≤ key.getD i 0 else key.getD i 0 ≤ key.getD j 0
  perm_sortup := fun _ _ _ => List.mergeSort_perm _ _

/-- A table with a column of names and one of numbers. -/
def nameColumns : List (Op ℤ) := [.addColumn "name" .string, .addColumn "n" (.num .int)]

theorem rectangular_iff_names : ∃ ops, ops = nameColumns ++
      [.appendRow [.string (cstring [97]), .number 1], .set 0 1 (.number 2), .appendRow [.nil]] ∧
    ∀ (done : List (Op ℤ)) (t : DataTable ℤ), done <+: ops →
      run (DataTable.step integers) .new done = some t → Rectangular t := by
  refine ⟨_, rfl, ((rectangular_iff integers rfl).mpr ?_).1⟩
  refine ⟨trivial, trivial, ?_, trivial, ?_, trivial⟩
  · exact fun _ => Converts.clean (.cons rfl (.cons rfl .nil))
  · exact fun h => absurd h (by decide)

/-- A string that is no number is an error after the name has been appended, and a
selection of a row has room for this row only. -/
theorem not_rectangular_names :
    (∃ t, run (DataTable.step integers) .new
        (nameColumns ++ [.appendRow [.string (cstring [97]), .string (cstring [98])]]) = some t ∧
      ¬Rectangular t) ∧
    ∃ t, run (DataTable.step integers) .new
        (nameColumns ++ [.appendRow [.string (cstring [97]), .number 1], .selectRows [0]]) = some t ∧
      ¬Rectangular t := by
  refine ⟨⟨_, rfl, fun h => ?_⟩, ⟨_, rfl, fun h => ?_⟩⟩
  · have hname := h _ List.mem_cons_self
    exact absurd hname (by decide)
  · have hn := h _ (List.mem_cons_of_mem _ List.mem_cons_self)
    exact absurd hn (by decide)

end Lush.Sized
