import Lush.Tables.Join
import Lush.Tables.Sorting

/-!
# Joined tables

A join finds, for every row of the result, the rows that it comes from.  The columns are then
gathered, each from its own table (`assembleLeft_ok`).
-/

namespace Lush.Tables

open Datatable (ColType checked)

/-! ## Gathered columns -/

section

variable {t : ColType} {col : Column} {perm : List (Option ℕ)}

theorem copy_of_exact {x : Cell t} (h : x.Exact) : x.copy = x := by
  unfold Datatable.Cell.copy
  rw [show x.number = x.toInt from h]
  exact BitVec.ofInt_toInt

/-- **A column is gathered**, unless it is an `IntColumn`. -/
theorem joinGatherColumn_ok (htype : col.type ≠ .intcol) (hexact : col.Exact) (hne : perm ≠ [])
    (h : ∀ i, some i ∈ perm → i < col.values.length) :
    ∃ col', joinGatherColumn perm col = .ok col' ∧ Picked perm col col' := by
  cases col with
  | numeric t cells =>
      obtain ⟨dst, hdst, hmap⟩ := mapM_values (l := perm) (e := Value.cell t)
        (g := pick (.numeric t cells)) (f := gatherCell cells) fun p hp => by
        cases p with
        | none => exact ⟨_, rfl, rfl⟩
        | some i =>
            have hlt : i < cells.length := by simpa [Column.values] using h i hp
            have hget : cells[i]? = some cells[i] := List.getElem?_eq_getElem hlt
            refine ⟨cells[i], ?_, by simp [pick, Column.values, hget]⟩
            have hcopy : cells[i].copy = cells[i] := copy_of_exact (hexact _ (List.getElem_mem hlt))
            simp [gatherCell, checked_ok hget, Bind.bind, Except.bind, hcopy]
      refine ⟨.numeric t dst, ?_, rfl, hmap⟩
      have hlen : perm.length ≠ 0 := by simpa using hne
      unfold joinGatherColumn
      simp only [show nonempty perm.length = .ok () from if_neg hlen]
      exact congrArg (Except.bind · fun dst => .ok (Column.numeric t dst)) hdst
  | string sc =>
      obtain ⟨dst, hdst, hmap⟩ := mapM_values (l := perm) (e := Value.string)
        (g := pick (.string sc)) (f := gatherString sc.rows) fun p hp => by
        cases p with
        | none => exact ⟨_, rfl, rfl⟩
        | some i =>
            have hlt : i < sc.rows.length := by simpa [Column.values] using h i hp
            have hget : sc.rows[i]? = some sc.rows[i] := List.getElem?_eq_getElem hlt
            exact ⟨sc.rows[i], checked_ok hget, by simp [pick, Column.values, hget]⟩
      refine ⟨.string (.ofRows dst), ?_, rfl, ?_⟩
      · exact congrArg (Except.bind · fun rows => .ok (Column.string (.ofRows rows))) hdst
      · rw [Column.values, Dictionary.rows_ofRows]
        exact hmap
  | intcol ic => exact absurd rfl htype

/-- Rows of rows. -/
theorem Picked.trans {col1 col2 : Column} {q : List ℕ} (h1 : Picked (q.map some) col col1)
    (h2 : Picked perm col1 col2) (hperm : ∀ i, some i ∈ perm → i < q.length) :
    Picked (perm.map (Option.map (q.getD · 0))) col col2 where
  type := h2.type.trans h1.type
  values := by
    rw [h2.values, List.map_map]
    refine List.map_congr_left fun p hp => ?_
    cases p with
    | none => simp [pick, h1.type]
    | some i =>
        have hlt := hperm i hp
        have hvalues := congrArg (·[i]?) h1.values
        have hlen : i < col1.values.length := by
          rw [h1.length, List.length_map]
          exact hlt
        simpa [pick, hlt, hlen] using hvalues

end

/-! ## Joined tables -/

/-- The rows of columns that come from other columns. -/
abbrev AllPicked (sources : List (List (Option ℕ) × Column)) (columns : List Column) : Prop :=
  List.Forall₂ (fun p col => Picked p.1 p.2 col) sources columns

/-- The table whose rows are all kept, and the table where they are looked up. -/
inductive Side
  | kept
  | matched
deriving DecidableEq

/-- The rows of a side. -/
def Side.perm (rows : List (ℕ × Option ℕ)) : Side → List (Option ℕ)
  | kept => rows.map fun p => some p.1
  | matched => rows.map Prod.snd

@[simp] theorem Side.length_perm (rows : List (ℕ × Option ℕ)) (s : Side) :
    (s.perm rows).length = rows.length := by
  cases s <;> simp [perm]

/-- The result of a join: every row comes from a kept row, and from a row of the other table
or from none. -/
structure JoinedBy (names : List String) (sources : List (Side × Column))
    (rows : List (ℕ × Option ℕ)) (result : DataTable) : Prop where
  colNames : result.colNames = names
  columns : AllPicked (sources.map fun s => (s.1.perm rows, s.2)) result.columns
  numRows : result.numRows = rows.length

/-- The names of the columns of the left table, and of the other columns of the right one. -/
def leftNames (left right : DataTable) (onCol : String) : List String :=
  left.colNames ++ (otherColumns right onCol).map fun p => outName left.colNames ".right" p.1

/-- The columns of the left table, and the other columns of the right one. -/
def leftSources (left right : DataTable) (onCol : String) : List (Side × Column) :=
  left.columns.map (Prod.mk .kept) ++ (otherColumns right onCol).map fun p => (.matched, p.2)

/-- A join that keeps the rows of the left table. -/
abbrev JoinedLeft (left right : DataTable) (onCol : String) (rows : List (ℕ × Option ℕ))
    (result : DataTable) : Prop :=
  JoinedBy (leftNames left right onCol) (leftSources left right onCol) rows result

theorem map_leftSources {α : Type} (left right : DataTable) (onCol : String)
    (f : Side × Column → α) : (leftSources left right onCol).map f =
      left.columns.map (fun col => f (.kept, col)) ++
        (otherColumns right onCol).map fun p => f (.matched, p.2) := by
  rw [leftSources, List.map_append, List.map_map, List.map_map]
  rfl

/-- The columns can be copied by numbers: none is an `IntColumn`, and the stamps are the
same as numbers. -/
def Copied (dt : DataTable) : Prop := ∀ col ∈ dt.columns, col.type ≠ .intcol ∧ col.Exact

section

variable {left right dt dt' : DataTable} {onCol : String} {perm : List ℕ}

/-- What is known of every column is known of the other columns, and they keep their names. -/
theorem otherColumns_forall₂ (onCol : String) {R : Column → Column → Prop}
    (hnames : dt'.colNames = dt.colNames) (h : List.Forall₂ R dt.columns dt'.columns) :
    List.Forall₂ (fun p q => q.1 = p.1 ∧ R p.2 q.2) (otherColumns dt onCol)
      (otherColumns dt' onCol) := by
  have hzip : ∀ (names : List String) (cols cols' : List Column), List.Forall₂ R cols cols' →
      List.Forall₂ (fun p q => q.1 = p.1 ∧ R p.2 q.2) (names.zip cols) (names.zip cols') := by
    intro names cols cols' h
    induction h generalizing names with
    | nil => simp
    | cons hab _ ih =>
        cases names with
        | nil => simp
        | cons name names => exact .cons ⟨rfl, hab⟩ (ih names)
  unfold otherColumns
  rw [hnames]
  exact List.rel_filter (fun p q hpq => by simp [hpq.1]) (hzip _ _ _ h)

theorem mem_otherColumns {p : String × Column} (h : p ∈ otherColumns dt onCol) :
    p.1 ∈ dt.colNames ∧ p.1 ≠ onCol ∧ p.2 ∈ dt.columns := by
  obtain ⟨hmem, hne⟩ := List.mem_filter.mp h
  have hzip := List.of_mem_zip (a := p.1) (b := p.2) hmem
  exact ⟨hzip.1, by simpa using hne, hzip.2⟩

theorem Picked.exact {perm : List ℕ} {col col' : Column} (h : Picked (perm.map some) col col')
    (hexact : col.Exact) : col'.Exact := by
  cases col with
  | numeric t cells =>
      obtain ⟨cells', rfl⟩ := h.numeric
      intro x hx
      -- a cell of the new column is one of the old column
      have hmem : some x ∈ perm.map (cells[·]?) := h.cells_eq ▸ List.mem_map_of_mem hx
      obtain ⟨i, -, hget⟩ := List.mem_map.mp hmem
      exact hexact x (List.mem_of_getElem? hget)
  | string sc =>
      cases col' with
      | numeric t cells => exact absurd h.type (by simp [Column.type])
      | string sc' => trivial
      | intcol ic => trivial
  | intcol ic =>
      cases col' with
      | numeric t cells => exact absurd h.type (by simp [Column.type])
      | string sc' => trivial
      | intcol ic => trivial

theorem Selected.copied (h : Selected perm dt dt') (hcopied : Copied dt) : Copied dt' := by
  intro col' hcol'
  obtain ⟨i, hi, rfl⟩ := List.getElem_of_mem hcol'
  obtain ⟨hlen, hall⟩ := List.forall₂_iff_get.mp h.columns
  have hpicked := hall i (hlen ▸ hi) hi
  obtain ⟨htype, hexact⟩ := hcopied _ (List.getElem_mem (hlen ▸ hi))
  exact ⟨hpicked.type ▸ htype, hpicked.exact hexact⟩

/-- **Columns are gathered** from a table. -/
theorem gatherColumns_ok (hsound : dt.Sound) (hcopied : Copied dt) (perm : List (Option ℕ))
    (hne : perm ≠ []) (h : ∀ i, some i ∈ perm → i < dt.numRows) (cols : List Column)
    (hcols : cols ⊆ dt.columns) :
    ∃ cols', cols.mapM (joinGatherColumn perm) = .ok cols' ∧
      AllPicked (cols.map fun col => (perm, col)) cols' := by
  obtain ⟨cols', hcols', hall⟩ := mapM_ok (l := cols) (R := Picked perm) fun col hcol => by
    obtain ⟨htype, hexact⟩ := hcopied col (hcols hcol)
    refine joinGatherColumn_ok htype hexact hne fun i hi => ?_
    rw [hsound.full col (hcols hcol)]
    exact h i hi
  exact ⟨cols', hcols', List.forall₂_map_left_iff.mpr hall⟩

/-- **Joined tables**, from the rows of both. -/
theorem assembleLeft_ok (onCol : String) (hl : left.Sound) (hr : right.Sound)
    (hlc : Copied left) (hrc : Copied right) (rows : List (ℕ × Option ℕ)) (hne : rows ≠ [])
    (hlrows : ∀ p ∈ rows, p.1 < left.numRows)
    (hrrows : ∀ p ∈ rows, ∀ ri, p.2 = some ri → ri < right.numRows) :
    ∃ result, assembleLeft left right onCol (rows.map fun p => some p.1) (rows.map Prod.snd) =
      .ok result ∧ JoinedLeft left right onCol rows result := by
  obtain ⟨lCols, hlCols, hlall⟩ := gatherColumns_ok hl hlc
    (rows.map fun p => some p.1) (by simpa using hne)
    (fun i hi => by
      obtain ⟨p, hp, hpi⟩ := List.mem_map.mp hi
      rw [← Option.some.inj hpi]
      exact hlrows p hp) left.columns (List.Subset.refl _)
  obtain ⟨rCols, hrCols, hrall⟩ := gatherColumns_ok hr hrc (rows.map Prod.snd)
    (by simpa using hne)
    (fun i hi => by
      obtain ⟨p, hp, hpi⟩ := List.mem_map.mp hi
      exact hrrows p hp i hpi)
    ((otherColumns right onCol).map Prod.snd) (fun col hcol => by
      obtain ⟨p, hp, rfl⟩ := List.mem_map.mp hcol
      exact (mem_otherColumns hp).2.2)
  refine ⟨⟨leftNames left right onCol, lCols ++ rCols, rows.length⟩, ?_, rfl, ?_, rfl⟩
  · simp only [assembleLeft, hlCols, hrCols, Bind.bind, Except.bind, List.length_map, leftNames]
  · rw [List.map_map] at hrall
    rw [map_leftSources]
    exact List.rel_append hlall hrall

end

end Lush.Tables
